/-! # Blanks

Two sets are in use. Text is trimmed of Unicode white space at its ends; tokens are set apart by
five ASCII characters only.
-/

set_option autoImplicit false

namespace Blockwork.Text

def isWhiteSpace (c : Char) : Bool :=
  let n := c.toNat
  (0x09 ≤ n && n ≤ 0x0D) || n = 0x20 || n = 0x85 || n = 0xA0 || n = 0x1680 ||
    (0x2000 ≤ n && n ≤ 0x200A) || n = 0x2028 || n = 0x2029 || n = 0x202F || n = 0x205F ||
    n = 0x3000

/-- Space, tab, line feed, carriage return and form feed. -/
def isBlank (c : Char) : Bool :=
  c = ' ' || c = '\t' || c = '\n' || c = '\r' || c = '\x0c'

def dropWhileEnd {α : Type} (p : α → Bool) : List α → List α
  | [] => []
  | a :: as => match dropWhileEnd p as with
    | [] => if p a then [] else [a]
    | rest => a :: rest

def trim (cs : List Char) : List Char :=
  dropWhileEnd isWhiteSpace (cs.dropWhile isWhiteSpace)

def byteLength (cs : List Char) : Nat :=
  cs.foldr (fun c n => c.utf8Size + n) 0

@[simp] theorem byteLength_nil : byteLength [] = 0 := rfl

@[simp] theorem byteLength_cons (c : Char) (cs : List Char) :
    byteLength (c :: cs) = c.utf8Size + byteLength cs := rfl

@[simp] theorem byteLength_append (as bs : List Char) :
    byteLength (as ++ bs) = byteLength as + byteLength bs := by
  induction as with
  | nil => simp
  | cons a as ih => simp [ih, Nat.add_assoc]

end Blockwork.Text
