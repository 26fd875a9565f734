import Blockwork.Front
import Blockwork.Json.Number

/-! # Reading JSON

The reader takes one value with blanks around it and refuses all else: comments, trailing commas,
bare control characters, numbers with leading zeros.
-/

set_option autoImplicit false

namespace Blockwork.Json

def isSpace (c : Char) : Bool := c = ' ' || c = '\t' || c = '\n' || c = '\r'

def skip (cs : List Char) : List Char := cs.dropWhile isSpace

theorem length_skip_le (cs : List Char) : (skip cs).length ≤ cs.length :=
  (List.dropWhile_suffix (p := isSpace)).length_le

def hexValue? (c : Char) : Option Nat :=
  if '0' ≤ c ∧ c ≤ '9' then some (c.toNat - '0'.toNat)
  else if 'a' ≤ c ∧ c ≤ 'f' then some (c.toNat - 'a'.toNat + 10)
  else if 'A' ≤ c ∧ c ≤ 'F' then some (c.toNat - 'A'.toNat + 10)
  else none

def unit? (a b c d : Char) : Option Nat := do
  return (((← hexValue? a) * 16 + (← hexValue? b)) * 16 + (← hexValue? c)) * 16 + (← hexValue? d)

def unescape? : Char → Option Char
  | '"' => some '"'
  | '\\' => some '\\'
  | '/' => some '/'
  | 'b' => some '\x08'
  | 'f' => some '\x0c'
  | 'n' => some '\n'
  | 'r' => some '\r'
  | 't' => some '\t'
  | _ => none

def units? : List Char → Option (List Nat × List Char)
  | [] => none
  | '"' :: rest => some ([], rest)
  | '\\' :: 'u' :: a :: b :: c :: d :: rest =>
    match unit? a b c d, units? rest with
    | some u, some (us, behind) => some (u :: us, behind)
    | _, _ => none
  | '\\' :: e :: rest =>
    match unescape? e, units? rest with
    | some c, some (us, behind) => some (c.toNat :: us, behind)
    | _, _ => none
  | c :: rest =>
    if c = '\\' ∨ c.toNat < 0x20 then none
    else match units? rest with
      | some (us, behind) => some (c.toNat :: us, behind)
      | none => none

def pair? : List Nat → Option (List Char)
  | [] => some []
  | [u] => if 0xD800 ≤ u ∧ u < 0xE000 then none else some [Char.ofNat u]
  | u :: v :: rest =>
    if 0xD800 ≤ u ∧ u < 0xDC00 then
      if 0xDC00 ≤ v ∧ v < 0xE000 then
        (pair? rest).map (Char.ofNat (0x10000 + (u - 0xD800) * 0x400 + (v - 0xDC00)) :: ·)
      else none
    else if 0xDC00 ≤ u ∧ u < 0xE000 then none
    else (pair? (v :: rest)).map (Char.ofNat u :: ·)

def spell (units : List Nat) : Option String := (pair? units).map String.ofList

def number? (cs : List Char) : Option (Json × List Char) :=
  let (negative, body) := match cs with
    | '-' :: r => (true, r)
    | r => (false, r)
  let whole := body.takeWhile Char.isDigit
  let rest := body.dropWhile Char.isDigit
  if whole = [] ∨ (whole.head? = some '0' ∧ 1 < whole.length) then none
  else do
    let (fraction, rest) ← match rest with
      | '.' :: r =>
        let digits := r.takeWhile Char.isDigit
        if digits = [] then none else some (some digits, r.dropWhile Char.isDigit)
      | r => some (none, r)
    let (power, rest) ← match rest with
      | mark :: r =>
        if mark = 'e' ∨ mark = 'E' then
          let (lowered, r) := match r with
            | '+' :: r => (false, r)
            | '-' :: r => (true, r)
            | r => (false, r)
          let digits := r.takeWhile Char.isDigit
          let size : Int := Decimal.ofDigits digits
          if digits = [] then none
          else some (some (if lowered then -size else size), r.dropWhile Char.isDigit)
        else some (none, mark :: r)
      | [] => some (none, [])
    return (ofParts negative whole fraction power, rest)

def word? (word cs : List Char) : Option (List Char) :=
  if word.isPrefixOf cs then some (cs.drop word.length) else none

def scalar? (cs : List Char) : Option (Json × List Char) :=
  match cs with
  | '"' :: rest =>
    (units? rest).map fun (us, behind) =>
      (match spell us with | some s => .text s | none => .unpaired, behind)
  | _ =>
    ((word? "null".toList cs).map fun rest => (.null, rest)) <|>
      ((word? "true".toList cs).map fun rest => (.truth true, rest)) <|>
      ((word? "false".toList cs).map fun rest => (.truth false, rest)) <|>
      number? cs

/-- A reading that is used only if it is shorter than its source. -/
def shorter? {α : Type} (source : List Char) : Option (α × List Char) → Option (Front α source)
  | some (value, rest) =>
    if h : rest.length < source.length then some ⟨value, rest, h⟩ else none
  | none => none

def ofMembers (members : List (Option String × Json)) : Json :=
  if members.all (·.1.isSome) then
    .object (members.filterMap fun (name, j) => name.map fun n => (n, j))
  else .unpaired

mutual

def value (source : List Char) : Option (Front Json source) :=
  match _h : skip source with
  | '[' :: rest =>
    match items rest with
    | some ⟨js, behind, _⟩ => shorter? source (some (.list js, behind))
    | none => none
  | '\x7b' :: rest =>
    match members rest with
    | some ⟨ms, behind, _⟩ => shorter? source (some (ofMembers ms, behind))
    | none => none
  | cs => shorter? source (scalar? cs)
termination_by (source.length, 0)
decreasing_by
  all_goals
    have := length_skip_le source
    simp_all only [List.length_cons]
    exact Prod.Lex.left _ _ (by omega)

def items (source : List Char) : Option (Front (List Json) source) :=
  match skip source with
  | ']' :: rest => shorter? source (some ([], rest))
  | _ => itemsFrom source
termination_by (source.length, 2)
decreasing_by exact Prod.Lex.right _ (by simp)

def itemsFrom (source : List Char) : Option (Front (List Json) source) :=
  match value source with
  | none => none
  | some first =>
    match _h : skip first.rest with
    | ']' :: rest => shorter? source (some ([first.value], rest))
    | ',' :: rest =>
      match itemsFrom rest with
      | some later => shorter? source (some (first.value :: later.value, later.rest))
      | none => none
    | _ => none
termination_by (source.length, 1)
decreasing_by
  · exact Prod.Lex.right _ (by simp)
  · have := length_skip_le first.rest
    have := first.shorter
    simp_all only [List.length_cons]
    exact Prod.Lex.left _ _ (by omega)

def members (source : List Char) : Option (Front (List (Option String × Json)) source) :=
  match skip source with
  | '\x7d' :: rest => shorter? source (some ([], rest))
  | _ => membersFrom source
termination_by (source.length, 2)
decreasing_by exact Prod.Lex.right _ (by simp)

def membersFrom (source : List Char) : Option (Front (List (Option String × Json)) source) :=
  match skip source with
  | '"' :: named =>
    match units? named with
    | none => none
    | some (us, unnamed) =>
      match skip unnamed with
      | ':' :: rest =>
        if _shorter : rest.length < source.length then
          match value rest with
          | none => none
          | some first =>
            match _h : skip first.rest with
            | '\x7d' :: rest => shorter? source (some ([(spell us, first.value)], rest))
            | ',' :: rest =>
              match membersFrom rest with
              | some later =>
                shorter? source (some ((spell us, first.value) :: later.value, later.rest))
              | none => none
            | _ => none
        else none
      | _ => none
  | _ => none
termination_by (source.length, 1)
decreasing_by
  · exact Prod.Lex.left _ _ _shorter
  · have := length_skip_le first.rest
    have := first.shorter
    simp_all only [List.length_cons]
    exact Prod.Lex.left _ _ (by omega)

end

def read? (s : String) : Option Json :=
  match value s.toList with
  | some front => if skip front.rest = [] then some front.value else none
  | none => none

end Blockwork.Json
