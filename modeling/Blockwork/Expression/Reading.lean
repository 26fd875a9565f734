import Blockwork.Expression.Node
import Blockwork.Expression.Scan
import Blockwork.Front

/-! # Reading expressions

From the loosest operators to the tightest: `or`, `xor`, `and`, comparisons, `+ -`, `* / %`, the
unary operators, `^`, and at last literals, symbols, calls and groups. Binary operators lean to
the left; `^` takes a unary expression on its right. Every reader returns the tokens it left, with
the proof that they are fewer.
-/

set_option autoImplicit false

namespace Blockwork

structure Extension (source : List Token) where
  value : Node
  rest : List Token
  not_longer : rest.length ≤ source.length

namespace Reading

def fault {α : Type} (source : List Token) (cause : TokenKind → SourceCause) :
    Except SourceFault α :=
  match source with
  | [] => .error ⟨0, cause .eof⟩
  | t :: _ => .error ⟨t.start, cause t.kind⟩

abbrev Level := TokenKind → Option Operator

def levels : List Level := [
  fun | .or => some .or | _ => none,
  fun | .xor => some .xor | _ => none,
  fun | .and => some .and | _ => none,
  fun
    | .equal => some .eq
    | .notEqual => some .ne
    | .lessEqual => some .le
    | .greaterEqual => some .ge
    | .less => some .lt
    | .greater => some .gt
    | _ => none,
  fun | .plus => some .add | .minus => some .sub | _ => none,
  fun | .star => some .mul | .slash => some .div | .percent => some .mod | _ => none]

/-- The node of a name that is not called; some names are literals. -/
def named (name : String) : Node :=
  if name = "true" then .literal (.truth true)
  else if name = "false" then .literal (.truth false)
  else if name = "NaN" then .literal (.number (0.0 / 0.0))
  else if name = "Infinity" then .literal (.number (1.0 / 0.0))
  else if name = "null" then .literal .null
  else .symbol name

mutual

def binary (ls : List Level) (source : List Token) : Except SourceFault (Front Node source) :=
  match ls with
  | [] => unary source
  | level :: tighter =>
    match binary tighter source with
    | .error e => .error e
    | .ok left =>
      match chain level tighter left.value left.rest with
      | .error e => .error e
      | .ok whole =>
        .ok ⟨whole.value, whole.rest, Nat.lt_of_le_of_lt whole.not_longer left.shorter⟩
termination_by (source.length, ls.length + 3)
decreasing_by
  · exact Prod.Lex.right _ (by simp)
  · exact Prod.Lex.right _ (by simp)
  · exact Prod.Lex.left _ _ left.shorter

def chain (level : Level) (tighter : List Level) (left : Node) (source : List Token) :
    Except SourceFault (Extension source) :=
  match source with
  | [] => .ok ⟨left, [], Nat.le_refl _⟩
  | t :: rest =>
    match level t.kind with
    | none => .ok ⟨left, t :: rest, Nat.le_refl _⟩
    | some op =>
      match binary tighter rest with
      | .error e => .error e
      | .ok right =>
        match chain level tighter (.operator op [left, right.value]) right.rest with
        | .error e => .error e
        | .ok whole => .ok ⟨whole.value, whole.rest, by
            have := right.shorter
            have := whole.not_longer
            simp only [List.length_cons]
            omega⟩
termination_by (source.length, 0)
decreasing_by
  · exact Prod.Lex.left _ _ (by simp)
  · exact Prod.Lex.left _ _ (by have := right.shorter; simp only [List.length_cons]; omega)

/-- A unary expression; a plus sign leaves no node. -/
def unary (source : List Token) : Except SourceFault (Front Node source) :=
  match source with
  | [] => fault [] .unexpectedToken
  | t :: rest =>
    match t.kind with
    | .minus => (unary rest).map (Front.after t (.operator .neg [·]))
    | .plus => (unary rest).map (Front.after t id)
    | .not => (unary rest).map (Front.after t (.operator .not [·]))
    | _ => power (t :: rest)
termination_by (source.length, 2)
decreasing_by
  · exact Prod.Lex.left _ _ (by simp)
  · exact Prod.Lex.left _ _ (by simp)
  · exact Prod.Lex.left _ _ (by simp)
  · exact Prod.Lex.right _ (by simp)

def power (source : List Token) : Except SourceFault (Front Node source) :=
  match primary source with
  | .error e => .error e
  | .ok ⟨base, t :: rest, h⟩ =>
    match t.kind with
    | .caret =>
      match unary rest with
      | .error e => .error e
      | .ok up => .ok ⟨.operator .pow [base, up.value], up.rest, by
          have := up.shorter
          simp only [List.length_cons] at h
          omega⟩
    | _ => .ok ⟨base, t :: rest, h⟩
  | .ok ⟨base, [], h⟩ => .ok ⟨base, [], h⟩
termination_by (source.length, 1)
decreasing_by
  · exact Prod.Lex.right _ (by simp)
  · exact Prod.Lex.left _ _ (by simp only [List.length_cons] at h; omega)

def primary (source : List Token) : Except SourceFault (Front Node source) :=
  match source with
  | [] => fault [] .unexpectedToken
  | t :: rest =>
    match t.kind with
    | .number x => .ok ⟨.literal (.number x), rest, by simp⟩
    | .text s => .ok ⟨.literal (.text s), rest, by simp⟩
    | .ident name =>
      match rest with
      | [] => .ok ⟨named name, [], by simp⟩
      | u :: inner =>
        match u.kind with
        | .leftParen => (arguments inner).map fun r => (r.after u (.call name)).after t id
        | _ => .ok ⟨named name, u :: inner, by simp⟩
    | .leftParen =>
      match binary levels rest with
      | .error e => .error e
      | .ok ⟨inner, u :: behind, h⟩ =>
        match u.kind with
        | .rightParen => .ok ⟨.group inner, behind, by
            simp only [List.length_cons] at h ⊢
            omega⟩
        | _ => fault (u :: behind) (.expected .rightParen)
      | .ok ⟨_, [], _⟩ => fault [] (.expected .rightParen)
    | _ => fault (t :: rest) .unexpectedToken
termination_by (source.length, 0)
decreasing_by
  · exact Prod.Lex.left _ _ (by simp only [List.length_cons]; omega)
  · exact Prod.Lex.left _ _ (by simp)

def arguments (source : List Token) : Except SourceFault (Front (List Node) source) :=
  match source with
  | [] => operands []
  | t :: rest =>
    match t.kind with
    | .rightParen => .ok ⟨[], rest, by simp⟩
    | _ => operands (t :: rest)
termination_by (source.length, levels.length + 5)
decreasing_by
  · exact Prod.Lex.right _ (by simp)
  · exact Prod.Lex.right _ (by simp)

def operands (source : List Token) : Except SourceFault (Front (List Node) source) :=
  match binary levels source with
  | .error e => .error e
  | .ok ⟨first, t :: rest, h⟩ =>
    match t.kind with
    | .comma =>
      match operands rest with
      | .error e => .error e
      | .ok later => .ok ⟨first :: later.value, later.rest, by
          have := later.shorter
          simp only [List.length_cons] at h
          omega⟩
    | .rightParen => .ok ⟨[first], rest, by simp only [List.length_cons] at h; omega⟩
    | _ => fault (t :: rest) (.expected .rightParen)
  | .ok ⟨_, [], _⟩ => fault [] (.expected .rightParen)
termination_by (source.length, levels.length + 4)
decreasing_by
  · exact Prod.Lex.right _ (by simp)
  · exact Prod.Lex.left _ _ (by simp only [List.length_cons] at h; omega)

end

def complete (source : List Token) : Except SourceFault Node :=
  match binary levels source with
  | .error e => .error e
  | .ok ⟨node, t :: rest, _⟩ =>
    match t.kind with
    | .eof => .ok node
    | _ => fault (t :: rest) (.expected .eof)
  | .ok ⟨_, [], _⟩ => fault [] (.expected .eof)

end Reading

/-- The tree of a source text; white space at its ends does not count. -/
def Node.read (s : String) : Except SourceFault Node :=
  match Text.trim s.toList with
  | [] => .error ⟨0, .empty⟩
  | cs =>
    match Scan.tokens 0 cs with
    | .error e => .error e
    | .ok tokens => Reading.complete tokens

end Blockwork
