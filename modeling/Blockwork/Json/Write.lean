import Blockwork.Json.Basic
import Blockwork.Text.Quoted

/-! # Writing JSON

Values are written over several lines, each level indented by two spaces; empty lists and objects
stay closed. Numbers have the fewest digits that read back, of two equally near ones the even;
what is no finite number is null.
-/

set_option autoImplicit false

namespace Blockwork.Json

/-- Whole numbers keep a tail; exponents, always with a sign, appear outside of
`1e-5 ≤ x < 1e16`. -/
def numeralStyle : NumeralStyle := ⟨some (-5, 16), true, true, 1, .toEven⟩

def escaped (c : Char) : String :=
  if c = '"' then "\\\""
  else if c = '\\' then "\\\\"
  else if c = '\n' then "\\n"
  else if c = '\r' then "\\r"
  else if c = '\t' then "\\t"
  else if c = '\x08' then "\\b"
  else if c = '\x0c' then "\\f"
  else if c.toNat < 0x20 then "\\u" ++ Text.hex 4 c.toNat
  else c.toString

def quoted (s : String) : String := "\"" ++ String.join (s.toList.map escaped) ++ "\""

def indent (level : Nat) : String := "\n" ++ String.ofList (List.replicate (2 * level) ' ')

def block (opening closing : String) (level : Nat) (parts : List String) : String :=
  if parts.isEmpty then opening ++ closing
  else
    opening ++ indent (level + 1) ++ ("," ++ indent (level + 1)).intercalate parts ++
      indent level ++ closing

mutual

def lines (level : Nat) : Json → String
  | .null => "null"
  | .truth b => if b then "true" else "false"
  | .integer n => toString n
  | .real x => if x.isFinite then numeralStyle.write x else "null"
  | .text s => quoted s
  | .unpaired => "null"
  | .list items => block "[" "]" level (linesOfList (level + 1) items)
  | .object members => block "\x7b" "\x7d" level (linesOfMembers (level + 1) members)

def linesOfList (level : Nat) : List Json → List String
  | [] => []
  | j :: js => j.lines level :: linesOfList level js

def linesOfMembers (level : Nat) : List (String × Json) → List String
  | [] => []
  | (name, j) :: rest => (quoted name ++ ": " ++ j.lines level) :: linesOfMembers level rest

end

def pretty (j : Json) : String := j.lines 0

def ofNat (n : Nat) : Json := .integer n

def ofOption {α : Type} (f : α → Json) : Option α → Json
  | none => .null
  | some a => f a

end Blockwork.Json
