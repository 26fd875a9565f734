import Blockwork.Decimal.Written
import Blockwork.Text.Quoted

/-! # Expression trees

Trees are built from symbols, literals, operators, calls and explicit groups. A group only records
parentheses of the source: it is transparent to the canonical text and to everything built on it.
-/

set_option autoImplicit false

namespace Blockwork

inductive Operator where
  | add | sub | mul | div | mod | pow
  | gt | lt | ge | le | eq | ne
  | and | or | xor | not
  | neg
  deriving DecidableEq, Repr, Inhabited

namespace Operator

def symbol : Operator → String
  | .add => "+"
  | .sub => "-"
  | .neg => "-"
  | .mul => "*"
  | .div => "/"
  | .mod => "%"
  | .pow => "^"
  | .gt => ">"
  | .lt => "<"
  | .ge => ">="
  | .le => "<="
  | .eq => "=="
  | .ne => "!="
  | .and => "and"
  | .or => "or"
  | .xor => "xor"
  | .not => "not"

def isWord : Operator → Bool
  | .and | .or | .xor | .not => true
  | _ => false

def isUnary : Operator → Bool
  | .not | .neg => true
  | _ => false

end Operator

/-- The value of a literal. Not-a-number stands for an empty number slot. -/
inductive Literal where
  | number (x : Float)
  | text (s : String)
  | truth (b : Bool)
  | null

inductive Node where
  | symbol (name : String)
  | literal (value : Literal)
  | operator (op : Operator) (operands : List Node)
  | call (name : String) (operands : List Node)
  | group (inner : Node)

namespace Literal

def same : Literal → Literal → Bool
  | .number x, .number y => x == y || (x.isNaN && y.isNaN)
  | .text s, .text t => s = t
  | .truth a, .truth b => a = b
  | .null, .null => true
  | _, _ => false

def kindName : Literal → String
  | .number _ => "number"
  | .text _ => "string"
  | .truth _ => "boolean"
  | .null => "null"

def canonical : Literal → String
  | .number x =>
    if x.isNaN then "NaN"
    else if x.isFinite then NumeralStyle.plain.write x
    else if x > 0.0 then "Infinity" else "-Infinity"
  | .text s => Text.literal s
  | .truth b => if b then "true" else "false"
  | .null => "null"

end Literal

namespace Node

def operands : Node → List Node
  | .operator _ ns => ns
  | .call _ ns => ns
  | _ => []

def bare : Node → Node
  | .group inner => inner.bare
  | n => n

def kindName : Node → String
  | .symbol _ => "Symbol"
  | .literal _ => "Constant"
  | .operator _ _ => "Operator"
  | .call _ _ => "Function"
  | .group _ => "Parenthesis"

mutual

def ungroup : Node → Node
  | .symbol name => .symbol name
  | .literal v => .literal v
  | .operator op ns => .operator op (ungroupAll ns)
  | .call name ns => .call name (ungroupAll ns)
  | .group inner => inner.ungroup

def ungroupAll : List Node → List Node
  | [] => []
  | n :: ns => n.ungroup :: ungroupAll ns

end

mutual

def same : Node → Node → Bool
  | .symbol a, .symbol b => a = b
  | .literal v, .literal w => v.same w
  | .operator o ns, .operator p ms => o = p && sameAll ns ms
  | .call a ns, .call b ms => a = b && sameAll ns ms
  | .group n, .group m => n.same m
  | _, _ => false

def sameAll : List Node → List Node → Bool
  | [], [] => true
  | n :: ns, m :: ms => n.same m && sameAll ns ms
  | _, _ => false

end

mutual

/-- The fully parenthesised text of a tree. Reading it gives the tree back, up to groups. -/
def canonical : Node → String
  | .symbol name => name
  | .literal v => v.canonical
  | .group inner => inner.canonical
  | .operator op ns =>
    match canonicals ns with
    | [text] => "(" ++ op.symbol ++ (if op.isWord then " " else "") ++ text ++ ")"
    | texts =>
      let gap := if op.isWord then " " ++ op.symbol ++ " " else op.symbol
      "(" ++ gap.intercalate texts ++ ")"
  | .call name ns => name ++ "(" ++ ", ".intercalate (canonicals ns) ++ ")"

def canonicals : List Node → List String
  | [] => []
  | n :: ns => n.canonical :: canonicals ns

end

theorem canonicals_eq_map (ns : List Node) : canonicals ns = ns.map canonical := by
  induction ns with
  | nil => rfl
  | cons n ns ih => simp [canonicals, ih]

theorem ungroupAll_eq_map (ns : List Node) : ungroupAll ns = ns.map ungroup := by
  induction ns with
  | nil => rfl
  | cons n ns ih => simp [ungroupAll, ih]

end Node

end Blockwork
