import Blockwork.Expression.Node
import Blockwork.Fault

/-! # Types of slots and expressions

Arithmetic takes and gives numbers, comparisons take numbers and give truth values, logic takes
and gives truth values, and a text comparison takes strings and gives a truth value. Nothing else
has a block.
-/

set_option autoImplicit false

namespace Blockwork

inductive SlotType where
  | number
  | string
  | boolean
  deriving DecidableEq, Repr, Inhabited

namespace SlotType

def name : SlotType → String
  | .number => "number"
  | .string => "string"
  | .boolean => "boolean"

def ofName? : String → Option SlotType
  | "number" => some .number
  | "string" => some .string
  | "boolean" => some .boolean
  | _ => none

/-- The expression left in a slot whose block was pulled out. -/
def placeholder : SlotType → String
  | .number => "NaN"
  | .string => "\"\""
  | .boolean => "true"

end SlotType

inductive OperatorFamily where
  | arithmetic
  | relational
  | logical
  deriving DecidableEq, Repr

def Operator.family : Operator → Option OperatorFamily
  | .add | .sub | .mul | .div | .neg => some .arithmetic
  | .gt | .lt | .ge | .le | .eq | .ne => some .relational
  | .and | .or | .xor | .not => some .logical
  | .mod | .pow => none

def textEqualityFunctions : List String := ["equalText"]

def isTextEquality (name : String) : Bool := textEqualityFunctions.contains name

namespace Literal

def slotType : Literal → Except Fault SlotType
  | .number _ => .ok .number
  | .text _ => .ok .string
  | .truth _ => .ok .boolean
  | .null => .error (.unknownValue (kindName .null))

end Literal

namespace Node

/-- The type that the operands of a node are expected to have; a root stands in a number slot. -/
def operandType : Option Node → Except Fault SlotType
  | none => .ok .number
  | some parent =>
    match parent.bare with
    | .operator op _ =>
      match op.family with
      | some .arithmetic | some .relational => .ok .number
      | some .logical => .ok .boolean
      | none => .error (.unknownOperator op.symbol)
    | .call name _ =>
      if isTextEquality name then .ok .string
      else .error (.unknownOperator ("function " ++ name))
    | other => .error (.unknownOperator other.kindName)

def resultType (n : Node) : Except Fault SlotType :=
  match n.bare with
  | .operator op _ =>
    match op.family with
    | some .arithmetic => .ok .number
    | some .relational | some .logical => .ok .boolean
    | none => .error (.unknownOperator op.symbol)
  | .call name _ =>
    if isTextEquality name then .ok .boolean else .error (.unknownFunction name)
  | other => .error (.unknownOperator other.kindName)

end Node

end Blockwork
