import Blockwork.Block.Arrange
import Blockwork.Expression.Reading

/-! # Laying out expressions

Every node that is not a group becomes a block, from the operands up. The first node, from the
root down, that has no block stops the layout; nothing is laid out in part.
-/

set_option autoImplicit false

namespace Blockwork

/-- The parent of a node as its operand sees it. -/
structure Parent where
  node : Node
  text : String
  slot : Nat

def Parent.step (text : String) : Option Parent → AddressStep
  | none => .root text
  | some p => .child text p.slot p.text

/-- An atom's label: an empty number slot shows nothing, a text shows without quotes. -/
def Literal.label : Literal → String
  | .number x => if x.isNaN then "" else (Literal.number x).canonical
  | .text s => s
  | v => v.canonical

namespace Operator

def stacking (op : Operator) (count : Nat) : Except Fault Bool :=
  match op.family with
  | some .logical => .ok true
  | some _ => .ok (op.isUnary || count != 2)
  | none => .error (.unknownOperator op.symbol)

def isStacked (op : Operator) (count : Nat) : Bool :=
  op.family = some .logical || op.isUnary || count != 2

end Operator

variable {K : Type} [Scalar K]

namespace Style

def leafBlock (style : Style K) (label : String) (type : SlotType) (expression : String)
    (address : Address) : Block K :=
  let (size, shape) := style.atom label
  .leaf ⟨.zero, size, type, expression, address, .none⟩ shape

def branchBlock (style : Style K) (label : String) (stacked : Bool) (type : SlotType)
    (expression : String) (address : Address) (children : List (Block K)) : Block K :=
  let plan := style.plan label stacked (children.map Block.occupant)
  .branch ⟨.zero, plan.size, type, expression, address, .none⟩ plan.shape
    (List.zipWith Block.withOffset children plan.offsets)

end Style

namespace Node

mutual

/-- The block of a node below a parent; `trail` is the parent's address. -/
def layOut (style : Style K) (above : Option Parent) (trail : Address) :
    Node → Except Fault (Block K)
  | .group inner => inner.layOut style above trail
  | .symbol name =>
    match operandType (above.map Parent.node) with
    | .error e => .error e
    | .ok type =>
      .ok (style.leafBlock name type name (trail.extended (Parent.step name above)))
  | .literal v =>
    match v.slotType with
    | .error e => .error e
    | .ok type =>
      let text := v.canonical
      .ok (style.leafBlock v.label type text (trail.extended (Parent.step text above)))
  | .operator op ns =>
    let node := Node.operator op ns
    match node.resultType with
    | .error e => .error e
    | .ok type =>
      match op.stacking ns.length with
      | .error e => .error e
      | .ok stacked =>
        let text := node.canonical
        let address := trail.extended (Parent.step text above)
        match layOutAll style node text address 0 ns with
        | .error e => .error e
        | .ok children => .ok (style.branchBlock op.symbol stacked type text address children)
  | .call name ns =>
    let node := Node.call name ns
    if isTextEquality name then
      match node.resultType with
      | .error e => .error e
      | .ok type =>
        let text := node.canonical
        let address := trail.extended (Parent.step text above)
        match layOutAll style node text address 0 ns with
        | .error e => .error e
        | .ok children => .ok (style.branchBlock name true type text address children)
    else .error (.unknownFunction name)

def layOutAll (style : Style K) (node : Node) (text : String) (trail : Address) (k : Nat) :
    List Node → Except Fault (List (Block K))
  | [] => .ok []
  | n :: ns =>
    match n.layOut style (some ⟨node, text, k⟩) trail with
    | .error e => .error e
    | .ok first =>
      match layOutAll style node text trail (k + 1) ns with
      | .error e => .error e
      | .ok rest => .ok (first :: rest)

end

/-! The type of a node is found before its operands are arranged. So a node that has no block is
found twice, and always by the first of the two checks. -/

theorem stacking_of_resultType {op : Operator} {ns : List Node} {type : SlotType}
    (h : (Node.operator op ns).resultType = .ok type) (count : Nat) :
    op.stacking count = .ok (op.isStacked count) := by
  cases hFamily : op.family with
  | none =>
    simp only [resultType, bare, hFamily] at h
    cases h
  | some family => cases family <;> simp [Operator.stacking, Operator.isStacked, hFamily]

theorem resultType_call (name : String) (ns : List Node) :
    (Node.call name ns).resultType =
      if isTextEquality name then .ok .boolean else .error (.unknownFunction name) :=
  rfl

theorem layOut_operator (style : Style K) (above : Option Parent) (trail : Address)
    (op : Operator) (ns : List Node) :
    (Node.operator op ns).layOut style above trail =
      match (Node.operator op ns).resultType with
      | .error e => .error e
      | .ok type =>
        let text := (Node.operator op ns).canonical
        let address := trail.extended (Parent.step text above)
        match layOutAll style (.operator op ns) text address 0 ns with
        | .error e => .error e
        | .ok children =>
          let stacked := op.isStacked ns.length
          .ok (style.branchBlock op.symbol stacked type text address children) := by
  rw [layOut]
  cases hType : (Node.operator op ns).resultType with
  | error e => rfl
  | ok type =>
    dsimp only
    rw [stacking_of_resultType hType]

theorem layOut_call (style : Style K) (above : Option Parent) (trail : Address) (name : String)
    (ns : List Node) :
    (Node.call name ns).layOut style above trail =
      match (Node.call name ns).resultType with
      | .error e => .error e
      | .ok type =>
        let text := (Node.call name ns).canonical
        let address := trail.extended (Parent.step text above)
        match layOutAll style (.call name ns) text address 0 ns with
        | .error e => .error e
        | .ok children => .ok (style.branchBlock name true type text address children) := by
  rw [layOut, resultType_call]
  split
  · rfl
  · rfl

end Node

end Blockwork
