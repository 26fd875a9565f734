import Blockwork.Block.Tree

/-! # Nodes without a block

A layout goes through when every node has a block, and otherwise stops at the first node without
one, each node counted before its operands. The types of slots never stop it: a symbol asks for the
type of its slot, and it is only reached through nodes that have a block, which type their slots.
-/

set_option autoImplicit false

namespace Blockwork

def faultOf {α : Type} : Except Fault α → Option Fault
  | .ok _ => none
  | .error e => some e

theorem faultOf_eq_some_iff {α : Type} {outcome : Except Fault α} {e : Fault} :
    faultOf outcome = some e ↔ outcome = .error e := by
  cases outcome <;> simp [faultOf]

theorem faultOf_eq_none_iff {α : Type} {outcome : Except Fault α} :
    faultOf outcome = none ↔ ∃ a, outcome = .ok a := by
  cases outcome <;> simp [faultOf]

namespace Node

/-- The fault of a node that has no block. -/
def unsupported : Node → Option Fault
  | .operator .mod _ => some (.unknownOperator "%")
  | .operator .pow _ => some (.unknownOperator "^")
  | .call name _ =>
    if name ∈ textEqualityFunctions then none else some (.unknownFunction name)
  | .literal .null => some (.unknownValue "null")
  | _ => none

mutual

def preorder : Node → List Node
  | .group inner => inner.preorder
  | .operator op ns => .operator op ns :: preorderAll ns
  | .call name ns => .call name ns :: preorderAll ns
  | .symbol name => [.symbol name]
  | .literal v => [.literal v]

def preorderAll : List Node → List Node
  | [] => []
  | n :: ns => n.preorder ++ preorderAll ns

end

theorem fault_slotType (v : Literal) : faultOf v.slotType = (Node.literal v).unsupported := by
  cases v <;> rfl

theorem fault_operator (op : Operator) (ns : List Node) :
    faultOf (Node.operator op ns).resultType = (Node.operator op ns).unsupported := by
  cases op <;> rfl

theorem fault_call (name : String) (ns : List Node) :
    faultOf (Node.call name ns).resultType = (Node.call name ns).unsupported := by
  simp only [resultType, bare, unsupported, isTextEquality, List.contains_iff_mem]
  split <;> rfl

/-- A node that has a block types its slots. -/
theorem operandType_of_resultType {n : Node} {type : SlotType} (h : n.resultType = .ok type) :
    ∃ slot, operandType (some n) = .ok slot := by
  rw [resultType] at h
  rw [operandType]
  split at h
  · rename_i op ns hBare
    cases hFamily : op.family with
    | none =>
      rw [hFamily] at h
      cases h
    | some family => cases family <;> exact ⟨_, rfl⟩
  · rename_i name ns hBare
    split at h
    · rename_i hName
      exact ⟨.string, if_pos hName⟩
    · cases h
  · cases h

section

variable {K : Type} [Scalar K] {style : Style K}

mutual

/-- Below a node that types its slots, a layout stops at the first node without a block. -/
theorem fault_layOut : (n : Node) → (above : Option Parent) → (trail : Address) →
    (∃ slot, operandType (above.map Parent.node) = .ok slot) →
    faultOf (n.layOut style above trail) = n.preorder.findSome? unsupported
  | .group inner, above, trail, h => by
    rw [layOut, preorder]
    exact fault_layOut inner above trail h
  | .symbol name, above, trail, h => by
    obtain ⟨slot, hSlot⟩ := h
    rw [layOut, hSlot]
    rfl
  | .literal v, above, trail, _ => by
    rw [layOut, preorder, List.findSome?_singleton, ← fault_slotType]
    cases v.slotType <;> rfl
  | .operator op ns, above, trail, _ => by
    rw [layOut_operator, preorder, List.findSome?_cons, ← fault_operator]
    cases hType : (Node.operator op ns).resultType with
    | error e => rfl
    | ok type =>
      dsimp only [faultOf]
      rw [← fault_layOutAll ns _ _ _ 0 (operandType_of_resultType hType)]
      cases layOutAll style (.operator op ns) _ _ 0 ns <;> rfl
  | .call name ns, above, trail, _ => by
    rw [layOut_call, preorder, List.findSome?_cons, ← fault_call]
    cases hType : (Node.call name ns).resultType with
    | error e => rfl
    | ok type =>
      dsimp only [faultOf]
      rw [← fault_layOutAll ns _ _ _ 0 (operandType_of_resultType hType)]
      cases layOutAll style (.call name ns) _ _ 0 ns <;> rfl

theorem fault_layOutAll : (ns : List Node) → (node : Node) → (text : String) →
    (trail : Address) → (k : Nat) → (∃ slot, operandType (some node) = .ok slot) →
    faultOf (layOutAll style node text trail k ns) = (preorderAll ns).findSome? unsupported
  | [], node, text, trail, k, _ => by
    rw [layOutAll, preorderAll]
    rfl
  | n :: ns, node, text, trail, k, h => by
    rw [layOutAll, preorderAll, List.findSome?_append,
      ← fault_layOut n (some ⟨node, text, k⟩) trail h,
      ← fault_layOutAll ns node text trail (k + 1) h]
    cases n.layOut style (some ⟨node, text, k⟩) trail with
    | error e => rfl
    | ok first => cases layOutAll style node text trail (k + 1) ns <;> rfl

end

mutual

/-- The layout with a rule of its own for the types of slots. -/
def layOutBy (slotType : Option Node → Except Fault SlotType) (style : Style K)
    (above : Option Parent) (trail : Address) : Node → Except Fault (Block K)
  | .group inner => inner.layOutBy slotType style above trail
  | .symbol name =>
    match slotType (above.map Parent.node) with
    | .error e => .error e
    | .ok type =>
      .ok (style.leafBlock name type name (trail.extended (Parent.step name above)))
  | .literal v =>
    match v.slotType with
    | .error e => .error e
    | .ok type =>
      let text := v.canonical
      .ok (style.leafBlock v.label type text (trail.extended (Parent.step text above)))
  | .operator op ns =>
    let node := Node.operator op ns
    match node.resultType with
    | .error e => .error e
    | .ok type =>
      match op.stacking ns.length with
      | .error e => .error e
      | .ok stacked =>
        let text := node.canonical
        let address := trail.extended (Parent.step text above)
        match layOutAllBy slotType style node text address 0 ns with
        | .error e => .error e
        | .ok children => .ok (style.branchBlock op.symbol stacked type text address children)
  | .call name ns =>
    let node := Node.call name ns
    if isTextEquality name then
      match node.resultType with
      | .error e => .error e
      | .ok type =>
        let text := node.canonical
        let address := trail.extended (Parent.step text above)
        match layOutAllBy slotType style node text address 0 ns with
        | .error e => .error e
        | .ok children => .ok (style.branchBlock name true type text address children)
    else .error (.unknownFunction name)

def layOutAllBy (slotType : Option Node → Except Fault SlotType) (style : Style K) (node : Node)
    (text : String) (trail : Address) (k : Nat) : List Node → Except Fault (List (Block K))
  | [] => .ok []
  | n :: ns =>
    match n.layOutBy slotType style (some ⟨node, text, k⟩) trail with
    | .error e => .error e
    | .ok first =>
      match layOutAllBy slotType style node text trail (k + 1) ns with
      | .error e => .error e
      | .ok rest => .ok (first :: rest)

end

variable {slotType : Option Node → Except Fault SlotType}

mutual

/-- A rule that types what the library's rule types leads to the same layouts. -/
theorem layOutBy_eq
    (hRule : ∀ above type, operandType above = .ok type → slotType above = .ok type) :
    (n : Node) → (above : Option Parent) → (trail : Address) →
    (∃ slot, operandType (above.map Parent.node) = .ok slot) →
    n.layOutBy slotType style above trail = n.layOut style above trail
  | .group inner, above, trail, h => by
    rw [layOutBy, layOut]
    exact layOutBy_eq hRule inner above trail h
  | .symbol name, above, trail, h => by
    obtain ⟨slot, hSlot⟩ := h
    rw [layOutBy, layOut, hSlot, hRule _ _ hSlot]
  | .literal v, above, trail, _ => by
    rewrite [layOutBy, layOut]
    -- The two layouts match alike, but each with a match of its own.
    rfl
  | .operator op ns, above, trail, _ => by
    rw [layOutBy, layOut_operator]
    cases hType : (Node.operator op ns).resultType with
    | error e => rfl
    | ok type =>
      dsimp only
      rw [stacking_of_resultType hType]
      dsimp only
      rewrite [layOutAllBy_eq hRule ns _ _ _ 0 (operandType_of_resultType hType)]
      rfl
  | .call name ns, above, trail, _ => by
    rw [layOutBy, layOut_call, resultType_call]
    split
    · have hType : (Node.call name ns).resultType = .ok .boolean := if_pos ‹_›
      dsimp only
      rewrite [layOutAllBy_eq hRule ns _ _ _ 0 (operandType_of_resultType hType)]
      rfl
    · rfl

theorem layOutAllBy_eq
    (hRule : ∀ above type, operandType above = .ok type → slotType above = .ok type) :
    (ns : List Node) → (node : Node) → (text : String) → (trail : Address) → (k : Nat) →
    (∃ slot, operandType (some node) = .ok slot) →
    layOutAllBy slotType style node text trail k ns = layOutAll style node text trail k ns
  | [], node, text, trail, k, _ => by
    rw [layOutAllBy, layOutAll]
  | n :: ns, node, text, trail, k, h => by
    rewrite [layOutAllBy, layOutAll, layOutBy_eq hRule n (some ⟨node, text, k⟩) trail h,
      layOutAllBy_eq hRule ns node text trail (k + 1) h]
    rfl

end

end

end Node

/-- A layout goes through iff every node has a block, and stops with the fault of the first node
that has none. What the rule for the types of slots says where it fails makes no difference. -/
theorem Style.layOut_stops {K : Type} [Scalar K] (style : Style K) (n : Node) :
    ((∃ tree, style.layOut n = .ok tree) ↔ ∀ m ∈ n.preorder, m.unsupported = none) ∧
    (∀ e, style.layOut n = .error e ↔ n.preorder.findSome? Node.unsupported = some e) ∧
    ∀ slotType : Option Node → Except Fault SlotType,
      (∀ above type, Node.operandType above = .ok type → slotType above = .ok type) →
        (n.layOutBy slotType style none .empty).map BlockTree.ofRoot = style.layOut n := by
  have hRoot : ∃ slot, Node.operandType ((none : Option Parent).map Parent.node) = .ok slot :=
    ⟨.number, rfl⟩
  have hNode : faultOf (n.layOut style none .empty) = n.preorder.findSome? Node.unsupported :=
    Node.fault_layOut n none .empty hRoot
  have hFault : faultOf (style.layOut n) = n.preorder.findSome? Node.unsupported := by
    rw [← hNode, Style.layOut]
    cases n.layOut style none .empty <;> rfl
  refine ⟨?_, ?_, ?_⟩
  · rw [← faultOf_eq_none_iff, hFault, List.findSome?_eq_none_iff]
  · intro e
    rw [← faultOf_eq_some_iff, hFault]
  · intro slotType hRule
    rw [Node.layOutBy_eq hRule n none .empty hRoot]
    rfl

theorem Style.layOut_stops_nested :
    let style : Style Float := ⟨Settings.standardMetrics, .fixedAdvance 1⟩
    let n : Node := .operator .add [.group (.call "f" [.literal .null]), .operator .pow []]
    let total := fun above => Except.ok ((Node.operandType above).toOption.getD .string)
    style.layOut n = .error (.unknownFunction "f") ∧
      (n.layOutBy total style none .empty).map BlockTree.ofRoot = style.layOut n := by
  intro style n total
  obtain ⟨-, hFault, hTypes⟩ := Style.layOut_stops style n
  refine ⟨(hFault _).mpr rfl, hTypes total fun above type hType => ?_⟩
  simp only [total, hType, Except.toOption, Option.getD_some]

end Blockwork
