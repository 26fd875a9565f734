import Blockwork.Proofs.Block.Correspondence
import Blockwork.Proofs.Block.Shown
import Blockwork.Proofs.Expression.WellTyped

/-! # Well typed texts

A text is well typed when every block below the root has the type that the node above it expects
of its operands. The types of the blocks are those of the nodes in their slots, so this is a
property of the tree that is read from the text.
-/

set_option autoImplicit false

namespace Blockwork

variable {K : Type} [Scalar K]

namespace Node

variable {style : Style K}

theorem Shown.exists_operandType {n m : Node} (h : n.Shown) (hm : m ∈ n.bare.operands) :
    ∃ slot, operandType (some n) = .ok slot := by
  induction h with
  | symbol | literal => cases hm
  | @operator _ family _ hFamily => cases family <;> simp [operandType, bare, hFamily]
  | call hName => simp [operandType, bare, hName]
  | group _ ih => exact ih hm

/-- The type of a block is that of its node in the slot. -/
theorem typeIn_of_layOut {slot : SlotType} : (n : Node) → {above : Option Parent} →
    {trail : Address} → {b : Block K} → n.layOut style above trail = .ok b →
    operandType (above.map Parent.node) = .ok slot → n.typeIn slot = .ok b.frame.type
  | .group inner, above, trail, b, h, hSlot => by
    rw [layOut] at h
    exact typeIn_of_layOut inner h hSlot
  | .symbol name, above, trail, b, h, hSlot => by
    rw [layOut, hSlot] at h
    obtain rfl := Except.ok.inj h
    rfl
  | .literal v, above, trail, b, h, _ => by
    rw [layOut] at h
    split at h
    · cases h
    · rename_i type hType
      obtain rfl := Except.ok.inj h
      exact hType
  | .operator op ns, above, trail, b, h, _ => by
    obtain ⟨type, children, hType, -, rfl⟩ := layOut_operator_inv h
    exact hType
  | .call name ns, above, trail, b, h, _ => by
    obtain ⟨type, children, hType, -, rfl⟩ := layOut_call_inv h
    exact hType

/-- Only a symbol asks its slot for a type. -/
theorem typeIn_of_layOut_of_ne_symbol (slot : SlotType) : (n : Node) → {above : Option Parent} →
    {trail : Address} → {b : Block K} → n.layOut style above trail = .ok b →
    (∀ name, n.ungroup ≠ .symbol name) → n.typeIn slot = .ok b.frame.type
  | .group inner, above, trail, b, h, hOther => by
    rw [layOut] at h
    exact typeIn_of_layOut_of_ne_symbol slot inner h hOther
  | .symbol name, above, trail, b, h, hOther => absurd rfl (hOther name)
  | .literal v, above, trail, b, h, _ => by
    rw [layOut] at h
    split at h
    · cases h
    · rename_i type hType
      obtain rfl := Except.ok.inj h
      exact hType
  | .operator op ns, above, trail, b, h, _ => by
    obtain ⟨type, children, hType, -, rfl⟩ := layOut_operator_inv h
    exact hType
  | .call name ns, above, trail, b, h, _ => by
    obtain ⟨type, children, hType, -, rfl⟩ := layOut_call_inv h
    exact hType

theorem isLeaf_of_layOut_symbol {name : String} : (n : Node) → {above : Option Parent} →
    {trail : Address} → {b : Block K} → n.layOut style above trail = .ok b →
    n.ungroup = .symbol name → b.isLeaf = true
  | .group inner, above, trail, b, h, hSymbol => by
    rw [layOut] at h
    exact isLeaf_of_layOut_symbol inner h hSymbol
  | .symbol name, above, trail, b, h, _ => by
    rw [layOut] at h
    split at h
    · cases h
    · obtain rfl := Except.ok.inj h
      rfl

theorem typeIn_of_descend {n parent : Node} {above : Option Parent} {trail : Address}
    {b c : Block K} {path : List Nat} {k : Nat} (h : n.layOut style above trail = .ok b)
    (hParent : n.ungroup.descend path = some parent)
    (hc : b.descend (path ++ [k]) = some c) :
    ∃ m slot, parent.operands[k]? = some m ∧ operandType (some parent) = .ok slot ∧
      m.typeIn slot = .ok c.frame.type := by
  rw [Block.descend_concat] at hc
  obtain ⟨d, hd, hc⟩ := Option.bind_eq_some_iff.mp hc
  rw [← Block.withOffset_self b] at hd
  obtain ⟨outer, higher, below, inner, place, hOuter, rfl, hNode⟩ := layOut_of_descend h hd
  obtain rfl := Option.some.inj (hParent.symm.trans hNode)
  rw [Block.children_withOffset] at hc
  obtain ⟨m, text, lower, child, offset, hm, hChild, rfl⟩ := child_of_layOut outer hOuter hc
  have hShown := shown_of_layOut style outer higher below hOuter
  obtain ⟨slot, hSlot⟩ := hShown.exists_operandType (List.mem_of_getElem? hm)
  have hBare : operandType (some outer.bare) = .ok slot := (operandType_bare outer).trans hSlot
  refine ⟨m.ungroup, slot, operand_ungroup hm, (operandType_ungroup outer).trans hSlot, ?_⟩
  rw [typeIn_ungroup, Block.type_withOffset]
  exact typeIn_of_layOut m hChild hBare

end Node

/-- Every block below the root has the type that the node above it expects of operands. -/
def Style.WellTyped (style : Style K) (text : String) : Prop :=
  ∀ n tree, Node.read text = .ok n → style.layOutText text = .ok tree →
    ∀ path k parent b, n.ungroup.descend path = some parent →
      tree.root.descend (path ++ [k]) = some b →
        Node.operandType (some parent) = .ok b.frame.type

namespace Style

variable {style : Style K}

theorem wellTyped_iff {text : String} {n : Node} {tree : BlockTree K}
    (hRead : Node.read text = .ok n) (hTree : style.layOutText text = .ok tree) :
    style.WellTyped text ↔ n.WellTyped := by
  obtain ⟨m, root, hm, hRoot, rfl⟩ := layOutText_inv hTree
  obtain rfl := Except.ok.inj (hRead.symm.trans hm)
  constructor
  · intro h path k parent sub hParent hSub
    have hDescend : n.ungroup.descend (path ++ [k]) = some sub := by
      rw [Node.descend_concat, hParent]
      exact hSub
    obtain ⟨c, hc⟩ := Node.exists_block_of_descend root.frame.offset hRoot hDescend
    rw [Block.withOffset_self] at hc
    obtain ⟨m, slot, hOperand, hSlot, hType⟩ := Node.typeIn_of_descend hRoot hParent hc
    obtain rfl := Option.some.inj (hSub.symm.trans hOperand)
    have hBlock := h n (.ofRoot root) hRead hTree path k parent c hParent hc
    obtain rfl := Except.ok.inj (hSlot.symm.trans hBlock)
    exact ⟨_, hSlot, hType⟩
  · intro h m other hm hOther path k parent b hParent hb
    obtain rfl := Except.ok.inj (hRead.symm.trans hm)
    obtain rfl := Except.ok.inj (hTree.symm.trans hOther)
    obtain ⟨m, slot, hOperand, hSlot, hType⟩ := Node.typeIn_of_descend hRoot hParent hb
    obtain ⟨expected, hExpected, hFits⟩ := h path k parent m hParent hOperand
    obtain rfl := Except.ok.inj (hSlot.symm.trans hExpected)
    rw [hSlot, ← hType]
    exact hFits.symm

theorem wellTyped_iff_of_shown {text : String} {n : Node} (hRead : Node.read text = .ok n)
    (hShown : n.Shown) : style.WellTyped text ↔ n.WellTyped := by
  obtain ⟨tree, hTree⟩ := style.exists_layOutText hRead hShown
  exact wellTyped_iff hRead hTree

theorem wellTyped_canonical {n : Node} (hReadable : n.Readable) (h : n.WellTyped) :
    style.WellTyped n.canonical := by
  intro m tree hm hTree
  have hRead := Node.read_canonical hReadable
  have hRegroup := (Node.wellTyped_congr (Node.ungroup_regroup n)).mpr h
  exact (wellTyped_iff hRead hTree).mpr hRegroup m tree hm hTree

/-- What a text is laid out as fits every slot of the type of its root block. -/
theorem fits_of_layOutText {text : String} {n : Node} {tree : BlockTree K}
    (hTree : style.layOutText text = .ok tree) (hRead : Node.read text = .ok n) :
    n.Fits tree.root.frame.type := by
  obtain ⟨m, root, hm, hRoot, rfl⟩ := layOutText_inv hTree
  obtain rfl := Except.ok.inj (hRead.symm.trans hm)
  exact Node.fits_of_typeIn n (Node.typeIn_of_layOut n hRoot rfl)

end Style

theorem SlotType.read_placeholder (type : SlotType) :
    ∃ v : Literal, Node.read type.placeholder = .ok (.literal v) ∧ v.slotType = .ok type := by
  obtain ⟨v, hReadable, hType, hText⟩ := type.exists_literal
  refine ⟨v, ?_, hType⟩
  rw [← hText]
  exact Node.read_canonical (.literal hReadable)

end Blockwork
