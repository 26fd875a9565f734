import Blockwork.Proofs.Block.Descent

/-! # Blocks and nodes

A tree of blocks has the shape of the tree of nodes it was laid out from, groups apart. The
children of a block are the layouts of its node's operands, each moved to its place, so there is a
block at exactly the paths that lead to a node, and it is a layout of that node.
-/

set_option autoImplicit false

namespace Blockwork

variable {K : Type}

namespace Block

variable (b : Block K) (offset : Offset K) (k : Nat) (path : List Nat)

@[simp] theorem children_withOffset : (b.withOffset offset).children = b.children := by
  cases b <;> rfl

@[simp] theorem type_withOffset : (b.withOffset offset).frame.type = b.frame.type := by
  cases b <;> rfl

@[simp] theorem isLeaf_withOffset : (b.withOffset offset).isLeaf = b.isLeaf := by
  cases b <;> rfl

@[simp] theorem size_withOffset : (b.withOffset offset).frame.size = b.frame.size := by
  cases b <;> rfl

@[simp] theorem offset_withOffset : (b.withOffset offset).frame.offset = offset := by
  cases b <;> rfl

@[simp] theorem withOffset_self : b.withOffset b.frame.offset = b := by
  cases b <;> rfl

theorem descend_concat :
    b.descend (path ++ [k]) = (b.descend path).bind fun c => c.children[k]? := by
  induction path generalizing b with
  | nil =>
    rw [List.nil_append, descend, descend, Option.bind_some]
    cases b.children[k]? <;> rfl
  | cons j path ih =>
    rw [List.cons_append, descend, descend]
    cases b.children[j]? with
    | none => rfl
    | some c => exact ih c

end Block

variable [Scalar K]

namespace Style

variable (style : Style K)

theorem length_offsets_column (labelWidth depth widest : K) (children : List (Occupant K)) :
    (style.column labelWidth depth widest children).offsets.length = children.length := by
  induction children generalizing depth widest with
  | nil => rfl
  | cons child later ih =>
    rw [column]
    exact congrArg Nat.succ (ih _ _)

/-- A branch has a place for each of its children. -/
theorem length_offsets_plan (label : String) (stacked : Bool) (children : List (Occupant K)) :
    (style.plan label stacked children).offsets.length = children.length := by
  have hStack : ∀ children : List (Occupant K),
      (style.stack label children).offsets.length = children.length :=
    style.length_offsets_column _ _ _
  unfold plan
  split
  · split
    · exact hStack _
    · rfl
  · exact hStack _

theorem length_children_branchBlock (label : String) (stacked : Bool) (type : SlotType)
    (expression : String) (address : Address) (children : List (Block K)) :
    (style.branchBlock label stacked type expression address children).children.length =
      children.length := by
  rw [branchBlock, Block.children, List.length_zipWith, length_offsets_plan, List.length_map,
    Nat.min_self]

end Style

namespace Node

variable {style : Style K}

theorem length_of_layOutAll {node : Node} {text : String} {trail : Address} {first : Nat}
    {ns : List Node} {children : List (Block K)}
    (h : layOutAll style node text trail first ns = .ok children) :
    children.length = ns.length := by
  induction ns generalizing first children with
  | nil =>
    rw [layOutAll] at h
    obtain rfl := Except.ok.inj h
    rfl
  | cons n ns ih =>
    rw [layOutAll] at h
    split at h
    · cases h
    · split at h
      · cases h
      · rename_i hRest
        obtain rfl := Except.ok.inj h
        exact congrArg Nat.succ (ih hRest)

theorem length_children_of_layOut : (n : Node) → {above : Option Parent} → {trail : Address} →
    {b : Block K} → n.layOut style above trail = .ok b →
    b.children.length = n.bare.operands.length
  | .group inner, above, trail, b, h => by
    rw [layOut] at h
    exact length_children_of_layOut inner h
  | .operator op ns, above, trail, b, h => by
    obtain ⟨type, children, -, hChildren, rfl⟩ := layOut_operator_inv h
    rw [Style.length_children_branchBlock, length_of_layOutAll hChildren]
    rfl
  | .call name ns, above, trail, b, h => by
    obtain ⟨type, children, -, hChildren, rfl⟩ := layOut_call_inv h
    rw [Style.length_children_branchBlock, length_of_layOutAll hChildren]
    rfl
  | .symbol name, above, trail, b, h => by
    rw [layOut] at h
    split at h
    · cases h
    · obtain rfl := Except.ok.inj h
      rfl
  | .literal v, above, trail, b, h => by
    rw [layOut] at h
    split at h
    · cases h
    · obtain rfl := Except.ok.inj h
      rfl

/-- A child is the layout of an operand, at its place. -/
theorem child_of_layOut : (n : Node) → {above : Option Parent} → {trail : Address} →
    {b c : Block K} → {k : Nat} → n.layOut style above trail = .ok b → b.children[k]? = some c →
    ∃ (m : Node) (text : String) (below : Address) (inner : Block K) (offset : Offset K),
      n.bare.operands[k]? = some m ∧ m.layOut style (some ⟨n.bare, text, k⟩) below = .ok inner ∧
        c = inner.withOffset offset
  | .group inner, above, trail, b, c, k, h, hc => by
    rw [layOut] at h
    exact child_of_layOut inner h hc
  | .operator op ns, above, trail, b, c, k, h, hc => by
    obtain ⟨type, children, -, hChildren, rfl⟩ := layOut_operator_inv h
    obtain ⟨inner, offset, hInner, -, rfl⟩ := List.getElem?_zipWith_eq_some.mp hc
    obtain ⟨m, hm, hLayOut⟩ := exists_layOut_of_layOutAll hChildren hInner
    rw [Nat.zero_add] at hLayOut
    exact ⟨m, _, _, inner, offset, hm, hLayOut, rfl⟩
  | .call name ns, above, trail, b, c, k, h, hc => by
    obtain ⟨type, children, -, hChildren, rfl⟩ := layOut_call_inv h
    obtain ⟨inner, offset, hInner, -, rfl⟩ := List.getElem?_zipWith_eq_some.mp hc
    obtain ⟨m, hm, hLayOut⟩ := exists_layOut_of_layOutAll hChildren hInner
    rw [Nat.zero_add] at hLayOut
    exact ⟨m, _, _, inner, offset, hm, hLayOut, rfl⟩
  | .symbol name, above, trail, b, c, k, h, hc => by
    have hLength := length_children_of_layOut (.symbol name) h
    rw [List.length_eq_zero_iff.mp hLength] at hc
    cases hc
  | .literal v, above, trail, b, c, k, h, hc => by
    have hLength := length_children_of_layOut (.literal v) h
    rw [List.length_eq_zero_iff.mp hLength] at hc
    cases hc

section

variable {n sub : Node} {above : Option Parent} {trail : Address} {b : Block K} {path : List Nat}

/-- The block at a path is a layout of the node there. -/
theorem layOut_of_descend {c : Block K} {offset : Offset K}
    (h : n.layOut style above trail = .ok b) (hc : (b.withOffset offset).descend path = some c) :
    ∃ (m : Node) (higher : Option Parent) (below : Address) (inner : Block K) (place : Offset K),
      m.layOut style higher below = .ok inner ∧ c = inner.withOffset place ∧
        n.ungroup.descend path = some m.ungroup := by
  -- A child is moved to its place before the path goes on, so the offset is kept general.
  induction path generalizing n above trail b offset with
  | nil =>
    obtain rfl := Option.some.inj hc
    exact ⟨n, above, trail, b, offset, h, rfl, rfl⟩
  | cons k path ih =>
    rw [Block.descend, Block.children_withOffset] at hc
    obtain ⟨child, hChild, hc⟩ := Option.bind_eq_some_iff.mp hc
    obtain ⟨m, text, below, inner, place, hm, hLayOut, rfl⟩ := child_of_layOut n h hChild
    rw [descend_cons (operand_ungroup hm)]
    exact ih hLayOut hc

theorem exists_block_of_descend (offset : Offset K) (h : n.layOut style above trail = .ok b)
    (hSub : n.ungroup.descend path = some sub) :
    ∃ c, (b.withOffset offset).descend path = some c := by
  induction path generalizing n above trail b offset with
  | nil => exact ⟨_, rfl⟩
  | cons k path ih =>
    obtain ⟨operand, hOperand, hSub⟩ := exists_operand_of_descend hSub
    obtain ⟨m, hm, rfl⟩ := exists_operand_of_ungroup hOperand
    have hBound : k < b.children.length := by
      rw [length_children_of_layOut n h]
      exact (List.getElem?_eq_some_iff.mp hm).1
    obtain ⟨other, text, below, inner, place, hOther, hLayOut, hChild⟩ :=
      child_of_layOut n h (List.getElem?_eq_getElem hBound)
    obtain rfl := Option.some.inj (hm.symm.trans hOther)
    obtain ⟨c, hc⟩ := ih place hLayOut hSub
    refine ⟨c, ?_⟩
    rw [Block.descend, Block.children_withOffset, List.getElem?_eq_getElem hBound, hChild]
    exact hc

end

end Node

end Blockwork
