import Blockwork.Proofs.Block.WellTyped

/-! # What a block is apart from its place

The layout of a node depends on its parent in two ways only: blocks are addressed from the root of
the whole tree, and a symbol has the type of its slot. Otherwise a node has the same block wherever
it stands and however it is grouped.
-/

set_option autoImplicit false

namespace Blockwork

variable {K : Type}

namespace Block

mutual

def anonymous : Block K → Block K
  | .leaf f s => .leaf { f with address := .empty } s
  | .branch f s cs => .branch { f with address := .empty } s (anonymousAll cs)

def anonymousAll : List (Block K) → List (Block K)
  | [] => []
  | b :: bs => b.anonymous :: anonymousAll bs

end

structure Matches (b c : Block K) : Prop where
  expression : c.frame.expression = b.frame.expression
  size : c.frame.size = b.frame.size
  leafShape : c.leafShape? = b.leafShape?
  branchShape : c.branchShape? = b.branchShape?

structure Same (b c : Block K) : Prop extends Matches b c where
  type : c.frame.type = b.frame.type

theorem Matches.symm {b c : Block K} (h : b.Matches c) : c.Matches b :=
  ⟨h.expression.symm, h.size.symm, h.leafShape.symm, h.branchShape.symm⟩

theorem Matches.trans {b c d : Block K} (h : b.Matches c) (h' : c.Matches d) : b.Matches d :=
  ⟨h'.expression.trans h.expression, h'.size.trans h.size, h'.leafShape.trans h.leafShape,
    h'.branchShape.trans h.branchShape⟩

theorem Same.symm {b c : Block K} (h : b.Same c) : c.Same b :=
  ⟨h.toMatches.symm, h.type.symm⟩

theorem Same.trans {b c d : Block K} (h : b.Same c) (h' : c.Same d) : b.Same d :=
  ⟨h.toMatches.trans h'.toMatches, h'.type.trans h.type⟩

section

variable (b : Block K) (offset : Offset K)

theorem anonymous_withOffset : (b.withOffset offset).anonymous = b.anonymous.withOffset offset := by
  cases b <;> rfl

theorem withOffset_withOffset (place : Offset K) :
    (b.withOffset offset).withOffset place = b.withOffset place := by
  cases b <;> rfl

@[simp] theorem count_withOffset : (b.withOffset offset).count = b.count := by
  cases b <;> rfl

theorem same_withOffset : b.Same (b.withOffset offset) := by
  cases b <;> exact ⟨⟨rfl, rfl, rfl, rfl⟩, rfl⟩

theorem same_anonymous : b.Same b.anonymous := by
  cases b <;> exact ⟨⟨rfl, rfl, rfl, rfl⟩, rfl⟩

theorem same_of_anonymous_eq {b c : Block K} (h : b.anonymous = c.anonymous) : b.Same c := by
  have hSame := b.same_anonymous
  rw [h] at hSame
  exact hSame.trans c.same_anonymous.symm

@[simp] theorem occupant_anonymous : b.anonymous.occupant = b.occupant := by
  cases b <;> rfl

@[simp] theorem offset_anonymous : b.anonymous.frame.offset = b.frame.offset := by
  cases b <;> rfl

end

theorem anonymousAll_eq_map (bs : List (Block K)) : anonymousAll bs = bs.map anonymous := by
  induction bs with
  | nil => rfl
  | cons b bs ih => rw [anonymousAll, ih, List.map_cons]

theorem children_anonymous (b : Block K) : b.anonymous.children = anonymousAll b.children := by
  cases b <;> rfl

mutual

theorem count_anonymous : (b : Block K) → b.anonymous.count = b.count
  | .leaf _ _ => rfl
  | .branch _ _ cs => by rw [anonymous, count, count, countAll_anonymousAll cs]

theorem countAll_anonymousAll : (bs : List (Block K)) → countAll (anonymousAll bs) = countAll bs
  | [] => rfl
  | b :: bs => by rw [anonymousAll, countAll, countAll, count_anonymous b, countAll_anonymousAll bs]

end

theorem anonymousAll_zipWith (bs : List (Block K)) (offsets : List (Offset K)) :
    anonymousAll (List.zipWith withOffset bs offsets) =
      List.zipWith withOffset (anonymousAll bs) offsets := by
  induction bs generalizing offsets with
  | nil => rfl
  | cons b bs ih =>
    cases offsets with
    | nil => rfl
    | cons offset offsets =>
      rw [List.zipWith_cons_cons, anonymousAll, anonymousAll, List.zipWith_cons_cons,
        anonymous_withOffset, ih]

/-- Two blocks differ in their addresses and in their own place only. -/
def Alike (b c : Block K) : Prop := b.anonymous.withOffset c.frame.offset = c.anonymous

section

variable {b c : Block K}

theorem alike_of_anonymous_eq (h : b.anonymous = c.anonymous) : b.Alike c := by
  rw [Alike, h, ← offset_anonymous, withOffset_self]

theorem Alike.withOffset (h : b.Alike c) (offset place : Offset K) :
    (b.withOffset offset).Alike (c.withOffset place) := by
  rw [Alike, anonymous_withOffset, anonymous_withOffset, withOffset_withOffset,
    offset_withOffset, ← h, withOffset_withOffset]

theorem Alike.same (h : b.Alike c) : b.Same c := by
  have hMoved := b.same_anonymous.trans (same_withOffset b.anonymous c.frame.offset)
  rw [h] at hMoved
  exact hMoved.trans c.same_anonymous.symm

theorem Alike.count_eq (h : b.Alike c) : b.count = c.count := by
  rw [← count_anonymous c, ← h, count_withOffset, count_anonymous]

theorem Alike.children (h : b.Alike c) :
    anonymousAll b.children = anonymousAll c.children := by
  rw [← children_anonymous c, ← h, children_withOffset, children_anonymous]

end

end Block

variable [Scalar K]

theorem Style.anonymous_branchBlock (style : Style K) (label : String) (stacked : Bool)
    (type : SlotType) (expression : String) (address : Address) (children : List (Block K)) :
    (style.branchBlock label stacked type expression address children).anonymous =
      style.branchBlock label stacked type expression .empty (Block.anonymousAll children) := by
  have hOccupants : (Block.anonymousAll children).map Block.occupant =
      children.map Block.occupant := by
    rw [Block.anonymousAll_eq_map, List.map_map]
    exact List.map_congr_left fun b _ => b.occupant_anonymous
  rw [branchBlock, branchBlock, hOccupants, Block.anonymous, Block.anonymousAll_zipWith]

namespace Node

variable {style : Style K}

mutual

theorem anonymous_of_layOut_ungroup : (n : Node) → {above higher : Option Parent} →
    {trail other : Address} → {b c : Block K} → n.layOut style above trail = .ok b →
    n.ungroup.layOut style higher other = .ok c →
    operandType (above.map Parent.node) = operandType (higher.map Parent.node) ∨
      (∀ name, n.ungroup ≠ .symbol name) → b.anonymous = c.anonymous
  | .group inner, above, higher, trail, other, b, c, hb, hc, hSlot => by
    rw [layOut] at hb
    exact anonymous_of_layOut_ungroup inner hb hc hSlot
  | .symbol name, above, higher, trail, other, b, c, hb, hc, hSlot => by
    have hSlot := hSlot.resolve_right fun h => h name rfl
    rw [layOut, hSlot] at hb
    rw [ungroup, layOut] at hc
    split at hc
    · cases hc
    · rename_i type hType
      rw [hType] at hb
      obtain rfl := Except.ok.inj hb
      obtain rfl := Except.ok.inj hc
      rfl
  | .literal v, above, higher, trail, other, b, c, hb, hc, _ => by
    rw [layOut] at hb
    rw [ungroup, layOut] at hc
    split at hc
    · cases hc
    · rename_i type hType
      rw [hType] at hb
      obtain rfl := Except.ok.inj hb
      obtain rfl := Except.ok.inj hc
      rfl
  | .operator op ns, above, higher, trail, other, b, c, hb, hc, _ => by
    obtain ⟨type, children, hType, hChildren, rfl⟩ := layOut_operator_inv hb
    obtain ⟨type', children', hType', hChildren', rfl⟩ := layOut_operator_inv hc
    obtain rfl : type = type' := Except.ok.inj (hType.symm.trans hType')
    have hText : (Node.operator op (ungroupAll ns)).canonical = (Node.operator op ns).canonical :=
      canonical_ungroup (.operator op ns)
    have hLength : (ungroupAll ns).length = ns.length := by
      rw [ungroupAll_eq_map, List.length_map]
    have hAll := anonymousAll_of_layOutAll_ungroup ns hChildren hChildren' rfl
    rw [Style.anonymous_branchBlock, Style.anonymous_branchBlock, hAll, hText, hLength]
  | .call name ns, above, higher, trail, other, b, c, hb, hc, _ => by
    obtain ⟨type, children, hType, hChildren, rfl⟩ := layOut_call_inv hb
    obtain ⟨type', children', hType', hChildren', rfl⟩ := layOut_call_inv hc
    obtain rfl : type = type' := Except.ok.inj (hType.symm.trans hType')
    have hText : (Node.call name (ungroupAll ns)).canonical = (Node.call name ns).canonical :=
      canonical_ungroup (.call name ns)
    have hAll := anonymousAll_of_layOutAll_ungroup ns hChildren hChildren' rfl
    rw [Style.anonymous_branchBlock, Style.anonymous_branchBlock, hAll, hText]

theorem anonymousAll_of_layOutAll_ungroup : (ns : List Node) → {node parent : Node} →
    {text source : String} → {trail other : Address} → {j k : Nat} →
    {children blocks : List (Block K)} →
    layOutAll style node text trail j ns = .ok children →
    layOutAll style parent source other k (ungroupAll ns) = .ok blocks →
    operandType (some node) = operandType (some parent) →
    Block.anonymousAll children = Block.anonymousAll blocks
  | [], _, _, _, _, _, _, _, _, children, blocks, hChildren, hBlocks, _ => by
    rw [layOutAll] at hChildren
    rw [ungroupAll, layOutAll] at hBlocks
    obtain rfl := Except.ok.inj hChildren
    obtain rfl := Except.ok.inj hBlocks
    rfl
  | n :: ns, _, _, _, _, _, _, _, _, children, blocks, hChildren, hBlocks, hSlot => by
    rw [layOutAll] at hChildren
    rw [ungroupAll, layOutAll] at hBlocks
    split at hChildren
    · cases hChildren
    · rename_i b hb
      split at hChildren
      · cases hChildren
      · rename_i bs hbs
        obtain rfl := Except.ok.inj hChildren
        split at hBlocks
        · cases hBlocks
        · rename_i c hc
          split at hBlocks
          · cases hBlocks
          · rename_i cs hcs
            obtain rfl := Except.ok.inj hBlocks
            rw [Block.anonymousAll, Block.anonymousAll,
              anonymous_of_layOut_ungroup n hb hc (.inl hSlot),
              anonymousAll_of_layOutAll_ungroup ns hbs hcs hSlot]

end

theorem layOut_of_ungroup_symbol {name : String} : (n : Node) → (above : Option Parent) →
    (trail : Address) → n.ungroup = .symbol name →
    n.layOut style above trail = (Node.symbol name).layOut style above trail
  | .group inner, above, trail, h => by
    rw [layOut]
    exact layOut_of_ungroup_symbol inner above trail h
  | .symbol other, above, trail, h => by
    rw [← h, ungroup]

theorem leafBlock_of_layOut {n : Node} {name : String} {above : Option Parent} {trail : Address}
    {b : Block K} (h : n.layOut style above trail = .ok b) (hName : n.ungroup = .symbol name) :
    ∃ type address, operandType (above.map Parent.node) = .ok type ∧
      b = style.leafBlock name type name address := by
  rw [layOut_of_ungroup_symbol n above trail hName, layOut] at h
  split at h
  · cases h
  · rename_i type hType
    exact ⟨type, _, hType, (Except.ok.inj h).symm⟩

/-- Nodes that are equal apart from groups have the same block. -/
theorem anonymous_of_layOut {n m : Node} {above higher : Option Parent} {trail other : Address}
    {b c : Block K} (hb : n.layOut style above trail = .ok b)
    (hc : m.layOut style higher other = .ok c) (hSame : m.ungroup = n.ungroup)
    (hSlot : operandType (above.map Parent.node) = operandType (higher.map Parent.node) ∨
      ∀ name, n.ungroup ≠ .symbol name) : b.anonymous = c.anonymous := by
  by_cases hSymbol : ∃ name, n.ungroup = .symbol name
  · obtain ⟨name, hName⟩ := hSymbol
    rw [layOut_of_ungroup_symbol m higher other (hSame.trans hName), ← hName] at hc
    exact anonymous_of_layOut_ungroup n hb hc hSlot
  · have hOther : ∀ name, n.ungroup ≠ .symbol name := fun name hName => hSymbol ⟨name, hName⟩
    have hShown := shown_of_layOut style n above trail hb
    obtain ⟨u, hu⟩ := hShown.ungroup.exists_layOut style none .empty ⟨.number, rfl⟩
    rw [anonymous_of_layOut_ungroup n hb hu (.inr hOther)]
    rw [← hSame] at hu hOther
    exact (anonymous_of_layOut_ungroup m hc hu (.inr hOther)).symm

end Node

end Blockwork
