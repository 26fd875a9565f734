import Blockwork.Proofs.Block.Substitution

/-! # Highlights change nothing else

Clearing the highlights of a block keeps its texts, its types, its shapes and its numbers, so what
is found in a lit tree is found in the dark one. A laid out block is dark.
-/

set_option autoImplicit false

namespace Blockwork

variable {K : Type}

namespace Block

@[simp] theorem expression_withBackground (b : Block K) (tint : Tint) :
    (b.withBackground tint).frame.expression = b.frame.expression := by
  cases b <;> rfl

@[simp] theorem expression_withHandle (b : Block K) (tint : Tint) :
    (b.withHandle tint).frame.expression = b.frame.expression := by
  cases b <;> rfl

section

variable [Scalar K] (b : Block K)

@[simp] theorem expression_unlit : b.unlit.frame.expression = b.frame.expression := by
  cases b <;> rfl

@[simp] theorem address_unlit : b.unlit.frame.address = b.frame.address := by
  cases b <;> rfl

@[simp] theorem type_unlit : b.unlit.frame.type = b.frame.type := by
  cases b <;> rfl

@[simp] theorem isLeaf_unlit : b.unlit.isLeaf = b.isLeaf := by
  cases b <;> rfl

@[simp] theorem leafShape?_unlit : b.unlit.leafShape? = b.leafShape? := by
  cases b <;> rfl

@[simp] theorem branchShape?_unlit : b.unlit.branchShape? = b.branchShape? := by
  cases b <;> rfl

end

section

variable [Scalar K]

mutual

@[simp] theorem unlit_unlit : (b : Block K) → b.unlit.unlit = b.unlit
  | .leaf _ _ => rfl
  | .branch _ _ cs => by rw [unlit, unlit, unlitAll_unlitAll cs]

theorem unlitAll_unlitAll : (bs : List (Block K)) → unlitAll (unlitAll bs) = unlitAll bs
  | [] => rfl
  | b :: bs => by rw [unlitAll, unlitAll, unlit_unlit b, unlitAll_unlitAll bs]

end

mutual

@[simp] theorem count_unlit : (b : Block K) → b.unlit.count = b.count
  | .leaf _ _ => rfl
  | .branch _ _ cs => by rw [unlit, count, count, countAll_unlitAll cs]

theorem countAll_unlitAll : (bs : List (Block K)) → countAll (unlitAll bs) = countAll bs
  | [] => rfl
  | b :: bs => by rw [unlitAll, countAll, countAll, count_unlit b, countAll_unlitAll bs]

end

theorem unlitAll_eq_map (bs : List (Block K)) : unlitAll bs = bs.map unlit := by
  induction bs with
  | nil => rfl
  | cons b bs ih => rw [unlitAll, ih, List.map_cons]

theorem children_unlit (b : Block K) : b.unlit.children = b.children.map unlit := by
  cases b with
  | leaf => rfl
  | branch _ _ cs => exact unlitAll_eq_map cs

theorem descend_unlit (b : Block K) (path : List Nat) :
    b.unlit.descend path = (b.descend path).map unlit := by
  induction path generalizing b with
  | nil => rfl
  | cons k path ih =>
    rw [descend, descend, children_unlit, List.getElem?_map]
    cases b.children[k]? with
    | none => rfl
    | some c => exact ih c

theorem siblingIds_unlitAll (start : Nat) (bs : List (Block K)) :
    siblingIds start (unlitAll bs) = siblingIds start bs := by
  induction bs generalizing start with
  | nil => rfl
  | cons b bs ih => rw [unlitAll, siblingIds, siblingIds, count_unlit, ih]

end

end Block

def Entry.unlit [Scalar K] (e : Entry K) : Entry K := { e with block := e.block.unlit }

namespace Block

variable [Scalar K]

mutual

theorem entries_unlit : (b : Block K) → (start : Nat) → (parent : Option Nat) →
    (above : List (Offset K)) →
    b.unlit.entries start parent above = (b.entries start parent above).map Entry.unlit
  | .leaf _ _, _, _, _ => rfl
  | .branch f s cs, start, parent, above => by
    rw [unlit, entries, entries, countAll_unlitAll, siblingIds_unlitAll,
      entriesAll_unlitAll cs, List.map_append]
    rfl

theorem entriesAll_unlitAll : (bs : List (Block K)) → (start parent : Nat) →
    (above : List (Offset K)) →
    entriesAll start parent above (unlitAll bs) =
      (entriesAll start parent above bs).map Entry.unlit
  | [], _, _, _ => rfl
  | b :: bs, start, parent, above => by
    rw [unlitAll, entriesAll, entriesAll, entries_unlit b, count_unlit, entriesAll_unlitAll bs,
      List.map_append]

end

theorem expression_of_unlit {b c : Block K} (h : b.unlit = c.unlit) :
    b.frame.expression = c.frame.expression := by
  rw [← expression_unlit b, h, expression_unlit]

theorem type_of_unlit {b c : Block K} (h : b.unlit = c.unlit) : b.frame.type = c.frame.type := by
  rw [← type_unlit b, h, type_unlit]

theorem unlit_withBackground (b : Block K) (tint : Tint) :
    (b.withBackground tint).unlit = b.unlit := by
  cases b <;> rfl

theorem unlit_withHandle (b : Block K) (tint : Tint) : (b.withHandle tint).unlit = b.unlit := by
  cases b <;> rfl

@[simp] theorem unlit_withRing (b : Block K) (tint : Tint) (alpha : K) :
    (b.withRing tint alpha).unlit = b.unlit := by
  cases b <;> rfl

mutual

theorem unlit_modify {change : Block K → Block K} (h : ∀ b, (change b).unlit = b.unlit) :
    (b : Block K) → (k : Nat) → (b.modify k change).unlit = b.unlit
  | .leaf f s, k => by
    rw [modify]
    split
    · exact h _
    · rfl
  | .branch f s cs, k => by
    rw [modify]
    split
    · exact h _
    · rw [unlit, unlit, unlitAll_modifyAll h cs]

theorem unlitAll_modifyAll {change : Block K → Block K} (h : ∀ b, (change b).unlit = b.unlit) :
    (bs : List (Block K)) → (k : Nat) → unlitAll (modifyAll k change bs) = unlitAll bs
  | [], _ => rfl
  | b :: bs, k => by
    rw [modifyAll]
    split
    · rw [unlitAll, unlitAll, unlit_modify h b]
    · rw [unlitAll, unlitAll, unlitAll_modifyAll h bs]

end

theorem unlit_withOffset (b : Block K) (offset : Offset K) :
    (b.withOffset offset).unlit = b.unlit.withOffset offset := by
  cases b <;> rfl

theorem unlitAll_of_forall {bs : List (Block K)} (h : ∀ b ∈ bs, b.unlit = b) :
    unlitAll bs = bs := by
  induction bs with
  | nil => rfl
  | cons b bs ih =>
    obtain ⟨hHead, hTail⟩ := List.forall_mem_cons.mp h
    rw [unlitAll, hHead, ih hTail]

theorem unlitAll_zipWith {bs : List (Block K)} (h : unlitAll bs = bs) (offsets : List (Offset K)) :
    unlitAll (List.zipWith withOffset bs offsets) = List.zipWith withOffset bs offsets := by
  induction bs generalizing offsets with
  | nil => rfl
  | cons b bs ih =>
    obtain ⟨hHead, hTail⟩ := List.cons.inj h
    cases offsets with
    | nil => rfl
    | cons offset offsets =>
      rw [List.zipWith_cons_cons, unlitAll, unlit_withOffset, hHead, ih hTail]

end Block

theorem Style.unlit_branchBlock [Scalar K] {style : Style K} {children : List (Block K)}
    (h : Block.unlitAll children = children) (label : String) (stacked : Bool) (type : SlotType)
    (expression : String) (address : Address) :
    (style.branchBlock label stacked type expression address children).unlit =
      style.branchBlock label stacked type expression address children := by
  simp only [branchBlock, Block.unlit, Block.unlitAll_zipWith h]

namespace Node

variable [Scalar K]

theorem unlit_of_layOut {style : Style K} (n : Node) (above : Option Parent) (trail : Address)
    {b : Block K} (h : n.layOut style above trail = .ok b) : b.unlit = b := by
  refine layOut_induction (motive := fun b => b.unlit = b) ?_ ?_ n h
  · intro label type text address
    rfl
  · intro label stacked type text address children hChildren
    exact Style.unlit_branchBlock (Block.unlitAll_of_forall hChildren) ..

end Node

namespace BlockTree

variable [Scalar K] (t : BlockTree K)

@[simp] theorem unlit_unlit : t.unlit.unlit = t.unlit := by
  simp [unlit]

theorem unlit_modify {change : Block K → Block K} (h : ∀ b, (change b).unlit = b.unlit)
    (id : Nat) : (t.modify id change).unlit = t.unlit := by
  simp only [unlit, modify, Block.unlit_modify h]

theorem entries_unlit : t.unlit.entries = t.entries.map Entry.unlit :=
  Block.entries_unlit t.root 0 none []

theorem entry?_unlit (id : Nat) : t.unlit.entry? id = (t.entry? id).map Entry.unlit := by
  rw [BlockTree.entry?, entries_unlit, List.getElem?_map]
  rfl

theorem block?_unlit (id : Nat) : t.unlit.block? id = (t.block? id).map Block.unlit := by
  rw [block?, block?, entry?_unlit, Option.map_map, Option.map_map]
  rfl

@[simp] theorem leaves_unlit : t.unlit.leaves = t.leaves := by
  rw [leaves, leaves, entries_unlit, List.filter_map, List.map_map]
  simp [Entry.unlit, Function.comp_def]

@[simp] theorem checkArea_unlit (id : Nat) : t.unlit.checkArea id = t.checkArea id := by
  rw [checkArea, checkArea, entry?_unlit]
  cases t.entry? id with
  | none => rfl
  | some e => simp [Entry.unlit, originOf, unlit]

@[simp] theorem handleCenter_unlit (id : Nat) : t.unlit.handleCenter id = t.handleCenter id := by
  rw [handleCenter, handleCenter, entry?_unlit]
  cases t.entry? id with
  | none => rfl
  | some e => simp [Entry.unlit, originOf, unlit]

@[simp] theorem rootId_unlit : t.unlit.rootId = t.rootId := by
  simp [rootId, count, unlit]

@[simp] theorem expression_unlit : t.unlit.expression = t.expression :=
  Block.expression_unlit t.root

theorem unlit_of_layOutText {style : Style K} {text : String}
    (h : style.layOutText text = .ok t) : t.unlit = t := by
  obtain ⟨n, b, -, hLayOut, rfl⟩ := Style.layOutText_inv h
  rw [unlit, ofRoot, Node.unlit_of_layOut n none .empty hLayOut]

end BlockTree

end Blockwork
