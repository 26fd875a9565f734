import Blockwork.Proofs.Block.Highlight
import Blockwork.Proofs.Block.Spot

/-! # The ring of a leaf

In a dark tree a ring lights the leaf that it is put on and nothing else; put on a branch it does
nothing. A tree that is dark below its root has no other block that is lit.
-/

set_option autoImplicit false

namespace Blockwork

variable {K : Type} [Scalar K]

namespace Block

theorem highlight_unlit (b : Block K) : b.unlit.frame.highlight = .none := by
  cases b <;> rfl

theorem highlight_of_mem_entries {b : Block K} (hDark : b.unlit = b) {start : Nat}
    {parent : Option Nat} {above : List (Offset K)} {e : Entry K}
    (he : e ∈ b.entries start parent above) : e.block.frame.highlight = .none := by
  rw [← hDark, entries_unlit] at he
  obtain ⟨f, -, rfl⟩ := List.mem_map.mp he
  exact highlight_unlit f.block

theorem highlight_of_mem_entriesAll {bs : List (Block K)} (hDark : unlitAll bs = bs)
    {start parent : Nat} {above : List (Offset K)} {e : Entry K}
    (he : e ∈ entriesAll start parent above bs) : e.block.frame.highlight = .none := by
  rw [← hDark, entriesAll_unlitAll] at he
  obtain ⟨f, -, rfl⟩ := List.mem_map.mp he
  exact highlight_unlit f.block

def DarkBelow (b : Block K) : Prop := unlitAll b.children = b.children

theorem darkBelow_of_unlit {b : Block K} (h : b.unlit = b) : b.DarkBelow := by
  cases b with
  | leaf => rfl
  | branch f s cs =>
    rw [unlit] at h
    injection h

theorem DarkBelow.withBackground {b : Block K} (h : b.DarkBelow) (tint : Tint) :
    (b.withBackground tint).DarkBelow := by
  cases b <;> exact h

theorem DarkBelow.withHandle {b : Block K} (h : b.DarkBelow) (tint : Tint) :
    (b.withHandle tint).DarkBelow := by
  cases b <;> exact h

/-- The block is dark, or it is the leaf of this number and has the ring. -/
def Ringed (tint : Tint) (alpha : K) (id : Nat) (e : Entry K) : Prop :=
  e.block.frame.highlight = .none ∨
    e.id = id ∧ e.block.isLeaf = true ∧
      e.block.frame.highlight = ⟨tint, alpha, .static, .static⟩

section

variable {tint : Tint} {alpha : K} {above : List (Offset K)} {e : Entry K}

mutual

theorem ringed_of_mem_entries : (b : Block K) → (k : Nat) → {start : Nat} →
    {parent : Option Nat} → {above : List (Offset K)} → b.unlit = b →
    e ∈ (b.modify k (withRing tint alpha)).entries start parent above →
    Ringed tint alpha (start + k) e
  | .leaf f s, k, start, parent, above, hDark, he => by
    rw [modify] at he
    split at he
    · rename_i hk
      obtain rfl := List.mem_singleton.mp he
      have hNone : f.highlight = .none := congrArg (·.frame.highlight) hDark.symm
      refine .inr ⟨by rw [hk, Nat.add_zero], rfl, ?_⟩
      simp only [frame, hNone, Highlight.none]
    · exact .inl (highlight_of_mem_entries hDark he)
  | .branch f s cs, k, start, parent, above, hDark, he => by
    rw [modify] at he
    split at he
    · exact .inl (highlight_of_mem_entries hDark he)
    · rcases List.mem_append.mp he with he | he
      · exact ringed_of_mem_entriesAll cs k (darkBelow_of_unlit hDark) he
      · obtain rfl := List.mem_singleton.mp he
        exact .inl (congrArg (·.frame.highlight) hDark.symm)

theorem ringed_of_mem_entriesAll : (bs : List (Block K)) → (k : Nat) → {start parent : Nat} →
    {above : List (Offset K)} → unlitAll bs = bs →
    e ∈ entriesAll start parent above (modifyAll k (withRing tint alpha) bs) →
    Ringed tint alpha (start + k) e
  | [], k, start, parent, above, hDark, he => by
    rw [modifyAll, entriesAll] at he
    cases he
  | b :: bs, k, start, parent, above, hDark, he => by
    obtain ⟨hHead, hTail⟩ := List.cons.inj hDark
    rw [modifyAll] at he
    split at he
    · rcases List.mem_append.mp he with he | he
      · exact ringed_of_mem_entries b k hHead he
      · exact .inl (highlight_of_mem_entriesAll hTail he)
    · rename_i hk
      rcases List.mem_append.mp he with he | he
      · exact .inl (highlight_of_mem_entries hHead he)
      · have hRinged := ringed_of_mem_entriesAll bs (k - b.count) hTail he
        rwa [Nat.add_assoc, Nat.add_sub_cancel' (Nat.not_lt.mp hk)] at hRinged

end

end

end Block

namespace BlockTree

variable {t : BlockTree K} {b : Block K} {i k : Nat}

theorem highlight_of_unlit (hDark : t.unlit = t) (hb : t.block? i = some b) :
    b.frame.highlight = .none := by
  obtain ⟨e, he, rfl⟩ := Option.map_eq_some_iff.mp hb
  exact Block.highlight_of_mem_entries (congrArg root hDark) (List.mem_of_getElem? he)

theorem highlight_of_darkBelow (hDark : t.root.DarkBelow) (hb : t.block? i = some b)
    (hInner : i ≠ t.rootId) : b.frame.highlight = .none := by
  obtain ⟨e, he, rfl⟩ := Option.map_eq_some_iff.mp hb
  have hId := id_of_lookup he
  have hMem := List.mem_of_getElem? he
  obtain ⟨root, origin, isTemplate⟩ := t
  cases root with
  | leaf f s =>
    obtain rfl := List.mem_singleton.mp hMem
    exact absurd hId.symm hInner
  | branch f s cs =>
    rcases List.mem_append.mp hMem with hMem | hMem
    · exact Block.highlight_of_mem_entriesAll hDark hMem
    · obtain rfl := List.mem_singleton.mp hMem
      refine absurd ?_ hInner
      rw [← hId, rootId, count, Block.count]
      simp

/-- In a dark tree a ring lights one leaf. -/
theorem highlight_modify_withRing {tint : Tint} {alpha : K} (hDark : t.unlit = t)
    (hb : (t.modify k (Block.withRing tint alpha)).block? i = some b)
    (hLit : b.frame.highlight ≠ .none) :
    i = k ∧ b.isLeaf = true ∧ b.frame.highlight = ⟨tint, alpha, .static, .static⟩ := by
  obtain ⟨e, he, rfl⟩ := Option.map_eq_some_iff.mp hb
  rcases Block.ringed_of_mem_entries t.root k (congrArg root hDark) (List.mem_of_getElem? he)
    with hNone | ⟨hId, hLeaf, hRing⟩
  · exact absurd hNone hLit
  · rw [id_of_lookup he, Nat.zero_add] at hId
    exact ⟨hId, hLeaf, hRing⟩

end BlockTree

end Blockwork
