import Blockwork.Proofs.Block.Grafting
import Blockwork.Proofs.Block.Postorder

/-! # The numbered list of blocks

The list of blocks holds the tree of blocks: children and parents are linked both ways, a parent
has a larger number than its children, and the root comes last.
-/

set_option autoImplicit false

namespace Blockwork

variable {K : Type}

namespace Block

theorem siblingIds_getElem? (start k : Nat) (bs : List (Block K)) :
    (siblingIds start bs)[k]? =
      bs[k]?.map fun b => start + countAll (bs.take k) + countAll b.children := by
  induction bs generalizing start k with
  | nil => rfl
  | cons b bs ih =>
    rw [siblingIds]
    cases k with
    | zero =>
      have hCount := b.count_eq
      simp only [List.getElem?_cons_zero, List.take_zero, countAll, Option.map_some,
        Option.some.injEq]
      omega
    | succ k =>
      rw [List.getElem?_cons_succ, ih, List.getElem?_cons_succ, List.take_succ_cons, countAll,
        Nat.add_assoc start]

theorem siblingIds_increasing (start : Nat) (bs : List (Block K)) :
    (∀ id ∈ siblingIds start bs, start ≤ id) ∧ (siblingIds start bs).Pairwise (· < ·) := by
  induction bs generalizing start with
  | nil => exact ⟨nofun, .nil⟩
  | cons b bs ih =>
    obtain ⟨hLater, hIncreasing⟩ := ih (start + b.count)
    have hPos := b.count_pos
    rw [siblingIds]
    constructor
    · intro id hId
      rcases List.mem_cons.mp hId with rfl | hId
      · omega
      · have := hLater id hId
        omega
    · apply List.Pairwise.cons ?_ hIncreasing
      intro id hId
      have := hLater id hId
      omega

end Block

namespace Spot

variable {σ τ : Spot K} {k : Nat}

theorem getElem?_children_entry (σ : Spot K) (k : Nat) :
    σ.entry.children[k]? = (σ.child? k).map fun τ => τ.entry.id := by
  have hNumber : σ.entry.children[k]? = _ := Block.siblingIds_getElem? σ.first k σ.block.children
  rw [hNumber, child?, Option.map_map]
  rfl

theorem parent_of_child (h : σ.child? k = some τ) : τ.entry.parent = some σ.entry.id :=
  (child?_eq_some h).2.2.1

theorem id_lt_of_child (h : σ.child? k = some τ) : τ.entry.id < σ.entry.id := by
  obtain ⟨hChild, hFirst, -⟩ := child?_eq_some h
  have hSplit := Block.countAll_split hChild
  have hId := τ.id_entry_add_one
  rw [id_entry σ]
  omega

theorem id_le_of_descend {path : List Nat} (h : σ.descend path = some τ) :
    τ.entry.id ≤ σ.entry.id := by
  have hBound := (bounds_of_descend h).2
  have hInner := τ.id_entry_add_one
  have hOuter := σ.id_entry_add_one
  omega

end Spot

namespace BlockTree

section

variable {t : BlockTree K} {e u : Entry K} {i p : Nat}

/-- An entry is that of the root or that of a child. -/
theorem exists_upper (h : t.entry? i = some e) :
    e = (Spot.ofRoot t.root).entry ∨ ∃ (path : List Nat) (k : Nat) (σ τ : Spot K),
      (Spot.ofRoot t.root).descend path = some σ ∧ σ.child? k = some τ ∧ e = τ.entry := by
  obtain ⟨path, τ, hτ, rfl⟩ := exists_spot h
  rcases List.eq_nil_or_concat' path with rfl | ⟨path, k, rfl⟩
  · obtain rfl := Option.some.inj hτ
    exact .inl rfl
  · rw [Spot.descend_concat] at hτ
    obtain ⟨σ, hσ, hChild⟩ := Option.bind_eq_some_iff.mp hτ
    exact .inr ⟨path, k, σ, τ, hσ, hChild, rfl⟩

/-- An entry with a parent is that of one of the parent's children. -/
theorem exists_child (he : t.entry? i = some e) (hp : e.parent = some p) :
    ∃ (path : List Nat) (k : Nat) (σ τ : Spot K), (Spot.ofRoot t.root).descend path = some σ ∧
      σ.child? k = some τ ∧ e = τ.entry ∧ t.entry? p = some σ.entry := by
  rcases exists_upper he with rfl | ⟨path, k, σ, τ, hσ, hChild, rfl⟩
  · cases hp
  · obtain rfl := Option.some.inj ((Spot.parent_of_child hChild).symm.trans hp)
    exact ⟨path, k, σ, τ, hσ, hChild, rfl, lookup_spot hσ⟩

theorem length_entries_eq (t : BlockTree K) : t.entries.length = t.rootId + 1 := by
  have hCount : t.entries.length = t.root.count := Block.length_entries 0 none [] t.root
  have hPos := t.root.count_pos
  rw [hCount, rootId, count]
  omega

theorem id_root_entry (t : BlockTree K) : (Spot.ofRoot t.root).entry.id = t.rootId := by
  have hId : (Spot.ofRoot t.root).entry.id + 1 = 0 + t.root.count :=
    (Spot.ofRoot t.root).id_entry_add_one
  rw [rootId, count]
  omega

theorem entry?_rootId (t : BlockTree K) :
    t.entry? t.rootId = some (Spot.ofRoot t.root).entry := by
  have hRoot : (Spot.ofRoot t.root).descend [] = some (Spot.ofRoot t.root) := rfl
  rw [← t.id_root_entry]
  exact lookup_spot hRoot

theorem parent_eq_none_iff (he : t.entry? i = some e) : e.parent = none ↔ i = t.rootId := by
  rw [← id_of_lookup he, ← t.id_root_entry]
  rcases exists_upper he with rfl | ⟨path, k, σ, τ, hσ, hChild, rfl⟩
  · exact ⟨fun _ => rfl, fun _ => rfl⟩
  · have hLower := Spot.id_lt_of_child hChild
    have hUpper := Spot.id_le_of_descend hσ
    rw [Spot.parent_of_child hChild]
    constructor
    · nofun
    · intro hLast
      omega

theorem lt_of_parent (he : t.entry? i = some e) (hp : e.parent = some p) :
    i < p ∧ (t.entry? p).isSome = true := by
  obtain ⟨path, k, σ, τ, -, hChild, rfl, hUpper⟩ := exists_child he hp
  rw [← id_of_lookup he, hUpper, ← id_of_lookup hUpper]
  exact ⟨Spot.id_lt_of_child hChild, rfl⟩

theorem mem_children_iff (hu : t.entry? p = some u) :
    i ∈ u.children ↔ ∃ e, t.entry? i = some e ∧ e.parent = some p := by
  constructor
  · intro hi
    obtain ⟨path, σ, hσ, rfl⟩ := exists_spot hu
    obtain ⟨k, hk⟩ := List.mem_iff_getElem?.mp hi
    rw [Spot.getElem?_children_entry] at hk
    obtain ⟨τ, hChild, rfl⟩ := Option.map_eq_some_iff.mp hk
    have hτ : (Spot.ofRoot t.root).descend (path ++ [k]) = some τ := by
      rw [Spot.descend_concat, hσ]
      exact hChild
    refine ⟨τ.entry, lookup_spot hτ, ?_⟩
    rw [Spot.parent_of_child hChild, id_of_lookup hu]
  · rintro ⟨e, he, hp⟩
    obtain ⟨path, k, σ, τ, -, hChild, rfl, hUpper⟩ := exists_child he hp
    obtain rfl := Option.some.inj (hu.symm.trans hUpper)
    apply List.mem_of_getElem? (i := k)
    rw [Spot.getElem?_children_entry, hChild, ← id_of_lookup he]
    rfl

theorem children_increasing (hu : t.entry? p = some u) : u.children.Pairwise (· < ·) := by
  obtain ⟨path, σ, -, rfl⟩ := exists_spot hu
  exact (Block.siblingIds_increasing σ.first σ.block.children).2

theorem children_of_leaf (he : t.entry? i = some e) (hLeaf : e.block.isLeaf = true) :
    e.children = [] := by
  obtain ⟨path, ⟨first, parent, above, block⟩, -, rfl⟩ := exists_spot he
  cases block with
  | leaf f s => rfl
  | branch f s cs => cases hLeaf

theorem map_id_entries (t : BlockTree K) :
    t.entries.map (·.id) = List.range t.entries.length := by
  have hCount : t.entries.length = t.root.count := Block.length_entries 0 none [] t.root
  rw [hCount, List.range_eq_range']
  exact Block.map_id_entries 0 none [] t.root

theorem mem_filter_ids {q : Entry K → Bool} :
    i ∈ (t.entries.filter q).map (·.id) ↔ ∃ e, t.entry? i = some e ∧ q e = true := by
  constructor
  · intro h
    obtain ⟨e, he, rfl⟩ := List.mem_map.mp h
    obtain ⟨he, hq⟩ := List.mem_filter.mp he
    exact ⟨e, lookup_of_mem he, hq⟩
  · rintro ⟨e, he, hq⟩
    rw [← id_of_lookup he]
    exact List.mem_map_of_mem (List.mem_filter.mpr ⟨List.mem_of_getElem? he, hq⟩)

theorem filter_ids_increasing (t : BlockTree K) (q : Entry K → Bool) :
    ((t.entries.filter q).map (·.id)).Pairwise (· < ·) := by
  apply List.Pairwise.sublist (List.filter_sublist.map _)
  rw [map_id_entries]
  exact List.pairwise_lt_range

theorem leaves_append_branches (t : BlockTree K) :
    (t.leaves ++ t.branches).Perm (List.range t.entries.length) := by
  rw [leaves, branches, ← List.map_append, ← map_id_entries]
  exact (List.filter_append_perm (·.block.isLeaf) t.entries).map _

end

end BlockTree

end Blockwork
