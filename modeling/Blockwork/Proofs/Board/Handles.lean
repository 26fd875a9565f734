import Blockwork.Proofs.Block.Hit
import Blockwork.Proofs.Block.Numbering
import Blockwork.Proofs.Board.Drop

/-! # Handles

The search under the pointer names branches only. A branch has a handle, which meets a leaf where it
is in the leaf's check area; what has no handle meets nothing.
-/

set_option autoImplicit false

namespace Blockwork

variable {K : Type}

theorem Block.branchShape?_eq_none {b : Block K} : b.branchShape? = none ↔ b.isLeaf = true := by
  cases b <;> simp [branchShape?, isLeaf]

def Canvas.Distinct (c : Canvas K) : Prop := (c.entries.map (·.id)).Nodup

theorem Canvas.Distinct.tree?_of_mem {c : Canvas K} (h : c.Distinct) {e : CanvasEntry K}
    (he : e ∈ c.entries) : c.tree? e.id = some e.tree := by
  rw [tree?, find?_key h he]
  rfl

variable [Scalar K]

theorem BlockTree.handleCenter_rootId (t : BlockTree K) :
    t.handleCenter t.rootId = none ↔ t.root.isLeaf = true := by
  have hEntry := t.entry?_rootId
  rw [← Block.branchShape?_eq_none, handleCenter, hEntry, Option.bind_eq_bind, Option.bind_some,
    Option.bind_eq_bind, Option.bind_eq_none_iff]
  constructor
  · intro h
    apply Option.eq_none_iff_forall_ne_some.mpr
    intro shape hShape
    cases h shape hShape
  · intro hNone shape hShape
    cases hNone.symm.trans hShape

theorem BlockTree.root_of_hit {t : BlockTree K} {p : Point K} {id : Nat} (h : t.hit p = some id) :
    t.root.isLeaf = false := by
  rw [hit] at h
  cases hRoot : t.root with
  | leaf f s =>
    rw [hRoot] at h
    cases h
  | branch f s cs => rfl

namespace Canvas

theorem sublist_ids_go (style : Style K) (entries : List (Nat × Placed K)) :
    ((build.go style entries).entries.map (·.id)).Sublist (entries.map (·.1)) := by
  induction entries with
  | nil => exact .refl _
  | cons e rest ih =>
    obtain ⟨id, p⟩ := e
    cases hLayOut : style.layOutText p.expression with
    | ok tree =>
      rw [go_cons_ok hLayOut]
      exact ih.cons_cons id
    | error fault =>
      rw [go_cons_error hLayOut]
      exact ih.cons id

theorem distinct_build (style : Style K) {placed : Collection K} (h : placed.Ordered) :
    (build style placed).Distinct := by
  exact h.nodup_ids.sublist (sublist_ids_go style placed.entries)

theorem distinct_unlit {c : Canvas K} : c.unlit.Distinct ↔ c.Distinct := by
  simp [Distinct, unlit, Function.comp_def]

theorem Distinct.exists_branch_of_hit {c : Canvas K} (h : c.Distinct) {p : Point K}
    {placed block : Nat} (hHit : c.hit p = some (placed, block)) :
    ∃ t b, c.tree? placed = some t ∧ t.block? block = some b ∧ b.isLeaf = false := by
  obtain ⟨e, he, hTree⟩ := List.exists_of_findSome?_eq_some hHit
  obtain ⟨id, hBlock, hNames⟩ := Option.map_eq_some_iff.mp hTree
  obtain ⟨rfl, rfl⟩ := Prod.mk.inj hNames
  obtain ⟨b, hb, hBranch⟩ := BlockTree.exists_branch_of_hit hBlock
  exact ⟨e.tree, b, h.tree?_of_mem (List.mem_reverse.mp he), hb, hBranch⟩

end Canvas

theorem Palette.exists_branch_of_hit {palette : Palette K} {p : Point K} {index block : Nat}
    (h : palette.hit p = some (index, block)) :
    ∃ t, palette.templates[index]? = some t ∧ t.root.isLeaf = false := by
  obtain ⟨⟨t, i⟩, he, hTree⟩ := List.exists_of_findSome?_eq_some h
  obtain ⟨id, hBlock, hNames⟩ := Option.map_eq_some_iff.mp hTree
  obtain ⟨rfl, rfl⟩ := Prod.mk.inj hNames
  have hTemplate := List.mem_zipIdx_iff_getElem?.mp (List.mem_reverse.mp he)
  exact ⟨t, hTemplate, BlockTree.root_of_hit hBlock⟩

namespace Session

section

variable {s : Session K} {d : Drag K}

theorem Meets.mem_leaves {leaf : LeafRef} (h : s.Meets d leaf) : leaf ∈ s.canvas.leaves := by
  obtain ⟨-, handle, area, -, hArea, -⟩ := h
  obtain ⟨t, ht, hArea⟩ := Option.bind_eq_some_iff.mp hArea
  obtain ⟨e, he, hShape⟩ := Option.bind_eq_some_iff.mp hArea
  obtain ⟨entry, hEntry, rfl⟩ := Option.map_eq_some_iff.mp ht
  have hId : entry.id = leaf.placed := by simpa using List.find?_some hEntry
  have hLeaf : e.block.isLeaf = true := by
    obtain ⟨shape, hShape, -⟩ := Option.bind_eq_some_iff.mp hShape
    revert hShape
    cases e.block <;> simp [Block.leafShape?, Block.isLeaf]
  have hNumber : leaf.block ∈ entry.tree.leaves := by
    rw [← BlockTree.id_of_lookup he]
    exact List.mem_map_of_mem (List.mem_filter.mpr ⟨List.mem_of_getElem? he, hLeaf⟩)
  refine List.mem_flatMap.mpr ⟨entry, List.mem_of_find?_eq_some hEntry, ?_⟩
  exact List.mem_map.mpr ⟨leaf.block, hNumber, by rw [hId]⟩

theorem Meets.exists_firstMet {leaf : LeafRef} (h : s.Meets d leaf) :
    ∃ first, s.FirstMet d first := by
  obtain ⟨-, handle, -, hHandle, -⟩ := id h
  have hSome : ((s.canvas.leaves.filter fun l => some l.placed != d.owner).find? fun l =>
      (s.canvas.checkArea l).any (·.contains (s.viewport.globalToCanvas handle))).isSome := by
    obtain ⟨hOther, hArea⟩ := (meets_iff hHandle leaf).mp h
    rw [List.find?_isSome]
    exact ⟨leaf, List.mem_filter.mpr ⟨h.mem_leaves, hOther⟩, hArea⟩
  obtain ⟨first, hFirst⟩ := Option.isSome_iff_exists.mp hSome
  exact ⟨first, (firstMet_iff hHandle first).mpr hFirst⟩

/-- A drag meets something exactly where its handle is in the check area of some leaf. -/
theorem probe_isSome_iff (s : Session K) (d : Drag K) :
    (s.probe d).isSome = true ↔
      s.viewport.isOverPalette d.position = false ∧ ∃ leaf, s.Meets d leaf := by
  rw [Option.isSome_iff_exists]
  constructor
  · rintro ⟨c, hProbe⟩
    obtain ⟨hOutside, hFirst, -⟩ := probe_inv hProbe
    exact ⟨hOutside, c.leaf, hFirst.1⟩
  · rintro ⟨hOutside, leaf, hMeets⟩
    obtain ⟨first, hFirst⟩ := hMeets.exists_firstMet
    obtain ⟨t, b, ht, hb⟩ := hFirst.1.exists_block
    have hBlock : s.leafBlock? first = some b := by
      rw [leafBlock?, ht]
      exact hb
    exact ⟨_, probe_of_firstMet hOutside hFirst hBlock⟩

theorem probe_of_leaf (hLeaf : d.tree.root.isLeaf = true) : s.probe d = none := by
  apply probe_of_no_leaf
  intro leaf hFirst
  obtain ⟨handle, hHandle⟩ := hFirst.exists_handle
  rw [d.tree.handleCenter_rootId.mpr hLeaf] at hHandle
  cases hHandle

/-- What has a branch for its root has a handle, and meets something where the handle is over a leaf
of another expression. -/
theorem exists_handle (hBranch : d.tree.root.isLeaf = false) :
    ∃ handle, d.tree.handleCenter d.tree.rootId = some handle ∧
      ∀ s : Session K, (s.probe d).isSome = true ↔
        s.viewport.isOverPalette d.position = false ∧
          ∃ leaf area, some leaf.placed ≠ d.owner ∧ s.canvas.checkArea leaf = some area ∧
            area.contains (s.viewport.globalToCanvas handle) = true := by
  have hSome : d.tree.handleCenter d.tree.rootId ≠ none := by
    rw [ne_eq, BlockTree.handleCenter_rootId, hBranch]
    exact Bool.false_ne_true
  obtain ⟨handle, hHandle⟩ := Option.ne_none_iff_exists'.mp hSome
  refine ⟨handle, hHandle, fun s => ?_⟩
  rw [probe_isSome_iff]
  apply and_congr_right
  intro _
  apply exists_congr
  intro leaf
  constructor
  · rintro ⟨hOther, found, area, hFound, hArea, hInside⟩
    obtain rfl := Option.some.inj (hHandle.symm.trans hFound)
    exact ⟨area, hOther, hArea, hInside⟩
  · rintro ⟨area, hOther, hArea, hInside⟩
    exact ⟨hOther, handle, area, hHandle, hArea, hInside⟩

end

end Session

end Blockwork
