import Blockwork.Proofs.Board.Consistency

/-! # What a drop does

Over the palette nothing is added. Elsewhere the first leaf under the handle decides: one of the
type of what is dragged takes it in, and in every other case it becomes an expression of its own.
In a consistent session no drop fails.
-/

set_option autoImplicit false

namespace Blockwork

variable {K : Type}

namespace Drag

def leave (d : Drag K) (c : Collection K) : Collection K :=
  match d.owner with
  | some owner => c.erase owner
  | none => c

theorem forall_mem_leave (d : Drag K) {c : Collection K} {P : Nat × Placed K → Prop}
    (h : ∀ e ∈ c.entries, P e) : ∀ e ∈ (d.leave c).entries, P e := by
  rw [leave]
  split
  · exact Collection.forall_mem_erase h _
  · exact h

theorem ordered_leave (d : Drag K) {c : Collection K} (h : c.Ordered) : (d.leave c).Ordered := by
  rw [leave]
  split
  · exact h.erase _
  · exact h

end Drag

variable [Scalar K]

namespace Session

def Meets (s : Session K) (d : Drag K) (leaf : LeafRef) : Prop :=
  some leaf.placed ≠ d.owner ∧
    ∃ handle area, d.tree.handleCenter d.tree.rootId = some handle ∧
      s.canvas.checkArea leaf = some area ∧
      area.contains (s.viewport.globalToCanvas handle) = true

/-- The first leaf that a drag meets, in the order of the canvas. -/
def FirstMet (s : Session K) (d : Drag K) (leaf : LeafRef) : Prop :=
  s.Meets d leaf ∧
    ∃ before after, s.canvas.leaves = before ++ leaf :: after ∧ ∀ l ∈ before, ¬ s.Meets d l

def leafBlock? (s : Session K) (leaf : LeafRef) : Option (Block K) :=
  (s.canvas.tree? leaf.placed).bind (·.block? leaf.block)

section

variable {s : Session K} {d : Drag K}

theorem meets_iff {handle : Point K} (hHandle : d.tree.handleCenter d.tree.rootId = some handle)
    (leaf : LeafRef) :
    s.Meets d leaf ↔ (some leaf.placed != d.owner) = true ∧
      (s.canvas.checkArea leaf).any (·.contains (s.viewport.globalToCanvas handle)) = true := by
  rw [bne_iff_ne, Option.any_eq_true]
  constructor
  · rintro ⟨hOwner, h, area, hh, hArea, hContains⟩
    obtain rfl := Option.some.inj (hHandle.symm.trans hh)
    exact ⟨hOwner, area, hArea, hContains⟩
  · rintro ⟨hOwner, area, hArea, hContains⟩
    exact ⟨hOwner, handle, area, hHandle, hArea, hContains⟩

theorem firstMet_iff {handle : Point K}
    (hHandle : d.tree.handleCenter d.tree.rootId = some handle) (leaf : LeafRef) :
    s.FirstMet d leaf ↔
      (s.canvas.leaves.filter fun l => some l.placed != d.owner).find? (fun l =>
        (s.canvas.checkArea l).any (·.contains (s.viewport.globalToCanvas handle))) =
        some leaf := by
  rw [List.find?_filter, List.find?_eq_some_iff_append, FirstMet]
  simp only [decide_eq_true_eq, Bool.not_eq_true', decide_eq_false_iff_not, ← meets_iff hHandle]

theorem FirstMet.exists_handle {leaf : LeafRef} (h : s.FirstMet d leaf) :
    ∃ handle, d.tree.handleCenter d.tree.rootId = some handle := by
  obtain ⟨⟨-, handle, -, hHandle, -⟩, -⟩ := h
  exact ⟨handle, hHandle⟩

theorem FirstMet.unique {l m : LeafRef} (hl : s.FirstMet d l) (hm : s.FirstMet d m) : l = m := by
  obtain ⟨handle, hHandle⟩ := hl.exists_handle
  rw [firstMet_iff hHandle] at hl hm
  exact Option.some.inj (hl.symm.trans hm)

theorem not_meets_of_owner {leaf : LeafRef} (h : d.owner = some leaf.placed) :
    ¬ s.Meets d leaf := by
  rintro ⟨hApart, -⟩
  exact hApart h.symm

theorem Meets.exists_block {leaf : LeafRef} (h : s.Meets d leaf) :
    ∃ t b, s.canvas.tree? leaf.placed = some t ∧ t.block? leaf.block = some b := by
  obtain ⟨-, handle, area, -, hArea, -⟩ := h
  obtain ⟨t, ht, hArea⟩ := Option.bind_eq_some_iff.mp hArea
  obtain ⟨e, he, -⟩ := Option.bind_eq_some_iff.mp hArea
  exact ⟨t, e.block, ht, by rw [BlockTree.block?, he]; rfl⟩

theorem probe_of_firstMet {leaf : LeafRef} {b : Block K}
    (hOutside : s.viewport.isOverPalette d.position = false) (h : s.FirstMet d leaf)
    (hb : s.leafBlock? leaf = some b) :
    s.probe d = some ⟨leaf, b.frame.type = d.tree.root.frame.type⟩ := by
  obtain ⟨handle, hHandle⟩ := h.exists_handle
  rw [firstMet_iff hHandle] at h
  rw [leafBlock?] at hb
  rw [probe, hOutside, if_neg Bool.false_ne_true, hHandle]
  simp only [h, hb, Option.map_some]

theorem probe_of_no_leaf (h : ∀ leaf, ¬ s.FirstMet d leaf) : s.probe d = none := by
  rw [probe]
  split
  · rfl
  · split
    · rfl
    · rename_i handle hHandle
      dsimp only
      split
      · rfl
      · rename_i leaf hLeaf
        exact absurd ((firstMet_iff hHandle leaf).mpr hLeaf) (h leaf)

theorem probe_inv {c : Collision} (h : s.probe d = some c) :
    s.viewport.isOverPalette d.position = false ∧ s.FirstMet d c.leaf ∧
      ∃ b, s.leafBlock? c.leaf = some b ∧
        c.agrees = decide (b.frame.type = d.tree.root.frame.type) := by
  cases hOver : s.viewport.isOverPalette d.position with
  | true =>
    rw [probe, if_pos hOver] at h
    cases h
  | false =>
    by_cases hSome : ∃ leaf, s.FirstMet d leaf
    · obtain ⟨leaf, hFirst⟩ := hSome
      obtain ⟨t, b, ht, hb⟩ := hFirst.1.exists_block
      have hBlock : s.leafBlock? leaf = some b := by
        rw [leafBlock?, ht]
        exact hb
      rw [probe_of_firstMet hOver hFirst hBlock] at h
      obtain rfl := Option.some.inj h
      exact ⟨rfl, hFirst, b, hBlock, rfl⟩
    · rw [probe_of_no_leaf fun leaf hFirst => hSome ⟨leaf, hFirst⟩] at h
      cases h

theorem Located.merge {leaf : LeafRef} {b : Block K} {p : Placed K} {n r : Node}
    {path : List Nat} {text : String} (h : s.Located leaf.placed b p n path)
    (hb : s.leafBlock? leaf = some b) (hText : Node.read text = .ok r) :
    s.merge s.placed leaf text =
      .ok (s.placed.next, (s.placed.add ⟨(n.ungroup.put path r).canonical, p.origin⟩).erase
        leaf.placed) := by
  rw [leafBlock?] at hb
  rw [Session.merge, h.placed, hb]
  simp only [h.substitute hText]
  rfl

end

def dropOrigin (s : Session K) (d : Drag K) : Point K :=
  let p := s.viewport.globalToCanvas d.position
  ⟨p.x, max p.y s.settings.minDropY⟩

/-- The outcome of a drop, and the collection after it with the owner still in place. -/
inductive Drops (s : Session K) (d : Drag K) : Outcome → Collection K → Prop where
  | deleted (hOver : s.viewport.isOverPalette d.position = true) :
      Drops s d (.deleted d.owner) s.placed
  | merged {leaf : LeafRef} {b : Block K} {p : Placed K} {n r : Node} {path : List Nat}
      (hOutside : s.viewport.isOverPalette d.position = false) (hFirst : s.FirstMet d leaf)
      (hBlock : s.leafBlock? leaf = some b) (hType : b.frame.type = d.tree.root.frame.type)
      (hLocated : s.Located leaf.placed b p n path) (hRead : Node.read d.expression = .ok r) :
      Drops s d (.merged leaf.placed s.placed.next)
        ((s.placed.add ⟨(n.ungroup.put path r).canonical, p.origin⟩).erase leaf.placed)
  | placed (hOutside : s.viewport.isOverPalette d.position = false)
      (hApart : ∀ leaf b, s.FirstMet d leaf → s.leafBlock? leaf = some b →
        b.frame.type ≠ d.tree.root.frame.type) :
      Drops s d (.placed s.placed.next) (s.placed.add ⟨d.expression, s.dropOrigin d⟩)

section

variable {s : Session K} {d : Drag K}

theorem drop_over_palette (hFits : d.Fits s.placed)
    (hOver : s.viewport.isOverPalette d.position = true) :
    s.drop d = .ok (.deleted d.owner, s.placed) := by
  have hOwner : d.owner.filter s.placed.contains = d.owner := by
    cases hSome : d.owner with
    | none => rfl
    | some id =>
      obtain ⟨p, hp, -⟩ := hFits.owner id hSome
      have hContains : s.placed.contains id = true := by
        rw [Collection.contains, hp]
        rfl
      rw [Option.filter_some, if_pos hContains]
  rw [drop, if_pos hOver, hOwner]

theorem drop_of_probe (hOutside : s.viewport.isOverPalette d.position = false) :
    s.drop d =
      match s.probe d with
      | some c =>
        if c.agrees then
          (s.merge s.placed c.leaf d.expression).map fun (id, merged) =>
            (.merged c.leaf.placed id, merged)
        else .ok (.placed s.placed.next, s.placed.add ⟨d.expression, s.dropOrigin d⟩)
      | none => .ok (.placed s.placed.next, s.placed.add ⟨d.expression, s.dropOrigin d⟩) := by
  rw [drop, hOutside, if_neg Bool.false_ne_true]
  rfl

/-- No drop fails, and every drop is one of the three kinds. -/
theorem Consistent.exists_drop (h : s.Consistent) (hFits : d.Fits s.placed) :
    ∃ outcome next, s.drop d = .ok (outcome, next) ∧ s.Drops d outcome next := by
  cases hOver : s.viewport.isOverPalette d.position with
  | true => exact ⟨_, _, drop_over_palette hFits hOver, .deleted hOver⟩
  | false =>
    rw [drop_of_probe hOver]
    by_cases hSome : ∃ leaf, s.FirstMet d leaf
    · obtain ⟨leaf, hFirst⟩ := hSome
      obtain ⟨t, b, ht, hb⟩ := hFirst.1.exists_block
      have hBlock : s.leafBlock? leaf = some b := by
        rw [leafBlock?, ht]
        exact hb
      rw [probe_of_firstMet hOver hFirst hBlock]
      by_cases hType : b.frame.type = d.tree.root.frame.type
      · obtain ⟨p, n, path, hLocated⟩ := h.exists_located ht hb
        obtain ⟨r, hRead, -⟩ := hFits.stored.read
        refine ⟨_, _, ?_, .merged hOver hFirst hBlock hType hLocated hRead⟩
        dsimp only
        rw [if_pos (decide_eq_true hType), hLocated.merge hBlock hRead]
        rfl
      · refine ⟨_, _, ?_, .placed hOver fun other c hOther hc => ?_⟩
        · dsimp only
          rw [if_neg (by simpa using hType)]
        · obtain rfl := hOther.unique hFirst
          obtain rfl := Option.some.inj (hc.symm.trans hBlock)
          exact hType
    · have hNone : ∀ leaf, ¬ s.FirstMet d leaf := fun leaf hFirst => hSome ⟨leaf, hFirst⟩
      rw [probe_of_no_leaf hNone]
      exact ⟨_, _, rfl, .placed hOver fun leaf _ hFirst => absurd hFirst (hNone leaf)⟩

theorem Drops.allStored {outcome : Outcome} {next : Collection K} (h : s.Drops d outcome next)
    (hStored : s.placed.AllStored) (hFits : d.Fits s.placed) : next.AllStored := by
  cases h with
  | deleted => exact hStored
  | merged _ _ _ _ hLocated hRead =>
    exact (hStored.add (hLocated.stored_put hFits.stored hRead)).erase _
  | placed => exact hStored.add hFits.stored

theorem Drops.ordered {outcome : Outcome} {next : Collection K} (h : s.Drops d outcome next)
    (hOrdered : s.placed.Ordered) : next.Ordered := by
  cases h with
  | deleted => exact hOrdered
  | merged => exact (hOrdered.add _).erase _
  | placed => exact hOrdered.add _

end

def freed (s : Session K) : Session K :=
  { s with drag := none, framePending := false, canvas := s.canvas.unlit }

section

variable {s : Session K} {d : Drag K}

theorem leafBlock?_freed (leaf : LeafRef) :
    s.freed.leafBlock? leaf = (s.leafBlock? leaf).map Block.unlit := by
  rw [leafBlock?, leafBlock?, freed, Canvas.tree?_unlit]
  cases s.canvas.tree? leaf.placed with
  | none => rfl
  | some t => exact BlockTree.block?_unlit t leaf.block

theorem probe_freed : s.freed.probe d = s.probe d := by
  have hBlock : ∀ leaf, s.freed.leafBlock? leaf = (s.leafBlock? leaf).map Block.unlit :=
    leafBlock?_freed
  simp only [leafBlock?] at hBlock
  rw [probe, probe]
  simp only [hBlock]
  simp only [freed, Canvas.leaves_unlit, Canvas.checkArea_unlit, Option.map_map,
    Function.comp_def, Block.type_unlit]

theorem merge_freed (next : Collection K) (leaf : LeafRef) (text : String) :
    s.freed.merge next leaf text = s.merge next leaf text := by
  have hBlock := leafBlock?_freed (s := s) leaf
  simp only [leafBlock?] at hBlock
  rw [merge, merge, hBlock]
  cases next.get? leaf.placed with
  | none => rfl
  | some target =>
    cases (s.canvas.tree? leaf.placed).bind (·.block? leaf.block) with
    | none => rfl
    | some b => simp only [Option.map_some, Block.address_unlit]

theorem drop_freed : s.freed.drop d = s.drop d := by
  rw [drop, drop]
  simp only [probe_freed, merge_freed]
  rfl

theorem Consistent.freed (h : s.Consistent) : s.freed.Consistent where
  stored := h.stored
  canvas := (Canvas.unlit_unlit s.canvas).trans h.canvas
  ordered := h.ordered
  palette := h.palette
  drag := nofun

end

section

variable {s : Session K} {d : Drag K}

theorem finishDrag_eq (hd : s.drag = some d) :
    s.finishDrag =
      match s.freed.drop d.settled with
      | .error e => (if e.isRecoverable then .ok .aborted else .error e, s.freed)
      | .ok (outcome, next) =>
        match s.freed.commit (d.leave next) with
        | .error e => (.error e, s.freed)
        | .ok after => (.ok outcome, after) := by
  rw [finishDrag, hd]
  simp only [Drag.owner_settled]
  rfl

/-- The end of a drag drops it, and its owner leaves the collection. -/
theorem Consistent.exists_finishDrag (h : s.Consistent) (hd : s.drag = some d) :
    ∃ outcome next, s.Drops d.settled outcome next ∧ (d.leave next).AllStored ∧
      (d.leave next).Ordered ∧
      s.finishDrag = (.ok outcome,
        { s.freed with placed := d.leave next, canvas := .build s.style (d.leave next) }) := by
  have hFits := (h.drag d hd).settled
  obtain ⟨outcome, next, hDrop, hDrops⟩ := h.exists_drop hFits
  have hStored : (d.leave next).AllStored :=
    Drag.forall_mem_leave d (hDrops.allStored h.stored hFits)
  have hOrdered := Drag.ordered_leave d (hDrops.ordered h.ordered)
  refine ⟨outcome, next, hDrops, hStored, hOrdered, ?_⟩
  rw [finishDrag_eq hd, drop_freed, hDrop]
  dsimp only
  rw [commit_of_stored hStored]
  rfl

theorem Consistent.finishDrag (h : s.Consistent) : s.finishDrag.2.Consistent := by
  cases hd : s.drag with
  | none =>
    rw [Session.finishDrag, hd]
    exact h
  | some d =>
    obtain ⟨outcome, next, -, hStored, hOrdered, hFinish⟩ := h.exists_finishDrag hd
    rw [hFinish]
    exact h.freed.committed hStored hOrdered nofun

end

end Session

end Blockwork
