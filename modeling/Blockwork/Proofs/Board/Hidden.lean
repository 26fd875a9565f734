import Blockwork.Proofs.Board.Drop

/-! # Hidden expressions

A placed expression without a layout stays in the collection and is left off the canvas. Two
collections that differ in such expressions only have the same canvas entries, and additions,
removals and lookups under other ids do the same to both.
-/

set_option autoImplicit false

namespace Blockwork

variable {K : Type}

namespace Collection

def among (c : Collection K) (ids : List Nat) : List (Nat × Placed K) :=
  c.entries.filter fun e => ids.contains e.1

/-- The second collection has the entries of the first, in their order, and between them hidden
ones under the given ids. -/
structure Hides (ids : List Nat) (hidden : List (Nat × Placed K)) (base c : Collection K) :
    Prop where
  others : c.others ids = base.entries
  among : c.among ids = hidden
  next : c.next = base.next
  below : ∀ id ∈ ids, id < base.next

section

variable {ids : List Nat} {hidden : List (Nat × Placed K)} {base c : Collection K} {id : Nat}

theorem Hides.next_notMem (h : base.Hides ids hidden c) : base.next ∉ ids := by
  intro hMem
  exact Nat.lt_irrefl _ (h.below _ hMem)

theorem Hides.notMem (h : base.Hides ids hidden c) (hid : id ∈ base.ids) : id ∉ ids := by
  obtain ⟨e, he, rfl⟩ := List.mem_map.mp hid
  have hOther : e ∈ c.others ids := h.others ▸ he
  simpa using (List.mem_filter.mp hOther).2

/-- Under other ids both collections have the same entries. -/
theorem Hides.get? (h : base.Hides ids hidden c) (hid : id ∉ ids) : c.get? id = base.get? id := by
  rw [Collection.get?, Collection.get?, ← h.others, Collection.others, List.find?_filter]
  congr 2
  funext e
  by_cases hSame : e.1 = id
  · simp [hSame, hid]
  · simp [hSame]

theorem Hides.contains (h : base.Hides ids hidden c) (hid : id ∉ ids) :
    c.contains id = base.contains id := by
  rw [Collection.contains, Collection.contains, h.get? hid]

theorem Hides.add (h : base.Hides ids hidden c) (p : Placed K) :
    (base.add p).Hides ids hidden (c.add p) where
  others := by
    have hNext : c.next ∉ ids := by
      rw [h.next]
      exact h.next_notMem
    rw [others_add hNext, h.others, h.next]
    rfl
  among := by
    have hNext : c.next ∉ ids := by
      rw [h.next]
      exact h.next_notMem
    have hLast : [(c.next, p)].filter (fun e => ids.contains e.1) = [] := by
      simp [hNext]
    rw [← h.among, Collection.among, Collection.add, List.filter_append, hLast, List.append_nil]
    rfl
  next := congrArg (· + 1) h.next
  below := fun id hid => Nat.lt_succ_of_lt (h.below id hid)

theorem Hides.erase (h : base.Hides ids hidden c) (hid : id ∉ ids) :
    (base.erase id).Hides ids hidden (c.erase id) where
  others := by
    have hShown : (fun e : Nat × Placed K => decide (e.1 = id) && !ids.contains e.1) =
        fun e => decide (e.1 = id) := by
      funext e
      by_cases hSame : e.1 = id
      · simp [hSame, hid]
      · simp [hSame]
    rw [Collection.others, Collection.erase, Collection.erase, ← h.others, Collection.others,
      List.eraseP_filter, hShown]
  among := by
    rw [← h.among, Collection.among, Collection.among, Collection.erase]
    induction c.entries with
    | nil => rfl
    | cons e rest ih =>
      by_cases hSame : e.1 = id
      · rw [List.eraseP_cons_of_pos (by simpa using hSame),
          List.filter_cons_of_neg (by simp [hSame, hid])]
      · rw [List.eraseP_cons_of_neg (by simpa using hSame), List.filter_cons, List.filter_cons, ih]
  next := h.next
  below := h.below

end

end Collection

theorem Drag.hides_leave (d : Drag K) {ids : List Nat} {hidden : List (Nat × Placed K)}
    {base c : Collection K} (h : base.Hides ids hidden c)
    (hOwner : ∀ id, d.owner = some id → id ∉ ids) :
    (d.leave base).Hides ids hidden (d.leave c) := by
  rw [leave, leave]
  split
  · rename_i owner hSome
    exact h.erase (hOwner owner hSome)
  · exact h

namespace Canvas

def ids (c : Canvas K) : List Nat := c.entries.map (·.id)

theorem mem_ids_of_tree? {c : Canvas K} {id : Nat} {t : BlockTree K} (h : c.tree? id = some t) :
    id ∈ c.ids := by
  obtain ⟨e, he, rfl⟩ := Option.map_eq_some_iff.mp h
  have hId : e.id = id := by simpa using List.find?_some he
  exact List.mem_map.mpr ⟨e, List.mem_of_find?_eq_some he, hId⟩

end Canvas

variable [Scalar K]

def Style.Refuses (style : Style K) (entries : List (Nat × Placed K)) : Prop :=
  ∀ e ∈ entries, ∃ fault, style.layOutText e.2.expression = .error fault

namespace Canvas

@[simp] theorem ids_unlit (c : Canvas K) : c.unlit.ids = c.ids := by
  simp [ids, unlit, Function.comp_def]

theorem mem_ids_go {style : Style K} {entries : List (Nat × Placed K)} {id : Nat}
    (h : id ∈ (build.go style entries).ids) : id ∈ entries.map (·.1) := by
  obtain ⟨e, he, rfl⟩ := List.mem_map.mp h
  obtain ⟨p, -, hp, -⟩ := mem_entries_go he
  exact List.mem_map_of_mem hp

theorem entries_go_filter {style : Style K} {shown : Nat × Placed K → Bool}
    {entries : List (Nat × Placed K)}
    (h : style.Refuses (entries.filter fun e => !shown e)) :
    (build.go style entries).entries = (build.go style (entries.filter shown)).entries := by
  induction entries with
  | nil => rfl
  | cons e rest ih =>
    obtain ⟨id, p⟩ := e
    cases hShown : shown (id, p) with
    | true =>
      rw [List.filter_cons_of_neg (by simp [hShown])] at h
      rw [List.filter_cons_of_pos hShown]
      cases hLayOut : style.layOutText p.expression with
      | ok tree => rw [go_cons_ok hLayOut, go_cons_ok hLayOut, ih h]
      | error fault => rw [go_cons_error hLayOut, go_cons_error hLayOut, ih h]
    | false =>
      rw [List.filter_cons_of_pos (by simp [hShown])] at h
      obtain ⟨⟨fault, hFault⟩, hRest⟩ := List.forall_mem_cons.mp h
      rw [List.filter_cons_of_neg (by simp [hShown]), go_cons_error hFault, ih hRest]

theorem entries_build_of_hides {style : Style K} {ids : List Nat}
    {hidden : List (Nat × Placed K)} {base c : Collection K} (h : base.Hides ids hidden c)
    (hHidden : style.Refuses hidden) :
    (build style c).entries = (build style base).entries := by
  have hRest : style.Refuses (c.entries.filter fun e => !!ids.contains e.1) := by
    simp only [Bool.not_not]
    rw [← h.among] at hHidden
    exact hHidden
  rw [build, build, entries_go_filter hRest, ← h.others, Collection.others]

end Canvas

end Blockwork
