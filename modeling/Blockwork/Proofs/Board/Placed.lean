import Blockwork.Board.Placed

/-! # Ids of placed expressions

The ids of a collection grow from the bottom to the top and stay below the next one. So an id
names one entry, and taking an entry away leaves all the others.
-/

set_option autoImplicit false

namespace Blockwork

theorem find?_key {α : Type} {key : α → Nat} {xs : List α} (h : (xs.map key).Nodup) {x : α}
    (hx : x ∈ xs) : xs.find? (fun y => key y = key x) = some x := by
  obtain ⟨before, after, rfl⟩ := List.append_of_mem hx
  have hBefore : before.find? (fun y => key y = key x) = none := by
    rw [List.find?_eq_none]
    intro y hy
    rw [List.map_append, List.nodup_append] at h
    have hApart := h.2.2 (key y) (List.mem_map_of_mem hy) (key x) List.mem_cons_self
    simpa using hApart
  rw [List.find?_append, hBefore, Option.none_or, List.find?_cons_of_pos (by simp)]

namespace Collection

variable {K : Type}

structure Ordered (c : Collection K) : Prop where
  below : ∀ id ∈ c.ids, id < c.next
  ascending : c.ids.Pairwise (· < ·)

def others (c : Collection K) (ids : List Nat) : List (Nat × Placed K) :=
  c.entries.filter fun e => !ids.contains e.1

section

variable {c : Collection K} {id : Nat} {p : Placed K}

theorem ordered_empty : (empty : Collection K).Ordered :=
  ⟨nofun, .nil⟩

theorem Ordered.next_notMem (h : c.Ordered) : c.next ∉ c.ids := by
  intro hMem
  exact Nat.lt_irrefl _ (h.below _ hMem)

theorem Ordered.add (h : c.Ordered) (p : Placed K) : (c.add p).Ordered := by
  constructor
  · intro id hid
    rw [ids_add] at hid
    rcases List.mem_append.mp hid with hid | hid
    · exact Nat.lt_succ_of_lt (h.below id hid)
    · obtain rfl := List.mem_singleton.mp hid
      exact Nat.lt_succ_self _
  · rw [ids_add]
    apply List.pairwise_append.mpr
    refine ⟨h.ascending, List.pairwise_singleton _ _, ?_⟩
    intro a ha b hb
    obtain rfl := List.mem_singleton.mp hb
    exact h.below a ha

theorem Ordered.erase (h : c.Ordered) (id : Nat) : (c.erase id).Ordered := by
  have hSublist : (c.erase id).ids.Sublist c.ids := by
    rw [ids_erase]
    exact List.erase_sublist
  exact ⟨fun a ha => h.below a (hSublist.mem ha), h.ascending.sublist hSublist⟩

theorem mem_of_get? (h : c.get? id = some p) : (id, p) ∈ c.entries := by
  obtain ⟨e, he, rfl⟩ := Option.map_eq_some_iff.mp h
  have hMem := List.mem_of_find?_eq_some he
  have hId : e.1 = id := by simpa using List.find?_some he
  rwa [← hId]

theorem mem_ids_of_get? (h : c.get? id = some p) : id ∈ c.ids :=
  List.mem_map_of_mem (mem_of_get? h)

theorem get?_add_of_get? (q : Placed K) (h : c.get? id = some p) :
    (c.add q).get? id = some p := by
  obtain ⟨e, he, rfl⟩ := Option.map_eq_some_iff.mp h
  rw [get?, Collection.add, List.find?_append, he]
  rfl

theorem mem_replaced (h : c.get? id = some p) (q : Placed K) :
    (c.next, q) ∈ ((c.add q).erase id).entries := by
  rw [Collection.erase, Collection.add, List.eraseP_append_left _ _ (mem_of_get? h)]
  · exact List.mem_append_right _ List.mem_cons_self
  · simp

theorem mem_of_mem_erase {e : Nat × Placed K} (h : e ∈ (c.erase id).entries) : e ∈ c.entries :=
  List.mem_of_mem_eraseP h

theorem forall_mem_add {P : Nat × Placed K → Prop} (h : ∀ e ∈ c.entries, P e)
    (hp : P (c.next, p)) : ∀ e ∈ (c.add p).entries, P e := by
  intro e he
  rcases List.mem_append.mp he with he | he
  · exact h e he
  · obtain rfl := List.mem_singleton.mp he
    exact hp

theorem forall_mem_erase {P : Nat × Placed K → Prop} (h : ∀ e ∈ c.entries, P e) (id : Nat) :
    ∀ e ∈ (c.erase id).entries, P e :=
  fun e he => h e (mem_of_mem_erase he)

theorem eraseP_eq_filter {entries : List (Nat × Placed K)}
    (h : entries.Pairwise fun e f => e.1 < f.1) (id : Nat) :
    entries.eraseP (fun e => e.1 = id) = entries.filter fun e => !([id].contains e.1) := by
  induction entries with
  | nil => rfl
  | cons e rest ih =>
    obtain ⟨hHead, hTail⟩ := List.pairwise_cons.mp h
    by_cases hId : e.1 = id
    · have hRest : rest.filter (fun f => !([id].contains f.1)) = rest := by
        apply List.filter_eq_self.mpr
        intro f hf
        have hLess := hHead f hf
        have hApart : f.1 ≠ id := by omega
        simp [hApart]
      rw [List.eraseP_cons_of_pos (by simp [hId]), List.filter_cons_of_neg (by simp [hId]), hRest]
    · simp [hId, ih hTail]

theorem Ordered.entries_erase (h : c.Ordered) (id : Nat) :
    (c.erase id).entries = c.others [id] :=
  eraseP_eq_filter (List.pairwise_map.mp h.ascending) id

theorem Ordered.nodup_ids (h : c.Ordered) : c.ids.Nodup :=
  h.ascending.imp fun hLess => Nat.ne_of_lt hLess

theorem Ordered.get?_of_mem (h : c.Ordered) (hp : (id, p) ∈ c.entries) : c.get? id = some p := by
  have hFound := find?_key h.nodup_ids hp
  rw [get?, hFound]
  rfl

theorem others_nil : c.others [] = c.entries := by
  simp [others]

theorem Ordered.others_erase (h : c.Ordered) (id : Nat) (ids : List Nat) :
    (c.erase id).others ids = c.others (id :: ids) := by
  rw [others, h.entries_erase, others, List.filter_filter, others]
  apply List.filter_congr
  intro e _
  by_cases hId : e.1 = id <;> simp [hId]

theorem others_add {ids : List Nat} (h : c.next ∉ ids) (p : Placed K) :
    (c.add p).others ids = c.others ids ++ [(c.next, p)] := by
  rw [others, Collection.add, List.filter_append]
  simp [others, h]

theorem Ordered.others_add_next (h : c.Ordered) (p : Placed K) (ids : List Nat) :
    (c.add p).others (ids ++ [c.next]) = c.others ids := by
  rw [others, Collection.add, List.filter_append, List.filter_cons_of_neg (by simp),
    List.filter_nil, List.append_nil, others]
  apply List.filter_congr
  intro e he
  have hLess := h.below e.1 (List.mem_map_of_mem he)
  have hApart : e.1 ≠ c.next := by omega
  simp [hApart]

theorem Ordered.get?_replaced (h : c.Ordered) (hid : id ∈ c.ids) (p : Placed K) :
    ((c.add p).erase id).get? c.next = some p := by
  have hApart : c.next ≠ id := by
    rintro rfl
    exact h.next_notMem hid
  apply ((h.add p).erase id).get?_of_mem
  rw [(h.add p).entries_erase, others_add (by simpa using hApart)]
  exact List.mem_append_right _ List.mem_cons_self

/-- An entry that is replaced twice: the first replacement is gone, and the others are in place. -/
theorem Ordered.replaced_twice (h : c.Ordered) (id : Nat) (p q : Placed K) :
    (((c.add p).erase id).add q).erase c.next =
      ⟨c.others [id] ++ [(c.next + 1, q)], c.next + 2⟩ := by
  have hOrdered := (h.add p).erase id
  have hFresh : ((c.add p).erase id).next ∉ [c.next] := by
    simp [Collection.erase, Collection.add]
  have hEntries : ((((c.add p).erase id).add q).erase c.next).entries =
      c.others [id] ++ [(c.next + 1, q)] := by
    rw [(hOrdered.add q).entries_erase, others_add hFresh, (h.add p).others_erase]
    exact congrArg (· ++ [(c.next + 1, q)]) (h.others_add_next p [id])
  rw [← hEntries]
  rfl

end

end Collection

end Blockwork
