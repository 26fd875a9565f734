import Blockwork.Proofs.Board.Call

/-! # Fresh ids

The next id of a collection never goes back, since a staged copy that is given up is thrown away
with its count, and what a call names as new is the id that was next before it. So no answer names
an id twice, and an id that is gone stays away.
-/

set_option autoImplicit false

namespace Blockwork

variable {K : Type}

namespace Collection

/-- A later state of a collection, after a count of additions. -/
structure Continues (c : Collection K) (count : Nat) (later : Collection K) : Prop where
  ordered : c.Ordered → later.Ordered
  next : later.next = c.next + count
  kept : ∀ id ∈ later.ids, id ∈ c.ids ∨ c.next ≤ id

/-- A later state after one addition at most; an id that is named belongs to what was added. -/
def Advances (c : Collection K) (room : Bool) (named : Option Nat) (later : Collection K) : Prop :=
  ∃ count, count ≤ room.toNat ∧ c.Continues count later ∧
    ∀ id, named = some id → id = c.next ∧ count = 1

variable {c later last : Collection K} {m n id : Nat} {room : Bool} {named : Option Nat}

theorem continues_self (c : Collection K) : c.Continues 0 c :=
  ⟨id, rfl, fun _ => .inl⟩

theorem continues_add (c : Collection K) (p : Placed K) : c.Continues 1 (c.add p) := by
  refine ⟨fun h => h.add p, rfl, fun id hid => ?_⟩
  rw [ids_add] at hid
  rcases List.mem_append.mp hid with hid | hid
  · exact .inl hid
  · obtain rfl := List.mem_singleton.mp hid
    exact .inr le_rfl

theorem Continues.erase (h : c.Continues n later) (id : Nat) : c.Continues n (later.erase id) := by
  refine ⟨fun hOrdered => (h.ordered hOrdered).erase id, h.next, fun other hOther => ?_⟩
  rw [ids_erase] at hOther
  exact h.kept other (List.mem_of_mem_erase hOther)

theorem Continues.trans (h : c.Continues m later) (hLater : later.Continues n last) :
    c.Continues (m + n) last := by
  have hNext := h.next
  have hLast := hLater.next
  refine ⟨fun hOrdered => hLater.ordered (h.ordered hOrdered), by omega, fun id hid => ?_⟩
  rcases hLater.kept id hid with hid | hid
  · exact h.kept id hid
  · right
    omega

theorem Ordered.set (h : c.Ordered) (id : Nat) (p : Placed K) : (c.set id p).Ordered := by
  obtain ⟨hBelow, hAscending⟩ := h
  rw [← ids_set c id p] at hBelow hAscending
  exact ⟨hBelow, hAscending⟩

theorem advances_self (c : Collection K) (room : Bool) : c.Advances room none c :=
  ⟨0, Nat.zero_le _, c.continues_self, nofun⟩

theorem advances_added (h : c.Continues 1 later) : c.Advances true (some c.next) later := by
  refine ⟨1, le_rfl, h, fun id hid => ?_⟩
  obtain rfl := Option.some.inj hid
  exact ⟨rfl, rfl⟩

theorem Advances.erase (h : c.Advances room named later) (id : Nat) :
    c.Advances room named (later.erase id) := by
  obtain ⟨count, hRoom, hContinues, hNamed⟩ := h
  exact ⟨count, hRoom, hContinues.erase id, hNamed⟩

theorem Advances.unnamed (h : c.Advances room named later) : c.Advances room none later := by
  obtain ⟨count, hRoom, hContinues, -⟩ := h
  exact ⟨count, hRoom, hContinues, nofun⟩

theorem advances_edit (c : Collection K) (edit : Edit K) :
    c.Advances edit.adds (edit.named c) (c.edit edit) := by
  cases edit with
  | add p => exact advances_added (c.continues_add p)
  | set id p =>
    refine ⟨0, le_rfl, ⟨fun h => h.set id p, rfl, fun other hOther => ?_⟩, nofun⟩
    rw [edit, ids_set] at hOther
    exact .inl hOther
  | remove id => exact (c.advances_self false).erase id
  | clear => exact ⟨0, le_rfl, ⟨fun _ => ⟨nofun, .nil⟩, rfl, nofun⟩, nofun⟩

end Collection

theorem Drag.advances_leave (d : Drag K) {c later : Collection K} {room : Bool}
    {named : Option Nat} (h : c.Advances room named later) :
    c.Advances room named (d.leave later) := by
  rw [leave]
  split
  · exact h.erase _
  · exact h

theorem Session.advances_merge {s : Session K} {leaf : LeafRef} {text : String} {id : Nat}
    {next : Collection K} (h : s.merge s.placed leaf text = .ok (id, next)) :
    s.placed.Advances true (some id) next := by
  rw [merge] at h
  split at h
  · simp only [bind, Except.bind] at h
    split at h
    · cases h
    · cases h
      exact (Collection.advances_added (s.placed.continues_add _)).erase leaf.placed
  · cases h

variable [Scalar K]

namespace Session

section

variable {s after : Session K} {d : Drag K}

theorem advances_addExpression (s : Session K) (text : String) (origin : Point K) :
    s.placed.Advances true (s.addExpression text origin).1.toOption
      (s.addExpression text origin).2.placed := by
  rw [addExpression]
  split
  · exact s.placed.advances_self true
  · rename_i n _
    split
    · exact s.placed.advances_self true
    · rename_i after hCommit
      obtain ⟨-, rfl⟩ := commit_inv hCommit
      exact Collection.advances_added (s.placed.continues_add _)

/-- What is taken off leaves the collection as it is, or its expression is replaced. -/
theorem advances_detach {placed block : Nat} {d : Detached K}
    (h : s.detach placed block = .ok (d, after)) : s.placed.Advances true none after.placed := by
  rw [detach] at h
  split at h
  · split at h
    · cases h
    · dsimp only at h
      split at h
      · cases h
        exact s.placed.advances_self true
      · simp only [bind, Except.bind] at h
        split at h
        · cases h
        · split at h
          · cases h
          · split at h
            · cases h
            · rename_i next hCommit
              cases h
              obtain ⟨-, rfl⟩ := commit_inv hCommit
              exact ((Collection.advances_added (s.placed.continues_add _)).erase placed).unnamed
  · cases h

theorem advances_begun {source : Source} {point : Point K}
    (h : s.beginDrag source point = (.ok true, after)) :
    s.placed.Advances true none after.placed := by
  obtain ⟨-, ⟨index, t, tree, -, -, -, rfl⟩ | ⟨placed, block, d, left, -, hDetach, rfl⟩⟩ :=
    beginDrag_inv h
  · exact s.placed.advances_self true
  · have hPlaced := advances_detach hDetach
    exact hPlaced

theorem advances_drop {outcome : Outcome} {next : Collection K}
    (h : s.drop d = .ok (outcome, next)) : s.placed.Advances true outcome.named next := by
  cases hOver : s.viewport.isOverPalette d.position with
  | true =>
    rw [drop, if_pos hOver] at h
    cases h
    exact s.placed.advances_self true
  | false =>
    have hPlaced : s.placed.Advances true (some s.placed.next)
        (s.placed.add ⟨d.expression, s.dropOrigin d⟩) :=
      Collection.advances_added (s.placed.continues_add _)
    rw [drop_of_probe hOver] at h
    split at h
    · split at h
      · rename_i c _ _
        cases hMerge : s.merge s.placed c.leaf d.expression with
        | error fault =>
          rw [hMerge] at h
          cases h
        | ok merged =>
          rw [hMerge] at h
          cases h
          exact advances_merge hMerge
      · cases h
        exact hPlaced
    · cases h
      exact hPlaced

theorem advances_release (s : Session K) (release : Release K) :
    s.placed.Advances true ((s.release release).1.toOption.bind Outcome.named)
      (s.release release).2.placed := by
  cases hd : s.drag with
  | none =>
    rw [release_of_idle hd]
    exact s.placed.advances_self true
  | some d =>
    rw [release_eq hd]
    split
    · dsimp only
      split <;> exact s.placed.advances_self true
    · rename_i outcome next hDrop
      split
      · exact s.placed.advances_self true
      · rename_i after hCommit
        obtain ⟨-, rfl⟩ := commit_inv hCommit
        rw [drop_freed] at hDrop
        exact d.advances_leave (advances_drop hDrop)

theorem placed_feedback (s : Session K) (step : Feedback K) :
    (s.feedback step).placed = s.placed := by
  have hPlaced := congrArg Session.placed (core_feedback s step)
  exact hPlaced

/-- A call adds one expression at most, and an id that its answer names as new was next. -/
theorem advances_call (s : Session K) (call : Call K) :
    s.placed.Advances call.adds (s.named call) (s.call call).placed := by
  cases call with
  | edit edit => exact s.placed.advances_edit edit
  | operation operation =>
    cases operation with
    | addExpression text origin => exact s.advances_addExpression text origin
    | beginDrag source point =>
      rw [Session.call, Session.apply]
      rcases s.beginDrag_cases source point with ⟨answer, hBegin, -⟩ | ⟨after, d, hBegin, -⟩
      · rw [hBegin]
        exact s.placed.advances_self true
      · rw [hBegin]
        exact advances_begun hBegin
    | pointerDown point =>
      rw [Session.call, Session.apply]
      rcases s.pointerDown_cases point with ⟨answer, hDown⟩ | ⟨source, after, d, hDown, -⟩
      · rw [hDown]
        exact s.placed.advances_self true
      · rw [hDown]
        exact advances_begun (down_inv hDown)
    | pointerUp point => exact s.advances_release (.up point)
    | pointerCancel => exact s.advances_release .cancel
    | pointerMove point =>
      have hPlaced := s.placed_feedback (.move point)
      rw [feedback] at hPlaced
      rw [Session.call, Session.apply, hPlaced]
      exact s.placed.advances_self false
    | onFrame =>
      have hPlaced := s.placed_feedback .frame
      rw [feedback] at hPlaced
      rw [Session.call, Session.apply, hPlaced]
      exact s.placed.advances_self false
    | scrollCanvas | scrollPalette | refresh => exact s.placed.advances_self false

/-- After a run the additions are at most as many as the calls that can add. -/
theorem exists_continues (s : Session K) (calls : List (Call K)) :
    ∃ count, count ≤ calls.countP Call.adds ∧
      s.placed.Continues count (s.perform calls).placed := by
  induction calls generalizing s with
  | nil => exact ⟨0, le_rfl, s.placed.continues_self⟩
  | cons call calls ih =>
    obtain ⟨first, hFirst, hCall, -⟩ := s.advances_call call
    obtain ⟨rest, hRest, hCalls⟩ := ih (s.call call)
    refine ⟨first + rest, ?_, hCall.trans hCalls⟩
    rw [List.countP_cons]
    cases hAdds : call.adds <;> simp [hAdds] at hFirst ⊢ <;> omega

/-- The ids that a run gives out grow, from the one that is next before it. -/
theorem given_ascending (s : Session K) (calls : List (Call K)) :
    (∀ id ∈ s.given calls, s.placed.next ≤ id) ∧ (s.given calls).Pairwise (· < ·) := by
  induction calls generalizing s with
  | nil => exact ⟨nofun, .nil⟩
  | cons call calls ih =>
    obtain ⟨count, -, hCall, hNamed⟩ := s.advances_call call
    obtain ⟨hLater, hAscending⟩ := ih (s.call call)
    have hNext := hCall.next
    rw [given]
    cases hName : s.named call with
    | none =>
      refine ⟨fun id hid => ?_, hAscending⟩
      have := hLater id hid
      omega
    | some first =>
      obtain ⟨rfl, rfl⟩ := hNamed first hName
      constructor
      · intro id hid
        rcases List.mem_cons.mp hid with rfl | hid
        · exact le_rfl
        · have := hLater id hid
          omega
      · refine .cons (fun id hid => ?_) hAscending
        have := hLater id hid
        omega

variable {settings : Settings K} {fonts : Fonts K}

/-- On every run the ids of the collection grow from the bottom to the top and stay below the next
one, which counts the additions; no answer names an id as new that was named before; and an id that
has left the collection is never in it again. -/
theorem ids_never_return (h : new settings fonts = .ok s) (calls : List (Call K)) :
    (s.perform calls).placed.Ordered ∧
    (s.perform calls).placed.next ≤ calls.countP Call.adds ∧
    (s.given calls).Pairwise (· < ·) ∧
    ∀ gone later id, id ∈ (s.perform calls).placed.ids →
      id ∉ (s.perform (calls ++ gone)).placed.ids →
        id ∉ (s.perform (calls ++ gone ++ later)).placed.ids := by
  obtain ⟨style, palette, -, rfl⟩ := new_inv h
  obtain ⟨count, hCount, hRun⟩ := (blank settings style palette).exists_continues calls
  have hNext : ((blank settings style palette).perform calls).placed.next = 0 + count := hRun.next
  have hOrdered := hRun.ordered Collection.ordered_empty
  refine ⟨hOrdered, by omega, ((blank settings style palette).given_ascending calls).2, ?_⟩
  intro gone later id hid hGone hBack
  obtain ⟨_, -, hMiddle⟩ :=
    ((blank settings style palette).perform calls).exists_continues gone
  rw [← perform_append] at hMiddle
  obtain ⟨_, -, hEnd⟩ :=
    ((blank settings style palette).perform (calls ++ gone)).exists_continues later
  rw [← perform_append] at hEnd
  have hMiddleNext := hMiddle.next
  have hBelow := hOrdered.below id hid
  rcases hEnd.kept id hBack with hThere | hFresh
  · exact hGone hThere
  · omega

end

theorem ids_never_return_sum :
    ∃ s : Session Float,
      new { Settings.standard with templates := [] } (.ofReadable fun _ => true) = .ok s ∧
      let calls : List (Call Float) :=
        [.operation (.addExpression "x + y" .origin), .edit (.add ⟨"(", .origin⟩)]
      s.given calls = [0, 1] ∧ (s.perform calls).placed.ids = [0, 1] ∧
      (s.perform (calls ++ [.edit (.remove 0)])).placed.ids = [1] ∧
      ∀ later, 0 ∉ (s.perform (calls ++ [.edit (.remove 0)] ++ later)).placed.ids := by
  have hRead : Node.read "x + y" = .ok (.operator .add [.symbol "x", .symbol "y"]) := by cbv
  have hAdd := reachable_bare.consistent.addExpression_eq hRead (shown_sum "x" "y") .origin
  refine ⟨bare, new_bare, ?_⟩
  intro calls
  have hGiven : bare.given calls = [0, 1] := by
    simp only [calls, given, named, Session.call, Session.apply, hAdd]
    rfl
  have hThere : (bare.perform calls).placed.ids = [0, 1] := by
    simp only [calls, perform, List.foldl_cons, List.foldl_nil, Session.call, Session.apply, hAdd]
    rfl
  have hGone : (bare.perform (calls ++ [.edit (.remove 0)])).placed.ids = [1] := by
    rw [perform_append]
    have hErased := Collection.ids_erase (bare.perform calls).placed 0
    rw [hThere] at hErased
    exact hErased
  obtain ⟨-, -, -, hAway⟩ := ids_never_return new_bare calls
  refine ⟨hGiven, hThere, hGone, fun later => hAway _ later 0 ?_ ?_⟩
  · rw [hThere]
    decide
  · rw [hGone]
    decide

end Session

end Blockwork
