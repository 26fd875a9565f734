import Blockwork.Proofs.Board.Feedback

/-! # Failed operations

A program may also edit the collection itself, and then the canvas shows what is no longer there.
An operation that fails on such a session has still changed nothing; only a drag that is given up
is over, and the highlights that it left are gone.
-/

set_option autoImplicit false

namespace Blockwork

variable {K : Type}

namespace Session

/-- A frame is scheduled only while something is dragged. -/
def Timely (s : Session K) : Prop := s.drag = none → s.framePending = false

theorem timely_of_drag {s : Session K} {d : Drag K} (hd : s.drag = some d) : s.Timely := by
  intro hNone
  rw [hd] at hNone
  cases hNone

variable [Scalar K]

/-- The sessions of programs that edit the collection behind the canvas's back. -/
inductive Attainable : Session K → Prop where
  | new {settings : Settings K} {fonts : Fonts K} {s : Session K}
      (h : new settings fonts = .ok s) : Attainable s
  | apply {s : Session K} (h : Attainable s) (operation : Operation K) :
      Attainable (s.apply operation)
  | edit {s : Session K} (h : Attainable s) (edit : Collection K → Collection K) :
      Attainable (s.editPlaced edit)

section

variable {s : Session K} {d : Drag K}

theorem Reachable.attainable (h : s.Reachable) : s.Attainable := by
  induction h with
  | new h => exact .new h
  | apply _ operation ih => exact ih.apply operation

theorem addExpression_cases (s : Session K) (text : String) (origin : Point K) :
    (∃ fault, s.addExpression text origin = (.error fault, s)) ∨
      ∃ next, s.addExpression text origin =
        (.ok s.placed.next, { s with placed := next, canvas := .build s.style next }) := by
  rw [addExpression]
  split
  · exact .inl ⟨_, rfl⟩
  · split
    · exact .inl ⟨_, rfl⟩
    · rename_i after hCommit
      obtain ⟨-, rfl⟩ := commit_inv hCommit
      exact .inr ⟨_, rfl⟩

theorem beginDrag_cases (s : Session K) (source : Source) (point : Point K) :
    (∃ answer, s.beginDrag source point = (answer, s) ∧ answer ≠ .ok true) ∨
      ∃ after d, s.beginDrag source point = (.ok true, after) ∧ after.drag = some d := by
  unfold beginDrag
  split
  · exact .inl ⟨_, rfl, nofun⟩
  · cases source with
    | template index =>
      dsimp only
      split
      · exact .inl ⟨_, rfl, nofun⟩
      · split
        · exact .inl ⟨_, rfl, nofun⟩
        · exact .inr ⟨_, _, rfl, rfl⟩
    | canvas placed block =>
      dsimp only
      split
      · refine .inl ⟨_, rfl, ?_⟩
        split <;> nofun
      · exact .inr ⟨_, _, rfl, rfl⟩

theorem pointerDown_cases (s : Session K) (point : Point K) :
    (∃ answer, s.pointerDown point = (answer, s)) ∨
      ∃ source after d, s.pointerDown point = (.ok (some source), after) ∧
        after.drag = some d := by
  rw [pointerDown]
  split
  · exact .inl ⟨_, rfl⟩
  · split
    · exact .inl ⟨_, rfl⟩
    · rename_i source _
      rcases s.beginDrag_cases source point with ⟨answer, hBegin, -⟩ | ⟨after, d, hBegin, hd⟩
      · rw [hBegin]
        cases answer with
        | error fault => exact .inl ⟨_, rfl⟩
        | ok began => exact .inl ⟨_, rfl⟩
      · rw [hBegin]
        exact .inr ⟨source, after, d, rfl, hd⟩

/-- A drop is never answered as given up. -/
theorem drop_ne_aborted {outcome : Outcome} {next : Collection K}
    (h : s.drop d = .ok (outcome, next)) : outcome ≠ .aborted := by
  cases hOver : s.viewport.isOverPalette d.position with
  | true =>
    rw [drop, if_pos hOver] at h
    cases h
    rintro ⟨⟩
  | false =>
    rw [drop_of_probe hOver] at h
    split at h
    · split at h
      · rename_i c _ _
        cases hMerge : s.merge s.placed c.leaf d.expression with
        | error fault =>
          rw [hMerge] at h
          cases h
        | ok merged =>
          rw [hMerge] at h
          cases h
          rintro ⟨⟩
      · cases h
        rintro ⟨⟩
    · cases h
      rintro ⟨⟩

theorem release_eq (hd : s.drag = some d) (release : Release K) :
    s.release release =
      match s.freed.drop (d.released release) with
      | .error e => (if e.isRecoverable then .ok .aborted else .error e, s.freed)
      | .ok (outcome, next) =>
        match s.freed.commit (d.leave next) with
        | .error e => (.error e, s.freed)
        | .ok after => (.ok outcome, after) := by
  cases release with
  | up point => exact pointerUp_eq hd point
  | cancel => exact finishDrag_eq hd

/-- A drag ends in a drop, or nothing but the drag is gone. -/
theorem release_cases (hd : s.drag = some d) (release : Release K) :
    (∃ answer, s.release release = (answer, s.freed)) ∨
      ∃ outcome next, s.release release = (.ok outcome,
        { s.freed with placed := next, canvas := .build s.style next }) ∧
          outcome ≠ .aborted := by
  rw [release_eq hd]
  split
  · exact .inl ⟨_, rfl⟩
  · rename_i outcome next hDrop
    split
    · exact .inl ⟨_, rfl⟩
    · rename_i after hCommit
      obtain ⟨-, rfl⟩ := commit_inv hCommit
      exact .inr ⟨outcome, _, rfl, drop_ne_aborted hDrop⟩

theorem Timely.release (h : s.Timely) (release : Release K) : (s.release release).2.Timely := by
  cases hd : s.drag with
  | none =>
    rw [release_of_idle hd]
    exact h
  | some d =>
    rcases release_cases hd release with ⟨answer, hRelease⟩ | ⟨outcome, next, hRelease, -⟩
    · rw [hRelease]
      exact fun _ => rfl
    · rw [hRelease]
      exact fun _ => rfl

theorem Timely.apply (h : s.Timely) (operation : Operation K) : (s.apply operation).Timely := by
  cases operation with
  | addExpression text origin =>
    rw [Session.apply]
    rcases s.addExpression_cases text origin with ⟨fault, hAdd⟩ | ⟨next, hAdd⟩
    · rw [hAdd]
      exact h
    · rw [hAdd]
      exact h
  | beginDrag source point =>
    rw [Session.apply]
    rcases s.beginDrag_cases source point with ⟨answer, hBegin, -⟩ | ⟨after, d, hBegin, hd⟩
    · rw [hBegin]
      exact h
    · rw [hBegin]
      exact timely_of_drag hd
  | pointerDown point =>
    rw [Session.apply]
    rcases s.pointerDown_cases point with ⟨answer, hDown⟩ | ⟨source, after, d, hDown, hd⟩
    · rw [hDown]
      exact h
    · rw [hDown]
      exact timely_of_drag hd
  | pointerMove point =>
    rw [Session.apply, Session.pointerMove]
    split
    · exact h
    · dsimp only
      split <;> exact timely_of_drag rfl
  | onFrame =>
    rw [Session.apply, Session.onFrame]
    dsimp only
    split
    · exact fun _ => rfl
    · split
      · exact fun _ => rfl
      · rw [Session.showCollision]
        dsimp only
        split <;> exact fun _ => rfl
  | pointerUp point => exact h.release (.up point)
  | pointerCancel => exact h.release .cancel
  | scrollCanvas | scrollPalette | refresh => exact h

/-- Every run schedules frames only while something is dragged. -/
theorem Attainable.timely (h : s.Attainable) : s.Timely := by
  induction h with
  | new h =>
    obtain ⟨style, palette, -, rfl⟩ := new_inv h
    exact fun _ => rfl
  | apply _ operation ih => exact ih.apply operation
  | edit _ _ ih => exact ih

/-- An operation that fails changes nothing, and a drag that is given up leaves the collection as
it was and a dark canvas. -/
theorem Attainable.failure_keeps (h : s.Attainable) :
    (∀ text origin fault after,
      s.addExpression text origin = (.error fault, after) → after = s) ∧
    (∀ source point answer after, s.beginDrag source point = (answer, after) →
      ((∃ fault, answer = .error fault) ∨ answer = .ok false) → after = s) ∧
    (∀ point fault after, s.pointerDown point = (.error fault, after) → after = s) ∧
    ∀ release answer after, s.release release = (answer, after) →
      ((∃ fault, answer = .error fault) ∨ answer = .ok .aborted) →
      after = { s with
        canvas := if s.isDragging then s.canvas.unlit else s.canvas
        drag := none
        framePending := false } := by
  refine ⟨?_, ?_, ?_, ?_⟩
  · intro text origin fault after hAdd
    rcases s.addExpression_cases text origin with ⟨_, hCase⟩ | ⟨_, hCase⟩
    · cases hCase.symm.trans hAdd
      rfl
    · cases hCase.symm.trans hAdd
  · intro source point answer after hBegin hFailed
    rcases s.beginDrag_cases source point with ⟨_, hCase, -⟩ | ⟨_, _, hCase, -⟩
    · cases hCase.symm.trans hBegin
      rfl
    · cases hCase.symm.trans hBegin
      rcases hFailed with ⟨fault, hFault⟩ | hFalse
      · cases hFault
      · cases hFalse
  · intro point fault after hDown
    rcases s.pointerDown_cases point with ⟨_, hCase⟩ | ⟨_, _, _, hCase, -⟩
    · cases hCase.symm.trans hDown
      rfl
    · cases hCase.symm.trans hDown
  · intro release answer after hRelease hFailed
    cases hd : s.drag with
    | none =>
      cases (release_of_idle hd release).symm.trans hRelease
      have hFrame := h.timely hd
      obtain ⟨settings, style, palette, placed, canvas, viewport, drag, framePending⟩ := s
      obtain rfl : drag = none := hd
      obtain rfl : framePending = false := hFrame
      rfl
    | some d =>
      rw [isDragging, hd]
      rcases release_cases hd release with ⟨_, hCase⟩ | ⟨outcome, next, hCase, hOutcome⟩
      · cases hCase.symm.trans hRelease
        rfl
      · cases hCase.symm.trans hRelease
        rcases hFailed with ⟨fault, hFault⟩ | hAborted
        · cases hFault
        · exact absurd (Except.ok.inj hAborted) hOutcome

end

theorem Attainable.failure_keeps_edited :
    ∃ s : Session Float, s.Attainable ∧ s.placed = .empty ∧
      (∃ fault, s.addExpression "(" .origin = (.error fault, s)) ∧
      s.release (.up ⟨(316 : Nat), (100 : Nat)⟩) =
        (.ok .aborted,
          { s with canvas := s.canvas.unlit, drag := none, framePending := false }) := by
  obtain ⟨first, second, hFirst, hSecond, d, b, -, hDrag, -, -, hNotOver, hMet, hBlock, hType, -⟩ :=
    exists_draggedSum
  let s := (draggedSum first second).editPlaced fun _ => .empty
  have hAttainable : s.Attainable := (reachable_draggedSum hFirst hSecond).attainable.edit _
  have hDragged : s.drag = some d := hDrag
  have hOutside : s.viewport.isOverPalette
      (d.released (.up ⟨(316 : Nat), (100 : Nat)⟩)).position = false := by
    rw [← Bool.not_eq_true, Viewport.isOverPalette_iff]
    exact hNotOver
  have hProbe := probe_of_firstMet (s := s) hOutside hMet hBlock
  have hDrop : s.freed.drop (d.released (.up ⟨(316 : Nat), (100 : Nat)⟩)) =
      .error (.missingOwner 1) := by
    rw [drop_freed, drop_of_probe hOutside, hProbe]
    dsimp only
    rw [if_pos (decide_eq_true hType)]
    rfl
  have hAborted : s.release (.up ⟨(316 : Nat), (100 : Nat)⟩) = (.ok .aborted, s.freed) := by
    rw [release_eq hDragged, hDrop]
    rfl
  have hFault : ∃ fault, (s.addExpression "(" .origin).1 = .error fault := by
    have hRead : (Node.read "(").isOk = false := by cbv
    rw [addExpression]
    split
    · exact ⟨_, rfl⟩
    · rename_i n hOpen
      rw [hOpen] at hRead
      cases hRead
  obtain ⟨fault, hFault⟩ := hFault
  obtain ⟨hAdd, -, -, hRelease⟩ := hAttainable.failure_keeps
  have hAdded := hAdd "(" .origin fault _ (Prod.ext hFault rfl)
  have hKept := hRelease _ _ _ hAborted (.inr rfl)
  rw [isDragging, hDragged] at hKept
  rw [hKept] at hAborted
  exact ⟨s, hAttainable, rfl, ⟨fault, Prod.ext hFault hAdded⟩, hAborted⟩

end Session

end Blockwork
