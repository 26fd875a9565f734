import Blockwork.Proofs.Board.Call
import Blockwork.Proofs.Board.Steady

/-! # Frames

The flag of a scheduled frame is kept by the session, and the sample that waits for the frame by the
drag. They are set and cleared in different places and always agree. So a frame is asked for once,
at the first move after the last frame, and it applies the last sample.
-/

set_option autoImplicit false

namespace Blockwork

variable {K : Type}

namespace Call

/-- A call that neither ends a drag nor is a frame. -/
def Rests : Call K → Prop
  | .operation o => o.Holds ∧ o ≠ .onFrame
  | .edit _ => True

def sample? : Call K → Option (Point K)
  | .operation (.pointerMove point) => some point
  | _ => none

end Call

namespace Session

/-- A frame is scheduled exactly while a sample waits for it. -/
def Scheduled (s : Session K) : Prop := s.framePending = (s.drag.bind Drag.pending).isSome

section

variable {s : Session K} {d : Drag K}

theorem Scheduled.framePending_eq (h : s.Scheduled) (hd : s.drag = some d) :
    s.framePending = d.pending.isSome := by
  rw [h, hd, Option.bind_some]

theorem scheduled_settled (hd : s.drag = some d) (hPending : d.pending = none)
    (hFrame : s.framePending = false) : s.Scheduled := by
  rw [Scheduled, hd, Option.bind_some, hPending, hFrame]
  rfl

theorem pointerMove_answer (hd : s.drag = some d) (point : Point K) :
    (s.pointerMove point).1 = !s.framePending := by
  rw [Session.pointerMove, hd]
  dsimp only
  split
  · rename_i hFrame
    rw [hFrame]
    rfl
  · rename_i hFrame
    rw [Bool.eq_false_iff.mpr hFrame]
    rfl

end

variable [Scalar K]

/-- A drag has just begun, or a frame during a drag is over. -/
inductive Opens (s : Session K) : Session K → Prop where
  | begun {source : Source} {point : Point K} {start : Session K}
      (h : s.beginDrag source point = (.ok true, start)) : Opens s start
  | down {source : Source} {point : Point K} {start : Session K}
      (h : s.pointerDown point = (.ok (some source), start)) : Opens s start
  | frame (h : s.isDragging = true) : Opens s s.onFrame.2

section

variable {s start : Session K} {d : Drag K}

theorem scheduled_freed (s : Session K) : s.freed.Scheduled :=
  rfl

theorem begun_inv {source : Source} {point : Point K}
    (h : s.beginDrag source point = (.ok true, start)) :
    s.drag = none ∧ start.framePending = s.framePending ∧
      ∃ d, start.drag = some d ∧ d.pending = none := by
  obtain ⟨hIdle, ⟨index, t, tree, -, -, -, rfl⟩ | ⟨placed, block, d, after, -, hDetach, rfl⟩⟩ :=
    beginDrag_inv h
  · exact ⟨hIdle, rfl, _, rfl, rfl⟩
  · obtain ⟨_, _, -, -, ⟨-, rfl, -⟩ | ⟨-, -, -, _, rfl⟩⟩ := detach_inv hDetach
    · exact ⟨hIdle, rfl, _, rfl, rfl⟩
    · exact ⟨hIdle, rfl, _, rfl, rfl⟩

theorem Scheduled.begun (h : s.Scheduled) {source : Source} {point : Point K}
    (hBegin : s.beginDrag source point = (.ok true, start)) : start.Scheduled := by
  obtain ⟨hIdle, hFrame, d, hd, hPending⟩ := begun_inv hBegin
  apply scheduled_settled hd hPending
  rw [hFrame, h, hIdle]
  rfl

theorem scheduled_onFrame (s : Session K) : s.onFrame.2.Scheduled := by
  cases hd : s.drag with
  | none =>
    rw [onFrame]
    simp only [hd]
    rfl
  | some d =>
    obtain ⟨e, he, hPending⟩ := pending_onFrame hd
    apply scheduled_settled he hPending
    rw [onFrame]
    simp only [hd]
    split
    · rfl
    · rw [showCollision]
      dsimp only
      split <;> rfl

theorem Scheduled.release (h : s.Scheduled) (release : Release K) :
    (s.release release).2.Scheduled := by
  cases hd : s.drag with
  | none =>
    rw [release_of_idle hd]
    exact h
  | some d =>
    rcases release_cases hd release with ⟨answer, hRelease⟩ | ⟨outcome, next, hRelease, -⟩
    · rw [hRelease]
      exact s.scheduled_freed
    · rw [hRelease]
      exact s.scheduled_freed

theorem Scheduled.apply (h : s.Scheduled) (operation : Operation K) :
    (s.apply operation).Scheduled := by
  cases operation with
  | addExpression text origin =>
    rw [Session.apply]
    rcases s.addExpression_cases text origin with ⟨fault, hAdd⟩ | ⟨next, hAdd⟩ <;> rw [hAdd] <;>
      exact h
  | beginDrag source point =>
    rw [Session.apply]
    rcases s.beginDrag_cases source point with ⟨answer, hBegin, -⟩ | ⟨after, d, hBegin, -⟩
    · rw [hBegin]
      exact h
    · rw [hBegin]
      exact h.begun hBegin
  | pointerDown point =>
    rw [Session.apply]
    rcases s.pointerDown_cases point with ⟨answer, hDown⟩ | ⟨source, after, d, hDown, -⟩
    · rw [hDown]
      exact h
    · rw [hDown]
      exact h.begun (down_inv hDown)
  | pointerMove point =>
    rw [Session.apply, Session.pointerMove]
    split
    · exact h
    · dsimp only
      split
      · assumption
      · rfl
  | onFrame => exact s.scheduled_onFrame
  | pointerUp point => exact h.release (.up point)
  | pointerCancel => exact h.release .cancel
  | scrollCanvas | scrollPalette | refresh => exact h

theorem Attainable.scheduled (h : s.Attainable) : s.Scheduled := by
  induction h with
  | new h =>
    obtain ⟨style, palette, -, rfl⟩ := new_inv h
    rfl
  | apply _ operation ih => exact ih.apply operation
  | edit _ _ ih => exact ih

theorem Opens.attainable (h : s.Opens start) (hs : s.Attainable) : start.Attainable := by
  cases h with
  | @begun source point _ h =>
    have hApplied := hs.apply (.beginDrag source point)
    rwa [Session.apply, h] at hApplied
  | @down _ point _ h =>
    have hApplied := hs.apply (.pointerDown point)
    rwa [Session.apply, h] at hApplied
  | frame => exact hs.apply .onFrame

theorem Opens.exists_drag (h : s.Opens start) : ∃ d, start.drag = some d ∧ d.pending = none := by
  cases h with
  | begun h =>
    obtain ⟨-, -, hDrag⟩ := begun_inv h
    exact hDrag
  | down h =>
    obtain ⟨-, -, hDrag⟩ := begun_inv (down_inv h)
    exact hDrag
  | frame h =>
    obtain ⟨d, hd⟩ := Option.isSome_iff_exists.mp h
    exact pending_onFrame hd

/-- A call that rests changes the sample of a drag and nothing else of it. -/
theorem drag_call (hd : s.drag = some d) {call : Call K} (hRests : call.Rests) :
    (s.call call).drag = some { d with pending := call.sample?.or d.pending } := by
  cases call with
  | edit edit => exact hd
  | operation operation =>
    cases operation with
    | pointerMove point => exact drag_pointerMove hd point
    | onFrame => exact absurd rfl hRests.2
    | _ =>
      rcases apply_held hd hRests.1 with ⟨hSame, -⟩ | hFrame | ⟨point, hMove⟩
      · exact hSame
      · cases hFrame
      · cases hMove

theorem drag_perform (hd : s.drag = some d) {calls : List (Call K)}
    (hRests : ∀ call ∈ calls, call.Rests) :
    (s.perform calls).drag =
      some { d with pending := (calls.filterMap Call.sample?).getLast?.or d.pending } := by
  induction calls generalizing s d with
  | nil => exact hd
  | cons call calls ih =>
    obtain ⟨hFirst, hRest⟩ := List.forall_mem_cons.mp hRests
    have hLater := ih (drag_call hd hFirst) hRest
    rw [perform, List.foldl_cons]
    rw [perform] at hLater
    rw [hLater, List.filterMap_cons]
    cases call.sample? with
    | none => rfl
    | some point =>
      rw [List.getLast?_cons]
      cases (calls.filterMap Call.sample?).getLast? <;> rfl

theorem position_onFrame (hd : s.drag = some d) :
    ∃ e, s.onFrame.2.drag = some e ∧ e.core = d.core ∧ e.position = d.settled.position := by
  obtain ⟨e, he, hCore⟩ := exists_drag_of_core (core_feedback s .frame) hd
  rw [feedback] at he
  refine ⟨e, he, hCore, ?_⟩
  rw [onFrame] at he
  simp only [hd] at he
  split at he
  · rename_i hPending
    obtain rfl := Option.some.inj he
    rw [Drag.settled, hPending]
  · rw [showCollision] at he
    dsimp only at he
    split at he
    · obtain rfl := Option.some.inj he
      rfl
    · obtain rfl := Option.some.inj he
      rfl

/-- A frame is scheduled exactly while a sample waits for it. In every interval of a drag between
frames the first move asks for a frame and no later one does, whatever else is called, and the frame
that ends the interval puts what is dragged where its last move has it. -/
theorem Attainable.frames_scheduled (h : s.Attainable) :
    (s.framePending = true ↔ ∃ d point, s.drag = some d ∧ d.pending = some point) ∧
      ∀ start, s.Opens start → ∃ d, start.drag = some d ∧
        ∀ calls : List (Call K), (∀ call ∈ calls, call.Rests) →
          let samples := calls.filterMap Call.sample?
          (∀ point, ((start.perform calls).pointerMove point).1 = samples.isEmpty) ∧
            ∃ e, (start.perform calls).onFrame.2.drag = some e ∧ e.core = d.core ∧
              e.position = samples.getLast?.elim d.position (· - d.grab) := by
  constructor
  · rw [h.scheduled, Option.isSome_iff_exists]
    constructor
    · rintro ⟨point, hPoint⟩
      obtain ⟨d, hd, hPending⟩ := Option.bind_eq_some_iff.mp hPoint
      exact ⟨d, point, hd, hPending⟩
    · rintro ⟨d, point, hd, hPending⟩
      exact ⟨point, Option.bind_eq_some_iff.mpr ⟨d, hd, hPending⟩⟩
  · intro start hOpens
    obtain ⟨d, hd, hNone⟩ := hOpens.exists_drag
    refine ⟨d, hd, fun calls hRests => ?_⟩
    have hLast := drag_perform hd hRests
    rw [hNone, Option.or_none] at hLast
    generalize calls.filterMap Call.sample? = samples at hLast
    have hScheduled := ((hOpens.attainable h).perform calls).scheduled
    constructor
    · intro point
      rw [pointerMove_answer hLast, hScheduled.framePending_eq hLast]
      cases samples with
      | nil => rfl
      | cons first rest =>
        rw [List.getLast?_cons, Option.isSome_some]
        rfl
    · obtain ⟨e, he, hCore, hPosition⟩ := position_onFrame hLast
      refine ⟨e, he, hCore, hPosition.trans ?_⟩
      cases samples.getLast? <;> rfl

end

theorem Attainable.frames_scheduled_cleared :
    ∃ (s : Session Float) (d e : Drag Float), s.Attainable ∧ s.isDragging = true ∧
      s.onFrame.2.drag = some d ∧
      let point : Point Float := ⟨(316 : Nat), (100 : Nat)⟩
      let last := s.onFrame.2.perform [.operation (.pointerMove .origin), .edit .clear,
        .operation (.pointerMove point)]
      (s.onFrame.2.pointerMove .origin).1 = true ∧ (last.pointerMove .origin).1 = false ∧
        last.onFrame.2.drag = some e ∧ e.position = point - d.grab := by
  obtain ⟨first, second, hFirst, hSecond, d, -, -, hDrag, -⟩ := exists_draggedSum
  have hAttainable := (reachable_draggedSum hFirst hSecond).attainable
  have hDragging : (draggedSum first second).isDragging = true := by
    rw [isDragging, hDrag]
    rfl
  obtain ⟨-, hIntervals⟩ := hAttainable.frames_scheduled
  obtain ⟨e, he, hCalls⟩ := hIntervals _ (.frame hDragging)
  let point : Point Float := ⟨(316 : Nat), (100 : Nat)⟩
  let calls : List (Call Float) :=
    [.operation (.pointerMove .origin), .edit .clear, .operation (.pointerMove point)]
  have hRests : ∀ call ∈ calls, call.Rests := by
    simp [calls, Call.Rests, Operation.Holds]
  obtain ⟨hNone, -⟩ := hCalls [] (List.forall_mem_nil _)
  obtain ⟨hAnswer, f, hf, -, hPosition⟩ := hCalls calls hRests
  exact ⟨_, e, f, hAttainable, hDragging, he, hNone .origin, hAnswer .origin, hf, hPosition⟩

end Session

end Blockwork
