import Blockwork.Proofs.Board.Effect

/-! # Feedback

Pointer moves and frames only show where a drag would end. They change highlights, the place of
what is dragged, its pending sample and its collision; a release at a point reads none of these.
So a release ends in the same way whatever moves and frames came before it, and a cancelled drag
ends as if it were released where the pointer was seen last.
-/

set_option autoImplicit false

namespace Blockwork

inductive Feedback (K : Type) where
  | move (point : Point K)
  | frame

variable {K : Type} [Scalar K]

namespace Drag

/-- What of a drag its release at a point depends on. -/
def core (d : Drag K) : Drag K :=
  { d with tree := { d.tree.unlit with origin := .origin }, pending := none, collision := none }

/-- A drag that ends at a point if it is cancelled. -/
def Aimed (d : Drag K) (point : Point K) : Prop := d.settled = (d.sampled point).settled

section

variable (d : Drag K) (point : Point K)

theorem core_settled : d.settled.core = d.core := by
  rw [settled]
  split <;> rfl

theorem follows_of_core {d e : Drag K} (h : e.core = d.core) : e.Follows d := by
  simp only [core, mk.injEq, BlockTree.mk.injEq, BlockTree.unlit] at h
  exact ⟨h.2.1, h.1.1⟩

theorem core_withHandle (tint : Tint) (c : Option Collision) :
    core { d.withHandle tint with collision := c } = d.core := by
  simp only [core, withHandle, BlockTree.unlit, Block.unlit_withHandle]

theorem aimed_sampled : (d.sampled point).Aimed point :=
  rfl

theorem Aimed.settled {d : Drag K} {point : Point K} (h : d.Aimed point) :
    d.settled.Aimed point := by
  -- A drag that is settled at the point stays there when it is sampled there again.
  have hTwice (e : Drag K) : (e.sampled point).settled.Aimed point := rfl
  rw [h]
  exact hTwice d

theorem Aimed.withHandle {d : Drag K} {point : Point K} (h : d.Aimed point)
    (hPending : d.pending = none) (tint : Tint) (c : Option Collision) :
    Aimed { d.withHandle tint with collision := c } point := by
  have hSelf : d.settled = d := by
    rw [Drag.settled, hPending]
  have hPlace : d.tree.origin = point - d.grab := by
    rw [← hSelf, h]
    rfl
  simp only [Aimed, Drag.settled, sampled, Drag.withHandle, hPending, hPlace]

theorem pending_settled : d.settled.pending = none := by
  rw [Drag.settled]
  split
  · assumption
  · rfl

end

end Drag

namespace Session

def core (s : Session K) : Session K :=
  { s with canvas := s.canvas.unlit, framePending := false, drag := s.drag.map Drag.core }

def feedback (s : Session K) : Feedback K → Session K
  | .move point => (s.pointerMove point).2
  | .frame => s.onFrame.2

def feed (s : Session K) (steps : List (Feedback K)) : Session K := steps.foldl feedback s

section

variable {s : Session K} {d : Drag K}

theorem core_of_drag (hd : s.drag = some d) : s.core = { s.core with drag := some d.core } := by
  simp only [core, hd, Option.map_some]

theorem core_showCollision (d : Drag K) :
    (s.showCollision d).2.core = { s.core with drag := some d.core } := by
  have hRing (c : Collision) (t : BlockTree K) :
      (t.modify c.leaf.block (Block.withRing (Collision.tint c) ((1 : Nat) : K))).unlit =
        t.unlit :=
    BlockTree.unlit_modify t (fun b => Block.unlit_withRing b _ _) _
  rw [showCollision]
  dsimp only
  split
  · simp only [core, Option.map_some, Drag.core_withHandle, Canvas.unlit_unlit]
  · simp only [core, Option.map_some, Drag.core_withHandle, Canvas.unlit_modify _ (hRing _),
      Canvas.unlit_unlit]

theorem core_feedback (s : Session K) (step : Feedback K) : (s.feedback step).core = s.core := by
  cases step with
  | move point =>
    rw [feedback, Session.pointerMove]
    split
    · rfl
    · rename_i d hd
      rw [core_of_drag hd]
      dsimp only
      split <;> rfl
  | frame =>
    rw [feedback, Session.onFrame]
    dsimp only
    split
    · rfl
    · rename_i d hd
      split
      · rfl
      · rw [core_showCollision, Drag.core_settled, core_of_drag hd]
        rfl

theorem core_feed (s : Session K) (steps : List (Feedback K)) : (s.feed steps).core = s.core := by
  induction steps generalizing s with
  | nil => rfl
  | cons step steps ih => exact (ih (s.feedback step)).trans (core_feedback s step)

theorem freed_core : s.core.freed = s.freed := by
  simp only [core, freed, Canvas.unlit_unlit]

theorem probe_congr {e : Drag K} (hTree : e.tree.unlit = d.tree.unlit)
    (hOwner : e.owner = d.owner) : s.probe e = s.probe d := by
  have hPosition : e.tree.unlit.origin = d.tree.unlit.origin := congrArg BlockTree.origin hTree
  have hPosition : e.position = d.position := hPosition
  have hType : e.tree.root.frame.type = d.tree.root.frame.type :=
    Block.type_of_unlit (congrArg BlockTree.root hTree)
  have hHandle : e.tree.handleCenter e.tree.rootId = d.tree.handleCenter d.tree.rootId := by
    rw [← BlockTree.handleCenter_unlit, ← BlockTree.rootId_unlit, hTree,
      BlockTree.handleCenter_unlit, BlockTree.rootId_unlit]
  rw [probe, probe, hPosition, hHandle, hOwner, hType]

theorem drop_congr {e : Drag K} (hTree : e.tree.unlit = d.tree.unlit) (hOwner : e.owner = d.owner) :
    s.drop e = s.drop d := by
  have hPosition : e.tree.unlit.origin = d.tree.unlit.origin := congrArg BlockTree.origin hTree
  have hPosition : e.position = d.position := hPosition
  have hText : e.expression = d.expression :=
    Block.expression_of_unlit (congrArg BlockTree.root hTree)
  rw [drop, drop, hPosition, probe_congr hTree hOwner, hText, hOwner]

theorem drop_core (point : Point K) :
    s.drop (d.core.sampled point).settled = s.drop (d.sampled point).settled := by
  apply drop_congr
  · exact BlockTree.unlit_unlit { d.tree with origin := point - d.grab }
  · rfl

theorem pointerUp_eq (hd : s.drag = some d) (point : Point K) :
    s.pointerUp point =
      match s.freed.drop (d.sampled point).settled with
      | .error e => (if e.isRecoverable then .ok .aborted else .error e, s.freed)
      | .ok (outcome, next) =>
        match s.freed.commit (d.leave next) with
        | .error e => (.error e, s.freed)
        | .ok after => (.ok outcome, after) := by
  rw [Session.pointerUp, hd]
  exact finishDrag_eq rfl

/-- A release at a point depends on the core of the session only. -/
theorem pointerUp_core (hd : s.drag = some d) (point : Point K) :
    s.core.pointerUp point = s.pointerUp point := by
  have hCore : s.core.drag = some d.core := by
    rw [core, hd]
    rfl
  rw [pointerUp_eq hCore, pointerUp_eq hd, freed_core, drop_core]
  rfl

theorem exists_drag_of_core {after : Session K} (h : after.core = s.core) (hd : s.drag = some d) :
    ∃ e, after.drag = some e ∧ e.core = d.core := by
  have hSlot : after.drag.map Drag.core = some d.core := by
    have hEq := congrArg Session.drag h
    simpa only [core, hd, Option.map_some] using hEq
  exact Option.map_eq_some_iff.mp hSlot

theorem pointerUp_feed (hd : s.drag = some d) (steps : List (Feedback K)) (point : Point K) :
    (s.feed steps).pointerUp point = s.pointerUp point := by
  have hCore := core_feed s steps
  obtain ⟨e, he, -⟩ := exists_drag_of_core hCore hd
  rw [← pointerUp_core he, hCore, pointerUp_core hd]

theorem pointerMove_aimed (hd : s.drag = some d) (point : Point K) :
    ∃ e, (s.pointerMove point).2.drag = some e ∧ e.Aimed point :=
  ⟨d.sampled point, drag_pointerMove hd point, d.aimed_sampled point⟩

theorem onFrame_aimed {point : Point K} (hd : s.drag = some d) (hAimed : d.Aimed point) :
    ∃ e, s.onFrame.2.drag = some e ∧ e.Aimed point := by
  have hTinted (tint : Tint) (c : Option Collision) :
      Drag.Aimed { d.settled.withHandle tint with collision := c } point :=
    hAimed.settled.withHandle d.pending_settled tint c
  rw [Session.onFrame, hd]
  dsimp only
  split
  · exact ⟨d, rfl, hAimed⟩
  · rw [showCollision]
    dsimp only
    split
    · exact ⟨_, rfl, hTinted _ _⟩
    · exact ⟨_, rfl, hTinted _ _⟩

theorem feed_frames_aimed {point : Point K} (hd : s.drag = some d) (hAimed : d.Aimed point)
    (frames : Nat) :
    ∃ e, (s.feed (List.replicate frames .frame)).drag = some e ∧ e.Aimed point := by
  induction frames generalizing s d with
  | zero => exact ⟨d, hd, hAimed⟩
  | succ frames ih =>
    obtain ⟨e, he, hAimed⟩ := onFrame_aimed hd hAimed
    exact ih he hAimed

theorem pointerCancel_of_aimed {point : Point K} (hd : s.drag = some d)
    (hAimed : d.Aimed point) : s.pointerCancel = s.pointerUp point := by
  have hUp := pointerUp_eq hd point
  rw [← hAimed] at hUp
  exact (finishDrag_eq hd).trans hUp.symm

theorem pointerCancel_feed (hd : s.drag = some d) (before : List (Feedback K)) (frames : Nat)
    (point : Point K) :
    (s.feed (before ++ .move point :: List.replicate frames .frame)).pointerCancel =
      s.pointerUp point := by
  obtain ⟨d', hd', -⟩ := exists_drag_of_core (core_feed s before) hd
  obtain ⟨e, he, hMoved⟩ := pointerMove_aimed hd' point
  obtain ⟨f, hf, hAimed⟩ := feed_frames_aimed he hMoved frames
  rw [← pointerUp_feed hd (before ++ .move point :: List.replicate frames .frame)]
  have hSplit : s.feed (before ++ .move point :: List.replicate frames .frame) =
      ((s.feed before).pointerMove point).2.feed (List.replicate frames .frame) := by
    rw [feed, List.foldl_append]
    rfl
  rw [hSplit]
  exact pointerCancel_of_aimed hf hAimed

/-- Moves and frames do not change how a release ends, and a cancelled drag ends like a release at
the last of the moves. -/
theorem release_after_feedback (hd : s.drag = some d) :
    (∀ steps point, (s.feed steps).pointerUp point = s.pointerUp point) ∧
      ∀ before frames point,
        (s.feed (before ++ .move point :: List.replicate frames .frame)).pointerCancel =
          s.pointerUp point := by
  constructor
  · exact pointerUp_feed hd
  · exact pointerCancel_feed hd

end

theorem release_after_feedback_edited :
    ∃ (first second : BlockTree Float) (d : Drag Float),
      let s := (draggedSum first second).editPlaced fun _ => .empty
      let later := s.feed [.move .origin, .frame, .move ⟨(316 : Nat), (100 : Nat)⟩, .frame]
      s.drag = some d ∧ later.pointerUp .origin = s.pointerUp .origin ∧
        later.pointerCancel = s.pointerUp ⟨(316 : Nat), (100 : Nat)⟩ := by
  obtain ⟨first, second, -, -, d, -, -, hDrag, -⟩ := exists_draggedSum
  have hEdited : ((draggedSum first second).editPlaced fun _ => .empty).drag = some d := hDrag
  obtain ⟨hUp, hCancel⟩ := release_after_feedback hEdited
  exact ⟨first, second, d, hEdited, hUp _ _,
    hCancel [.move .origin, .frame] 1 ⟨(316 : Nat), (100 : Nat)⟩⟩

end Session

end Blockwork
