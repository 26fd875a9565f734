import Blockwork.Proofs.Board.Feedback
import Blockwork.Proofs.Board.Failure
import Blockwork.Proofs.Board.Hidden

/-! # Expressions without a layout

A session with hidden expressions between its own and one without them answer every operation alike
and show the same canvas. The collection of the first stays that of the second with the same hidden
expressions between its own.
-/

set_option autoImplicit false

namespace Blockwork

variable {K : Type} [Scalar K]

namespace Session

def pad (s : Session K) (placed : Collection K) (skipped : List Nat) : Session K :=
  { s with placed, canvas := ⟨s.canvas.entries, skipped⟩ }

/-- The second session is the first with hidden expressions, none of which has a layout. -/
structure Pads (ids : List Nat) (hidden : List (Nat × Placed K)) (s t : Session K) : Prop where
  same : ∃ placed skipped, t = s.pad placed skipped
  placed : s.placed.Hides ids hidden t.placed
  refuses : s.style.Refuses hidden
  canvas : ∀ id ∈ s.canvas.ids, id ∉ ids
  owner : ∀ d id, s.drag = some d → d.owner = some id → id ∉ ids

section

variable {ids : List Nat} {hidden : List (Nat × Placed K)} {s t : Session K}

theorem Pads.style (h : s.Pads ids hidden t) : t.style = s.style := by
  obtain ⟨_, _, rfl⟩ := h.same
  rfl

theorem Pads.palette (h : s.Pads ids hidden t) : t.palette = s.palette := by
  obtain ⟨_, _, rfl⟩ := h.same
  rfl

theorem Pads.viewport (h : s.Pads ids hidden t) : t.viewport = s.viewport := by
  obtain ⟨_, _, rfl⟩ := h.same
  rfl

theorem Pads.drag (h : s.Pads ids hidden t) : t.drag = s.drag := by
  obtain ⟨_, _, rfl⟩ := h.same
  rfl

theorem Pads.entries (h : s.Pads ids hidden t) : t.canvas.entries = s.canvas.entries := by
  obtain ⟨_, _, rfl⟩ := h.same
  rfl

theorem Pads.tree? (h : s.Pads ids hidden t) (id : Nat) :
    t.canvas.tree? id = s.canvas.tree? id := by
  rw [Canvas.tree?, h.entries, Canvas.tree?]

theorem Pads.notMem_of_tree? (h : s.Pads ids hidden t) {id : Nat} {tree : BlockTree K}
    (hTree : s.canvas.tree? id = some tree) : id ∉ ids :=
  h.canvas id (Canvas.mem_ids_of_tree? hTree)

theorem Pads.rebuilt (h : s.Pads ids hidden t) {next next' : Collection K}
    (hNext : next.Hides ids hidden next') :
    ({ s with placed := next, canvas := .build s.style next } : Session K).Pads ids hidden
      { t with placed := next', canvas := .build t.style next' } where
  same := by
    have hEntries := Canvas.entries_build_of_hides hNext h.refuses
    obtain ⟨c, skipped, rfl⟩ := h.same
    refine ⟨next', (Canvas.build s.style next').skipped, ?_⟩
    simp only [pad, ← hEntries]
  placed := hNext
  refuses := h.refuses
  canvas := fun _ hid => hNext.notMem (Canvas.mem_ids_go hid)
  owner := h.owner

theorem Pads.checkStaged (h : s.Pads ids hidden t) {entries : List (Nat × Placed K)}
    (hEntries : ∀ e ∈ entries, e.1 ∈ ids → t.placed.contains e.1 = true) :
    t.checkStaged entries = s.checkStaged (entries.filter fun e => !ids.contains e.1) := by
  induction entries with
  | nil => rfl
  | cons e rest ih =>
    obtain ⟨hHead, hTail⟩ := List.forall_mem_cons.mp hEntries
    by_cases hid : e.1 ∈ ids
    · rw [List.filter_cons_of_neg (by simp [hid]), Session.checkStaged, hHead hid, if_pos rfl,
        ih hTail]
    · rw [List.filter_cons_of_pos (by simp [hid]), Session.checkStaged, Session.checkStaged,
        h.placed.contains hid, h.style, ih hTail]

theorem Pads.commit_cases (h : s.Pads ids hidden t) {next next' : Collection K}
    (hNext : next.Hides ids hidden next') :
    (∃ fault, s.commit next = .error fault ∧ t.commit next' = .error fault) ∨
      ∃ after after', s.commit next = .ok after ∧ t.commit next' = .ok after' ∧
        after.Pads ids hidden after' := by
  have hStaged : ∀ e ∈ next'.entries, e.1 ∈ ids → t.placed.contains e.1 = true := by
    intro e he hid
    have hAmong : e ∈ t.placed.among ids := by
      rw [h.placed.among, ← hNext.among, Collection.among]
      exact List.mem_filter.mpr ⟨he, by simpa using hid⟩
    rw [Collection.contains_iff]
    exact List.mem_map_of_mem (List.mem_filter.mp hAmong).1
  have hCheck : t.checkStaged next'.entries = s.checkStaged next.entries := by
    rw [h.checkStaged hStaged, ← hNext.others, Collection.others]
  rw [commit, commit, hCheck]
  cases s.checkStaged next.entries with
  | error fault => exact .inl ⟨fault, rfl, rfl⟩
  | ok _ => exact .inr ⟨_, _, rfl, rfl, h.rebuilt hNext⟩

/-- The same answer, and sessions that differ in hidden expressions only. -/
structure Agrees {α : Type} (ids : List Nat) (hidden : List (Nat × Placed K))
    (r r' : α × Session K) : Prop where
  answer : r'.1 = r.1
  pads : r.2.Pads ids hidden r'.2

theorem Pads.addExpression (h : s.Pads ids hidden t) (text : String) (origin : Point K) :
    Agrees ids hidden (s.addExpression text origin) (t.addExpression text origin) := by
  rw [Session.addExpression, Session.addExpression]
  split
  · exact ⟨rfl, h⟩
  · rename_i n _
    rcases h.commit_cases (h.placed.add ⟨n.canonical, origin⟩) with
      ⟨fault, hs, ht⟩ | ⟨after, after', hs, ht, hAfter⟩
    · rw [hs, ht]
      exact ⟨rfl, h⟩
    · rw [hs, ht]
      exact ⟨congrArg Except.ok h.placed.next, hAfter⟩

theorem Pads.detach_cases (h : s.Pads ids hidden t) (placed block : Nat) :
    (∃ fault, s.detach placed block = .error fault ∧ t.detach placed block = .error fault) ∨
      ∃ d after after', s.detach placed block = .ok (d, after) ∧
        t.detach placed block = .ok (d, after') ∧ after.Pads ids hidden after' ∧
          ∀ id, d.owner = some id → id ∉ ids := by
  cases hTree : s.canvas.tree? placed with
  | none =>
    left
    refine ⟨.missingOwner placed, ?_, ?_⟩
    · rw [detach, hTree]
      cases s.placed.get? placed <;> rfl
    · rw [detach, h.tree?, hTree]
      cases t.placed.get? placed <;> rfl
  | some tree =>
    have hid := h.notMem_of_tree? hTree
    simp only [detach, h.tree?, hTree, h.placed.get? hid, h.viewport, h.style]
    cases s.placed.get? placed with
    | none => exact .inl ⟨_, rfl, rfl⟩
    | some owner =>
      dsimp only
      cases tree.entry? block with
      | none => exact .inl ⟨_, rfl, rfl⟩
      | some e =>
        by_cases hRoot : block = tree.rootId
        · simp only [if_pos hRoot]
          refine .inr ⟨_, _, _, rfl, rfl, h, fun id hOwner => ?_⟩
          obtain rfl := Option.some.inj hOwner
          exact hid
        · simp only [if_neg hRoot, bind, Except.bind]
          cases e.block.frame.address.substitute owner.expression
              e.block.frame.type.placeholder with
          | error fault => exact .inl ⟨fault, rfl, rfl⟩
          | ok edited =>
            cases s.style.layOutText e.block.frame.expression with
            | error fault => exact .inl ⟨fault, rfl, rfl⟩
            | ok piece =>
              rcases h.commit_cases ((h.placed.add ⟨edited, owner.origin⟩).erase hid) with
                ⟨fault, hs, ht⟩ | ⟨after, after', hs, ht, hAfter⟩
              · simp only [hs, ht]
                exact .inl ⟨fault, rfl, rfl⟩
              · simp only [hs, ht]
                exact .inr ⟨_, _, _, rfl, rfl, hAfter, fun id hid => by cases hid⟩

theorem Pads.lift (h : s.Pads ids hidden t) {d : Detached K}
    (hOwner : ∀ id, d.owner = some id → id ∉ ids) (point : Point K) :
    (s.lift d point).Pads ids hidden (t.lift d point) where
  same := by
    obtain ⟨placed, skipped, rfl⟩ := h.same
    exact ⟨placed, skipped, rfl⟩
  placed := h.placed
  refuses := h.refuses
  canvas := h.canvas
  owner := by
    intro e id he hid
    obtain rfl := Option.some.inj he
    exact hOwner id hid

theorem Pads.beginDrag (h : s.Pads ids hidden t) (source : Source) (point : Point K) :
    Agrees ids hidden (s.beginDrag source point) (t.beginDrag source point) := by
  unfold Session.beginDrag
  rw [isDragging, isDragging, h.drag]
  split
  · exact ⟨rfl, h⟩
  · cases source with
    | template index =>
      simp only [h.palette, h.style, h.viewport]
      split
      · exact ⟨rfl, h⟩
      · split
        · exact ⟨rfl, h⟩
        · exact ⟨rfl, h.lift (fun id hid => by cases hid) point⟩
    | canvas placed block =>
      rcases h.detach_cases placed block with
        ⟨fault, hs, ht⟩ | ⟨d, after, after', hs, ht, hAfter, hOwner⟩
      · simp only [hs, ht]
        exact ⟨rfl, h⟩
      · simp only [hs, ht]
        exact ⟨rfl, hAfter.lift hOwner point⟩

theorem Pads.pointerDown (h : s.Pads ids hidden t) (point : Point K) :
    Agrees ids hidden (s.pointerDown point) (t.pointerDown point) := by
  have hSource : t.sourceAt point = s.sourceAt point := by
    obtain ⟨_, _, rfl⟩ := h.same
    rfl
  rw [Session.pointerDown, Session.pointerDown, isDragging, isDragging, h.drag, hSource]
  split
  · exact ⟨rfl, h⟩
  · split
    · exact ⟨rfl, h⟩
    · rename_i source _
      obtain ⟨hAnswer, hAfter⟩ := h.beginDrag source point
      cases hs : s.beginDrag source point with
      | mk answer after =>
        cases ht : t.beginDrag source point with
        | mk answer' after' =>
          rw [hs, ht] at hAnswer hAfter
          obtain rfl : answer' = answer := hAnswer
          cases answer' with
          | error fault => exact ⟨rfl, hAfter⟩
          | ok began => exact ⟨rfl, hAfter⟩

/-- Moves and frames keep the canvas, highlights apart, and the owner of the drag. -/
theorem Pads.of_core {after : Session K} {c : Collection K} {skipped : List Nat}
    (h : s.Pads ids hidden (s.pad c skipped)) (hCore : after.core = s.core) :
    after.Pads ids hidden (after.pad c skipped) where
  same := ⟨c, skipped, rfl⟩
  placed := by
    have hPlaced := congrArg Session.placed hCore
    have hPlaced : after.placed = s.placed := hPlaced
    rw [hPlaced]
    exact h.placed
  refuses := by
    have hStyle := congrArg Session.style hCore
    have hStyle : after.style = s.style := hStyle
    rw [hStyle]
    exact h.refuses
  canvas := by
    have hCanvas : after.canvas.unlit = s.canvas.unlit := congrArg Session.canvas hCore
    rw [← Canvas.ids_unlit, hCanvas, Canvas.ids_unlit]
    exact h.canvas
  owner := by
    intro e id he hid
    obtain ⟨d, hd, hSame⟩ := exists_drag_of_core hCore.symm he
    rw [← (Drag.follows_of_core hSame).owner] at hid
    exact h.owner d id hd hid

theorem showCollision_pad (c : Collection K) (skipped : List Nat) (d : Drag K) :
    (s.pad c skipped).showCollision d =
      ((s.showCollision d).1, (s.showCollision d).2.pad c skipped) := by
  have hProbe : ({ s.pad c skipped with canvas := (s.pad c skipped).canvas.unlit } :
      Session K).probe d = ({ s with canvas := s.canvas.unlit } : Session K).probe d := rfl
  rw [showCollision, showCollision]
  dsimp only
  rw [hProbe]
  split <;> rfl

theorem Pads.pointerMove (h : s.Pads ids hidden t) (point : Point K) :
    Agrees ids hidden (s.pointerMove point) (t.pointerMove point) := by
  obtain ⟨c, skipped, rfl⟩ := h.same
  have hPad : (s.pad c skipped).pointerMove point =
      ((s.pointerMove point).1, (s.pointerMove point).2.pad c skipped) := by
    rw [Session.pointerMove, Session.pointerMove]
    cases hd : s.drag with
    | none => simp only [pad, hd]
    | some d => cases hf : s.framePending <;> simp only [pad, hd, hf] <;> rfl
  rw [hPad]
  exact ⟨rfl, h.of_core (core_feedback s (.move point))⟩

theorem Pads.onFrame (h : s.Pads ids hidden t) : Agrees ids hidden s.onFrame t.onFrame := by
  obtain ⟨c, skipped, rfl⟩ := h.same
  have hPad : (s.pad c skipped).onFrame = (s.onFrame.1, s.onFrame.2.pad c skipped) := by
    rw [Session.onFrame, Session.onFrame]
    cases hd : s.drag with
    | none => simp only [pad, hd]
    | some d =>
      simp only [pad, hd]
      split
      · rfl
      · exact showCollision_pad (s := { s with framePending := false }) c skipped d.settled
  rw [hPad]
  exact ⟨rfl, h.of_core (core_feedback s .frame)⟩

theorem Pads.freed (h : s.Pads ids hidden t) : s.freed.Pads ids hidden t.freed where
  same := by
    obtain ⟨placed, skipped, rfl⟩ := h.same
    exact ⟨placed, skipped, rfl⟩
  placed := h.placed
  refuses := h.refuses
  canvas := by
    rw [Session.freed, Canvas.ids_unlit]
    exact h.canvas
  owner := nofun

theorem Pads.merge_cases (h : s.Pads ids hidden t) (leaf : LeafRef) (text : String) :
    (∃ fault, s.merge s.placed leaf text = .error fault ∧
        t.merge t.placed leaf text = .error fault) ∨
      ∃ id next next', s.merge s.placed leaf text = .ok (id, next) ∧
        t.merge t.placed leaf text = .ok (id, next') ∧ next.Hides ids hidden next' := by
  rw [merge, merge, h.tree?]
  cases hTree : s.canvas.tree? leaf.placed with
  | none =>
    left
    refine ⟨.missingOwner leaf.placed, ?_, ?_⟩
    · cases s.placed.get? leaf.placed <;> rfl
    · cases t.placed.get? leaf.placed <;> rfl
  | some tree =>
    have hid := h.notMem_of_tree? hTree
    simp only [h.placed.get? hid, Option.bind_some, bind, Except.bind]
    cases s.placed.get? leaf.placed with
    | none => exact .inl ⟨_, rfl, rfl⟩
    | some target =>
      cases tree.block? leaf.block with
      | none => exact .inl ⟨_, rfl, rfl⟩
      | some b =>
        dsimp only
        cases b.frame.address.substitute target.expression text with
        | error fault => exact .inl ⟨fault, rfl, rfl⟩
        | ok merged =>
          refine .inr ⟨s.placed.next, _, _, rfl, ?_,
            (h.placed.add ⟨merged, target.origin⟩).erase hid⟩
          rw [← h.placed.next]
          rfl

theorem Pads.drop_cases (h : s.Pads ids hidden t) {d : Drag K}
    (hOwner : ∀ id, d.owner = some id → id ∉ ids) :
    (∃ fault, s.drop d = .error fault ∧ t.drop d = .error fault) ∨
      ∃ outcome next next', s.drop d = .ok (outcome, next) ∧ t.drop d = .ok (outcome, next') ∧
        next.Hides ids hidden next' := by
  have hProbe : t.probe d = s.probe d := by
    obtain ⟨_, _, rfl⟩ := h.same
    rfl
  have hOrigin : t.dropOrigin d = s.dropOrigin d := by
    obtain ⟨_, _, rfl⟩ := h.same
    rfl
  have hPlace : ∃ outcome next next',
      Except.ok (Outcome.placed s.placed.next, s.placed.add ⟨d.expression, s.dropOrigin d⟩) =
          (.ok (outcome, next) : Except Fault (Outcome × Collection K)) ∧
        Except.ok (Outcome.placed t.placed.next, t.placed.add ⟨d.expression, t.dropOrigin d⟩) =
          (.ok (outcome, next') : Except Fault (Outcome × Collection K)) ∧
        next.Hides ids hidden next' := by
    rw [hOrigin, h.placed.next]
    exact ⟨_, _, _, rfl, rfl, h.placed.add _⟩
  cases hOver : s.viewport.isOverPalette d.position with
  | true =>
    have hFilter : d.owner.filter t.placed.contains = d.owner.filter s.placed.contains := by
      cases hSome : d.owner with
      | none => rfl
      | some id => rw [Option.filter_some, Option.filter_some, h.placed.contains (hOwner id hSome)]
    rw [drop, if_pos hOver, drop, h.viewport, if_pos hOver, hFilter]
    exact .inr ⟨_, _, _, rfl, rfl, h.placed⟩
  | false =>
    have hOver' : t.viewport.isOverPalette d.position = false := by rw [h.viewport, hOver]
    rw [drop_of_probe hOver, drop_of_probe hOver', hProbe]
    split
    · rename_i c _
      split
      · rcases h.merge_cases c.leaf d.expression with
          ⟨fault, hs, ht⟩ | ⟨id, next, next', hs, ht, hNext⟩
        · rw [hs, ht]
          exact .inl ⟨fault, rfl, rfl⟩
        · rw [hs, ht]
          exact .inr ⟨_, _, _, rfl, rfl, hNext⟩
      · exact .inr hPlace
    · exact .inr hPlace

theorem Pads.release (h : s.Pads ids hidden t) (release : Release K) :
    Agrees ids hidden (s.release release) (t.release release) := by
  cases hd : s.drag with
  | none =>
    rw [release_of_idle hd, release_of_idle (h.drag.trans hd)]
    exact ⟨rfl, h⟩
  | some d =>
    have hOwner : ∀ id, d.owner = some id → id ∉ ids := fun id => h.owner d id hd
    have hReleased : ∀ id, (d.released release).owner = some id → id ∉ ids := by
      rw [Drag.owner_released]
      exact hOwner
    rw [release_eq hd, release_eq (h.drag.trans hd)]
    rcases h.freed.drop_cases hReleased with
      ⟨fault, hs, ht⟩ | ⟨outcome, next, next', hs, ht, hNext⟩
    · rw [hs, ht]
      exact ⟨rfl, h.freed⟩
    · rw [hs, ht]
      dsimp only
      rcases h.freed.commit_cases (d.hides_leave hNext hOwner) with
        ⟨fault, hs, ht⟩ | ⟨after, after', hs, ht, hAfter⟩
      · rw [hs, ht]
        exact ⟨rfl, h.freed⟩
      · rw [hs, ht]
        exact ⟨rfl, hAfter⟩

end

/-- What an operation tells the program. Which expressions a refresh leaves off the canvas is not
told: that is where hidden ones show. -/
inductive Answer where
  | added (answer : Except Fault Nat)
  | begun (answer : Except Fault Bool)
  | pressed (answer : Except Fault (Option Source))
  | moved (scheduled : Bool)
  | met (collision : Option Collision)
  | released (answer : Except Fault Outcome)
  | done

def answer (s : Session K) : Operation K → Answer
  | .addExpression text origin => .added (s.addExpression text origin).1
  | .beginDrag source point => .begun (s.beginDrag source point).1
  | .pointerDown point => .pressed (s.pointerDown point).1
  | .pointerMove point => .moved (s.pointerMove point).1
  | .onFrame => .met s.onFrame.1
  | .pointerUp point => .released (s.pointerUp point).1
  | .pointerCancel => .released s.pointerCancel.1
  | .scrollCanvas _ => .done
  | .scrollPalette _ => .done
  | .refresh => .done

def answers (s : Session K) : List (Operation K) → List Answer
  | [] => []
  | operation :: rest => s.answer operation :: (s.apply operation).answers rest

section

variable {ids : List Nat} {hidden : List (Nat × Placed K)} {s t : Session K}

/-- No operation tells a session with hidden expressions from one without them. -/
theorem Pads.apply (h : s.Pads ids hidden t) (operation : Operation K) :
    t.answer operation = s.answer operation ∧
      (s.apply operation).Pads ids hidden (t.apply operation) := by
  cases operation with
  | addExpression text origin =>
    obtain ⟨hAnswer, hPads⟩ := h.addExpression text origin
    exact ⟨congrArg Answer.added hAnswer, hPads⟩
  | beginDrag source point =>
    obtain ⟨hAnswer, hPads⟩ := h.beginDrag source point
    exact ⟨congrArg Answer.begun hAnswer, hPads⟩
  | pointerDown point =>
    obtain ⟨hAnswer, hPads⟩ := h.pointerDown point
    exact ⟨congrArg Answer.pressed hAnswer, hPads⟩
  | pointerMove point =>
    obtain ⟨hAnswer, hPads⟩ := h.pointerMove point
    exact ⟨congrArg Answer.moved hAnswer, hPads⟩
  | onFrame =>
    obtain ⟨hAnswer, hPads⟩ := h.onFrame
    exact ⟨congrArg Answer.met hAnswer, hPads⟩
  | pointerUp point =>
    obtain ⟨hAnswer, hPads⟩ := h.release (.up point)
    exact ⟨congrArg Answer.released hAnswer, hPads⟩
  | pointerCancel =>
    obtain ⟨hAnswer, hPads⟩ := h.release .cancel
    exact ⟨congrArg Answer.released hAnswer, hPads⟩
  | scrollCanvas scroll =>
    obtain ⟨placed, skipped, rfl⟩ := h.same
    exact ⟨rfl, { h with same := ⟨placed, skipped, rfl⟩ }⟩
  | scrollPalette scroll =>
    obtain ⟨placed, skipped, rfl⟩ := h.same
    exact ⟨rfl, { h with same := ⟨placed, skipped, rfl⟩ }⟩
  | refresh => exact ⟨rfl, h.rebuilt h.placed⟩

theorem Pads.run (h : s.Pads ids hidden t) (operations : List (Operation K)) :
    t.answers operations = s.answers operations ∧
      (s.run operations).Pads ids hidden (t.run operations) := by
  induction operations generalizing s t with
  | nil => exact ⟨rfl, h⟩
  | cons operation rest ih =>
    obtain ⟨hAnswer, hPads⟩ := h.apply operation
    obtain ⟨hAnswers, hRun⟩ := ih hPads
    refine ⟨?_, hRun⟩
    rw [answers, answers, hAnswer, hAnswers]

/-- Expressions without a layout change no answer and no canvas, and they stay as they are. -/
theorem answers_of_hides {c : Collection K} (hCanvas : s.canvas = .build s.style s.placed)
    (hIdle : s.drag = none) (hHides : s.placed.Hides ids hidden c)
    (hRefuses : s.style.Refuses hidden) (operations : List (Operation K)) :
    let t := { s with placed := c, canvas := .build s.style c }
    let after := s.run operations
    let after' := t.run operations
    t.answers operations = s.answers operations ∧
      after'.canvas.entries = after.canvas.entries ∧
      after'.canvas.leaves = after.canvas.leaves ∧ after'.drag = after.drag ∧
      after.placed.Hides ids hidden after'.placed := by
  intro t after after'
  have hPads : s.Pads ids hidden t := by
    refine ⟨⟨c, (Canvas.build s.style c).skipped, ?_⟩, hHides, hRefuses, ?_, ?_⟩
    · have hEntries := Canvas.entries_build_of_hides hHides hRefuses
      rw [← hCanvas] at hEntries
      simp only [t, pad, ← hEntries]
    · rw [hCanvas]
      exact fun _ hid => hHides.notMem (Canvas.mem_ids_go hid)
    · rw [hIdle]
      nofun
  obtain ⟨hAnswers, hRun⟩ := hPads.run operations
  have hLeaves : after'.canvas.leaves = after.canvas.leaves := by
    rw [Canvas.leaves, hRun.entries, Canvas.leaves]
  exact ⟨hAnswers, hRun.entries, hLeaves, hRun.drag, hRun.placed⟩

end

theorem answers_of_hides_sum :
    let hidden : List (Nat × Placed Float) := [(0, ⟨"(", .origin⟩), (2, ⟨"f(x)", .origin⟩)]
    let placed : Collection Float := ⟨[(1, ⟨"(x+y)", .origin⟩)], 3⟩
    let padded : Collection Float :=
      ⟨[(0, ⟨"(", .origin⟩), (1, ⟨"(x+y)", .origin⟩), (2, ⟨"f(x)", .origin⟩)], 3⟩
    let s : Session Float := { bare with placed, canvas := .build bare.style placed }
    let t : Session Float := { s with placed := padded, canvas := .build bare.style padded }
    let operations : List (Operation Float) :=
      [.pointerDown .origin, .pointerCancel, .addExpression "a + b" .origin]
    t.answers operations = s.answers operations ∧
      (s.run operations).placed.Hides [0, 2] hidden (t.run operations).placed := by
  intro hidden placed padded s t operations
  have hOpen : (Node.read "(").isOk = false := by cbv
  have hCall : Node.read "f(x)" = .ok (.call "f" [.symbol "x"]) := by cbv
  have hHides : s.placed.Hides [0, 2] hidden padded := by
    refine ⟨rfl, rfl, rfl, ?_⟩
    decide
  have hRefuses : s.style.Refuses hidden := by
    intro e he
    rcases List.mem_cons.mp he with rfl | he
    · cases hRead : Node.read "(" with
      | error fault => exact ⟨.source fault, by simp only [Style.layOutText, hRead]⟩
      | ok n =>
        rw [hRead] at hOpen
        cases hOpen
    · obtain rfl := List.mem_singleton.mp he
      refine ⟨.unknownFunction "f", ?_⟩
      rw [Style.layOutText, hCall]
      rfl
  obtain ⟨hAnswers, -, -, -, hPlaced⟩ :=
    answers_of_hides (s := s) rfl rfl hHides hRefuses operations
  exact ⟨hAnswers, hPlaced⟩

end Session

end Blockwork
