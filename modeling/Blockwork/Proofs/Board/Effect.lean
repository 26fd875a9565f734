import Blockwork.Proofs.Board.Release

/-! # What operations do

An operation adds an expression, begins a drag, moves it or ends it, or it leaves the collection
and the drag as they are. What is dragged stays the same tree, highlights apart, from the begin of
a drag to its end, and no operation changes the style or the palette.
-/

set_option autoImplicit false

namespace Blockwork

variable {K : Type} [Scalar K]

/-- A later stage of the same drag. -/
structure Drag.Follows (e d : Drag K) : Prop where
  owner : e.owner = d.owner
  root : e.tree.root.unlit = d.tree.root.unlit

namespace Session

/-- The session after an operation, by what happened to the collection and the drag. -/
inductive Effect (s : Session K) : Operation K → Session K → Prop where
  | still {operation : Operation K} {after : Session K} (hPlaced : after.placed = s.placed)
      (hDrag : after.drag = s.drag) : Effect s operation after
  | added {text : String} {origin : Point K} {after : Session K} {n : Node}
      (hRead : Node.read text = .ok n) (hShown : n.Shown)
      (hPlaced : after.placed = s.placed.add ⟨n.canonical, origin⟩)
      (hDrag : after.drag = s.drag) : Effect s (.addExpression text origin) after
  | begun {operation : Operation K} {source : Source} {point : Point K} {after : Session K}
      (hBegins : s.Begins point source after) : Effect s operation after
  | moved {operation : Operation K} {d e : Drag K} {after : Session K}
      (hPlaced : after.placed = s.placed) (hDrag : s.drag = some d)
      (hLater : after.drag = some e) (hFollows : e.Follows d) : Effect s operation after
  | released {operation : Operation K} {d : Drag K} {outcome : Outcome} {next : Collection K}
      {after : Session K} (release : Release K) (hDrag : s.drag = some d)
      (hDrops : s.Drops (d.released release) outcome next)
      (hPlaced : after.placed = d.leave next) (hOver : after.drag = none) :
      Effect s operation after

structure Keeps (s after : Session K) : Prop where
  style : after.style = s.style
  palette : after.palette = s.palette

section

variable {s after : Session K}

theorem Begins.keeps {source : Source} {point : Point K} (h : s.Begins point source after) :
    s.Keeps after := by
  cases h with
  | template => exact ⟨rfl, rfl⟩
  | canvas _ hDetaches => cases hDetaches <;> exact ⟨rfl, rfl⟩

theorem showCollision_follows {d e : Drag K} (h : e.Follows d) :
    s.Keeps (s.showCollision e).2 ∧ (s.showCollision e).2.placed = s.placed ∧
      ∃ later, (s.showCollision e).2.drag = some later ∧ later.Follows d := by
  have hTinted (tint : Tint) (c : Option Collision) :
      Drag.Follows { e.withHandle tint with collision := c } d :=
    ⟨h.owner, (Block.unlit_withHandle e.tree.root tint).trans h.root⟩
  rw [showCollision]
  dsimp only
  split
  · exact ⟨⟨rfl, rfl⟩, rfl, _, rfl, hTinted _ _⟩
  · exact ⟨⟨rfl, rfl⟩, rfl, _, rfl, hTinted _ _⟩

theorem onFrame_effect (s : Session K) : s.Keeps s.onFrame.2 ∧ s.Effect .onFrame s.onFrame.2 := by
  rw [Session.onFrame]
  dsimp only
  split
  · exact ⟨⟨rfl, rfl⟩, .still rfl rfl⟩
  · rename_i d hd
    split
    · exact ⟨⟨rfl, rfl⟩, .still rfl rfl⟩
    · have hSettled : d.settled.Follows d := by
        refine ⟨Drag.owner_settled, ?_⟩
        rw [Drag.settled]
        split <;> rfl
      obtain ⟨hKeeps, hPlaced, e, he, hFollows⟩ :=
        showCollision_follows (s := { s with framePending := false }) hSettled
      exact ⟨⟨hKeeps.style, hKeeps.palette⟩, .moved hPlaced hd he hFollows⟩

theorem pointerMove_effect (s : Session K) (point : Point K) :
    s.Keeps (s.pointerMove point).2 ∧ s.Effect (.pointerMove point) (s.pointerMove point).2 := by
  rw [Session.pointerMove]
  split
  · exact ⟨⟨rfl, rfl⟩, .still rfl rfl⟩
  · rename_i d hd
    have hFollows : (d.sampled point).Follows d := ⟨rfl, rfl⟩
    dsimp only
    split
    · exact ⟨⟨rfl, rfl⟩, .moved rfl hd rfl hFollows⟩
    · exact ⟨⟨rfl, rfl⟩, .moved rfl hd rfl hFollows⟩

theorem Consistent.release_effect (h : s.Consistent) (release : Release K)
    (operation : Operation K) :
    s.Keeps (s.release release).2 ∧ s.Effect operation (s.release release).2 := by
  cases hd : s.drag with
  | none =>
    have hNone : s.release release = (.ok .aborted, s) := release_of_idle hd release
    rw [hNone]
    exact ⟨⟨rfl, rfl⟩, .still rfl rfl⟩
  | some d =>
    obtain ⟨outcome, next, hDrops, hRelease⟩ := h.exists_release hd release
    rw [hRelease]
    exact ⟨⟨rfl, rfl⟩, .released release hd hDrops rfl rfl⟩

/-- Every operation has one of the effects. -/
theorem Consistent.effect (h : s.Consistent) (operation : Operation K) :
    s.Keeps (s.apply operation) ∧ s.Effect operation (s.apply operation) := by
  cases operation with
  | addExpression text origin =>
    rw [Session.apply]
    rcases h.addExpression_cases text origin with ⟨n, hRead, hShown, hAdded⟩ | ⟨fault, hFault⟩
    · rw [hAdded]
      exact ⟨⟨rfl, rfl⟩, .added hRead hShown rfl rfl⟩
    · rw [hFault]
      exact ⟨⟨rfl, rfl⟩, .still rfl rfl⟩
  | beginDrag source point =>
    rw [Session.apply]
    rcases h.beginDrag_cases source point with ⟨after, hBegin, hBegins⟩ | hNone
    · rw [hBegin]
      exact ⟨hBegins.keeps, .begun hBegins⟩
    · rw [hNone]
      exact ⟨⟨rfl, rfl⟩, .still rfl rfl⟩
  | pointerDown point =>
    rw [Session.apply]
    rcases h.pointerDown_cases point with ⟨source, after, hDown, hBegins⟩ | hNone
    · rw [hDown]
      exact ⟨hBegins.keeps, .begun hBegins⟩
    · rw [hNone]
      exact ⟨⟨rfl, rfl⟩, .still rfl rfl⟩
  | pointerMove point => exact s.pointerMove_effect point
  | onFrame => exact s.onFrame_effect
  | pointerUp point => exact h.release_effect (.up point) _
  | pointerCancel => exact h.release_effect .cancel _
  | scrollCanvas | scrollPalette | refresh => exact ⟨⟨rfl, rfl⟩, .still rfl rfl⟩

end

end Session

end Blockwork
