import Blockwork.Proofs.Board.Release

/-! # Pointer input

In a consistent session no answer to the pointer is a fault. What can go wrong in a drag, a block
that is gone or a text without a layout, does not happen there; input that means nothing is
answered by a value that says so.
-/

set_option autoImplicit false

namespace Blockwork

variable {K : Type} [Scalar K]

namespace Session

section

variable {s : Session K} {d : Drag K}

theorem Drops.ne_aborted {outcome : Outcome} {next : Collection K}
    (h : s.Drops d outcome next) : outcome ≠ .aborted := by
  cases h <;> nofun

theorem Consistent.exists_beginDrag (h : s.Consistent) (source : Source) (point : Point K) :
    ∃ began, (s.beginDrag source point).1 = .ok began := by
  rcases h.beginDrag_cases source point with ⟨after, hBegin, -⟩ | hNone
  · exact ⟨true, congrArg Prod.fst hBegin⟩
  · exact ⟨false, congrArg Prod.fst hNone⟩

theorem Consistent.exists_pointerDown (h : s.Consistent) (point : Point K) :
    ∃ source, (s.pointerDown point).1 = .ok source := by
  rcases h.pointerDown_cases point with ⟨source, after, hDown, -⟩ | hNone
  · exact ⟨some source, congrArg Prod.fst hDown⟩
  · exact ⟨none, congrArg Prod.fst hNone⟩

theorem Consistent.exists_outcome (h : s.Consistent) (release : Release K) :
    ∃ outcome, (s.release release).1 = .ok outcome ∧ (outcome = .aborted ↔ s.drag = none) := by
  cases hd : s.drag with
  | none =>
    exact ⟨.aborted, congrArg Prod.fst (release_of_idle hd release), by simp⟩
  | some d =>
    obtain ⟨outcome, next, hDrops, hRelease⟩ := h.exists_release hd release
    exact ⟨outcome, congrArg Prod.fst hRelease, by simp [hDrops.ne_aborted]⟩

theorem Consistent.exists_answer (h : s.Consistent) (event : PointerEvent K) :
    ∃ answer, (s.dispatch event).1 = .ok answer := by
  cases event with
  | down point =>
    obtain ⟨source, hDown⟩ := h.exists_pointerDown point
    exact ⟨none, congrArg (Except.map fun _ => none) hDown⟩
  | up point =>
    obtain ⟨outcome, hUp, -⟩ := h.exists_outcome (.up point)
    exact ⟨some outcome, congrArg (Except.map some) hUp⟩
  | cancel =>
    obtain ⟨outcome, hCancel, -⟩ := h.exists_outcome .cancel
    exact ⟨some outcome, congrArg (Except.map some) hCancel⟩
  | move | frame | scrollCanvas | scrollPalette => exact ⟨none, rfl⟩

/-- On every run the pointer is answered without a fault, and a release is given up only if there
was nothing to release. -/
theorem Reachable.input_succeeds (h : s.Reachable) :
    (∀ source point, ∃ began, (s.beginDrag source point).1 = .ok began) ∧
    (∀ point, ∃ source, (s.pointerDown point).1 = .ok source) ∧
    (∀ point, ∃ outcome, (s.pointerUp point).1 = .ok outcome ∧
      (outcome = .aborted ↔ s.drag = none)) ∧
    (∃ outcome, s.pointerCancel.1 = .ok outcome ∧ (outcome = .aborted ↔ s.drag = none)) ∧
    ∀ event, ∃ answer, (s.dispatch event).1 = .ok answer := by
  have hConsistent := h.consistent
  refine ⟨hConsistent.exists_beginDrag, hConsistent.exists_pointerDown, ?_, ?_,
    hConsistent.exists_answer⟩
  · intro point
    exact hConsistent.exists_outcome (.up point)
  · exact hConsistent.exists_outcome .cancel

end

theorem Reachable.input_succeeds_sum :
    ∃ s : Session Float, s.Reachable ∧ s.placed = sums ∧
      ∃ outcome, s.pointerCancel.1 = .ok outcome ∧ outcome ≠ .aborted := by
  obtain ⟨first, second, hFirst, hSecond, d, -, hPlaced, hDrag, -⟩ := exists_draggedSum
  have hReachable := reachable_draggedSum hFirst hSecond
  obtain ⟨-, -, -, ⟨outcome, hCancel, hAborted⟩, -⟩ := hReachable.input_succeeds
  refine ⟨_, hReachable, hPlaced, outcome, hCancel, ?_⟩
  rintro rfl
  have hNone := hAborted.mp rfl
  rw [hDrag] at hNone
  cases hNone

end Session

end Blockwork
