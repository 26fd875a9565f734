import Blockwork.Plane.Shape

/-! # Finite coordinates

A sum of doubles is finite only if both terms are. So what is moved by an offset without a finite
coordinate is nowhere on the plane, and it stays so wherever it is moved from there.
-/

set_option autoImplicit false

namespace Blockwork

open Float.Model Float.Model.UnpackedFloat

namespace Double

theorem isFinite_of_pack {x : UnpackedFloat}
    (h : (unpack .binary64 (pack .binary64 x)).isFinite = true) : x.isFinite = true := by
  cases x with
  | notANumber => cases h
  | infinity sign => cases sign <;> cases h
  | zero | finite => rfl

theorem isFinite_of_unpacked_add {x y : UnpackedFloat}
    (h : (UnpackedFloat.add .binary64 x y).isFinite = true) :
    x.isFinite = true ∧ y.isFinite = true := by
  cases x with
  | notANumber => cases y <;> cases h
  | infinity sign =>
    cases y with
    | infinity other => cases sign <;> cases other <;> cases h
    | _ => cases h
  | zero | finite =>
    cases y with
    | zero | finite => exact ⟨rfl, rfl⟩
    | _ => cases h

/-- Both terms of a finite sum are finite. -/
theorem isFinite_of_add {a b : Float} (h : (a + b).isFinite = true) :
    a.isFinite = true ∧ b.isFinite = true :=
  isFinite_of_unpacked_add (x := a.toModel.unpack) (y := b.toModel.unpack) (isFinite_of_pack h)

end Double

def Point.isFinite {K : Type} [Scalar K] (p : Point K) : Bool :=
  Scalar.isFinite p.x && Scalar.isFinite p.y

section

variable {p : Point Float} {v : Offset Float}

theorem Point.isFinite_of_add (h : (p + v).isFinite = true) :
    p.isFinite = true ∧ v.toPoint.isFinite = true := by
  obtain ⟨hx, hy⟩ := Bool.and_eq_true_iff.mp h
  obtain ⟨hpx, hvx⟩ := Double.isFinite_of_add hx
  obtain ⟨hpy, hvy⟩ := Double.isFinite_of_add hy
  exact ⟨Bool.and_eq_true_iff.mpr ⟨hpx, hpy⟩, Bool.and_eq_true_iff.mpr ⟨hvx, hvy⟩⟩

theorem Rect.isFinite_of_add {r : Rect Float} (h : (r + v).isFinite = true) :
    v.toPoint.isFinite = true := by
  simp only [Rect.isFinite, Bool.and_eq_true] at h
  obtain ⟨⟨⟨hx, hy⟩, -⟩, -⟩ := h
  obtain ⟨-, hvx⟩ := Double.isFinite_of_add hx
  obtain ⟨-, hvy⟩ := Double.isFinite_of_add hy
  exact Bool.and_eq_true_iff.mpr ⟨hvx, hvy⟩

end

end Blockwork
