import Mathlib.Algebra.Order.Group.MinMax
import Mathlib.Tactic.Ring
import Blockwork.Block.Basic
import Blockwork.Proofs.Plane.Exact

/-! # Rounded boxes

The corners of a box are rounded as its type says. A box that is drawn in by its outline stays in
the box that it was drawn in from, since the corners are drawn in with it; and a wide pill that is
centred in another one lies inside it. A square one in a pill need not.
-/

set_option autoImplicit false

namespace Blockwork

section

variable {K : Type} [Scalar K]

def Rect.rounded (r : Rect K) (type : SlotType) : RoundedRect K :=
  .ofRect r (type.cornerRadius r.height)

end

variable {F : Type} [Field F] [LinearOrder F] [IsStrictOrderedRing F]

namespace Rect

/-- The rectangle holds the point, its right and lower edges included. -/
def Holds (r : Rect F) (p : Point F) : Prop :=
  r.x0 ≤ p.x ∧ p.x ≤ r.x1 ∧ r.y0 ≤ p.y ∧ p.y ≤ r.y1

structure InOrder (r : Rect F) : Prop where
  x : r.x0 ≤ r.x1
  y : r.y0 ≤ r.y1

theorem InOrder.add {r : Rect F} (h : r.InOrder) (v : Offset F) : (r + v).InOrder :=
  ⟨add_le_add_left h.x _, add_le_add_left h.y _⟩

theorem Within.holds {r s : Rect F} (h : r.Within s) {p : Point F} (hp : r.Holds p) :
    s.Holds p := by
  obtain ⟨hLeft, hTop, hRight, hBottom⟩ := h
  obtain ⟨hx0, hx1, hy0, hy1⟩ := hp
  exact ⟨hLeft.trans hx0, hx1.trans hRight, hTop.trans hy0, hy1.trans hBottom⟩

theorem holds_add (r : Rect F) (v : Offset F) (p : Point F) :
    (r + v).Holds p ↔ r.Holds (p - v) :=
  and_congr le_sub_iff_add_le.symm (and_congr sub_le_iff_le_add.symm
    (and_congr le_sub_iff_add_le.symm sub_le_iff_le_add.symm))

def corner (r : Rect F) (type : SlotType) : F :=
  min (type.cornerRadius r.height) (min r.width r.height / 2)

def beyond (low high radius x : F) : F :=
  max (max (low + radius - x) (x - (high - radius))) 0

theorem beyond_nonneg (low high radius x : F) : 0 ≤ beyond low high radius x := le_max_right _ _

theorem beyond_le_iff {low high radius x d : F} :
    beyond low high radius x ≤ d ↔ low + radius - x ≤ d ∧ x - (high - radius) ≤ d ∧ 0 ≤ d := by
  rw [beyond, max_le_iff, max_le_iff, and_assoc]

theorem excess_eq {low high radius : F} (h : radius ≤ (high - low) / 2) (x : F) :
    RoundedRect.excess (high - low) radius (x - 1 / 2 * (low + high)) =
      beyond low high radius x := by
  have hInner : max ((high - low) / 2 - radius) 0 = (high - low) / 2 - radius :=
    max_eq_left (by linarith)
  have hAbs : Scalar.abs (x - 1 / 2 * (low + high)) = |x - 1 / 2 * (low + high)| := rfl
  have hHigh : x - 1 / 2 * (low + high) - ((high - low) / 2 - radius) = x - (high - radius) := by
    ring
  have hLow : -(x - 1 / 2 * (low + high)) - ((high - low) / 2 - radius) = low + radius - x := by
    ring
  rw [RoundedRect.excess, hAbs, Nat.cast_ofNat, Nat.cast_zero, hInner, beyond, abs_eq_max_neg,
    ← max_sub_sub_right, hHigh, hLow, max_comm (x - (high - radius))]

theorem cornerRadius_nonneg (type : SlotType) {height : F} (h : 0 ≤ height) :
    0 ≤ type.cornerRadius height := by
  cases type <;> simp [SlotType.cornerRadius] <;> linarith

section

variable {r s : Rect F} {type : SlotType} {p : Point F}

theorem InOrder.corner_nonneg (h : r.InOrder) (type : SlotType) : 0 ≤ r.corner type := by
  have hWidth : 0 ≤ r.width := sub_nonneg.mpr h.x
  have hHeight : 0 ≤ r.height := sub_nonneg.mpr h.y
  exact le_min (cornerRadius_nonneg type hHeight) (div_nonneg (le_min hWidth hHeight) two_pos.le)

theorem contains_rounded_iff (h : r.InOrder) :
    (r.rounded type).contains p = true ↔
      beyond r.x0 r.x1 (r.corner type) p.x * beyond r.x0 r.x1 (r.corner type) p.x +
        beyond r.y0 r.y1 (r.corner type) p.y * beyond r.y0 r.y1 (r.corner type) p.y ≤
          r.corner type * r.corner type := by
  have hHeight : 0 ≤ r.height := sub_nonneg.mpr h.y
  have hOrdered : r.ordered = r := by
    simp only [ordered, min_eq_left h.x, min_eq_left h.y, max_eq_right h.x, max_eq_right h.y]
  have hRadius : r.rounded type = ⟨r, r.corner type⟩ := by
    have hAbs : Scalar.abs (type.cornerRadius r.height) = |type.cornerRadius r.height| := rfl
    rw [rounded, RoundedRect.ofRect, hOrdered, hAbs,
      abs_of_nonneg (cornerRadius_nonneg type hHeight), corner, Nat.cast_ofNat]
  have hWidth : r.corner type ≤ (r.x1 - r.x0) / 2 :=
    (min_le_right _ _).trans (div_le_div_of_nonneg_right (min_le_left _ _) two_pos.le)
  have hTall : r.corner type ≤ (r.y1 - r.y0) / 2 :=
    (min_le_right _ _).trans (div_le_div_of_nonneg_right (min_le_right _ _) two_pos.le)
  rw [hRadius, RoundedRect.contains, decide_eq_true_iff]
  simp only [center, width, height, Nat.cast_one, Nat.cast_ofNat, excess_eq hWidth, excess_eq hTall]

/-- Where the corners are rounded, nothing is added. -/
theorem holds_of_rounded (h : r.InOrder) (hp : (r.rounded type).contains p = true) :
    r.Holds p := by
  rw [contains_rounded_iff h] at hp
  have hCorner := h.corner_nonneg type
  have hx : beyond r.x0 r.x1 (r.corner type) p.x ≤ r.corner type := by
    apply nonneg_le_nonneg_of_sq_le_sq hCorner
    linarith [mul_self_nonneg (beyond r.y0 r.y1 (r.corner type) p.y)]
  have hy : beyond r.y0 r.y1 (r.corner type) p.y ≤ r.corner type := by
    apply nonneg_le_nonneg_of_sq_le_sq hCorner
    linarith [mul_self_nonneg (beyond r.x0 r.x1 (r.corner type) p.x)]
  rw [beyond_le_iff] at hx hy
  refine ⟨?_, ?_, ?_, ?_⟩ <;> linarith

theorem rounded_boolean_iff (h : r.InOrder) :
    (r.rounded .boolean).contains p = true ↔ r.Holds p := by
  refine ⟨holds_of_rounded h, ?_⟩
  rintro ⟨hx0, hx1, hy0, hy1⟩
  have hCorner : r.corner .boolean = 0 := by
    rw [corner, SlotType.cornerRadius, Nat.cast_zero, min_eq_left]
    exact div_nonneg (le_min (sub_nonneg.mpr h.x) (sub_nonneg.mpr h.y)) two_pos.le
  have hx : beyond r.x0 r.x1 0 p.x = 0 := by
    apply le_antisymm (beyond_le_iff.mpr ?_) (beyond_nonneg ..)
    refine ⟨?_, ?_, le_rfl⟩ <;> linarith
  have hy : beyond r.y0 r.y1 0 p.y = 0 := by
    apply le_antisymm (beyond_le_iff.mpr ?_) (beyond_nonneg ..)
    refine ⟨?_, ?_, le_rfl⟩ <;> linarith
  rw [contains_rounded_iff h, hCorner, hx, hy]
  simp

def inset (r : Rect F) (line : F) : Rect F :=
  ⟨r.x0 + line, r.y0 + line, r.x1 - line, r.y1 - line⟩

/-- Corners are drawn in by no more than the sides. -/
theorem corner_inset (r : Rect F) {line : F} (hLine : 0 ≤ line) (type : SlotType) :
    (r.inset line).corner type ≤ r.corner type ∧
      r.corner type ≤ (r.inset line).corner type + line := by
  have hWidth : (r.inset line).width = r.width - 2 * line := by
    simp only [width, inset]
    ring
  have hHeight : (r.inset line).height = r.height - 2 * line := by
    simp only [height, inset]
    ring
  have hSide : min (r.width - 2 * line) (r.height - 2 * line) / 2 =
      min r.width r.height / 2 - line := by
    rw [min_sub_sub_right]
    ring
  have hRadius : type.cornerRadius (r.height - 2 * line) ≤ type.cornerRadius r.height ∧
      type.cornerRadius r.height ≤ type.cornerRadius (r.height - 2 * line) + line := by
    cases type <;> simp only [SlotType.cornerRadius] <;> push_cast <;> constructor <;> linarith
  obtain ⟨hLess, hMore⟩ := hRadius
  simp only [corner, hWidth, hHeight, hSide]
  constructor
  · exact min_le_min hLess (by linarith)
  · rw [← min_add_add_right]
    exact min_le_min hMore (by linarith)

/-- A box that is drawn in stays inside, its corners included. -/
theorem rounded_of_inset {line : F} (hLine : 0 ≤ line) (h : (r.inset line).InOrder)
    (hp : ((r.inset line).rounded type).contains p = true) :
    (r.rounded type).contains p = true := by
  have hOrder : r.InOrder := by
    obtain ⟨hx, hy⟩ := h
    simp only [inset] at hx hy
    constructor <;> linarith
  obtain ⟨hLess, hMore⟩ := r.corner_inset hLine type
  have hNone := h.corner_nonneg type
  rw [contains_rounded_iff h] at hp
  rw [contains_rounded_iff hOrder]
  -- Measured from the rounded ends, the point lies no further out than before.
  have hNear {low high x : F} : beyond low high (r.corner type) x ≤
      beyond (low + line) (high - line) ((r.inset line).corner type) x := by
    obtain ⟨hLow, hHigh, hZero⟩ := beyond_le_iff.mp
      (le_refl (beyond (low + line) (high - line) ((r.inset line).corner type) x))
    apply beyond_le_iff.mpr
    refine ⟨?_, ?_, hZero⟩ <;> linarith
  calc beyond r.x0 r.x1 (r.corner type) p.x * beyond r.x0 r.x1 (r.corner type) p.x +
        beyond r.y0 r.y1 (r.corner type) p.y * beyond r.y0 r.y1 (r.corner type) p.y
      ≤ _ := add_le_add (mul_self_le_mul_self (beyond_nonneg ..) hNear)
        (mul_self_le_mul_self (beyond_nonneg ..) hNear)
    _ ≤ _ := hp
    _ ≤ _ := mul_self_le_mul_self hNone hLess

/-- A pill that lies on its side has half circles at its ends. -/
structure Wide (r : Rect F) : Prop where
  order : r.InOrder
  wide : r.height ≤ r.width

theorem Wide.add (h : r.Wide) (v : Offset F) : (r + v).Wide := by
  refine ⟨h.order.add v, ?_⟩
  simpa only [height, width, add_offset, add_sub_add_right_eq_sub] using h.wide

theorem Wide.corner_eq (h : r.Wide) : r.corner .number = r.height / 2 := by
  rw [corner, SlotType.cornerRadius, Nat.cast_ofNat, min_eq_right h.wide, min_self]

/-- A wide pill that is centred in another one lies inside it. -/
theorem rounded_of_centred (hr : r.Wide) (hs : s.Wide) (hWithin : r.Within s)
    (hCentred : r.y0 + r.y1 = s.y0 + s.y1) (hp : (r.rounded .number).contains p = true) :
    (s.rounded .number).contains p = true := by
  obtain ⟨hLeft, hTop, hRight, hBottom⟩ := hWithin
  rw [contains_rounded_iff hr.order, hr.corner_eq] at hp
  rw [contains_rounded_iff hs.order, hs.corner_eq]
  simp only [height] at hp ⊢
  obtain ⟨small, hSmall⟩ : ∃ small, small = (r.y1 - r.y0) / 2 := ⟨_, rfl⟩
  obtain ⟨δ, hδ⟩ : ∃ δ, δ = (s.y1 - s.y0) / 2 - (r.y1 - r.y0) / 2 := ⟨_, rfl⟩
  have hLarge : (s.y1 - s.y0) / 2 = small + δ := by linarith
  have hMore : 0 ≤ δ := by linarith
  have hNone : 0 ≤ small := by linarith [hr.order.y]
  rw [← hSmall] at hp
  rw [hLarge]
  generalize hX : beyond r.x0 r.x1 small p.x = x at hp
  generalize hY : beyond r.y0 r.y1 small p.y = y at hp
  have hx : beyond s.x0 s.x1 (small + δ) p.x ≤ x + δ := by
    obtain ⟨hLow, hHigh, hZero⟩ := beyond_le_iff.mp hX.le
    apply beyond_le_iff.mpr
    refine ⟨?_, ?_, ?_⟩ <;> linarith
  have hy : beyond s.y0 s.y1 (small + δ) p.y ≤ y := by
    obtain ⟨hLow, hHigh, hZero⟩ := beyond_le_iff.mp hY.le
    apply beyond_le_iff.mpr
    refine ⟨?_, ?_, hZero⟩ <;> linarith
  have hSide : x ≤ small := by
    apply nonneg_le_nonneg_of_sq_le_sq hNone
    linarith [mul_self_nonneg y]
  calc beyond s.x0 s.x1 (small + δ) p.x * beyond s.x0 s.x1 (small + δ) p.x +
        beyond s.y0 s.y1 (small + δ) p.y * beyond s.y0 s.y1 (small + δ) p.y
      ≤ (x + δ) * (x + δ) + y * y := add_le_add (mul_self_le_mul_self (beyond_nonneg ..) hx)
        (mul_self_le_mul_self (beyond_nonneg ..) hy)
    _ = x * x + y * y + 2 * (δ * x) + δ * δ := by ring
    _ ≤ small * small + 2 * (δ * small) + δ * δ := by
        linarith [mul_le_mul_of_nonneg_left hSide hMore]
    _ = (small + δ) * (small + δ) := by ring

theorem rounded_add (h : r.InOrder) (v : Offset F) :
    ((r + v).rounded type).contains p = (r.rounded type).contains (p - v) := by
  have hBeyond (low high radius a x : F) :
      beyond (low + a) (high + a) radius x = beyond low high radius (x - a) := by
    rw [beyond, beyond]
    congr 2 <;> ring
  have hCorner : (r + v).corner type = r.corner type := by
    simp only [corner, width, height, add_offset, add_sub_add_right_eq_sub]
  rw [Bool.eq_iff_iff, contains_rounded_iff (h.add v), contains_rounded_iff h, hCorner]
  simp only [add_offset, Point.sub_offset, hBeyond]

end

end Rect

end Blockwork
