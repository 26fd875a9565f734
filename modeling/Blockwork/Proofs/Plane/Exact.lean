import Mathlib.Algebra.Order.Field.Basic
import Mathlib.Tactic.Linarith
import Blockwork.Plane.Shape

/-! # Exact arithmetic

Over an ordered field sums, differences and halves are exact, so a rectangle has the edges that its
origin and its size say, and rectangles that are built from one another meet edge to edge.
-/

set_option autoImplicit false

namespace Blockwork

/-- The scalars of an ordered field. All of them are finite. -/
instance (priority := low) Scalar.ofField {F : Type} [Field F] [LinearOrder F]
    [IsStrictOrderedRing F] : Scalar F where
  decidableLT := inferInstance
  decidableLE := inferInstance
  abs x := |x|
  isFinite _ := true

structure Size.Proper {K : Type} [Scalar K] (s : Size K) : Prop where
  width : ((0 : Nat) : K) ≤ s.width
  height : ((0 : Nat) : K) ≤ s.height

theorem Size.proper_iff {F : Type} [Field F] [LinearOrder F] [IsStrictOrderedRing F] {s : Size F} :
    s.Proper ↔ 0 ≤ s.width ∧ 0 ≤ s.height := by
  constructor
  · rintro ⟨hWidth, hHeight⟩
    rw [Nat.cast_zero] at hWidth hHeight
    exact ⟨hWidth, hHeight⟩
  · rintro ⟨hWidth, hHeight⟩
    constructor <;> rwa [Nat.cast_zero]

theorem Point.add_offset {K : Type} [Scalar K] (p : Point K) (v : Offset K) :
    p + v = ⟨p.x + v.x, p.y + v.y⟩ :=
  rfl

theorem Point.sub_offset {K : Type} [Scalar K] (p : Point K) (v : Offset K) :
    p - v = ⟨p.x - v.x, p.y - v.y⟩ :=
  rfl

theorem Point.eq_of_coordinates {K : Type} {p q : Point K} (hx : p.x = q.x) (hy : p.y = q.y) :
    p = q := by
  obtain ⟨x, y⟩ := p
  obtain rfl := hx
  obtain rfl := hy
  rfl

namespace Rect

section

variable {K : Type} [Scalar K]

theorem add_offset (r : Rect K) (v : Offset K) :
    r + v = ⟨r.x0 + v.x, r.y0 + v.y, r.x1 + v.x, r.y1 + v.y⟩ :=
  rfl

/-- The rectangle lies inside another one; edges may touch. -/
def Within (r s : Rect K) : Prop :=
  s.x0 ≤ r.x0 ∧ s.y0 ≤ r.y0 ∧ r.x1 ≤ s.x1 ∧ r.y1 ≤ s.y1

def Apart (r s : Rect K) : Prop :=
  ∀ p, ¬ (r.contains p = true ∧ s.contains p = true)

def grown (r : Rect K) (margin : K) : Rect K :=
  ⟨r.x0 - margin, r.y0 - margin, r.x1 + margin, r.y1 + margin⟩

end

variable {F : Type} [Field F] [LinearOrder F] [IsStrictOrderedRing F]

theorem ofOriginSize_eq {s : Size F} (h : s.Proper) (o : Point F) :
    ofOriginSize o s = ⟨o.x, o.y, o.x + s.width, o.y + s.height⟩ := by
  obtain ⟨hWidth, hHeight⟩ := Size.proper_iff.mp h
  have hx : o.x ≤ o.x + s.width := by linarith
  have hy : o.y ≤ o.y + s.height := by linarith
  simp only [ofOriginSize, ordered, min_eq_left hx, min_eq_left hy, max_eq_right hx,
    max_eq_right hy]

theorem Within.trans {r s t : Rect F} (h : r.Within s) (hs : s.Within t) : r.Within t := by
  obtain ⟨hLeft, hTop, hRight, hBottom⟩ := h
  obtain ⟨hsLeft, hsTop, hsRight, hsBottom⟩ := hs
  exact ⟨hsLeft.trans hLeft, hsTop.trans hTop, hRight.trans hsRight, hBottom.trans hsBottom⟩

theorem within_grown (r : Rect F) {margin : F} (h : 0 ≤ margin) : r.Within (r.grown margin) := by
  simp only [Within, grown]
  refine ⟨?_, ?_, ?_, ?_⟩ <;> linarith

theorem contains_iff {r : Rect F} {p : Point F} :
    r.contains p = true ↔ r.x0 ≤ p.x ∧ p.x < r.x1 ∧ r.y0 ≤ p.y ∧ p.y < r.y1 := by
  simp only [contains, Bool.and_eq_true, decide_eq_true_eq, and_assoc]

theorem Within.contains {r s : Rect F} (h : r.Within s) {p : Point F} (hp : r.contains p = true) :
    s.contains p = true := by
  obtain ⟨hLeft, hTop, hRight, hBottom⟩ := h
  rw [contains_iff] at hp ⊢
  obtain ⟨hx0, hx1, hy0, hy1⟩ := hp
  exact ⟨hLeft.trans hx0, hx1.trans_le hRight, hTop.trans hy0, hy1.trans_le hBottom⟩

theorem contains_add (r : Rect F) (v : Offset F) (p : Point F) :
    (r + v).contains p = r.contains (p - v) := by
  rw [Bool.eq_iff_iff, contains_iff, contains_iff]
  exact and_congr le_sub_iff_add_le.symm (and_congr sub_lt_iff_lt_add.symm
    (and_congr le_sub_iff_add_le.symm sub_lt_iff_lt_add.symm))

theorem ofOriginSize_add (o : Point F) (v : Offset F) (s : Size F) :
    ofOriginSize (o + v) s = ofOriginSize o s + v := by
  rw [add_offset, Point.add_offset]
  simp only [ofOriginSize, ordered, add_right_comm o.x v.x, add_right_comm o.y v.y,
    min_add_add_right, max_add_add_right]

theorem apart_of_left {r s : Rect F} (h : r.x1 ≤ s.x0) : r.Apart s := by
  rintro p ⟨hr, hs⟩
  rw [contains_iff] at hr hs
  linarith [hr.2.1, hs.1]

theorem apart_of_above {r s : Rect F} (h : r.y1 ≤ s.y0) : r.Apart s := by
  rintro p ⟨hr, hs⟩
  rw [contains_iff] at hr hs
  linarith [hr.2.2.2, hs.2.2.1]

end Rect

variable {F : Type} [Field F] [LinearOrder F] [IsStrictOrderedRing F]

theorem Point.sub_sub_self (p q : Point F) : p - (p - q) = q :=
  eq_of_coordinates (sub_sub_cancel p.x q.x) (sub_sub_cancel p.y q.y)

theorem Point.add_sub_self (p q : Point F) : q + (p - q) = p :=
  eq_of_coordinates (add_sub_cancel q.x p.x) (add_sub_cancel q.y p.y)

theorem Point.add_zero_offset (p : Point F) : p + (Offset.zero : Offset F) = p := by
  apply eq_of_coordinates
  · exact (congrArg (p.x + ·) Nat.cast_zero).trans (add_zero p.x)
  · exact (congrArg (p.y + ·) Nat.cast_zero).trans (add_zero p.y)

theorem Point.sub_add_sub (p q : Point F) (v : Offset F) : q - v + (p - q) = p - v :=
  eq_of_coordinates (sub_add_sub_cancel' q.x v.x p.x) (sub_add_sub_cancel' q.y v.y p.y)

theorem Point.displaced {p q r : Point F} {u v w : Offset F} (h : p + u = q + v + w) :
    r + (p - q) + u = r + v + w := by
  have hx : p.x + u.x = q.x + v.x + w.x := congrArg Point.x h
  have hy : p.y + u.y = q.y + v.y + w.y := congrArg Point.y h
  apply eq_of_coordinates
  · show r.x + (p.x - q.x) + u.x = r.x + v.x + w.x
    linarith
  · show r.y + (p.y - q.y) + u.y = r.y + v.y + w.y
    linarith

end Blockwork
