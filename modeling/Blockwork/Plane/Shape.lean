import Blockwork.Plane.Scalar

/-! # Points, rectangles and rounded rectangles

A rectangle holds its left and upper edges and not its right and lower ones. A rounded rectangle
holds a point when the point's excess over the inner box, from which the corners are rounded, lies
within the corner radius.
-/

set_option autoImplicit false

namespace Blockwork

structure Point (K : Type) where
  x : K
  y : K

structure Offset (K : Type) where
  x : K
  y : K

structure Size (K : Type) where
  width : K
  height : K

structure Rect (K : Type) where
  x0 : K
  y0 : K
  x1 : K
  y1 : K

variable {K : Type} [Scalar K]

namespace Point

def origin : Point K := ⟨(0 : Nat), (0 : Nat)⟩

def toOffset (p : Point K) : Offset K := ⟨p.x, p.y⟩

instance : HAdd (Point K) (Offset K) (Point K) := ⟨fun p v => ⟨p.x + v.x, p.y + v.y⟩⟩

instance : HSub (Point K) (Offset K) (Point K) := ⟨fun p v => ⟨p.x - v.x, p.y - v.y⟩⟩

instance : HSub (Point K) (Point K) (Offset K) := ⟨fun p q => ⟨p.x - q.x, p.y - q.y⟩⟩

end Point

namespace Offset

def zero : Offset K := ⟨(0 : Nat), (0 : Nat)⟩

def toPoint (v : Offset K) : Point K := ⟨v.x, v.y⟩

instance : Sub (Offset K) := ⟨fun v w => ⟨v.x - w.x, v.y - w.y⟩⟩

instance : Neg (Offset K) := ⟨fun v => ⟨-v.x, -v.y⟩⟩

end Offset

namespace Rect

def width (r : Rect K) : K := r.x1 - r.x0

def height (r : Rect K) : K := r.y1 - r.y0

def center (r : Rect K) : Point K :=
  let half : K := ((1 : Nat) : K) / ((2 : Nat) : K)
  ⟨half * (r.x0 + r.x1), half * (r.y0 + r.y1)⟩

def ordered (r : Rect K) : Rect K :=
  ⟨min r.x0 r.x1, min r.y0 r.y1, max r.x0 r.x1, max r.y0 r.y1⟩

def ofOriginSize (o : Point K) (s : Size K) : Rect K :=
  ordered ⟨o.x, o.y, o.x + s.width, o.y + s.height⟩

instance : HAdd (Rect K) (Offset K) (Rect K) :=
  ⟨fun r v => ⟨r.x0 + v.x, r.y0 + v.y, r.x1 + v.x, r.y1 + v.y⟩⟩

def union (r s : Rect K) : Rect K :=
  ⟨min r.x0 s.x0, min r.y0 s.y0, max r.x1 s.x1, max r.y1 s.y1⟩

def contains (r : Rect K) (p : Point K) : Bool :=
  r.x0 ≤ p.x && p.x < r.x1 && r.y0 ≤ p.y && p.y < r.y1

def isFinite (r : Rect K) : Bool :=
  Scalar.isFinite r.x0 && Scalar.isFinite r.y0 && Scalar.isFinite r.x1 && Scalar.isFinite r.y1

end Rect

structure RoundedRect (K : Type) where
  rect : Rect K
  radius : K

namespace RoundedRect

/-- The rounded rectangle of a radius that is at most half of the shorter side. -/
def ofRect (r : Rect K) (radius : K) : RoundedRect K :=
  let rect := r.ordered
  ⟨rect, min (Scalar.abs radius) (min rect.width rect.height / ((2 : Nat) : K))⟩

def excess (side radius distance : K) : K :=
  max (Scalar.abs distance - max (side / ((2 : Nat) : K) - radius) ((0 : Nat) : K)) ((0 : Nat) : K)

def contains (r : RoundedRect K) (p : Point K) : Bool :=
  let c := r.rect.center
  let px := excess r.rect.width r.radius (p.x - c.x)
  let py := excess r.rect.height r.radius (p.y - c.y)
  px * px + py * py ≤ r.radius * r.radius

end RoundedRect

end Blockwork
