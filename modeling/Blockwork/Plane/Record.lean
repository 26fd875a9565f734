import Blockwork.Json.Write
import Blockwork.Plane.Shape
import Blockwork.Plane.Color

/-! # Records of points and rectangles -/

set_option autoImplicit false

namespace Blockwork

open Json

/-- A point has `x` and `y`; other fields do not count. -/
def Point.ofJson? (j : Json) : Option (Point Float) := do
  match ← j.record? true ["x", "y"] with
  | [x, y] => return ⟨← required float? x, ← required float? y⟩
  | _ => none

def Point.toJson (p : Point Float) : Json := .object [("x", .real p.x), ("y", .real p.y)]

def Offset.toJson (v : Offset Float) : Json := .object [("x", .real v.x), ("y", .real v.y)]

def Size.toJson (s : Size Float) : Json :=
  .object [("width", .real s.width), ("height", .real s.height)]

def Rect.toJson (r : Rect Float) : Json :=
  .object [("x0", .real r.x0), ("y0", .real r.y0), ("x1", .real r.x1), ("y1", .real r.y1)]

def Color.toJson (c : Color) : Json := ofNat c.word.toNat

end Blockwork
