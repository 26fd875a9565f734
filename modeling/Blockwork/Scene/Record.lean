import Blockwork.Plane.Record
import Blockwork.Scene.Basic

/-! # Records of scenes -/

set_option autoImplicit false

namespace Blockwork

def Primitive.toJson : Primitive Float → Json
  | .roundRect rect radius fill opacity =>
    .object [("kind", .text "round_rect"), ("rect", rect.toJson), ("radius", .real radius),
      ("fill", fill.toJson), ("opacity", .real opacity)]
  | .circle center radius fill =>
    .object [("kind", .text "circle"), ("center", center.toJson), ("radius", .real radius),
      ("fill", fill.toJson)]
  | .label text center size color =>
    .object [("kind", .text "label"), ("text", .text text), ("center", center.toJson),
      ("size_px", .real size), ("color", color.toJson)]
  | .line start stop width color =>
    .object [("kind", .text "line"), ("from", start.toJson), ("to", stop.toJson),
      ("width", .real width), ("color", color.toJson)]

def Scene.toJson (s : Scene Float) : Json :=
  .object [("size", s.size.toJson), ("items", .list (s.items.map Primitive.toJson))]

end Blockwork
