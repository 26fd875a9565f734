import Blockwork.Scene.Basic

/-! # Scenes as SVG

One element a line, in drawing order; a label without text leaves no element. Label texts are
escaped, so they read back as they are.
-/

set_option autoImplicit false

namespace Blockwork.Svg

def number (x : Float) : String := NumeralStyle.plain.write x

def escape (c : Char) : String :=
  if c = '&' then "&amp;"
  else if c = '<' then "&lt;"
  else if c = '>' then "&gt;"
  else if c = '"' then "&quot;"
  else c.toString

def content (text : String) : String := String.join (text.toList.map escape)

def field (name value : String) : String := " " ++ name ++ "=\"" ++ value ++ "\""

def fields (pairs : List (String × String)) : String :=
  String.join (pairs.map fun (name, value) => field name value)

def element : Primitive Float → String
  | .roundRect rect radius fill opacity =>
    "  <rect" ++ fields [
      ("x", number rect.x0), ("y", number rect.y0), ("width", number rect.width),
      ("height", number rect.height), ("rx", number radius), ("fill", fill.toHex)] ++
      (if opacity < 1.0 then field "fill-opacity" (number opacity) else "") ++ "/>\n"
  | .circle center radius fill =>
    "  <circle" ++ fields [
      ("cx", number center.x), ("cy", number center.y), ("r", number radius),
      ("fill", fill.toHex)] ++ "/>\n"
  | .label text center size color =>
    if text.isEmpty then ""
    else
      "  <text" ++ fields [
        ("x", number center.x), ("y", number center.y), ("font-family", "sans-serif"),
        ("font-size", number size), ("fill", color.toHex), ("text-anchor", "middle"),
        ("dominant-baseline", "central")] ++ ">" ++ content text ++ "</text>\n"
  | .line start stop width color =>
    "  <line" ++ fields [
      ("x1", number start.x), ("y1", number start.y), ("x2", number stop.x),
      ("y2", number stop.y), ("stroke", color.toHex), ("stroke-width", number width)] ++ "/>\n"

def document (scene : Scene Float) : String :=
  let w := number scene.size.width
  let h := number scene.size.height
  "<svg" ++ fields [
    ("xmlns", "http://www.w3.org/2000/svg"), ("width", w), ("height", h),
    ("viewBox", "0 0 " ++ w ++ " " ++ h)] ++ ">\n" ++
    String.join (scene.items.map element) ++ "</svg>\n"

/-- The size that a document states, if its sides are numbers. -/
def readSize? (scene : Scene Float) : Option (Size Float) :=
  if scene.size.width.isFinite && scene.size.height.isFinite then some scene.size else none

end Blockwork.Svg
