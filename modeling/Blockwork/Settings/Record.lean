import Blockwork.Json.Read
import Blockwork.Plane.Record
import Blockwork.Settings

/-! # The record of settings

Settings are read strictly: unknown and repeated fields, values of a wrong type and numbers beyond
the doubles are refused. Missing fields keep their standard values, so `{}` is the standard.
-/

set_option autoImplicit false

namespace Blockwork

open Json

namespace Settings

def metricsFields : List String :=
  ["text_height", "op_text_width", "padding", "line_width", "min_text_width", "label_font_px",
    "op_font_px"]

def metricsOfJson? (j : Json) : Option (Metrics Float) := do
  let m : Metrics Float := standardMetrics
  match ← j.record? false metricsFields with
  | [textHeight, operatorWidth, padding, lineWidth, minTextWidth, labelFont, operatorFont] =>
    return {
      textHeight := ← orElse m.textHeight float? textHeight
      operatorWidth := ← orElse m.operatorWidth float? operatorWidth
      padding := ← orElse m.padding float? padding
      lineWidth := ← orElse m.lineWidth float? lineWidth
      minTextWidth := ← orElse m.minTextWidth float? minTextWidth
      labelFont := ← orElse m.labelFont float? labelFont
      operatorFont := ← orElse m.operatorFont float? operatorFont }
  | _ => none

def templateOfJson? (j : Json) : Option (Template Float) := do
  match ← j.record? false ["expression", "origin"] with
  | [expression, origin] =>
    return ⟨← required text? expression, ← required Point.ofJson? origin⟩
  | _ => none

def templatesOfJson? (j : Json) : Option (List (Template Float)) := do
  (← j.list?).mapM templateOfJson?

def paletteOfJson? (j : Json) : Option (Float × List (Template Float)) := do
  let s : Settings Float := standard
  match ← j.record? false ["width", "templates"] with
  | [width, templates] =>
    return (← orElse s.paletteWidth float? width, ← orElse s.templates templatesOfJson? templates)
  | _ => none

def canvasOfJson? (j : Json) : Option Float := do
  let s : Settings Float := standard
  match ← j.record? false ["min_drop_y"] with
  | [y] => orElse s.minDropY float? y
  | _ => none

def measureOfJson? (j : Json) : Option (Measure Float) := do
  match ← j.tagged? "kind" with
  | ("fixed_advance", rest) =>
    match ← rest.record? false ["em"] with
    | [em] => return .fixedAdvance (← required float? em)
    | _ => none
  | ("font", rest) =>
    match ← rest.record? false ["path"] with
    | [path] => return .font (← required text? path)
    | _ => none
  | _ => none

def ofJson? (j : Json) : Option (Settings Float) := do
  let s : Settings Float := standard
  match ← j.record? false ["geometry", "palette", "canvas", "measure"] with
  | [geometry, palette, canvas, measure] =>
    let (paletteWidth, templates) ← orElse (s.paletteWidth, s.templates) paletteOfJson? palette
    return {
      metrics := ← orElse s.metrics metricsOfJson? geometry
      paletteWidth, templates
      minDropY := ← orElse s.minDropY canvasOfJson? canvas
      measure := ← orElse s.measure measureOfJson? measure }
  | _ => none

def ofRecord (j : Json) : Except Fault (Settings Float) :=
  match ofJson? j with
  | none => .error (.settings .malformed)
  | some s => s.check.map fun _ => s

def read (text : String) : Except Fault (Settings Float) :=
  match Json.read? text with
  | none => .error (.settings .malformed)
  | some j => ofRecord j

def toJson (s : Settings Float) : Json :=
  let m := s.metrics
  let lengths := [m.textHeight, m.operatorWidth, m.padding, m.lineWidth, m.minTextWidth,
    m.labelFont, m.operatorFont]
  let measure := match s.measure with
    | .fixedAdvance em => [("kind", .text "fixed_advance"), ("em", .real em)]
    | .font path => [("kind", .text "font"), ("path", .text path)]
  .object [
    ("geometry", .object (metricsFields.zip (lengths.map .real))),
    ("palette", .object [
      ("width", .real s.paletteWidth),
      ("templates", .list (s.templates.map fun t =>
        .object [("expression", .text t.expression), ("origin", t.origin.toJson)]))]),
    ("canvas", .object [("min_drop_y", .real s.minDropY)]),
    ("measure", .object measure)]

end Settings

end Blockwork
