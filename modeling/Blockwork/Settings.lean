import Blockwork.Fault
import Blockwork.Plane.Shape
import Blockwork.Text.Blank

/-! # Settings

The measures of blocks, the templates of the palette, the top of the canvas and the way labels are
measured. Valid settings have positive sizes, spacing that is not negative, templates that say
something, and finite positions.
-/

set_option autoImplicit false

namespace Blockwork

structure Metrics (K : Type) where
  textHeight : K
  operatorWidth : K
  padding : K
  lineWidth : K
  minTextWidth : K
  labelFont : K
  operatorFont : K
  deriving BEq, Inhabited

structure Template (K : Type) where
  expression : String
  origin : Point K

inductive Measure (K : Type) where
  | fixedAdvance (em : K)
  | font (path : String)

structure Settings (K : Type) where
  metrics : Metrics K
  paletteWidth : K
  templates : List (Template K)
  /-- Dropped expressions never land above this height of the canvas. -/
  minDropY : K
  measure : Measure K

structure Ruler (K : Type) where
  width : String → K → K

structure Style (K : Type) where
  metrics : Metrics K
  ruler : Ruler K

/-- What a file is found to be when it is opened as a font. -/
inductive FontFile (K : Type) where
  | unreadable
  | withoutFamily
  | withoutName
  | font (shape : String → K → K)

structure Fonts (K : Type) where
  file : String → FontFile K

def Fonts.ofReadable {K : Type} (readable : String → Bool) : Fonts K :=
  ⟨fun path => if readable path then .withoutFamily else .unreadable⟩

instance {K : Type} : Coe (String → Bool) (Fonts K) := ⟨Fonts.ofReadable⟩

variable {K : Type} [Scalar K]

def Ruler.fixedAdvance (em : K) : Ruler K := ⟨fun label font => (label.length : K) * em * font⟩

instance : Coe K (Ruler K) := ⟨Ruler.fixedAdvance⟩

def Style.textWidth (style : Style K) (label : String) (font : K) : K :=
  style.ruler.width label font

/-- The widths of labels in the font of a file; a label without text takes no room. -/
def FontFile.ruler (path : String) : FontFile K → Except Fault (Ruler K)
  | .unreadable => .error (.unreadableFont path)
  | .withoutFamily => .error (.settings .fontWithoutFamily)
  | .withoutName => .error (.settings .fontWithoutName)
  | .font shape => .ok ⟨fun label font => if label.isEmpty then (0 : Nat) else shape label font⟩

def Measure.ruler (fonts : Fonts K) : Measure K → Except Fault (Ruler K)
  | .fixedAdvance em => .ok (.fixedAdvance em)
  | .font path => (fonts.file path).ruler path

namespace Settings

def standardMetrics : Metrics K where
  textHeight := (20 : Nat)
  operatorWidth := (26 : Nat)
  padding := (4 : Nat)
  lineWidth := (2 : Nat)
  minTextWidth := (26 : Nat)
  labelFont := (14 : Nat)
  operatorFont := (16 : Nat)

def standardTemplates : List (Template K) :=
  [("NaN + NaN", 12), ("NaN - NaN", 60), ("NaN * NaN", 108), ("NaN / NaN", 156),
    ("NaN > NaN", 204), ("NaN < NaN", 252), ("NaN >= NaN", 300), ("NaN <= NaN", 348),
    ("NaN == NaN", 396), ("NaN != NaN", 444), ("true and true", 492), ("true or true", 568),
    ("true xor true", 644), ("not true", 720), ("equalText(\"\", \"\")", 768)].map
    fun (expression, y) => ⟨expression, ⟨(34 : Nat), (y : Nat)⟩⟩

def standard : Settings K where
  metrics := standardMetrics
  paletteWidth := (200 : Nat)
  templates := standardTemplates
  minDropY := (10 : Nat)
  measure := .fixedAdvance ((3 : Nat) / (5 : Nat))

def style (s : Settings K) (fonts : Fonts K) : Except Fault (Style K) :=
  (s.measure.ruler fonts).map fun ruler => ⟨s.metrics, ruler⟩

def isPositive (x : K) : Bool := Scalar.isFinite x && !(x ≤ ((0 : Nat) : K))

def isNotNegative (x : K) : Bool := Scalar.isFinite x && !(x < ((0 : Nat) : K))

def checkFields (test : K → Bool) (cause : String → SettingsCause) :
    List (String × K) → Except Fault Unit
  | [] => .ok ()
  | (field, x) :: rest =>
    if test x then checkFields test cause rest else .error (.settings (cause field))

def checkTemplates : List (Template K) → Except Fault Unit
  | [] => .ok ()
  | t :: rest =>
    if Text.trim t.expression.toList = [] then .error (.settings .blankTemplate)
    else if Scalar.isFinite t.origin.x && Scalar.isFinite t.origin.y then checkTemplates rest
    else .error (.settings (.strayTemplate t.expression))

def checkMeasure : Measure K → Except Fault Unit
  | .fixedAdvance em => checkFields isPositive .notPositive [("measure.em", em)]
  | .font _ => .ok ()

def check (s : Settings K) : Except Fault Unit := do
  checkFields isPositive .notPositive [
    ("geometry.text_height", s.metrics.textHeight),
    ("geometry.op_text_width", s.metrics.operatorWidth),
    ("geometry.min_text_width", s.metrics.minTextWidth),
    ("geometry.label_font_px", s.metrics.labelFont),
    ("geometry.op_font_px", s.metrics.operatorFont)]
  checkFields isNotNegative .negative [
    ("geometry.padding", s.metrics.padding),
    ("geometry.line_width", s.metrics.lineWidth),
    ("palette.width", s.paletteWidth)]
  checkTemplates s.templates
  checkFields Scalar.isFinite .notFinite [("canvas.min_drop_y", s.minDropY)]
  checkMeasure s.measure

end Settings

end Blockwork
