import Blockwork.Block.Tree
import Blockwork.Board.Session

/-! # Scenes

A scene is a surface with what is drawn on it, from back to front. A block's boxes lie behind its
children, its label and its handle in front of them. A box without finite edges is left out.
-/

set_option autoImplicit false

namespace Blockwork

inductive Primitive (K : Type) where
  | roundRect (rect : Rect K) (radius : K) (fill : Color) (opacity : K)
  | circle (center : Point K) (radius : K) (fill : Color)
  | label (text : String) (center : Point K) (size : K) (color : Color)
  | line (start stop : Point K) (width : K) (color : Color)

structure Scene (K : Type) where
  size : Size K
  items : List (Primitive K)

def backgroundFill : Color := ⟨0xdddddd⟩

def dividerColor : Color := ⟨0xcecdce⟩

variable {K : Type} [Scalar K]

def Primitive.box (rect : Rect K) (radius : K) (fill : Color) (opacity : K) :
    List (Primitive K) :=
  if rect.isFinite then [.roundRect rect radius fill opacity] else []

namespace Block

def drawBox (type : SlotType) (rect : Rect K) (place : Offset K) (fill : Color) :
    List (Primitive K) :=
  Primitive.box (rect + place) (type.cornerRadius rect.height) fill (1 : Nat)

def drawRing (frame : Frame K) (shape : LeafShape K) (place : Offset K) : List (Primitive K) :=
  if ((0 : Nat) : K) < frame.highlight.ringAlpha then
    Primitive.box (shape.ring + place) (frame.type.cornerRadius shape.ring.height)
      (Color.white.tinted frame.highlight.ring.color) frame.highlight.ringAlpha
  else []

mutual

def draw (metrics : Metrics K) (parentOrigin : Point K) : Block K → List (Primitive K)
  | .leaf f s =>
    let place := (parentOrigin + f.offset).toOffset
    drawRing f s place ++ drawBox f.type s.background place backgroundFill ++
      drawBox f.type s.checkArea place .white ++
      [.label s.label (s.labelCenter + place) metrics.labelFont .black]
  | .branch f s cs =>
    let origin := parentOrigin + f.offset
    let place := origin.toOffset
    drawBox f.type s.background place backgroundFill ++
      drawBox f.type s.eventLayer place (Color.white.tinted f.highlight.background.color) ++
      drawAll metrics origin cs ++
      [.label s.label (s.labelCenter + place) metrics.operatorFont .black,
        .circle (s.handleCenter + place) s.handleRadius
          (Color.white.tinted f.highlight.handle.color)]

def drawAll (metrics : Metrics K) (parentOrigin : Point K) : List (Block K) → List (Primitive K)
  | [] => []
  | b :: bs => b.draw metrics parentOrigin ++ drawAll metrics parentOrigin bs

end

end Block

def BlockTree.draw (metrics : Metrics K) (shift : Offset K) (t : BlockTree K) :
    List (Primitive K) :=
  t.root.draw metrics (t.origin + shift)

namespace Scene

def ofTree (metrics : Metrics K) (margin : K) (t : BlockTree K) : Scene K :=
  let bounds := t.bounds
  { size := ⟨bounds.width + (2 : Nat) * margin, bounds.height + (2 : Nat) * margin⟩
    items := t.draw metrics ⟨margin - bounds.x0, margin - bounds.y0⟩ }

/-- All that a session shows on a screen: palette, divider, canvas, and on top what is dragged.
An expression that is dragged as a whole is drawn at the pointer only. -/
def ofSession (s : Session K) (size : Size K) : Scene K :=
  let metrics := s.settings.metrics
  let view := s.viewport
  let zero : K := (0 : Nat)
  let lifted := s.drag.bind Drag.owner
  { size
    items :=
      Primitive.box ⟨zero, zero, view.paletteWidth, size.height⟩ zero .white (1 : Nat) ++
      s.palette.templates.flatMap (BlockTree.draw metrics (-view.paletteScroll)) ++
      [.line ⟨view.paletteWidth, zero⟩ ⟨view.paletteWidth, size.height⟩ (1 : Nat) dividerColor] ++
      (s.canvas.entries.filter fun e => some e.id != lifted).flatMap
        (fun e => e.tree.draw metrics view.canvasOffset) ++
      match s.drag with
      | none => []
      | some d => d.tree.draw metrics .zero }

end Scene

end Blockwork
