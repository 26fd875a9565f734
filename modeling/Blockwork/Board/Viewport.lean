import Blockwork.Plane.Shape

/-! # The viewport

The screen has a palette column on the left and the canvas on its right, each scrolled on its own.
Global coordinates are those of the screen.
-/

set_option autoImplicit false

namespace Blockwork

structure Viewport (K : Type) where
  paletteWidth : K
  paletteScroll : Offset K
  canvasScroll : Offset K

namespace Viewport

variable {K : Type} [Scalar K]

def ofWidth (paletteWidth : K) : Viewport K := ⟨paletteWidth, .zero, .zero⟩

def isOverPalette (v : Viewport K) (p : Point K) : Bool := p.x < v.paletteWidth

def paletteToGlobal (v : Viewport K) (p : Point K) : Point K := p - v.paletteScroll

def globalToPalette (v : Viewport K) (p : Point K) : Point K := p + v.paletteScroll

def canvasToGlobal (v : Viewport K) (p : Point K) : Point K :=
  ⟨v.paletteWidth + p.x - v.canvasScroll.x, p.y - v.canvasScroll.y⟩

def globalToCanvas (v : Viewport K) (p : Point K) : Point K :=
  ⟨p.x + v.canvasScroll.x - v.paletteWidth, p.y + v.canvasScroll.y⟩

def canvasOffset (v : Viewport K) : Offset K :=
  (⟨v.paletteWidth, (0 : Nat)⟩ : Offset K) - v.canvasScroll

end Viewport

end Blockwork
