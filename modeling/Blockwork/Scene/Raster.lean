import Blockwork.Scene.Basic

/-! # Raster sizes

A drawing is rasterised at a positive scale, in single precision; every side has at least one
pixel and no more than a limit.
-/

set_option autoImplicit false

namespace Blockwork.Raster

def limit : Nat := 16384

def checkScale (scale : Float32) : Except Fault Unit :=
  if scale.isFinite && 0.0 < scale then .ok () else .error (.settings .rasterScale)

def pixels (side scale : Float32) : Nat :=
  let scaled := (side * scale).ceil
  (if scaled < 1.0 then 1.0 else scaled).toUInt32.toNat

def isSide (side : Float32) : Bool := side.isFinite && 0.0 < side

/-- Width and height in pixels of a drawing of some size; no size is no drawing. -/
def dimensions (size : Option (Size Float)) (scale : Float32) : Except Fault (Nat × Nat) := do
  checkScale scale
  match size with
  | none => throw .unreadableDrawing
  | some size =>
    let width := size.width.toFloat32
    let height := size.height.toFloat32
    if isSide width && isSide height then
      let (w, h) := (pixels width scale, pixels height scale)
      if limit < w || limit < h then throw (.settings (.rasterSize w h limit))
      return (w, h)
    else throw .unreadableDrawing

end Blockwork.Raster
