import Blockwork.Block.Basic
import Blockwork.Settings

/-! # Arranging blocks

The shape of a block is a function of its label and of the sizes of its children. Atoms draw their
own padding, so a slot that holds one is narrower than the atom's block by the padding on every
side; a branch fills its slot.
-/

set_option autoImplicit false

namespace Blockwork

/-- What a parent needs to know of a child. -/
structure Occupant (K : Type) where
  size : Size K
  isLeaf : Bool
  type : SlotType

structure BranchPlan (K : Type) where
  size : Size K
  shape : BranchShape K
  offsets : List (Offset K)

variable {K : Type} [Scalar K]

def Block.occupant (b : Block K) : Occupant K := ⟨b.frame.size, b.isLeaf, b.frame.type⟩

namespace Style

def labelBox (style : Style K) (label : String) (font : K) : K :=
  let m := style.metrics
  max (m.padding + style.textWidth label font + m.padding) m.minTextWidth

def slotSize (style : Style K) (child : Occupant K) : Size K :=
  let pad := style.metrics.padding
  if child.isLeaf then
    ⟨child.size.width - pad * (2 : Nat), child.size.height - pad * (2 : Nat)⟩
  else child.size

def atom (style : Style K) (label : String) : Size K × LeafShape K :=
  let pad := style.metrics.padding
  let line := style.metrics.lineWidth
  let check : Size K := ⟨style.labelBox label style.metrics.labelFont, style.metrics.textHeight⟩
  let inset := pad + line
  let box : Size K := ⟨line + check.width + line, line + check.height + line⟩
  let size : Size K := ⟨pad + box.width + pad, pad + box.height + pad⟩
  (size, {
    ring := .ofOriginSize .origin size
    background := .ofOriginSize ⟨pad, pad⟩ box
    checkArea := .ofOriginSize ⟨inset, inset⟩ check
    label
    labelCenter := ⟨size.width / (2 : Nat), size.height / (2 : Nat)⟩ })

def beside (style : Style K) (label : String) (left right : Occupant K) : BranchPlan K :=
  let pad := style.metrics.padding
  let line := style.metrics.lineWidth
  let sign := style.metrics.operatorWidth
  let l := style.slotSize left
  let r := style.slotSize right
  let width := l.width + sign + r.width
  let height := max l.height r.height
  let event : Size K := ⟨pad + width + pad, pad + height + pad⟩
  let box : Size K := ⟨line + event.width + line, line + event.height + line⟩
  let leftHole : Rect K := .ofOriginSize ⟨pad, (event.height - l.height) / (2 : Nat)⟩ l
  let rightHole : Rect K :=
    .ofOriginSize ⟨pad + l.width + sign, (event.height - r.height) / (2 : Nat)⟩ r
  let leftOffset : Offset K :=
    if left.isLeaf then ⟨line, (line + height + line - l.height) / (2 : Nat)⟩
    else ⟨line + leftHole.x0, line + leftHole.y0⟩
  let rightOffset : Offset K :=
    if right.isLeaf then ⟨line + l.width + sign, (line + height + line - r.height) / (2 : Nat)⟩
    else ⟨line + rightHole.x0, line + rightHole.y0⟩
  let corner : Offset K := ⟨line, line⟩
  { size := box
    shape := {
      arrangement := .beside
      background := .ofOriginSize .origin box
      eventLayer := .ofOriginSize corner.toPoint event
      holes := [⟨leftHole + corner, left.type⟩, ⟨rightHole + corner, right.type⟩]
      handleCenter := ⟨line + pad / (2 : Nat), box.height / (2 : Nat)⟩
      handleRadius := pad / (2 : Nat)
      label
      labelCenter := ⟨line + pad + l.width + sign / (2 : Nat), box.height / (2 : Nat)⟩ }
    offsets := [leftOffset, rightOffset] }

/-- Slots from top to bottom: their holes within the event layer, and their children's offsets. -/
structure Column (K : Type) where
  holes : List (Hole K)
  offsets : List (Offset K)
  depth : K
  widest : K

def column (style : Style K) (labelWidth depth widest : K) : List (Occupant K) → Column K
  | [] => ⟨[], [], depth, widest⟩
  | child :: later =>
    let pad := style.metrics.padding
    let line := style.metrics.lineWidth
    let hole := style.slotSize child
    let top := pad + depth
    let offset : Offset K :=
      if child.isLeaf then ⟨labelWidth + line - pad, line + top - pad⟩
      else ⟨line + labelWidth, line + top⟩
    let rest := style.column labelWidth (depth + (hole.height + pad)) (max widest hole.width) later
    { rest with
      holes := ⟨.ofOriginSize ⟨labelWidth, top⟩ hole, child.type⟩ :: rest.holes
      offsets := offset :: rest.offsets }

def stack (style : Style K) (label : String) (children : List (Occupant K)) : BranchPlan K :=
  let pad := style.metrics.padding
  let line := style.metrics.lineWidth
  let labelWidth := pad + style.labelBox label style.metrics.operatorFont
  let slots := style.column labelWidth (0 : Nat) (0 : Nat) children
  let width := labelWidth + slots.widest
  let height := max (slots.depth - pad) ((0 : Nat) : K)
  let event : Size K := ⟨width + pad, pad + height + pad⟩
  let box : Size K := ⟨line + event.width + line, line + event.height + line⟩
  let corner : Offset K := ⟨line, line⟩
  { size := box
    shape := {
      arrangement := .stacked
      background := .ofOriginSize .origin box
      eventLayer := .ofOriginSize corner.toPoint event
      holes := slots.holes.map fun h => { h with rect := h.rect + corner }
      handleCenter := ⟨line + pad, line + pad⟩
      handleRadius := pad / (2 : Nat)
      label
      labelCenter := ⟨labelWidth / (2 : Nat), box.height / (2 : Nat)⟩ }
    offsets := slots.offsets }

/-- The plan of a branch: beside its sign if it has two operands and need not be stacked. -/
def plan (style : Style K) (label : String) (stacked : Bool) (children : List (Occupant K)) :
    BranchPlan K :=
  match children with
  | [left, right] => if stacked then style.stack label children else style.beside label left right
  | _ => style.stack label children

end Style

end Blockwork
