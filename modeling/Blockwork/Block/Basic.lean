import Blockwork.Address
import Blockwork.Expression.Typing
import Blockwork.Plane.Color
import Blockwork.Plane.Shape

/-! # Blocks

A block is the box of one expression node. A leaf shows an atom; a branch shows an operator or a
call and holds one child for each operand. Shapes are given in the block's own coordinates, and a
block's offset leads from its parent's origin to its own.
-/

set_option autoImplicit false

namespace Blockwork

inductive Tint where
  | static
  | dragging
  | mismatched
  | matched
  deriving DecidableEq, Repr, Inhabited

namespace Tint

def color : Tint → Color
  | .static => ⟨0xffffff⟩
  | .dragging => ⟨0xdddddd⟩
  | .mismatched => ⟨0xf56c6c⟩
  | .matched => ⟨0x67c23a⟩

def name : Tint → String
  | .static => "static"
  | .dragging => "dragging"
  | .mismatched => "mismatch"
  | .matched => "match"

def ofName? : String → Option Tint
  | "static" => some .static
  | "dragging" => some .dragging
  | "mismatch" => some .mismatched
  | "match" => some .matched
  | _ => none

end Tint

/-- What shows of a drag on a block. It never changes a shape. -/
structure Highlight (K : Type) where
  ring : Tint
  ringAlpha : K
  background : Tint
  handle : Tint

structure LeafShape (K : Type) where
  ring : Rect K
  background : Rect K
  checkArea : Rect K
  label : String
  labelCenter : Point K

inductive Arrangement where
  | beside
  | stacked
  deriving DecidableEq, Repr

def Arrangement.name : Arrangement → String
  | .beside => "infix"
  | .stacked => "stacked"

/-- A part cut out of a branch's event layer, where the child in the slot takes over. -/
structure Hole (K : Type) where
  rect : Rect K
  type : SlotType

structure BranchShape (K : Type) where
  arrangement : Arrangement
  background : Rect K
  eventLayer : Rect K
  holes : List (Hole K)
  handleCenter : Point K
  handleRadius : K
  label : String
  labelCenter : Point K

structure Frame (K : Type) where
  offset : Offset K
  size : Size K
  /-- The slot's type for a symbol, its own for a literal, the value's for a branch. -/
  type : SlotType
  expression : String
  address : Address
  highlight : Highlight K

inductive Block (K : Type) where
  | leaf (frame : Frame K) (shape : LeafShape K)
  | branch (frame : Frame K) (shape : BranchShape K) (children : List (Block K))

/-- The corner radius of a box of some height: full for numbers, soft for strings, none for truth
values. -/
def SlotType.cornerRadius {K : Type} [Scalar K] (type : SlotType) (height : K) : K :=
  match type with
  | .number => height / (2 : Nat)
  | .string => height / (4 : Nat)
  | .boolean => (0 : Nat)

variable {K : Type} [Scalar K]

def Highlight.none : Highlight K := ⟨.static, (0 : Nat), .static, .static⟩

namespace Block

def frame : Block K → Frame K
  | .leaf f _ => f
  | .branch f _ _ => f

def isLeaf : Block K → Bool
  | .leaf _ _ => true
  | .branch _ _ _ => false

def children : Block K → List (Block K)
  | .leaf _ _ => []
  | .branch _ _ cs => cs

def leafShape? : Block K → Option (LeafShape K)
  | .leaf _ s => some s
  | .branch _ _ _ => none

def branchShape? : Block K → Option (BranchShape K)
  | .leaf _ _ => none
  | .branch _ s _ => some s

def mapFrame (f : Frame K → Frame K) : Block K → Block K
  | .leaf frame s => .leaf (f frame) s
  | .branch frame s cs => .branch (f frame) s cs

def withOffset (b : Block K) (offset : Offset K) : Block K :=
  b.mapFrame fun f => { f with offset }

def localBounds (b : Block K) : Rect K := Rect.ofOriginSize .origin b.frame.size

def withRing (tint : Tint) (alpha : K) : Block K → Block K
  | .leaf f s =>
    .leaf { f with highlight := { f.highlight with ring := tint, ringAlpha := alpha } } s
  | b => b

def withBackground (tint : Tint) : Block K → Block K
  | .branch f s cs => .branch { f with highlight := { f.highlight with background := tint } } s cs
  | b => b

def withHandle (tint : Tint) : Block K → Block K
  | .branch f s cs => .branch { f with highlight := { f.highlight with handle := tint } } s cs
  | b => b

/-- Whether the event layer, holes apart, takes a point of the block. -/
def takes (b : Block K) (p : Point K) : Bool :=
  match b with
  | .leaf _ _ => false
  | .branch f s _ =>
    (RoundedRect.ofRect s.eventLayer (f.type.cornerRadius s.eventLayer.height)).contains p &&
      !s.holes.any fun h =>
        (RoundedRect.ofRect h.rect (h.type.cornerRadius h.rect.height)).contains p

end Block

end Blockwork
