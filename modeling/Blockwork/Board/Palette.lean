import Blockwork.Block.Tree

/-! # The palette

The templates are laid out once, in the palette's own space. One that has no layout stops the
palette as a whole.
-/

set_option autoImplicit false

namespace Blockwork

structure Palette (K : Type) where
  templates : List (BlockTree K)

namespace Palette

variable {K : Type} [Scalar K]

def layTemplates (style : Style K) : List (Template K) → Except Fault (List (BlockTree K))
  | [] => .ok []
  | t :: rest =>
    match style.layOutText t.expression with
    | .error e => .error e
    | .ok tree =>
      match layTemplates style rest with
      | .error e => .error e
      | .ok trees => .ok ({ tree with origin := t.origin, isTemplate := true } :: trees)

def build (style : Style K) (templates : List (Template K)) : Except Fault (Palette K) :=
  (layTemplates style templates).map Palette.mk

/-- The template, and its branch, that takes a point of the palette; later templates first. -/
def hit (p : Palette K) (point : Point K) : Option (Nat × Nat) :=
  (p.templates.zipIdx.reverse).findSome? fun (t, i) => (t.hit point).map fun b => (i, b)

end Palette

end Blockwork
