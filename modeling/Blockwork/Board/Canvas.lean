import Blockwork.Block.Tree
import Blockwork.Board.Placed

/-! # The canvas

All placed expressions laid out, each at its place. An expression without a layout is left off the
canvas and remembered; the others are as if it were not there.
-/

set_option autoImplicit false

namespace Blockwork

structure LeafRef where
  placed : Nat
  block : Nat
  deriving DecidableEq, Repr

structure CanvasEntry (K : Type) where
  id : Nat
  tree : BlockTree K

structure Canvas (K : Type) where
  entries : List (CanvasEntry K)
  skipped : List Nat

namespace Canvas

variable {K : Type} [Scalar K]

def empty : Canvas K := ⟨[], []⟩

def build (style : Style K) (placed : Collection K) : Canvas K :=
  go placed.entries
where
  go : List (Nat × Placed K) → Canvas K
    | [] => empty
    | (id, p) :: rest =>
      let later := go rest
      match style.layOutText p.expression with
      | .ok tree =>
        { later with entries := ⟨id, { tree with origin := p.origin }⟩ :: later.entries }
      | .error _ => { later with skipped := id :: later.skipped }

def tree? (c : Canvas K) (id : Nat) : Option (BlockTree K) :=
  (c.entries.find? fun e => e.id = id).map (·.tree)

def modify (c : Canvas K) (id : Nat) (change : BlockTree K → BlockTree K) : Canvas K :=
  { c with entries := go c.entries }
where
  go : List (CanvasEntry K) → List (CanvasEntry K)
    | [] => []
    | e :: rest => if e.id = id then { e with tree := change e.tree } :: rest else e :: go rest

def leaves (c : Canvas K) : List LeafRef :=
  c.entries.flatMap fun e => e.tree.leaves.map (LeafRef.mk e.id)

def checkArea (c : Canvas K) (leaf : LeafRef) : Option (Rect K) :=
  (c.tree? leaf.placed).bind fun t => t.checkArea leaf.block

/-- The topmost branch that takes a point of the canvas. -/
def hit (c : Canvas K) (p : Point K) : Option (Nat × Nat) :=
  c.entries.reverse.findSome? fun e => (e.tree.hit p).map fun b => (e.id, b)

def unlit (c : Canvas K) : Canvas K :=
  { c with entries := c.entries.map fun e => { e with tree := e.tree.unlit } }

def bounds (c : Canvas K) : Option (Rect K) :=
  match c.entries with
  | [] => none
  | e :: rest => some (rest.foldl (fun r e => r.union e.tree.bounds) e.tree.bounds)

end Canvas

end Blockwork
