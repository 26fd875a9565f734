import Blockwork.Block.Tree

/-! # The arena of a layout

A layout can be had as one array. Its cells name each other by number: a cell is numbered by the
size of the array and pushed behind its children, into which its number and their offsets are then
written. Leaves and branches are listed apart, and the root is marked at the end.
-/

set_option autoImplicit false

namespace Blockwork

inductive CellShape (K : Type) where
  | leaf (shape : LeafShape K)
  | branch (shape : BranchShape K)

structure CellFlags where
  isLeaf : Bool
  isRoot : Bool
  isTemplate : Bool

/-- A block in an array of blocks. -/
structure Cell (K : Type) where
  id : Nat
  parent : Option Nat
  children : List Nat
  offset : Offset K
  size : Size K
  shape : CellShape K
  type : SlotType
  flags : CellFlags
  expression : String
  address : Address
  highlight : Highlight K

def Cell.occupant {K : Type} (c : Cell K) : Occupant K := ⟨c.size, c.flags.isLeaf, c.type⟩

def Cell.bare {K : Type} (c : Cell K) : Block K :=
  let frame := ⟨c.offset, c.size, c.type, c.expression, c.address, c.highlight⟩
  match c.shape with
  | .leaf s => .leaf frame s
  | .branch s => .branch frame s []

structure Arena (K : Type) where
  cells : Array (Cell K)
  root : Nat
  origin : Point K
  leaves : Array Nat
  branches : Array Nat

def Arena.cell? {K : Type} (a : Arena K) (id : Nat) : Option (Cell K) := a.cells[id]?

structure Walk (K : Type) where
  cells : Array (Cell K)
  leaves : Array Nat
  branches : Array Nat

namespace Walk

inductive Stop where
  | fault (e : Fault)
  | full
  | missing (id : Nat)

def Stop.message : Stop → String
  | .fault e => e.message
  | .full => "block arena exceeds u32 ids"
  | .missing id => "no block " ++ toString id

def capacity : Nat := UInt32.size

variable {K : Type}

def empty : Walk K := ⟨#[], #[], #[]⟩

def nextId (w : Walk K) : Except Stop Nat :=
  if w.cells.size < capacity then .ok w.cells.size else .error .full

def cell (w : Walk K) (id : Nat) : Except Stop (Cell K) :=
  match w.cells[id]? with
  | some c => .ok c
  | none => .error (.missing id)

def occupants (w : Walk K) : List Nat → Except Stop (List (Occupant K))
  | [] => .ok []
  | id :: ids => do
    let c ← w.cell id
    return c.occupant :: (← w.occupants ids)

/-- Writes the parent's number and their offsets into children. -/
def adopt (parent : Nat) (w : Walk K) : List (Nat × Offset K) → Except Stop (Walk K)
  | [] => .ok w
  | (id, offset) :: rest => do
    let c ← w.cell id
    let cells := w.cells.setIfInBounds id { c with parent := some parent, offset }
    adopt parent { w with cells } rest

variable [Scalar K]

def pushLeaf (style : Style K) (label : String) (type : SlotType) (expression : String)
    (address : Address) (w : Walk K) : Except Stop (Nat × Walk K) := do
  let (size, shape) := style.atom label
  let id ← w.nextId
  let cell : Cell K := {
    id, size, type, expression, address
    parent := none
    children := []
    offset := .zero
    shape := .leaf shape
    flags := ⟨true, false, false⟩
    highlight := .none }
  return (id, { w with cells := w.cells.push cell, leaves := w.leaves.push id })

def pushBranch (style : Style K) (label : String) (stacked : Bool) (type : SlotType)
    (expression : String) (address : Address) (children : List Nat) (w : Walk K) :
    Except Stop (Nat × Walk K) := do
  let plan := style.plan label stacked (← w.occupants children)
  let id ← w.nextId
  let w ← w.adopt id (children.zip plan.offsets)
  let cell : Cell K := {
    id, children, type, expression, address
    parent := none
    offset := .zero
    size := plan.size
    shape := .branch plan.shape
    flags := ⟨false, false, false⟩
    highlight := .none }
  return (id, { w with cells := w.cells.push cell, branches := w.branches.push id })

end Walk

variable {K : Type} [Scalar K]

namespace Node

mutual

/-- Pushes the cells of a node below a parent, and answers the number of the last one. -/
def fill (style : Style K) (above : Option Parent) (trail : Address) (w : Walk K) :
    Node → Except Walk.Stop (Nat × Walk K)
  | .group inner => inner.fill style above trail w
  | .symbol name => do
    let type ← (operandType (above.map Parent.node)).mapError .fault
    w.pushLeaf style name type name (trail.extended (Parent.step name above))
  | .literal v => do
    let type ← v.slotType.mapError .fault
    let text := v.canonical
    w.pushLeaf style v.label type text (trail.extended (Parent.step text above))
  | .operator op ns => do
    let node := Node.operator op ns
    let text := node.canonical
    let address := trail.extended (Parent.step text above)
    let type ← node.resultType.mapError .fault
    let stacked ← (op.stacking ns.length).mapError .fault
    let (children, w) ← fillAll style node text address 0 w ns
    w.pushBranch style op.symbol stacked type text address children
  | .call name ns => do
    let node := Node.call name ns
    let text := node.canonical
    let address := trail.extended (Parent.step text above)
    if !isTextEquality name then throw (.fault (.unknownFunction name))
    let type ← node.resultType.mapError .fault
    let (children, w) ← fillAll style node text address 0 w ns
    w.pushBranch style name true type text address children

def fillAll (style : Style K) (node : Node) (text : String) (trail : Address) (k : Nat)
    (w : Walk K) : List Node → Except Walk.Stop (List Nat × Walk K)
  | [] => .ok ([], w)
  | n :: ns => do
    let (first, w) ← n.fill style (some ⟨node, text, k⟩) trail w
    let (rest, w) ← fillAll style node text trail (k + 1) w ns
    return (first :: rest, w)

end

end Node

def Style.fill (style : Style K) (n : Node) : Except Walk.Stop (Arena K) := do
  let (root, w) ← n.fill style none .empty .empty
  let c ← w.cell root
  let cells := w.cells.setIfInBounds root { c with flags := { c.flags with isRoot := true } }
  return ⟨cells, root, .origin, w.leaves, w.branches⟩

def Style.fillText (style : Style K) (text : String) : Except Walk.Stop (Arena K) :=
  match Node.read text with
  | .error e => .error (.fault (.source e))
  | .ok n => style.fill n

namespace Arena

-- In a tree a way up or down passes no cell twice, so it has no more steps than there are cells.

def climb (a : Arena K) : Nat → Point K → Option Nat → Option (Point K)
  | _, p, none => some p
  | 0, _, some _ => none
  | steps + 1, p, some id => do
    let c ← a.cell? id
    a.climb steps (p + c.offset) c.parent

def blockOrigin (a : Arena K) (id : Nat) : Option (Point K) :=
  a.climb a.cells.size a.origin (some id)

def hitFrom (a : Arena K) : Nat → Point K → Nat → Option Nat
  | 0, _, _ => none
  | steps + 1, p, id => do
    let c ← a.cell? id
    let here := p - c.offset
    if c.bare.localBounds.contains here then
      (c.children.reverse.findSome? (a.hitFrom steps here)).or
        (if c.bare.takes here then some id else none)
    else none

def hit (a : Arena K) (p : Point K) : Option Nat :=
  a.hitFrom a.cells.size (p - a.origin.toOffset) a.root

end Arena

def Entry.cell {K : Type} (e : Entry K) (isRoot isTemplate : Bool) : Cell K :=
  let f := e.block.frame
  { id := e.id
    parent := e.parent
    children := e.children
    offset := f.offset
    size := f.size
    shape := match e.block with
      | .leaf _ s => .leaf s
      | .branch _ s _ => .branch s
    type := f.type
    flags := ⟨e.block.isLeaf, isRoot, isTemplate⟩
    expression := f.expression
    address := f.address
    highlight := f.highlight }

namespace BlockTree

def cell (t : BlockTree K) (e : Entry K) : Cell K := e.cell e.parent.isNone t.isTemplate

def arena (t : BlockTree K) : Arena K :=
  ⟨(t.entries.map t.cell).toArray, t.rootId, t.origin, t.leaves.toArray, t.branches.toArray⟩

end BlockTree

end Blockwork
