import Blockwork.Board.Canvas
import Blockwork.Board.Palette
import Blockwork.Board.Viewport
import Blockwork.Expression.Splice

/-! # Sessions

A session holds the palette, the placed expressions with their canvas, and at most one drag. An
edit is staged on a copy of the collection and committed once every new expression lays out, so a
failed edit leaves the collection as it was. Operations answer with a value or a fault, and the
session after them.
-/

set_option autoImplicit false

namespace Blockwork

inductive Source where
  | template (index : Nat)
  | canvas (placed block : Nat)
  deriving DecidableEq, Repr

structure Collision where
  leaf : LeafRef
  agrees : Bool
  deriving DecidableEq, Repr

structure Drag (K : Type) where
  tree : BlockTree K
  owner : Option Nat
  grab : Offset K
  /-- The last pointer sample that no frame has applied. -/
  pending : Option (Point K)
  collision : Option Collision

inductive Outcome where
  | deleted (removed : Option Nat)
  | placed (id : Nat)
  /-- Put into a leaf of `target`, which was replaced by `id`. -/
  | merged (target id : Nat)
  | aborted
  deriving DecidableEq, Repr

inductive PointerEvent (K : Type) where
  | down (point : Point K)
  | move (point : Point K)
  | frame
  | up (point : Point K)
  | cancel
  | scrollCanvas (scroll : Offset K)
  | scrollPalette (scroll : Offset K)

structure Session (K : Type) where
  settings : Settings K
  style : Style K
  palette : Palette K
  placed : Collection K
  canvas : Canvas K
  viewport : Viewport K
  drag : Option (Drag K)
  framePending : Bool

variable {K : Type} [Scalar K]

namespace Drag

def expression (d : Drag K) : String := d.tree.expression

def position (d : Drag K) : Point K := d.tree.origin

def settled (d : Drag K) : Drag K :=
  match d.pending with
  | none => d
  | some p => { d with tree := { d.tree with origin := p - d.grab }, pending := none }

def withHandle (d : Drag K) (tint : Tint) : Drag K :=
  { d with tree := { d.tree with root := d.tree.root.withHandle tint } }

end Drag

structure Detached (K : Type) where
  tree : BlockTree K
  owner : Option Nat
  position : Point K

namespace Session

/-- A session with an empty canvas. The label measure is settled before the settings are checked,
and the palette is laid out last. -/
def new (settings : Settings K) (fonts : Fonts K) : Except Fault (Session K) := do
  let style ← settings.style fonts
  settings.check
  let palette ← Palette.build style settings.templates
  return {
    settings, style, palette
    placed := .empty
    canvas := .empty
    viewport := .ofWidth settings.paletteWidth
    drag := none
    framePending := false }

def isDragging (s : Session K) : Bool := s.drag.isSome

def checkStaged (s : Session K) : List (Nat × Placed K) → Except Fault Unit
  | [] => .ok ()
  | (id, p) :: rest =>
    if s.placed.contains id then s.checkStaged rest
    else
      match s.style.layOutText p.expression with
      | .error e => .error e
      | .ok _ => s.checkStaged rest

def commit (s : Session K) (next : Collection K) : Except Fault (Session K) :=
  match s.checkStaged next.entries with
  | .error e => .error e
  | .ok () => .ok { s with placed := next, canvas := .build s.style next }

def addExpression (s : Session K) (text : String) (origin : Point K) :
    Except Fault Nat × Session K :=
  match Node.read text with
  | .error e => (.error (.source e), s)
  | .ok n =>
    match s.commit (s.placed.add ⟨n.canonical, origin⟩) with
    | .error e => (.error e, s)
    | .ok after => (.ok s.placed.next, after)

/-- Lays out the canvas from the collection; what has no layout stays in the collection. -/
def refresh (s : Session K) : Session K := { s with canvas := .build s.style s.placed }

/-- Changes the collection behind the canvas's back. -/
def editPlaced (s : Session K) (edit : Collection K → Collection K) : Session K :=
  { s with placed := edit s.placed }

def scrollCanvas (s : Session K) (scroll : Offset K) : Session K :=
  { s with viewport := { s.viewport with canvasScroll := scroll } }

def scrollPalette (s : Session K) (scroll : Offset K) : Session K :=
  { s with viewport := { s.viewport with paletteScroll := scroll } }

/-- The source whose branch takes a global point. -/
def sourceAt (s : Session K) (p : Point K) : Option Source :=
  if s.viewport.isOverPalette p then
    (s.palette.hit (s.viewport.globalToPalette p)).map fun (index, _) => .template index
  else
    (s.canvas.hit (s.viewport.globalToCanvas p)).map fun (placed, block) => .canvas placed block

def grabPoint (s : Session K) : Source → Option (Point K)
  | .template index =>
    match s.palette.templates[index]? with
    | none => none
    | some t => (t.glyphPoint t.rootId).map s.viewport.paletteToGlobal
  | .canvas placed block =>
    match s.canvas.tree? placed with
    | none => none
    | some t => (t.glyphPoint block).map s.viewport.canvasToGlobal

/-- Takes a block off a placed expression. The root takes the whole expression along; any other
block leaves a placeholder of its type, and that edit is committed. -/
def detach (s : Session K) (placed block : Nat) : Except Fault (Detached K × Session K) :=
  match s.placed.get? placed, s.canvas.tree? placed with
  | some owner, some tree =>
    match tree.entry? block with
    | none => .error (.missingOwner placed)
    | some e =>
      let position := s.viewport.canvasToGlobal (tree.originOf e)
      if block = tree.rootId then .ok (⟨tree.unlit, some placed, position⟩, s)
      else do
        let frame := e.block.frame
        let edited ← frame.address.substitute owner.expression frame.type.placeholder
        let piece ← s.style.layOutText frame.expression
        let next := (s.placed.add ⟨edited, owner.origin⟩).erase placed
        let after ← s.commit next
        return (⟨piece, none, position⟩, after)
  | _, _ => .error (.missingOwner placed)

/-- Starts the drag of a detached tree with the pointer at a point. -/
def lift (s : Session K) (d : Detached K) (point : Point K) : Session K :=
  let tree := { d.tree with origin := d.position, root := d.tree.root.withBackground .dragging }
  { s with drag := some ⟨tree, d.owner, point - d.position, none, none⟩ }

/-- Starts a drag; the answer tells whether one began. A second drag, an unknown template and a
block that is gone start nothing. -/
def beginDrag (s : Session K) (source : Source) (point : Point K) :
    Except Fault Bool × Session K :=
  if s.isDragging then (.ok false, s)
  else
    match source with
    | .template index =>
      match s.palette.templates[index]? with
      | none => (.ok false, s)
      | some t =>
        match s.style.layOutText t.expression with
        | .error e => (.error e, s)
        | .ok tree =>
          (.ok true, s.lift ⟨tree, none, s.viewport.paletteToGlobal t.origin⟩ point)
    | .canvas placed block =>
      match s.detach placed block with
      | .error e => (if e.isRecoverable then .ok false else .error e, s)
      | .ok (d, after) => (.ok true, after.lift d point)

def pointerDown (s : Session K) (point : Point K) : Except Fault (Option Source) × Session K :=
  if s.isDragging then (.ok none, s)
  else
    match s.sourceAt point with
    | none => (.ok none, s)
    | some source =>
      match s.beginDrag source point with
      | (.error e, after) => (.error e, after)
      | (.ok began, after) => (.ok (if began then some source else none), after)

def pointerMove (s : Session K) (point : Point K) : Bool × Session K :=
  match s.drag with
  | none => (false, s)
  | some d =>
    let moved := { s with drag := some { d with pending := some point } }
    if s.framePending then (false, moved) else (true, { moved with framePending := true })

/-- The first leaf whose check area holds the handle of what is dragged. Nothing is met over the
palette, nor in the expression that is dragged itself. -/
def probe (s : Session K) (d : Drag K) : Option Collision :=
  if s.viewport.isOverPalette d.position then none
  else
    match d.tree.handleCenter d.tree.rootId with
    | none => none
    | some handle =>
      let point := s.viewport.globalToCanvas handle
      let free := s.canvas.leaves.filter fun l => some l.placed != d.owner
      match free.find? fun l => (s.canvas.checkArea l).any (·.contains point) with
      | none => none
      | some leaf =>
        ((s.canvas.tree? leaf.placed).bind (·.block? leaf.block)).map fun b =>
          ⟨leaf, b.frame.type = d.tree.root.frame.type⟩

def Collision.tint (c : Collision) : Tint := if c.agrees then .matched else .mismatched

def showCollision (s : Session K) (d : Drag K) : Option Collision × Session K :=
  let dark := { s with canvas := s.canvas.unlit }
  match dark.probe d with
  | none => (none, { dark with drag := some { d.withHandle .static with collision := none } })
  | some c =>
    let tint := Collision.tint c
    let canvas := dark.canvas.modify c.leaf.placed fun t =>
      t.modify c.leaf.block (Block.withRing tint ((1 : Nat) : K))
    (some c, { dark with canvas, drag := some { d.withHandle tint with collision := some c } })

/-- Applies the last pointer sample; the answer is the leaf that is met. -/
def onFrame (s : Session K) : Option Collision × Session K :=
  let s := { s with framePending := false }
  match s.drag with
  | none => (none, s)
  | some d =>
    match d.pending with
    | none => (none, s)
    | some _ => s.showCollision d.settled

/-- Puts an expression into a leaf: the target is replaced by a new entry at the same place. -/
def merge (s : Session K) (next : Collection K) (leaf : LeafRef) (text : String) :
    Except Fault (Nat × Collection K) :=
  match next.get? leaf.placed, (s.canvas.tree? leaf.placed).bind (·.block? leaf.block) with
  | some target, some block => do
    let merged ← block.frame.address.substitute target.expression text
    return (next.next, (next.add ⟨merged, target.origin⟩).erase leaf.placed)
  | _, _ => .error (.missingOwner leaf.placed)

def drop (s : Session K) (d : Drag K) : Except Fault (Outcome × Collection K) :=
  let next := s.placed
  if s.viewport.isOverPalette d.position then
    .ok (.deleted (d.owner.filter next.contains), next)
  else
    let place :=
      let p := s.viewport.globalToCanvas d.position
      let origin : Point K := ⟨p.x, max p.y s.settings.minDropY⟩
      (Outcome.placed next.next, next.add ⟨d.expression, origin⟩)
    match s.probe d with
    | some c =>
      if c.agrees then
        (s.merge next c.leaf d.expression).map fun (id, merged) =>
          (.merged c.leaf.placed id, merged)
      else .ok place
    | none => .ok place

/-- Ends the drag where its last sample put it. The drag is over before anything can fail. -/
def finishDrag (s : Session K) : Except Fault Outcome × Session K :=
  match s.drag with
  | none => (.ok .aborted, s)
  | some d =>
    let d := d.settled
    let free := { s with drag := none, framePending := false, canvas := s.canvas.unlit }
    match free.drop d with
    | .error e => (if e.isRecoverable then .ok .aborted else .error e, free)
    | .ok (outcome, next) =>
      let next := match d.owner with
        | some owner => next.erase owner
        | none => next
      match free.commit next with
      | .error e => (.error e, free)
      | .ok after => (.ok outcome, after)

def pointerUp (s : Session K) (point : Point K) : Except Fault Outcome × Session K :=
  match s.drag with
  | none => (.ok .aborted, s)
  | some d => { s with drag := some { d with pending := some point } }.finishDrag

/-- Ends the drag at the last known pointer. -/
def pointerCancel (s : Session K) : Except Fault Outcome × Session K := s.finishDrag

def dispatch (s : Session K) : PointerEvent K → Except Fault (Option Outcome) × Session K
  | .down p => let (r, after) := s.pointerDown p; (r.map fun _ => none, after)
  | .move p => (.ok none, (s.pointerMove p).2)
  | .frame => (.ok none, s.onFrame.2)
  | .up p => let (r, after) := s.pointerUp p; (r.map some, after)
  | .cancel => let (r, after) := s.pointerCancel; (r.map some, after)
  | .scrollCanvas v => (.ok none, s.scrollCanvas v)
  | .scrollPalette v => (.ok none, s.scrollPalette v)

end Session

end Blockwork
