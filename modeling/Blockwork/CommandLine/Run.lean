import Blockwork.Block.Record
import Blockwork.Board.Record
import Blockwork.CommandLine.Arguments
import Blockwork.CommandLine.Help
import Blockwork.CommandLine.Path
import Blockwork.Scene.Raster
import Blockwork.Scene.Svg
import Blockwork.Settings.Record

/-! # Running commands

A command talks to the files of a host: a disk, or a folder held in memory. It ends with what it
prints, or with the failure that stopped it; a failed command prints nothing.
-/

set_option autoImplicit false

namespace Blockwork.CommandLine

/-- Access to files. -/
structure Host (m : Type → Type) where
  readText : String → m (Option String)
  font : String → m (FontFile Float)
  makeFolder : String → m Bool
  writeText : String → String → m Bool
  /-- The size that a reader of drawings finds that of a scene to have, if it can be read. -/
  readSize : Scene Float → m (Option (Size Float))
  writePicture : String → Scene Float → Nat × Nat → m Bool

inductive Failure where
  | fault (f : Fault)
  | stopped (s : Walk.Stop)
  | unreadableSettings (path : String)
  | unreadableScript (path : String)
  | malformedScript (path : String)
  | noBlock (block : Nat) (expression : String)
  | noFolder (path : String)
  | unwrittenPicture (path : String)
  | unwrittenDrawing (path : String)

def Failure.message : Failure → String
  | .fault f => f.message
  | .stopped s => s.message
  | .unreadableSettings path => "read config '" ++ path ++ "'"
  | .unreadableScript path => "read script '" ++ path ++ "'"
  | .malformedScript path => "parse script '" ++ path ++ "'"
  | .noBlock block expression => "no block " ++ toString block ++ " in '" ++ expression ++ "'"
  | .noFolder path => "create output dir '" ++ path ++ "'"
  | .unwrittenPicture path => "write png '" ++ path ++ "'"
  | .unwrittenDrawing path => "write svg '" ++ path ++ "'"

inductive Report where
  | printed (output : String)
  | failed (f : Failure)
  | misused

def Report.exitCode : Report → Nat
  | .printed _ => 0
  | .failed _ => 1
  | .misused => 2

/-- The address table: number, kind, type and address of each block, between tabs. -/
def addressTable (t : BlockTree Float) : String :=
  String.join (t.entries.map fun e =>
    let kind := if e.block.isLeaf then "leaf" else "branch"
    let f := e.block.frame
    toString e.id ++ "\t" ++ kind ++ "\t" ++ f.type.name ++ "\t" ++ f.address.describe ++ "\n")

structure Script where
  expressions : List (Placed Float)
  events : List (PointerEvent Float)

def Script.eventDepth : Nat := 125

def Script.eventOfJson? (j : Json) : Option (PointerEvent Float) :=
  if j.depth ≤ eventDepth then PointerEvent.ofJson? j else none

def Script.ofJson? (j : Json) : Option Script := do
  match ← j.record? false ["expressions", "events"] with
  | [expressions, events] =>
    let readPlaced (j : Json) : Option (List (Placed Float)) := do
      (← j.list?).mapM Placed.ofJson?
    let placed ← Json.orElse [] readPlaced expressions
    let readEvents (j : Json) : Option (List (PointerEvent Float)) := do
      (← j.list?).mapM eventOfJson?
    return ⟨placed, ← Json.required readEvents events⟩
  | _ => none

namespace Script

def place (s : Session Float) : List (Placed Float) → Except Fault (Session Float)
  | [] => .ok s
  | p :: rest =>
    match s.addExpression p.expression p.origin with
    | (.error e, _) => .error e
    | (.ok _, after) => place after rest

def feed (s : Session Float) :
    List (PointerEvent Float) → Except Fault (List Outcome × Session Float)
  | [] => .ok ([], s)
  | e :: rest =>
    match s.dispatch e with
    | (.error f, _) => .error f
    | (.ok outcome, after) =>
      (feed after rest).map fun (outcomes, last) => (outcome.toList ++ outcomes, last)

def report (outcomes : List Outcome) (s : Session Float) : Json :=
  .object [
    ("outcomes", .list (outcomes.map Outcome.toJson)),
    ("expressions", .list (s.placed.entries.map fun (id, p) =>
      .object [("id", Json.ofNat id), ("expression", .text p.expression),
        ("origin", p.origin.toJson)]))]

end Script

section

variable {m : Type → Type} [Monad m]

def orFail {α : Type} (r : Except Fault α) : ExceptT Failure m α :=
  match r with
  | .ok a => pure a
  | .error f => throw (.fault f)

def insist (done : m Bool) (failure : Failure) : ExceptT Failure m Unit := do
  if !(← (done : m Bool)) then throw failure

namespace Host

def loadSettings (host : Host m) : Option String → ExceptT Failure m (Settings Float)
  | none => pure .standard
  | some path => do
    match ← (host.readText path : m _) with
    | none => throw (.unreadableSettings path)
    | some text => orFail (Settings.read text)

/-- The font files that are opened: at most the one that the settings name. -/
def fonts (host : Host m) (settings : Settings Float) : ExceptT Failure m (Fonts Float) := do
  match settings.measure with
  | .fixedAdvance _ => return ⟨fun _ => .unreadable⟩
  | .font path =>
    let file ← (host.font path : m _)
    return ⟨fun p => if p = path then file else .unreadable⟩

def fill (host : Host m) (settings : Settings Float) (expression : String) :
    ExceptT Failure m (Arena Float) := do
  let style ← orFail (settings.style (← host.fonts settings))
  match style.fillText expression with
  | .ok arena => return arena
  | .error s => throw (.stopped s)

def layOut (host : Host m) (settings : Settings Float) (expression : String) :
    ExceptT Failure m (BlockTree Float) := do
  let style ← orFail (settings.style (← host.fonts settings))
  orFail (style.layOutText expression)

def render (host : Host m) (settings : Settings Float) (expression out : String)
    (scale : Float32) (margin : Float) : ExceptT Failure m Unit := do
  let tree ← host.layOut settings expression
  let scene := Scene.ofTree settings.metrics margin tree
  match Path.parent? out with
  | some folder => insist (host.makeFolder folder) (.noFolder folder)
  | none => pure ()
  if Path.isPicture out then
    let found ← (host.readSize scene : m _)
    let size ← orFail (Raster.dimensions found scale)
    insist (host.writePicture out scene size) (.unwrittenPicture out)
  else insist (host.writeText out (Svg.document scene)) (.unwrittenDrawing out)

def replay (host : Host m) (settings : Settings Float) (path : String) :
    ExceptT Failure m String := do
  match ← (host.readText path : m _) with
  | none => throw (.unreadableScript path)
  | some text =>
    match (Json.read? text).bind Script.ofJson? with
    | none => throw (.malformedScript path)
    | some script =>
      let session ← orFail (Session.new settings (← host.fonts settings))
      let placed ← orFail (Script.place session script.expressions)
      let (outcomes, last) ← orFail (Script.feed placed script.events)
      return (Script.report outcomes last).pretty ++ "\n"

def perform (host : Host m) (settings : Settings Float) : Command → ExceptT Failure m String
  | .layout expression => do
    return (← host.fill settings expression).toJson.pretty ++ "\n"
  | .addresses expression => do
    return addressTable (← host.layOut settings expression)
  | .transform expression block replacement => do
    let tree ← host.layOut settings expression
    match tree.block? block with
    | none => throw (.noBlock block expression)
    | some b =>
      return (← orFail (b.frame.address.substitute expression replacement)) ++ "\n"
  | .render expression out scale margin => do
    host.render settings expression out scale margin
    return ""
  | .replay script => host.replay settings script

def run (host : Host m) (args : List String) : m Report := do
  match Request.ofArguments? args with
  | none => return .misused
  | some .version => return .printed versionLine
  | some (.help topic) => return .printed (Help.text topic)
  | some (.run path command) =>
    let work : ExceptT Failure m String := do
      let settings ← host.loadSettings path
      host.perform settings command
    match ← work.run with
    | .ok output => return .printed output
    | .error f => return .failed f

end Host

end

end Blockwork.CommandLine
