import Blockwork.CommandLine.Run

/-! # A folder in memory

A host without a disk. Paths are followed step by step from one folder, whose files are held in a
list: each step but the last leads into a folder that is there. The folders around it are there
as well, with nothing known in them but the null device, which stays empty.
-/

set_option autoImplicit false

namespace Blockwork.CommandLine

inductive Origin where
  | root
  | above (levels : Nat)
  deriving DecidableEq, Repr

structure Place where
  origin : Origin
  names : List String
  deriving DecidableEq, Repr

namespace Place

def depth : Nat := 3

def outer (p : Place) : Place :=
  if p.names.isEmpty then
    match p.origin with
    | .root => p
    | .above levels => if levels + 1 < depth then ⟨.above (levels + 1), []⟩ else ⟨.root, []⟩
  else ⟨p.origin, p.names.dropLast⟩

def inner (p : Place) (name : String) : Place := ⟨p.origin, p.names ++ [name]⟩

def devices : Place := ⟨.root, ["dev"]⟩

def nullDevice : Place := devices.inner "null"

def start (path : String) : Place := ⟨if Path.isAbsolute path then .root else .above 0, []⟩

end Place

inductive Document where
  | text (content : String)
  | picture (width height : Nat)
  | folder

/-- Documents by their places. -/
structure Folder where
  documents : List (Place × Document)

namespace Folder

def nameLimit : Nat := 255

def pathLimit : Nat := 4095

def document? (f : Folder) (place : Place) : Option Document :=
  if place.names.isEmpty then some .folder
  else (f.documents.find? (·.1 = place)).map (·.2)

def put (f : Folder) (place : Place) (d : Document) : Folder :=
  ⟨f.documents.filter (·.1 ≠ place) ++ [(place, d)]⟩

def empty : Folder := ⟨[(Place.devices, .folder), (Place.nullDevice, .text "")]⟩

def enter? (f : Folder) (here : Place) (segment : String) : Option Place :=
  if Path.isBlank segment then some here
  else if segment = ".." then some here.outer
  else
    match f.document? (here.inner segment) with
    | some .folder => some (here.inner segment)
    | _ => none

/-- The place of a file. A path that ends in a slash or in dots leads to a folder. -/
def place? (f : Folder) (path : String) : Option Place :=
  match (Path.segments path).reverse with
  | [] => none
  | name :: before =>
    if Path.isBlank name || name = ".." then none
    else if nameLimit < name.utf8ByteSize || pathLimit < path.utf8ByteSize then none
    else (before.reverse.foldlM f.enter? (Place.start path)).map (·.inner name)

def file? (f : Folder) (path : String) : Option Document := do
  match ← f.document? (← f.place? path) with
  | .folder => none
  | other => some other

def write? (f : Folder) (path : String) (d : Document) : Option Folder := do
  let place ← f.place? path
  match f.document? place with
  | some .folder => none
  | _ => some (if place = Place.nullDevice then f else f.put place d)

def make? : Folder × Place → String → Option (Folder × Place)
  | (f, here), segment =>
    match f.enter? here segment, f.document? (here.inner segment) with
    | some next, _ => some (f, next)
    | none, some _ => none
    | none, none =>
      if nameLimit < segment.utf8ByteSize then none
      else some (f.put (here.inner segment) .folder, here.inner segment)

/-- The folder with another one made, and with all on the way to it. -/
def makeFolder? (f : Folder) (path : String) : Option Folder :=
  if pathLimit < path.utf8ByteSize then none
  else
    ((Path.segments path).foldlM make? (f, Place.start path)).map (·.1)

/-- A folder of files, each in folders made for it; what cannot be written is left out. -/
def ofFiles (files : List (String × String)) : Folder :=
  files.foldl (fun f (path, content) =>
    let written := do
      let f ← f.makeFolder? ((Path.parent? path).getD "")
      f.write? path (.text content)
    written.getD f) empty

def attempt (change : Folder → Option Folder) : StateM Folder Bool := do
  match change (← get) with
  | some f => set f; return true
  | none => return false

def hostWith (readSize : Scene Float → Option (Size Float)) : Host (StateM Folder) where
  readText path := do
    match (← get).file? path with
    | some (.text content) => return some content
    | _ => return none
  font path := return if ((← get).file? path).isSome then .withoutFamily else .unreadable
  makeFolder path := attempt fun f => f.makeFolder? path
  writeText path content := attempt fun f => f.write? path (.text content)
  readSize scene := return readSize scene
  writePicture path _ size := attempt fun f => f.write? path (.picture size.1 size.2)

def host : Host (StateM Folder) := hostWith Svg.readSize?

end Folder

end Blockwork.CommandLine
