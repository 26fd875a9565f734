/-! # Paths

A path is taken apart at its slashes. Empty segments and single dots stay where they are; at the
end of a path they are not part of its name.
-/

set_option autoImplicit false

namespace Blockwork.CommandLine.Path

def isAbsolute (path : String) : Bool := path.startsWith "/"

def segments (path : String) : List String := path.splitOn "/"

def isBlank (segment : String) : Bool := segment = "" || segment = "."

/-- Segments without the blank ones at the end; the first one is always kept. -/
def trimmed : List String → List String
  | [] => []
  | first :: rest => first :: (rest.reverse.dropWhile isBlank).reverse

def ofSegments (segments : List String) : String :=
  if segments = [""] then "/" else "/".intercalate segments

def parent? (path : String) : Option String :=
  match trimmed (segments path) with
  | [] => none
  | [first] => if first = "" then none else some ""
  | ss => some (ofSegments (trimmed ss.dropLast))

/-- The last segment, unless it only points to a folder. -/
def fileName? (path : String) : Option String :=
  (trimmed (segments path)).getLast?.filter fun s => !isBlank s && s != ".."

/-- What is behind the last dot of the file name; a dot at its head is no such dot. -/
def extension? (path : String) : Option String := do
  let name := (← fileName? path).toList
  let tail := (name.reverse.takeWhile (· != '.')).reverse
  if tail.length + 1 < name.length then some (String.ofList tail) else none

def isPicture (path : String) : Bool :=
  (extension? path).any fun e => e.toList.map Char.toLower = "png".toList

end Blockwork.CommandLine.Path
