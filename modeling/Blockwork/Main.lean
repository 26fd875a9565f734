import Blockwork.CommandLine.Run

/-! # The program

The disk as a host. No file is known as a font here, and pictures are sized but not drawn, so
writing one is refused.
-/

set_option autoImplicit false

namespace Blockwork.CommandLine

def succeeds (action : IO Unit) : IO Bool := do
  try
    action
    return true
  catch _ => return false

def disk : Host IO where
  readText path := do
    try
      return some (← IO.FS.readFile path)
    catch _ => return none
  font path := do
    if ← succeeds (do let _ ← IO.FS.readBinFile path) then return .withoutFamily
    else return .unreadable
  makeFolder path := if path.isEmpty then return true else succeeds (IO.FS.createDirAll path)
  writeText path content := succeeds (IO.FS.writeFile path content)
  readSize scene := return Svg.readSize? scene
  writePicture _ _ _ := return false

end Blockwork.CommandLine

open Blockwork.CommandLine in
def main (args : List String) : IO UInt32 := do
  let report ← disk.run args
  match report with
  | .printed output => IO.print output
  | .failed f => IO.eprintln ("Error: " ++ f.message)
  | .misused => IO.eprint (Help.text none)
  return UInt32.ofNat report.exitCode
