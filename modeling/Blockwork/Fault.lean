import Blockwork.Expression.Token

/-! # Faults

What can go wrong, by cause. Each cause has one wording; only a missing owner leaves a board fit
for further use without repair.
-/

set_option autoImplicit false

namespace Blockwork

inductive SettingsCause where
  | malformed
  | notPositive (field : String)
  | negative (field : String)
  | notFinite (field : String)
  | blankTemplate
  | strayTemplate (expression : String)
  | unknownSlot (text : String)
  | fontWithoutFamily
  | fontWithoutName
  | rasterScale
  | rasterSize (width height limit : Nat)
  | stated (text : String)
  deriving DecidableEq, Repr

def SettingsCause.message : SettingsCause → String
  | .malformed => "invalid config JSON"
  | .notPositive field => field ++ " must be finite and > 0"
  | .negative field => field ++ " must be finite and >= 0"
  | .notFinite field => field ++ " must be finite"
  | .blankTemplate => "palette template must be non-empty"
  | .strayTemplate e => "palette template '" ++ e ++ "' has a non-finite origin"
  | .unknownSlot text => "invalid operand slot '" ++ text ++ "'"
  | .fontWithoutFamily => "no font families registered from font bytes"
  | .fontWithoutName => "registered font family has no name"
  | .rasterScale => "raster scale must be finite and > 0"
  | .rasterSize w h limit =>
    let cap := toString limit
    "raster size too large: " ++ toString w ++ "x" ++ toString h ++
      " (max " ++ cap ++ "x" ++ cap ++ ")"
  | .stated text => text

inductive Fault where
  | source (f : SourceFault)
  | unknownOperator (name : String)
  | unknownFunction (name : String)
  | unknownValue (kind : String)
  | missingOwner (id : Nat)
  | settings (cause : SettingsCause)
  | unreadableFont (path : String)
  | unreadableDrawing

namespace Fault

def placedName (id : Nat) : String := "placed#" ++ toString id

def message : Fault → String
  | .source f => "parse error: " ++ f.message
  | .unknownOperator name => "unknown operator kind: " ++ name
  | .unknownFunction name => "unknown function kind: " ++ name
  | .unknownValue kind => "unknown value kind: " ++ kind
  | .missingOwner id => "missing owner expression: " ++ placedName id
  | .settings cause => "config error: " ++ cause.message
  | .unreadableFont path => "read font '" ++ path ++ "'"
  | .unreadableDrawing => "parse svg tree"

/-- Faults that end one step and leave the board as it is. -/
def isRecoverable : Fault → Bool
  | .missingOwner _ => true
  | _ => false

end Fault

end Blockwork
