import Blockwork.Decimal.Basic

/-! # Command-line arguments

A command follows the program's name, with options that each take a value, in the next argument or
behind an equals sign. A value in an argument of its own does not begin with a dash. The option
for settings may stand before and behind the command; the later one counts.
-/

set_option autoImplicit false

namespace Blockwork.CommandLine

inductive Command where
  | layout (expression : String)
  | addresses (expression : String)
  | transform (expression : String) (block : Nat) (replacement : String)
  | render (expression out : String) (scale : Float32) (margin : Float)
  | replay (script : String)

inductive Request where
  | version
  | help (topic : Option String)
  | run (settings : Option String) (command : Command)

namespace Request

abbrev Options := List (String × String)

inductive Scanned where
  | options (given : Options) (rest : List String)
  | version
  | help
  | misuse

/-- An argument that is no value: it begins with a dash and goes on. -/
def isFlag (arg : String) : Bool := arg.startsWith "-" && arg.length != 1

def splitOption (arg : String) : String × Option String :=
  let cs := arg.toList.drop 2
  let name := String.ofList (cs.takeWhile (· != '='))
  match cs.dropWhile (· != '=') with
  | [] => (name, none)
  | _ :: value => (name, some (String.ofList value))

structure Known where
  name : String
  takes : String → Bool

/-- An option added to those given: a known one, with a value that it takes, none of them twice. -/
def give (known : List Known) (given : Options) (name value : String) : Option Options :=
  match known.find? (·.name = name) with
  | none => none
  | some option =>
    if !option.takes value || given.any (·.1 = name) then none else some (given ++ [(name, value)])

def scan (known : List Known) (hasVersion : Bool) (given : Options) : List String → Scanned
  | [] => .options given []
  | arg :: rest =>
    if !isFlag arg then .options given (arg :: rest)
    else if arg = "--" then if rest.isEmpty then .options given [] else .misuse
    else if arg.startsWith "--" then
      match splitOption arg with
      | (name, some value) =>
        match give known given name value with
        | some given => scan known hasVersion given rest
        | none => .misuse
      | (name, none) =>
        if known.any (·.name = name) then
          match rest with
          | [] => .misuse
          | value :: rest =>
            if isFlag value then .misuse
            else match give known given name value with
              | some given => scan known hasVersion given rest
              | none => .misuse
        else if name = "help" then .help
        else if hasVersion && name = "version" then .version
        else .misuse
    else if arg.startsWith "-h" then .help
    else if hasVersion && arg.startsWith "-V" then .version
    else .misuse

def find? (given : Options) (name : String) : Option String :=
  (given.find? (·.1 = name)).map (·.2)

def number? {α : Type} (given : Options) (name : String) (standard : α) (read : Numeral → α) :
    Option α :=
  match find? given name with
  | none => some standard
  | some text => (Numeral.read? text.toList).map read

def block? (text : String) : Option Nat :=
  let (negative, digits) := match text.toList with
    | '-' :: r => (true, r)
    | '+' :: r => (false, r)
    | r => (false, r)
  let n := Decimal.ofDigits digits
  if digits.isEmpty || !digits.all Char.isDigit || UInt32.size ≤ n || (negative && n != 0) then none
  else some n

namespace Known

def text (name : String) : Known := ⟨name, fun _ => true⟩

def path (name : String) : Known := ⟨name, fun value => !value.isEmpty⟩

def number (name : String) : Known := ⟨name, fun value => (Numeral.read? value.toList).isSome⟩

def block (name : String) : Known := ⟨name, fun value => (block? value).isSome⟩

end Known

def settingsOption : Known := .path "config"

def commandOptions : List (String × List Known) := [
  ("layout", [.text "expr"]),
  ("addresses", [.text "expr"]),
  ("transform", [.text "expr", .block "block", .text "replace"]),
  ("render", [.text "expr", .path "out", .number "scale", .number "margin"]),
  ("replay", [.path "script"])]

def command? (name : String) (given : Options) : Option Command := do
  match name with
  | "layout" => return .layout (← find? given "expr")
  | "addresses" => return .addresses (← find? given "expr")
  | "transform" =>
    return .transform (← find? given "expr") (← (find? given "block").bind block?)
      (← find? given "replace")
  | "render" =>
    return .render (← find? given "expr") (← find? given "out")
      (← number? given "scale" 1.0 Numeral.toFloat32)
      (← number? given "margin" 8.0 Numeral.toFloat)
  | "replay" => return .replay (← find? given "script")
  | _ => none

/-- The request behind the name of a command; its own option for settings goes before the one in
front of it. -/
def ofCommand? (outer : Options) (name : String) (known : List Known) (rest : List String) :
    Option Request :=
  match scan (settingsOption :: known) false [] rest with
  | .options inner [] =>
    (command? name inner).map (.run (find? (inner ++ outer) settingsOption.name))
  | .options _ _ => none
  | .help => some (.help (some name))
  | .version => none
  | .misuse => none

def topics : List String := commandOptions.map (·.1) ++ ["help"]

def ofArguments? (args : List String) : Option Request :=
  match scan [settingsOption] true [] args with
  | .version => some .version
  | .help => some (.help none)
  | .misuse => none
  | .options _ [] => none
  | .options _ ["help"] => some (.help none)
  | .options _ ["help", topic] =>
    if topics.contains topic then some (.help (some topic)) else none
  | .options outer (name :: rest) =>
    match commandOptions.find? (·.1 = name) with
    | some (_, known) => ofCommand? outer name known rest
    | none => none

end Request

end Blockwork.CommandLine
