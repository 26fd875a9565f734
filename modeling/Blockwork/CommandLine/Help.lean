/-! # Help texts -/

set_option autoImplicit false

namespace Blockwork.CommandLine

def programName : String := "exprblocks"

def versionLine : String := programName ++ " 0.1.0\n"

namespace Help

def summaries : List (String × String) := [
  ("layout", "Print the block tree of an expression as JSON"),
  ("addresses", "List every block with its structural address"),
  ("transform", "Replace the sub-expression of one block and print the new expression"),
  ("render", "Draw an expression as SVG or PNG"),
  ("replay", "Feed recorded pointer events through a session and print the result as JSON")]

def settingsRow : String × String :=
  ("      --config <CONFIG>", "Configuration JSON; defaults apply when omitted")

def expressionRow : String × String := ("      --expr <EXPRESSION>", "Expression text")

/-- The usage and the option rows of each command. -/
def commands : List (String × String × List (String × String)) := [
  ("layout", "--expr <EXPRESSION>", [expressionRow]),
  ("addresses", "--expr <EXPRESSION>", [expressionRow]),
  ("transform", "--expr <EXPRESSION> --block <BLOCK> --replace <REPLACEMENT>", [
    expressionRow,
    ("      --block <BLOCK>",
      "Block id (as listed by `addresses`) whose sub-expression is replaced"),
    ("      --replace <REPLACEMENT>", "Replacement expression")]),
  ("render", "--expr <EXPRESSION> --out <OUT>", [
    expressionRow,
    ("      --out <OUT>", "Output path; `.png` rasterizes, anything else is written as SVG"),
    ("      --scale <SCALE>", "Raster scale (PNG only) [default: 1]"),
    ("      --margin <MARGIN>", "Empty space around the block [default: 8]")]),
  ("replay", "--script <SCRIPT>", [
    ("      --script <SCRIPT>",
      "Script JSON: `\x7b \"expressions\": [...], \"events\": [...] \x7d`")])]

def table (rows : List (String × String)) : String :=
  let width := (rows.map (·.1.length)).foldl max 0
  String.join (rows.map fun (left, right) =>
    left ++ String.ofList (List.replicate (width - left.length + 2) ' ') ++ right ++ "\n")

def helpSummary : String := "Print this message or the help of the given subcommand(s)"

def program : String :=
  "Usage: " ++ programName ++ " [OPTIONS] <COMMAND>\n\nCommands:\n" ++
    table (summaries.map (fun (name, about) => ("  " ++ name, about)) ++
      [("  help", helpSummary)]) ++
    "\nOptions:\n" ++
    table [settingsRow, ("  -h, --help", "Print help"), ("  -V, --version", "Print version")]

def command (name usage : String) (rows : List (String × String)) : String :=
  ((summaries.find? (·.1 = name)).map (·.2)).getD "" ++ "\n\nUsage: " ++ programName ++ " " ++
    name ++ " [OPTIONS] " ++ usage ++ "\n\nOptions:\n" ++
    table (settingsRow :: rows ++ [("  -h, --help", "Print help")])

def help : String :=
  helpSummary ++ "\n\nUsage: " ++ programName ++ " help [COMMAND]...\n\nArguments:\n" ++
    table [("  [COMMAND]...", "Print help for the subcommand(s)")]

def text : Option String → String
  | none => program
  | some "help" => help
  | some topic =>
    match commands.find? (·.1 = topic) with
    | some (name, usage, rows) => command name usage rows
    | none => program

end Help

end Blockwork.CommandLine
