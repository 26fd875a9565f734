import Blockwork.Text.Unprintable

/-! # Quoted text

A string literal is written between double quotes with five escapes. Messages show a text in a
wider form that also spells out what has no shape of its own.
-/

set_option autoImplicit false

namespace Blockwork.Text

def literalEscape (c : Char) : List Char :=
  if c = '"' then ['\\', '"']
  else if c = '\\' then ['\\', '\\']
  else if c = '\n' then ['\\', 'n']
  else if c = '\t' then ['\\', 't']
  else if c = '\r' then ['\\', 'r']
  else [c]

def literal (s : String) : String :=
  String.ofList ('"' :: s.toList.flatMap literalEscape ++ ['"'])

def hex (width n : Nat) : String :=
  let digits := Nat.toDigits 16 n
  String.ofList (List.replicate (width - digits.length) '0' ++ digits)

def shownEscape (c : Char) : String :=
  if c = '"' then "\\\""
  else if c = '\\' then "\\\\"
  else if c = '\n' then "\\n"
  else if c = '\t' then "\\t"
  else if c = '\r' then "\\r"
  else if c = '\x00' then "\\0"
  else if isUnprintable c then "\\u\x7b" ++ hex 1 c.toNat ++ "\x7d"
  else c.toString

def shown (s : String) : String :=
  "\"" ++ String.join (s.toList.map shownEscape) ++ "\""

end Blockwork.Text
