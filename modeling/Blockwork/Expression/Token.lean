import Blockwork.Decimal.Written
import Blockwork.Text.Quoted
import Blockwork.Text.Blank

/-! # Tokens and their faults

A token is a kind with the byte range of its lexeme. A fault of the source names its cause and the
byte where it was noticed.
-/

set_option autoImplicit false

namespace Blockwork

inductive TokenKind where
  | ident (name : String)
  | number (x : Float)
  | text (s : String)
  | leftParen | rightParen | comma
  | plus | minus | star | slash | percent | caret
  | equal | notEqual | less | lessEqual | greater | greaterEqual
  | and | or | xor | not
  | eof

structure Token where
  kind : TokenKind
  start : Nat
  stop : Nat

def TokenKind.numeralStyle : NumeralStyle := ⟨some (-4, 16), true, false, 1, .up⟩

def TokenKind.label : TokenKind → String
  | .ident name => "Ident(" ++ Text.shown name ++ ")"
  | .number x => "Number(" ++ numeralStyle.write x ++ ")"
  | .text s => "Str(" ++ Text.shown s ++ ")"
  | .leftParen => "LParen"
  | .rightParen => "RParen"
  | .comma => "Comma"
  | .plus => "Plus"
  | .minus => "Minus"
  | .star => "Star"
  | .slash => "Slash"
  | .percent => "Percent"
  | .caret => "Caret"
  | .equal => "EqEq"
  | .notEqual => "Ne"
  | .less => "Lt"
  | .lessEqual => "Le"
  | .greater => "Gt"
  | .greaterEqual => "Ge"
  | .and => "And"
  | .or => "Or"
  | .xor => "Xor"
  | .not => "Not"
  | .eof => "Eof"

inductive SourceCause where
  | empty
  | exponentWithoutDigits
  | unknownEscape (c : Char)
  | unterminatedText
  | unexpectedCharacter (c : Char)
  | unexpectedToken (found : TokenKind)
  | expected (wanted found : TokenKind)

def SourceCause.message : SourceCause → String
  | .empty => "empty expression"
  | .exponentWithoutDigits => "exponent needs digits"
  | .unknownEscape c => "unknown escape sequence '\\" ++ c.toString ++ "'"
  | .unterminatedText => "unterminated string literal"
  | .unexpectedCharacter c => "unexpected character '" ++ c.toString ++ "'"
  | .unexpectedToken found => "unexpected token " ++ found.label
  | .expected wanted found => "expected " ++ wanted.label ++ ", found " ++ found.label

/-- A malformed source; the offset counts bytes of the trimmed text. -/
structure SourceFault where
  offset : Nat
  cause : SourceCause

def SourceFault.message (f : SourceFault) : String :=
  "at byte " ++ toString f.offset ++ ": " ++ f.cause.message

end Blockwork
