import Blockwork.Expression.Token

/-! # Scanning

The text is cut into lexemes, each the longest that its first character allows, with blanks
between them. A lexeme carries the proof that it is a nonempty front part of the text it was taken
from, so scanning ends and no character is lost.
-/

set_option autoImplicit false

namespace Blockwork

structure Lexeme (source : List Char) where
  kind : TokenKind
  spelling : List Char
  rest : List Char
  spelling_ne_nil : spelling ≠ []
  spelling_append_rest : spelling ++ rest = source

theorem Lexeme.length_rest_lt {source : List Char} (l : Lexeme source) :
    l.rest.length < source.length := by
  have h := congrArg List.length l.spelling_append_rest
  have := List.length_pos_iff.mpr l.spelling_ne_nil
  simp only [List.length_append] at h
  omega

namespace Scan

/-- A front part of a text, with what is behind it. -/
structure Cut (source : List Char) where
  front : List Char
  rest : List Char
  front_append_rest : front ++ rest = source

def Cut.none (source : List Char) : Cut source := ⟨[], source, rfl⟩

def Cut.takeWhile (p : Char → Bool) (source : List Char) : Cut source :=
  ⟨source.takeWhile p, source.dropWhile p, List.takeWhile_append_dropWhile⟩

def Cut.cons (c : Char) {source : List Char} (cut : Cut source) : Cut (c :: source) :=
  ⟨c :: cut.front, cut.rest, by simp [cut.front_append_rest]⟩

def isWordStart (c : Char) : Bool := c.isAlpha || c = '_'

def isWordPart (c : Char) : Bool := c.isAlphanum || c = '_'

def fraction : (cs : List Char) → Cut cs
  | '.' :: d :: cs =>
    if d.isDigit then (Cut.takeWhile Char.isDigit (d :: cs)).cons '.' else .none _
  | cs => .none cs

def sign : (cs : List Char) → Cut cs
  | '+' :: cs => (Cut.none cs).cons '+'
  | '-' :: cs => (Cut.none cs).cons '-'
  | cs => .none cs

/-- An exponent mark, a sign and digits. Once the mark stands there, digits are required. -/
def exponent : (cs : List Char) → Option (Cut cs)
  | [] => some (.none [])
  | mark :: cs =>
    if mark = 'e' ∨ mark = 'E' then
      let signed := sign cs
      let digits := Cut.takeWhile Char.isDigit signed.rest
      if digits.front = [] then none
      else some ⟨mark :: signed.front ++ digits.front, digits.rest, by
        simp [digits.front_append_rest, signed.front_append_rest]⟩
    else some (.none (mark :: cs))

def number (offset : Nat) (c : Char) (cs : List Char) : Except SourceFault (Lexeme (c :: cs)) :=
  let whole := Cut.takeWhile Char.isDigit (c :: cs)
  let part := fraction whole.rest
  match exponent part.rest with
  | none => .error ⟨offset + whole.front.length + part.front.length, .exponentWithoutDigits⟩
  | some power =>
    let spelling := whole.front ++ (part.front ++ power.front)
    if h : spelling = [] then .error ⟨offset, .unexpectedCharacter c⟩
    else
      let value := ((Decimal.read? spelling).map Decimal.toFloat).getD 0.0
      .ok ⟨.number value, spelling, power.rest, h, by
        simp [spelling, power.front_append_rest, part.front_append_rest,
          whole.front_append_rest]⟩

def unescape : Char → Option Char
  | '"' => some '"'
  | '\'' => some '\''
  | '\\' => some '\\'
  | 'n' => some '\n'
  | 't' => some '\t'
  | 'r' => some '\r'
  | _ => none

inductive Quoted (source : List Char) where
  | closed (value : List Char) (cut : Cut source) (nonempty : cut.front ≠ [])
  | unterminated
  /-- The escape's backslash is `before` bytes behind the opening quote. -/
  | unknownEscape (before : Nat) (c : Char)

def Quoted.cons {source : List Char} (value c : Char) : Quoted source → Quoted (c :: source)
  | .closed s cut _ => .closed (value :: s) (cut.cons c) (by simp [Cut.cons])
  | .unterminated => .unterminated
  | .unknownEscape before e => .unknownEscape (c.utf8Size + before) e

def Quoted.escaped {source : List Char} (value b e : Char) :
    Quoted source → Quoted (b :: e :: source)
  | .closed s cut _ => .closed (value :: s) ((cut.cons e).cons b) (by simp [Cut.cons])
  | .unterminated => .unterminated
  | .unknownEscape before x => .unknownEscape (b.utf8Size + (e.utf8Size + before)) x

def quoted (quote : Char) : (cs : List Char) → Quoted cs
  | [] => .unterminated
  | [c] => if c = quote then .closed [] ⟨[c], [], rfl⟩ (by simp) else .unterminated
  | c :: e :: cs =>
    if c = quote then .closed [] ⟨[c], e :: cs, rfl⟩ (by simp)
    else if c = '\\' then
      match unescape e with
      | some value => (quoted quote cs).escaped value c e
      | none => .unknownEscape 0 e
    else (quoted quote (e :: cs)).cons c c

def string (offset : Nat) (c : Char) (cs : List Char) : Except SourceFault (Lexeme (c :: cs)) :=
  match quoted c cs with
  | .closed value cut _ =>
    .ok ⟨.text (String.ofList value), c :: cut.front, cut.rest, by simp,
      by simp [cut.front_append_rest]⟩
  | .unterminated => .error ⟨offset, .unterminatedText⟩
  | .unknownEscape before e => .error ⟨offset + c.utf8Size + before, .unknownEscape e⟩

def wordKind (name : String) : TokenKind :=
  if name = "and" then .and
  else if name = "or" then .or
  else if name = "xor" then .xor
  else if name = "not" then .not
  else .ident name

def word (c : Char) (cs : List Char) : Lexeme (c :: cs) :=
  let cut := (Cut.takeWhile isWordPart cs).cons c
  ⟨wordKind (String.ofList cut.front), cut.front, cut.rest, by simp [cut, Cut.cons],
    cut.front_append_rest⟩

def pairKind : Char → Char → Option TokenKind
  | '=', '=' => some .equal
  | '!', '=' => some .notEqual
  | '<', '=' => some .lessEqual
  | '>', '=' => some .greaterEqual
  | _, _ => none

def markKind : Char → Option TokenKind
  | '(' => some .leftParen
  | ')' => some .rightParen
  | ',' => some .comma
  | '+' => some .plus
  | '-' => some .minus
  | '*' => some .star
  | '/' => some .slash
  | '%' => some .percent
  | '^' => some .caret
  | '<' => some .less
  | '>' => some .greater
  | _ => none

def mark (offset : Nat) (c : Char) (cs : List Char) : Except SourceFault (Lexeme (c :: cs)) :=
  match cs with
  | d :: ds =>
    match pairKind c d with
    | some kind => .ok ⟨kind, [c, d], ds, by simp, rfl⟩
    | none => single (d :: ds)
  | [] => single []
where
  single (cs : List Char) : Except SourceFault (Lexeme (c :: cs)) :=
    match markKind c with
    | some kind => .ok ⟨kind, [c], cs, by simp, rfl⟩
    | none => .error ⟨offset, .unexpectedCharacter c⟩

def startsNumber (c : Char) : List Char → Bool
  | d :: _ => c.isDigit || (c = '.' && d.isDigit)
  | [] => c.isDigit

def lexeme (offset : Nat) (c : Char) (cs : List Char) : Except SourceFault (Lexeme (c :: cs)) :=
  if startsNumber c cs then number offset c cs
  else if c = '"' ∨ c = '\'' then string offset c cs
  else if isWordStart c then .ok (word c cs)
  else mark offset c cs

def tokens (offset : Nat) (cs : List Char) : Except SourceFault (List Token) :=
  let start := offset + (cs.takeWhile Text.isBlank).length
  match _h : cs.dropWhile Text.isBlank with
  | [] => .ok [⟨.eof, start, start⟩]
  | c :: rest =>
    match lexeme start c rest with
    | .error fault => .error fault
    | .ok l =>
      let stop := start + Text.byteLength l.spelling
      match tokens stop l.rest with
      | .error fault => .error fault
      | .ok later => .ok (⟨l.kind, start, stop⟩ :: later)
termination_by cs.length
decreasing_by
  have shorter := l.length_rest_lt
  have blanks := (List.dropWhile_suffix (p := Text.isBlank) (l := cs)).length_le
  rw [_h] at blanks
  omega

end Scan

end Blockwork
