import Blockwork.Decimal.Binary

/-! # Decimals

A decimal is a coefficient times a power of ten. It is read from digits, and rounded to the word
of a binary format by exact arithmetic.
-/

set_option autoImplicit false

namespace Blockwork

structure Decimal where
  coefficient : Nat
  exponent : Int
  deriving DecidableEq, Repr

namespace Decimal

/-- The word nearest to a decimal. Exponents beyond every format are settled first, so the powers
of ten that are formed stay in proportion to the coefficient. -/
def toWord (f : BinaryFormat) (d : Decimal) : Nat :=
  if d.coefficient = 0 then 0
  else if 400 < d.exponent then f.infinityWord
  else if d.exponent < -(400 + d.coefficient.log2) then 0
  else match d.exponent with
    | .ofNat e => f.nearest (d.coefficient * Nat.pow 10 e) 1
    | .negSucc e => f.nearest d.coefficient (Nat.pow 10 (e + 1))

def toFloat (d : Decimal) : Float :=
  Float.ofBits (UInt64.ofNat (d.toWord .binary64))

def toFloat32 (d : Decimal) : Float32 :=
  Float32.ofBits (UInt32.ofNat (d.toWord .binary32))

def digitValue (c : Char) : Nat := c.toNat - '0'.toNat

def ofDigits (digits : List Char) : Nat :=
  digits.foldl (fun n c => 10 * n + digitValue c) 0

def readExponent? : List Char → Option Int
  | [] => some 0
  | mark :: rest =>
    if mark = 'e' ∨ mark = 'E' then
      let (negative, digits) := match rest with
        | '-' :: r => (true, r)
        | '+' :: r => (false, r)
        | r => (false, r)
      if digits ≠ [] ∧ digits.all Char.isDigit then
        let size : Int := ofDigits digits
        some (if negative then -size else size)
      else none
    else none

/-- An unsigned numeral: digits with at most one point and at least one digit, then an optional
exponent. -/
def read? (cs : List Char) : Option Decimal :=
  let whole := cs.takeWhile Char.isDigit
  let rest := cs.dropWhile Char.isDigit
  let (fraction, rest) := match rest with
    | '.' :: r => (r.takeWhile Char.isDigit, r.dropWhile Char.isDigit)
    | r => ([], r)
  if whole = [] ∧ fraction = [] then none
  else (readExponent? rest).map fun e => ⟨ofDigits (whole ++ fraction), e - fraction.length⟩

end Decimal

inductive Numeral where
  | finite (negative : Bool) (magnitude : Decimal)
  | infinite (negative : Bool)
  | notANumber
  deriving DecidableEq, Repr

namespace Numeral

def read? (cs : List Char) : Option Numeral :=
  let (negative, body) := match cs with
    | '-' :: r => (true, r)
    | '+' :: r => (false, r)
    | r => (false, r)
  let word := String.ofList (body.map Char.toLower)
  if word = "inf" ∨ word = "infinity" then some (.infinite negative)
  else if word = "nan" then some .notANumber
  else (Decimal.read? body).map (.finite negative)

def toFloat : Numeral → Float
  | .finite negative d => if negative then -d.toFloat else d.toFloat
  | .infinite negative =>
    let top := Float.ofBits (UInt64.ofNat BinaryFormat.binary64.infinityWord)
    if negative then -top else top
  | .notANumber => 0.0 / 0.0

def toFloat32 : Numeral → Float32
  | .finite negative d => if negative then -d.toFloat32 else d.toFloat32
  | .infinite negative =>
    let top := Float32.ofBits (UInt32.ofNat BinaryFormat.binary32.infinityWord)
    if negative then -top else top
  | .notANumber => 0.0 / 0.0

end Numeral

end Blockwork
