import Blockwork.Decimal.Shortest

/-! # Written numbers

How the digits of a number are laid out is a record of decisions; each place that writes numbers
has one such record. The plain style is positional throughout and marks no fraction on whole
numbers.
-/

set_option autoImplicit false

namespace Blockwork

/-- The decisions of a number's text. A number is written positionally while the exponent of its
first digit lies in `least ≤ e < limit`; without bounds it always is. -/
structure NumeralStyle where
  positional : Option (Int × Int)
  wholeTail : Bool
  exponentPlus : Bool
  exponentDigits : Nat
  tie : Tie
  deriving DecidableEq, Repr

namespace NumeralStyle

def plain : NumeralStyle := ⟨none, false, false, 1, .up⟩

def zeros (n : Nat) : String := String.ofList (List.replicate n '0')

def positionally (style : NumeralStyle) (digits : List Char) (exponent : Int) : String :=
  match exponent with
  | .ofNat e => String.ofList digits ++ zeros e ++ (if style.wholeTail then ".0" else "")
  | .negSucc e =>
    let places := e + 1
    if places < digits.length then
      String.ofList (digits.take (digits.length - places)) ++ "." ++
        String.ofList (digits.drop (digits.length - places))
    else "0." ++ zeros (places - digits.length) ++ String.ofList digits

def scientifically (style : NumeralStyle) (digits : List Char) (leading : Int) : String :=
  let lead := String.ofList (digits.take 1)
  let rest := match digits.drop 1 with
    | [] => ""
    | ds => "." ++ String.ofList ds
  let size := toString leading.natAbs
  let sign := if leading < 0 then "-" else if style.exponentPlus then "+" else ""
  lead ++ rest ++ "e" ++ sign ++ zeros (style.exponentDigits - size.length) ++ size

def magnitude (style : NumeralStyle) (d : Decimal) : String :=
  let digits := (toString d.coefficient).toList
  let leading : Int := d.exponent + digits.length - 1
  let fits := match style.positional with
    | none => true
    | some (least, limit) => d.coefficient = 0 || (least ≤ leading && leading < limit)
  if fits then style.positionally digits d.exponent else style.scientifically digits leading

end NumeralStyle

namespace Written

def signBit (x : Float) : Bool := Nat.pow 2 63 ≤ x.toBits.toNat

def word (x : Float) : Nat := x.toBits.toNat % Nat.pow 2 63

end Written

def NumeralStyle.write (style : NumeralStyle) (x : Float) : String :=
  if x.isNaN then "NaN"
  else
    let sign := if Written.signBit x then "-" else ""
    if x.isFinite then
      sign ++ style.magnitude (Decimal.shortest .binary64 style.tie (Written.word x))
    else sign ++ "inf"

end Blockwork
