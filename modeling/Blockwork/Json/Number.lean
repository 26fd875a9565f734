import Blockwork.Json.Basic

/-! # Numbers in JSON

A number without fraction and exponent is whole if it fits a word. Any other is a double: the
leading digits that fit a word, scaled by a power of ten in double arithmetic. So a long spelling
need not lead to the nearest double, and one beyond the doubles leads to infinity.
-/

set_option autoImplicit false

namespace Blockwork.Json

/-- Digits as they are added to a number while it stays below `2 ^ 64`: the number, and the digits
from the first one on that does not fit. -/
def fillWord (n : Nat) : List Char → Nat × List Char
  | [] => (n, [])
  | c :: cs =>
    let next := 10 * n + Decimal.digitValue c
    if next < UInt64.size then fillWord next cs else (n, c :: cs)

def wordFloat (n : Nat) : Float := (⟨n, 0⟩ : Decimal).toFloat

def tenTo (n : Nat) : Float := (⟨1, n⟩ : Decimal).toFloat

def topPower : Nat := 308

/-- A word times a power of ten, each step rounded. A divisor beyond the top power takes two
steps; after two steps of the top power nothing is left of a word. -/
def scaled (word : Nat) (power : Int) : Float :=
  let x := wordFloat word
  match power with
  | .ofNat e => if word = 0 then x else x * tenTo e
  | .negSucc e =>
    let n := e + 1
    if n ≤ topPower then x / tenTo n
    else if n ≤ 2 * topPower then x / tenTo topPower / tenTo (n - topPower)
    else 0.0

/-- The value of a number by its parts: its sign, the digits before the point, those behind it,
and the power of ten. -/
def ofParts (negative : Bool) (whole : List Char) (fraction : Option (List Char))
    (power : Option Int) : Json :=
  let signed (x : Float) : Float := if negative then -x else x
  let (word, left) := fillWord 0 whole
  match fraction, power, left with
  | none, none, [] =>
    if !negative then .integer word
    else if word = 0 ∨ Nat.pow 2 63 < word then .real (signed (wordFloat word))
    else .integer (-word)
  | _, _, _ =>
    let behind := fraction.getD []
    let (word, ignored) := fillWord word behind
    let shift : Int := left.length - (behind.length - ignored.length : Nat)
    .real (signed (scaled word (power.getD 0 + shift)))

end Blockwork.Json
