import Blockwork.Decimal.Basic

/-! # Fewest digits that read back

A finite word is written with the coarsest power-of-ten grid that holds a decimal reading back to
it. On each grid only the two neighbours of the exact value are tried, the nearer one first; the
finest grid holds the exact value itself, so the search always ends with a decimal.
-/

set_option autoImplicit false

namespace Blockwork

inductive Tie where
  | up
  | toEven
  deriving DecidableEq, Repr

def Tie.takesLower : Tie → Nat → Bool
  | .up, _ => false
  | .toEven, low => low % 2 = 0

namespace Decimal

/-- The multiples of `10 ^ p` next to the value of a word, as coefficients, the nearer one first. -/
def neighbours (f : BinaryFormat) (tie : Tie) (word : Nat) (p : Int) : List Nat :=
  let (num, den) := match p with
    | .ofNat e => (f.units word, Nat.pow 2 f.unitScale * Nat.pow 10 e)
    | .negSucc e => (f.units word * Nat.pow 10 (e + 1), Nat.pow 2 f.unitScale)
  let low := num / den
  let rest := num % den
  if rest = 0 then [low]
  else if 2 * rest < den ∨ (2 * rest = den ∧ tie.takesLower low) then [low, low + 1]
  else [low + 1, low]

def shortestFrom (f : BinaryFormat) (tie : Tie) (word : Nat) : Nat → Decimal
  | 0 => ⟨f.units word * Nat.pow 5 f.unitScale, -(f.unitScale : Int)⟩
  | k + 1 =>
    let p : Int := (k + 1 : Nat) - (f.unitScale : Int)
    match (neighbours f tie word p).find? fun c => (⟨c, p⟩ : Decimal).toWord f = word with
    | some c => ⟨c, p⟩
    | none => shortestFrom f tie word k

def coarsestGrid (f : BinaryFormat) (word : Nat) : Nat :=
  let log2 : Int := (f.units word).log2 + 1 - (f.unitScale : Int)
  (f.unitScale + log2 * 30103 / 100000 + 2).toNat

/-- The decimal of fewest digits that reads back to a finite word. -/
def shortest (f : BinaryFormat) (tie : Tie) (word : Nat) : Decimal :=
  if word = 0 then ⟨0, 0⟩ else shortestFrom f tie word (coarsestGrid f word)

end Decimal

end Blockwork
