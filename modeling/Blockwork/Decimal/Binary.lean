/-! # Binary formats and rounding to nearest

A magnitude of a binary floating-point format is a word: its biased exponent above its fraction.
Every finite word stands for a whole number of units, the unit being the least positive magnitude
of the format, so all comparisons with decimals happen between natural numbers.
-/

set_option autoImplicit false

namespace Blockwork

/-- A binary interchange format, given by the widths of its two fields. -/
structure BinaryFormat where
  fractionBits : Nat
  exponentBits : Nat
  deriving DecidableEq, Repr

namespace BinaryFormat

def binary64 : BinaryFormat := ⟨52, 11⟩

def binary32 : BinaryFormat := ⟨23, 8⟩

def unitScale (f : BinaryFormat) : Nat :=
  Nat.pow 2 (f.exponentBits - 1) - 2 + f.fractionBits

def infinityWord (f : BinaryFormat) : Nat :=
  (Nat.pow 2 f.exponentBits - 1) * Nat.pow 2 f.fractionBits

def units (f : BinaryFormat) (word : Nat) : Nat :=
  let step := Nat.pow 2 f.fractionBits
  if word < step then word else (step + word % step) * Nat.pow 2 (word / step - 1)

end BinaryFormat

def roundHalfEven (num den : Nat) : Nat :=
  let whole := num / den
  let rest := num % den
  if den < 2 * rest ∨ (2 * rest = den ∧ whole % 2 = 1) then whole + 1 else whole

/-- The word nearest to `num / den`, the even one of two equally near; infinity from half a step
above the largest finite word on. The step doubles with each exponent field above the first, so
the carry of a fraction rounded up to its limit lands in the next exponent field. -/
def BinaryFormat.nearest (f : BinaryFormat) (num den : Nat) : Nat :=
  let scaled := num * Nat.pow 2 f.unitScale
  let shift := (scaled / den).log2 - f.fractionBits
  min (shift * Nat.pow 2 f.fractionBits + roundHalfEven scaled (den * Nat.pow 2 shift))
    f.infinityWord

theorem roundHalfEven_mul_right (n : Nat) {den : Nat} (h : 0 < den) :
    roundHalfEven (n * den) den = n := by
  simp [roundHalfEven, Nat.mul_div_cancel n h]
  omega

end Blockwork
