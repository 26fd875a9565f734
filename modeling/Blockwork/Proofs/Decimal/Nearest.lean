import Mathlib
import Blockwork.Decimal.Shortest

/-! # Rounding recovers exact values

A quotient that is exactly the value of a finite word rounds to that word. The search for the
fewest digits accepts nothing else, and its last grid holds the exact value, so the decimal it ends
with reads back.
-/

set_option autoImplicit false

namespace Blockwork

namespace BinaryFormat

theorem units_eq (f : BinaryFormat) (word : Nat) :
    f.units word =
      if word < 2 ^ f.fractionBits then word
      else (2 ^ f.fractionBits + word % 2 ^ f.fractionBits) *
        2 ^ (word / 2 ^ f.fractionBits - 1) :=
  rfl

theorem nearest_def (f : BinaryFormat) (num den : Nat) :
    f.nearest num den =
      min (((num * 2 ^ f.unitScale / den).log2 - f.fractionBits) * 2 ^ f.fractionBits +
        roundHalfEven (num * 2 ^ f.unitScale)
          (den * 2 ^ ((num * 2 ^ f.unitScale / den).log2 - f.fractionBits))) f.infinityWord :=
  rfl

theorem units_pos {f : BinaryFormat} {word : Nat} (h : 0 < word) : 0 < f.units word := by
  rw [units_eq]
  split
  · exact h
  · exact Nat.mul_pos (by have := Nat.two_pow_pos f.fractionBits; omega) (Nat.two_pow_pos _)

theorem log2_units_sub {f : BinaryFormat} {word : Nat} (h : 0 < word) :
    (f.units word).log2 - f.fractionBits = word / 2 ^ f.fractionBits - 1 := by
  have hPow := Nat.two_pow_pos f.fractionBits
  rw [units_eq]
  split
  · rename_i hSmall
    have hLog : word.log2 < f.fractionBits := (Nat.log2_lt (by omega)).mpr hSmall
    rw [Nat.div_eq_of_lt hSmall]
    omega
  · rename_i hLarge
    have hRest := Nat.mod_lt word hPow
    generalize word / 2 ^ f.fractionBits - 1 = e
    have hLog : ((2 ^ f.fractionBits + word % 2 ^ f.fractionBits) * 2 ^ e).log2 =
        f.fractionBits + e := by
      rw [Nat.log2_eq_iff (Nat.mul_ne_zero (by omega) (Nat.ne_of_gt (Nat.two_pow_pos e)))]
      constructor
      · rw [Nat.pow_add]
        exact Nat.mul_le_mul_right _ (by omega)
      · calc
          (2 ^ f.fractionBits + word % 2 ^ f.fractionBits) * 2 ^ e
              < (2 * 2 ^ f.fractionBits) * 2 ^ e :=
            Nat.mul_lt_mul_of_pos_right (by omega) (Nat.two_pow_pos e)
          _ = 2 ^ (f.fractionBits + e + 1) := by
            rw [Nat.pow_succ, Nat.pow_add]
            ac_rfl
    rw [hLog]
    omega

theorem roundHalfEven_units {f : BinaryFormat} (word : Nat) {den : Nat} (hDen : 0 < den) :
    (word / 2 ^ f.fractionBits - 1) * 2 ^ f.fractionBits +
      roundHalfEven (f.units word * den) (den * 2 ^ (word / 2 ^ f.fractionBits - 1)) = word := by
  have hPow := Nat.two_pow_pos f.fractionBits
  rw [units_eq]
  split
  · rename_i hSmall
    rw [Nat.div_eq_of_lt hSmall]
    simp [roundHalfEven_mul_right word hDen]
  · rename_i hLarge
    have hField : 0 < word / 2 ^ f.fractionBits := Nat.div_pos (by omega) hPow
    have hWord := Nat.div_add_mod word (2 ^ f.fractionBits)
    generalize word / 2 ^ f.fractionBits = field at hField hWord ⊢
    obtain ⟨e, rfl⟩ : ∃ e, field = e + 1 := ⟨field - 1, by omega⟩
    have hExact : (2 ^ f.fractionBits + word % 2 ^ f.fractionBits) * 2 ^ e * den =
        (2 ^ f.fractionBits + word % 2 ^ f.fractionBits) * (den * 2 ^ e) := by ac_rfl
    rw [Nat.add_sub_cancel, hExact,
      roundHalfEven_mul_right _ (Nat.mul_pos hDen (Nat.two_pow_pos e))]
    rw [Nat.mul_add, Nat.mul_one, Nat.mul_comm] at hWord
    omega

/-- A quotient equal to the value of a finite word rounds to it. -/
theorem nearest_eq {f : BinaryFormat} {word num den : Nat} (hPos : 0 < word)
    (hFinite : word < f.infinityWord) (hDen : 0 < den)
    (hExact : num * 2 ^ f.unitScale = f.units word * den) : f.nearest num den = word := by
  rw [nearest_def]
  simp only [hExact, Nat.mul_div_cancel _ hDen, log2_units_sub hPos]
  rw [roundHalfEven_units word hDen]
  omega

theorem nearest_le_infinityWord (f : BinaryFormat) (num den : Nat) :
    f.nearest num den ≤ f.infinityWord := Nat.min_le_right _ _

end BinaryFormat

namespace Decimal

theorem toWord_le_infinityWord (f : BinaryFormat) (d : Decimal) :
    d.toWord f ≤ f.infinityWord := by
  unfold toWord
  split
  · exact Nat.zero_le _
  · split
    · exact Nat.le_refl _
    · split
      · exact Nat.zero_le _
      · split <;> exact f.nearest_le_infinityWord _ _

section

variable {f : BinaryFormat} {c e : Nat}

theorem toWord_whole (hc : c ≠ 0) (hSize : ¬ 400 < (e : Int)) :
    (⟨c, e⟩ : Decimal).toWord f = f.nearest (c * 10 ^ e) 1 := by
  rw [toWord, if_neg hc, if_neg hSize, if_neg (by dsimp only; omega)]
  rfl

theorem toWord_negSucc (hc : c ≠ 0) (hSize : e < 400 + c.log2) :
    (⟨c, .negSucc e⟩ : Decimal).toWord f = f.nearest c (10 ^ (e + 1)) := by
  rw [toWord, if_neg hc, if_neg (by dsimp only; omega), if_neg (by dsimp only; omega)]
  rfl

end

/-- The finest grid holds the exact value of every finite word. -/
theorem toWord_finest {f : BinaryFormat} {word : Nat} (hPos : 0 < word)
    (hFinite : word < f.infinityWord) :
    (⟨f.units word * 5 ^ f.unitScale, -(f.unitScale : Int)⟩ : Decimal).toWord f = word := by
  have hUnits : 0 < f.units word := BinaryFormat.units_pos hPos
  generalize hScale : f.unitScale = scale
  have hCoefficient : f.units word * 5 ^ scale ≠ 0 :=
    Nat.mul_ne_zero (Nat.ne_of_gt hUnits) (Nat.ne_of_gt (Nat.pow_pos (by decide)))
  have hLog : scale ≤ (f.units word * 5 ^ scale).log2 := by
    rw [Nat.le_log2 hCoefficient]
    calc
      2 ^ scale ≤ 5 ^ scale := Nat.pow_le_pow_left (by decide) _
      _ ≤ f.units word * 5 ^ scale := Nat.le_mul_of_pos_left _ hUnits
  have hTen : f.units word * 5 ^ scale * 2 ^ scale = f.units word * 10 ^ scale := by
    rw [Nat.mul_assoc, ← Nat.mul_pow]
  cases scale with
  | zero =>
    have hWhole := @toWord_whole f _ 0 hCoefficient (by decide)
    apply Eq.trans hWhole
    apply BinaryFormat.nearest_eq hPos hFinite Nat.one_pos
    rw [hScale]
    simp only [Nat.pow_zero, Nat.mul_one]
  | succ scale =>
    have hFraction := @toWord_negSucc f _ scale hCoefficient (by omega)
    apply Eq.trans hFraction
    apply BinaryFormat.nearest_eq hPos hFinite (Nat.pow_pos (by decide))
    rw [hScale, hTen]

theorem toWord_shortestFrom {f : BinaryFormat} (tie : Tie) {word : Nat} (hPos : 0 < word)
    (hFinite : word < f.infinityWord) (grid : Nat) :
    (shortestFrom f tie word grid).toWord f = word := by
  induction grid with
  | zero => exact toWord_finest hPos hFinite
  | succ grid ih =>
    rw [shortestFrom]
    split
    · rename_i c hFound
      simpa using List.find?_some hFound
    · exact ih

theorem toWord_zero (f : BinaryFormat) (e : Int) : (⟨0, e⟩ : Decimal).toWord f = 0 := rfl

theorem toWord_shortest {f : BinaryFormat} (tie : Tie) {word : Nat}
    (hFinite : word < f.infinityWord) : (shortest f tie word).toWord f = word := by
  unfold shortest
  split
  · rename_i hZero
    rw [hZero, toWord_zero]
  · rename_i hPos
    exact toWord_shortestFrom tie (Nat.pos_of_ne_zero hPos) hFinite _

/-- Zeros behind the digits and a larger exponent say the same. -/
theorem toWord_shift {f : BinaryFormat} {c e : Nat}
    (hFinite : (⟨c, e⟩ : Decimal).toWord f < f.infinityWord) :
    (⟨c * 10 ^ e, 0⟩ : Decimal).toWord f = (⟨c, e⟩ : Decimal).toWord f := by
  by_cases hc : c = 0
  · subst hc
    rw [Nat.zero_mul, toWord_zero, toWord_zero]
  · have hSize : ¬ 400 < (e : Int) := by
      intro hLarge
      simp [toWord, hc, hLarge] at hFinite
    have hProduct : c * 10 ^ e ≠ 0 :=
      Nat.mul_ne_zero hc (Nat.ne_of_gt (Nat.pow_pos (by decide)))
    have hWhole := @toWord_whole f _ 0 hProduct (by decide)
    rw [Nat.pow_zero, Nat.mul_one] at hWhole
    rw [toWord_whole hc hSize]
    exact hWhole

end Decimal

end Blockwork
