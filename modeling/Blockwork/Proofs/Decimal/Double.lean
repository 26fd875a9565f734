import Mathlib
import Blockwork.Decimal.Written
import Blockwork.Proofs.Decimal.Nearest

/-! # Doubles and their words

A double that is not negative is given by a word up to that of infinity. The word is kept by the
double, equality of two such doubles is equality of their words, and the plain numeral of a finite
one is the shortest decimal of its word.
-/

set_option autoImplicit false

namespace Blockwork

open Float.Model Float.Model.UnpackedFloat

namespace Double

abbrev top : Nat := BinaryFormat.binary64.infinityWord

theorem top_eq : top = 2047 * 2 ^ 52 := rfl

def ofWord (word : Nat) : Float := Float.ofBits (UInt64.ofNat word)

theorem toFloat_eq_ofWord (d : Decimal) : d.toFloat = ofWord (d.toWord .binary64) := rfl

theorem toNat_unpackExponent (b : BitVec 64) :
    (@unpackExponent .binary64 b).toNat = b.toNat / 2 ^ 52 % 2 ^ 11 := by
  simp [unpackExponent_def, Nat.shiftRight_eq_div_pow]

theorem unpackExponent_ne {word : Nat} (h : word < top) :
    @unpackExponent .binary64 (BitVec.ofNat 64 word) ≠ -1#11 := by
  intro hAll
  have hExponent := toNat_unpackExponent (BitVec.ofNat 64 word)
  have hOnes : (-1#11 : BitVec 11).toNat = 2047 := rfl
  rw [hAll, BitVec.toNat_ofNat] at hExponent
  have hTop := top_eq
  omega

theorem isNaNBits_ofNat {word : Nat} (h : word ≤ top) :
    @isNaNBits .binary64 (BitVec.ofNat 64 word) = false := by
  rcases Nat.lt_or_eq_of_le h with h | rfl
  · exact decide_eq_false fun hAll => unpackExponent_ne h hAll.1
  · rfl

theorem toBitVec_ofWord {word : Nat} (h : word ≤ top) :
    (ofWord word).toBits.toBitVec = BitVec.ofNat 64 word := by
  have hPacked := @pack_unpack .binary64 (BitVec.ofNat 64 word) (by decide)
  rwa [isNaNBits_ofNat h, if_neg Bool.false_ne_true] at hPacked

theorem toNat_toBits_ofWord {word : Nat} (h : word ≤ top) : (ofWord word).toBits.toNat = word := by
  have hTop := top_eq
  have hWord := congrArg BitVec.toNat (toBitVec_ofWord h)
  rw [BitVec.toNat_ofNat, Nat.mod_eq_of_lt (by omega)] at hWord
  exact hWord

theorem ofWord_inj {v w : Nat} (hv : v ≤ top) (hw : w ≤ top) : ofWord v = ofWord w ↔ v = w := by
  constructor
  · intro h
    rw [← toNat_toBits_ofWord hv, h, toNat_toBits_ofWord hw]
  · rintro rfl
    rfl

theorem ofWord_ne {word : Nat} (h : word ≤ top) {x : Float} (hx : top < x.toBits.toNat) :
    ofWord word ≠ x := by
  rintro rfl
  rw [toNat_toBits_ofWord h] at hx
  omega

theorem ofWord_ne_nan {word : Nat} (h : word ≤ top) : ofWord word ≠ Float.nan :=
  ofWord_ne h (by decide)

theorem isNaN_ofWord {word : Nat} (h : word ≤ top) : (ofWord word).isNaN = false := by
  rw [Float.isNaN_eq_decide_eq_nan, decide_eq_false (ofWord_ne_nan h)]

theorem isFinite_ofWord {word : Nat} (h : word < top) : (ofWord word).isFinite = true := by
  change (UnpackedFloat.unpack .binary64 (ofWord word).toBits.toBitVec).isFinite = true
  rw [toBitVec_ofWord (Nat.le_of_lt h), UnpackedFloat.unpack]
  dsimp only
  rw [if_neg (unpackExponent_ne h)]
  split
  · split <;> rfl
  · rfl

theorem ofWord_top : ofWord top = 1.0 / 0.0 := by decide

theorem beq_ofWord_iff {v w : Nat} (hv : v ≤ top) (hw : w ≤ top) :
    (ofWord v == ofWord w) = true ↔ v = w := by
  have hZero : ∀ u ≤ top, ofWord u ≠ -0 := fun u hu => ofWord_ne hu (by decide)
  rw [Float.beq_iff_ne_nan_and_eq]
  simp [ofWord_ne_nan hv, ofWord_ne_nan hw, hZero v hv, hZero w hw, ofWord_inj hv hw]

theorem isNaN_nan : (0.0 / 0.0 : Float).isNaN = true := by decide

theorem nan_beq (x : Float) : ((0.0 / 0.0 : Float) == x) = false := rfl

theorem beq_nan (x : Float) : (x == (0.0 / 0.0 : Float)) = false := by
  have hNan : (0.0 / 0.0 : Float) = Float.nan := by decide
  rw [hNan, Float.beq_nan_eq_false]

theorem write_ofWord {word : Nat} (h : word < top) :
    NumeralStyle.plain.write (ofWord word) =
      NumeralStyle.plain.magnitude (Decimal.shortest .binary64 .up word) := by
  have hTop := top_eq
  have hBits := toNat_toBits_ofWord (Nat.le_of_lt h)
  have hLimit : Nat.pow 2 63 = 2 ^ 63 := rfl
  have hSign : Written.signBit (ofWord word) = false := by
    rw [Written.signBit, hBits, hLimit]
    exact decide_eq_false (by omega)
  have hWord : Written.word (ofWord word) = word := by
    rw [Written.word, hBits, hLimit]
    exact Nat.mod_eq_of_lt (by omega)
  rw [NumeralStyle.write, isNaN_ofWord (Nat.le_of_lt h), isFinite_ofWord h, hSign, hWord]
  simp only [NumeralStyle.plain, Bool.false_eq_true, if_false, if_true, String.empty_append]

end Double

end Blockwork
