import Blockwork.Decimal.Written
import Blockwork.Proofs.Decimal.Nearest

/-! # Plain numerals read back

A numeral of the plain style is a run of digits, or two runs around a point. Read as a decimal it
rounds to the word that it was written for.
-/

set_option autoImplicit false

namespace Blockwork

namespace Decimal

theorem ofDigits_eq_ofDigitChars (ds : List Char) : ofDigits ds = Nat.ofDigitChars 10 ds 0 := by
  rw [Nat.ofDigitChars_eq_foldl]
  rfl

theorem ofDigits_toDigits (n : Nat) : ofDigits (Nat.toDigits 10 n) = n := by
  rw [ofDigits_eq_ofDigitChars, Nat.ofDigitChars_ten_toDigits]

theorem ofDigits_append_zeros (ds : List Char) (k : Nat) :
    ofDigits (ds ++ List.replicate k '0') = ofDigits ds * 10 ^ k := by
  rw [ofDigits_eq_ofDigitChars, ofDigits_eq_ofDigitChars, Nat.ofDigitChars_append,
    Nat.ofDigitChars_replicate_zero, Nat.mul_comm]

theorem ofDigits_zeros_append (k : Nat) (ds : List Char) :
    ofDigits (List.replicate k '0' ++ ds) = ofDigits ds := by
  rw [ofDigits_eq_ofDigitChars, ofDigits_eq_ofDigitChars, Nat.ofDigitChars_append,
    Nat.ofDigitChars_replicate_zero, Nat.mul_zero]

def spelled (whole fraction : List Char) : List Char :=
  match fraction with
  | [] => whole
  | ds => whole ++ '.' :: ds

def ofSpelled (whole fraction : List Char) : Decimal :=
  ⟨ofDigits (whole ++ fraction), -(fraction.length : Int)⟩

theorem takeWhile_digits {ds : List Char} (rest : List Char)
    (hDigits : ∀ c ∈ ds, c.isDigit = true) (hRest : ∀ c ∈ rest.head?, c.isDigit = false) :
    (ds ++ rest).takeWhile Char.isDigit = ds ∧ (ds ++ rest).dropWhile Char.isDigit = rest := by
  rw [List.takeWhile_append_of_pos hDigits, List.dropWhile_append_of_pos hDigits]
  cases rest with
  | nil => simp
  | cons c rest =>
    have hc : c.isDigit = false := hRest c rfl
    simp [hc]

theorem read?_spelled {whole fraction : List Char} (hNonempty : whole ≠ [])
    (hWhole : ∀ c ∈ whole, c.isDigit = true) (hFraction : ∀ c ∈ fraction, c.isDigit = true) :
    read? (spelled whole fraction) = some (ofSpelled whole fraction) := by
  cases fraction with
  | nil =>
    obtain ⟨hTake, hDrop⟩ := takeWhile_digits [] hWhole (by simp)
    rw [List.append_nil] at hTake hDrop
    simp [read?, spelled, ofSpelled, hTake, hDrop, hNonempty, readExponent?]
  | cons d ds =>
    obtain ⟨hTake, hDrop⟩ := takeWhile_digits ('.' :: d :: ds) hWhole
      (by simp only [List.head?_cons, Option.mem_some_iff]; rintro c rfl; decide)
    obtain ⟨hTake', hDrop'⟩ := takeWhile_digits [] hFraction (by simp)
    rw [List.append_nil] at hTake' hDrop'
    simp [read?, spelled, ofSpelled, hTake, hDrop, hTake', hDrop', hNonempty, readExponent?]

end Decimal

namespace NumeralStyle

open Decimal

theorem toList_zeros (k : Nat) : (zeros k).toList = List.replicate k '0' := by
  simp [zeros]

theorem magnitude_plain (d : Decimal) :
    plain.magnitude d = plain.positionally (Nat.toDigits 10 d.coefficient) d.exponent := by
  simp [magnitude, plain]

/-- The plain numeral of a decimal is spelled by two runs of digits, as a decimal that rounds to
the same word. -/
structure Spells (f : BinaryFormat) (d : Decimal) (whole fraction : List Char) : Prop where
  nonempty : whole ≠ []
  wholeDigits : ∀ c ∈ whole, c.isDigit = true
  fractionDigits : ∀ c ∈ fraction, c.isDigit = true
  text : (plain.magnitude d).toList = spelled whole fraction
  word : (ofSpelled whole fraction).toWord f = d.toWord f

theorem isDigit_of_mem_toDigits {n : Nat} {c : Char} (h : c ∈ Nat.toDigits 10 n) :
    c.isDigit = true :=
  Nat.isDigit_of_mem_toDigits (by decide) (by decide) h

theorem isDigit_of_mem_zeros {k : Nat} {c : Char} (h : c ∈ List.replicate k '0') :
    c.isDigit = true := by
  rw [List.eq_of_mem_replicate h]
  decide

section

variable {f : BinaryFormat} {c e : Nat}

theorem spells_whole (hFinite : (⟨c, e⟩ : Decimal).toWord f < f.infinityWord) :
    Spells f ⟨c, e⟩ (Nat.toDigits 10 c ++ List.replicate e '0') [] := by
  constructor
  · simp [Nat.toDigits_ne_nil]
  · intro a ha
    rcases List.mem_append.mp ha with ha | ha
    · exact isDigit_of_mem_toDigits ha
    · exact isDigit_of_mem_zeros ha
  · nofun
  · rw [magnitude_plain]
    simp [positionally, toList_zeros, plain, spelled]
  · rw [ofSpelled, List.append_nil, ofDigits_append_zeros, ofDigits_toDigits]
    exact toWord_shift hFinite

theorem spells_inside (hPlaces : e + 1 < (Nat.toDigits 10 c).length) :
    Spells f ⟨c, .negSucc e⟩ ((Nat.toDigits 10 c).take ((Nat.toDigits 10 c).length - (e + 1)))
      ((Nat.toDigits 10 c).drop ((Nat.toDigits 10 c).length - (e + 1))) := by
  have hExponent : Int.negSucc e = -((e + 1 : Nat) : Int) := rfl
  have hLength : ((Nat.toDigits 10 c).drop ((Nat.toDigits 10 c).length - (e + 1))).length =
      e + 1 := by
    rw [List.length_drop]
    omega
  constructor
  · intro hNil
    have hShort := congrArg List.length hNil
    rw [List.length_take, List.length_nil] at hShort
    omega
  · exact fun a ha => isDigit_of_mem_toDigits (List.mem_of_mem_take ha)
  · exact fun a ha => isDigit_of_mem_toDigits (List.mem_of_mem_drop ha)
  · rw [magnitude_plain, positionally]
    simp only [hPlaces, if_true, String.toList_append, String.toList_ofList]
    generalize (Nat.toDigits 10 c).drop _ = fraction at hLength
    cases fraction with
    | nil => cases hLength
    | cons a as => simp [spelled]
  · rw [ofSpelled, List.take_append_drop, ofDigits_toDigits, hLength, hExponent]

theorem spells_behind (hPlaces : ¬ e + 1 < (Nat.toDigits 10 c).length) :
    Spells f ⟨c, .negSucc e⟩ ['0']
      (List.replicate (e + 1 - (Nat.toDigits 10 c).length) '0' ++ Nat.toDigits 10 c) := by
  have hExponent : Int.negSucc e = -((e + 1 : Nat) : Int) := rfl
  constructor
  · exact List.cons_ne_nil _ _
  · simp
  · intro a ha
    rcases List.mem_append.mp ha with ha | ha
    · exact isDigit_of_mem_zeros ha
    · exact isDigit_of_mem_toDigits ha
  · rw [magnitude_plain, positionally]
    simp only [hPlaces, if_false, String.toList_append, String.toList_ofList, toList_zeros]
    generalize hFraction :
      List.replicate (e + 1 - (Nat.toDigits 10 c).length) '0' ++ Nat.toDigits 10 c = fraction
    cases fraction with
    | nil => simp [Nat.toDigits_ne_nil] at hFraction
    | cons a as => simp [spelled, hFraction]
  · have hLength : (List.replicate (e + 1 - (Nat.toDigits 10 c).length) '0' ++
        Nat.toDigits 10 c).length = e + 1 := by
      rw [List.length_append, List.length_replicate]
      omega
    rw [ofSpelled, hLength, hExponent]
    change (⟨ofDigits (List.replicate (_ + 1) '0' ++ _), _⟩ : Decimal).toWord f = _
    rw [ofDigits_zeros_append, ofDigits_toDigits]

theorem exists_spells {d : Decimal} (hFinite : d.toWord f < f.infinityWord) :
    ∃ whole fraction, Spells f d whole fraction := by
  obtain ⟨c, e⟩ := d
  cases e with
  | ofNat e => exact ⟨_, _, spells_whole hFinite⟩
  | negSucc e =>
    by_cases hPlaces : e + 1 < (Nat.toDigits 10 c).length
    · exact ⟨_, _, spells_inside hPlaces⟩
    · exact ⟨_, _, spells_behind hPlaces⟩

end

end NumeralStyle

end Blockwork
