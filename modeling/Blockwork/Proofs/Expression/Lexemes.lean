import Blockwork.Proofs.Decimal.Plain
import Blockwork.Proofs.Expression.Readable

/-! # Scanning one lexeme

A lexeme is found whatever stands behind it, as long as that cannot extend it. The texts behind
are kept whole, so that lexemes put together are scanned as they stand.
-/

set_option autoImplicit false

namespace Blockwork

namespace Scan

def Scans (cs : List Char) (kinds : List TokenKind) : Prop :=
  ∀ offset, ∃ ts, tokens offset cs = .ok ts ∧ ts.map Token.kind = kinds

/-- The lexeme at the head of a text. -/
structure Lexes (source : List Char) (kind : TokenKind) (rest : List Char) : Prop where
  starts : ∀ c ∈ source.head?, Text.isBlank c = false
  lexeme : ∃ c cs, source = c :: cs ∧ ∀ offset, ∃ l : Lexeme (c :: cs),
    Scan.lexeme offset c cs = .ok l ∧ l.kind = kind ∧ l.rest = rest

/-- What may stand behind a word or a number. -/
def Apart (cs : List Char) : Prop :=
  ∀ c ∈ cs.head?, isWordPart c = false ∧ c ≠ '.'

theorem Scans.nil : Scans [] [.eof] := by
  intro offset
  refine ⟨[⟨.eof, offset, offset⟩], ?_, rfl⟩
  rw [tokens]
  rfl

theorem tokens_blank {b : Char} (hb : Text.isBlank b = true) (offset : Nat) (cs : List Char) :
    tokens offset (b :: cs) = tokens (offset + 1) cs := by
  have hDrop : (b :: cs).dropWhile Text.isBlank = cs.dropWhile Text.isBlank :=
    List.dropWhile_cons_of_pos hb
  rw [tokens, tokens]
  simp only [List.takeWhile_cons_of_pos hb, List.length_cons, Nat.add_assoc, Nat.add_comm 1]
  split
  · rename_i hNil
    rw [hDrop] at hNil
    split
    · rfl
    · rename_i c rest hCons
      rw [hNil] at hCons
      cases hCons
  · rename_i c rest hCons
    rw [hDrop] at hCons
    symm
    split
    · rename_i hNil
      rw [hNil] at hCons
      cases hCons
    · rename_i d ds hCons'
      rw [hCons] at hCons'
      obtain ⟨rfl, rfl⟩ := List.cons.inj hCons'
      rfl

theorem tokens_lexeme {c : Char} {cs : List Char} {offset : Nat} {l : Lexeme (c :: cs)}
    {later : List Token} (hc : Text.isBlank c = false) (hLexeme : lexeme offset c cs = .ok l)
    (hLater : tokens (offset + Text.byteLength l.spelling) l.rest = .ok later) :
    tokens offset (c :: cs) =
      .ok (⟨l.kind, offset, offset + Text.byteLength l.spelling⟩ :: later) := by
  have hc : ¬ Text.isBlank c = true := by simp [hc]
  have hDrop : (c :: cs).dropWhile Text.isBlank = c :: cs := List.dropWhile_cons_of_neg hc
  rw [tokens]
  simp only [List.takeWhile_cons_of_neg hc, List.length_nil, Nat.add_zero]
  split
  · rename_i hNil
    rw [hDrop] at hNil
    cases hNil
  · rename_i d ds hCons
    rw [hDrop] at hCons
    obtain ⟨rfl, rfl⟩ := List.cons.inj hCons
    simp only [hLexeme, hLater]

theorem Scans.blank {b : Char} {cs : List Char} {ks : List TokenKind}
    (hb : Text.isBlank b = true) (h : Scans cs ks) : Scans (b :: cs) ks := by
  intro offset
  rw [tokens_blank hb]
  exact h (offset + 1)

theorem Scans.lexeme {source rest : List Char} {k : TokenKind} {ks : List TokenKind}
    (h : Lexes source k rest) (hRest : Scans rest ks) : Scans source (k :: ks) := by
  intro offset
  obtain ⟨hStarts, c, cs, rfl, h⟩ := h
  obtain ⟨l, hLexeme, rfl, rfl⟩ := h offset
  obtain ⟨ts, hTokens, hKinds⟩ := hRest (offset + Text.byteLength l.spelling)
  exact ⟨_, tokens_lexeme (hStarts c rfl) hLexeme hTokens, by simp [hKinds]⟩

section

variable {c : Char}

theorem isWordStart_iff : isWordStart c = true ↔
    (65 ≤ c.toNat ∧ c.toNat ≤ 90) ∨ (97 ≤ c.toNat ∧ c.toNat ≤ 122) ∨ c.toNat = 95 := by
  simp only [isWordStart, Char.isAlpha, Char.isUpper, Char.isLower, Bool.or_eq_true,
    decide_eq_true_eq, Bool.and_eq_true, ge_iff_le, UInt32.le_iff_toNat_le, ← Char.toNat_inj,
    or_assoc]
  exact Iff.rfl

theorem isWordPart_iff :
    isWordPart c = true ↔ isWordStart c = true ∨ (48 ≤ c.toNat ∧ c.toNat ≤ 57) := by
  simp only [isWordPart, isWordStart, Char.isAlphanum, Bool.or_eq_true, Char.isDigit_iff_toNat,
    or_assoc, @or_comm (decide (c = '_') = true)]
  exact Iff.rfl

theorem isBlank_iff : Text.isBlank c = true ↔
    c.toNat = 32 ∨ c.toNat = 9 ∨ c.toNat = 10 ∨ c.toNat = 13 ∨ c.toNat = 12 := by
  simp only [Text.isBlank, Bool.or_eq_true, decide_eq_true_eq, ← Char.toNat_inj, or_assoc]
  exact Iff.rfl

theorem isWordPart_of_isDigit (h : c.isDigit = true) : isWordPart c = true :=
  isWordPart_iff.mpr (.inr (Char.isDigit_iff_toNat.mp h))

theorem isBlank_of_isWordPart (h : isWordPart c = true) : Text.isBlank c = false := by
  rw [isWordPart_iff, isWordStart_iff] at h
  rw [← Bool.not_eq_true, isBlank_iff]
  omega

theorem isWhiteSpace_of_isWordPart (h : isWordPart c = true) : Text.isWhiteSpace c = false := by
  rw [isWordPart_iff, isWordStart_iff] at h
  simp only [Text.isWhiteSpace, Bool.or_eq_false_iff, Bool.and_eq_false_iff,
    decide_eq_false_iff_not]
  omega

structure Plain (c : Char) : Prop where
  notDigit : c.isDigit = false
  notPoint : c ≠ '.'
  notQuote : ¬(c = '"' ∨ c = '\'')
  notBlank : Text.isBlank c = false

theorem plain_of_isWordStart (h : isWordStart c = true) : Plain c := by
  refine ⟨?_, ?_, ?_, isBlank_of_isWordPart (isWordPart_iff.mpr (.inl h))⟩
  · rw [isWordStart_iff] at h
    rw [← Bool.not_eq_true, Char.isDigit_iff_toNat]
    intro hDigit
    have : 48 ≤ c.toNat ∧ c.toNat ≤ 57 := hDigit
    omega
  · rintro rfl
    exact absurd h (by decide)
  · rintro (rfl | rfl)
    · exact absurd h (by decide)
    · exact absurd h (by decide)

theorem plain_of_markKind {k : TokenKind} (h : markKind c = some k) :
    Plain c ∧ isWordStart c = false := by
  unfold markKind at h
  split at h
  all_goals first | exact ⟨⟨rfl, by decide, by decide, rfl⟩, rfl⟩ | cases h

theorem plain_of_pairKind {d : Char} {k : TokenKind} (h : pairKind c d = some k) :
    Plain c ∧ isWordStart c = false := by
  unfold pairKind at h
  split at h
  all_goals first | exact ⟨⟨rfl, by decide, by decide, rfl⟩, rfl⟩ | cases h

theorem startsNumber_eq_false (h : Plain c) (cs : List Char) : startsNumber c cs = false := by
  cases cs <;> simp [startsNumber, h.notDigit, h.notPoint]

theorem lexeme_word (h : isWordStart c = true) (offset : Nat) (cs : List Char) :
    lexeme offset c cs = .ok (word c cs) := by
  have hPlain := plain_of_isWordStart h
  rw [lexeme, startsNumber_eq_false hPlain, if_neg Bool.false_ne_true, if_neg hPlain.notQuote,
    if_pos h]

theorem lexeme_mark (hPlain : Plain c) (h : isWordStart c = false) (offset : Nat)
    (cs : List Char) : lexeme offset c cs = mark offset c cs := by
  rw [lexeme, startsNumber_eq_false hPlain, if_neg Bool.false_ne_true, if_neg hPlain.notQuote, h,
    if_neg Bool.false_ne_true]

end

theorem Lexes.mark {c : Char} {k : TokenKind} {cs : List Char} (h : markKind c = some k)
    (hPair : ∀ d ∈ cs.head?, pairKind c d = none) : Lexes (c :: cs) k cs := by
  obtain ⟨hPlain, hWord⟩ := plain_of_markKind h
  refine ⟨by simpa using hPlain.notBlank, c, cs, rfl, fun offset => ?_⟩
  refine ⟨⟨k, [c], cs, by simp, rfl⟩, ?_, rfl, rfl⟩
  rw [lexeme_mark hPlain hWord]
  cases cs with
  | nil => simp only [Scan.mark, mark.single, h]
  | cons d ds =>
    have hd : pairKind c d = none := hPair d rfl
    simp only [Scan.mark, mark.single, hd, h]

theorem Lexes.pair {c d : Char} {k : TokenKind} {cs : List Char} (h : pairKind c d = some k) :
    Lexes (c :: d :: cs) k cs := by
  obtain ⟨hPlain, hWord⟩ := plain_of_pairKind h
  refine ⟨by simpa using hPlain.notBlank, c, d :: cs, rfl, fun offset => ?_⟩
  refine ⟨⟨k, [c, d], cs, by simp, rfl⟩, ?_, rfl, rfl⟩
  rw [lexeme_mark hPlain hWord]
  simp only [Scan.mark, h]

theorem Apart.takeWhile {ds rest : List Char} {p : Char → Bool} (hds : ∀ a ∈ ds, p a = true)
    (hp : ∀ a, p a = true → isWordPart a = true) (hRest : Apart rest) :
    (ds ++ rest).takeWhile p = ds ∧ (ds ++ rest).dropWhile p = rest := by
  rw [List.takeWhile_append_of_pos hds, List.dropWhile_append_of_pos hds]
  cases rest with
  | nil => simp
  | cons c rest =>
    have hc : ¬ p c = true := fun h => by
      have hPart := (hRest c rfl).1
      rw [hp c h] at hPart
      cases hPart
    simp [hc]

theorem Lexes.word {c : Char} {cs rest : List Char} (hc : isWordStart c = true)
    (hcs : ∀ a ∈ cs, isWordPart a = true) (hRest : Apart rest) :
    Lexes (c :: cs ++ rest) (wordKind (String.ofList (c :: cs))) rest := by
  obtain ⟨hTake, hDrop⟩ := hRest.takeWhile hcs fun _ h => h
  refine ⟨by simpa using (plain_of_isWordStart hc).notBlank, c, cs ++ rest, rfl, fun offset => ?_⟩
  refine ⟨_, lexeme_word hc offset _, ?_, hDrop⟩
  change wordKind (String.ofList (c :: (cs ++ rest).takeWhile isWordPart)) = _
  rw [hTake]

def Closes {source : List Char} (q : Quoted source) (value rest : List Char) : Prop :=
  ∃ cut hNonempty, q = .closed value cut hNonempty ∧ cut.rest = rest

section

variable {quote c e : Char} {cs value rest : List Char}

theorem closes_quote (quote : Char) (rest : List Char) :
    Closes (quoted quote (quote :: rest)) [] rest := by
  cases rest with
  | nil => exact ⟨⟨[quote], [], rfl⟩, by simp, by rw [quoted, if_pos rfl], rfl⟩
  | cons e cs => exact ⟨⟨[quote], e :: cs, rfl⟩, by simp, by rw [quoted, if_pos rfl], rfl⟩

theorem closes_escape (hQuote : '\\' ≠ quote) (he : unescape e = some c)
    (h : Closes (quoted quote cs) value rest) :
    Closes (quoted quote ('\\' :: e :: cs)) (c :: value) rest := by
  obtain ⟨cut, hNonempty, h, hRest⟩ := h
  refine ⟨(cut.cons e).cons '\\', by simp [Cut.cons], ?_, hRest⟩
  rw [quoted, if_neg hQuote, if_pos rfl, h, he]
  rfl

theorem closes_plain (hQuote : c ≠ quote) (hSlash : c ≠ '\\')
    (h : Closes (quoted quote cs) value rest) :
    Closes (quoted quote (c :: cs)) (c :: value) rest := by
  obtain ⟨cut, hNonempty, h, hRest⟩ := h
  refine ⟨cut.cons c, by simp [Cut.cons], ?_, hRest⟩
  cases cs with
  | nil => cases h
  | cons e cs =>
    rw [quoted, if_neg hQuote, if_neg hSlash, h]
    rfl

end

theorem literalEscape_cases (c : Char) :
    (∃ e, Text.literalEscape c = ['\\', e] ∧ unescape e = some c) ∨
      (Text.literalEscape c = [c] ∧ c ≠ '"' ∧ c ≠ '\\') := by
  by_cases hQuote : c = '"'
  · exact .inl ⟨'"', by rw [hQuote]; rfl, by rw [hQuote]; rfl⟩
  by_cases hSlash : c = '\\'
  · exact .inl ⟨'\\', by rw [hSlash]; rfl, by rw [hSlash]; rfl⟩
  by_cases hLine : c = '\n'
  · exact .inl ⟨'n', by rw [hLine]; rfl, by rw [hLine]; rfl⟩
  by_cases hTab : c = '\t'
  · exact .inl ⟨'t', by rw [hTab]; rfl, by rw [hTab]; rfl⟩
  by_cases hReturn : c = '\r'
  · exact .inl ⟨'r', by rw [hReturn]; rfl, by rw [hReturn]; rfl⟩
  · exact .inr ⟨by simp [Text.literalEscape, *], hQuote, hSlash⟩

theorem closes_literal (s rest : List Char) :
    Closes (quoted '"' (s.flatMap Text.literalEscape ++ '"' :: rest)) s rest := by
  induction s with
  | nil => exact closes_quote '"' rest
  | cons c s ih =>
    rw [List.flatMap_cons, List.append_assoc]
    rcases literalEscape_cases c with ⟨e, hEscape, he⟩ | ⟨hEscape, hQuote, hSlash⟩
    · rw [hEscape]
      exact closes_escape (by decide) he ih
    · rw [hEscape]
      exact closes_plain hQuote hSlash ih

theorem toList_literal (s : String) : (Text.literal s).toList =
    '"' :: (s.toList.flatMap Text.literalEscape ++ ['"']) := by
  simp [Text.literal]

theorem Lexes.text (s : String) (rest : List Char) :
    Lexes ((Text.literal s).toList ++ rest) (.text s) rest := by
  have hSource : (Text.literal s).toList ++ rest =
      '"' :: (s.toList.flatMap Text.literalEscape ++ '"' :: rest) := by
    simp [toList_literal]
  obtain ⟨cut, hNonempty, hQuoted, hRest⟩ := closes_literal s.toList rest
  rw [hSource]
  refine ⟨by simp; decide, _, _, rfl, fun offset => ?_⟩
  refine ⟨⟨.text s, '"' :: cut.front, cut.rest, by simp, by simp [cut.front_append_rest]⟩, ?_, rfl,
    hRest⟩
  have hNumber : startsNumber '"' (s.toList.flatMap Text.literalEscape ++ '"' :: rest) = false := by
    cases s.toList.flatMap Text.literalEscape ++ '"' :: rest <;> rfl
  rw [Scan.lexeme, hNumber, if_neg Bool.false_ne_true, if_pos (.inl rfl), string, hQuoted]
  simp

theorem fraction_cases (cs : List Char) :
    (∃ d ds, cs = '.' :: d :: ds ∧ d.isDigit = true) ∨
      (fraction cs = .none cs ∧ ∀ d ds, cs = '.' :: d :: ds → ¬ d.isDigit = true) := by
  by_cases h : ∃ d ds, cs = '.' :: d :: ds ∧ d.isDigit = true
  · exact .inl h
  · have hPoint : ∀ d ds, cs = '.' :: d :: ds → ¬ d.isDigit = true :=
      fun d ds hcs hd => h ⟨d, ds, hcs, hd⟩
    refine .inr ⟨?_, hPoint⟩
    unfold fraction
    split
    · exact if_neg (hPoint _ _ rfl)
    · rfl

theorem mem_fraction {c : Char} {cs : List Char} (h : c ∈ (fraction cs).front) :
    c = '.' ∨ c.isDigit = true := by
  rcases fraction_cases cs with ⟨d, ds, rfl, hd⟩ | ⟨hNone, -⟩
  · rw [fraction, if_pos hd] at h
    exact (List.mem_cons.mp h).imp_right List.mem_takeWhile_imp
  · rw [hNone] at h
    cases h

theorem sign_cases (cs : List Char) :
    (∃ c ds, cs = c :: ds ∧ (c = '+' ∨ c = '-')) ∨
      (sign cs = .none cs ∧ ∀ c ∈ cs.head?, ¬(c = '+' ∨ c = '-')) := by
  by_cases h : ∃ c ds, cs = c :: ds ∧ (c = '+' ∨ c = '-')
  · exact .inl h
  · refine .inr ⟨?_, fun c hc hSign => ?_⟩
    · unfold sign
      split
      · exact absurd ⟨'+', _, rfl, .inl rfl⟩ h
      · exact absurd ⟨'-', _, rfl, .inr rfl⟩ h
      · rfl
    · obtain ⟨ds, rfl⟩ := List.head?_eq_some_iff.mp hc
      exact h ⟨c, ds, rfl, hSign⟩

def Raised (source front rest : List Char) : Prop :=
  ∃ cut, exponent source = some cut ∧ cut.front = front ∧ cut.rest = rest

theorem Raised.append {source front rest : List Char} (h : Raised source front rest) :
    front ++ rest = source := by
  obtain ⟨cut, -, rfl, rfl⟩ := h
  exact cut.front_append_rest

theorem raised_of_not {c : Char} (h : ¬(c = 'e' ∨ c = 'E')) (cs : List Char) :
    Raised (c :: cs) [] (c :: cs) :=
  ⟨.none (c :: cs), by rw [exponent, if_neg h], rfl, rfl⟩

theorem fraction_apart {rest : List Char} (h : Apart rest) : fraction rest = .none rest := by
  rcases fraction_cases rest with ⟨d, ds, rfl, -⟩ | ⟨hNone, -⟩
  · exact absurd rfl (h '.' rfl).2
  · exact hNone

theorem raised_apart {rest : List Char} (h : Apart rest) : Raised rest [] rest := by
  cases rest with
  | nil => exact ⟨.none [], rfl, rfl, rfl⟩
  | cons mark cs =>
    have hPart := (h mark rfl).1
    refine raised_of_not ?_ cs
    rintro (rfl | rfl) <;> cases hPart

theorem number_inv {offset : Nat} {c : Char} {cs : List Char} {l : Lexeme (c :: cs)}
    (h : number offset c cs = .ok l) :
    ∃ whole part power, (c :: cs).takeWhile Char.isDigit = whole ∧
      (fraction ((c :: cs).dropWhile Char.isDigit)).front = part ∧
      Raised (fraction ((c :: cs).dropWhile Char.isDigit)).rest power l.rest ∧
      l.spelling = whole ++ (part ++ power) ∧
      l.kind = .number (((Decimal.read? l.spelling).map Decimal.toFloat).getD 0.0) := by
  simp only [number] at h
  split at h
  · cases h
  · rename_i power hPower
    split at h
    · cases h
    · obtain rfl := Except.ok.inj h
      exact ⟨_, _, _, rfl, rfl, ⟨power, hPower, rfl, rfl⟩, rfl, rfl⟩

theorem number_of_parts {c : Char} {cs whole behind part power rest : List Char}
    (hWhole : (c :: cs).takeWhile Char.isDigit = whole)
    (hBehind : (c :: cs).dropWhile Char.isDigit = behind) (hPart : (fraction behind).front = part)
    (hPower : Raised (fraction behind).rest power rest) (hNonempty : whole ++ (part ++ power) ≠ [])
    (offset : Nat) :
    ∃ l : Lexeme (c :: cs), number offset c cs = .ok l ∧ l.rest = rest ∧
      l.kind = .number
        (((Decimal.read? (whole ++ (part ++ power))).map Decimal.toFloat).getD 0.0) := by
  obtain ⟨cut, hCut, rfl, rfl⟩ := hPower
  subst hWhole hBehind hPart
  simp only [number, Cut.takeWhile, hCut]
  exact ⟨_, dif_neg hNonempty, rfl, rfl⟩

theorem fraction_digits {d : Char} {ds rest : List Char}
    (hDigits : ∀ a ∈ d :: ds, a.isDigit = true) (hRest : Apart rest) :
    (fraction ('.' :: d :: (ds ++ rest))).front = '.' :: d :: ds ∧
      (fraction ('.' :: d :: (ds ++ rest))).rest = rest := by
  obtain ⟨hTake, hDrop⟩ := hRest.takeWhile hDigits fun _ => isWordPart_of_isDigit
  rw [List.cons_append] at hTake hDrop
  rw [fraction, if_pos (hDigits d List.mem_cons_self)]
  exact ⟨congrArg (List.cons '.') hTake, hDrop⟩

theorem startsNumber_of_isDigit {c : Char} (h : c.isDigit = true) (cs : List Char) :
    startsNumber c cs = true := by
  cases cs <;> simp [startsNumber, h]

theorem startsNumber_cases {c : Char} {cs : List Char} (h : startsNumber c cs = true) :
    c.isDigit = true ∨ ∃ d ds, c = '.' ∧ cs = d :: ds ∧ d.isDigit = true := by
  cases cs with
  | nil => exact .inl h
  | cons d ds => simpa [startsNumber] using h

theorem lexeme_startsNumber {c : Char} {cs : List Char} (h : startsNumber c cs = true)
    (offset : Nat) : lexeme offset c cs = number offset c cs := by
  rw [lexeme, if_pos h]

theorem Lexes.spelled {whole digits rest : List Char} (hNonempty : whole ≠ [])
    (hWhole : ∀ c ∈ whole, c.isDigit = true) (hDigits : ∀ c ∈ digits, c.isDigit = true)
    (hRest : Apart rest) :
    Lexes (Decimal.spelled whole digits ++ rest)
      (.number (Decimal.ofSpelled whole digits).toFloat) rest := by
  have hRead := Decimal.read?_spelled hNonempty hWhole hDigits
  obtain ⟨c, ws, rfl⟩ := List.exists_cons_of_ne_nil hNonempty
  have hc : c.isDigit = true := hWhole c List.mem_cons_self
  have hBlank : Text.isBlank c = false := isBlank_of_isWordPart (isWordPart_of_isDigit hc)
  cases digits with
  | nil =>
    refine ⟨by simpa [Decimal.spelled] using hBlank, c, ws ++ rest, rfl, fun offset => ?_⟩
    obtain ⟨hTake, hDrop⟩ := hRest.takeWhile hWhole fun _ => isWordPart_of_isDigit
    have hPoint : (fraction rest).rest = rest := by rw [fraction_apart hRest]; rfl
    have hFront : (fraction rest).front = [] := by rw [fraction_apart hRest]; rfl
    have hPower : Raised (fraction rest).rest [] rest := by
      rw [hPoint]
      exact raised_apart hRest
    obtain ⟨l, hl, hlRest, hlKind⟩ := number_of_parts hTake hDrop hFront hPower
      (List.cons_ne_nil _ _) offset
    refine ⟨l, (lexeme_startsNumber (startsNumber_of_isDigit hc _) offset).trans hl, ?_, hlRest⟩
    rw [hlKind, List.append_nil, List.append_nil]
    rw [show c :: ws = Decimal.spelled (c :: ws) [] from rfl, hRead]
    rfl
  | cons d ds =>
    have hSource : Decimal.spelled (c :: ws) (d :: ds) ++ rest =
        c :: (ws ++ '.' :: d :: (ds ++ rest)) := by
      simp [Decimal.spelled]
    rw [hSource]
    refine ⟨by simpa using hBlank, c, _, rfl, fun offset => ?_⟩
    obtain ⟨hTake, hDrop⟩ := Decimal.takeWhile_digits ('.' :: d :: (ds ++ rest)) hWhole
      (by simp)
    obtain ⟨hFront, hPoint⟩ := fraction_digits hDigits hRest
    have hPower : Raised (fraction ('.' :: d :: (ds ++ rest))).rest [] rest := by
      rw [hPoint]
      exact raised_apart hRest
    obtain ⟨l, hl, hlRest, hlKind⟩ := number_of_parts hTake hDrop hFront hPower
      (List.cons_ne_nil _ _) offset
    refine ⟨l, (lexeme_startsNumber (startsNumber_of_isDigit hc _) offset).trans hl, ?_, hlRest⟩
    rw [hlKind, List.append_nil]
    rw [show c :: ws ++ '.' :: d :: ds = Decimal.spelled (c :: ws) (d :: ds) from rfl, hRead]
    rfl

theorem exists_spelled_write {word : Nat} (h : word < Double.top) :
    ∃ whole digits, whole ≠ [] ∧ (∀ c ∈ whole, c.isDigit = true) ∧
      (∀ c ∈ digits, c.isDigit = true) ∧
      (NumeralStyle.plain.write (Double.ofWord word)).toList = Decimal.spelled whole digits ∧
      (Decimal.ofSpelled whole digits).toFloat = Double.ofWord word := by
  have hWord : (Decimal.shortest .binary64 .up word).toWord .binary64 = word :=
    Decimal.toWord_shortest .up h
  obtain ⟨whole, digits, hNonempty, hWhole, hDigits, hText, hRead⟩ :=
    NumeralStyle.exists_spells (hWord.symm ▸ h)
  refine ⟨whole, digits, hNonempty, hWhole, hDigits, ?_, ?_⟩
  · rw [Double.write_ofWord h, hText]
  · rw [Double.toFloat_eq_ofWord, hRead, hWord]

theorem Lexes.number {word : Nat} (h : word < Double.top) {rest : List Char} (hRest : Apart rest) :
    Lexes ((NumeralStyle.plain.write (Double.ofWord word)).toList ++ rest)
      (.number (Double.ofWord word)) rest := by
  obtain ⟨whole, digits, hNonempty, hWhole, hDigits, hText, hValue⟩ := exists_spelled_write h
  rw [hText, ← hValue]
  exact .spelled hNonempty hWhole hDigits hRest

theorem wordKind_readable {name : String} (hWord : IsWord name) :
    (wordKind name).Readable ∧ wordKind name ≠ .eof := by
  by_cases hKind : wordKind name = .ident name
  · rw [hKind]
    exact ⟨⟨hWord, hKind⟩, nofun⟩
  · unfold wordKind at hKind ⊢
    split
    · exact ⟨trivial, nofun⟩
    split
    · exact ⟨trivial, nofun⟩
    split
    · exact ⟨trivial, nofun⟩
    split
    · exact ⟨trivial, nofun⟩
    · exact absurd (by simp [*]) hKind

theorem number_readable (value : Option Decimal) :
    (TokenKind.number ((value.map Decimal.toFloat).getD 0.0)).Readable := by
  cases value with
  | none => exact ⟨0, by decide, by decide⟩
  | some d => exact ⟨d.toWord .binary64, Decimal.toWord_le_infinityWord _ d, rfl⟩

theorem markKind_readable {c : Char} {k : TokenKind} (h : markKind c = some k) :
    k.Readable ∧ k ≠ .eof := by
  unfold markKind at h
  split at h
  all_goals cases h <;> exact ⟨trivial, nofun⟩

theorem pairKind_readable {c d : Char} {k : TokenKind} (h : pairKind c d = some k) :
    k.Readable ∧ k ≠ .eof := by
  unfold pairKind at h
  split at h
  all_goals cases h <;> exact ⟨trivial, nofun⟩

theorem single_readable {offset : Nat} {c : Char} {cs : List Char} {l : Lexeme (c :: cs)}
    (h : mark.single offset c cs = .ok l) : l.kind.Readable ∧ l.kind ≠ .eof := by
  unfold mark.single at h
  split at h
  · rename_i k hk
    obtain rfl := Except.ok.inj h
    exact markKind_readable hk
  · cases h

/-- A lexeme is readable, and never the end of the text. -/
theorem lexeme_readable {offset : Nat} {c : Char} {cs : List Char} {l : Lexeme (c :: cs)}
    (h : lexeme offset c cs = .ok l) : l.kind.Readable ∧ l.kind ≠ .eof := by
  rw [lexeme] at h
  split at h
  · obtain ⟨_, _, _, -, -, -, -, hKind⟩ := number_inv h
    rw [hKind]
    exact ⟨number_readable _, nofun⟩
  split at h
  · rw [string] at h
    split at h
    · obtain rfl := Except.ok.inj h
      exact ⟨trivial, nofun⟩
    · cases h
    · cases h
  split at h
  · rename_i hStart
    obtain rfl := Except.ok.inj h
    exact wordKind_readable ⟨c, _, String.toList_ofList, hStart,
      List.all_eq_true.mp List.all_takeWhile⟩
  · rw [mark.eq_def] at h
    split at h
    · split at h
      · rename_i k hk
        obtain rfl := Except.ok.inj h
        exact pairKind_readable hk
      · exact single_readable h
    · exact single_readable h

theorem tokens_inv {offset : Nat} {cs : List Char} {ts : List Token}
    (h : tokens offset cs = .ok ts) :
    (∃ t, ts = [t] ∧ t.kind = .eof) ∨
      ∃ start c rest, ∃ l : Lexeme (c :: rest), lexeme start c rest = .ok l ∧
        l.rest.length < cs.length ∧
        ∃ stop later, tokens stop l.rest = .ok later ∧ ts = ⟨l.kind, start, stop⟩ :: later := by
  rw [tokens] at h
  split at h
  · obtain rfl := Except.ok.inj h
    exact .inl ⟨_, rfl, rfl⟩
  · rename_i c rest hCons
    split at h
    · cases h
    · rename_i l hl
      dsimp only at h
      split at h
      · cases h
      · rename_i later hLater
        obtain rfl := Except.ok.inj h
        refine .inr ⟨_, c, rest, l, hl, ?_, _, later, hLater, rfl⟩
        have hBlanks := (@List.dropWhile_suffix _ cs Text.isBlank).length_le
        rw [hCons] at hBlanks
        exact Nat.lt_of_lt_of_le l.length_rest_lt hBlanks

/-- The tokens of a text are a row of lexemes, and the end of the text behind them. -/
theorem tokens_readable {offset : Nat} {cs : List Char} {ts : List Token}
    (h : tokens offset cs = .ok ts) :
    ∃ row last, ts = row ++ [last] ∧ last.kind = .eof ∧
      ∀ t ∈ row, t.kind.Readable ∧ t.kind ≠ .eof := by
  rcases tokens_inv h with ⟨t, rfl, ht⟩ |
    ⟨start, c, rest, l, hl, hShort, stop, later, hLater, rfl⟩
  · exact ⟨[], t, rfl, ht, nofun⟩
  · obtain ⟨row, last, rfl, hLast, hRow⟩ := tokens_readable hLater
    exact ⟨⟨l.kind, start, stop⟩ :: row, last, rfl, hLast,
      List.forall_mem_cons.mpr ⟨lexeme_readable hl, hRow⟩⟩
termination_by cs.length

end Scan

end Blockwork
