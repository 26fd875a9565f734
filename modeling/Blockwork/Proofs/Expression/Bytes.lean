import Blockwork.Proofs.Expression.Spans
import Blockwork.Proofs.Expression.Numbered

/-! # Reading byte by byte

A text can be scanned on the row of its bytes: the rules look at the bytes from a place on, pass
those that they take, and cut what they have passed out of the text. A cut is refused unless whole
characters lie on both of its sides. Every byte that a rule passes by itself is ASCII, so the rules
stop in front of any longer character, no cut is refused, and the tokens and faults are those of
scanning character by character.
-/

set_option autoImplicit false

namespace Blockwork

namespace Text

/-- The bytes of a text in UTF-8, each as the character of its number. -/
def units (cs : List Char) : List Char :=
  (cs.flatMap String.utf8EncodeChar).map Char.ofUInt8

def behind? (n : Nat) : List Char → Option (List Char)
  | [] => if n = 0 then some [] else none
  | c :: cs =>
    if n = 0 then some (c :: cs)
    else if c.utf8Size ≤ n then behind? (n - c.utf8Size) cs
    else none

def upTo? (n : Nat) : List Char → Option (List Char)
  | [] => if n = 0 then some [] else none
  | c :: cs =>
    if n = 0 then some []
    else if c.utf8Size ≤ n then (upTo? (n - c.utf8Size) cs).map (c :: ·)
    else none

def slice? (start stop : Nat) (cs : List Char) : Option (List Char) :=
  if start ≤ stop then (behind? start cs).bind (upTo? (stop - start)) else none

def At (text : List Char) (pos : Nat) (cs : List Char) : Prop :=
  ∃ front, text = front ++ cs ∧ byteLength front = pos

section

variable {text cs front rest : List Char} {c : Char} {pos : Nat}

theorem units_append (front cs : List Char) : units (front ++ cs) = units front ++ units cs := by
  simp [units]

theorem length_units (cs : List Char) : (units cs).length = byteLength cs := by
  induction cs with
  | nil => rfl
  | cons c cs ih =>
    rw [← List.singleton_append, units_append, List.length_append, ih, byteLength_append]
    simp [units]

theorem units_cons_of_ascii (h : c.toNat < 128) (cs : List Char) :
    units (c :: cs) = c :: units cs := by
  have hUnit : Char.ofUInt8 (UInt8.ofNat c.toNat) = c := by
    apply Char.ext
    apply UInt32.toNat.inj
    change (UInt8.ofNat c.toNat).toNat = c.toNat
    rw [UInt8.toNat_ofNat', Nat.mod_eq_of_lt (by omega)]
  have hBytes : String.utf8EncodeChar c = [UInt8.ofNat c.toNat] :=
    String.utf8EncodeChar_eq_singleton (utf8Size_of_ascii h)
  rw [units, List.flatMap_cons, hBytes, List.singleton_append, List.map_cons, hUnit, units]

/-- The bytes of a longer character begin with one that is not ASCII. -/
theorem units_cons_of_not_ascii (h : ¬ c.toNat < 128) (cs : List Char) :
    ∃ u us, units (c :: cs) = u :: us ∧ ¬ u.toNat < 128 := by
  have hHead : ∃ b bs, String.utf8EncodeChar c = b :: bs ∧ ¬ b.toNat < 128 := by
    have hNat : ¬ c.val.toNat ≤ 127 := fun hNat => h (Nat.lt_succ_of_le hNat)
    rw [String.utf8EncodeChar, if_neg hNat]
    split
    · exact ⟨_, _, rfl, by rw [UInt8.toNat_ofNat']; omega⟩
    split
    · exact ⟨_, _, rfl, by rw [UInt8.toNat_ofNat']; omega⟩
    · exact ⟨_, _, rfl, by rw [UInt8.toNat_ofNat']; omega⟩
  obtain ⟨b, bs, hBytes, hb⟩ := hHead
  refine ⟨Char.ofUInt8 b, bs.map Char.ofUInt8 ++ units cs, by simp [units, hBytes], ?_⟩
  exact hb

/-- The first byte of a text is its first character, or neither of them is ASCII. -/
theorem head?_units (cs : List Char) : (units cs).head? = cs.head? ∨
    ∃ u c, (units cs).head? = some u ∧ cs.head? = some c ∧ ¬ u.toNat < 128 ∧ ¬ c.toNat < 128 := by
  cases cs with
  | nil => exact .inl rfl
  | cons c cs =>
    by_cases h : c.toNat < 128
    · exact .inl (by rw [units_cons_of_ascii h]; rfl)
    · obtain ⟨u, us, hUnits, hu⟩ := units_cons_of_not_ascii h cs
      exact .inr ⟨u, c, by rw [hUnits]; rfl, rfl, hu, h⟩

theorem isNone_head?_units (c : Char) (cs : List Char) :
    (units (c :: cs)).head?.isNone = false := by
  rcases head?_units (c :: cs) with hHead | ⟨u, _, hHead, -⟩ <;> rw [hHead] <;> rfl

theorem takeWhile_units {p : Char → Bool} (hp : ∀ c, p c = true → c.toNat < 128) (cs : List Char) :
    (units cs).takeWhile p = cs.takeWhile p := by
  induction cs with
  | nil => rfl
  | cons c cs ih =>
    by_cases h : c.toNat < 128
    · rw [units_cons_of_ascii h, List.takeWhile_cons, List.takeWhile_cons, ih]
    · obtain ⟨u, us, hUnits, hu⟩ := units_cons_of_not_ascii h cs
      rw [hUnits, List.takeWhile_cons_of_neg fun hc => hu (hp u hc),
        List.takeWhile_cons_of_neg fun hc => h (hp c hc)]

theorem behind?_append (front cs : List Char) :
    behind? (byteLength front) (front ++ cs) = some cs := by
  induction front with
  | nil => cases cs <;> simp [behind?]
  | cons c front ih =>
    have := c.utf8Size_pos
    rw [List.cons_append, behind?, byteLength_cons, if_neg (by omega),
      if_pos (Nat.le_add_right _ _), Nat.add_sub_cancel_left, ih]

theorem upTo?_append (front cs : List Char) :
    upTo? (byteLength front) (front ++ cs) = some front := by
  induction front with
  | nil => cases cs <;> simp [upTo?]
  | cons c front ih =>
    have := c.utf8Size_pos
    rw [List.cons_append, upTo?, byteLength_cons, if_neg (by omega),
      if_pos (Nat.le_add_right _ _), Nat.add_sub_cancel_left, ih, Option.map_some]

theorem At.start (text : List Char) : At text 0 text := ⟨[], rfl, rfl⟩

theorem At.skip (h : At text pos (front ++ rest)) : At text (pos + byteLength front) rest := by
  obtain ⟨before, rfl, rfl⟩ := h
  exact ⟨before ++ front, by simp, by simp⟩

theorem At.next (h : At text pos (c :: cs)) : At text (pos + c.utf8Size) cs :=
  At.skip (show At text pos ([c] ++ cs) from h)

theorem At.next_ascii (hc : c.toNat < 128) (h : At text pos (c :: cs)) : At text (pos + 1) cs :=
  utf8Size_of_ascii hc ▸ h.next

theorem At.behind_takeWhile (h : At text pos cs) (p : Char → Bool) :
    At text (pos + byteLength (cs.takeWhile p)) (cs.dropWhile p) :=
  At.skip (by rwa [List.takeWhile_append_dropWhile])

theorem At.behind_cut (h : At text pos cs) (cut : Scan.Cut cs) :
    At text (pos + byteLength cut.front) cut.rest :=
  At.skip (by rwa [cut.front_append_rest])

theorem At.units (h : At text pos cs) : (Text.units text).drop pos = Text.units cs := by
  obtain ⟨before, rfl, rfl⟩ := h
  rw [units_append, List.drop_append_of_le_length (length_units before).ge,
    List.drop_of_length_le (length_units before).le, List.nil_append]

theorem At.behind? (h : At text pos cs) : behind? pos text = some cs := by
  obtain ⟨before, rfl, rfl⟩ := h
  exact behind?_append before cs

theorem At.slice? (h : At text pos (front ++ rest)) :
    slice? pos (pos + byteLength front) text = some front := by
  rw [Text.slice?, if_pos (Nat.le_add_right _ _), h.behind?, Option.bind_some,
    Nat.add_sub_cancel_left, upTo?_append]

end

end Text

namespace Bytewise

open Text (At)

section

variable (text : List Char)

def peek (pos : Nat) : Option Char := (Text.units text)[pos]?

def sees (p : Char → Bool) (pos : Nat) : Bool := (peek text pos).any p

def eat (p : Char → Bool) (pos : Nat) : Nat :=
  match _h : (Text.units text)[pos]? with
  | some u => if p u then eat p (pos + 1) else pos
  | none => pos
termination_by (Text.units text).length - pos
decreasing_by
  have := (List.getElem?_eq_some_iff.mp _h).1
  omega

def fraction (pos : Nat) : Nat :=
  if sees text (· = '.') pos && sees text Char.isDigit (pos + 1) then
    eat text Char.isDigit (pos + 1)
  else pos

def sign (pos : Nat) : Nat := if sees text (fun c => c = '+' || c = '-') pos then pos + 1 else pos

def exponent (pos : Nat) : Option Nat :=
  if sees text (fun c => c = 'e' || c = 'E') pos then
    let digits := sign text (pos + 1)
    let stop := eat text Char.isDigit digits
    if stop = digits then none else some stop
  else some pos

abbrev Outcome := Option (Except SourceFault (TokenKind × Nat))

def number (start : Nat) : Outcome :=
  let power := fraction text (eat text Char.isDigit start)
  match exponent text power with
  | none => some (.error ⟨power, .exponentWithoutDigits⟩)
  | some stop => (Text.slice? start stop text).map fun spelling =>
    .ok (.number (((Decimal.read? spelling).map Decimal.toFloat).getD 0.0), stop)

def word (start : Nat) : Outcome :=
  let stop := eat text Scan.isWordPart start
  (Text.slice? start stop text).map fun spelling =>
    .ok (Scan.wordKind (String.ofList spelling), stop)

/-- Here it goes by characters: `pos` is the place of the first one, and `start` that of the opening
quote. -/
def quoted (quote : Char) (start pos : Nat) : List Char → Except SourceFault (List Char × Nat)
  | [] => .error ⟨start, .unterminatedText⟩
  | c :: cs =>
    if c = quote then .ok ([], pos + 1)
    else if c = '\\' then
      match cs with
      | [] => .error ⟨start, .unterminatedText⟩
      | e :: cs =>
        match Scan.unescape e with
        | some value =>
          (quoted quote start (pos + c.utf8Size + e.utf8Size) cs).map fun r => (value :: r.1, r.2)
        | none => .error ⟨pos, .unknownEscape e⟩
    else (quoted quote start (pos + c.utf8Size) cs).map fun r => (c :: r.1, r.2)

def string (quote : Char) (start : Nat) : Outcome :=
  (Text.behind? (start + 1) text).map fun cs =>
    (quoted quote start (start + 1) cs).map fun r => (.text (String.ofList r.1), r.2)

def single (pos : Nat) : Outcome :=
  match (peek text pos).bind Scan.markKind with
  | some kind => some (.ok (kind, pos + 1))
  | none => (Text.behind? pos text).map fun rest =>
    .error ⟨pos, .unexpectedCharacter (rest.headD '?')⟩

def mark (pos : Nat) : Outcome :=
  match (peek text pos).bind fun c => (peek text (pos + 1)).bind (Scan.pairKind c) with
  | some kind => some (.ok (kind, pos + 2))
  | none => single text pos

def lexeme (pos : Nat) : Outcome :=
  if sees text Char.isDigit pos ||
      (sees text (· = '.') pos && sees text Char.isDigit (pos + 1)) then number text pos
  else if sees text (· = '"') pos then string text '"' pos
  else if sees text (· = '\'') pos then string text '\'' pos
  else if sees text Scan.isWordStart pos then word text pos
  else mark text pos

/-- The tokens from a place on; nothing when a cut is refused, or after more lexemes than `fuel`
allows. -/
def tokens : (fuel pos : Nat) → Option (Except SourceFault (List Token))
  | 0, _ => none
  | fuel + 1, pos =>
    let start := eat text Text.isBlank pos
    if (peek text start).isNone then
      some (.ok [⟨.eof, Text.byteLength text, Text.byteLength text⟩])
    else
      match lexeme text start with
      | none => none
      | some (.error f) => some (.error f)
      | some (.ok (kind, stop)) => (tokens fuel stop).map fun later =>
        later.map (⟨kind, start, stop⟩ :: ·)

end

section

variable {text cs : List Char} {c : Char} {pos : Nat} {p : Char → Bool}

theorem peek_at (h : At text pos cs) : peek text pos = (Text.units cs).head? := by
  rw [peek, ← h.units, List.head?_drop]

theorem peek_bind {α : Type} {f : Char → Option α} (hf : ∀ c, ¬ c.toNat < 128 → f c = none)
    (h : At text pos cs) : (peek text pos).bind f = cs.head?.bind f := by
  rw [peek_at h]
  rcases Text.head?_units cs with hHead | ⟨u, c, hUnit, hHead, hu, hc⟩
  · rw [hHead]
  · rw [hUnit, hHead, Option.bind_some, Option.bind_some, hf u hu, hf c hc]

theorem sees_at (hp : ∀ c, p c = true → c.toNat < 128) (h : At text pos cs) :
    sees text p pos = cs.head?.any p := by
  rw [sees, peek_at h]
  rcases Text.head?_units cs with hHead | ⟨u, c, hUnit, hHead, hu, hc⟩
  · rw [hHead]
  · rw [hUnit, hHead, Option.any_some, Option.any_some,
      Bool.eq_false_iff.mpr fun h => hu (hp u h), Bool.eq_false_iff.mpr fun h => hc (hp c h)]

theorem eat_eq (text : List Char) (p : Char → Bool) (pos : Nat) :
    eat text p pos = pos + (((Text.units text).drop pos).takeWhile p).length := by
  fun_induction eat text p pos with
  | case1 pos u hUnit hp ih =>
    obtain ⟨hLength, rfl⟩ := List.getElem?_eq_some_iff.mp hUnit
    rw [ih, List.drop_eq_getElem_cons hLength, List.takeWhile_cons_of_pos hp, List.length_cons]
    omega
  | case2 pos u hUnit hp =>
    obtain ⟨hLength, rfl⟩ := List.getElem?_eq_some_iff.mp hUnit
    rw [List.drop_eq_getElem_cons hLength, List.takeWhile_cons_of_neg hp]
    rfl
  | case3 pos hUnit =>
    rw [List.drop_of_length_le (List.getElem?_eq_none_iff.mp hUnit)]
    rfl

theorem byteLength_takeWhile (hp : ∀ c, p c = true → c.toNat < 128) (cs : List Char) :
    Text.byteLength (cs.takeWhile p) = (cs.takeWhile p).length :=
  Text.byteLength_of_ascii fun c hc => hp c (List.mem_takeWhile_imp hc)

theorem eat_at (hp : ∀ c, p c = true → c.toNat < 128) (h : At text pos cs) :
    eat text p pos = pos + Text.byteLength (cs.takeWhile p) := by
  rw [eat_eq, h.units, Text.takeWhile_units hp, byteLength_takeWhile hp]

theorem sees_point (h : At text pos cs) : sees text (· = '.') pos = cs.head?.any (· = '.') :=
  sees_at (by simp +contextual) h

theorem sees_digit (h : At text pos cs) : sees text Char.isDigit pos = cs.head?.any Char.isDigit :=
  sees_at (fun _ => Scan.ascii_of_isDigit) h

theorem eat_digits (h : At text pos cs) :
    eat text Char.isDigit pos = pos + Text.byteLength (cs.takeWhile Char.isDigit) :=
  eat_at (fun _ => Scan.ascii_of_isDigit) h

theorem fraction_at (h : At text pos cs) :
    fraction text pos = pos + Text.byteLength (Scan.fraction cs).front := by
  rw [fraction, sees_point h]
  rcases Scan.fraction_cases cs with ⟨d, ds, rfl, hd⟩ | ⟨hNone, hPoint⟩
  · have hNext : At text (pos + 1) (d :: ds) := h.next_ascii (by decide)
    rw [Scan.fraction, if_pos hd, if_pos (by rw [sees_digit hNext]; simpa using hd),
      eat_digits hNext, Nat.add_assoc]
    rfl
  · have hSees : ¬((cs.head?.any (· = '.') && sees text Char.isDigit (pos + 1)) = true) := by
      intro hSees
      obtain ⟨hHead, hDigit⟩ := Bool.and_eq_true_iff.mp hSees
      cases cs with
      | nil => cases hHead
      | cons c cs =>
        obtain rfl : c = '.' := by simpa using hHead
        rw [sees_digit (h.next_ascii (by decide))] at hDigit
        cases cs with
        | nil => cases hDigit
        | cons d ds => exact hPoint d ds rfl hDigit
    rw [hNone, if_neg hSees]
    rfl

theorem sign_at (h : At text pos cs) :
    sign text pos = pos + Text.byteLength (Scan.sign cs).front := by
  rw [sign, sees_at (by simp +contextual) h]
  rcases Scan.sign_cases cs with ⟨c, ds, rfl, rfl | rfl⟩ | ⟨hNone, hSign⟩
  · rfl
  · rfl
  · have hSees : (cs.head?.any fun c => c = '+' || c = '-') = false := by
      cases cs with
      | nil => rfl
      | cons c cs => simpa using hSign
    rw [hNone, hSees]
    rfl

theorem exponent_at (h : At text pos cs) : exponent text pos =
    (Scan.exponent cs).map fun cut => pos + Text.byteLength cut.front := by
  rw [exponent, sees_at (by simp +contextual) h]
  cases cs with
  | nil => rfl
  | cons c cs =>
    rw [Scan.exponent, List.head?_cons, Option.any_some]
    by_cases hc : c = 'e' ∨ c = 'E'
    · have hSize : c.utf8Size = 1 := by rcases hc with rfl | rfl <;> rfl
      have hNext : At text (pos + 1) cs := hSize ▸ h.next
      have hSign := sign_at hNext
      have hDigits := eat_digits (hNext.behind_cut (Scan.sign cs))
      rw [← hSign] at hDigits
      rw [if_pos (by simpa using hc), if_pos hc]
      dsimp only [Scan.Cut.takeWhile]
      by_cases hNone : (Scan.sign cs).rest.takeWhile Char.isDigit = []
      · rw [if_pos hNone, hDigits, hNone]
        exact if_pos rfl
      · have hSome := Text.byteLength_pos hNone
        rw [if_neg hNone, hDigits, if_neg (by omega), Option.map_some]
        simp only [hSign, List.cons_append, Text.byteLength_cons, Text.byteLength_append, hSize,
          Nat.add_assoc]
    · rw [if_neg (by simpa using hc), if_neg hc]
      rfl

def outcome {source : List Char} (start : Nat) (l : Except SourceFault (Lexeme source)) : Outcome :=
  some (l.map fun l => (l.kind, start + Text.byteLength l.spelling))

theorem number_ne_nil (hNumber : Scan.startsNumber c cs = true) :
    (c :: cs).takeWhile Char.isDigit ++ (Scan.fraction ((c :: cs).dropWhile Char.isDigit)).front ≠
      [] := by
  rcases Scan.startsNumber_cases hNumber with hc | ⟨d, ds, rfl, rfl, hd⟩
  · rw [List.takeWhile_cons_of_pos hc]
    exact List.cons_ne_nil _ _
  · rw [List.dropWhile_cons_of_neg (by decide), Scan.fraction, if_pos hd]
    exact List.append_ne_nil_of_right_ne_nil _ (List.cons_ne_nil _ _)

theorem number_at (h : At text pos (c :: cs)) (hNumber : Scan.startsNumber c cs = true) :
    number text pos = outcome pos (Scan.number pos c cs) := by
  have hWhole := eat_digits h
  have hBehind := h.behind_takeWhile Char.isDigit
  have hPart := fraction_at hBehind
  have hPower := exponent_at (hBehind.behind_cut (Scan.fraction _))
  rw [← hPart, ← hWhole] at hPower
  rw [number, Scan.number]
  dsimp only [Scan.Cut.takeWhile]
  rw [hPower, hWhole, hPart]
  cases hExponent : Scan.exponent (Scan.fraction ((c :: cs).dropWhile Char.isDigit)).rest with
  | none =>
    dsimp only [Option.map_none]
    rw [byteLength_takeWhile (fun _ => Scan.ascii_of_isDigit),
      Text.byteLength_of_ascii (Scan.ascii_fraction _)]
    rfl
  | some power =>
    have hNonempty := number_ne_nil hNumber
    have hSpelling : (c :: cs).takeWhile Char.isDigit ++
        ((Scan.fraction ((c :: cs).dropWhile Char.isDigit)).front ++ power.front) ≠ [] := by
      rw [← List.append_assoc]
      exact List.append_ne_nil_of_left_ne_nil hNonempty _
    have hSource : c :: cs = ((c :: cs).takeWhile Char.isDigit ++
        ((Scan.fraction ((c :: cs).dropWhile Char.isDigit)).front ++ power.front)) ++
          power.rest := by
      simp only [List.append_assoc, power.front_append_rest, Scan.Cut.front_append_rest,
        List.takeWhile_append_dropWhile]
    have hSlice := Text.At.slice? (hSource ▸ h)
    simp only [Text.byteLength_append, ← Nat.add_assoc] at hSlice
    dsimp only [Option.map_some]
    rw [hSlice, dif_neg hSpelling]
    simp only [Option.map_some, outcome, Except.map, Text.byteLength_append, Nat.add_assoc]

theorem word_at (h : At text pos (c :: cs)) (hc : Scan.isWordStart c = true) :
    word text pos = outcome pos (.ok (Scan.word c cs)) := by
  have hPart : Scan.isWordPart c = true := Scan.isWordPart_iff.mpr (.inl hc)
  have hEat := eat_at (fun _ => Scan.ascii_of_isWordPart) h
  rw [← (c :: cs).takeWhile_append_dropWhile (p := Scan.isWordPart)] at h
  rw [word, hEat, h.slice?, List.takeWhile_cons_of_pos hPart]
  rfl

theorem quoted_eq {quote : Char} (hQuote : quote.utf8Size = 1) (start pos : Nat) (cs : List Char) :
    quoted quote start pos cs = match Scan.quoted quote cs with
      | .closed value cut _ => .ok (value, pos + Text.byteLength cut.front)
      | .unterminated => .error ⟨start, .unterminatedText⟩
      | .unknownEscape before e => .error ⟨pos + before, .unknownEscape e⟩ := by
  fun_induction Scan.quoted quote cs generalizing pos with
  | case1 => rfl
  | case2 =>
    rw [quoted, if_pos rfl, ← hQuote]
    rfl
  | case3 c hc =>
    rw [quoted, if_neg hc]
    split
    · rfl
    · rfl
  | case4 e cs =>
    rw [quoted, if_pos rfl, ← hQuote]
    rfl
  | case5 e cs value he hc ih =>
    rw [quoted, if_neg hc, if_pos rfl, he]
    dsimp only
    rw [ih]
    cases Scan.quoted quote cs <;>
      simp only [Except.map, Scan.Quoted.escaped, Scan.Cut.cons, Text.byteLength_cons,
        Nat.add_assoc]
  | case6 e cs he hc =>
    rw [quoted, if_neg hc, if_pos rfl, he]
    rfl
  | case7 c e cs hc hSlash ih =>
    rw [quoted, if_neg hc, if_neg hSlash, ih]
    cases Scan.quoted quote (e :: cs) <;>
      simp only [Except.map, Scan.Quoted.cons, Scan.Cut.cons, Text.byteLength_cons, Nat.add_assoc]

theorem string_at (h : At text pos (c :: cs)) (hc : c.utf8Size = 1) :
    string text c pos = outcome pos (Scan.string pos c cs) := by
  have hBehind := h.next.behind?
  rw [hc] at hBehind
  rw [string, hBehind, Option.map_some, quoted_eq hc, Scan.string]
  cases Scan.quoted c cs <;>
    simp only [outcome, Except.map, Text.byteLength_cons, hc, Nat.add_assoc]

theorem pairKind_eq_none {d : Char} (h : ¬ (c.toNat < 128 ∧ d.toNat < 128)) :
    Scan.pairKind c d = none := by
  unfold Scan.pairKind
  split
  all_goals first | rfl | exact absurd (by decide) h

theorem markKind_eq_none (h : ¬ c.toNat < 128) : Scan.markKind c = none := by
  unfold Scan.markKind
  split
  all_goals first | rfl | exact absurd (by decide) h

theorem peek_pair (h : At text pos (c :: cs)) :
    ((peek text pos).bind fun c => (peek text (pos + 1)).bind (Scan.pairKind c)) =
      cs.head?.bind (Scan.pairKind c) := by
  have hNone {c : Char} (hc : ¬ c.toNat < 128) (o : Option Char) :
      o.bind (Scan.pairKind c) = none :=
    Option.bind_eq_none_iff.mpr fun _ _ => pairKind_eq_none fun h => hc h.1
  rw [peek_bind (fun c hc => hNone hc _) h, List.head?_cons, Option.bind_some]
  by_cases hc : c.toNat < 128
  · exact peek_bind (fun d hd => pairKind_eq_none fun h => hd h.2) (h.next_ascii hc)
  · rw [hNone hc, hNone hc]

theorem single_at (h : At text pos (c :: cs)) :
    single text pos = outcome pos (Scan.mark.single pos c cs) := by
  rw [single, peek_bind (fun _ => markKind_eq_none) h, h.behind?, Scan.mark.single, List.head?_cons,
    Option.bind_some]
  cases hKind : Scan.markKind c with
  | none => rfl
  | some kind =>
    have hc : c.toNat < 128 := by
      by_contra hc
      cases (markKind_eq_none hc).symm.trans hKind
    simp only [outcome, Except.map, Text.byteLength_cons, Text.byteLength_nil,
      Text.utf8Size_of_ascii hc]

theorem mark_at (h : At text pos (c :: cs)) : mark text pos = outcome pos (Scan.mark pos c cs) := by
  rw [mark, peek_pair h, single_at h]
  cases cs with
  | nil => rfl
  | cons d ds =>
    rw [List.head?_cons, Option.bind_some, Scan.mark]
    cases hKind : Scan.pairKind c d with
    | none => rfl
    | some kind =>
      obtain ⟨hc, hd⟩ : c.toNat < 128 ∧ d.toNat < 128 := by
        by_contra h
        cases (pairKind_eq_none h).symm.trans hKind
      simp only [outcome, Except.map, Text.byteLength_cons, Text.byteLength_nil,
        Text.utf8Size_of_ascii hc, Text.utf8Size_of_ascii hd]

theorem sees_number (h : At text pos (c :: cs)) :
    (sees text Char.isDigit pos ||
      (sees text (· = '.') pos && sees text Char.isDigit (pos + 1))) = Scan.startsNumber c cs := by
  rw [sees_digit h, sees_point h, List.head?_cons, Option.any_some, Option.any_some]
  by_cases hc : c = '.'
  · subst hc
    rw [sees_digit (h.next_ascii (by decide))]
    cases cs <;> rfl
  · cases cs <;> simp [Scan.startsNumber, hc]

/-- The rules find the lexeme that scanning by characters finds. -/
theorem lexeme_at (h : At text pos (c :: cs)) :
    lexeme text pos = outcome pos (Scan.lexeme pos c cs) := by
  have hSees (a : Char) (ha : a.toNat < 128) : sees text (· = a) pos = decide (c = a) :=
    sees_at (by simpa using ha) h
  have hWord : sees text Scan.isWordStart pos = Scan.isWordStart c :=
    sees_at (fun _ ha => Scan.ascii_of_isWordPart (Scan.isWordPart_iff.mpr (.inl ha))) h
  rw [lexeme, Scan.lexeme, sees_number h, hSees '"' (by decide), hSees '\'' (by decide), hWord]
  split
  · exact number_at h ‹_›
  by_cases hDouble : c = '"'
  · subst hDouble
    exact string_at h rfl
  by_cases hSingle : c = '\''
  · subst hSingle
    exact string_at h rfl
  have hQuote : ¬(c = '"' ∨ c = '\'') := not_or.mpr ⟨hDouble, hSingle⟩
  rw [if_neg (by simpa using hDouble), if_neg (by simpa using hSingle), if_neg hQuote]
  split
  · exact word_at h ‹_›
  · exact mark_at h

/-- Byte by byte, with a round for each character, scanning comes to the same tokens or to the same
fault, and every cut is allowed. -/
theorem tokens_at {fuel : Nat} (h : At text pos cs) (hFuel : cs.length < fuel) :
    tokens text fuel pos = some (Scan.tokens pos cs) := by
  induction fuel generalizing pos cs with
  | zero => cases hFuel
  | succ fuel ih =>
    have hBehind := h.behind_takeWhile Text.isBlank
    have hEat := eat_at (p := Text.isBlank) (fun _ => Scan.ascii_of_isBlank) h
    -- Scanning counts blanks by characters, the rules by bytes; for ASCII both are the same.
    rw [byteLength_takeWhile (fun _ => Scan.ascii_of_isBlank)] at hBehind hEat
    rw [Scan.tokens]
    split
    · rename_i hNil
      rw [tokens, hEat, peek_at hBehind, hNil]
      obtain ⟨front, rfl, hFront⟩ := hBehind
      rw [hNil, List.append_nil, hFront]
      rfl
    · rename_i c rest hCons
      rw [hCons] at hBehind
      rw [tokens, hEat, peek_at hBehind, Text.isNone_head?_units, if_neg Bool.false_ne_true,
        lexeme_at hBehind]
      cases hLexeme : Scan.lexeme (pos + (cs.takeWhile Text.isBlank).length) c rest with
      | error f => rfl
      | ok l =>
        have hShort : l.rest.length < fuel := by
          have := l.length_rest_lt
          have := (List.dropWhile_suffix (p := Text.isBlank) (l := cs)).length_le
          rw [hCons] at this
          omega
        rw [← l.spelling_append_rest] at hBehind
        dsimp only [outcome, Except.map]
        rw [ih hBehind.skip hShort]
        cases Scan.tokens (pos + (cs.takeWhile Text.isBlank).length + Text.byteLength l.spelling)
          l.rest <;> rfl

end

def read (fuel : Nat) (text : List Char) : Option (Except SourceFault Node) :=
  if text.isEmpty then some (.error ⟨0, .empty⟩)
  else
    match tokens text fuel 0 with
    | none => none
    | some (.error f) => some (.error f)
    | some (.ok ts) => Reading.Numbered.complete ts fuel

theorem exists_read (s : String) :
    ∃ n, ∀ fuel ≥ n, read fuel (Text.trim s.toList) = some (Node.read s) := by
  rw [Node.read]
  split
  · rename_i hEmpty
    exact ⟨0, fun _ _ => by rw [read, hEmpty]; rfl⟩
  · rename_i hNonempty
    have hTokens {fuel : Nat} (hFuel : fuel ≥ (Text.trim s.toList).length + 1) :=
      tokens_at (Text.At.start (Text.trim s.toList)) hFuel
    have hEmpty : (Text.trim s.toList).isEmpty = false := by simpa using hNonempty
    split
    · rename_i f hFault
      refine ⟨(Text.trim s.toList).length + 1, fun fuel hFuel => ?_⟩
      rw [read, hEmpty, if_neg Bool.false_ne_true, hTokens hFuel, hFault]
    · rename_i ts hOk
      obtain ⟨row, last, hRow, hLast, -⟩ := Scan.tokens_readable hOk
      have hEnd : ts.getLast?.map Token.kind = some .eof := by simp [hRow, hLast]
      obtain ⟨n, hComplete⟩ := Reading.numbered_complete hEnd
      -- Tokens and tree need rounds of their own, and more rounds than needed change nothing.
      refine ⟨max n ((Text.trim s.toList).length + 1), fun fuel hFuel => ?_⟩
      rw [read, hEmpty, if_neg Bool.false_ne_true,
        hTokens (Nat.le_trans (Nat.le_max_right _ _) hFuel), hOk]
      exact hComplete fuel (Nat.le_trans (Nat.le_max_left _ _) hFuel)

end Bytewise

/-- A trimmed text is read from its bytes with every cut between characters and every number inside
the list of tokens, in as many rounds as it has characters for the tokens. Its tokens lie in it in
order, and a fault is noticed between two of its characters. -/
theorem Node.read_safe (s : String) :
    (∀ fuel > (Text.trim s.toList).length,
      Bytewise.tokens (Text.trim s.toList) fuel 0 = some (Scan.tokens 0 (Text.trim s.toList))) ∧
    (∃ n, ∀ fuel ≥ n, Bytewise.read fuel (Text.trim s.toList) = some (Node.read s)) ∧
    (∀ ts, Scan.tokens 0 (Text.trim s.toList) = .ok ts → Spans (Text.trim s.toList) ts) ∧
    ∀ f, Node.read s = .error f → f.offset ≤ Text.byteLength (Text.trim s.toList) ∧
      Text.Between 0 (Text.trim s.toList) f.offset := by
  refine ⟨fun fuel hFuel => Bytewise.tokens_at (.start _) hFuel, Bytewise.exists_read s,
    fun ts => Scan.spans_of_tokens, fun f hf => ?_⟩
  have hBetween := Node.between_of_fault hf
  exact ⟨by simpa using hBetween.bounds.2, hBetween⟩

theorem Node.read_safe_quoted :
    Scan.tokens 0 (Text.trim "\t'é€' + a ".toList) =
      .ok [⟨.text "é€", 0, 7⟩, ⟨.plus, 8, 9⟩, ⟨.ident "a", 10, 11⟩, ⟨.eof, 11, 11⟩] ∧
    Spans (Text.trim "\t'é€' + a ".toList)
      [⟨.text "é€", 0, 7⟩, ⟨.plus, 8, 9⟩, ⟨.ident "a", 10, 11⟩, ⟨.eof, 11, 11⟩] ∧
    Node.read "'é€' + é" = .error ⟨10, .unexpectedCharacter 'é'⟩ ∧
    Text.Between 0 "'é€' + é".toList 10 := by
  have hTokens : Scan.tokens 0 (Text.trim "\t'é€' + a ".toList) =
      .ok [⟨.text "é€", 0, 7⟩, ⟨.plus, 8, 9⟩, ⟨.ident "a", 10, 11⟩, ⟨.eof, 11, 11⟩] := by cbv
  have hRead : Node.read "'é€' + é" = .error ⟨10, .unexpectedCharacter 'é'⟩ := by cbv
  have hTrim : Text.trim "'é€' + é".toList = "'é€' + é".toList := by decide
  refine ⟨hTokens, (Node.read_safe _).2.2.1 _ hTokens, hRead, ?_⟩
  rw [← hTrim]
  exact ((Node.read_safe _).2.2.2 _ hRead).2

end Blockwork
