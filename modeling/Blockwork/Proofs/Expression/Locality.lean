import Blockwork.Proofs.Expression.Lexemes

/-! # Lexemes by themselves

Where a lexeme ends depends on the character behind it, and for a number on a point with a digit
behind it. So the lexeme stays as it is when blanks come in front of the text behind it. No lexeme
has white space at its ends.
-/

set_option autoImplicit false

namespace Blockwork

theorem Lexeme.exists_cons {c : Char} {cs : List Char} (l : Lexeme (c :: cs)) :
    ∃ later, l.spelling = c :: later ∧ later ++ l.rest = cs := by
  obtain ⟨a, later, hSpelling⟩ := List.exists_cons_of_ne_nil l.spelling_ne_nil
  have hSource := l.spelling_append_rest
  rw [hSpelling] at hSource
  obtain ⟨rfl, hLater⟩ := List.cons.inj hSource
  exact ⟨later, hSpelling, hLater⟩

namespace Scan

/-- What may stand behind a lexeme in place of its rest: blanks, or a text that begins like the
rest. A point with a digit behind it may stand there only if it is the beginning of the rest. -/
structure Kept (rest other : List Char) : Prop where
  head : ∀ c ∈ other.head?, Text.isBlank c = true ∨ rest.head? = some c
  point : ∀ {d : Char} {cs : List Char}, other = '.' :: d :: cs → d.isDigit = true →
    ∃ ds, rest = '.' :: d :: ds

section

variable {rest other : List Char}

theorem isBlank_of_isDigit {c : Char} (h : c.isDigit = true) : Text.isBlank c = false :=
  isBlank_of_isWordPart (isWordPart_of_isDigit h)

theorem Kept.of_append (other back : List Char) : Kept (other ++ back) other where
  head c hc := by
    cases other with
    | nil => cases hc
    | cons a other => exact .inr hc
  point h _ := ⟨_, by rw [h]; rfl⟩

theorem Kept.refl (rest : List Char) : Kept rest rest := by
  simpa using Kept.of_append rest []

theorem Kept.of_blank {b : Char} (hb : Text.isBlank b = true) (rest other : List Char) :
    Kept rest (b :: other) where
  head c hc := by
    obtain rfl := Option.some.inj hc
    exact .inl hb
  point h _ := by
    obtain ⟨rfl, -⟩ := List.cons.inj h
    cases hb

theorem Kept.append (h : Kept rest other) (front : List Char) :
    Kept (front ++ rest) (front ++ other) := by
  -- A point with a digit behind it may have both of them, one of them or none in `front`.
  match front with
  | [] => exact h
  | [a] =>
    refine ⟨fun c hc => .inr hc, fun {d cs} hPoint hd => ?_⟩
    obtain ⟨rfl, rfl⟩ := List.cons.inj hPoint
    rcases h.head d rfl with hBlank | hHead
    · cases (isBlank_of_isDigit hd).symm.trans hBlank
    · cases rest with
      | nil => cases hHead
      | cons b rest =>
        obtain rfl := Option.some.inj hHead
        exact ⟨rest, rfl⟩
  | a :: b :: front =>
    refine ⟨fun c hc => .inr hc, fun {d cs} hPoint hd => ?_⟩
    obtain ⟨ha, hPoint⟩ := List.cons.inj hPoint
    obtain ⟨hb, -⟩ := List.cons.inj hPoint
    exact ⟨front ++ rest, by rw [ha, hb]; rfl⟩

theorem Kept.takeWhile {p : Char → Bool} (hp : ∀ c, p c = true → Text.isBlank c = false)
    {cs : List Char} (h : Kept (cs.dropWhile p) other) :
    (cs.takeWhile p ++ other).takeWhile p = cs.takeWhile p ∧
      (cs.takeWhile p ++ other).dropWhile p = other := by
  have hFront : ∀ c ∈ cs.takeWhile p, p c = true := fun _ => List.mem_takeWhile_imp
  rw [List.takeWhile_append_of_pos hFront, List.dropWhile_append_of_pos hFront]
  cases other with
  | nil => simp
  | cons c other =>
    have hc : ¬ p c = true := fun hc => by
      rcases h.head c rfl with hBlank | hHead
      · cases (hp c hc).symm.trans hBlank
      · have hNot := List.head?_dropWhile_not p cs
        rw [hHead] at hNot
        simp [hc] at hNot
    simp [hc]

theorem Kept.digits {cs : List Char} (h : Kept (cs.dropWhile Char.isDigit) other) :
    (cs.takeWhile Char.isDigit ++ other).takeWhile Char.isDigit = cs.takeWhile Char.isDigit ∧
      (cs.takeWhile Char.isDigit ++ other).dropWhile Char.isDigit = other :=
  h.takeWhile fun _ => isBlank_of_isDigit

theorem Kept.fraction {cs : List Char} (h : Kept (fraction cs).rest other) :
    (Scan.fraction ((Scan.fraction cs).front ++ other)).front = (Scan.fraction cs).front ∧
      (Scan.fraction ((Scan.fraction cs).front ++ other)).rest = other := by
  rcases fraction_cases cs with ⟨d, ds, rfl, hd⟩ | ⟨hFraction, hPoint⟩
  · rw [Scan.fraction, if_pos hd] at h ⊢
    obtain ⟨hTake, hDrop⟩ := h.digits
    change (Scan.fraction ('.' :: ((d :: ds).takeWhile Char.isDigit ++ other))).front =
        '.' :: (d :: ds).takeWhile Char.isDigit ∧
      (Scan.fraction ('.' :: ((d :: ds).takeWhile Char.isDigit ++ other))).rest = other
    rw [List.takeWhile_cons_of_pos hd] at hTake hDrop ⊢
    rw [List.cons_append, Scan.fraction, if_pos hd]
    exact ⟨congrArg (List.cons '.') hTake, hDrop⟩
  · rw [hFraction] at h ⊢
    change (Scan.fraction other).front = [] ∧ (Scan.fraction other).rest = other
    rcases fraction_cases other with ⟨d, ds, rfl, hd⟩ | ⟨hOther, -⟩
    · obtain ⟨es, hRest⟩ := h.point rfl hd
      exact absurd hd (hPoint d es hRest)
    · rw [hOther]
      exact ⟨rfl, rfl⟩

theorem sign_digits {cs digits : List Char} (hNonempty : digits ≠ [])
    (hDigits : ∀ c ∈ digits, c.isDigit = true) (other : List Char) :
    (sign ((sign cs).front ++ (digits ++ other))).front = (sign cs).front ∧
      (sign ((sign cs).front ++ (digits ++ other))).rest = digits ++ other := by
  rcases sign_cases cs with ⟨c, ds, rfl, rfl | rfl⟩ | ⟨hNone, -⟩
  · exact ⟨rfl, rfl⟩
  · exact ⟨rfl, rfl⟩
  · obtain ⟨d, ds, rfl⟩ := List.exists_cons_of_ne_nil hNonempty
    have hd := hDigits d List.mem_cons_self
    rw [hNone]
    change (sign (d :: (ds ++ other))).front = [] ∧
      (sign (d :: (ds ++ other))).rest = d :: (ds ++ other)
    rcases sign_cases (d :: (ds ++ other)) with ⟨c, _, hCons, hc⟩ | ⟨hNone, -⟩
    · obtain ⟨rfl, -⟩ := List.cons.inj hCons
      rcases hc with rfl | rfl <;> cases hd
    · rw [hNone]
      exact ⟨rfl, rfl⟩

theorem raised_digits {mark : Char} {cs signs digits rest : List Char}
    (hMark : mark = 'e' ∨ mark = 'E') (hSign : (sign cs).front = signs)
    (hDigits : (sign cs).rest.takeWhile Char.isDigit = digits) (hNonempty : digits ≠ [])
    (hRest : (sign cs).rest.dropWhile Char.isDigit = rest) :
    Raised (mark :: cs) (mark :: signs ++ digits) rest := by
  subst hSign hDigits hRest
  rw [Raised, exponent, if_pos hMark]
  dsimp only [Cut.takeWhile]
  rw [if_neg hNonempty]
  exact ⟨_, rfl, rfl, rfl⟩

theorem Kept.exponent {cs front rest : List Char} (hRaised : Raised cs front rest)
    (h : Kept rest other) : Raised (front ++ other) front other := by
  obtain ⟨cut, hCut, rfl, rfl⟩ := hRaised
  have hNone (hHead : ∀ c ∈ cs.head?, ¬(c = 'e' ∨ c = 'E')) (hKept : Kept cs other) :
      Raised other [] other := by
    cases other with
    | nil => exact ⟨.none [], rfl, rfl, rfl⟩
    | cons c other =>
      refine raised_of_not (fun hc => ?_) other
      rcases hKept.head c rfl with hBlank | hc'
      · rcases hc with rfl | rfl <;> cases hBlank
      · exact hHead c hc' hc
  cases cs with
  | nil =>
    obtain rfl := Option.some.inj hCut
    exact hNone nofun h
  | cons c cs =>
    by_cases hc : c = 'e' ∨ c = 'E'
    · rw [Scan.exponent, if_pos hc] at hCut
      dsimp only at hCut
      split at hCut
      · cases hCut
      · rename_i hDigits
        obtain rfl := Option.some.inj hCut
        obtain ⟨hTake, hDrop⟩ := Kept.digits h
        obtain ⟨hFront, hRest⟩ := sign_digits hDigits (fun _ => List.mem_takeWhile_imp) other
        dsimp only [Cut.takeWhile] at hDigits hFront hRest ⊢
        rw [List.append_assoc, List.cons_append]
        exact raised_digits hc hFront (by rw [hRest, hTake]) hDigits (by rw [hRest, hDrop])
    · rw [Scan.exponent, if_neg hc] at hCut
      obtain rfl := Option.some.inj hCut
      exact hNone (by simpa using hc) h

end

section

variable {offset : Nat} {c : Char} {cs other : List Char} {l : Lexeme (c :: cs)}

/-- What a text begins with is a lexeme wherever the text starts. -/
def Begins (source : List Char) (kind : TokenKind) (rest : List Char) : Prop :=
  ∃ c cs, source = c :: cs ∧ ∀ offset, ∃ l : Lexeme (c :: cs),
    lexeme offset c cs = .ok l ∧ l.kind = kind ∧ l.rest = rest

theorem startsNumber_kept {later : List Char} (hNumber : startsNumber c cs = true)
    (h : number offset c cs = .ok l) (hSpelling : l.spelling = c :: later) (other : List Char) :
    startsNumber c (later ++ other) = true := by
  rcases startsNumber_cases hNumber with hc | ⟨d, ds, rfl, rfl, hd⟩
  · exact startsNumber_of_isDigit hc _
  · obtain ⟨_, _, power, rfl, rfl, -, hParts, -⟩ := number_inv h
    rw [hSpelling, List.takeWhile_cons_of_neg (by decide), List.dropWhile_cons_of_neg (by decide),
      fraction, if_pos hd] at hParts
    obtain ⟨-, hLater⟩ := List.cons.inj hParts
    change later = (d :: ds).takeWhile Char.isDigit ++ power at hLater
    rw [hLater, List.takeWhile_cons_of_pos hd]
    simp [startsNumber, hd]

theorem number_kept (hNumber : startsNumber c cs = true) (h : number offset c cs = .ok l)
    (hKept : Kept l.rest other) : Begins (l.spelling ++ other) l.kind other := by
  obtain ⟨later, hLater, -⟩ := l.exists_cons
  have hStarts := startsNumber_kept hNumber h hLater other
  have hNonempty := l.spelling_ne_nil
  obtain ⟨_, _, power, rfl, rfl, hPower, hSpelling, hKind⟩ := number_inv h
  -- From the last part to the first, each part is kept in front of what is kept behind it.
  have hPowerKept := hKept.append power
  rw [hPower.append] at hPowerKept
  have hPartKept := hPowerKept.append (fraction ((c :: cs).dropWhile Char.isDigit)).front
  rw [Cut.front_append_rest] at hPartKept
  obtain ⟨hPart, hPartRest⟩ := hPowerKept.fraction
  obtain ⟨hWhole, hWholeRest⟩ := hPartKept.digits
  have hSource : c :: (later ++ other) = (c :: cs).takeWhile Char.isDigit ++
      ((fraction ((c :: cs).dropWhile Char.isDigit)).front ++ (power ++ other)) := by
    rw [← List.cons_append, ← hLater, hSpelling]
    simp only [List.append_assoc]
  rw [← hSource] at hWhole hWholeRest
  rw [hLater, hKind]
  refine ⟨c, later ++ other, rfl, fun offset => ?_⟩
  rw [lexeme_startsNumber hStarts]
  rw [hSpelling] at hNonempty ⊢
  obtain ⟨m, hm, hRest, hKind⟩ := number_of_parts hWhole hWholeRest hPart
    (hPartRest.symm ▸ hKept.exponent hPower) hNonempty offset
  exact ⟨m, hm, hKind, hRest⟩

theorem word_kept (hc : isWordStart c = true) (hKept : Kept (word c cs).rest other) :
    Begins ((word c cs).spelling ++ other) (word c cs).kind other := by
  obtain ⟨hTake, hDrop⟩ := hKept.takeWhile fun _ => isBlank_of_isWordPart
  refine ⟨c, cs.takeWhile isWordPart ++ other, rfl, fun offset => ?_⟩
  refine ⟨_, lexeme_word hc offset _, ?_, hDrop⟩
  change wordKind (String.ofList (c :: (cs.takeWhile isWordPart ++ other).takeWhile isWordPart)) = _
  rw [hTake]
  rfl

theorem closed_induction {quote : Char} {motive : (cs value : List Char) → Cut cs → Prop}
    (close : ∀ cs, motive (quote :: cs) [] ⟨[quote], cs, rfl⟩)
    (escape : ∀ {e c : Char} {cs value : List Char} {inner : Cut cs}, '\\' ≠ quote →
      unescape e = some c → motive cs value inner →
        motive ('\\' :: e :: cs) (c :: value) ((inner.cons e).cons '\\'))
    (plain : ∀ {c : Char} {cs value : List Char} {inner : Cut cs}, c ≠ quote → c ≠ '\\' →
      motive cs value inner → motive (c :: cs) (c :: value) (inner.cons c))
    {cs value : List Char} {cut : Cut cs} {hNonempty : cut.front ≠ []}
    (h : quoted quote cs = .closed value cut hNonempty) : motive cs value cut := by
  fun_induction quoted quote cs generalizing value with
  | case1 => cases h
  | case2 | case4 =>
    cases h
    exact close _
  | case3 => cases h
  | case5 e cs _ he hQuote ih =>
    cases hInner : quoted quote cs with
    | closed value inner hInnerNonempty =>
      rw [hInner] at h
      cases h
      exact escape hQuote he (ih hInner)
    | _ =>
      rw [hInner] at h
      cases h
  | case6 => cases h
  | case7 c e cs hQuote hSlash ih =>
    cases hInner : quoted quote (e :: cs) with
    | closed value inner hInnerNonempty =>
      rw [hInner] at h
      cases h
      exact plain hQuote hSlash (ih hInner)
    | _ =>
      rw [hInner] at h
      cases h

theorem quoted_kept {quote : Char} {cs value : List Char} {cut : Cut cs}
    {hNonempty : cut.front ≠ []} (h : quoted quote cs = .closed value cut hNonempty)
    (other : List Char) : Closes (quoted quote (cut.front ++ other)) value other := by
  refine closed_induction
    (motive := fun _ value cut => Closes (quoted quote (cut.front ++ other)) value other)
    (fun _ => ?_) (fun hQuote he ih => ?_) (fun hQuote hSlash ih => ?_) h
  · exact closes_quote quote other
  · exact closes_escape hQuote he ih
  · exact closes_plain hQuote hSlash ih

theorem string_kept (hc : c = '"' ∨ c = '\'') (h : string offset c cs = .ok l) (other : List Char) :
    Begins (l.spelling ++ other) l.kind other := by
  rw [string] at h
  split at h
  · rename_i value cut hNonempty hQuoted
    obtain rfl := Except.ok.inj h
    obtain ⟨cut', hNonempty', hOther, hRest⟩ := quoted_kept hQuoted other
    refine ⟨c, cut.front ++ other, rfl, fun offset => ?_⟩
    have hNumber : startsNumber c (cut.front ++ other) = false := by
      rcases hc with rfl | rfl <;> cases cut.front ++ other <;> rfl
    rw [lexeme, hNumber, if_neg Bool.false_ne_true, if_pos hc, string, hOther]
    exact ⟨_, rfl, rfl, hRest⟩
  · cases h
  · cases h

theorem pairKind_blank {d : Char} (h : Text.isBlank d = true) : pairKind c d = none := by
  unfold pairKind
  split
  all_goals first | rfl | cases h

theorem single_kept (h : mark.single offset c cs = .ok l)
    (hPair : ∀ d ∈ cs.head?, pairKind c d = none) (hKept : Kept l.rest other) :
    Begins (l.spelling ++ other) l.kind other := by
  rw [mark.single] at h
  split at h
  · rename_i k hk
    obtain rfl := Except.ok.inj h
    refine (Lexes.mark hk fun d hd => ?_).lexeme
    rcases hKept.head d hd with hBlank | hHead
    · exact pairKind_blank hBlank
    · exact hPair d hHead
  · cases h

theorem mark_kept (h : mark offset c cs = .ok l) (hKept : Kept l.rest other) :
    Begins (l.spelling ++ other) l.kind other := by
  cases cs with
  | nil => exact single_kept h nofun hKept
  | cons d ds =>
    rw [mark] at h
    split at h
    · rename_i k hk
      obtain rfl := Except.ok.inj h
      exact (Lexes.pair hk).lexeme
    · rename_i hk
      exact single_kept h (by simpa using hk) hKept

/-- A lexeme is found in front of whatever may stand behind it. -/
theorem lexeme_kept (h : lexeme offset c cs = .ok l) (hKept : Kept l.rest other) :
    Begins (l.spelling ++ other) l.kind other := by
  rw [lexeme] at h
  split at h
  · exact number_kept ‹_› h hKept
  split at h
  · exact string_kept ‹_› h other
  split at h
  · obtain rfl := Except.ok.inj h
    exact word_kept ‹_› hKept
  · exact mark_kept h hKept

end

def Tight (source : List Char) : Prop :=
  (∀ c ∈ source.head?, Text.isWhiteSpace c = false) ∧
    ∀ c ∈ source.getLast?, Text.isWhiteSpace c = false

section

variable {offset : Nat} {c : Char} {cs : List Char} {l : Lexeme (c :: cs)}

theorem Tight.of_forall {source : List Char} (h : ∀ c ∈ source, Text.isWhiteSpace c = false) :
    Tight source :=
  ⟨fun c hc => h c (List.mem_of_head? hc), fun c hc => h c (List.mem_of_getLast? hc)⟩

theorem isWhiteSpace_of_isDigit (h : c.isDigit = true) : Text.isWhiteSpace c = false :=
  isWhiteSpace_of_isWordPart (isWordPart_of_isDigit h)

theorem isWhiteSpace_digits (cs : List Char) :
    ∀ c ∈ cs.takeWhile Char.isDigit, Text.isWhiteSpace c = false :=
  fun _ hc => isWhiteSpace_of_isDigit (List.mem_takeWhile_imp hc)

theorem isWhiteSpace_fraction (cs : List Char) :
    ∀ c ∈ (fraction cs).front, Text.isWhiteSpace c = false := by
  intro c hc
  rcases mem_fraction hc with rfl | hDigit
  · rfl
  · exact isWhiteSpace_of_isDigit hDigit

theorem isWhiteSpace_sign (cs : List Char) :
    ∀ c ∈ (sign cs).front, Text.isWhiteSpace c = false := by
  rcases sign_cases cs with ⟨c, ds, rfl, rfl | rfl⟩ | ⟨hNone, -⟩
  · exact List.forall_mem_singleton.mpr rfl
  · exact List.forall_mem_singleton.mpr rfl
  · rw [hNone]
    exact List.forall_mem_nil _

theorem isWhiteSpace_exponent {cs front rest : List Char} (h : Raised cs front rest) :
    ∀ c ∈ front, Text.isWhiteSpace c = false := by
  obtain ⟨cut, hCut, rfl, -⟩ := h
  cases cs with
  | nil =>
    obtain rfl := Option.some.inj hCut
    exact List.forall_mem_nil _
  | cons c cs =>
    by_cases hc : c = 'e' ∨ c = 'E'
    · rw [exponent, if_pos hc] at hCut
      dsimp only at hCut
      split at hCut
      · cases hCut
      · obtain rfl := Option.some.inj hCut
        refine List.forall_mem_append.mpr ⟨List.forall_mem_cons.mpr ⟨?_, isWhiteSpace_sign _⟩,
          isWhiteSpace_digits _⟩
        rcases hc with rfl | rfl <;> rfl
    · rw [exponent, if_neg hc] at hCut
      obtain rfl := Option.some.inj hCut
      exact List.forall_mem_nil _

theorem tight_number (h : number offset c cs = .ok l) : Tight l.spelling := by
  obtain ⟨_, _, power, rfl, rfl, hPower, hSpelling, -⟩ := number_inv h
  rw [hSpelling]
  exact .of_forall (List.forall_mem_append.mpr ⟨isWhiteSpace_digits _,
    List.forall_mem_append.mpr ⟨isWhiteSpace_fraction _, isWhiteSpace_exponent hPower⟩⟩)

theorem getLast?_quoted {quote : Char} {cs value : List Char} {cut : Cut cs}
    {hNonempty : cut.front ≠ []} (h : quoted quote cs = .closed value cut hNonempty) :
    cut.front.getLast? = some quote := by
  refine closed_induction (motive := fun _ _ cut => cut.front.getLast? = some quote)
    (fun _ => rfl) (fun _ _ ih => ?_) (fun _ _ ih => ?_) h
  · simp [Cut.cons, List.getLast?_cons, ih]
  · simp [Cut.cons, List.getLast?_cons, ih]

theorem markKind_tight {k : TokenKind} (h : markKind c = some k) : Text.isWhiteSpace c = false := by
  unfold markKind at h
  split at h
  all_goals first | rfl | cases h

theorem pairKind_tight {d : Char} {k : TokenKind} (h : pairKind c d = some k) :
    Text.isWhiteSpace c = false ∧ Text.isWhiteSpace d = false := by
  unfold pairKind at h
  split at h
  all_goals first | exact ⟨rfl, rfl⟩ | cases h

theorem tight_single (h : mark.single offset c cs = .ok l) : Tight l.spelling := by
  rw [mark.single] at h
  split at h
  · rename_i k hk
    obtain rfl := Except.ok.inj h
    exact .of_forall (List.forall_mem_singleton.mpr (markKind_tight hk))
  · cases h

theorem tight_lexeme (h : lexeme offset c cs = .ok l) : Tight l.spelling := by
  rw [lexeme] at h
  split at h
  · exact tight_number h
  split at h
  · rename_i hc
    have hQuote : Text.isWhiteSpace c = false := by rcases hc with rfl | rfl <;> rfl
    rw [string] at h
    split at h
    · rename_i value cut hNonempty hQuoted
      obtain rfl := Except.ok.inj h
      refine ⟨fun a ha => ?_, fun a ha => ?_⟩
      · obtain rfl := Option.some.inj ha
        exact hQuote
      · rw [List.getLast?_cons, getLast?_quoted hQuoted] at ha
        obtain rfl := Option.some.inj ha
        exact hQuote
    · cases h
    · cases h
  split at h
  · rename_i hWord
    obtain rfl := Except.ok.inj h
    refine .of_forall (List.forall_mem_cons.mpr ⟨?_, fun a ha => ?_⟩)
    · exact isWhiteSpace_of_isWordPart (isWordPart_iff.mpr (.inl hWord))
    · exact isWhiteSpace_of_isWordPart (List.mem_takeWhile_imp ha)
  · rw [mark.eq_def] at h
    split at h
    · split at h
      · rename_i k hk
        obtain rfl := Except.ok.inj h
        obtain ⟨hc, hd⟩ := pairKind_tight hk
        exact .of_forall (List.forall_mem_cons.mpr ⟨hc, List.forall_mem_singleton.mpr hd⟩)
      · exact tight_single h
    · exact tight_single h

end

end Scan

end Blockwork
