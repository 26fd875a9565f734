import Blockwork.Proofs.Expression.Viable

/-! # Where tokens lie

Scanning a text goes from lexeme to lexeme, each behind a gap of blanks. Every place that it names,
be it the end of a token or the place of a fault, has whole characters before it, so all of them are
places between two characters of the text.
-/

set_option autoImplicit false

namespace Blockwork

namespace Text

def Between (offset : Nat) (cs : List Char) (n : Nat) : Prop :=
  ∃ front back, cs = front ++ back ∧ offset + byteLength front = n

section

variable {offset n : Nat} {cs : List Char}

theorem Between.start (offset : Nat) (cs : List Char) : Between offset cs offset :=
  ⟨[], cs, rfl, rfl⟩

theorem Between.of_append (front back : List Char) :
    Between offset (front ++ back) (offset + byteLength front) :=
  ⟨front, back, rfl, rfl⟩

theorem Between.behind {front : List Char} (h : Between (offset + byteLength front) cs n) :
    Between offset (front ++ cs) n := by
  obtain ⟨more, back, rfl, rfl⟩ := h
  exact ⟨front ++ more, back, by simp, by simp [Nat.add_assoc]⟩

theorem Between.bounds (h : Between offset cs n) : offset ≤ n ∧ n ≤ offset + byteLength cs := by
  obtain ⟨front, back, rfl, rfl⟩ := h
  rw [byteLength_append]
  omega

theorem byteLength_pos (h : cs ≠ []) : 0 < byteLength cs := by
  obtain ⟨c, cs, rfl⟩ := List.exists_cons_of_ne_nil h
  rw [byteLength_cons]
  have := c.utf8Size_pos
  omega

theorem utf8Size_of_ascii {c : Char} (h : c.toNat < 128) : c.utf8Size = 1 :=
  Char.utf8Size_eq_one_iff.mpr (UInt32.le_iff_toNat_le.mpr (Nat.le_of_lt_succ h))

theorem byteLength_of_ascii (h : ∀ c ∈ cs, c.toNat < 128) : byteLength cs = cs.length := by
  induction cs with
  | nil => rfl
  | cons c cs ih =>
    rw [List.forall_mem_cons] at h
    rw [byteLength_cons, utf8Size_of_ascii h.1, ih h.2, List.length_cons, Nat.add_comm]

/-- Nothing but blanks lies between two places of a text. -/
def Gap (offset : Nat) (cs : List Char) (n m : Nat) : Prop :=
  ∃ front gap back, cs = front ++ (gap ++ back) ∧ offset + byteLength front = n ∧
    n + byteLength gap = m ∧ ∀ c ∈ gap, isBlank c = true

theorem Gap.start {gap : List Char} (h : ∀ c ∈ gap, isBlank c = true) (back : List Char) :
    Gap offset (gap ++ back) offset (offset + byteLength gap) :=
  ⟨[], gap, back, rfl, rfl, rfl, h⟩

theorem Gap.behind {m : Nat} {front : List Char} (h : Gap (offset + byteLength front) cs n m) :
    Gap offset (front ++ cs) n m := by
  obtain ⟨more, gap, back, rfl, rfl, hGap, hBlank⟩ := h
  exact ⟨front ++ more, gap, back, by simp, by simp [Nat.add_assoc], hGap, hBlank⟩

end

section

variable {offset n m : Nat} {gap source : List Char}

theorem Between.behind_lexeme (l : Lexeme source)
    (h : Between (offset + byteLength gap + byteLength l.spelling) l.rest n) :
    Between offset (gap ++ source) n := by
  rw [← l.spelling_append_rest]
  exact h.behind.behind

theorem Gap.behind_lexeme (l : Lexeme source)
    (h : Gap (offset + byteLength gap + byteLength l.spelling) l.rest n m) :
    Gap offset (gap ++ source) n m := by
  rw [← l.spelling_append_rest]
  exact h.behind.behind

end

end Text

namespace Scan

theorem ascii_of_isBlank {c : Char} (h : Text.isBlank c = true) : c.toNat < 128 := by
  rw [isBlank_iff] at h
  omega

theorem ascii_of_isWordPart {c : Char} (h : isWordPart c = true) : c.toNat < 128 := by
  rw [isWordPart_iff, isWordStart_iff] at h
  omega

theorem ascii_of_isDigit {c : Char} (h : c.isDigit = true) : c.toNat < 128 :=
  ascii_of_isWordPart (isWordPart_of_isDigit h)

/-- A text is scanned to tokens, gap by gap and lexeme by lexeme. -/
inductive Laid : Nat → List Char → List Token → Prop where
  | last {offset : Nat} {gap : List Char} (hGap : ∀ c ∈ gap, Text.isBlank c = true) :
      Laid offset gap [⟨.eof, offset + Text.byteLength gap, offset + Text.byteLength gap⟩]
  | lexeme {offset start stop : Nat} {gap : List Char} {c : Char} {cs : List Char}
      {l : Lexeme (c :: cs)} {later : List Token} (hGap : ∀ c ∈ gap, Text.isBlank c = true)
      (hStart : start = offset + Text.byteLength gap) (hBlank : Text.isBlank c = false)
      (hl : Scan.lexeme start c cs = .ok l) (hStop : stop = start + Text.byteLength l.spelling)
      (h : Laid stop l.rest later) : Laid offset (gap ++ c :: cs) (⟨l.kind, start, stop⟩ :: later)

/-- Scanning a text comes to a fault behind some lexemes. -/
inductive Faulty : Nat → List Char → SourceFault → Prop where
  | here {offset start : Nat} {gap : List Char} {c : Char} {cs : List Char} {f : SourceFault}
      (hGap : ∀ c ∈ gap, Text.isBlank c = true) (hStart : start = offset + Text.byteLength gap)
      (hl : Scan.lexeme start c cs = .error f) : Faulty offset (gap ++ c :: cs) f
  | later {offset start stop : Nat} {gap : List Char} {c : Char} {cs : List Char}
      {l : Lexeme (c :: cs)} {f : SourceFault} (hGap : ∀ c ∈ gap, Text.isBlank c = true)
      (hStart : start = offset + Text.byteLength gap) (hl : Scan.lexeme start c cs = .ok l)
      (hStop : stop = start + Text.byteLength l.spelling) (h : Faulty stop l.rest f) :
      Faulty offset (gap ++ c :: cs) f

/-- Scanning a text lays its tokens, or comes to a fault. -/
theorem tokens_laid (offset : Nat) (cs : List Char) :
    (∃ ts, tokens offset cs = .ok ts ∧ Laid offset cs ts) ∨
      ∃ f, tokens offset cs = .error f ∧ Faulty offset cs f := by
  have hGap : ∀ c ∈ cs.takeWhile Text.isBlank, Text.isBlank c = true :=
    fun _ => List.mem_takeWhile_imp
  have hLength := Text.byteLength_of_ascii fun c hc => ascii_of_isBlank (hGap c hc)
  have hSplit := cs.takeWhile_append_dropWhile (p := Text.isBlank)
  rw [tokens]
  split
  · rename_i hNil
    rw [hNil, List.append_nil] at hSplit
    refine .inl ⟨_, rfl, ?_⟩
    rw [← hLength, hSplit]
    exact .last (by rwa [hSplit] at hGap)
  · rename_i c rest hCons
    rw [hCons] at hSplit
    have hBlank := List.head?_dropWhile_not Text.isBlank cs
    rw [hCons] at hBlank
    split
    · rename_i f hl
      refine .inr ⟨f, rfl, ?_⟩
      rw [← hSplit]
      exact .here hGap (by rw [hLength]) hl
    · rename_i l hl
      have hShort : l.rest.length < cs.length := by
        have := l.length_rest_lt
        have := congrArg List.length hSplit
        rw [List.length_append] at this
        omega
      dsimp only
      rcases tokens_laid (offset + (cs.takeWhile Text.isBlank).length + Text.byteLength l.spelling)
        l.rest with ⟨ts, hTokens, hLaid⟩ | ⟨f, hTokens, hFaulty⟩
      · rw [hTokens]
        refine .inl ⟨_, rfl, ?_⟩
        conv => arg 2; rw [← hSplit]
        exact .lexeme hGap (by rw [hLength]) hBlank hl rfl hLaid
      · rw [hTokens]
        refine .inr ⟨_, rfl, ?_⟩
        rw [← hSplit]
        exact .later hGap (by rw [hLength]) hl rfl hFaulty
termination_by cs.length

theorem Laid.of_tokens {offset : Nat} {cs : List Char} {ts : List Token}
    (h : tokens offset cs = .ok ts) : Laid offset cs ts := by
  rcases tokens_laid offset cs with ⟨us, hTokens, hLaid⟩ | ⟨f, hTokens, -⟩
  · obtain rfl := Except.ok.inj (hTokens.symm.trans h)
    exact hLaid
  · cases hTokens.symm.trans h

theorem Faulty.of_tokens {offset : Nat} {cs : List Char} {f : SourceFault}
    (h : tokens offset cs = .error f) : Faulty offset cs f := by
  rcases tokens_laid offset cs with ⟨us, hTokens, -⟩ | ⟨g, hTokens, hFaulty⟩
  · cases hTokens.symm.trans h
  · obtain rfl := Except.error.inj (hTokens.symm.trans h)
    exact hFaulty

theorem ascii_fraction (cs : List Char) : ∀ c ∈ (fraction cs).front, c.toNat < 128 := by
  intro c hc
  rcases mem_fraction hc with rfl | hDigit
  · decide
  · exact ascii_of_isDigit hDigit

theorem between_of_unknownEscape {quote e : Char} {before : Nat} {cs : List Char}
    (h : quoted quote cs = .unknownEscape before e) : Text.Between 0 cs before := by
  fun_induction quoted quote cs generalizing before with
  | case1 | case2 | case3 | case4 => cases h
  | case5 d cs value _ _ ih =>
    cases hQuoted : quoted quote cs with
    | unknownEscape before x =>
      rw [hQuoted] at h
      obtain ⟨rfl, rfl⟩ := Quoted.unknownEscape.inj h
      obtain ⟨front, back, rfl, hBytes⟩ := ih hQuoted
      exact ⟨'\\' :: d :: front, back, rfl, by simp only [Text.byteLength_cons]; omega⟩
    | _ =>
      rw [hQuoted] at h
      cases h
  | case6 =>
    obtain ⟨rfl, -⟩ := Quoted.unknownEscape.inj h
    exact .start 0 _
  | case7 c d cs _ _ ih =>
    cases hQuoted : quoted quote (d :: cs) with
    | unknownEscape before x =>
      rw [hQuoted] at h
      obtain ⟨rfl, rfl⟩ := Quoted.unknownEscape.inj h
      obtain ⟨front, back, hSource, hBytes⟩ := ih hQuoted
      rw [hSource]
      exact ⟨c :: front, back, rfl, by simp only [Text.byteLength_cons]; omega⟩
    | _ =>
      rw [hQuoted] at h
      cases h

theorem between_of_number_error {start : Nat} {c : Char} {cs : List Char} {f : SourceFault}
    (h : number start c cs = .error f) : Text.Between start (c :: cs) f.offset := by
  simp only [number] at h
  split at h
  · obtain rfl := Except.error.inj h
    let whole := Cut.takeWhile Char.isDigit (c :: cs)
    let part := fraction whole.rest
    have hWhole : Text.byteLength whole.front = whole.front.length :=
      Text.byteLength_of_ascii fun a ha => ascii_of_isDigit (List.mem_takeWhile_imp ha)
    have hPart : Text.byteLength part.front = part.front.length :=
      Text.byteLength_of_ascii (ascii_fraction whole.rest)
    refine ⟨whole.front ++ part.front, part.rest, ?_, ?_⟩
    · rw [List.append_assoc, part.front_append_rest, whole.front_append_rest]
    · rw [Text.byteLength_append, hWhole, hPart, Nat.add_assoc]
  · split at h
    · obtain rfl := Except.error.inj h
      exact .start start _
    · cases h

theorem between_of_mark_error {start : Nat} {c : Char} {cs : List Char} {f : SourceFault}
    (h : mark start c cs = .error f) : Text.Between start (c :: cs) f.offset := by
  have hSingle {ds : List Char} (h : mark.single start c ds = .error f) :
      Text.Between start (c :: cs) f.offset := by
    rw [mark.single] at h
    split at h
    · cases h
    · obtain rfl := Except.error.inj h
      exact .start start _
  rw [mark.eq_def] at h
  split at h
  · split at h
    · cases h
    · exact hSingle h
  · exact hSingle h

theorem between_of_lexeme_error {start : Nat} {c : Char} {cs : List Char} {f : SourceFault}
    (h : lexeme start c cs = .error f) : Text.Between start (c :: cs) f.offset := by
  rw [lexeme] at h
  split at h
  · exact between_of_number_error h
  split at h
  · rw [string] at h
    split at h
    · cases h
    · obtain rfl := Except.error.inj h
      exact .start start _
    · rename_i before e hQuoted
      obtain rfl := Except.error.inj h
      obtain ⟨front, back, rfl, rfl⟩ := between_of_unknownEscape hQuoted
      exact ⟨c :: front, back, rfl, by simp only [Text.byteLength_cons]; omega⟩
  split at h
  · cases h
  · exact between_of_mark_error h

theorem Faulty.between {offset : Nat} {cs : List Char} {f : SourceFault} (h : Faulty offset cs f) :
    Text.Between offset cs f.offset := by
  induction h with
  | here _ hStart hl =>
    subst hStart
    exact (between_of_lexeme_error hl).behind
  | @later _ _ _ _ c cs l _ _ hStart _ hStop _ ih =>
    subst hStart hStop
    exact ih.behind_lexeme l

section

variable {offset : Nat} {cs : List Char} {ts : List Token}

theorem Laid.ends (h : Laid offset cs ts) :
    ∃ row, ts = row ++ [⟨.eof, offset + Text.byteLength cs, offset + Text.byteLength cs⟩] ∧
      ∀ t ∈ row, t.kind ≠ .eof ∧ t.start < t.stop := by
  induction h with
  | last => exact ⟨[], rfl, nofun⟩
  | @lexeme offset start stop gap c cs l later _ hStart _ hl hStop _ ih =>
    subst hStop
    obtain ⟨row, hRow, hTokens⟩ := ih
    have hLength := Text.byteLength_pos l.spelling_ne_nil
    have hSource := congrArg Text.byteLength l.spelling_append_rest
    rw [Text.byteLength_append] at hSource
    refine ⟨⟨l.kind, start, start + Text.byteLength l.spelling⟩ :: row, ?_, ?_⟩
    · rw [hRow, Text.byteLength_append, ← hSource]
      simp only [hStart, Nat.add_assoc, List.cons_append]
    · refine List.forall_mem_cons.mpr ⟨⟨(lexeme_readable hl).2, ?_⟩, hTokens⟩
      exact Nat.lt_add_of_pos_right hLength

theorem Laid.between (h : Laid offset cs ts) :
    ∀ t ∈ ts, Text.Between offset cs t.start ∧ Text.Between offset cs t.stop := by
  induction h with
  | @last offset gap _ =>
    have hEnd : Text.Between offset gap (offset + Text.byteLength gap) := ⟨gap, [], by simp, rfl⟩
    exact List.forall_mem_singleton.mpr ⟨hEnd, hEnd⟩
  | @lexeme offset start stop gap c cs l later _ hStart _ hl hStop _ ih =>
    subst hStart hStop
    refine List.forall_mem_cons.mpr ⟨⟨.of_append gap _, .behind_lexeme l (.start _ _)⟩, ?_⟩
    exact fun t ht => ⟨(ih t ht).1.behind_lexeme l, (ih t ht).2.behind_lexeme l⟩

theorem Laid.ordered (h : Laid offset cs ts) : ts.Pairwise fun t u => t.stop ≤ u.start := by
  induction h with
  | last => exact List.pairwise_singleton _ _
  | lexeme _ _ _ _ _ hLater ih =>
    exact List.pairwise_cons.mpr ⟨fun u hu => (hLater.between u hu).1.bounds.1, ih⟩

theorem Laid.gap (h : Laid offset cs ts) :
    ∀ t ∈ ts.head?, Text.Gap offset cs offset t.start := by
  cases h with
  | last hGap =>
    rintro t ⟨⟩
    simpa using Text.Gap.start hGap []
  | lexeme hGap hStart =>
    rintro t ⟨⟩
    rw [hStart]
    exact .start hGap _

theorem Laid.gaps (h : Laid offset cs ts) :
    ts.IsChain fun t u => Text.Gap offset cs t.stop u.start := by
  induction h with
  | last => exact .singleton _
  | @lexeme offset start stop gap c cs l later _ hStart _ hl hStop hLater ih =>
    subst hStart hStop
    refine List.isChain_cons.mpr ⟨fun u hu => (hLater.gap u hu).behind_lexeme l, ?_⟩
    exact ih.imp fun _ _ h => h.behind_lexeme l

end

end Scan

/-- How tokens lie in a text: in order and apart, none of them empty before the end of the text,
between whole characters, and with nothing but blanks before and between them. -/
structure Spans (text : List Char) (ts : List Token) : Prop where
  ends : ∃ row, ts = row ++ [⟨.eof, Text.byteLength text, Text.byteLength text⟩] ∧
    ∀ t ∈ row, t.kind ≠ .eof ∧ t.start < t.stop
  ordered : ts.Pairwise fun t u => t.stop ≤ u.start
  between : ∀ t ∈ ts, Text.Between 0 text t.start ∧ Text.Between 0 text t.stop
  gap : ∀ t ∈ ts.head?, Text.Gap 0 text 0 t.start
  gaps : ts.IsChain fun t u => Text.Gap 0 text t.stop u.start

section

variable {text : List Char} {ts : List Token} {f : SourceFault}

theorem Scan.spans_of_tokens (h : tokens 0 text = .ok ts) : Spans text ts := by
  have hLaid := Laid.of_tokens h
  have hEnds := hLaid.ends
  rw [Nat.zero_add] at hEnds
  exact ⟨hEnds, hLaid.ordered, hLaid.between, hLaid.gap, hLaid.gaps⟩

theorem Reading.between_of_fault (hTokens : Scan.tokens 0 text = .ok ts)
    (h : complete ts = .error f) : Text.Between 0 text f.offset := by
  have hSpans := Scan.spans_of_tokens hTokens
  obtain ⟨row, rfl, -⟩ := hSpans.ends
  obtain ⟨before, t, after, hRow, hOffset, -⟩ := exists_blocks rfl h
  rw [hOffset]
  exact (hSpans.between t (by rw [hRow]; simp)).1

end

/-- Every fault of reading is noticed between two characters of the trimmed text. -/
theorem Node.between_of_fault {s : String} {f : SourceFault} (h : read s = .error f) :
    Text.Between 0 (Text.trim s.toList) f.offset := by
  rw [read] at h
  split at h
  · obtain rfl := Except.error.inj h
    exact .start 0 _
  · split at h
    · rename_i hTokens
      obtain rfl := Except.error.inj h
      exact (Scan.Faulty.of_tokens hTokens).between
    · exact Reading.between_of_fault ‹_› h

end Blockwork
