import Blockwork.Proofs.Expression.Locality
import Blockwork.Proofs.Expression.Spans

/-! # Blanks between tokens

Blanks in front of tokens change none of them, because each lexeme is found by itself. White space
around a text is trimmed and takes nothing from the lexemes at its ends.
-/

set_option autoImplicit false

namespace Blockwork

namespace Text

section

variable {p : Char → Bool} {lead cs trail : List Char} {a : Char}

theorem dropWhileEnd_all (h : ∀ c ∈ cs, p c = true) : dropWhileEnd p cs = [] := by
  induction cs with
  | nil => rfl
  | cons c cs ih =>
    rw [List.forall_mem_cons] at h
    rw [dropWhileEnd, ih h.2]
    exact if_pos h.1

theorem dropWhileEnd_append (h : ∀ c ∈ trail, p c = true) (cs : List Char) :
    dropWhileEnd p (cs ++ trail) = dropWhileEnd p cs := by
  induction cs with
  | nil => exact dropWhileEnd_all h
  | cons c cs ih => rw [List.cons_append, dropWhileEnd, dropWhileEnd, ih]

theorem dropWhileEnd_behind (h : p a = false) (front back : List Char) :
    dropWhileEnd p (front ++ a :: back) = front ++ a :: dropWhileEnd p back := by
  induction front with
  | nil =>
    rw [List.nil_append, List.nil_append, dropWhileEnd]
    cases dropWhileEnd p back with
    | nil => simp [h]
    | cons => rfl
  | cons c front ih =>
    rw [List.cons_append, dropWhileEnd, ih]
    cases front <;> rfl

theorem exists_dropWhileEnd (p : Char → Bool) (cs : List Char) :
    ∃ back, cs = dropWhileEnd p cs ++ back := by
  induction cs with
  | nil => exact ⟨[], rfl⟩
  | cons c cs ih =>
    obtain ⟨back, hBack⟩ := ih
    rw [dropWhileEnd]
    cases hEnd : dropWhileEnd p cs with
    | nil =>
      by_cases hc : p c = true
      · exact ⟨c :: cs, by simp [hc]⟩
      · exact ⟨cs, by simp [hc]⟩
    | cons d ds =>
      rw [hEnd] at hBack
      exact ⟨back, congrArg (List.cons c) hBack⟩

theorem trim_append (hLead : ∀ c ∈ lead, isWhiteSpace c = true)
    (hTrail : ∀ c ∈ trail, isWhiteSpace c = true) (cs : List Char) :
    trim (lead ++ (cs ++ trail)) = trim cs := by
  rw [trim, trim, List.dropWhile_append_of_pos hLead, List.dropWhile_append]
  split
  · rename_i hEmpty
    rw [List.isEmpty_iff.mp hEmpty, List.dropWhile_eq_nil_iff.mpr hTrail]
  · exact dropWhileEnd_append hTrail _

end

end Text

namespace Scan

/-- A text that starts at a byte offset, with more put in at offsets. -/
def spread (puts : Nat → List Char) (offset : Nat) : List Char → List Char
  | [] => puts offset
  | c :: cs => puts offset ++ c :: spread puts (offset + c.utf8Size) cs

section

variable {puts : Nat → List Char} {offset : Nat} {front rest : List Char}

theorem spread_append (h : ∀ n, offset ≤ n → n < offset + Text.byteLength front → puts n = [])
    (back : List Char) :
    spread puts offset (front ++ back) =
      front ++ spread puts (offset + Text.byteLength front) back := by
  induction front generalizing offset with
  | nil => rfl
  | cons c front ih =>
    have hSize := c.utf8Size_pos
    rw [Text.byteLength_cons] at h ⊢
    rw [List.cons_append, spread, h offset (Nat.le_refl _) (by omega), List.nil_append,
      ih fun n hn hEnd => h n (by omega) (by omega), Nat.add_assoc]
    rfl

/-- In front of a lexeme there may be more, inside it there is none. -/
theorem spread_lexeme (hFront : front ≠ [])
    (h : ∀ n, offset < n → n < offset + Text.byteLength front → puts n = []) (back : List Char) :
    spread puts offset (front ++ back) =
      puts offset ++ (front ++ spread puts (offset + Text.byteLength front) back) := by
  obtain ⟨c, front, rfl⟩ := List.exists_cons_of_ne_nil hFront
  have hSize := c.utf8Size_pos
  rw [Text.byteLength_cons] at h ⊢
  rw [List.cons_append, spread, spread_append fun n hn hEnd => h n (by omega) (by omega),
    Nat.add_assoc]
  rfl

theorem spread_none (h : ∀ n, puts n = []) (offset : Nat) (cs : List Char) :
    spread puts offset cs = cs := by
  have hAll : spread puts offset (cs ++ []) = cs ++ spread puts (offset + Text.byteLength cs) [] :=
    spread_append (fun n _ _ => h n) []
  rwa [List.append_nil, spread, h, List.append_nil] at hAll

theorem kept_spread (hBlank : ∀ n, ∀ c ∈ puts n, Text.isBlank c = true) (offset : Nat)
    (rest : List Char) : Kept rest (spread puts offset rest) := by
  induction rest generalizing offset with
  | nil =>
    rw [spread]
    cases hPuts : puts offset with
    | nil => exact .refl []
    | cons b bs => exact .of_blank (hBlank offset b (by rw [hPuts]; exact List.mem_cons_self)) _ _
  | cons c rest ih =>
    rw [spread]
    cases hPuts : puts offset with
    | nil => exact (ih _).append [c]
    | cons b bs => exact .of_blank (hBlank offset b (by rw [hPuts]; exact List.mem_cons_self)) _ _

end

section

variable {puts : Nat → List Char} {offset : Nat} {cs : List Char} {ts : List Token}

theorem Scans.blanks {gap : List Char} {kinds : List TokenKind}
    (hGap : ∀ c ∈ gap, Text.isBlank c = true) (h : Scans cs kinds) : Scans (gap ++ cs) kinds := by
  induction gap with
  | nil => exact h
  | cons c gap ih =>
    rw [List.forall_mem_cons] at hGap
    exact .blank hGap.1 (ih hGap.2)

theorem Scans.begins {c : Char} {l : Lexeme (c :: cs)} {other : List Char}
    {kinds : List TokenKind} (hBlank : Text.isBlank c = false)
    (hl : Begins (l.spelling ++ other) l.kind other) (h : Scans other kinds) :
    Scans (l.spelling ++ other) (l.kind :: kinds) := by
  refine .lexeme ⟨fun a ha => ?_, hl⟩ h
  obtain ⟨later, hSpelling, -⟩ := l.exists_cons
  rw [hSpelling] at ha
  obtain rfl := Option.some.inj ha
  exact hBlank

/-- Blanks in front of tokens change none of them. -/
theorem Laid.scans_spread (h : Laid offset cs ts)
    (hBlank : ∀ n, ∀ c ∈ puts n, Text.isBlank c = true)
    (hPuts : ∀ n, offset ≤ n → n ∉ ts.map Token.start → puts n = []) :
    Scans (spread puts offset cs) (ts.map Token.kind) := by
  induction h with
  | @last offset gap hGap =>
    have hSpread : spread puts offset (gap ++ []) =
        gap ++ spread puts (offset + Text.byteLength gap) [] :=
      spread_append (fun n hn hEnd => hPuts n hn (by simp; omega)) []
    rw [List.append_nil, spread] at hSpread
    rw [hSpread, ← List.append_nil (puts _)]
    exact (Scans.nil.blanks (hBlank _)).blanks hGap
  | @lexeme offset start stop gap c cs l later hGap hStart hc hl hStop hLater ih =>
    subst hStart
    have hLength := Text.byteLength_pos l.spelling_ne_nil
    -- The other tokens start at `stop` or behind it, so up to there more is put in at the start of
    -- this lexeme only.
    have hBehind : ∀ n ∈ later.map Token.start, stop ≤ n :=
      List.forall_mem_map.mpr fun u hu => (hLater.between u hu).1.bounds.1
    have hNone {n : Nat} (hn : offset ≤ n) (hStop : n < stop)
        (hStart : n ≠ offset + Text.byteLength gap) : puts n = [] := by
      refine hPuts n hn (List.not_mem_cons_of_ne_of_not_mem hStart fun hMem => ?_)
      exact absurd (hBehind n hMem) (Nat.not_le.mpr hStop)
    have hFront : spread puts offset (gap ++ c :: cs) =
        gap ++ spread puts (offset + Text.byteLength gap) (c :: cs) :=
      spread_append (fun n hn hEnd => hNone hn (by omega) (by omega)) (c :: cs)
    have hLexeme : spread puts (offset + Text.byteLength gap) (l.spelling ++ l.rest) =
        puts (offset + Text.byteLength gap) ++ (l.spelling ++ spread puts stop l.rest) := by
      rw [hStop]
      exact spread_lexeme l.spelling_ne_nil
        (fun n hn hEnd => hNone (by omega) (by omega) (by omega)) l.rest
    rw [l.spelling_append_rest] at hLexeme
    rw [hFront, hLexeme]
    have hRest := ih fun n hn hMem => hPuts n (by omega) (List.not_mem_cons_of_ne_of_not_mem
      (by dsimp only; omega) hMem)
    exact ((hRest.begins hc (lexeme_kept hl (kept_spread hBlank stop l.rest))).blanks
      (hBlank _)).blanks hGap

theorem Laid.scans (h : Laid offset cs ts) : Scans cs (ts.map Token.kind) := by
  have hScans : Scans (spread (fun _ => []) offset cs) (ts.map Token.kind) :=
    h.scans_spread (fun _ => nofun) fun _ _ _ => rfl
  rwa [spread_none fun _ => rfl] at hScans

theorem isWhiteSpace_of_isBlank {c : Char} (h : Text.isBlank c = true) :
    Text.isWhiteSpace c = true := by
  rw [isBlank_iff] at h
  simp only [Text.isWhiteSpace, Bool.or_eq_true, Bool.and_eq_true, decide_eq_true_eq]
  omega

theorem Laid.scans_front (h : Laid offset cs ts) :
    Scans (cs.dropWhile Text.isWhiteSpace) (ts.map Token.kind) := by
  cases h with
  | @last offset gap hGap =>
    rw [List.dropWhile_eq_nil_iff.mpr fun c hc => isWhiteSpace_of_isBlank (hGap c hc)]
    exact .nil
  | @lexeme offset start stop gap c cs l later hGap hStart hc hl hStop hLater =>
    have hSpace : Text.isWhiteSpace c = false := by
      obtain ⟨_, hSpelling, -⟩ := l.exists_cons
      exact (tight_lexeme hl).1 c (by rw [hSpelling]; rfl)
    have hLexeme := hLater.scans.begins hc (lexeme_kept hl (.refl l.rest))
    rw [List.dropWhile_append_of_pos fun c hc => isWhiteSpace_of_isBlank (hGap c hc),
      List.dropWhile_cons_of_neg (by simp [hSpace])]
    rwa [l.spelling_append_rest] at hLexeme

theorem Laid.scans_back (h : Laid offset cs ts) :
    Scans (Text.dropWhileEnd Text.isWhiteSpace cs) (ts.map Token.kind) := by
  induction h with
  | last hGap =>
    rw [Text.dropWhileEnd_all fun c hc => isWhiteSpace_of_isBlank (hGap c hc)]
    exact .nil
  | @lexeme offset start stop gap c cs l later hGap hStart hc hl hStop hLater ih =>
    obtain ⟨front, a, hSpelling⟩ :=
      (List.eq_nil_or_concat l.spelling).resolve_left l.spelling_ne_nil
    have hSpace : Text.isWhiteSpace a = false := (tight_lexeme hl).2 a (by simp [hSpelling])
    -- The last character of the lexeme is no white space, so only the rest behind it is cut.
    have hEnd := Text.dropWhileEnd_behind hSpace (gap ++ front) l.rest
    have hKept : Kept l.rest (Text.dropWhileEnd Text.isWhiteSpace l.rest) := by
      obtain ⟨back, hBack⟩ := Text.exists_dropWhileEnd Text.isWhiteSpace l.rest
      conv => arg 1; rw [hBack]
      exact .of_append _ back
    have hLexeme := (ih.begins hc (lexeme_kept hl hKept)).blanks hGap
    have hSource : gap ++ c :: cs = gap ++ front ++ a :: l.rest :=
      (congrArg (gap ++ ·) l.spelling_append_rest).symm.trans (by simp [hSpelling])
    rw [hSpelling] at hLexeme
    rw [hSource, hEnd]
    simpa using hLexeme

theorem scans_trim (h : tokens offset cs = .ok ts) : Scans (Text.trim cs) (ts.map Token.kind) := by
  obtain ⟨us, hFront, hKinds⟩ := (Laid.of_tokens h).scans_front 0
  rw [← hKinds]
  exact (Laid.of_tokens hFront).scans_back

end

end Scan

/-- Reading goes by the kinds of tokens alone. -/
theorem Reading.complete_of_kinds {ts us : List Token} {n : Node}
    (hKinds : ts.map Token.kind = us.map Token.kind) (h : complete ts = .ok n) :
    complete us = .ok n := by
  rw [complete_eq] at h ⊢
  cases hRun : completeRun ts with
  | error f =>
    rw [hRun] at h
    cases h
  | ok r =>
    obtain ⟨m, rest⟩ := r
    rw [hRun] at h
    obtain rfl := Except.ok.inj h
    obtain ⟨k, -, -, hAlike⟩ := (predicts_complete ts).takes hRun
    rw [hAlike us (by rw [Alike, hKinds])]
    rfl

theorem Node.read_eq_ok_iff {s : String} {ts : List Token} {n : Node}
    (h : Scan.tokens 0 (Text.trim s.toList) = .ok ts) :
    read s = .ok n ↔ Reading.complete ts = .ok n := by
  rw [read]
  split
  · rename_i hEmpty
    have hEnd : Scan.tokens 0 [] = .ok [⟨.eof, 0, 0⟩] := by rw [Scan.tokens]; rfl
    have hFault : Reading.complete [⟨.eof, 0, 0⟩] = .error ⟨0, .unexpectedToken .eof⟩ := by cbv
    rw [hEmpty, hEnd] at h
    obtain rfl := Except.ok.inj h
    rw [hFault]
    exact iff_of_false (by simp) (by simp)
  · rw [h]

/-- Blanks in front of the tokens of a text, its end among them, and white space around the text
change no token and nothing that is read. -/
theorem Node.read_spread {cs lead trail before behind : List Char} {ts : List Token}
    {puts : Nat → List Char} (hTokens : Scan.tokens 0 cs = .ok ts)
    (hBlank : ∀ n, ∀ c ∈ puts n, Text.isBlank c = true)
    (hPuts : ∀ n, n ∉ ts.map Token.start → puts n = [])
    (hLead : ∀ c ∈ lead ++ trail, Text.isWhiteSpace c = true)
    (hAround : ∀ c ∈ before ++ behind, Text.isWhiteSpace c = true) :
    (∃ us, Scan.tokens 0 (Scan.spread puts 0 cs) = .ok us ∧
      us.map Token.kind = ts.map Token.kind) ∧
    ∀ n, read (String.ofList (before ++ (Scan.spread puts 0 cs ++ behind))) = .ok n ↔
      read (String.ofList (lead ++ (cs ++ trail))) = .ok n := by
  obtain ⟨us, hSpread, hKinds⟩ :=
    (Scan.Laid.of_tokens hTokens).scans_spread hBlank (fun n _ => hPuts n) 0
  refine ⟨⟨us, hSpread, hKinds⟩, fun n => ?_⟩
  obtain ⟨hLead, hTrail⟩ := List.forall_mem_append.mp hLead
  obtain ⟨hBefore, hBehind⟩ := List.forall_mem_append.mp hAround
  obtain ⟨vs, hTrimmed, hTrimmedKinds⟩ := Scan.scans_trim hTokens 0
  obtain ⟨ws, hSpreadTrimmed, hSpreadKinds⟩ := Scan.scans_trim hSpread 0
  rw [← Text.trim_append hLead hTrail] at hTrimmed
  rw [← Text.trim_append hBefore hBehind] at hSpreadTrimmed
  have hSame : ws.map Token.kind = vs.map Token.kind := by
    rw [hSpreadKinds, hKinds, hTrimmedKinds]
  rw [read_eq_ok_iff (by rwa [String.toList_ofList]),
    read_eq_ok_iff (by rwa [String.toList_ofList])]
  exact ⟨Reading.complete_of_kinds hSame, Reading.complete_of_kinds hSame.symm⟩

theorem Node.read_spread_call :
    let puts : Nat → List Char := fun n =>
      if n = 1 ∨ n = 7 then ['\t'] else if n = 10 ∨ n = 13 then ['\n', ' '] else []
    let tree : Node :=
      .operator .le [.call "f" [.literal (.text "a b"), .symbol "x"], .symbol "y"]
    Scan.spread puts 0 "f('a b',x)<=y".toList = "f\t('a b'\t,x)\n <=y\n ".toList ∧
      Node.read "f('a b',x)<=y" = .ok tree ∧
      Node.read "f\t('a b'\t,x)\n <=y\n " = .ok tree := by
  intro puts tree
  have hTokens : Scan.tokens 0 "f('a b',x)<=y".toList = .ok [
      ⟨.ident "f", 0, 1⟩, ⟨.leftParen, 1, 2⟩, ⟨.text "a b", 2, 7⟩, ⟨.comma, 7, 8⟩,
      ⟨.ident "x", 8, 9⟩, ⟨.rightParen, 9, 10⟩, ⟨.lessEqual, 10, 12⟩, ⟨.ident "y", 12, 13⟩,
      ⟨.eof, 13, 13⟩] := by cbv
  have hRead : Node.read "f('a b',x)<=y" = .ok tree := by
    unfold tree
    cbv
  have hSpread : Scan.spread puts 0 "f('a b',x)<=y".toList =
      "f\t('a b'\t,x)\n <=y\n ".toList := by decide
  have hBlank (n : Nat) : ∀ c ∈ puts n, Text.isBlank c = true := by
    unfold puts
    split
    · exact List.forall_mem_singleton.mpr rfl
    split
    · exact List.forall_mem_cons.mpr ⟨rfl, List.forall_mem_singleton.mpr rfl⟩
    · exact List.forall_mem_nil _
  have hPuts (n : Nat) (hn : n ∉ [0, 1, 2, 7, 8, 9, 10, 12, 13]) : puts n = [] := by
    have hn : ¬(n = 1 ∨ n = 7) ∧ ¬(n = 10 ∨ n = 13) := by
      simp only [List.mem_cons, List.not_mem_nil] at hn
      omega
    unfold puts
    rw [if_neg hn.1, if_neg hn.2]
  have hNone : ∀ c ∈ ([] ++ [] : List Char), Text.isWhiteSpace c = true :=
    List.forall_mem_nil _
  have hSame := (Node.read_spread hTokens hBlank hPuts hNone hNone).2
  refine ⟨hSpread, hRead, ?_⟩
  rw [hSpread] at hSame
  simpa using (hSame _).mpr (by simpa using hRead)

end Blockwork
