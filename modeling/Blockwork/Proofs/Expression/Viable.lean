import Blockwork.Proofs.Expression.Lookahead
import Blockwork.Proofs.Expression.Strata

/-! # Where reading stops

Readers predict the grammar: what they take derives their value, and where they stop they have taken
the front part of an expression. As they look one token ahead only, no expression goes on with the
token that they stop at.
-/

set_option autoImplicit false

namespace Blockwork

namespace Reading

def Extends (level : Level) (tighter : List Level) (left : Node) (ks : List TokenKind) (n : Node) :
    Prop :=
  ∀ ls, Derives (.binary (level :: tighter)) ls left →
    Derives (.binary (level :: tighter)) (ls ++ ks) n

theorem Extends.self {level : Level} {tighter : List Level} (left : Node) :
    Extends level tighter left [] left := fun ls hl => by
  rwa [List.append_nil]

theorem Extends.operator {level : Level} {tighter : List Level} {k : TokenKind} {op : Operator}
    {left right n : Node} {rs ks : List TokenKind} (hop : level k = some op)
    (hr : Derives (.binary tighter) rs right)
    (h : Extends level tighter (.operator op [left, right]) ks n) :
    Extends level tighter left (k :: (rs ++ ks)) n := fun ls hl => by
  have hWhole := h _ (.operator hop hl hr)
  rwa [List.append_assoc, List.cons_append] at hWhole

def Lists (ks : List TokenKind) (ns : List Node) : Prop :=
  ∃ operands : List (List TokenKind × Node),
    ks = [TokenKind.comma].intercalate (operands.map (·.1)) ++ [.rightParen] ∧
    ns = operands.map (·.2) ∧ ∀ p ∈ operands, Derives (.binary levels) p.1 p.2

theorem Lists.nil : Lists [.rightParen] [] := ⟨[], rfl, rfl, List.forall_mem_nil _⟩

theorem Lists.one {ks : List TokenKind} {n : Node} (h : Derives (.binary levels) ks n) :
    Lists (ks ++ [.rightParen]) [n] :=
  ⟨[(ks, n)], by simp, rfl, by simpa using h⟩

theorem Lists.cons {ks ms : List TokenKind} {n : Node} {ns : List Node}
    (h : Derives (.binary levels) ks n) (hs : Lists ms ns) (hne : ns ≠ []) :
    Lists (ks ++ .comma :: ms) (n :: ns) := by
  obtain ⟨operands, rfl, rfl, hOperands⟩ := hs
  refine ⟨(ks, n) :: operands, ?_, rfl, List.forall_mem_cons.mpr ⟨h, hOperands⟩⟩
  rw [List.map_cons, List.intercalate_cons_of_ne_nil (by simpa using hne)]
  simp

inductive Follows (first : Node) : List TokenKind → List Node → Prop where
  | close : Follows first [.rightParen] [first]
  | comma {ks : List TokenKind} {ns : List Node} (h : Lists ks ns) (hne : ns ≠ []) :
      Follows first (.comma :: ks) (first :: ns)

theorem Follows.lists {first : Node} {ks ms : List TokenKind} {ns : List Node}
    (hFirst : Derives (.binary levels) ks first) (h : Follows first ms ns) :
    Lists (ks ++ ms) ns ∧ ns ≠ [] := by
  cases h with
  | close => exact ⟨.one hFirst, by simp⟩
  | comma h hne => exact ⟨.cons hFirst h hne, by simp⟩

inductive Raises (base : Node) : List TokenKind → Node → Prop where
  | not : Raises base [] base
  | caret {ks : List TokenKind} {up : Node} (h : Derives .unary ks up) :
      Raises base (.caret :: ks) (.operator .pow [base, up])

theorem Raises.power {base n : Node} {ks ms : List TokenKind} (hBase : Derives .primary ks base)
    (h : Raises base ms n) : Derives .power (ks ++ ms) n := by
  cases h with
  | not =>
    rw [List.append_nil]
    exact .base hBase
  | caret h => exact .power hBase h

inductive Calls (name : String) : List TokenKind → Node → Prop where
  | not : Calls name [] (named name)
  | paren {ks : List TokenKind} {ns : List Node} (h : Lists ks ns) :
      Calls name (.leftParen :: ks) (.call name ns)

theorem Calls.primary {name : String} {ks : List TokenKind} {n : Node} (h : Calls name ks n) :
    Derives .primary (.ident name :: ks) n := by
  cases h with
  | not => exact .name name
  | paren h =>
    obtain ⟨operands, rfl, rfl, hOperands⟩ := h
    exact .call name hOperands

mutual

theorem predicts_binary : (ls : List Level) → (source : List Token) →
    Predicts (Derives (.binary ls)) (run (binary ls)) source
  | [], source => by
    rw [run_binary_nil]
    exact (predicts_unary source).mono .tight
  | level :: tighter, source => by
    rw [run_binary_cons]
    refine (predicts_binary tighter source).andThen (Extends level tighter)
      (fun left rest h => ?_) (fun hl hMore => hMore _ (.operand hl))
      fun left => ⟨[], left, .self left⟩
    have hShort := run_shorter h
    exact predicts_chain level tighter left rest
termination_by ls source => (source.length, ls.length + 3)
decreasing_by
  · exact Prod.Lex.right _ (by simp)
  · exact Prod.Lex.right _ (by simp)
  · exact Prod.Lex.left _ _ hShort

theorem predicts_chain (level : Level) (tighter : List Level) (left : Node) :
    (source : List Token) →
      Predicts (Extends level tighter left) (chainRun level tighter left) source
  | [] => by
    rw [chainRun_eq]
    exact .look (.give (.self left) [])
  | t :: rest => by
    rw [chainRun_eq]
    apply Predicts.look
    rw [List.head?_cons, Option.map_some, Option.bind_some]
    cases hop : level t.kind with
    | none => exact .give (.self left) _
    | some op =>
      have hBehind : Predicts (fun ks => Extends level tighter left (t.kind :: ks))
          ((run (binary tighter)).andThen fun right =>
            chainRun level tighter (.operator op [left, right])) rest := by
        refine (predicts_binary tighter rest).andThen
          (fun right => Extends level tighter (.operator op [left, right]))
          (fun right behind h => ?_) (fun hr hMore => .operator hop hr hMore)
          fun right => ⟨[], _, .self _⟩
        have hShort := run_shorter h
        exact predicts_chain level tighter (.operator op [left, right]) behind
      exact hBehind.next fun h => h
termination_by source => (source.length, 0)
decreasing_by
  · exact Prod.Lex.left _ _ (by simp)
  · exact Prod.Lex.left _ _ (by simp; omega)

theorem predicts_unary : (source : List Token) → Predicts (Derives .unary) (run unary) source
  | [] => by
    rw [run_unary]
    exact .look ((predicts_power []).mono .unsigned)
  | ⟨k, start, stop⟩ :: rest => by
    have hPower := predicts_power (⟨k, start, stop⟩ :: rest)
    rw [run_unary]
    apply Predicts.look
    cases k
    case minus => exact ((predicts_unary rest).map .minus).next fun h => h
    case plus => exact (predicts_unary rest).next .plus
    case not => exact ((predicts_unary rest).map .not).next fun h => h
    all_goals exact hPower.mono .unsigned
termination_by source => (source.length, 2)
decreasing_by
  · exact Prod.Lex.right _ (by simp)
  · exact Prod.Lex.right _ (by simp)
  all_goals exact Prod.Lex.left _ _ (by simp)

theorem predicts_power (source : List Token) : Predicts (Derives .power) (run power) source := by
  rw [run_power]
  refine (predicts_primary source).andThen Raises (fun base rest h => ?_)
    Raises.power fun base => ⟨[], base, .not⟩
  have hShort := run_shorter h
  apply Predicts.look
  cases rest with
  | nil => exact .give .not _
  | cons t rest =>
    have hRest : rest.length < source.length := by
      rw [List.length_cons] at hShort
      omega
    obtain ⟨k, start, stop⟩ := t
    cases k
    case caret => exact ((predicts_unary rest).map .caret).next fun h => h
    all_goals exact .give .not _
termination_by (source.length, 1)
decreasing_by
  · exact Prod.Lex.right _ (by simp)
  · exact Prod.Lex.left _ _ hRest

theorem predicts_primary : (source : List Token) → Predicts (Derives .primary) (run primary) source
  | [] => by
    rw [run_primary]
    exact .look (.fail (.number 0) _ _)
  | ⟨k, start, stop⟩ :: rest => by
    rw [run_primary]
    apply Predicts.look
    cases k
    case number x => exact Predicts.next (.give (.number x) rest) fun h => h
    case text s => exact Predicts.next (.give (.text s) rest) fun h => h
    case ident name =>
      refine Predicts.next (.look ?_) Calls.primary
      match rest with
      | [] => exact .give .not _
      | ⟨k, start, stop⟩ :: inner =>
        cases k
        case leftParen => exact ((predicts_arguments inner).map .paren).next fun h => h
        all_goals exact .give .not _
    case leftParen =>
      refine Predicts.next (Predicts.andThen (predicts_binary levels rest)
        (fun n ks m => ks = [.rightParen] ∧ m = .group n) (fun n behind _ => ?_)
        (by rintro ks _ n _ h ⟨rfl, rfl⟩; exact .group h) fun n => ⟨_, _, rfl, rfl⟩) fun h => h
      apply Predicts.look
      cases behind with
      | nil => exact .fail ⟨rfl, rfl⟩ _ _
      | cons u behind =>
        obtain ⟨k, start, stop⟩ := u
        cases k
        case rightParen => exact Predicts.next (.give ⟨rfl, rfl⟩ behind) fun h => h
        all_goals exact .fail ⟨rfl, rfl⟩ _ _
    all_goals exact .fail (.number 0) _ _
termination_by source => (source.length, 0)
decreasing_by
  · exact Prod.Lex.left _ _ (by simp only [List.length_cons]; omega)
  · exact Prod.Lex.left _ _ (by simp)

theorem predicts_arguments : (source : List Token) → Predicts Lists (run arguments) source
  | [] => by
    rw [run_arguments]
    exact .look ((predicts_operands []).mono And.left)
  | ⟨k, start, stop⟩ :: rest => by
    have hOperands := predicts_operands (⟨k, start, stop⟩ :: rest)
    rw [run_arguments]
    apply Predicts.look
    cases k
    case rightParen => exact Predicts.next (.give .nil rest) fun h => h
    all_goals exact hOperands.mono And.left
termination_by source => (source.length, levels.length + 5)
decreasing_by
  · exact Prod.Lex.right _ (by simp)
  · exact Prod.Lex.right _ (by simp)

theorem predicts_operands (source : List Token) :
    Predicts (fun ks ns => Lists ks ns ∧ ns ≠ []) (run operands) source := by
  rw [run_operands]
  refine (predicts_binary levels source).andThen Follows (fun first rest h => ?_)
    Follows.lists fun first => ⟨_, _, .close⟩
  have hShort := run_shorter h
  apply Predicts.look
  cases rest with
  | nil => exact .fail .close _ _
  | cons t rest =>
    have hRest : rest.length < source.length := by
      rw [List.length_cons] at hShort
      omega
    obtain ⟨k, start, stop⟩ := t
    cases k
    case comma => exact ((predicts_operands rest).map fun h => .comma h.1 h.2).next fun h => h
    case rightParen => exact Predicts.next (.give .close rest) fun h => h
    all_goals exact .fail .close _ _
termination_by (source.length, levels.length + 4)
decreasing_by
  · exact Prod.Lex.right _ (by simp)
  · exact Prod.Lex.left _ _ hRest

end

theorem predicts_complete (source : List Token) :
    Predicts (Derives (.binary levels)) completeRun source := by
  refine (predicts_binary levels source).andThen (fun n ks m => ks = [] ∧ m = n)
    (fun n rest _ => ?_) (by rintro ks _ n _ h ⟨rfl, rfl⟩; rwa [List.append_nil])
    fun n => ⟨[], n, rfl, rfl⟩
  apply Predicts.look
  cases rest with
  | nil => exact .fail ⟨rfl, rfl⟩ _ _
  | cons t rest =>
    obtain ⟨k, start, stop⟩ := t
    cases k
    case eof => exact .give ⟨rfl, rfl⟩ _
    all_goals exact .fail ⟨rfl, rfl⟩ _ _

theorem ne_eof_of_phrase {s : Stratum} {ks : List TokenKind} {n : Node} (h : Phrase s ks n) :
    ∀ k ∈ ks, k ≠ .eof := by
  induction h with
  | operand _ _ ih => exact ih
  | join _ hop _ _ ihl ihr =>
    refine List.forall_mem_append.mpr ⟨ihl, List.forall_mem_cons.mpr ⟨?_, ihr⟩⟩
    cases hop <;> nofun
  | minus _ ih | plus _ ih | not _ ih => exact List.forall_mem_cons.mpr ⟨nofun, ih⟩
  | power _ _ ihl ihr =>
    exact List.forall_mem_append.mpr ⟨ihl, List.forall_mem_cons.mpr ⟨nofun, ihr⟩⟩
  | number | text | word => exact List.forall_mem_cons.mpr ⟨nofun, nofun⟩
  | call name _ ih =>
    have hComma : ∀ k ∈ [TokenKind.comma], k ≠ .eof := List.forall_mem_singleton.mpr nofun
    have hInside := forall_mem_intercalate hComma (List.forall_mem_map.mpr ih)
    refine List.forall_mem_append.mpr ⟨?_, List.forall_mem_cons.mpr ⟨nofun, nofun⟩⟩
    exact List.forall_mem_cons.mpr ⟨nofun, List.forall_mem_cons.mpr ⟨nofun, hInside⟩⟩
  | group _ ih =>
    refine List.forall_mem_append.mpr ⟨?_, List.forall_mem_cons.mpr ⟨nofun, nofun⟩⟩
    exact List.forall_mem_cons.mpr ⟨nofun, ih⟩

end Reading

/-- A row of tokens that some expression begins with. -/
def Viable (ks : List TokenKind) : Prop :=
  ∃ row n, Phrase .disjunction row n ∧ ks <+: row

/-- No expression begins with the row and the token behind it, though some expression begins with
the row. Behind the end of the source the row has to be an expression itself. -/
structure Blocks (before : List TokenKind) (k : TokenKind) : Prop where
  viable : Viable before
  blocked : ¬ Viable (before ++ [k])
  unfinished : k = .eof → ∀ n, ¬ Phrase .disjunction before n

theorem Viable.of_isPrefix {ks ms : List TokenKind} (h : Viable ms) (hPrefix : ks <+: ms) :
    Viable ks := by
  obtain ⟨row, n, hPhrase, hRow⟩ := h
  exact ⟨row, n, hPhrase, hPrefix.trans hRow⟩

namespace Reading

/-- A row that is alike to one on which the readers fail is no expression. -/
theorem not_phrase_of_alike {n : Nat} {source : List Token} {ks : List TokenKind} {m : Node}
    (h : ∀ other, Alike n source other → ∃ g, completeRun other = .error g)
    (hAlike : (source.map Token.kind).take n <+: ks ++ [.eof])
    (hn : n ≤ source.length) : ¬ Phrase .disjunction ks m := by
  intro hPhrase
  let other : List Token := (ks ++ [TokenKind.eof]).map (⟨·, 0, 0⟩)
  have hKinds : other.map Token.kind = ks ++ [.eof] := by simp [other, Function.comp_def]
  obtain ⟨g, hg⟩ := h other (by
    rw [Alike, hKinds, List.prefix_iff_eq_take.mp hAlike, List.length_take, List.length_map,
      Nat.min_eq_left hn])
  have hComplete := complete_of_derives (derives_of_phrase hPhrase) hKinds
  rw [complete_eq, hg] at hComplete
  cases hComplete

theorem exists_blocks {row : List Token} {last : Token} {f : SourceFault} (hLast : last.kind = .eof)
    (h : complete (row ++ [last]) = .error f) :
    ∃ before t after, row ++ [last] = before ++ t :: after ∧ f.offset = t.start ∧
      Blocks (before.map Token.kind) t.kind := by
  have hRun : completeRun (row ++ [last]) = .error f := by
    rw [complete_eq] at h
    cases hRun : completeRun (row ++ [last]) with
    | error g =>
      rw [hRun] at h
      exact congrArg _ (Except.error.inj h)
    | ok r =>
      rw [hRun] at h
      cases h
  obtain ⟨n, hOffset, ⟨later, m, hDerives⟩, hAlike⟩ := (predicts_complete _).stops hRun
  have hPhrase := derives_iff_phrase.mp hDerives
  have hn : n < (row ++ [last]).length := by
    by_contra hEnd
    rw [List.take_of_length_le (by rw [List.length_map]; exact Nat.not_lt.mp hEnd)] at hPhrase
    exact ne_eof_of_phrase hPhrase .eof (by simp [hLast]) rfl
  have hDrop := List.drop_eq_getElem_cons hn
  have hSplit := List.take_append_drop n (row ++ [last])
  rw [hDrop] at hOffset hSplit
  have hTaken : ((row ++ [last]).map Token.kind).take (n + 1) =
      ((row ++ [last]).take n).map Token.kind ++ [(row ++ [last])[n].kind] := by
    rw [← List.map_take, List.take_add_one, List.getElem?_eq_getElem hn, List.map_append]
    rfl
  refine ⟨_, _, _, hSplit.symm, hOffset, ?_, ?_, ?_⟩
  · rw [List.map_take]
    exact ⟨_, m, hPhrase, List.prefix_append _ _⟩
  · rintro ⟨ks, m, hBlocked, hPrefix⟩
    rw [← hTaken] at hPrefix
    exact not_phrase_of_alike hAlike (hPrefix.trans (List.prefix_append _ _)) hn hBlocked
  · intro hEnd m hWhole
    rw [hEnd] at hTaken
    exact not_phrase_of_alike hAlike (hTaken ▸ List.prefix_rfl) hn hWhole

end Reading

/-- A text that scans but is not read is at fault at the first token that blocks its row. -/
theorem Node.read_fault_first {s : String} {ts : List Token} {f : SourceFault}
    (hText : Text.trim s.toList ≠ []) (hTokens : Scan.tokens 0 (Text.trim s.toList) = .ok ts)
    (h : Node.read s = .error f) :
    ∃ before t after, ts = before ++ t :: after ∧ f.offset = t.start ∧
      Blocks (before.map Token.kind) t.kind ∧
      ∀ earlier u between, before = earlier ++ u :: between →
        ¬ Blocks (earlier.map Token.kind) u.kind := by
  obtain ⟨row, last, rfl, hLast, -⟩ := Scan.tokens_readable hTokens
  have hComplete : Reading.complete (row ++ [last]) = .error f := by
    rw [read] at h
    split at h
    · exact absurd ‹_› hText
    · rwa [hTokens] at h
  obtain ⟨before, t, after, hRow, hOffset, hBlocks⟩ := Reading.exists_blocks hLast hComplete
  refine ⟨before, t, after, hRow, hOffset, hBlocks, ?_⟩
  rintro earlier u between rfl hEarlier
  exact hEarlier.blocked (hBlocks.viable.of_isPrefix ⟨between.map Token.kind, by simp⟩)

theorem Node.read_fault_first_group :
    Node.read "f(x, (a + b c" = .error ⟨12, .expected .rightParen (.ident "c")⟩ ∧
    ∃ before t after, before ++ t :: after = [
      ⟨.ident "f", 0, 1⟩, ⟨.leftParen, 1, 2⟩, ⟨.ident "x", 2, 3⟩, ⟨.comma, 3, 4⟩,
      ⟨.leftParen, 5, 6⟩, ⟨.ident "a", 6, 7⟩, ⟨.plus, 8, 9⟩, ⟨.ident "b", 10, 11⟩,
      ⟨.ident "c", 12, 13⟩, ⟨.eof, 13, 13⟩] ∧ t.start = 12 ∧
      Blocks (before.map Token.kind) t.kind := by
  have hTokens : Scan.tokens 0 (Text.trim "f(x, (a + b c".toList) = .ok [
      ⟨.ident "f", 0, 1⟩, ⟨.leftParen, 1, 2⟩, ⟨.ident "x", 2, 3⟩, ⟨.comma, 3, 4⟩,
      ⟨.leftParen, 5, 6⟩, ⟨.ident "a", 6, 7⟩, ⟨.plus, 8, 9⟩, ⟨.ident "b", 10, 11⟩,
      ⟨.ident "c", 12, 13⟩, ⟨.eof, 13, 13⟩] := by cbv
  have hRead : Node.read "f(x, (a + b c" = .error ⟨12, .expected .rightParen (.ident "c")⟩ := by
    cbv
  obtain ⟨before, t, after, hRow, hOffset, hBlocks, -⟩ :=
    Node.read_fault_first (by decide) hTokens hRead
  exact ⟨hRead, before, t, after, hRow.symm, hOffset.symm, hBlocks⟩

end Blockwork
