import Blockwork.Proofs.Expression.Lookahead

/-! # Reading by number

Tokens can be read from a list with the number of the next one. A number past the list has no token,
and passing the last token stays at it. The end of the source, which is the last token, is passed by
no reader, so the number stays in the list and both ways of reading come to the same.
-/

set_option autoImplicit false

namespace Blockwork

namespace Reading

/-- From the number of a token to a value and the number of the token behind it. There is nothing
where a number is past the list, or after more rounds than allowed. -/
abbrev Walk (α : Type) := Nat → Option (Except SourceFault (α × Nat))

namespace Walk

section

variable {α β : Type} (ts : List Token)

def give (v : α) : Walk α := fun p => some (.ok (v, p))

def raise (f : SourceFault) : Walk α := fun _ => some (.error f)

def bump (p : Nat) : Nat := if p + 1 < ts.length then p + 1 else p

def look (choose : TokenKind → Walk α) : Walk α := fun p =>
  ts[p]?.bind fun t => choose t.kind p

def take (choose : Token → Walk α) : Walk α := fun p =>
  ts[p]?.bind fun t => choose t (bump ts p)

def next (w : Walk α) : Walk α := take ts fun _ => w

def fail (cause : TokenKind → SourceCause) : Walk α := fun p =>
  ts[p]?.map fun t => .error ⟨t.start, cause t.kind⟩

def andThen (w : Walk α) (following : α → Walk β) : Walk β := fun p =>
  match w p with
  | none => none
  | some (.error e) => some (.error e)
  | some (.ok (v, q)) => following v q

def map (f : α → β) (w : Walk α) : Walk β := w.andThen fun v => give (f v)

end

end Walk

namespace Numbered

variable (ts : List Token)

mutual

def binary : Nat → List Level → Walk Node
  | 0, _ => fun _ => none
  | n + 1, [] => unary n
  | n + 1, level :: tighter => (binary n tighter).andThen (chain n level tighter)

def chain : Nat → Level → List Level → Node → Walk Node
  | 0, _, _, _ => fun _ => none
  | n + 1, level, tighter, left => .look ts fun k =>
    match level k with
    | none => .give left
    | some op => .next ts ((binary n tighter).andThen fun right =>
        chain n level tighter (.operator op [left, right]))

def unary : Nat → Walk Node
  | 0 => fun _ => none
  | n + 1 => .look ts fun
    | .minus => .next ts ((unary n).map (.operator .neg [·]))
    | .plus => .next ts (unary n)
    | .not => .next ts ((unary n).map (.operator .not [·]))
    | _ => power n

def power : Nat → Walk Node
  | 0 => fun _ => none
  | n + 1 => (primary n).andThen fun base => .look ts fun
    | .caret => .next ts ((unary n).map (.operator .pow [base, ·]))
    | _ => .give base

def primary : Nat → Walk Node
  | 0 => fun _ => none
  | n + 1 => .take ts fun t =>
    match t.kind with
    | .number x => .give (.literal (.number x))
    | .text s => .give (.literal (.text s))
    | .ident name => .look ts fun
      | .leftParen => .next ts ((arguments n).map (.call name))
      | _ => .give (named name)
    | .leftParen => (binary n levels).andThen fun inner => .look ts fun
      | .rightParen => .next ts (.give (.group inner))
      | _ => .fail ts (.expected .rightParen)
    | k => .raise ⟨t.start, .unexpectedToken k⟩

def arguments : Nat → Walk (List Node)
  | 0 => fun _ => none
  | n + 1 => .look ts fun
    | .rightParen => .next ts (.give [])
    | _ => operands n

def operands : Nat → Walk (List Node)
  | 0 => fun _ => none
  | n + 1 => (binary n levels).andThen fun first => .look ts fun
    | .comma => .next ts ((operands n).map (first :: ·))
    | .rightParen => .next ts (.give [first])
    | _ => .fail ts (.expected .rightParen)

end

def complete (fuel : Nat) : Option (Except SourceFault Node) :=
  (((binary ts fuel levels).andThen fun n => .look ts fun
    | .eof => .next ts (.give n)
    | _ => .fail ts (.expected .eof)) 0).map (·.map Prod.fst)

end Numbered

/-- The number of the first token of a row that a list ends with, up to the end of the source. -/
structure Stands (ts : List Token) (p : Nat) (source : List Token) : Prop where
  drop : ts.drop p = source
  ended : source.getLast?.map Token.kind = some .eof

section

variable {α β : Type} {ts source rest : List Token} {t : Token} {p : Nat}

theorem Stands.ne_nil (h : Stands ts p source) : source ≠ [] := by
  rintro rfl
  cases h.ended

theorem Stands.getElem? (h : Stands ts p (t :: rest)) : ts[p]? = some t := by
  rw [← List.head?_drop, h.drop, List.head?_cons]

theorem Stands.bump (h : Stands ts p (t :: rest)) (ht : t.kind ≠ .eof) :
    Stands ts (Walk.bump ts p) rest := by
  cases rest with
  | nil => exact absurd (Option.some.inj h.ended) ht
  | cons u rest =>
    -- The list goes on behind `p`, so the number moves instead of staying at the last token.
    have hDrop : ts.drop (p + 1) = u :: rest := by rw [← List.tail_drop, h.drop, List.tail_cons]
    have hLength : p + 1 < ts.length := by
      by_contra hp
      cases (List.drop_of_length_le (Nat.not_lt.mp hp)).symm.trans hDrop
    rw [Walk.bump, if_pos hLength]
    exact ⟨hDrop, by rw [← h.ended, List.getLast?_cons_cons]⟩

/-- By number, and with enough rounds, a walk comes to what a run makes of a row. -/
structure Agrees (ts : List Token) (w : Nat → Walk α) (r : Run α) (source : List Token) : Prop where
  takes : ∀ {v : α} {rest : List Token} {p : Nat}, r source = .ok (v, rest) → Stands ts p source →
    ∃ q, Stands ts q rest ∧ ∃ n, ∀ fuel ≥ n, w fuel p = some (.ok (v, q))
  stops : ∀ {f : SourceFault} {p : Nat}, r source = .error f → Stands ts p source →
    ∃ n, ∀ fuel ≥ n, w fuel p = some (.error f)

theorem exists_round {w w' : Nat → Walk α} {o : Option (Except SourceFault (α × Nat))}
    (hw : ∀ n, w' (n + 1) = w n) (h : ∃ n, ∀ fuel ≥ n, w fuel p = o) :
    ∃ n, ∀ fuel ≥ n, w' fuel p = o := by
  obtain ⟨n, h⟩ := h
  refine ⟨n + 1, fun fuel hFuel => ?_⟩
  obtain ⟨m, rfl⟩ := Nat.exists_eq_add_of_le' (Nat.le_trans (Nat.le_add_left 1 n) hFuel)
  rw [hw]
  exact h m (Nat.le_of_succ_le_succ hFuel)

theorem Agrees.round {w w' : Nat → Walk α} {r : Run α} (h : Agrees ts w r source)
    (hw : ∀ n, w' (n + 1) = w n) : Agrees ts w' r source where
  takes hOk hStands := by
    obtain ⟨q, hRest, hWalk⟩ := h.takes hOk hStands
    exact ⟨q, hRest, exists_round hw hWalk⟩
  stops hError hStands := exists_round hw (h.stops hError hStands)

theorem Agrees.nil (w : Nat → Walk α) (r : Run α) : Agrees ts w r [] where
  takes _ hStands := absurd rfl hStands.ne_nil
  stops _ hStands := absurd rfl hStands.ne_nil

theorem Agrees.give (v : α) (source : List Token) :
    Agrees ts (fun _ => .give v) (Run.give v) source where
  takes hOk hStands := by
    obtain ⟨rfl, rfl⟩ := Prod.mk.inj (Except.ok.inj hOk)
    exact ⟨_, hStands, 0, fun _ _ => rfl⟩
  stops hError := by cases hError

theorem Agrees.fail (cause : TokenKind → SourceCause) (source : List Token) :
    Agrees (α := α) ts (fun _ => .fail ts cause) (Run.fail cause) source where
  takes hOk hStands := by
    obtain ⟨t, rest, rfl⟩ := List.exists_cons_of_ne_nil hStands.ne_nil
    cases hOk
  stops hError hStands := by
    obtain ⟨t, rest, rfl⟩ := List.exists_cons_of_ne_nil hStands.ne_nil
    obtain rfl := Except.error.inj hError
    exact ⟨0, fun _ _ => by rw [Walk.fail, hStands.getElem?, Option.map_some]⟩

/-- The token is named although it has been passed. -/
theorem Agrees.raise {choose : Nat → Token → Walk α} {cause : TokenKind → SourceCause}
    (h : ∀ n, choose n t = .raise ⟨t.start, cause t.kind⟩) (rest : List Token) :
    Agrees ts (fun n => .take ts (choose n)) (Run.fail cause) (t :: rest) where
  takes hOk := by cases hOk
  stops hError hStands := by
    obtain rfl := Except.error.inj hError
    exact ⟨0, fun n _ => by rw [Walk.take, hStands.getElem?, Option.bind_some, h]; rfl⟩

theorem Agrees.look {choose : Nat → TokenKind → Walk α} {spelled : Option TokenKind → Run α}
    (h : Agrees ts (fun n => choose n t.kind) (spelled (some t.kind)) (t :: rest)) :
    Agrees ts (fun n => .look ts (choose n)) (Run.look spelled) (t :: rest) where
  takes hOk hStands := by
    obtain ⟨q, hRest, n, hWalk⟩ := h.takes hOk hStands
    refine ⟨q, hRest, n, fun fuel hFuel => ?_⟩
    rw [Walk.look, hStands.getElem?, Option.bind_some, hWalk fuel hFuel]
  stops hError hStands := by
    obtain ⟨n, hWalk⟩ := h.stops hError hStands
    refine ⟨n, fun fuel hFuel => ?_⟩
    rw [Walk.look, hStands.getElem?, Option.bind_some, hWalk fuel hFuel]

theorem Agrees.ahead {w : Nat → Walk α} {spelled : Option TokenKind → Run α}
    (h : Agrees ts w (spelled (some t.kind)) (t :: rest)) :
    Agrees ts w (Run.look spelled) (t :: rest) :=
  ⟨h.takes, h.stops⟩

theorem Agrees.take {choose : Nat → Token → Walk α} {r : Run α}
    (ht : t.kind ≠ .eof) (h : Agrees ts (fun n => choose n t) r rest) :
    Agrees ts (fun n => .take ts (choose n)) r.next (t :: rest) where
  takes hOk hStands := by
    obtain ⟨q, hRest, n, hWalk⟩ := h.takes hOk (hStands.bump ht)
    refine ⟨q, hRest, n, fun fuel hFuel => ?_⟩
    rw [Walk.take, hStands.getElem?, Option.bind_some, hWalk fuel hFuel]
  stops hError hStands := by
    obtain ⟨n, hWalk⟩ := h.stops hError (hStands.bump ht)
    refine ⟨n, fun fuel hFuel => ?_⟩
    rw [Walk.take, hStands.getElem?, Option.bind_some, hWalk fuel hFuel]

theorem Agrees.andThen {w : Nat → Walk α} {r : Run α} {more : Nat → α → Walk β}
    {following : α → Run β} (h : Agrees ts w r source)
    (hMore : ∀ v rest, r source = .ok (v, rest) →
      Agrees ts (fun n => more n v) (following v) rest) :
    Agrees ts (fun n => (w n).andThen (more n)) (r.andThen following) source where
  takes hOk hStands := by
    rw [Run.andThen] at hOk
    split at hOk
    · cases hOk
    · rename_i v rest hFirst
      obtain ⟨q, hRest, n, hWalk⟩ := h.takes hFirst hStands
      obtain ⟨q', hBehind, m, hThen⟩ := (hMore v rest hFirst).takes hOk hRest
      refine ⟨q', hBehind, max n m, fun fuel hFuel => ?_⟩
      rw [Walk.andThen, hWalk fuel (Nat.le_trans (Nat.le_max_left n m) hFuel)]
      exact hThen fuel (Nat.le_trans (Nat.le_max_right n m) hFuel)
  stops hError hStands := by
    rw [Run.andThen] at hError
    split at hError
    · rename_i f hFirst
      obtain rfl := Except.error.inj hError
      obtain ⟨n, hWalk⟩ := h.stops hFirst hStands
      exact ⟨n, fun fuel hFuel => by rw [Walk.andThen, hWalk fuel hFuel]⟩
    · rename_i v rest hFirst
      obtain ⟨q, hRest, n, hWalk⟩ := h.takes hFirst hStands
      obtain ⟨m, hThen⟩ := (hMore v rest hFirst).stops hError hRest
      refine ⟨max n m, fun fuel hFuel => ?_⟩
      rw [Walk.andThen, hWalk fuel (Nat.le_trans (Nat.le_max_left n m) hFuel)]
      exact hThen fuel (Nat.le_trans (Nat.le_max_right n m) hFuel)

theorem Agrees.map {w : Nat → Walk α} {r : Run α} {f : α → β} (h : Agrees ts w r source) :
    Agrees ts (fun n => (w n).map f) (r.map f) source :=
  h.andThen fun v rest _ => .give (f v) rest

end

section

variable {ts : List Token}

mutual

theorem agrees_binary : (ls : List Level) → (source : List Token) →
    (∀ level ∈ ls, level .eof = none) →
    Agrees ts (fun n => Numbered.binary ts n ls) (run (binary ls)) source
  | [], source, _ => by
    rw [run_binary_nil]
    exact (agrees_unary source).round fun _ => by rw [Numbered.binary]
  | level :: tighter, source, hLevels => by
    obtain ⟨hLevel, hTighter⟩ := List.forall_mem_cons.mp hLevels
    rw [run_binary_cons]
    have hWhole : Agrees ts (fun n => (Numbered.binary ts n tighter).andThen
        (Numbered.chain ts n level tighter))
        ((run (binary tighter)).andThen (chainRun level tighter)) source := by
      refine (agrees_binary tighter source hTighter).andThen fun left rest h => ?_
      have hShort := run_shorter h
      exact agrees_chain level tighter hLevel hTighter left rest
    exact hWhole.round fun _ => by rw [Numbered.binary]
termination_by ls source => (source.length, ls.length + 3)
decreasing_by
  · exact Prod.Lex.right _ (by simp)
  · exact Prod.Lex.right _ (by simp)
  · exact Prod.Lex.left _ _ hShort

theorem agrees_chain (level : Level) (tighter : List Level) (hLevel : level .eof = none)
    (hTighter : ∀ level ∈ tighter, level .eof = none) (left : Node) : (source : List Token) →
    Agrees ts (fun n => Numbered.chain ts n level tighter left) (chainRun level tighter left) source
  | [] => .nil _ _
  | t :: rest => by
    rw [chainRun_eq]
    refine Agrees.round ?_ fun _ => by rw [Numbered.chain]
    apply Agrees.look
    rw [Option.bind_some]
    cases hop : level t.kind with
    | none => exact .give left _
    | some op =>
      have ht : t.kind ≠ .eof := fun ht => by
        rw [ht, hLevel] at hop
        cases hop
      refine Agrees.take ht ((agrees_binary tighter rest hTighter).andThen fun right behind h => ?_)
      have hShort := run_shorter h
      exact agrees_chain level tighter hLevel hTighter (.operator op [left, right]) behind
termination_by source => (source.length, 0)
decreasing_by
  · exact Prod.Lex.left _ _ (by simp)
  · exact Prod.Lex.left _ _ (by simp; omega)

theorem agrees_unary : (source : List Token) →
    Agrees ts (Numbered.unary ts) (run unary) source
  | [] => .nil _ _
  | ⟨k, start, stop⟩ :: rest => by
    have hPower := agrees_power (⟨k, start, stop⟩ :: rest)
    rw [run_unary]
    refine Agrees.round ?_ fun _ => by rw [Numbered.unary]
    apply Agrees.look
    cases k
    case minus => exact .take nofun (agrees_unary rest).map
    case plus => exact .take nofun (agrees_unary rest)
    case not => exact .take nofun (agrees_unary rest).map
    all_goals exact hPower
termination_by source => (source.length, 2)
decreasing_by
  · exact Prod.Lex.right _ (by simp)
  all_goals exact Prod.Lex.left _ _ (by simp)

theorem agrees_power (source : List Token) : Agrees ts (Numbered.power ts) (run power) source := by
  rw [run_power]
  refine Agrees.round ((agrees_primary source).andThen fun base rest h => ?_)
    fun _ => by rw [Numbered.power]
  have hShort := run_shorter h
  cases rest with
  | nil => exact .nil _ _
  | cons t rest =>
    have hRest : rest.length < source.length := by
      rw [List.length_cons] at hShort
      omega
    obtain ⟨k, start, stop⟩ := t
    apply Agrees.look
    cases k
    case caret => exact .take nofun (agrees_unary rest).map
    all_goals exact .give base _
termination_by (source.length, 1)
decreasing_by
  · exact Prod.Lex.right _ (by simp)
  · exact Prod.Lex.left _ _ hRest

theorem agrees_primary : (source : List Token) →
    Agrees ts (Numbered.primary ts) (run primary) source
  | [] => .nil _ _
  | ⟨k, start, stop⟩ :: rest => by
    have hLevels : ∀ level ∈ levels, level .eof = none := by simp [levels]
    rw [run_primary]
    refine Agrees.round ?_ fun _ => by rw [Numbered.primary]
    apply Agrees.ahead
    cases k
    case number x => exact .take nofun (.give _ rest)
    case text s => exact .take nofun (.give _ rest)
    case ident name =>
      refine .take nofun ?_
      match rest with
      | [] => exact .nil _ _
      | ⟨k, start, stop⟩ :: inner =>
        apply Agrees.look
        cases k
        case leftParen => exact .take nofun (agrees_arguments inner).map
        all_goals exact .give _ _
    case leftParen =>
      refine .take nofun ((agrees_binary levels rest hLevels).andThen fun inner behind _ => ?_)
      match behind with
      | [] => exact .nil _ _
      | ⟨k, start, stop⟩ :: behind =>
        apply Agrees.look
        cases k
        case rightParen => exact .take nofun (.give (Node.group inner) behind)
        all_goals exact .fail _ _
    all_goals exact .raise (fun _ => rfl) rest
termination_by source => (source.length, 0)
decreasing_by
  · exact Prod.Lex.left _ _ (by simp only [List.length_cons]; omega)
  · exact Prod.Lex.left _ _ (by simp)

theorem agrees_arguments : (source : List Token) →
    Agrees ts (Numbered.arguments ts) (run arguments) source
  | [] => .nil _ _
  | ⟨k, start, stop⟩ :: rest => by
    have hOperands := agrees_operands (⟨k, start, stop⟩ :: rest)
    rw [run_arguments]
    refine Agrees.round ?_ fun _ => by rw [Numbered.arguments]
    apply Agrees.look
    cases k
    case rightParen => exact .take nofun (.give [] rest)
    all_goals exact hOperands
termination_by source => (source.length, levels.length + 5)
decreasing_by
  · exact Prod.Lex.right _ (by simp)

theorem agrees_operands (source : List Token) :
    Agrees ts (Numbered.operands ts) (run operands) source := by
  have hLevels : ∀ level ∈ levels, level .eof = none := by simp [levels]
  rw [run_operands]
  refine Agrees.round ((agrees_binary levels source hLevels).andThen fun first rest h => ?_)
    fun _ => by rw [Numbered.operands]
  have hShort := run_shorter h
  cases rest with
  | nil => exact .nil _ _
  | cons t rest =>
    have hRest : rest.length < source.length := by
      rw [List.length_cons] at hShort
      omega
    obtain ⟨k, start, stop⟩ := t
    apply Agrees.look
    cases k
    case comma => exact .take nofun (agrees_operands rest).map
    case rightParen => exact .take nofun (.give [first] rest)
    all_goals exact .fail _ _
termination_by (source.length, levels.length + 4)
decreasing_by
  · exact Prod.Lex.right _ (by simp)
  · exact Prod.Lex.left _ _ hRest

end

/-- By number, and with enough rounds, reading comes to the same expression or to the same fault. -/
theorem numbered_complete (hEnd : ts.getLast?.map Token.kind = some .eof) :
    ∃ n, ∀ fuel ≥ n, Numbered.complete ts fuel = some (complete ts) := by
  have hBinary : Agrees ts (fun n => Numbered.binary ts n levels) (run (binary levels)) ts :=
    agrees_binary levels ts (by simp [levels])
  have hStart : Stands ts 0 ts := ⟨rfl, hEnd⟩
  rw [complete_eq, completeRun, Run.andThen]
  cases hRun : run (binary levels) ts with
  | error f =>
    obtain ⟨n, hWalk⟩ := hBinary.stops hRun hStart
    refine ⟨n, fun fuel hFuel => ?_⟩
    rw [Numbered.complete, Walk.andThen, hWalk fuel hFuel]
    rfl
  | ok r =>
    obtain ⟨node, rest⟩ := r
    obtain ⟨q, hRest, n, hWalk⟩ := hBinary.takes hRun hStart
    refine ⟨n, fun fuel hFuel => ?_⟩
    obtain ⟨⟨k, start, stop⟩, behind, rfl⟩ := List.exists_cons_of_ne_nil hRest.ne_nil
    rw [Numbered.complete, Walk.andThen, hWalk fuel hFuel]
    have hToken := hRest.getElem?
    cases k
    case eof =>
      simp only [Walk.look, Walk.next, Walk.take, hToken, Option.bind_some]
      rfl
    all_goals
      simp only [Walk.look, Walk.fail, hToken, Option.bind_some, Option.map_some]
      rfl

end

end Reading

end Blockwork
