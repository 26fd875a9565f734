import Blockwork.Proofs.Expression.Grammar

/-! # Readers follow the grammar

A row of tokens that the grammar derives a tree from is read as that tree, if the token behind it
cannot extend it. A level of binary operators is read operand by operand, so what is proved there
is that reading the whole goes on as the chain behind the derived part goes on.
-/

set_option autoImplicit false

namespace Blockwork

namespace Reading

def Gives {α : Type} {source : List Token} (answer : Except SourceFault (Front α source))
    (value : α) (rest : List Token) : Prop :=
  ∃ h, answer = .ok ⟨value, rest, h⟩

theorem Gives.unique {α : Type} {source : List Token} {answer : Except SourceFault (Front α source)}
    {v w : α} {rest : List Token} (hv : Gives answer v rest) (hw : Gives answer w rest) :
    v = w := by
  obtain ⟨_, hv⟩ := hv
  obtain ⟨_, hw⟩ := hw
  exact congrArg Front.value (Except.ok.inj (hv.symm.trans hw))

/-- A token that ends an expression of the given levels. -/
structure Stops (ls : List Level) (k : TokenKind) : Prop where
  notCall : k ≠ .leftParen
  notPower : k ≠ .caret
  notOperator : ∀ level ∈ ls, level k = none

theorem Stops.of_suffix {ls tighter : List Level} {k : TokenKind} (h : Stops ls k)
    (hSuffix : tighter <:+ ls) : Stops tighter k :=
  ⟨h.notCall, h.notPower, fun level hLevel => h.notOperator level (hSuffix.subset hLevel)⟩

/-- A token that can start a primary expression, as far as readers look. -/
structure Opens (k : TokenKind) : Prop where
  notMinus : k ≠ .minus
  notPlus : k ≠ .plus
  notNot : k ≠ .not
  notClose : k ≠ .rightParen

section

variable {source rest : List Token} {t : Token} {v : Node}

theorem power_of_primary (h : Gives (primary source) v (t :: rest)) (ht : t.kind ≠ .caret) :
    Gives (power source) v (t :: rest) := by
  obtain ⟨hShort, h⟩ := h
  refine ⟨hShort, ?_⟩
  rw [power, h]
  dsimp only
  split
  · rename_i hCaret
    exact absurd hCaret ht
  · rfl

theorem power_of_operands {left right : Node} {behind : List Token}
    (hl : Gives (primary source) left (t :: behind)) (ht : t.kind = .caret)
    (hr : Gives (unary behind) right rest) :
    Gives (power source) (.operator .pow [left, right]) rest := by
  obtain ⟨hlShort, hl⟩ := hl
  obtain ⟨hrShort, hr⟩ := hr
  rw [power, hl]
  simp only [ht, hr]
  exact ⟨_, rfl⟩

theorem unary_of_power {s : Token} (hs : Opens s.kind)
    (h : Gives (power (s :: source)) v rest) : Gives (unary (s :: source)) v rest := by
  obtain ⟨hShort, h⟩ := h
  refine ⟨hShort, ?_⟩
  rw [unary]
  split
  · rename_i hMinus
    exact absurd hMinus hs.notMinus
  · rename_i hPlus
    exact absurd hPlus hs.notPlus
  · rename_i hNot
    exact absurd hNot hs.notNot
  · exact h

theorem unary_of_sign {op : Operator} (hUnary : op.isUnary = true) (ht : t.kind = op.kind)
    (h : Gives (unary source) v rest) :
    Gives (unary (t :: source)) (.operator op [v]) rest := by
  obtain ⟨hShort, h⟩ := h
  rw [unary]
  cases op <;> first | exact absurd hUnary (by decide) | skip
  all_goals
    simp only [ht, Operator.kind, h]
    exact ⟨_, rfl⟩

theorem unary_of_plus (ht : t.kind = .plus) (h : Gives (unary source) v rest) :
    Gives (unary (t :: source)) v rest := by
  obtain ⟨hShort, h⟩ := h
  rw [unary]
  simp only [ht, h]
  exact ⟨_, rfl⟩

theorem chain_stop {level : Level} (tighter : List Level) (h : level t.kind = none) :
    chain level tighter v (t :: rest) = .ok ⟨v, t :: rest, Nat.le_refl _⟩ := by
  rw [chain]
  split
  · rfl
  · rename_i op hOp
    rw [h] at hOp
    cases hOp

theorem chain_of_operand {level : Level} {tighter : List Level} {op : Operator} {left right : Node}
    {behind : List Token} (ht : level t.kind = some op)
    (hr : Gives (binary tighter behind) right rest) {whole : Extension rest}
    (hChain : chain level tighter (.operator op [left, right]) rest = .ok whole) :
    ∃ r : Extension (t :: behind), chain level tighter left (t :: behind) = .ok r ∧
      r.value = whole.value ∧ r.rest = whole.rest := by
  obtain ⟨hShort, hr⟩ := hr
  rw [chain]
  split
  · rename_i hNone
    rw [ht] at hNone
    cases hNone
  · rename_i op' hOp
    obtain rfl : op = op' := Option.some.inj (ht.symm.trans hOp)
    rw [hr]
    dsimp only
    rw [hChain]
    exact ⟨_, rfl, rfl, rfl⟩

theorem binary_of_chain {level : Level} {tighter : List Level} {left : Node}
    {middle : List Token} (hl : Gives (binary tighter source) left middle)
    {whole : Extension middle} (hChain : chain level tighter left middle = .ok whole) :
    Gives (binary (level :: tighter) source) whole.value whole.rest := by
  obtain ⟨hShort, hl⟩ := hl
  rw [binary, hl]
  dsimp only
  rw [hChain]
  exact ⟨_, rfl⟩

theorem primary_of_group {p q : Token} (hp : p.kind = .leftParen) (hq : q.kind = .rightParen)
    (h : Gives (binary levels source) v (q :: rest)) :
    Gives (primary (p :: source)) (.group v) rest := by
  obtain ⟨hShort, h⟩ := h
  rw [primary]
  simp only [hp, h, hq]
  exact ⟨_, rfl⟩

theorem primary_of_name {s : Token} {name : String} (hs : s.kind = .ident name)
    (ht : t.kind ≠ .leftParen) :
    Gives (primary (s :: t :: rest)) (named name) (t :: rest) := by
  refine ⟨by simp, ?_⟩
  rw [primary]
  simp only [hs]

theorem primary_of_number {s : Token} {x : Float} (hs : s.kind = .number x) :
    Gives (primary (s :: rest)) (.literal (.number x)) rest := by
  refine ⟨by simp, ?_⟩
  rw [primary]
  simp only [hs]

theorem primary_of_text {s : Token} {text : String} (hs : s.kind = .text text) :
    Gives (primary (s :: rest)) (.literal (.text text)) rest := by
  refine ⟨by simp, ?_⟩
  rw [primary]
  simp only [hs]

theorem primary_of_call {s p : Token} {name : String} {ns : List Node} (hs : s.kind = .ident name)
    (hp : p.kind = .leftParen) (h : Gives (arguments source) ns rest) :
    Gives (primary (s :: p :: source)) (.call name ns) rest := by
  obtain ⟨hShort, h⟩ := h
  rw [primary]
  simp only [hs, hp, h]
  exact ⟨_, rfl⟩

theorem arguments_of_none (ht : t.kind = .rightParen) : Gives (arguments (t :: rest)) [] rest := by
  rw [arguments]
  simp only [ht]
  exact ⟨_, rfl⟩

theorem arguments_of_operands {s : Token} {ns : List Node} (hs : s.kind ≠ .rightParen)
    (h : Gives (operands (s :: source)) ns rest) : Gives (arguments (s :: source)) ns rest := by
  obtain ⟨hShort, h⟩ := h
  refine ⟨hShort, ?_⟩
  rw [arguments]
  split
  · rename_i hParen
    exact absurd hParen hs
  · exact h

theorem operands_last (h : Gives (binary levels source) v (t :: rest)) (ht : t.kind = .rightParen) :
    Gives (operands source) [v] rest := by
  obtain ⟨hShort, h⟩ := h
  rw [operands, h]
  simp only [ht]
  exact ⟨_, rfl⟩

theorem operands_more {ns : List Node} {behind : List Token}
    (h : Gives (binary levels source) v (t :: behind)) (ht : t.kind = .comma)
    (hLater : Gives (operands behind) ns rest) : Gives (operands source) (v :: ns) rest := by
  obtain ⟨hShort, h⟩ := h
  obtain ⟨hLaterShort, hLater⟩ := hLater
  rw [operands, h]
  simp only [ht, hLater]
  exact ⟨_, rfl⟩

end

theorem stops_rightParen : Stops levels .rightParen :=
  ⟨nofun, nofun, by simp [levels]⟩

theorem stops_comma : Stops levels .comma :=
  ⟨nofun, nofun, by simp [levels]⟩

theorem stops_eof : Stops levels .eof :=
  ⟨nofun, nofun, by simp [levels]⟩

theorem levels_apart : levels.Pairwise fun looser tighter =>
    ∀ k op, looser k = some op → tighter k = none := by
  simp only [levels, List.pairwise_cons, List.forall_mem_cons, List.not_mem_nil, false_implies,
    implies_true, List.Pairwise.nil, and_true]
  repeat' apply And.intro
  all_goals
    intro k op hop
    cases k <;> first | rfl | cases hop

theorem stops_of_level {level : Level} {tighter : List Level}
    (hSuffix : level :: tighter <:+ levels) {k : TokenKind} {op : Operator}
    (hop : level k = some op) : Stops tighter k := by
  have hApart := (List.pairwise_cons.mp (levels_apart.sublist hSuffix.sublist)).1
  have hLevel : level ∈ levels := hSuffix.mem List.mem_cons_self
  simp only [levels, List.mem_cons, List.not_mem_nil, or_false] at hLevel
  refine ⟨?_, ?_, fun tight hTight => hApart tight hTight k op hop⟩
  all_goals
    rintro rfl
    rcases hLevel with rfl | rfl | rfl | rfl | rfl | rfl
    all_goals cases hop

def Category.read : Category → (source : List Token) → Except SourceFault (Front Node source)
  | .binary ls, source => Reading.binary ls source
  | .unary, source => Reading.unary source
  | .power, source => Reading.power source
  | .primary, source => Reading.primary source

def Category.Ends : Category → TokenKind → Prop
  | .binary ls, k => Stops ls k
  | .unary, k => Stops [] k
  | .power, k => Stops [] k
  | .primary, k => k ≠ .leftParen

def Category.Nested : Category → Prop
  | .binary ls => ls <:+ levels
  | _ => True

/-- How a derived row of tokens is read with more tokens behind it. -/
def Reads (c : Category) (ks : List TokenKind) (n : Node) : Prop :=
  ∀ ⦃ts : List Token⦄ ⦃t : Token⦄ ⦃rest : List Token⦄, ts.map Token.kind = ks →
    match c with
    -- The chain of a level starts from a left operand, so what is said of a row of the level is
    -- that the readers go on behind it as the chain does.
    | .binary (level :: tighter) => Stops tighter t.kind → ∀ {whole : Extension (t :: rest)},
        chain level tighter n (t :: rest) = .ok whole →
          Gives (binary (level :: tighter) (ts ++ t :: rest)) whole.value whole.rest
    | c => c.Ends t.kind → Gives (c.read (ts ++ t :: rest)) n (t :: rest)

theorem Reads.gives {c : Category} {ks : List TokenKind} {n : Node} (h : Reads c ks n)
    {ts : List Token} {t : Token} (rest : List Token) (hts : ts.map Token.kind = ks)
    (ht : c.Ends t.kind) : Gives (c.read (ts ++ t :: rest)) n (t :: rest) := by
  cases c with
  | binary ls =>
    cases ls with
    | nil => exact h hts ht
    | cons level tighter =>
      have ht : Stops (level :: tighter) t.kind := ht
      exact h hts (ht.of_suffix (List.suffix_cons _ _))
        (chain_stop tighter (ht.notOperator level List.mem_cons_self))
  | _ => exact h hts ht

/-- No derived row starts with a closing parenthesis, and one without signs before it opens. -/
theorem Derives.head {c : Category} {ks : List TokenKind} {n : Node} (h : Derives c ks n) :
    ∃ k later, ks = k :: later ∧ k ≠ .rightParen ∧ (c = .power ∨ c = .primary → Opens k) := by
  induction h with
  | tight _ ih | operand _ ih | unsigned _ ih =>
    obtain ⟨k, later, rfl, hClose, -⟩ := ih
    exact ⟨k, later, rfl, hClose, by simp⟩
  | operator _ _ _ ih _ =>
    obtain ⟨k, later, rfl, hClose, -⟩ := ih
    exact ⟨k, _, rfl, hClose, by simp⟩
  | minus | plus | not => exact ⟨_, _, rfl, nofun, by simp⟩
  | base _ ih =>
    obtain ⟨k, later, rfl, hClose, hOpens⟩ := ih
    exact ⟨k, later, rfl, hClose, fun _ => hOpens (.inr rfl)⟩
  | power _ _ ih _ =>
    obtain ⟨k, later, rfl, hClose, hOpens⟩ := ih
    exact ⟨k, _, rfl, hClose, fun _ => hOpens (.inr rfl)⟩
  | number | text | name | call | group =>
    exact ⟨_, _, rfl, nofun, fun _ => ⟨nofun, nofun, nofun, nofun⟩⟩

theorem operands_of_reads {operands : List (List TokenKind × Node)} (hne : operands ≠ [])
    (h : ∀ p ∈ operands, Reads (.binary levels) p.1 p.2) {ts : List Token} {q : Token}
    (rest : List Token)
    (hts : ts.map Token.kind = [TokenKind.comma].intercalate (operands.map (·.1)))
    (hq : q.kind = .rightParen) :
    Gives (Reading.operands (ts ++ q :: rest)) (operands.map (·.2)) rest := by
  have hStops : Stops levels q.kind := hq ▸ stops_rightParen
  induction operands generalizing ts with
  | nil => exact absurd rfl hne
  | cons p operands ih =>
    have hHead : Reads (.binary levels) p.1 p.2 := h p List.mem_cons_self
    cases operands with
    | nil =>
      have hOne : ts.map Token.kind = p.1 := by simpa using hts
      exact operands_last (hHead.gives _ hOne hStops) hq
    | cons second operands =>
      rw [List.map_cons, List.map_cons, List.intercalate_cons_cons, List.append_assoc,
        List.singleton_append] at hts
      obtain ⟨first, ts, rfl, hFirst, hts⟩ := List.map_eq_append_iff.mp hts
      obtain ⟨c, later, rfl, hc, hLater⟩ := List.map_eq_cons_iff.mp hts
      have hComma : Stops levels c.kind := hc ▸ stops_comma
      have hRest := ih (by simp) (fun x hx => h x (List.mem_cons_of_mem _ hx)) hLater
      rw [List.append_assoc, List.cons_append]
      exact operands_more (hHead.gives _ hFirst hComma) hc hRest

theorem arguments_of_derives {operands : List (List TokenKind × Node)}
    (h : ∀ p ∈ operands, Derives (.binary levels) p.1 p.2)
    (hReads : ∀ p ∈ operands, Reads (.binary levels) p.1 p.2) {ts : List Token} {q : Token}
    (rest : List Token)
    (hts : ts.map Token.kind = [TokenKind.comma].intercalate (operands.map (·.1)))
    (hq : q.kind = .rightParen) :
    Gives (arguments (ts ++ q :: rest)) (operands.map (·.2)) rest := by
  cases operands with
  | nil =>
    obtain rfl := List.map_eq_nil_iff.mp hts
    exact arguments_of_none hq
  | cons p operands =>
    have hOperands := operands_of_reads (by simp) hReads rest hts hq
    obtain ⟨k, later, hFirst, hClose, -⟩ := (h p List.mem_cons_self).head
    have hStart : ∃ ks, [TokenKind.comma].intercalate ((p :: operands).map (·.1)) = k :: ks := by
      cases operands with
      | nil => exact ⟨later, by simpa using hFirst⟩
      | cons second operands =>
        rw [List.map_cons, List.map_cons, List.intercalate_cons_cons, hFirst]
        exact ⟨_, rfl⟩
    obtain ⟨ks, hStart⟩ := hStart
    rw [hStart] at hts
    obtain ⟨s, ts, rfl, hs, -⟩ := List.map_eq_cons_iff.mp hts
    exact arguments_of_operands (hs ▸ hClose) hOperands

theorem Derives.reads {c : Category} {ks : List TokenKind} {n : Node} (h : Derives c ks n)
    (hc : c.Nested) : Reads c ks n := by
  have hLevels : (Category.binary levels).Nested := List.suffix_refl levels
  induction h with
  | tight _ ih =>
    intro ts t rest hts ht
    obtain ⟨hShort, hUnary⟩ := (ih trivial).gives _ hts ht
    refine ⟨hShort, ?_⟩
    rw [Category.read, binary]
    exact hUnary
  | operand _ ih =>
    intro ts t rest hts ht whole hChain
    have hTighter := ih ((List.suffix_cons _ _).trans hc)
    exact binary_of_chain (hTighter.gives _ hts ht) hChain
  | @operator level tighter k op ls rs l r hop _ _ ihl ihr =>
    intro ts t rest hts ht whole hChain
    obtain ⟨left, behind, rfl, hLeft, hBehind⟩ := List.map_eq_append_iff.mp hts
    obtain ⟨o, right, rfl, rfl, hRight⟩ := List.map_eq_cons_iff.mp hBehind
    have hTighter := ihr ((List.suffix_cons _ _).trans hc)
    -- The chain behind the left operand takes the operator and the right one, and goes on.
    obtain ⟨extended, hExtended, hValue, hRest⟩ :=
      chain_of_operand hop (hTighter.gives _ hRight ht) hChain
    rw [List.append_assoc, List.cons_append, ← hValue, ← hRest]
    exact ihl hc hLeft (stops_of_level hc hop) hExtended
  | minus _ ih =>
    intro ts t rest hts ht
    obtain ⟨s, ts, rfl, hs, hts⟩ := List.map_eq_cons_iff.mp hts
    have hUnary : Operator.neg.isUnary = true := rfl
    exact unary_of_sign hUnary hs ((ih trivial).gives _ hts ht)
  | plus _ ih =>
    intro ts t rest hts ht
    obtain ⟨s, ts, rfl, hs, hts⟩ := List.map_eq_cons_iff.mp hts
    exact unary_of_plus hs ((ih trivial).gives _ hts ht)
  | not _ ih =>
    intro ts t rest hts ht
    obtain ⟨s, ts, rfl, hs, hts⟩ := List.map_eq_cons_iff.mp hts
    have hUnary : Operator.not.isUnary = true := rfl
    exact unary_of_sign hUnary hs ((ih trivial).gives _ hts ht)
  | unsigned h ih =>
    intro ts t rest hts ht
    obtain ⟨k, later, rfl, -, hOpens⟩ := h.head
    have hPower := (ih trivial).gives rest hts ht
    obtain ⟨s, ts, rfl, rfl, -⟩ := List.map_eq_cons_iff.mp hts
    exact unary_of_power (hOpens (.inl rfl)) hPower
  | base _ ih =>
    intro ts t rest hts ht
    have ht : Stops [] t.kind := ht
    exact power_of_primary ((ih trivial).gives _ hts ht.notCall) ht.notPower
  | power _ _ ihl ihr =>
    intro ts t rest hts ht
    obtain ⟨left, behind, rfl, hLeft, hBehind⟩ := List.map_eq_append_iff.mp hts
    obtain ⟨o, right, rfl, ho, hRight⟩ := List.map_eq_cons_iff.mp hBehind
    have hCall : o.kind ≠ .leftParen := by
      rw [ho]
      nofun
    rw [List.append_assoc, List.cons_append]
    exact power_of_operands ((ihl trivial).gives _ hLeft hCall) ho ((ihr trivial).gives _ hRight ht)
  | number x =>
    intro ts t rest hts _
    obtain ⟨s, ts, rfl, hs, hNil⟩ := List.map_eq_cons_iff.mp hts
    obtain rfl := List.map_eq_nil_iff.mp hNil
    exact primary_of_number hs
  | text s =>
    intro ts t rest hts _
    obtain ⟨s, ts, rfl, hs, hNil⟩ := List.map_eq_cons_iff.mp hts
    obtain rfl := List.map_eq_nil_iff.mp hNil
    exact primary_of_text hs
  | name name =>
    intro ts t rest hts ht
    obtain ⟨s, ts, rfl, hs, hNil⟩ := List.map_eq_cons_iff.mp hts
    obtain rfl := List.map_eq_nil_iff.mp hNil
    exact primary_of_name hs ht
  | call name h ih =>
    intro ts t rest hts _
    obtain ⟨s, ts, rfl, hs, hts⟩ := List.map_eq_cons_iff.mp hts
    obtain ⟨p, ts, rfl, hp, hts⟩ := List.map_eq_cons_iff.mp hts
    obtain ⟨inner, qs, rfl, hInner, hqs⟩ := List.map_eq_append_iff.mp hts
    obtain ⟨q, qs, rfl, hq, hNil⟩ := List.map_eq_cons_iff.mp hqs
    obtain rfl := List.map_eq_nil_iff.mp hNil
    have hArguments := arguments_of_derives h (fun p hp => ih p hp hLevels) (t :: rest) hInner hq
    have hSource : s :: p :: (inner ++ [q]) ++ t :: rest =
        s :: p :: (inner ++ q :: t :: rest) := by simp
    rw [hSource]
    exact primary_of_call hs hp hArguments
  | group _ ih =>
    intro ts t rest hts _
    obtain ⟨p, ts, rfl, hp, hts⟩ := List.map_eq_cons_iff.mp hts
    obtain ⟨inner, qs, rfl, hInner, hqs⟩ := List.map_eq_append_iff.mp hts
    obtain ⟨q, qs, rfl, hq, hNil⟩ := List.map_eq_cons_iff.mp hqs
    obtain rfl := List.map_eq_nil_iff.mp hNil
    have hStops : Stops levels q.kind := hq ▸ stops_rightParen
    have hInside := (ih hLevels).gives (t :: rest) hInner hStops
    have hSource : p :: (inner ++ [q]) ++ t :: rest = p :: (inner ++ q :: t :: rest) := by simp
    rw [hSource]
    exact primary_of_group hp hq hInside

theorem complete_of_derives {ks : List TokenKind} {n : Node}
    (h : Derives (.binary levels) ks n) {ts : List Token}
    (hts : ts.map Token.kind = ks ++ [.eof]) : complete ts = .ok n := by
  obtain ⟨taken, behind, rfl, hTaken, hBehind⟩ := List.map_eq_append_iff.mp hts
  obtain ⟨t, behind, rfl, ht, hNil⟩ := List.map_eq_cons_iff.mp hBehind
  obtain rfl := List.map_eq_nil_iff.mp hNil
  have hStops : Stops levels t.kind := ht ▸ stops_eof
  obtain ⟨hShort, hWhole⟩ := (h.reads (List.suffix_refl levels)).gives [] hTaken hStops
  rw [Category.read] at hWhole
  rw [complete, hWhole]
  simp only [ht]

/-- A row of tokens before the end of the source is read as what the grammar derives from it. -/
theorem complete_iff_derives {row : List Token} {last : Token} (hLast : last.kind = .eof)
    (hRow : ∀ t ∈ row, t.kind ≠ .eof) {n : Node} :
    complete (row ++ [last]) = .ok n ↔ Derives (.binary levels) (row.map Token.kind) n := by
  constructor
  · intro h
    obtain ⟨taken, t, rest, hSource, ht, hDerives⟩ := complete_derives h
    rcases List.eq_nil_or_concat rest with rfl | ⟨front, back, rfl⟩
    · obtain ⟨rfl, -⟩ := List.append_inj' hSource rfl
      exact hDerives
    · have hEnd : row ++ [last] = (taken ++ t :: front) ++ [back] := by simpa using hSource
      obtain ⟨rfl, -⟩ := List.append_inj' hEnd rfl
      exact absurd ht (hRow t (by simp))
  · intro h
    exact complete_of_derives h (by simp [hLast])

end Reading

end Blockwork
