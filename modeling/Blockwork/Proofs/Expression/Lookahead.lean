import Blockwork.Proofs.Expression.Grammar

/-! # One token ahead

Without the bound on what they leave, readers are runs over rows of tokens. They are put together
from a few pieces, and none of these looks further than at the first token that is left. So what a
run makes of a row is settled by the kinds of the tokens that it takes and of the one behind them,
and a run that fails has taken the front part of something that it reads.
-/

set_option autoImplicit false

namespace Blockwork

namespace Reading

abbrev Run (α : Type) := List Token → Except SourceFault (α × List Token)

namespace Run

variable {α β : Type}

def give (v : α) : Run α := fun source => .ok (v, source)

def fail (cause : TokenKind → SourceCause) : Run α := fun source => fault source cause

def next (r : Run α) : Run α := fun source => r source.tail

def look (choose : Option TokenKind → Run α) : Run α := fun source =>
  choose (source.head?.map Token.kind) source

def andThen (r : Run α) (following : α → Run β) : Run β := fun source =>
  match r source with
  | .error e => .error e
  | .ok (v, rest) => following v rest

def map (f : α → β) (r : Run α) : Run β := r.andThen fun v => give (f v)

end Run

/-- Two rows that have the same kinds as far as their first `n` tokens go. -/
def Alike (n : Nat) (source other : List Token) : Prop :=
  (source.map Token.kind).take n = (other.map Token.kind).take n

def headOffset : List Token → Nat
  | [] => 0
  | t :: _ => t.start

section

variable {α β : Type} {n m : Nat} {source other : List Token}

theorem Alike.of_le (h : Alike n source other) (hm : m ≤ n) : Alike m source other := by
  have hTake := congrArg (List.take m) h
  rwa [List.take_take, List.take_take, Nat.min_eq_left hm] at hTake

theorem Alike.drop (h : Alike (n + m) source other) : Alike m (source.drop n) (other.drop n) := by
  have hDrop := congrArg (List.drop n) h
  rwa [List.drop_take, List.drop_take, Nat.add_sub_cancel_left, ← List.map_drop,
    ← List.map_drop] at hDrop

theorem Alike.head (h : Alike (n + 1) source other) :
    source.head?.map Token.kind = other.head?.map Token.kind := by
  have hHead := congrArg List.head? (h.of_le (Nat.succ_le_succ (Nat.zero_le n)))
  simpa [List.head?_take] using hHead

theorem Alike.tail {t : Token} (h : Alike (n + 1) (t :: source) other) :
    Alike n source other.tail := by
  have hAlike : Alike (1 + n) (t :: source) other := by rwa [Nat.add_comm]
  rw [← List.drop_one]
  exact hAlike.drop

/-- What a run does with a row: it takes tokens that spell its value, or it stops behind the front
part of a row that spells some value. Either way it does the same with every row whose tokens are
alike up to the first one left. -/
structure Predicts (spells : List TokenKind → α → Prop) (r : Run α) (source : List Token) :
    Prop where
  takes : ∀ {v : α} {rest : List Token}, r source = .ok (v, rest) → ∃ n, rest = source.drop n ∧
    spells ((source.map Token.kind).take n) v ∧
    ∀ other, Alike (n + 1) source other → r other = .ok (v, other.drop n)
  stops : ∀ {f : SourceFault}, r source = .error f → ∃ n, f.offset = headOffset (source.drop n) ∧
    (∃ later v, spells ((source.map Token.kind).take n ++ later) v) ∧
    ∀ other, Alike (n + 1) source other → ∃ g, r other = .error g

variable {spells : List TokenKind → α → Prop} {r : Run α}

theorem Predicts.mono {more : List TokenKind → α → Prop} (h : Predicts spells r source)
    (hMore : ∀ {ks v}, spells ks v → more ks v) : Predicts more r source where
  takes hOk := by
    obtain ⟨n, hRest, hSays, hAlike⟩ := h.takes hOk
    exact ⟨n, hRest, hMore hSays, hAlike⟩
  stops hError := by
    obtain ⟨n, hOffset, ⟨later, v, hSays⟩, hAlike⟩ := h.stops hError
    exact ⟨n, hOffset, ⟨later, v, hMore hSays⟩, hAlike⟩

theorem Predicts.give {v : α} (h : spells [] v) (source : List Token) :
    Predicts spells (Run.give v) source where
  takes hOk := by
    obtain ⟨rfl, rfl⟩ := Prod.mk.inj (Except.ok.inj hOk)
    exact ⟨0, rfl, h, fun _ _ => rfl⟩
  stops hError := by cases hError

theorem Run.fail_eq (cause : TokenKind → SourceCause) (source : List Token) :
    ∃ c, (Run.fail cause : Run α) source = .error ⟨headOffset source, c⟩ := by
  cases source <;> exact ⟨_, rfl⟩

theorem Predicts.fail {ks : List TokenKind} {v : α} (h : spells ks v)
    (cause : TokenKind → SourceCause) (source : List Token) :
    Predicts spells (Run.fail cause) source where
  takes hOk := by
    obtain ⟨c, hFault⟩ := Run.fail_eq (α := α) cause source
    cases hFault.symm.trans hOk
  stops hError := by
    obtain ⟨c, hFault⟩ := Run.fail_eq (α := α) cause source
    obtain rfl := Except.error.inj (hFault.symm.trans hError)
    refine ⟨0, rfl, ⟨ks, v, h⟩, fun other _ => ?_⟩
    obtain ⟨d, hOther⟩ := Run.fail_eq (α := α) cause other
    exact ⟨_, hOther⟩

theorem Predicts.look {choose : Option TokenKind → Run α}
    (h : Predicts spells (choose (source.head?.map Token.kind)) source) :
    Predicts spells (Run.look choose) source where
  takes hOk := by
    obtain ⟨n, hRest, hSays, hAlike⟩ := h.takes hOk
    refine ⟨n, hRest, hSays, fun other hOther => ?_⟩
    rw [Run.look, ← hOther.head]
    exact hAlike other hOther
  stops hError := by
    obtain ⟨n, hOffset, hSays, hAlike⟩ := h.stops hError
    refine ⟨n, hOffset, hSays, fun other hOther => ?_⟩
    rw [Run.look, ← hOther.head]
    exact hAlike other hOther

theorem Predicts.next {t : Token} {more : List TokenKind → α → Prop} (h : Predicts spells r source)
    (hMore : ∀ {ks v}, spells ks v → more (t.kind :: ks) v) :
    Predicts more r.next (t :: source) where
  takes hOk := by
    obtain ⟨n, hRest, hSays, hAlike⟩ := h.takes hOk
    refine ⟨n + 1, hRest, hMore hSays, fun other hOther => ?_⟩
    rw [Run.next, hAlike other.tail hOther.tail, List.drop_tail]
  stops hError := by
    obtain ⟨n, hOffset, ⟨later, v, hSays⟩, hAlike⟩ := h.stops hError
    exact ⟨n + 1, hOffset, ⟨later, v, hMore hSays⟩, fun other hOther => hAlike _ hOther.tail⟩

theorem Predicts.andThen {following : α → Run β} {whole : List TokenKind → β → Prop}
    (h : Predicts spells r source) (more : α → List TokenKind → β → Prop)
    (hFollowing : ∀ v rest, r source = .ok (v, rest) → Predicts (more v) (following v) rest)
    (hWhole : ∀ {ks ms v w}, spells ks v → more v ms w → whole (ks ++ ms) w)
    (hEnd : ∀ v, ∃ ms w, more v ms w) : Predicts whole (r.andThen following) source where
  takes hOk := by
    rw [Run.andThen] at hOk
    split at hOk
    · cases hOk
    · rename_i v rest hFirst
      obtain ⟨n, rfl, hSpells, hAlike⟩ := h.takes hFirst
      obtain ⟨m, rfl, hMore, hThen⟩ := (hFollowing v _ hFirst).takes hOk
      -- The first run looks at the token behind its `n`, the second at the one behind `n + m`, so
      -- rows that are alike up to there are alike for both.
      refine ⟨n + m, by rw [List.drop_drop], ?_, fun other hOther => ?_⟩
      · rw [List.take_add, ← List.map_drop]
        exact hWhole hSpells hMore
      · rw [Run.andThen, hAlike other (hOther.of_le (by omega))]
        dsimp only
        rw [hThen (other.drop n) (Alike.drop (by rwa [← Nat.add_assoc])), List.drop_drop]
  stops hError := by
    rw [Run.andThen] at hError
    split at hError
    · rename_i e hFirst
      obtain rfl := Except.error.inj hError
      obtain ⟨n, hOffset, ⟨later, v, hSpells⟩, hAlike⟩ := h.stops hFirst
      obtain ⟨ms, w, hMore⟩ := hEnd v
      refine ⟨n, hOffset, ⟨later ++ ms, w, ?_⟩, fun other hOther => ?_⟩
      · rw [← List.append_assoc]
        exact hWhole hSpells hMore
      · obtain ⟨g, hg⟩ := hAlike other hOther
        exact ⟨g, by rw [Run.andThen, hg]⟩
    · rename_i v rest hFirst
      obtain ⟨n, rfl, hSpells, hAlike⟩ := h.takes hFirst
      obtain ⟨m, hOffset, ⟨later, w, hMore⟩, hThen⟩ := (hFollowing v _ hFirst).stops hError
      refine ⟨n + m, by rw [hOffset, List.drop_drop], ⟨later, w, ?_⟩, fun other hOther => ?_⟩
      · rw [List.take_add, ← List.map_drop, List.append_assoc]
        exact hWhole hSpells hMore
      · obtain ⟨g, hg⟩ := hThen (other.drop n) (Alike.drop (by rwa [← Nat.add_assoc]))
        exact ⟨g, by rw [Run.andThen, hAlike other (hOther.of_le (by omega))]; exact hg⟩

theorem Predicts.map {f : α → β} {more : List TokenKind → β → Prop} (h : Predicts spells r source)
    (hMore : ∀ {ks v}, spells ks v → more ks (f v)) : Predicts more (r.map f) source :=
  h.andThen (fun v ks w => ks = [] ∧ w = f v) (fun _ rest _ => .give ⟨rfl, rfl⟩ rest)
    (by rintro ks _ v _ hSpells ⟨rfl, rfl⟩; simpa using hMore hSpells) fun _ => ⟨[], _, rfl, rfl⟩

end

def run {α : Type} (read : (source : List Token) → Except SourceFault (Front α source)) : Run α :=
  fun source => (read source).map fun r => (r.value, r.rest)

def chainRun (level : Level) (tighter : List Level) (left : Node) : Run Node :=
  fun source => (chain level tighter left source).map fun r => (r.value, r.rest)

theorem run_shorter {α : Type} {read : (source : List Token) → Except SourceFault (Front α source)}
    {source rest : List Token} {v : α} (h : run read source = .ok (v, rest)) :
    rest.length < source.length := by
  obtain ⟨r, -, hr⟩ := map_eq_ok h
  obtain ⟨-, rfl⟩ := Prod.mk.inj hr
  exact r.shorter

theorem andThen_run {α β : Type}
    {read : (source : List Token) → Except SourceFault (Front α source)} {following : α → Run β}
    (source : List Token) : (run read).andThen following source =
      match read source with
      | .error e => .error e
      | .ok r => following r.value r.rest := by
  rw [Run.andThen, run]
  cases read source <;> rfl

section

variable {level : Level} {tighter : List Level}

theorem run_binary_nil : run (binary []) = run unary := by
  funext source
  rw [run, binary]
  rfl

theorem run_binary_cons : run (binary (level :: tighter)) =
    (run (binary tighter)).andThen (chainRun level tighter) := by
  funext source
  rw [run, binary, andThen_run]
  cases binary tighter source with
  | error e => rfl
  | ok left =>
    dsimp only
    rw [chainRun]
    cases chain level tighter left.value left.rest <;> rfl

theorem chainRun_eq (left : Node) : chainRun level tighter left = .look fun k =>
    match k.bind level with
    | none => .give left
    | some op => .next ((run (binary tighter)).andThen fun right =>
        chainRun level tighter (.operator op [left, right])) := by
  funext source
  cases source with
  | nil =>
    rw [chainRun, chain]
    rfl
  | cons t rest =>
    rw [chainRun, chain, Run.look, List.head?_cons, Option.map_some, Option.bind_some]
    cases level t.kind with
    | none => rfl
    | some op =>
      dsimp only
      rw [Run.next, List.tail_cons, andThen_run]
      cases binary tighter rest with
      | error e => rfl
      | ok right =>
        dsimp only
        rw [chainRun]
        cases chain level tighter (.operator op [left, right.value]) right.rest <;> rfl

theorem run_unary : run unary = .look fun
    | some .minus => .next ((run unary).map (.operator .neg [·]))
    | some .plus => .next (run unary)
    | some .not => .next ((run unary).map (.operator .not [·]))
    | _ => run power := by
  funext source
  cases source with
  | nil =>
    rw [run, unary, Run.look, List.head?_nil, Option.map_none]
    dsimp only
    rw [run, power, primary]
    rfl
  | cons t rest =>
    obtain ⟨k, start, stop⟩ := t
    rw [run, unary, Run.look, List.head?_cons, Option.map_some]
    cases k
    case minus | not =>
      dsimp only
      rw [Run.next, List.tail_cons, Run.map, andThen_run]
      cases unary rest <;> rfl
    case plus =>
      dsimp only
      rw [Run.next, List.tail_cons, run]
      cases unary rest <;> rfl
    all_goals rfl

theorem run_power : run power = (run primary).andThen fun base => .look fun
    | some .caret => .next ((run unary).map (.operator .pow [base, ·]))
    | _ => .give base := by
  funext source
  rw [run, power, andThen_run]
  cases primary source with
  | error e => rfl
  | ok r =>
    obtain ⟨base, rest, hShort⟩ := r
    cases rest with
    | nil => rfl
    | cons t rest =>
      obtain ⟨k, start, stop⟩ := t
      dsimp only
      rw [Run.look, List.head?_cons, Option.map_some]
      cases k
      case caret =>
        dsimp only
        rw [Run.next, List.tail_cons, Run.map, andThen_run]
        cases unary rest <;> rfl
      all_goals rfl

theorem run_primary : run primary = .look fun
    | some (.number x) => .next (.give (.literal (.number x)))
    | some (.text s) => .next (.give (.literal (.text s)))
    | some (.ident name) => .next (.look fun
      | some .leftParen => .next ((run arguments).map (.call name))
      | _ => .give (named name))
    | some .leftParen => .next ((run (binary levels)).andThen fun n => .look fun
      | some .rightParen => .next (.give (.group n))
      | _ => .fail (.expected .rightParen))
    | _ => .fail .unexpectedToken := by
  funext source
  cases source with
  | nil =>
    rw [run, primary]
    rfl
  | cons t rest =>
    obtain ⟨k, start, stop⟩ := t
    rw [run, primary.eq_def, Run.look, List.head?_cons, Option.map_some]
    cases k
    case ident name =>
      dsimp only
      rw [Run.next, List.tail_cons]
      cases rest with
      | nil => rfl
      | cons u inner =>
        obtain ⟨k, start, stop⟩ := u
        rw [Run.look, List.head?_cons, Option.map_some]
        cases k
        case leftParen =>
          dsimp only
          rw [Run.next, List.tail_cons, Run.map, andThen_run]
          cases arguments inner <;> rfl
        all_goals rfl
    case leftParen =>
      dsimp only
      rw [Run.next, List.tail_cons, andThen_run]
      cases binary levels rest with
      | error e => rfl
      | ok r =>
        obtain ⟨n, rest, hShort⟩ := r
        cases rest with
        | nil => rfl
        | cons u behind =>
          obtain ⟨k, start, stop⟩ := u
          cases k <;> rfl
    all_goals rfl

theorem run_arguments : run arguments = .look fun
    | some .rightParen => .next (.give [])
    | _ => run operands := by
  funext source
  cases source with
  | nil =>
    rw [run, arguments]
    rfl
  | cons t rest =>
    obtain ⟨k, start, stop⟩ := t
    rw [run, arguments]
    cases k <;> rfl

theorem run_operands : run operands = (run (binary levels)).andThen fun first => .look fun
    | some .comma => .next ((run operands).map (first :: ·))
    | some .rightParen => .next (.give [first])
    | _ => .fail (.expected .rightParen) := by
  funext source
  rw [run, operands, andThen_run]
  cases binary levels source with
  | error e => rfl
  | ok r =>
    obtain ⟨first, rest, hShort⟩ := r
    cases rest with
    | nil => rfl
    | cons t rest =>
      obtain ⟨k, start, stop⟩ := t
      dsimp only
      rw [Run.look, List.head?_cons, Option.map_some]
      cases k
      case comma =>
        dsimp only
        rw [Run.next, List.tail_cons, Run.map, andThen_run]
        cases operands rest <;> rfl
      all_goals rfl

def completeRun : Run Node := (run (binary levels)).andThen fun n => .look fun
  | some .eof => .give n
  | _ => .fail (.expected .eof)

theorem complete_eq (source : List Token) :
    complete source = (completeRun source).map Prod.fst := by
  rw [complete, completeRun, andThen_run]
  cases binary levels source with
  | error e => rfl
  | ok r =>
    obtain ⟨n, rest, hShort⟩ := r
    cases rest with
    | nil => rfl
    | cons t rest =>
      obtain ⟨k, start, stop⟩ := t
      cases k <;> rfl

end

end Reading

end Blockwork
