import Blockwork.Proofs.Expression.Splicing

/-! # The walk of a cursor is splicing

An operator that is not finished after the first pass over its operands is made anew of what came
back of them. Short of the last step that is the operand without its groups, so the text that is
compared and the operands of the second pass are those that the operator had, up to groups. By that
the walk of a cursor agrees with splicing: it looks up no step that is not there, and it uses the
replacement once.
-/

set_option autoImplicit false

namespace Blockwork

variable {steps : List AddressStep} {r : Node} {c : Cursor}

namespace Cursor

variable (steps) in
/-- The cursor is inside the address, and has the replacement unless it is at the end. -/
structure Ready (r : Node) (c : Cursor) : Prop where
  inside : c.consumed ≤ steps.length
  replacement : ¬ c.Done steps → c.replacement = some r

theorem ready_start (steps : List AddressStep) (r : Node) : Ready steps r ⟨0, some r⟩ :=
  ⟨Nat.zero_le _, fun _ => rfl⟩

theorem isEmpty_drop_iff : (steps.drop c.consumed).isEmpty = true ↔ c.Done steps := by
  rw [List.isEmpty_iff, List.drop_eq_nil_iff, Done]

/-- A node that takes the last step is replaced; any other is passed with steps ahead. -/
theorem Ready.offer_cases (h : c.Ready steps r) (hMore : ¬ c.Done steps) (text : String)
    (slot : Option Nat) (parent : Option String) :
    (c.offer steps text slot parent = .replaced r ⟨steps.length, none⟩ ∧
      AddressStep.consume text slot parent (steps.drop c.consumed) = []) ∨
    ∃ next, c.offer steps text slot parent = .passed next ∧ next.Ready steps r ∧
      ¬ next.Done steps ∧
      AddressStep.consume text slot parent (steps.drop c.consumed) = steps.drop next.consumed := by
  have hBound : c.consumed < steps.length := Nat.lt_of_not_le hMore
  have hAhead := List.drop_eq_getElem_cons hBound
  rw [hAhead, AddressStep.consume, offer, List.getElem?_eq_getElem hBound, ← hAhead,
    h.replacement hMore]
  dsimp only
  split
  · by_cases hDone : Done steps ⟨c.consumed + 1, some r⟩
    · have hEnd : c.consumed + 1 = steps.length := Nat.le_antisymm hBound hDone
      refine .inl ⟨?_, List.drop_eq_nil_of_le hDone⟩
      rw [if_pos hDone, hEnd]
    · exact .inr ⟨⟨c.consumed + 1, some r⟩, if_neg hDone, ⟨hBound, fun _ => rfl⟩, hDone, rfl⟩
  · exact .inr ⟨c, rfl, h, hMore, rfl⟩

end Cursor

namespace Node

/-- What a walk over a node leaves and what splicing in it leaves say the same, with the same steps
ahead. A node that leaves steps has only lost its groups. -/
structure Meets (steps : List AddressStep) (r n new : Node) (next : Cursor)
    (spliced : Node × List AddressStep) : Prop where
  text : new.canonical = spliced.1.canonical
  ahead : steps.drop next.consumed = spliced.2
  ready : next.Ready steps r
  kept : ¬ next.Done steps → new = n.ungroup

structure MeetsAll (steps : List AddressStep) (r : Node) (ns news : List Node) (next : Cursor)
    (spliced : List Node × List AddressStep) : Prop where
  texts : canonicals news = canonicals spliced.1
  ahead : steps.drop next.consumed = spliced.2
  ready : next.Ready steps r
  kept : ¬ next.Done steps → news = ungroupAll ns

/-- Walking over `m` comes to what splicing in `n` comes to. -/
structure Agrees (steps : List AddressStep) (r n m : Node) : Prop where
  text : m.canonical = n.canonical
  walk : ∀ (slot : Option Nat) (parent : Option String) (c : Cursor), c.Ready steps r →
    ¬ c.Done steps → ∃ new next, visit steps slot parent c m = some (new, next) ∧
      Meets steps r n new next (splice r (steps.drop c.consumed) slot parent n)

section

variable {n m : Node} {ns ms : List Node} {slot : Option Nat} {parent : Option String}

theorem visit_of_done (h : c.Done steps) (slot : Option Nat) (parent : Option String) (n : Node) :
    visit steps slot parent c n = some (n, c) := by
  rw [visit_eq, if_pos h]

theorem Agrees.visit (h : Agrees steps r n m) (hReady : c.Ready steps r) (slot : Option Nat)
    (parent : Option String) : ∃ new next, visit steps slot parent c m = some (new, next) ∧
      Meets steps r n new next (splice r (steps.drop c.consumed) slot parent n) := by
  by_cases hDone : c.Done steps
  · have hNone := List.drop_eq_nil_of_le hDone
    rw [hNone, splice_done]
    exact ⟨m, c, visit_of_done hDone slot parent m, h.text, hNone, hReady,
      fun hMore => absurd hDone hMore⟩
  · exact h.walk slot parent c hReady hDone

theorem canonicals_of_agrees (h : List.Forall₂ (Agrees steps r) ns ms) :
    canonicals ms = canonicals ns := by
  induction h with
  | nil => rfl
  | cons hFirst _ ih => rw [canonicals, canonicals, hFirst.text, ih]

theorem visitAll_meets (h : List.Forall₂ (Agrees steps r) ns ms) (hReady : c.Ready steps r)
    (text : String) (k : Nat) : ∃ news next, visitAll steps text k c ms = some (news, next) ∧
      MeetsAll steps r ns news next (spliceAll r (steps.drop c.consumed) text k ns) := by
  induction h generalizing c k with
  | nil =>
    rw [visitAll_eq, spliceAll]
    exact ⟨[], c, rfl, rfl, rfl, hReady, fun _ => rfl⟩
  | @cons n m ns ms hFirst _ ih =>
    obtain ⟨new, left, hVisit, hNew⟩ := hFirst.visit hReady (some k) (some text)
    obtain ⟨news, next, hRest, hNews⟩ := ih hNew.ready (k + 1)
    rw [hNew.ahead] at hNews
    rw [visitAll_eq, spliceAll]
    dsimp only
    rw [hVisit]
    refine ⟨new :: news, next, by simp only [Option.bind_eq_bind, Option.bind_some, hRest], ?_⟩
    refine ⟨?_, hNews.ahead, hNews.ready, fun hMore => ?_⟩
    · rw [canonicals, canonicals, hNew.text, hNews.texts]
    · have hLeft : ¬ left.Done steps := by
        intro hDone
        have hNone := hNew.ahead
        rw [List.drop_eq_nil_of_le hDone] at hNone
        have hEnd := hNews.ahead
        rw [← hNone, spliceAll_done] at hEnd
        exact hMore (List.drop_eq_nil_iff.mp hEnd)
      rw [ungroupAll, hNew.kept hLeft, hNews.kept hMore]

theorem turn_meets {next : List AddressStep → Node × List AddressStep} (h : c.Ready steps r)
    (hMore : ¬ c.Done steps) (hText : m.canonical = n.canonical)
    (hPass : ∀ d : Cursor, d.Ready steps r → ∃ new last,
      visitOperands steps d m = some (new, last) ∧
        Meets steps r n new last (next (steps.drop d.consumed))) :
    ∃ new last, turn steps slot parent c m = some (new, last) ∧ Meets steps r n new last
      (match AddressStep.consume n.canonical slot parent (steps.drop c.consumed) with
      | [] => (r, [])
      | later => next later) := by
  rw [turn_eq, hText]
  rcases h.offer_cases hMore n.canonical slot parent with
    ⟨hOffer, hNone⟩ | ⟨d, hOffer, hReady, hAhead, hLater⟩
  · rw [hOffer, hNone]
    exact ⟨r, ⟨steps.length, none⟩, rfl, rfl, List.drop_length, ⟨le_rfl, fun h => absurd le_rfl h⟩,
      fun h => absurd le_rfl h⟩
  · rw [hOffer, hLater]
    dsimp only
    split
    · rename_i hNone
      exact absurd (List.drop_eq_nil_iff.mp hNone) hAhead
    · exact hPass d hReady

structure Composes (steps : List AddressStep) (make : List Node → Node) : Prop where
  text : ∀ {ns ms}, canonicals ns = canonicals ms → (make ns).canonical = (make ms).canonical
  ungroup : ∀ ns, (make ns).ungroup = make (ungroupAll ns)
  walk : ∀ ns c, visitOperands steps c (make ns) =
    (visitAll steps (make ns).canonical 0 c ns).map fun (news, last) => (make news, last)

theorem composes_operator (op : Operator) : Composes steps (Node.operator op) where
  text := canonical_operator_congr
  ungroup _ := rfl
  walk ns c := by
    rw [visitOperands_eq, Option.map_eq_bind]
    rfl

theorem composes_call (name : String) : Composes steps (Node.call name) where
  text := canonical_call_congr
  ungroup _ := rfl
  walk ns c := by
    rw [visitOperands_eq, Option.map_eq_bind]
    rfl

theorem Composes.meets {make : List Node → Node} (hMake : Composes steps make) {news : List Node}
    {next : Cursor} {spliced : List Node × List AddressStep}
    (h : MeetsAll steps r ns news next spliced) :
    Meets steps r (make ns) (make news) next (make spliced.1, spliced.2) where
  text := hMake.text h.texts
  ahead := h.ahead
  ready := h.ready
  kept hMore := by rw [h.kept hMore, hMake.ungroup]

theorem Composes.visitOperands_meets {make : List Node → Node} (hMake : Composes steps make)
    (h : List.Forall₂ (Agrees steps r) ns ms) (hReady : c.Ready steps r) : ∃ new last,
      visitOperands steps c (make ms) = some (new, last) ∧
        Meets steps r (make ns) new last
          (let (operands, further) :=
            spliceAll r (steps.drop c.consumed) (make ns).canonical 0 ns
          (make operands, further)) := by
  obtain ⟨news, last, hAll, hMeets⟩ := visitAll_meets h hReady (make ns).canonical 0
  rw [hMake.walk, hMake.text (canonicals_of_agrees h), hAll]
  exact ⟨make news, last, rfl, hMake.meets hMeets⟩

theorem agrees_symbol (name : String) : Agrees steps r (.symbol name) (.symbol name) := by
  refine ⟨rfl, fun slot parent c hReady hMore => ?_⟩
  rw [visit_eq, if_neg hMore, splice, if_neg (mt Cursor.isEmpty_drop_iff.mp hMore)]
  refine turn_meets hReady hMore rfl fun d hd => ?_
  rw [visitOperands_eq]
  exact ⟨.symbol name, d, rfl, rfl, rfl, hd, fun _ => rfl⟩

theorem agrees_literal (v : Literal) : Agrees steps r (.literal v) (.literal v) := by
  refine ⟨rfl, fun slot parent c hReady hMore => ?_⟩
  rw [visit_eq, if_neg hMore, splice, if_neg (mt Cursor.isEmpty_drop_iff.mp hMore)]
  refine turn_meets hReady hMore rfl fun d hd => ?_
  rw [visitOperands_eq]
  exact ⟨.literal v, d, rfl, rfl, rfl, hd, fun _ => rfl⟩

theorem Agrees.group (h : Agrees steps r n m) : Agrees steps r (.group n) (.group m) := by
  refine ⟨h.text, fun slot parent c hReady hMore => ?_⟩
  obtain ⟨new, next, hVisit, hMeets⟩ := h.walk slot parent c hReady hMore
  rw [visit_eq, if_neg hMore, splice, if_neg (mt Cursor.isEmpty_drop_iff.mp hMore)]
  exact ⟨new, next, hVisit, hMeets.text, hMeets.ahead, hMeets.ready, hMeets.kept⟩

theorem Agrees.of_group (h : Agrees steps r n m) : Agrees steps r (.group n) m := by
  refine ⟨h.text, fun slot parent c hReady hMore => ?_⟩
  obtain ⟨new, next, hVisit, hMeets⟩ := h.walk slot parent c hReady hMore
  rw [splice, if_neg (mt Cursor.isEmpty_drop_iff.mp hMore)]
  exact ⟨new, next, hVisit, hMeets.text, hMeets.ahead, hMeets.ready, hMeets.kept⟩

theorem agrees_call (name : String) (h : List.Forall₂ (Agrees steps r) ns ms) :
    Agrees steps r (.call name ns) (.call name ms) := by
  have hText : (Node.call name ms).canonical = (Node.call name ns).canonical :=
    canonical_call_congr (canonicals_of_agrees h)
  refine ⟨hText, fun slot parent c hReady hMore => ?_⟩
  rw [visit_eq, if_neg hMore, splice, if_neg (mt Cursor.isEmpty_drop_iff.mp hMore)]
  exact turn_meets hReady hMore hText fun d hd => (composes_call name).visitOperands_meets h hd

/-- The first pass may meet groups; the second one meets what it left of the operands. -/
theorem agrees_operator (op : Operator) (h : List.Forall₂ (Agrees steps r) ns ms)
    (hAgain : List.Forall₂ (Agrees steps r) ns (ungroupAll ns)) :
    Agrees steps r (.operator op ns) (.operator op ms) := by
  have hText : (Node.operator op ms).canonical = (Node.operator op ns).canonical :=
    canonical_operator_congr (canonicals_of_agrees h)
  refine ⟨hText, fun slot parent c hReady hMore => ?_⟩
  obtain ⟨news, left, hAll, hMeets⟩ :=
    visitAll_meets h hReady (Node.operator op ns).canonical 0
  rw [visit_eq, if_neg hMore, splice, if_neg (mt Cursor.isEmpty_drop_iff.mp hMore)]
  simp only [hText, hAll, Option.bind_eq_bind, Option.bind_some]
  cases hSplice : spliceAll r (steps.drop c.consumed) (Node.operator op ns).canonical 0 ns with
  | mk operands ahead =>
    rw [hSplice] at hMeets
    obtain rfl : steps.drop left.consumed = ahead := hMeets.ahead
    by_cases hDone : left.Done steps
    · rw [if_pos hDone, List.drop_eq_nil_of_le hDone]
      exact ⟨.operator op news, left, rfl, canonical_operator_congr hMeets.texts,
        List.drop_eq_nil_of_le hDone, hMeets.ready, fun hMore => absurd hDone hMore⟩
    · rw [if_neg hDone, hMeets.kept hDone]
      split
      · rename_i hNone
        exact absurd (List.drop_eq_nil_iff.mp (Prod.mk.inj hNone).2) hDone
      · rename_i hSome
        obtain ⟨-, rfl⟩ := Prod.mk.inj hSome
        have hSame : (Node.operator op (ungroupAll ns)).canonical =
            (Node.operator op ns).canonical :=
          canonical_operator_congr (canonicals_ungroupAll ns)
        exact turn_meets hMeets.ready hDone hSame fun d hd =>
          (composes_operator op).visitOperands_meets hAgain hd

mutual

theorem agrees (steps : List AddressStep) (r : Node) : (n : Node) →
    Agrees steps r n n ∧ Agrees steps r n n.ungroup
  | .symbol name => ⟨agrees_symbol name, agrees_symbol name⟩
  | .literal v => ⟨agrees_literal v, agrees_literal v⟩
  | .group inner =>
    let ⟨hSame, hBare⟩ := agrees steps r inner
    ⟨hSame.group, hBare.of_group⟩
  | .call name ns =>
    let ⟨hSame, hBare⟩ := agrees_operands steps r ns
    ⟨agrees_call name hSame, agrees_call name hBare⟩
  | .operator op ns =>
    let ⟨hSame, hBare⟩ := agrees_operands steps r ns
    ⟨agrees_operator op hSame hBare, agrees_operator op hBare hBare⟩

theorem agrees_operands (steps : List AddressStep) (r : Node) : (ns : List Node) →
    List.Forall₂ (Agrees steps r) ns ns ∧ List.Forall₂ (Agrees steps r) ns (ungroupAll ns)
  | [] => ⟨.nil, .nil⟩
  | n :: ns =>
    let ⟨hFirst, hFirstBare⟩ := agrees steps r n
    let ⟨hRest, hRestBare⟩ := agrees_operands steps r ns
    ⟨.cons hFirst hRest, .cons hFirstBare hRestBare⟩

end

end

end Node

end Blockwork
