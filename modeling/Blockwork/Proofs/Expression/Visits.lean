import Mathlib.Logic.Relation
import Blockwork.Proofs.Expression.Cursor

/-! # The visits of a walk

A walk with a cursor comes to nodes again and again: to the operands of an operator before the
operator takes its turn, and after it. Each visit is known by the node, its place and the cursor
that it is offered. Where the step at the cursor is that of no node in a tree, the walk over the
tree changes nothing but groups, and no visit on it moves the cursor.
-/

set_option autoImplicit false

namespace Blockwork

/-- A node that a walk comes to, where it stands, and the cursor that it is offered. -/
structure Visit where
  cursor : Cursor
  slot : Option Nat
  parent : Option String
  node : Node

namespace Visit

/-- The visits to the operands of a node with the given text, from slot `k` on. Each operand is
offered the cursor that the ones before it left. -/
inductive Operand (steps : List AddressStep) (text : String) :
    Nat → Cursor → List Node → Visit → Prop where
  | here {k : Nat} {c : Cursor} {n : Node} {ns : List Node} :
      Operand steps text k c (n :: ns) ⟨c, some k, some text, n⟩
  | later {k : Nat} {c next : Cursor} {n first : Node} {ns : List Node} {v : Visit}
      (hFirst : n.visit steps (some k) (some text) c = some (first, next))
      (h : Operand steps text (k + 1) next ns v) : Operand steps text k c (n :: ns) v

/-- The visits that a visit calls for. A node behind the last step calls for none, and neither does
one that is replaced: the walk goes on below a node only if it is passed with some cursor. The
second pass over the operands of an operator is one over what the first pass left of them. -/
inductive Next (steps : List AddressStep) : Visit → Visit → Prop where
  | group {c : Cursor} {slot : Option Nat} {parent : Option String} {n : Node}
      (hMore : ¬ c.Done steps) : Next steps ⟨c, slot, parent, .group n⟩ ⟨c, slot, parent, n⟩
  | before {c : Cursor} {slot : Option Nat} {parent : Option String} {op : Operator}
      {ns : List Node} {v : Visit} (hMore : ¬ c.Done steps)
      (h : Operand steps (Node.operator op ns).canonical 0 c ns v) :
      Next steps ⟨c, slot, parent, .operator op ns⟩ v
  | after {c left next : Cursor} {slot : Option Nat} {parent : Option String} {op : Operator}
      {ns operands : List Node} {v : Visit} (hMore : ¬ c.Done steps)
      (hBefore : Node.visitAll steps (Node.operator op ns).canonical 0 c ns = some (operands, left))
      (hLeft : ¬ left.Done steps)
      (hPass : left.offer steps (Node.operator op operands).canonical slot parent = .passed next)
      (h : Operand steps (Node.operator op operands).canonical 0 next operands v) :
      Next steps ⟨c, slot, parent, .operator op ns⟩ v
  | call {c next : Cursor} {slot : Option Nat} {parent : Option String} {name : String}
      {ns : List Node} {v : Visit} (hMore : ¬ c.Done steps)
      (hPass : c.offer steps (Node.call name ns).canonical slot parent = .passed next)
      (h : Operand steps (Node.call name ns).canonical 0 next ns v) :
      Next steps ⟨c, slot, parent, .call name ns⟩ v

def LeadsTo (steps : List AddressStep) : Visit → Visit → Prop :=
  Relation.ReflTransGen (Next steps)

def Fits (steps : List AddressStep) (v : Visit) : Prop :=
  steps[v.cursor.consumed]? = some ⟨v.node.canonical, v.slot, v.parent⟩

def Astray (steps : List AddressStep) (v : Visit) : Prop :=
  ∃ step, steps[v.cursor.consumed]? = some step ∧
    ∀ path, step ∉ v.node.ungroup.steps v.slot v.parent path

end Visit

section

variable {steps later : List AddressStep} {step : AddressStep} {c next : Cursor} {r : Node}

namespace Cursor

theorem not_done (h : steps[c.consumed]? = some step) : ¬ c.Done steps :=
  Nat.not_le.mpr (List.getElem?_eq_some_iff.mp h).1

theorem exists_ahead (h : steps[c.consumed]? = some step) :
    ∃ later, steps.drop c.consumed = step :: later := by
  obtain ⟨hBound, rfl⟩ := List.getElem?_eq_some_iff.mp h
  exact ⟨_, List.drop_eq_getElem_cons hBound⟩

theorem Ready.eq_of_drop (hNext : next.Ready steps r) (h : c.Ready steps r) (hMore : ¬ c.Done steps)
    (hAhead : steps.drop next.consumed = steps.drop c.consumed) : next = c := by
  have hLength := congrArg List.length hAhead
  rw [List.length_drop, List.length_drop] at hLength
  have hBound : c.consumed < steps.length := Nat.lt_of_not_le hMore
  have hConsumed : next.consumed = c.consumed := by
    have := hNext.inside
    omega
  have hSame : next.replacement = c.replacement := by
    rw [h.replacement hMore, hNext.replacement]
    rwa [Done, hConsumed]
  cases next
  cases c
  congr

theorem offer_of_misses (h : steps[c.consumed]? = some step) {text : String} {slot : Option Nat}
    {parent : Option String} (hMisses : step.Misses text slot parent) :
    c.offer steps text slot parent = .passed c := by
  rw [offer, h]
  exact if_neg hMisses

end Cursor

namespace Node

variable {ns : List Node} {text : String} {k : Nat}

/-- Where the step at the cursor is that of no node, a walk drops groups and does nothing else. -/
theorem visit_absent (hReady : c.Ready steps r) (hStep : steps[c.consumed]? = some step) {n : Node}
    {slot : Option Nat} {parent : Option String}
    (hAbsent : ∀ path, step ∉ n.ungroup.steps slot parent path) :
    visit steps slot parent c n = some (n.ungroup, c) := by
  obtain ⟨later, hLater⟩ := Cursor.exists_ahead hStep
  obtain ⟨new, next, hVisit, hMeets⟩ := (agrees steps r n).1.visit hReady slot parent
  obtain ⟨m, hSplice, -⟩ := splice_absent r later n slot parent hAbsent
  have hAhead := hMeets.ahead
  rw [hLater, hSplice, ← hLater] at hAhead
  obtain rfl := hMeets.ready.eq_of_drop hReady (Cursor.not_done hStep) hAhead
  rw [hVisit, hMeets.kept (Cursor.not_done hStep)]

theorem visitAll_absent (hReady : c.Ready steps r) (hStep : steps[c.consumed]? = some step)
    (hAbsent : ∀ (j : Nat) (m : Node), ns[j]? = some m → ∀ path,
      step ∉ m.ungroup.steps (some (k + j)) (some text) path) :
    visitAll steps text k c ns = some (ungroupAll ns, c) := by
  obtain ⟨later, hLater⟩ := Cursor.exists_ahead hStep
  obtain ⟨news, next, hVisit, hMeets⟩ := visitAll_meets (agrees_operands steps r ns).1 hReady text k
  obtain ⟨ms, hSplice, -⟩ := spliceAll_absent r later ns text k hAbsent
  have hAhead := hMeets.ahead
  rw [hLater, hSplice, ← hLater] at hAhead
  obtain rfl := hMeets.ready.eq_of_drop hReady (Cursor.not_done hStep) hAhead
  rw [hVisit, hMeets.kept (Cursor.not_done hStep)]

/-- What is absent from operands is absent from what a pass in vain leaves of them. -/
theorem absent_ungroupAll (hAbsent : ∀ (j : Nat) (m : Node), ns[j]? = some m → ∀ path,
      step ∉ m.ungroup.steps (some (k + j)) (some text) path) (j : Nat) (m : Node)
    (hm : (ungroupAll ns)[j]? = some m) (path : List Nat) :
    step ∉ m.ungroup.steps (some (k + j)) (some text) path := by
  rw [ungroupAll_eq_map, List.getElem?_map] at hm
  obtain ⟨operand, hOperand, rfl⟩ := Option.map_eq_some_iff.mp hm
  rw [ungroup_ungroup]
  exact hAbsent j operand hOperand path

end Node

namespace Visit

variable {v w : Visit}

theorem Astray.not_fits (h : v.Astray steps) : ¬ v.Fits steps := by
  obtain ⟨step, hStep, hAbsent⟩ := h
  intro hFits
  obtain rfl := Option.some.inj (hStep.symm.trans hFits)
  apply hAbsent []
  rw [Node.steps, Node.canonical_ungroup]
  exact List.mem_singleton_self _

theorem Operand.astray {text : String} {k : Nat} {ns : List Node}
    (h : Operand steps text k c ns v) (hReady : c.Ready steps r)
    (hStep : steps[c.consumed]? = some step)
    (hAbsent : ∀ (j : Nat) (m : Node), ns[j]? = some m → ∀ path,
      step ∉ m.ungroup.steps (some (k + j)) (some text) path) :
    v.cursor = c ∧ v.Astray steps := by
  induction h with
  | here => exact ⟨rfl, step, hStep, hAbsent 0 _ rfl⟩
  | later hFirst _ ih =>
    have hSame := Node.visit_absent hReady hStep (hAbsent 0 _ rfl)
    obtain ⟨-, rfl⟩ := Prod.mk.inj (Option.some.inj (hFirst.symm.trans hSame))
    refine ih hReady hStep fun j m hm => ?_
    have hLater := hAbsent (j + 1) m hm
    rwa [← Nat.add_assoc, Nat.add_right_comm] at hLater

/-- After a first pass in vain an operator takes its turn with the text and the cursor that it had,
and the second pass is one over its operands without their groups. -/
theorem after_idle {left : Cursor} {op : Operator} {ns operands : List Node} {slot : Option Nat}
    {parent : Option String} (hReady : c.Ready steps r) (hStep : steps[c.consumed]? = some step)
    (hAbsent : ∀ (j : Nat) (m : Node), ns[j]? = some m → ∀ path,
      step ∉ m.ungroup.steps (some (0 + j)) (some (Node.operator op ns).canonical) path)
    (hBefore : Node.visitAll steps (Node.operator op ns).canonical 0 c ns = some (operands, left))
    (hPass : left.offer steps (Node.operator op operands).canonical slot parent = .passed next)
    (h : Operand steps (Node.operator op operands).canonical 0 next operands v) :
    c.offer steps (Node.operator op ns).canonical slot parent = .passed next ∧
      Operand steps (Node.operator op ns).canonical 0 next (Node.ungroupAll ns) v := by
  have hAll := Node.visitAll_absent hReady hStep hAbsent
  obtain ⟨rfl, rfl⟩ := Prod.mk.inj (Option.some.inj (hBefore.symm.trans hAll))
  have hText :
      (Node.operator op (Node.ungroupAll ns)).canonical = (Node.operator op ns).canonical :=
    Node.canonical_ungroup (.operator op ns)
  rw [hText] at hPass h
  exact ⟨hPass, h⟩

theorem Next.astray (h : Next steps v w) (hReady : v.cursor.Ready steps r) (hv : v.Astray steps) :
    w.cursor = v.cursor ∧ w.Astray steps := by
  obtain ⟨step, hStep, hAbsent⟩ := hv
  have hMisses := Node.misses_of_notMem_steps hAbsent
  have hOperands (j : Nat) (m : Node) (hm : v.node.bare.operands[j]? = some m) :
      ∀ path, step ∉ m.ungroup.steps (some (0 + j)) (some v.node.canonical) path := by
    rw [Nat.zero_add]
    exact Node.notMem_steps_operand hAbsent hm
  cases h with
  | group => exact ⟨rfl, step, hStep, hAbsent⟩
  | before _ h => exact h.astray hReady hStep hOperands
  | after _ hBefore _ hPass h =>
    obtain ⟨hPass, h⟩ := after_idle hReady hStep hOperands hBefore hPass h
    obtain rfl := Cursor.Offer.passed.inj (hPass.symm.trans (Cursor.offer_of_misses hStep hMisses))
    exact h.astray hReady hStep (Node.absent_ungroupAll hOperands)
  | call _ hPass h =>
    obtain rfl := Cursor.Offer.passed.inj (hPass.symm.trans (Cursor.offer_of_misses hStep hMisses))
    exact h.astray hReady hStep hOperands

/-- Once astray, a walk stays so and does not move the cursor. -/
theorem LeadsTo.astray (h : LeadsTo steps v w) (hReady : v.cursor.Ready steps r)
    (hv : v.Astray steps) : w.cursor = v.cursor ∧ w.Astray steps := by
  induction h with
  | refl => exact ⟨rfl, hv⟩
  | tail _ hNext ih =>
    obtain ⟨hCursor, hAstray⟩ := ih
    obtain ⟨hSame, hLast⟩ := hNext.astray (hCursor ▸ hReady) hAstray
    exact ⟨hSame.trans hCursor, hLast⟩

end Visit

end

end Blockwork
