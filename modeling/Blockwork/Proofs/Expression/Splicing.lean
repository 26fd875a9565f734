import Blockwork.Expression.Splice
import Blockwork.Proofs.Expression.Path
import Blockwork.Proofs.Expression.Readable

/-! # Splicing replaces one node

Splicing is the walk of a cursor without the cursor: it goes through a tree once for each pass, with
the steps that are still to come in place of a number, and by recursion on the tree alone.

A step can only be consumed by a node with its text under a parent with its parent text. Texts
grow from operands to what they are operands of, so neither the operands of a node nor those of its
siblings take the steps of its chain.
-/

set_option autoImplicit false

namespace Blockwork

def AddressStep.consume (text : String) (slot : Option Nat) (parent : Option String) :
    List AddressStep → List AddressStep
  | [] => []
  | step :: later =>
    if step.text = text ∧ step.slot = slot ∧ step.parent = parent then later else step :: later

namespace Node

mutual

/-- The node after a walk, and the steps that it left. Without steps nothing is touched. An operator
whose operands left steps is walked over as it was, with the operands that it had. -/
def splice (replacement : Node) (steps : List AddressStep) (slot : Option Nat)
    (parent : Option String) : Node → Node × List AddressStep
  | .group inner =>
    if steps.isEmpty then (.group inner, [])
    else splice replacement steps slot parent inner
  | .operator op ns =>
    if steps.isEmpty then (.operator op ns, [])
    else
      let text := (Node.operator op ns).canonical
      match spliceAll replacement steps text 0 ns with
      | (operands, []) => (.operator op operands, [])
      | (_, left) =>
        match AddressStep.consume text slot parent left with
        | [] => (replacement, [])
        | next =>
          let (operands, further) := spliceAll replacement next text 0 ns
          (.operator op operands, further)
  | .call name ns =>
    if steps.isEmpty then (.call name ns, [])
    else
      let text := (Node.call name ns).canonical
      match AddressStep.consume text slot parent steps with
      | [] => (replacement, [])
      | next =>
        let (operands, further) := spliceAll replacement next text 0 ns
        (.call name operands, further)
  | .symbol name =>
    if steps.isEmpty then (.symbol name, [])
    else match AddressStep.consume name slot parent steps with
      | [] => (replacement, [])
      | next => (.symbol name, next)
  | .literal v =>
    if steps.isEmpty then (.literal v, [])
    else match AddressStep.consume v.canonical slot parent steps with
      | [] => (replacement, [])
      | next => (.literal v, next)

def spliceAll (replacement : Node) (steps : List AddressStep) (text : String) (k : Nat) :
    List Node → List Node × List AddressStep
  | [] => ([], steps)
  | n :: ns =>
    let (first, left) := splice replacement steps (some k) (some text) n
    let (rest, further) := spliceAll replacement left text (k + 1) ns
    (first :: rest, further)

end

end Node

/-- No node whose text has at most `bound` characters is a parent or a place for the step. -/
def AddressStep.Foreign (step : AddressStep) (bound : Nat) : Prop :=
  bound < step.text.length ∨ ∃ parent, step.parent = some parent ∧ bound < parent.length

def AddressStep.Misses (step : AddressStep) (text : String) (slot : Option Nat)
    (parent : Option String) : Prop :=
  ¬(step.text = text ∧ step.slot = slot ∧ step.parent = parent)

section

variable {step : AddressStep}

theorem AddressStep.Foreign.mono {low high : Nat} (h : step.Foreign high) (hle : low ≤ high) :
    step.Foreign low := by
  rcases h with h | ⟨parent, hParent, h⟩
  · exact .inl (by omega)
  · exact .inr ⟨parent, hParent, by omega⟩

theorem AddressStep.Misses.ne {text : String} {slot : Option Nat} {parent : Option String}
    (h : step.Misses text slot parent) : step ≠ ⟨text, slot, parent⟩ := by
  rintro rfl
  exact h ⟨rfl, rfl, rfl⟩

theorem AddressStep.consume_of_misses {text : String} {slot : Option Nat} {parent : Option String}
    (h : step.Misses text slot parent) (later : List AddressStep) :
    consume text slot parent (step :: later) = step :: later := by
  rw [consume, if_neg h]

theorem AddressStep.consume_self (text : String) (slot : Option Nat) (parent : Option String)
    (later : List AddressStep) :
    consume text slot parent (⟨text, slot, parent⟩ :: later) = later := by
  rw [consume, if_pos ⟨rfl, rfl, rfl⟩]

theorem AddressStep.Foreign.notMem_steps {n : Node} (h : step.Foreign n.canonical.length)
    {slot : Option Nat} {parent : Option String} (hMisses : step.Misses n.canonical slot parent)
    (path : List Nat) : step ∉ n.steps slot parent path := by
  have hOwn : step ≠ ⟨n.canonical, slot, parent⟩ := hMisses.ne
  induction path generalizing n slot parent with
  | nil => simpa [Node.steps] using hOwn
  | cons k path ih =>
    cases hm : n.operands[k]? with
    | none => simpa [Node.steps, hm] using hOwn
    | some m =>
      have hShort := Node.length_canonical_operand (List.mem_of_getElem? hm)
      have hOperand : step.Misses m.canonical (some k) (some n.canonical) := by
        rintro ⟨hText, -, hParent⟩
        rcases h with h | ⟨parent, hSome, h⟩
        · rw [hText] at h
          omega
        · rw [hSome, Option.some.injEq] at hParent
          rw [hParent] at h
          omega
      rw [Node.steps_cons hm, List.mem_cons, not_or]
      exact ⟨hOwn, ih (h.mono (Nat.le_of_lt hShort)) hOperand hOperand.ne⟩

end

namespace Node

variable {step : AddressStep} (r : Node) (later : List AddressStep)

/-- A step that is on no chain of a node is neither the node's own nor on a chain of an operand. -/
theorem misses_of_notMem_steps {n : Node} {slot : Option Nat} {parent : Option String}
    (h : ∀ path, step ∉ n.ungroup.steps slot parent path) :
    step.Misses n.canonical slot parent := by
  rintro ⟨hText, hSlot, hParent⟩
  apply h []
  rw [steps, canonical_ungroup, List.mem_singleton, ← hText, ← hSlot, ← hParent]

theorem notMem_steps_operand {n m : Node} {slot : Option Nat} {parent : Option String} {k : Nat}
    (h : ∀ path, step ∉ n.ungroup.steps slot parent path) (hm : n.bare.operands[k]? = some m)
    (path : List Nat) : step ∉ m.ungroup.steps (some k) (some n.canonical) path := by
  have hWhole := h (k :: path)
  rw [steps_cons (operand_ungroup hm), canonical_ungroup] at hWhole
  exact fun hMem => hWhole (List.mem_cons_of_mem _ hMem)

theorem own_notMem_operand {n m : Node} (hm : m ∈ n.operands) (slot place : Option Nat)
    (parent above : Option String) (path : List Nat) :
    ⟨n.canonical, slot, parent⟩ ∉ m.ungroup.steps place above path := by
  have hShort : m.ungroup.canonical.length < n.canonical.length := by
    rw [canonical_ungroup]
    exact length_canonical_operand hm
  apply AddressStep.Foreign.notMem_steps (.inl hShort)
  rintro ⟨hText, -, -⟩
  have hText : n.canonical = m.ungroup.canonical := hText
  rw [← hText] at hShort
  exact Nat.lt_irrefl _ hShort

/-- The step of an operand names nothing in the tree of a sibling. -/
theorem operand_notMem_sibling {n m : Node} {text : String} {j k : Nat}
    (hShort : n.canonical.length < text.length) (hApart : j ≠ k) (path : List Nat) :
    ⟨m.canonical, some j, some text⟩ ∉ n.ungroup.steps (some k) (some text) path := by
  rw [← canonical_ungroup] at hShort
  apply AddressStep.Foreign.notMem_steps (.inr ⟨text, rfl, hShort⟩)
  rintro ⟨-, hSlot, -⟩
  exact hApart (Option.some.inj hSlot)

mutual

/-- A tree in which the next step names no node leaves all steps, and says what it said. -/
theorem splice_absent : (n : Node) → (slot : Option Nat) → (parent : Option String) →
    (∀ path, step ∉ n.ungroup.steps slot parent path) →
    ∃ m, splice r (step :: later) slot parent n = (m, step :: later) ∧
      m.canonical = n.canonical
  | .group inner, slot, parent, hAbsent => by
    obtain ⟨m, h, hText⟩ := splice_absent inner slot parent hAbsent
    refine ⟨m, ?_, hText⟩
    rw [splice, List.isEmpty_cons, if_neg Bool.false_ne_true, h]
  | .symbol name, slot, parent, hAbsent => by
    have hConsume : AddressStep.consume name slot parent (step :: later) = step :: later :=
      AddressStep.consume_of_misses (misses_of_notMem_steps (n := .symbol name) hAbsent) later
    refine ⟨.symbol name, ?_, rfl⟩
    rw [splice, List.isEmpty_cons, if_neg Bool.false_ne_true, hConsume]
  | .literal v, slot, parent, hAbsent => by
    have hConsume : AddressStep.consume v.canonical slot parent (step :: later) = step :: later :=
      AddressStep.consume_of_misses (misses_of_notMem_steps (n := .literal v) hAbsent) later
    refine ⟨.literal v, ?_, rfl⟩
    rw [splice, List.isEmpty_cons, if_neg Bool.false_ne_true, hConsume]
  | .operator op ns, slot, parent, hAbsent => by
    have hConsume := AddressStep.consume_of_misses (misses_of_notMem_steps hAbsent) later
    obtain ⟨ms, hAll, hTexts⟩ := spliceAll_absent ns (Node.operator op ns).canonical 0
      fun j m hm => by simpa using notMem_steps_operand (n := .operator op ns) hAbsent hm
    refine ⟨.operator op ms, ?_, canonical_operator_congr hTexts⟩
    rw [splice, List.isEmpty_cons, if_neg Bool.false_ne_true]
    simp only [hAll, hConsume]
  | .call name ns, slot, parent, hAbsent => by
    have hConsume := AddressStep.consume_of_misses (misses_of_notMem_steps hAbsent) later
    obtain ⟨ms, hAll, hTexts⟩ := spliceAll_absent ns (Node.call name ns).canonical 0
      fun j m hm => by simpa using notMem_steps_operand (n := .call name ns) hAbsent hm
    refine ⟨.call name ms, ?_, canonical_call_congr hTexts⟩
    rw [splice, List.isEmpty_cons, if_neg Bool.false_ne_true]
    simp only [hAll, hConsume]

theorem spliceAll_absent : (ns : List Node) → (text : String) → (k : Nat) →
    (∀ (j : Nat) (m : Node), ns[j]? = some m → ∀ path,
      step ∉ m.ungroup.steps (some (k + j)) (some text) path) →
    ∃ ms, spliceAll r (step :: later) text k ns = (ms, step :: later) ∧
      canonicals ms = canonicals ns
  | [], text, k, _ => ⟨[], by rw [spliceAll], rfl⟩
  | n :: ns, text, k, h => by
    obtain ⟨m, hHead, hText⟩ := splice_absent n (some k) (some text) (h 0 n rfl)
    obtain ⟨ms, hTail, hTexts⟩ := spliceAll_absent ns text (k + 1) fun j m hm => by
      have hLater := h (j + 1) m hm
      rwa [← Nat.add_assoc, Nat.add_right_comm] at hLater
    refine ⟨m :: ms, ?_, ?_⟩
    · rw [spliceAll, hHead]
      simp only [hTail]
    · rw [canonicals, canonicals, hText, hTexts]

end

theorem splice_done (slot : Option Nat) (parent : Option String) (n : Node) :
    splice r [] slot parent n = (n, []) := by
  cases n <;> rw [splice] <;> rfl

theorem spliceAll_done (text : String) (k : Nat) (ns : List Node) :
    spliceAll r [] text k ns = (ns, []) := by
  induction ns generalizing k with
  | nil => rw [spliceAll]
  | cons n ns ih =>
    rw [spliceAll, splice_done]
    simp only [ih]

theorem spliceAll_steps {ns : List Node} {text : String} {first k slot : Nat} {m new : Node}
    {chain : List AddressStep} (hm : ns[k]? = some m) (hSlot : slot = first + k)
    (hShort : ∀ n ∈ ns, n.canonical.length < text.length)
    (hChain : chain = ⟨m.canonical, some slot, some text⟩ :: later)
    (hSplice : splice r chain (some slot) (some text) m = (new, [])) :
    ∃ ms, spliceAll r chain text first ns = (ms, []) ∧
      canonicals ms = (canonicals ns).set k new.canonical := by
  induction ns generalizing first k with
  | nil => cases hm
  | cons n ns ih =>
    cases k with
    | zero =>
      obtain rfl := Option.some.inj hm
      obtain rfl : slot = first := hSlot
      refine ⟨new :: ns, ?_, rfl⟩
      rw [spliceAll, hSplice]
      simp only [spliceAll_done]
    | succ k =>
      obtain ⟨ms, hTail, hTexts⟩ := @ih (first + 1) k hm (by omega)
        (fun x hx => hShort x (List.mem_cons_of_mem _ hx))
      obtain ⟨head, hHead, hText⟩ := splice_absent r later n (some first) (some text)
        (operand_notMem_sibling (m := m) (hShort n List.mem_cons_self) (by omega : slot ≠ first))
      refine ⟨head :: ms, ?_, ?_⟩
      · rw [spliceAll, hChain, hHead]
        simp only [← hChain, hTail]
      · rw [canonicals, canonicals, hText, hTexts]
        rfl

theorem spliceAll_own (op : Operator) (ns : List Node) (slot : Option Nat)
    (parent : Option String) :
    let own : AddressStep := ⟨(Node.operator op ns).canonical, slot, parent⟩
    ∃ ms, spliceAll r (own :: later) (Node.operator op ns).canonical 0 ns = (ms, own :: later) := by
  intro own
  have hAbsent (j : Nat) (m : Node) (hm : ns[j]? = some m) :
      ∀ path, own ∉ m.ungroup.steps (some (0 + j)) (some own.text) path :=
    own_notMem_operand (n := .operator op ns) (List.mem_of_getElem? hm) slot _ parent _
  obtain ⟨ms, h, -⟩ := spliceAll_absent r later ns own.text 0 hAbsent
  exact ⟨ms, h⟩

theorem splice_operator_here (op : Operator) (ns : List Node) (slot : Option Nat)
    (parent : Option String) :
    splice r [⟨(Node.operator op ns).canonical, slot, parent⟩] slot parent (.operator op ns) =
      (r, []) := by
  obtain ⟨os, hFirst⟩ := spliceAll_own r [] op ns slot parent
  rw [splice, List.isEmpty_cons, if_neg Bool.false_ne_true]
  simp only [hFirst, AddressStep.consume_self]

theorem splice_operator_inside {op : Operator} {ns ms : List Node} {slot : Option Nat}
    {parent : Option String} {chain : List AddressStep} (hne : chain ≠ [])
    (h : spliceAll r chain (Node.operator op ns).canonical 0 ns = (ms, [])) :
    splice r (⟨(Node.operator op ns).canonical, slot, parent⟩ :: chain) slot parent
      (.operator op ns) = (.operator op ms, []) := by
  obtain ⟨step, later, rfl⟩ := List.exists_cons_of_ne_nil hne
  obtain ⟨os, hFirst⟩ := spliceAll_own r (step :: later) op ns slot parent
  rw [splice, List.isEmpty_cons, if_neg Bool.false_ne_true]
  simp only [hFirst, AddressStep.consume_self, h]

theorem splice_call_here (name : String) (ns : List Node) (slot : Option Nat)
    (parent : Option String) :
    splice r [⟨(Node.call name ns).canonical, slot, parent⟩] slot parent (.call name ns) =
      (r, []) := by
  rw [splice, List.isEmpty_cons, if_neg Bool.false_ne_true]
  simp only [AddressStep.consume_self]

theorem splice_call_inside {name : String} {ns ms : List Node} {slot : Option Nat}
    {parent : Option String} {chain : List AddressStep} (hne : chain ≠ [])
    (h : spliceAll r chain (Node.call name ns).canonical 0 ns = (ms, [])) :
    splice r (⟨(Node.call name ns).canonical, slot, parent⟩ :: chain) slot parent
      (.call name ns) = (.call name ms, []) := by
  obtain ⟨step, later, rfl⟩ := List.exists_cons_of_ne_nil hne
  rw [splice, List.isEmpty_cons, if_neg Bool.false_ne_true]
  simp only [AddressStep.consume_self, h]

theorem splice_symbol_here (name : String) (slot : Option Nat) (parent : Option String) :
    splice r [⟨name, slot, parent⟩] slot parent (.symbol name) = (r, []) := by
  rw [splice, List.isEmpty_cons, if_neg Bool.false_ne_true]
  simp only [AddressStep.consume_self]

theorem splice_literal_here (v : Literal) (slot : Option Nat) (parent : Option String) :
    splice r [⟨v.canonical, slot, parent⟩] slot parent (.literal v) = (r, []) := by
  rw [splice, List.isEmpty_cons, if_neg Bool.false_ne_true]
  simp only [AddressStep.consume_self]

theorem steps_ne_nil (slot : Option Nat) (parent : Option String) (path : List Nat) (n : Node) :
    n.steps slot parent path ≠ [] := by
  obtain ⟨later, h⟩ := exists_steps slot parent n path
  rw [h]
  exact List.cons_ne_nil _ _

/-- The operands take the chain below their node as the one on the path takes it. -/
theorem spliceAll_path {n : Node} {ns : List Node} {k : Nat} {path : List Nat} {m new : Node}
    (hns : n.operands = ns) (hm : ns[k]? = some m)
    (hSplice : splice r (m.ungroup.steps (some k) (some n.canonical) path) (some k)
      (some n.canonical) m = (new, []))
    (hNew : new.canonical = (m.ungroup.put path r).canonical) :
    ∃ ms, spliceAll r (m.ungroup.steps (some k) (some n.canonical) path) n.canonical 0 ns =
        (ms, []) ∧
      canonicals ms = canonicals ((ungroupAll ns).modify k (put · path r)) := by
  obtain ⟨later, hSteps⟩ := exists_steps (some k) (some n.canonical) m.ungroup path
  rw [canonical_ungroup] at hSteps
  obtain ⟨ms, hAll, hTexts⟩ := spliceAll_steps r later hm (Nat.zero_add k).symm
    (fun x hx => length_canonical_operand (hns ▸ hx)) hSteps hSplice
  refine ⟨ms, hAll, ?_⟩
  have hUngrouped : (ungroupAll ns)[k]? = some m.ungroup := by
    rw [ungroupAll_eq_map, List.getElem?_map, hm]
    rfl
  rw [hTexts, hNew, canonicals_modify hUngrouped, canonicals_ungroupAll]

/-- The chain of a node is taken by the nodes on its path, and the last of them is replaced. -/
theorem splice_steps {sub : Node} : (path : List Nat) → (n : Node) → (slot : Option Nat) →
    (parent : Option String) → n.ungroup.descend path = some sub →
    ∃ m, splice r (n.ungroup.steps slot parent path) slot parent n = (m, []) ∧
      m.canonical = (n.ungroup.put path r).canonical
  | path, .group inner, slot, parent, h => by
    obtain ⟨m, hSplice, hText⟩ := splice_steps path inner slot parent h
    obtain ⟨later, hSteps⟩ := exists_steps slot parent inner.ungroup path
    refine ⟨m, ?_, hText⟩
    rw [splice, ungroup, hSteps, List.isEmpty_cons, if_neg Bool.false_ne_true, ← hSteps, hSplice]
  | [], .symbol name, slot, parent, _ => ⟨r, splice_symbol_here r name slot parent, by simp⟩
  | [], .literal v, slot, parent, _ => ⟨r, splice_literal_here r v slot parent, by simp⟩
  | _ :: _, .symbol _, _, _, h => by cases h
  | _ :: _, .literal _, _, _, h => by cases h
  | [], .operator op ns, slot, parent, _ => by
    refine ⟨r, ?_, by simp⟩
    rw [steps, canonical_ungroup]
    exact splice_operator_here r op ns slot parent
  | [], .call name ns, slot, parent, _ => by
    refine ⟨r, ?_, by simp⟩
    rw [steps, canonical_ungroup]
    exact splice_call_here r name ns slot parent
  | k :: path, .operator op ns, slot, parent, h => by
    obtain ⟨m', hm', hSub⟩ := exists_operand_of_descend h
    obtain ⟨m, hm, rfl⟩ := exists_operand_of_ungroup hm'
    obtain ⟨new, hNew, hText⟩ := splice_steps path m (some k) _ hSub
    obtain ⟨ms, hAll, hTexts⟩ := spliceAll_path r (n := .operator op ns) rfl hm hNew hText
    refine ⟨.operator op ms, ?_, canonical_operator_congr hTexts⟩
    rw [steps_cons hm', canonical_ungroup]
    exact splice_operator_inside r (steps_ne_nil _ _ _ _) hAll
  | k :: path, .call name ns, slot, parent, h => by
    obtain ⟨m', hm', hSub⟩ := exists_operand_of_descend h
    obtain ⟨m, hm, rfl⟩ := exists_operand_of_ungroup hm'
    obtain ⟨new, hNew, hText⟩ := splice_steps path m (some k) _ hSub
    obtain ⟨ms, hAll, hTexts⟩ := spliceAll_path r (n := .call name ns) rfl hm hNew hText
    refine ⟨.call name ms, ?_, canonical_call_congr hTexts⟩
    rw [steps_cons hm', canonical_ungroup]
    exact splice_call_inside r (steps_ne_nil _ _ _ _) hAll
termination_by path n => (path.length, sizeOf n)

end Node

end Blockwork
