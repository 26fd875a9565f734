import Blockwork.Proofs.Block.Replay
import Blockwork.Proofs.Expression.Visits

/-! # Operands are offered an address in vain

Before an operator takes its turn its operands are offered the step at the cursor. An address that
was recorded for a block is consumed along one path from the root, or not at all. On the path the
step at the cursor is the operator's own, and its text is longer than that of an operand; beside
the path the step names nothing at all. So that first pass over the operands never moves the cursor.
-/

set_option autoImplicit false

namespace Blockwork

section

variable {steps later : List AddressStep} {step : AddressStep} {c next : Cursor} {r : Node}

theorem Cursor.step_of_ahead (h : steps.drop c.consumed = step :: later) :
    steps[c.consumed]? = some step ∧ steps.drop (c.consumed + 1) = later := by
  constructor
  · have hHead := congrArg (·[0]?) h
    simpa using hHead
  · rw [← List.drop_drop, h]
    rfl

theorem Cursor.Ready.next_eq (h : c.Ready steps r) {text : String} {slot : Option Nat}
    {parent : Option String} (hStep : steps[c.consumed]? = some ⟨text, slot, parent⟩)
    (hPass : c.offer steps text slot parent = .passed next) :
    next = ⟨c.consumed + 1, some r⟩ ∧ ¬ next.Done steps := by
  have hReplacement := h.replacement (not_done hStep)
  simp only [offer, hStep, hReplacement, and_self, if_true] at hPass
  by_cases hDone : Done steps ⟨c.consumed + 1, some r⟩
  · rw [if_pos hDone] at hPass
    cases hPass
  · rw [if_neg hDone] at hPass
    obtain rfl := Offer.passed.inj hPass
    exact ⟨rfl, hDone⟩

namespace Visit

/-- Where the steps ahead of a visit lead: nowhere as there are none, to no node in its tree, or
down a path from its node. -/
inductive Course (steps : List AddressStep) (r : Node) (v : Visit) : Prop where
  | done (h : v.cursor.Done steps)
  | astray (hReady : v.cursor.Ready steps r) (h : v.Astray steps)
  | bound {path : List Nat} {sub : Node} (hReady : v.cursor.Ready steps r)
      (hSub : v.node.ungroup.descend path = some sub)
      (hAhead : steps.drop v.cursor.consumed = v.node.ungroup.steps v.slot v.parent path)

variable {v w : Visit} {text : String} {k : Nat} {ns : List Node}

theorem Operand.done (h : Operand steps text k c ns v) (hDone : c.Done steps) :
    v.cursor.Done steps := by
  induction h with
  | here => exact hDone
  | later hFirst _ ih =>
    rw [Node.visit_of_done hDone] at hFirst
    obtain ⟨-, rfl⟩ := Prod.mk.inj (Option.some.inj hFirst)
    exact ih hDone

theorem Operand.astray_course (h : Operand steps text k c ns v) (hReady : c.Ready steps r)
    (hStep : steps[c.consumed]? = some step)
    (hAbsent : ∀ (j : Nat) (m : Node), ns[j]? = some m → ∀ path,
      step ∉ m.ungroup.steps (some (k + j)) (some text) path) : v.Course steps r := by
  obtain ⟨hCursor, hAstray⟩ := h.astray hReady hStep hAbsent
  exact .astray (hCursor ▸ hReady) hAstray

theorem Operand.course (h : Operand steps text k c ns v) (hReady : c.Ready steps r)
    (hShort : ∀ n ∈ ns, n.canonical.length < text.length) {i : Nat} {m sub : Node}
    {path : List Nat} (hm : ns[i]? = some m) (hSub : m.ungroup.descend path = some sub)
    (hAhead : steps.drop c.consumed = m.ungroup.steps (some (k + i)) (some text) path) :
    v.Course steps r := by
  obtain ⟨later, hChain⟩ := Node.exists_steps (some (k + i)) (some text) m.ungroup path
  rw [Node.canonical_ungroup] at hChain
  obtain ⟨hStep, -⟩ := Cursor.step_of_ahead (hAhead.trans hChain)
  induction h generalizing i with
  | @here k c n ns =>
    cases i with
    | zero =>
      obtain rfl := Option.some.inj hm
      exact .bound hReady hSub hAhead
    | succ i =>
      have hFirst := hShort n List.mem_cons_self
      exact .astray hReady ⟨_, hStep, Node.operand_notMem_sibling hFirst (by omega)⟩
  | @later k c next n first ns v hFirst h ih =>
    cases i with
    | zero =>
      obtain rfl := Option.some.inj hm
      obtain ⟨new, left, hVisit, hMeets⟩ :=
        (Node.agrees steps r n).1.visit hReady (some k) (some text)
      obtain ⟨_, hSplice, -⟩ := Node.splice_steps r path n (some k) (some text) hSub
      have hAhead : steps.drop c.consumed = n.ungroup.steps (some k) (some text) path := hAhead
      have hNone := hMeets.ahead
      rw [hAhead, hSplice] at hNone
      obtain ⟨-, rfl⟩ := Prod.mk.inj (Option.some.inj (hFirst.symm.trans hVisit))
      exact .done (h.done (List.drop_eq_nil_iff.mp hNone))
    | succ i =>
      have hHead := hShort n List.mem_cons_self
      have hSame := Node.visit_absent hReady hStep
        (Node.operand_notMem_sibling hHead (by omega : k + (i + 1) ≠ k))
      obtain ⟨-, rfl⟩ := Prod.mk.inj (Option.some.inj (hFirst.symm.trans hSame))
      rw [← Nat.add_assoc, Nat.add_right_comm] at hAhead hChain hStep
      exact ih hReady (fun n hn => hShort n (List.mem_cons_of_mem _ hn)) hm hAhead hChain hStep

/-- Behind a node on the path the next step ahead is that of the operand on the path. -/
theorem course_of_bound {n sub : Node} {slot : Option Nat} {parent : Option String}
    {path : List Nat} (hReady : c.Ready steps r) (hSub : n.ungroup.descend path = some sub)
    (hAhead : steps.drop c.consumed = n.ungroup.steps slot parent path)
    (hOperands : n.ungroup.operands = Node.ungroupAll ns)
    (hPass : c.offer steps n.canonical slot parent = .passed next)
    (h : Operand steps n.canonical 0 next ns v) : v.Course steps r := by
  obtain ⟨later, hChain⟩ := Node.exists_steps slot parent n.ungroup path
  rw [Node.canonical_ungroup] at hChain
  obtain ⟨hStep, hLater⟩ := Cursor.step_of_ahead (hAhead.trans hChain)
  obtain ⟨rfl, hMore⟩ := hReady.next_eq hStep hPass
  have hShort (x : Node) (hx : x ∈ ns) : x.canonical.length < n.canonical.length := by
    rw [← Node.canonical_ungroup x, ← Node.canonical_ungroup n]
    apply Node.length_canonical_operand
    rw [hOperands, Node.ungroupAll_eq_map]
    exact List.mem_map_of_mem hx
  cases path with
  | nil =>
    obtain rfl : [] = later := (List.cons.inj hChain).2
    exact absurd (List.drop_eq_nil_iff.mp hLater) hMore
  | cons k path =>
    obtain ⟨m', hm', hSub⟩ := Node.exists_operand_of_descend hSub
    have hMapped := hm'
    rw [hOperands, Node.ungroupAll_eq_map, List.getElem?_map] at hMapped
    obtain ⟨m, hm, rfl⟩ := Option.map_eq_some_iff.mp hMapped
    rw [Node.steps_cons hm', Node.canonical_ungroup] at hChain
    obtain rfl : m.ungroup.steps (some k) (some n.canonical) path = later :=
      (List.cons.inj hChain).2
    have hNext : Cursor.Ready steps r ⟨c.consumed + 1, some r⟩ :=
      ⟨Nat.le_of_not_le hMore, fun _ => rfl⟩
    rw [← Nat.zero_add k] at hLater
    exact h.course hNext hShort hm hSub hLater

theorem Course.absent_operands {slot : Option Nat} {parent : Option String} {op : Operator}
    (h : Course steps r ⟨c, slot, parent, .operator op ns⟩) (hMore : ¬ c.Done steps) :
    c.Ready steps r ∧ ∃ step, steps[c.consumed]? = some step ∧
      ∀ (j : Nat) (m : Node), ns[j]? = some m → ∀ path,
        step ∉ m.ungroup.steps (some (0 + j)) (some (Node.operator op ns).canonical) path := by
  cases h with
  | done hDone => exact absurd hDone hMore
  | astray hReady h =>
    obtain ⟨step, hStep, hAbsent⟩ := h
    refine ⟨hReady, step, hStep, fun j m hm => ?_⟩
    rw [Nat.zero_add]
    exact Node.notMem_steps_operand (n := .operator op ns) hAbsent hm
  | @bound path sub hReady hSub hAhead =>
    obtain ⟨later, hChain⟩ := Node.exists_steps slot parent (Node.operator op ns).ungroup path
    rw [Node.canonical_ungroup] at hChain
    obtain ⟨hStep, -⟩ := Cursor.step_of_ahead (hAhead.trans hChain)
    refine ⟨hReady, _, hStep, fun j m hm => ?_⟩
    exact Node.own_notMem_operand (n := .operator op ns) (List.mem_of_getElem? hm) slot _ parent _

theorem Next.course (h : Next steps v w) (hv : v.Course steps r) : w.Course steps r := by
  cases hv with
  | done hDone =>
    cases h with
    | group hMore | before hMore _ | after hMore _ _ _ _ | call hMore _ _ =>
      exact absurd hDone hMore
  | astray hReady hAstray =>
    obtain ⟨hCursor, hLast⟩ := h.astray hReady hAstray
    exact .astray (hCursor ▸ hReady) hLast
  | bound hReady hSub hAhead =>
    cases h with
    | group => exact .bound hReady hSub hAhead
    | before hMore h =>
      obtain ⟨-, step, hStep, hAbsent⟩ := (Course.bound hReady hSub hAhead).absent_operands hMore
      exact h.astray_course hReady hStep hAbsent
    | @after _ left next _ _ op ns operands _ hMore hBefore _ hPass h =>
      -- The first pass was in vain, so the operator takes its turn at the step that it was offered.
      obtain ⟨-, step, hStep, hAbsent⟩ := (Course.bound hReady hSub hAhead).absent_operands hMore
      obtain ⟨hPass, h⟩ := after_idle hReady hStep hAbsent hBefore hPass h
      exact course_of_bound hReady hSub hAhead (Node.ungroupAll_ungroupAll ns).symm hPass h
    | call _ hPass h => exact course_of_bound hReady hSub hAhead rfl hPass h

theorem LeadsTo.course (h : LeadsTo steps v w) (hv : v.Course steps r) : w.Course steps r := by
  induction h with
  | refl => exact hv
  | tail _ hNext ih => exact hNext.course ih

end Visit

end

variable {K : Type}

/-- Wherever it is replayed, the address of a block leads down the block's path or nowhere. -/
theorem Block.Shows.course {b : Block K} {n m : Node} {path : List Nat}
    (h : b.Shows n none .empty path) (hn : n.Readable) (hm : m.Readable) (r : Node) :
    Visit.Course b.frame.address.steps r ⟨⟨0, some r⟩, none, none, m⟩ := by
  have hAddress : b.frame.address.steps = n.ungroup.steps none none path := h.address
  rw [hAddress]
  by_cases hText : m.canonical = n.canonical
  · obtain ⟨sub, hSub, -⟩ := h.text
    have hTrees : m.ungroup = n.ungroup := (Node.canonical_inj hm hn).mp hText
    rw [← hTrees] at hSub ⊢
    exact .bound ⟨Nat.zero_le _, fun _ => rfl⟩ hSub rfl
  · obtain ⟨later, hChain⟩ := Node.exists_steps none none n.ungroup path
    rw [hChain, Node.canonical_ungroup]
    refine .astray ⟨Nat.zero_le _, fun _ => rfl⟩ ⟨_, rfl, fun path => ?_⟩
    apply Node.root_notMem_steps
    rw [Node.canonical_ungroup]
    exact fun hSame => hText hSame.symm

variable [Scalar K]

/-- Whatever text the address of a block is replayed on, an operator that the walk comes to offers
the step at the cursor to its operands in vain: no visit of that pass fits the step, and the pass
gives back the cursor, with the replacement in it, and the operands without their groups. -/
theorem Block.operands_first_idle {style : Style K} {expression : String} {tree : BlockTree K}
    (h : style.layOutText expression = .ok tree) {id : Nat} {b : Block K}
    (hb : tree.block? id = some b) {other replacement : String} {m r : Node}
    (hOther : Node.read other = .ok m) (hReplacement : Node.read replacement = .ok r) :
    let steps := b.frame.address.steps
    let start : Cursor := ⟨0, some r⟩
    (∃ new left, m.visit steps none none start = some (new, left) ∧
      b.frame.address.substitute other replacement = .ok new.canonical) ∧
    ∀ c slot parent op ns,
      Visit.LeadsTo steps ⟨start, none, none, m⟩ ⟨c, slot, parent, .operator op ns⟩ →
      ¬ c.Done steps →
      let text := (Node.operator op ns).canonical
      Node.visitAll steps text 0 c ns = some (Node.ungroupAll ns, c) ∧
        ∀ v w, Visit.Operand steps text 0 c ns v → v.LeadsTo steps w →
          w.cursor = c ∧ ¬ w.Fits steps := by
  intro steps start
  obtain ⟨n, root, hRead, hLayOut, rfl⟩ := Style.layOutText_inv h
  obtain ⟨path, hPath⟩ := BlockTree.exists_descend hb
  have hShows := Node.shows_of_layOut style path n none .empty hLayOut hPath
  have hStart := hShows.course (Node.readable_of_read hRead) (Node.readable_of_read hOther) r
  constructor
  · obtain ⟨new, left, hVisit, hAnswer, -⟩ :=
      b.frame.address.substitute_visit hOther hReplacement
    exact ⟨new, left, hVisit, hAnswer⟩
  · intro c slot parent op ns hLeads hMore text
    obtain ⟨hReady, step, hStep, hAbsent⟩ := (hLeads.course hStart).absent_operands hMore
    refine ⟨Node.visitAll_absent hReady hStep hAbsent, fun v w hOperand hInner => ?_⟩
    obtain ⟨hFirst, hAstray⟩ := hOperand.astray hReady hStep hAbsent
    obtain ⟨hSame, hLast⟩ := hInner.astray (hFirst ▸ hReady) hAstray
    exact ⟨hSame.trans hFirst, hLast.not_fits⟩

theorem Block.operands_first_idle_sum :
    let style : Style Float := ⟨Settings.standardMetrics, .fixedAdvance 1⟩
    let x := Node.symbol "x"
    let sum := Node.operator .add [.group x, x]
    ∃ tree b, style.layOutText "x + x == x" = .ok tree ∧ tree.block? 1 = some b ∧
      Node.visitAll b.frame.address.steps "((x+x)==x)" 0 ⟨0, some (.symbol "y")⟩
          [.group sum, .group x] =
        some ([.operator .add [x, x], x], ⟨0, some (.symbol "y")⟩) ∧
      Node.visitAll b.frame.address.steps "(x+x)" 0 ⟨1, some (.symbol "y")⟩ [x, x] =
        some ([x, x], ⟨1, some (.symbol "y")⟩) := by
  intro style x sum
  have hRead : Node.read "x + x == x" = .ok (.operator .eq [.operator .add [x, x], x]) := by cbv
  have hOther : Node.read "((x) + x) == (x)" = .ok (.operator .eq [.group sum, .group x]) := by
    cbv
  have hReplacement : Node.read "y" = .ok (.symbol "y") := by cbv
  have hLayOut : ∃ tree b, style.layOutText "x + x == x" = .ok tree ∧
      tree.block? 1 = some b ∧ b.frame.address.steps = [.root "((x+x)==x)",
        .child "(x+x)" 0 "((x+x)==x)", .child "x" 1 "(x+x)"] := by
    rw [Style.layOutText, hRead]
    exact ⟨_, _, rfl, rfl, rfl⟩
  obtain ⟨tree, b, hTree, hBlock, hSteps⟩ := hLayOut
  have hMore {k : Nat} (hk : k < 3) :
      ¬ Cursor.Done b.frame.address.steps ⟨k, some (.symbol "y")⟩ := by
    rw [hSteps]
    exact Nat.not_le.mpr hk
  obtain ⟨-, hIdle⟩ := Block.operands_first_idle hTree hBlock hOther hReplacement
  obtain ⟨hEquality, -⟩ := hIdle _ _ _ _ _ .refl (hMore (by decide))
  have hSum : Visit.LeadsTo b.frame.address.steps
      ⟨⟨0, some (.symbol "y")⟩, none, none, .operator .eq [.group sum, .group x]⟩
      ⟨⟨1, some (.symbol "y")⟩, some 0, some "((x+x)==x)", .operator .add [x, x]⟩ := by
    apply Relation.ReflTransGen.single
    apply Visit.Next.after (hMore (by decide)) hEquality (hMore (by decide)) _ .here
    rw [hSteps]
    rfl
  obtain ⟨hOperands, -⟩ := hIdle _ _ _ _ _ hSum (hMore (by decide))
  exact ⟨tree, b, hTree, hBlock, hEquality, hOperands⟩

end Blockwork
