import Blockwork.Proofs.Block.Substitution

/-! # Where an address lands

An address may be any list of steps, and the nodes of a tree may consume them in places that do not
lie on one chain. Until the last step is consumed nothing is changed but groups, so every node is
compared by its own text. The node that consumes the last step is replaced, and nothing else.
-/

set_option autoImplicit false

namespace Blockwork

/-- A step that fits the node at a path: it has the node's text, the slot that the path ends with,
and the text of the node that the slot belongs to; at the root it has neither slot nor parent. -/
inductive AddressStep.Fits (n : Node) : List Nat → AddressStep → Prop where
  | root : Fits n [] (.root n.canonical)
  | operand {path : List Nat} {k : Nat} {parent sub : Node} (hParent : n.descend path = some parent)
      (hSub : parent.operands[k]? = some sub) :
      Fits n (path ++ [k]) (.child sub.canonical k parent.canonical)

theorem AddressStep.consume_cases (text : String) (slot : Option Nat) (parent : Option String)
    {last : AddressStep} {steps : List AddressStep} (h : steps.getLast? = some last) :
    (consume text slot parent steps).getLast? = some last ∨
      (consume text slot parent steps = [] ∧ last = ⟨text, slot, parent⟩) := by
  cases steps with
  | nil => cases h
  | cons step later =>
    rw [consume]
    split
    · rename_i hTakes
      obtain ⟨rfl, rfl, rfl⟩ := hTakes
      cases later with
      | nil => exact .inr ⟨rfl, (Option.some.inj h).symm⟩
      | cons next later => exact .inl h
    · exact .inl h

namespace Node

theorem getLast?_steps_cons {n m : Node} {slot : Option Nat} {parent : Option String} {k : Nat}
    (hm : n.operands[k]? = some m) (path : List Nat) :
    (n.steps slot parent (k :: path)).getLast? =
      (m.steps (some k) (some n.canonical) path).getLast? := by
  obtain ⟨later, hLater⟩ := exists_steps (some k) (some n.canonical) m path
  rw [steps_cons hm, hLater, List.getLast?_cons_cons]

theorem getLast?_steps_concat {n parent sub : Node} {path : List Nat} {k : Nat}
    (hParent : n.descend path = some parent) (hSub : parent.operands[k]? = some sub)
    (slot : Option Nat) (above : Option String) :
    (n.steps slot above (path ++ [k])).getLast? =
      some (.child sub.canonical k parent.canonical) := by
  induction path generalizing n slot above with
  | nil =>
    obtain rfl := Option.some.inj hParent
    rw [List.nil_append, getLast?_steps_cons hSub]
    rfl
  | cons j path ih =>
    obtain ⟨m, hm, hParent⟩ := exists_operand_of_descend hParent
    rw [List.cons_append, getLast?_steps_cons hm, ih hParent]

theorem fits_of_steps {n sub : Node} {path : List Nat} {last : AddressStep}
    (hSub : n.descend path = some sub) (h : (n.steps none none path).getLast? = some last) :
    last.Fits n path := by
  rcases List.eq_nil_or_concat' path with rfl | ⟨above, k, rfl⟩
  · obtain rfl := Option.some.inj h
    exact .root
  · rw [descend_concat] at hSub
    obtain ⟨parent, hParent, hSub⟩ := Option.bind_eq_some_iff.mp hSub
    rw [getLast?_steps_concat hParent hSub, Option.some.injEq] at h
    subst h
    exact .operand hParent hSub

/-- What becomes of a node that is offered steps of which the last is `last`: it says what it said
and leaves that step to others, or one node in it is replaced. -/
inductive Offered (r : Node) (last : AddressStep) (slot : Option Nat) (parent : Option String)
    (n : Node) : Node × List AddressStep → Prop where
  | kept {m : Node} {left : List AddressStep} (hText : m.canonical = n.canonical)
      (hLeft : left.getLast? = some last) : Offered r last slot parent n (m, left)
  | landed {m sub : Node} {path : List Nat} (hSub : n.ungroup.descend path = some sub)
      (hLast : (n.ungroup.steps slot parent path).getLast? = some last)
      (hText : m.canonical = (n.ungroup.put path r).canonical) :
      Offered r last slot parent n (m, [])

inductive OfferedAll (r : Node) (last : AddressStep) (text : String) (k : Nat) (ns : List Node) :
    List Node × List AddressStep → Prop where
  | kept {ms : List Node} {left : List AddressStep} (hTexts : canonicals ms = canonicals ns)
      (hLeft : left.getLast? = some last) : OfferedAll r last text k ns (ms, left)
  | landed {ms : List Node} {m sub : Node} {j : Nat} {path : List Nat} (hm : ns[j]? = some m)
      (hSub : m.ungroup.descend path = some sub)
      (hLast : (m.ungroup.steps (some (k + j)) (some text) path).getLast? = some last)
      (hTexts : canonicals ms = canonicals ((ungroupAll ns).modify j (put · path r))) :
      OfferedAll r last text k ns (ms, [])

section

variable {r n : Node} {last : AddressStep} {slot : Option Nat} {parent : Option String}
  {steps : List AddressStep} {res : Node × List AddressStep}

theorem isEmpty_of_getLast? (h : steps.getLast? = some last) : steps.isEmpty = false := by
  cases steps with
  | nil => cases h
  | cons step later => rfl

theorem Offered.of_consume {next : List AddressStep → Node × List AddressStep}
    (h : steps.getLast? = some last)
    (hNext : ∀ later, later.getLast? = some last → Offered r last slot parent n (next later)) :
    Offered r last slot parent n
      (match AddressStep.consume n.canonical slot parent steps with
      | [] => (r, [])
      | later => next later) := by
  rcases AddressStep.consume_cases n.canonical slot parent h with hLater | ⟨hNone, rfl⟩
  · split
    · rename_i hNone
      rw [hNone] at hLater
      cases hLater
    · exact hNext _ hLater
  · rw [hNone]
    have hSub : n.ungroup.descend [] = some n.ungroup := rfl
    refine .landed hSub ?_ (by simp)
    rw [Node.steps, canonical_ungroup]
    rfl

theorem Offered.of_group (h : Offered r last slot parent n res) :
    Offered r last slot parent (.group n) res := by
  cases h with
  | kept hText hLeft => exact .kept hText hLeft
  | landed hSub hLast hText => exact .landed hSub hLast hText

theorem Offered.of_operands {make : List Node → Node} {ns ms : List Node} {left : List AddressStep}
    (hn : n.ungroup = make (ungroupAll ns)) (hns : ∀ ns, (make ns).operands = ns)
    (hCongr : ∀ ns ms, canonicals ns = canonicals ms → (make ns).canonical = (make ms).canonical)
    (hPut : ∀ ns k path, (make ns).put (k :: path) r = make (ns.modify k (put · path r)))
    (h : OfferedAll r last n.canonical 0 ns (ms, left)) :
    Offered r last slot parent n (make ms, left) := by
  cases h with
  | kept hTexts hLeft =>
    refine .kept ?_ hLeft
    rw [← canonical_ungroup n, hn, hCongr _ _ hTexts]
    exact hCongr _ _ (canonicals_ungroupAll ns).symm
  | @landed _ m sub j path hm hSub hLast hTexts =>
    have hOperand : n.ungroup.operands[j]? = some m.ungroup := by
      rw [hn, hns, ungroupAll_eq_map, List.getElem?_map, hm]
      rfl
    have hInner : n.ungroup.descend (j :: path) = some sub := (descend_cons hOperand).trans hSub
    refine .landed hInner ?_ ?_
    · rw [getLast?_steps_cons hOperand, canonical_ungroup]
      rwa [Nat.zero_add] at hLast
    · rw [hn, hPut]
      exact hCongr _ _ hTexts

theorem Offered.of_operator {op : Operator} {ns ms : List Node} {left : List AddressStep}
    (h : OfferedAll r last (Node.operator op ns).canonical 0 ns (ms, left)) :
    Offered r last slot parent (.operator op ns) (.operator op ms, left) :=
  .of_operands rfl (fun _ => rfl) (fun _ _ => canonical_operator_congr) (fun _ _ _ => rfl) h

theorem Offered.of_call {name : String} {ns ms : List Node} {left : List AddressStep}
    (h : OfferedAll r last (Node.call name ns).canonical 0 ns (ms, left)) :
    Offered r last slot parent (.call name ns) (.call name ms, left) :=
  .of_operands rfl (fun _ => rfl) (fun _ _ => canonical_call_congr) (fun _ _ _ => rfl) h

theorem OfferedAll.cons {text : String} {k : Nat} {m : Node} {ns ms : List Node}
    {left further : List AddressStep} (hFirst : Offered r last (some k) (some text) n (m, left))
    (hRest : left.getLast? = some last → OfferedAll r last text (k + 1) ns (ms, further))
    (hDone : left = [] → ms = ns ∧ further = []) :
    OfferedAll r last text k (n :: ns) (m :: ms, further) := by
  cases hFirst with
  | kept hText hLeft =>
    cases hRest hLeft with
    | kept hTexts hFurther => exact .kept (by rw [canonicals, canonicals, hText, hTexts]) hFurther
    | @landed _ m' sub j path hm hSub hLast hTexts =>
      refine .landed (j := j + 1) hm hSub ?_ ?_
      · rwa [← Nat.add_assoc, Nat.add_right_comm]
      · rw [ungroupAll, List.modify_succ_cons, canonicals, canonicals, hText, hTexts,
          canonical_ungroup]
  | landed hSub hLast hText =>
    obtain ⟨rfl, rfl⟩ := hDone rfl
    refine .landed (j := 0) rfl hSub hLast ?_
    rw [ungroupAll, List.modify_zero_cons, canonicals, canonicals, hText, canonicals_ungroupAll]

end

mutual

/-- No node is replaced before the last step is consumed, and then only the node that it fits. -/
theorem splice_offered (r : Node) {last : AddressStep} : (n : Node) → (slot : Option Nat) →
    (parent : Option String) → {steps : List AddressStep} → steps.getLast? = some last →
    Offered r last slot parent n (splice r steps slot parent n)
  | .group inner, slot, parent, steps, h => by
    rw [splice, isEmpty_of_getLast? h, if_neg Bool.false_ne_true]
    exact (splice_offered r inner slot parent h).of_group
  | .symbol name, slot, parent, steps, h => by
    rw [splice, isEmpty_of_getLast? h, if_neg Bool.false_ne_true]
    exact .of_consume (n := .symbol name) h fun later hLater => .kept rfl hLater
  | .literal v, slot, parent, steps, h => by
    rw [splice, isEmpty_of_getLast? h, if_neg Bool.false_ne_true]
    exact .of_consume (n := .literal v) h fun later hLater => .kept rfl hLater
  | .call name ns, slot, parent, steps, h => by
    rw [splice, isEmpty_of_getLast? h, if_neg Bool.false_ne_true]
    exact .of_consume (n := .call name ns) h fun later hLater =>
      .of_call (spliceAll_offered r ns _ 0 hLater)
  | .operator op ns, slot, parent, steps, h => by
    rw [splice, isEmpty_of_getLast? h, if_neg Bool.false_ne_true]
    -- The operands come first; only if they leave the last step is it the operator's turn.
    have hOperands := spliceAll_offered r ns (Node.operator op ns).canonical 0 h
    dsimp only
    split
    · rename_i ms hAll
      rw [hAll] at hOperands
      exact .of_operator hOperands
    · rename_i ms left hLeft hAll
      rw [hAll] at hOperands
      cases hOperands with
      | landed => exact (hLeft rfl).elim
      | kept hTexts hLast =>
        exact .of_consume (n := .operator op ns) hLast fun later hLater =>
          .of_operator (spliceAll_offered r ns _ 0 hLater)

theorem spliceAll_offered (r : Node) {last : AddressStep} : (ns : List Node) → (text : String) →
    (k : Nat) → {steps : List AddressStep} → steps.getLast? = some last →
    OfferedAll r last text k ns (spliceAll r steps text k ns)
  | [], text, k, steps, h => by
    rw [spliceAll]
    exact .kept rfl h
  | n :: ns, text, k, steps, h => by
    rw [spliceAll]
    refine .cons (splice_offered r n (some k) (some text) h)
      (fun hLeft => spliceAll_offered r ns text (k + 1) hLeft) ?_
    intro hDone
    rw [hDone, spliceAll_done]
    exact ⟨rfl, rfl⟩

end

end Node

/-- Whatever its steps are, an address replaces one node at most, and only one that its last step
fits. The walk has an outcome, so every step that it looks up is there. -/
theorem Address.substitute_once (a : Address) {expression replacement : String} {n r : Node}
    (hExpression : Node.read expression = .ok n) (hReplacement : Node.read replacement = .ok r) :
    (a.substitute expression replacement = .ok n.canonical ∨
      ∃ path last, a.steps.getLast? = some last ∧ last.Fits n.ungroup path ∧
        a.substitute expression replacement = .ok (n.ungroup.put path r).canonical) ∧
    (a.steps = [] → a.substitute expression replacement = .ok n.canonical) ∧
    ∃ new c, Node.visit a.steps none none ⟨0, some r⟩ n = some (new, c) ∧
      a.substitute expression replacement = .ok new.canonical := by
  have hText := Address.substitute_eq (a := a) hExpression hReplacement
  have hNone (hSteps : a.steps = []) :
      a.substitute expression replacement = .ok n.canonical := by
    rw [hText, hSteps, Node.splice_done]
  refine ⟨?_, hNone, ?_⟩
  · cases hLast : a.steps.getLast? with
    | none => exact .inl (hNone (List.getLast?_eq_none_iff.mp hLast))
    | some last =>
      have hOffered := Node.splice_offered r n none none hLast
      cases hSplice : Node.splice r a.steps none none n with
      | mk m left =>
        rw [hSplice] at hOffered hText
        cases hOffered with
        | kept hSame => exact .inl (hText.trans (congrArg Except.ok hSame))
        | landed hSub hChain hPut =>
          exact .inr ⟨_, last, rfl, Node.fits_of_steps hSub hChain,
            hText.trans (congrArg Except.ok hPut)⟩
  · obtain ⟨new, c, hVisit, hAnswer, -⟩ := a.substitute_visit hExpression hReplacement
    exact ⟨new, c, hVisit, hAnswer⟩

/-- Two steps that are not on one chain: the first is consumed inside the sum, the second beside
it. -/
theorem Address.substitute_once_astray :
    let a : Address := ⟨[.child "x" 0 "(x+x)", .child "x" 1 "((x+x)==x)"]⟩
    ∃ n r, Node.read "x + x == x" = .ok n ∧ Node.read "y" = .ok r ∧
      a.substitute "x + x == x" "y" = .ok "((x+x)==y)" ∧
      (a.substitute "x + x == x" "y" = .ok n.canonical ∨
        ∃ path last, a.steps.getLast? = some last ∧ last.Fits n.ungroup path ∧
          a.substitute "x + x == x" "y" = .ok (n.ungroup.put path r).canonical) ∧
      ∃ new c, Node.visit a.steps none none ⟨0, some r⟩ n = some (new, c) ∧
        a.substitute "x + x == x" "y" = .ok new.canonical := by
  intro a
  have hRead : Node.read "x + x == x" = .ok (.operator .eq
      [.operator .add [.symbol "x", .symbol "x"], .symbol "x"]) := by cbv
  have hReplacement : Node.read "y" = .ok (.symbol "y") := by cbv
  obtain ⟨hOnce, -, hVisit⟩ := Address.substitute_once a hRead hReplacement
  refine ⟨_, _, hRead, hReplacement, ?_, hOnce, hVisit⟩
  rw [Address.substitute_eq hRead hReplacement]
  exact congrArg Except.ok (by decide)

end Blockwork
