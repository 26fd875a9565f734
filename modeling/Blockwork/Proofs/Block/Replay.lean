import Blockwork.Proofs.Block.Substitution
import Blockwork.Proofs.Expression.RoundTrip

/-! # Addresses on other texts

An address that was recorded for a block may meet a text that has changed since. Its first step
says what the whole recorded text says, and only a root has a step without a slot: so the address
acts on texts that say the same, whatever their groups, and leaves every other text alone.
-/

set_option autoImplicit false

namespace Blockwork

namespace Node

variable {step : AddressStep}

theorem slot_ne_none_of_mem_steps {n : Node} {k : Nat} {parent : Option String} {path : List Nat}
    (h : step ∈ n.steps (some k) parent path) : step.slot ≠ none := by
  induction path generalizing n k parent with
  | nil =>
    obtain rfl := List.mem_singleton.mp h
    nofun
  | cons j path ih =>
    rw [steps, List.mem_cons] at h
    rcases h with rfl | h
    · nofun
    · split at h
      · cases h
      · exact ih h

theorem root_notMem_steps {n : Node} {text : String} (hText : text ≠ n.canonical)
    (path : List Nat) : .root text ∉ n.steps none none path := by
  have hRoot : AddressStep.root text ≠ ⟨n.canonical, none, none⟩ := by
    intro h
    exact hText (congrArg AddressStep.text h)
  cases path with
  | nil => simpa [steps] using hRoot
  | cons k path =>
    rw [steps, List.mem_cons, not_or]
    refine ⟨hRoot, ?_⟩
    split
    · exact List.not_mem_nil
    · intro h
      exact slot_ne_none_of_mem_steps h rfl

end Node

variable {K : Type}

/-- The address of a block that shows a node leaves a text that says something else alone. -/
theorem Block.Shows.substitute_stale {b : Block K} {n m r : Node} {path : List Nat}
    {other replacement : String} (h : b.Shows n none .empty path)
    (hOther : Node.read other = .ok m) (hReplacement : Node.read replacement = .ok r)
    (hText : m.canonical ≠ n.canonical) :
    b.frame.address.substitute other replacement = .ok m.canonical := by
  obtain ⟨later, hChain⟩ := Node.exists_steps none none n.ungroup path
  have hSteps : b.frame.address.steps = .root n.canonical :: later := by
    have hAddress : b.frame.address.steps = n.ungroup.steps none none path := h.address
    rw [hAddress, hChain, Node.canonical_ungroup]
    rfl
  have hAbsent : ∀ path, .root n.canonical ∉ m.ungroup.steps none none path := by
    apply Node.root_notMem_steps
    rw [Node.canonical_ungroup]
    exact hText.symm
  obtain ⟨left, hSplice, hLeft⟩ := Node.splice_absent r later m none none hAbsent
  rw [Address.substitute_eq hOther hReplacement, hSteps, hSplice, hLeft]

variable [Scalar K]

/-- The address of a block acts on a text that says what the block's text says, and exactly as it
acts there; any other text it leaves as it is. -/
theorem Block.substitute_elsewhere {style : Style K} {expression : String} {tree : BlockTree K}
    (h : style.layOutText expression = .ok tree) {id : Nat} {b : Block K}
    (hb : tree.block? id = some b) {other replacement : String} {m r : Node}
    (hOther : Node.read other = .ok m) (hReplacement : Node.read replacement = .ok r) :
    ∃ n path sub, Node.read expression = .ok n ∧ tree.root.descend path = some b ∧
      n.ungroup.descend path = some sub ∧ sub.canonical = b.frame.expression ∧
      (m.canonical = n.canonical →
        b.frame.address.substitute other replacement =
            b.frame.address.substitute expression replacement ∧
          b.frame.address.substitute expression replacement =
            .ok (n.ungroup.put path r).canonical) ∧
      (m.canonical ≠ n.canonical →
        b.frame.address.substitute other replacement = .ok m.canonical) := by
  obtain ⟨n, root, hRead, hLayOut, rfl⟩ := Style.layOutText_inv h
  obtain ⟨path, hPath⟩ := BlockTree.exists_descend hb
  have hShows := Node.shows_of_layOut style path n none .empty hLayOut hPath
  obtain ⟨sub, hSub, hText⟩ := hShows.text
  have hHere := hShows.substitute hRead hReplacement
  refine ⟨n, path, sub, hRead, hPath, hSub, hText, fun hSame => ?_, fun hApart => ?_⟩
  · have hTrees : m.ungroup = n.ungroup :=
      (Node.canonical_inj (Node.readable_of_read hOther) (Node.readable_of_read hRead)).mp hSame
    have hThere : b.Shows m none .empty path := by
      constructor
      · rw [hTrees]
        exact hShows.text
      · rw [hTrees]
        exact hShows.address
    rw [hThere.substitute hOther hReplacement, hTrees, hHere]
    exact ⟨rfl, rfl⟩
  · exact hShows.substitute_stale hOther hReplacement hApart

theorem Block.substitute_elsewhere_sum :
    let style : Style Float := ⟨Settings.standardMetrics, .fixedAdvance 1⟩
    ∃ tree b, style.layOutText "x + x == x" = .ok tree ∧ tree.block? 1 = some b ∧
      b.frame.address.substitute "((x) + x) == (x)" "y" = .ok "((x+y)==x)" ∧
      b.frame.address.substitute "x + x == z" "y" = .ok "((x+x)==z)" := by
  intro style
  have hRead : Node.read "x + x == x" = .ok (.operator .eq
      [.operator .add [.symbol "x", .symbol "x"], .symbol "x"]) := by cbv
  have hSame : Node.read "((x) + x) == (x)" = .ok (.operator .eq
      [.group (.operator .add [.group (.symbol "x"), .symbol "x"]), .group (.symbol "x")]) := by
    cbv
  have hStale : Node.read "x + x == z" = .ok (.operator .eq
      [.operator .add [.symbol "x", .symbol "x"], .symbol "z"]) := by cbv
  have hReplacement : Node.read "y" = .ok (.symbol "y") := by cbv
  have hLayOut : ∃ tree b, style.layOutText "x + x == x" = .ok tree ∧
      tree.block? 1 = some b ∧ b.frame.address = ⟨[.root "((x+x)==x)",
        .child "(x+x)" 0 "((x+x)==x)", .child "x" 1 "(x+x)"]⟩ := by
    rw [Style.layOutText, hRead]
    exact ⟨_, _, rfl, rfl, rfl⟩
  obtain ⟨tree, b, hTree, hBlock, hAddress⟩ := hLayOut
  have hHere : b.frame.address.substitute "x + x == x" "y" = .ok "((x+y)==x)" := by
    rw [hAddress, Address.substitute_eq hRead hReplacement]
    exact congrArg Except.ok (by decide)
  obtain ⟨n, _, _, hn, -, -, -, hActs, -⟩ :=
    Block.substitute_elsewhere hTree hBlock hSame hReplacement
  obtain ⟨m, _, _, hm, -, -, -, -, hLeaves⟩ :=
    Block.substitute_elsewhere hTree hBlock hStale hReplacement
  obtain rfl := Except.ok.inj (hRead.symm.trans hn)
  obtain rfl := Except.ok.inj (hRead.symm.trans hm)
  exact ⟨tree, b, hTree, hBlock, (hActs (by decide)).1.trans hHere, hLeaves (by decide)⟩

end Blockwork
