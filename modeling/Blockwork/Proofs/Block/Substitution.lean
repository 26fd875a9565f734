import Blockwork.Proofs.Block.Descent
import Blockwork.Proofs.Expression.Cursor

/-! # Substitution at a block

The address of a block of a laid out text names the node that the block shows, and substitution
there replaces this node and no other.
-/

set_option autoImplicit false

namespace Blockwork

variable {K : Type}

/-- The walk has an outcome, and its text is the answer. -/
theorem Address.substitute_visit (a : Address) {expression replacement : String} {n r : Node}
    (hExpression : Node.read expression = .ok n) (hReplacement : Node.read replacement = .ok r) :
    ∃ new next, Node.visit a.steps none none ⟨0, some r⟩ n = some (new, next) ∧
      a.substitute expression replacement = .ok new.canonical ∧
      new.canonical = (Node.splice r a.steps none none n).1.canonical := by
  obtain ⟨new, next, hVisit, hMeets⟩ :=
    (Node.agrees a.steps r n).1.visit (Cursor.ready_start a.steps r) none none
  refine ⟨new, next, hVisit, ?_, hMeets.text⟩
  rw [substitute, hExpression, hReplacement]
  dsimp only [Except.mapError, bind, Except.bind]
  rw [hVisit]
  rfl

theorem Address.substitute_eq {a : Address} {expression replacement : String} {n r : Node}
    (hExpression : Node.read expression = .ok n) (hReplacement : Node.read replacement = .ok r) :
    a.substitute expression replacement =
      .ok (Node.splice r a.steps none none n).1.canonical := by
  obtain ⟨new, next, -, hAnswer, hText⟩ := a.substitute_visit hExpression hReplacement
  rw [hAnswer, hText]

theorem Block.Shows.substitute {expression replacement : String} {n r : Node} {b : Block K}
    {path : List Nat} (hExpression : Node.read expression = .ok n)
    (hReplacement : Node.read replacement = .ok r) (h : b.Shows n none .empty path) :
    b.frame.address.substitute expression replacement = .ok (n.ungroup.put path r).canonical := by
  obtain ⟨sub, hSub, -⟩ := h.text
  obtain ⟨m, hSplice, hText⟩ := Node.splice_steps r path n none none hSub
  have hSteps : b.frame.address.steps = n.ungroup.steps none none path := h.address
  rw [Address.substitute_eq hExpression hReplacement, hSteps, hSplice, hText]

variable [Scalar K]

theorem Style.layOutText_inv {style : Style K} {text : String} {tree : BlockTree K}
    (h : style.layOutText text = .ok tree) :
    ∃ n b, Node.read text = .ok n ∧ n.layOut style none .empty = .ok b ∧ tree = .ofRoot b := by
  rw [layOutText] at h
  split at h
  · cases h
  · rename_i n hRead
    obtain ⟨b, hLayOut, hTree⟩ := layOut_inv h
    exact ⟨n, b, hRead, hLayOut, hTree⟩

/-- Substitution at a block of a text replaces the node at the block's path, and nothing else. -/
theorem Block.substitute_at_path {style : Style K} {expression : String} {tree : BlockTree K}
    (h : style.layOutText expression = .ok tree) :
    ∃ n, Node.read expression = .ok n ∧
      (∀ id b, tree.block? id = some b → ∃ path, tree.root.descend path = some b) ∧
      ∀ path b, tree.root.descend path = some b →
        (∃ sub, n.ungroup.descend path = some sub ∧ sub.canonical = b.frame.expression) ∧
        ∀ replacement r, Node.read replacement = .ok r →
          b.frame.address.substitute expression replacement =
            .ok (n.ungroup.put path r).canonical := by
  obtain ⟨n, root, hRead, hLayOut, rfl⟩ := Style.layOutText_inv h
  refine ⟨n, hRead, fun id b => BlockTree.exists_descend, fun path b hPath => ?_⟩
  have hShows := Node.shows_of_layOut style path n none .empty hLayOut hPath
  exact ⟨hShows.text, fun replacement r hReplacement => hShows.substitute hRead hReplacement⟩

theorem Block.substitute_at_path_twins :
    let style : Style Float := ⟨Settings.standardMetrics, .fixedAdvance 1⟩
    ∃ tree b, style.layOutText "(x + x) == x" = .ok tree ∧
      tree.root.descend [0, 1] = some b ∧
      b.frame.address.substitute "(x + x) == x" "y" = .ok "((x+y)==x)" := by
  intro style
  have hRead : Node.read "(x + x) == x" = .ok (.operator .eq
      [.group (.operator .add [.symbol "x", .symbol "x"]), .symbol "x"]) := by cbv
  have hReplacement : Node.read "y" = .ok (.symbol "y") := by cbv
  have hLayOut : ∃ tree b, style.layOutText "(x + x) == x" = .ok tree ∧
      tree.root.descend [0, 1] = some b := by
    rw [Style.layOutText, hRead]
    exact ⟨_, _, rfl, rfl⟩
  obtain ⟨tree, b, hTree, hBlock⟩ := hLayOut
  obtain ⟨n, hn, -, hPaths⟩ := Block.substitute_at_path hTree
  obtain rfl := Except.ok.inj (hRead.symm.trans hn)
  exact ⟨tree, b, hTree, hBlock, (hPaths _ b hBlock).2 "y" _ hReplacement⟩

end Blockwork
