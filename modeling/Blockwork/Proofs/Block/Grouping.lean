import Blockwork.Block.Tree
import Blockwork.Proofs.Expression.RoundTrip
import Blockwork.Proofs.Expression.WellTyped

/-! # Layouts and canonical texts

A group has no block, and all that a node sees of its parent is the type of its slot and the
canonical text around it, where groups leave no trace. So a text and its canonical text lay out to
the same tree, or both fail with the same fault.
-/

set_option autoImplicit false

namespace Blockwork

namespace Parent

def ungroup (p : Parent) : Parent := { p with node := p.node.ungroup }

theorem step_ungroup (text : String) (above : Option Parent) :
    step text (above.map ungroup) = step text above := by
  cases above <;> rfl

theorem operandType_ungroup (above : Option Parent) :
    Node.operandType ((above.map ungroup).map node) = Node.operandType (above.map node) := by
  cases above with
  | none => rfl
  | some p => exact Node.operandType_ungroup p.node

end Parent

variable {K : Type} [Scalar K]

namespace Node

variable (style : Style K)

mutual

theorem layOut_ungroup : (n : Node) → (above : Option Parent) → (trail : Address) →
    n.ungroup.layOut style (above.map Parent.ungroup) trail = n.layOut style above trail
  | .group inner, above, trail => by
    rw [ungroup, layOut]
    exact layOut_ungroup inner above trail
  | .symbol name, above, trail => by
    rw [ungroup, layOut, layOut, Parent.operandType_ungroup, Parent.step_ungroup]
  | .literal v, above, trail => by
    simp only [ungroup, layOut, Parent.step_ungroup]
  | .operator op ns, above, trail => by
    have hText : (Node.operator op (ungroupAll ns)).canonical = (Node.operator op ns).canonical :=
      canonical_ungroup (.operator op ns)
    have hLength : (ungroupAll ns).length = ns.length := by
      rw [ungroupAll_eq_map, List.length_map]
    have hType : (Node.operator op (ungroupAll ns)).resultType =
        (Node.operator op ns).resultType := rfl
    have hChildren := layOutAll_ungroupAll ns (.operator op ns)
    rw [ungroup] at hChildren
    simp only [ungroup, layOut_operator, hText, hType, hLength, hChildren, Parent.step_ungroup]
  | .call name ns, above, trail => by
    have hText : (Node.call name (ungroupAll ns)).canonical = (Node.call name ns).canonical :=
      canonical_ungroup (.call name ns)
    have hType : (Node.call name (ungroupAll ns)).resultType =
        (Node.call name ns).resultType := rfl
    have hChildren := layOutAll_ungroupAll ns (.call name ns)
    rw [ungroup] at hChildren
    simp only [ungroup, layOut_call, hText, hType, hChildren, Parent.step_ungroup]

theorem layOutAll_ungroupAll : (ns : List Node) → (node : Node) → (text : String) →
    (trail : Address) → (k : Nat) →
    layOutAll style node.ungroup text trail k (ungroupAll ns) = layOutAll style node text trail k ns
  | [], _, _, _, _ => by rw [ungroupAll, layOutAll, layOutAll]
  | n :: ns, node, text, trail, k => by
    have hFirst : n.ungroup.layOut style (some ⟨node.ungroup, text, k⟩) trail =
        n.layOut style (some ⟨node, text, k⟩) trail :=
      layOut_ungroup n (some ⟨node, text, k⟩) trail
    rw [ungroupAll, layOutAll, layOutAll, hFirst, layOutAll_ungroupAll ns]

end

end Node

namespace Style

variable (style : Style K)

theorem layOut_congr {n m : Node} (h : n.ungroup = m.ungroup) :
    style.layOut n = style.layOut m := by
  have hn := Node.layOut_ungroup style n none .empty
  have hm := Node.layOut_ungroup style m none .empty
  rw [layOut, layOut, ← hn, ← hm, h]

theorem layOutText_of_read {text : String} {n : Node} (h : Node.read text = .ok n) :
    style.layOutText text = style.layOut n := by
  rw [layOutText, h]

/-- A text lays out as its canonical text does, to the same tree or with the same fault, and so
does every text with that canonical text. -/
theorem layOutText_canonical {text : String} {n : Node} (h : Node.read text = .ok n) :
    style.layOutText n.canonical = style.layOutText text ∧
      ∀ {other : String} {m : Node}, Node.read other = .ok m → m.canonical = n.canonical →
        style.layOutText other = style.layOutText text := by
  have hReadable := Node.readable_of_read h
  constructor
  · rw [layOutText_of_read style (Node.read_canonical hReadable), layOutText_of_read style h]
    exact layOut_congr style (Node.ungroup_regroup n)
  · intro other m hOther hText
    rw [layOutText_of_read style hOther, layOutText_of_read style h]
    have hOtherReadable := Node.readable_of_read hOther
    exact layOut_congr style ((Node.canonical_inj hOtherReadable hReadable).mp hText)

/-- Two spellings of one comparison, and one of a power, which has no layout. -/
theorem layOutText_canonical_spellings :
    let style : Style Float := ⟨Settings.standardMetrics, .fixedAdvance 1⟩
    (∃ tree, style.layOutText "(x==\"a\")" = .ok tree ∧
      style.layOutText "((x)) == ('a')" = .ok tree ∧ style.layOutText "x == 'a'" = .ok tree) ∧
    style.layOutText "(x^(-y))" = .error (.unknownOperator "^") ∧
      style.layOutText "x ^ -(y)" = .error (.unknownOperator "^") := by
  intro style
  have hGrouped : Node.read "((x)) == ('a')" = .ok (.operator .eq
      [.group (.group (.symbol "x")), .group (.literal (.text "a"))]) := by cbv
  have hPlain : Node.read "x == 'a'" = .ok (.operator .eq
      [.symbol "x", .literal (.text "a")]) := by cbv
  have hPower : Node.read "x ^ -(y)" = .ok (.operator .pow
      [.symbol "x", .operator .neg [.group (.symbol "y")]]) := by cbv
  have hTree : ∃ tree, style.layOutText "x == 'a'" = .ok tree := by
    rw [layOutText, hPlain]
    exact ⟨_, rfl⟩
  obtain ⟨tree, hTree⟩ := hTree
  obtain ⟨hCanonical, hOthers⟩ := layOutText_canonical style hPlain
  obtain ⟨hPowerCanonical, -⟩ := layOutText_canonical style hPower
  have hText : (Node.operator .eq [.symbol "x", .literal (.text "a")]).canonical =
      "(x==\"a\")" := by decide
  have hPowerText : (Node.operator .pow
      [.symbol "x", .operator .neg [.group (.symbol "y")]]).canonical = "(x^(-y))" := by decide
  have hFault : style.layOutText "x ^ -(y)" = .error (.unknownOperator "^") := by
    rw [layOutText, hPower]
    rfl
  rw [hText] at hCanonical
  rw [hPowerText] at hPowerCanonical
  refine ⟨⟨tree, hCanonical.trans hTree, ?_, hTree⟩, hPowerCanonical.trans hFault, hFault⟩
  exact (hOthers hGrouped (by decide)).trans hTree

end Style

end Blockwork
