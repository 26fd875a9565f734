import Blockwork.Proofs.Board.Begin
import Blockwork.Proofs.Board.Drop

/-! # Reachable sessions

A program makes a session and then calls operations on it, in any order; those that fail leave a
session too. Whatever is reached that way is consistent.
-/

set_option autoImplicit false

namespace Blockwork

/-- A call of a program that may change a session. -/
inductive Operation (K : Type) where
  | addExpression (text : String) (origin : Point K)
  | beginDrag (source : Source) (point : Point K)
  | pointerDown (point : Point K)
  | pointerMove (point : Point K)
  | onFrame
  | pointerUp (point : Point K)
  | pointerCancel
  | scrollCanvas (scroll : Offset K)
  | scrollPalette (scroll : Offset K)
  | refresh

variable {K : Type} [Scalar K]

theorem Palette.laid_of_layTemplates {style : Style K} {templates : List (Template K)}
    {trees : List (BlockTree K)} (h : layTemplates style templates = .ok trees) :
    ∀ t ∈ trees, ∃ text tree, style.layOutText text = .ok tree ∧ t.root = tree.root := by
  induction templates generalizing trees with
  | nil =>
    obtain rfl := Except.ok.inj h
    nofun
  | cons template rest ih =>
    rw [layTemplates] at h
    split at h
    · cases h
    · rename_i tree hTree
      split at h
      · cases h
      · rename_i later hLater
        obtain rfl := Except.ok.inj h
        intro t ht
        rcases List.mem_cons.mp ht with rfl | ht
        · exact ⟨template.expression, tree, hTree, rfl⟩
        · exact ih hLater t ht

theorem Palette.laid_of_build {style : Style K} {templates : List (Template K)}
    {palette : Palette K} (h : build style templates = .ok palette) :
    ∀ t ∈ palette.templates,
      ∃ text tree, style.layOutText text = .ok tree ∧ t.root = tree.root := by
  rw [build] at h
  cases hTrees : layTemplates style templates with
  | error e =>
    rw [hTrees] at h
    cases h
  | ok trees =>
    rw [hTrees] at h
    obtain rfl := Except.ok.inj h
    exact laid_of_layTemplates hTrees

theorem Palette.stored_build {style : Style K} {templates : List (Template K)}
    {palette : Palette K} (h : build style templates = .ok palette) :
    ∀ t ∈ palette.templates, Stored t.expression := by
  intro t ht
  obtain ⟨text, tree, hTree, hRoot⟩ := laid_of_build h t ht
  have hText : t.expression = tree.expression := congrArg (·.frame.expression) hRoot
  rw [hText]
  exact Stored.of_layOut hTree

namespace Session

def apply (s : Session K) : Operation K → Session K
  | .addExpression text origin => (s.addExpression text origin).2
  | .beginDrag source point => (s.beginDrag source point).2
  | .pointerDown point => (s.pointerDown point).2
  | .pointerMove point => (s.pointerMove point).2
  | .onFrame => s.onFrame.2
  | .pointerUp point => (s.pointerUp point).2
  | .pointerCancel => s.pointerCancel.2
  | .scrollCanvas scroll => s.scrollCanvas scroll
  | .scrollPalette scroll => s.scrollPalette scroll
  | .refresh => s.refresh

def run (s : Session K) (operations : List (Operation K)) : Session K := operations.foldl apply s

def blank (settings : Settings K) (style : Style K) (palette : Palette K) : Session K where
  settings := settings
  style := style
  palette := palette
  placed := .empty
  canvas := .empty
  viewport := .ofWidth settings.paletteWidth
  drag := none
  framePending := false

inductive Reachable : Session K → Prop where
  | new {settings : Settings K} {fonts : Fonts K} {s : Session K}
      (h : new settings fonts = .ok s) : Reachable s
  | apply {s : Session K} (h : Reachable s) (operation : Operation K) :
      Reachable (s.apply operation)

section

variable {s : Session K}

theorem new_inv {settings : Settings K} {fonts : Fonts K}
    (h : new settings fonts = .ok s) :
    ∃ style palette, Palette.build style settings.templates = .ok palette ∧
      s = .blank settings style palette := by
  simp only [new, bind, Except.bind] at h
  split at h
  · cases h
  · rename_i style _
    split at h
    · cases h
    · split at h
      · cases h
      · rename_i palette hPalette
        obtain rfl := Except.ok.inj h
        exact ⟨style, palette, hPalette, rfl⟩

theorem consistent_new {settings : Settings K} {fonts : Fonts K}
    (h : new settings fonts = .ok s) : s.Consistent := by
  obtain ⟨style, palette, hPalette, rfl⟩ := new_inv h
  constructor
  · nofun
  · rfl
  · exact Collection.ordered_empty
  · exact Palette.stored_build hPalette
  · nofun

theorem Consistent.pointerUp (h : s.Consistent) (point : Point K) :
    (s.pointerUp point).2.Consistent := by
  rw [Session.pointerUp]
  split
  · exact h
  · rename_i d hd
    exact (h.withDrag ((h.drag d hd).sampled point)).finishDrag

theorem Consistent.apply (h : s.Consistent) (operation : Operation K) :
    (s.apply operation).Consistent := by
  cases operation with
  | addExpression text origin => exact h.addExpression text origin
  | beginDrag source point => exact h.beginDrag source point
  | pointerDown point => exact h.pointerDown point
  | pointerMove point => exact h.pointerMove point
  | onFrame => exact h.onFrame
  | pointerUp point => exact h.pointerUp point
  | pointerCancel => exact h.finishDrag
  | scrollCanvas scroll => exact { h with }
  | scrollPalette scroll => exact { h with }
  | refresh => exact h.refresh

/-- Every run keeps its session consistent. -/
theorem Reachable.consistent (h : s.Reachable) : s.Consistent := by
  induction h with
  | new h => exact consistent_new h
  | apply _ operation ih => exact ih.apply operation

theorem Reachable.run (h : s.Reachable) (operations : List (Operation K)) :
    (s.run operations).Reachable := by
  induction operations generalizing s with
  | nil => exact h
  | cons operation operations ih => exact ih (h.apply operation)

theorem Reachable.addExpression (h : s.Reachable) {text : String} {n : Node}
    (hRead : Node.read text = .ok n) (hShown : n.Shown) (origin : Point K) :
    let next := s.placed.add ⟨n.canonical, origin⟩
    Reachable { s with placed := next, canvas := .build s.style next } := by
  intro next
  have hApplied := h.apply (.addExpression text origin)
  rw [Session.apply, h.consistent.addExpression_eq hRead hShown origin] at hApplied
  exact hApplied

/-- On every run the collection, the canvas and the drag agree. -/
theorem Reachable.agreement (h : s.Reachable) :
    (∀ id p, (id, p) ∈ s.placed.entries →
      (∃ n, Node.read p.expression = .ok n ∧ n.canonical = p.expression) ∧
        ∃ tree, s.style.layOutText p.expression = .ok tree) ∧
      s.canvas.unlit = .build s.style s.placed ∧ s.canvas.skipped = [] ∧
      ∀ d id, s.drag = some d → d.owner = some id →
        ∃ p, s.placed.get? id = some p ∧ p.expression = d.expression := by
  have hConsistent := h.consistent
  refine ⟨?_, hConsistent.canvas, ?_, ?_⟩
  · intro id p hp
    have hStored := hConsistent.stored _ hp
    constructor
    · obtain ⟨n, hRead, hCanonical, -⟩ := hStored.read
      exact ⟨n, hRead, hCanonical⟩
    · exact hStored.exists_layOut s.style
  · have hSkipped : s.canvas.unlit.skipped = [] := by
      rw [hConsistent.canvas]
      exact Canvas.skipped_build hConsistent.stored
    exact hSkipped
  · intro d id hd hid
    exact (hConsistent.drag d hd).owner id hid

end

def bare : Session Float :=
  blank { Settings.standard with templates := [] }
    ⟨Settings.standardMetrics, .fixedAdvance ((3 : Nat) / (5 : Nat))⟩ ⟨[]⟩

theorem new_bare :
    new { Settings.standard with templates := [] } (.ofReadable fun _ => true) = .ok bare :=
  rfl

theorem reachable_bare : bare.Reachable :=
  .new new_bare

theorem shown_sum (left right : String) :
    Node.Shown (.operator .add [.symbol left, .symbol right]) := by
  apply Node.Shown.operator rfl
  simp [Node.Shown.symbol]

theorem Reachable.agreement_sum :
    ∃ s : Session Float, s.Reachable ∧ s.placed.entries = [(0, ⟨"(x+y)", .origin⟩)] ∧
      s.canvas.unlit = .build s.style s.placed ∧ s.canvas.skipped = [] ∧
      ∃ tree, s.style.layOutText "(x+y)" = .ok tree := by
  have hRead : Node.read "x + y" = .ok (.operator .add [.symbol "x", .symbol "y"]) := by cbv
  have hReachable := reachable_bare.addExpression hRead (shown_sum "x" "y") .origin
  obtain ⟨hTexts, hCanvas, hSkipped, -⟩ := hReachable.agreement
  obtain ⟨-, hTree⟩ := hTexts 0 ⟨"(x+y)", .origin⟩ List.mem_cons_self
  exact ⟨_, hReachable, rfl, hCanvas, hSkipped, hTree⟩

end Session

end Blockwork
