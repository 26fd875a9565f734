import Blockwork.Proofs.Board.Failure

/-! # What a canvas shows

A program that edits the collection itself leaves the canvas behind. It is then the canvas of an
earlier collection, so every tree on it is still the layout of a text, highlights apart.
-/

set_option autoImplicit false

namespace Blockwork

variable {K : Type} [Scalar K]

namespace Session

/-- The dark canvas is the one of some collection. -/
def Drawn (s : Session K) : Prop := ∃ c, s.canvas.unlit = .build s.style c

/-- The canvas stays, highlights apart, or it is laid out anew. -/
structure Redraws (s after : Session K) : Prop where
  style : after.style = s.style
  canvas : after.canvas.unlit = s.canvas.unlit ∨ ∃ c, after.canvas = .build s.style c

structure Rebuilds (s after : Session K) : Prop extends Keeps s after where
  canvas : after.canvas.unlit = s.canvas.unlit ∨ after.canvas = .build s.style after.placed

section

variable {s after : Session K}

theorem Redraws.drawn (h : s.Redraws after) (hs : s.Drawn) : after.Drawn := by
  rw [Drawn, h.style]
  rcases h.canvas with hSame | ⟨c, hBuilt⟩
  · rw [hSame]
    exact hs
  · exact ⟨c, by rw [hBuilt, Canvas.unlit_build]⟩

theorem Rebuilds.redraws (h : s.Rebuilds after) : s.Redraws after :=
  ⟨h.style, h.canvas.imp_right fun hBuilt => ⟨_, hBuilt⟩⟩

theorem rebuilds_self (s : Session K) : s.Rebuilds s := ⟨⟨rfl, rfl⟩, .inl rfl⟩

theorem detach_inv {placed block : Nat} {d : Detached K}
    (h : s.detach placed block = .ok (d, after)) :
    ∃ tree e, s.canvas.tree? placed = some tree ∧ tree.entry? block = some e ∧
      (block = tree.rootId ∧ after = s ∧ d.tree = tree.unlit ∨
        block ≠ tree.rootId ∧ d.owner = none ∧
          s.style.layOutText e.block.frame.expression = .ok d.tree ∧
          ∃ next, after = { s with placed := next, canvas := .build s.style next }) := by
  rw [detach] at h
  split at h
  · rename_i owner tree _ hTree
    split at h
    · cases h
    · rename_i e hEntry
      dsimp only at h
      refine ⟨tree, e, hTree, hEntry, ?_⟩
      split at h
      · rename_i hRoot
        cases h
        exact .inl ⟨hRoot, rfl, rfl⟩
      · rename_i hInner
        simp only [bind, Except.bind] at h
        split at h
        · cases h
        · split at h
          · cases h
          · rename_i piece hPiece
            split at h
            · cases h
            · rename_i next hCommit
              cases h
              obtain ⟨-, rfl⟩ := commit_inv hCommit
              exact .inr ⟨hInner, rfl, hPiece, _, rfl⟩
  · cases h

theorem begun_rebuilds {source : Source} {point : Point K}
    (h : s.beginDrag source point = (.ok true, after)) : s.Rebuilds after := by
  obtain ⟨-, ⟨index, t, tree, -, -, -, rfl⟩ | ⟨placed, block, d, left, -, hDetach, rfl⟩⟩ :=
    beginDrag_inv h
  · exact ⟨⟨rfl, rfl⟩, .inl rfl⟩
  · obtain ⟨tree, e, -, -, ⟨-, rfl, -⟩ | ⟨-, -, -, next, rfl⟩⟩ := detach_inv hDetach
    · exact ⟨⟨rfl, rfl⟩, .inl rfl⟩
    · exact ⟨⟨rfl, rfl⟩, .inr rfl⟩

theorem feedback_rebuilds (s : Session K) (step : Feedback K) : s.Rebuilds (s.feedback step) := by
  have hCore := core_feedback s step
  have hStyle := congrArg Session.style hCore
  have hPalette := congrArg Session.palette hCore
  have hCanvas := congrArg Session.canvas hCore
  exact ⟨⟨hStyle, hPalette⟩, .inl hCanvas⟩

theorem release_rebuilds (s : Session K) (release : Release K) :
    s.Rebuilds (s.release release).2 := by
  cases hd : s.drag with
  | none =>
    rw [release_of_idle hd]
    exact s.rebuilds_self
  | some d =>
    rcases release_cases hd release with ⟨answer, hRelease⟩ | ⟨outcome, next, hRelease, -⟩
    · rw [hRelease]
      exact ⟨⟨rfl, rfl⟩, .inl s.canvas.unlit_unlit⟩
    · rw [hRelease]
      exact ⟨⟨rfl, rfl⟩, .inr rfl⟩

theorem apply_rebuilds (s : Session K) (operation : Operation K) :
    s.Rebuilds (s.apply operation) := by
  cases operation with
  | addExpression text origin =>
    rw [apply]
    rcases s.addExpression_cases text origin with ⟨fault, hAdd⟩ | ⟨next, hAdd⟩
    · rw [hAdd]
      exact s.rebuilds_self
    · rw [hAdd]
      exact ⟨⟨rfl, rfl⟩, .inr rfl⟩
  | beginDrag source point =>
    rw [apply]
    rcases s.beginDrag_cases source point with ⟨answer, hBegin, -⟩ | ⟨after, d, hBegin, -⟩
    · rw [hBegin]
      exact s.rebuilds_self
    · rw [hBegin]
      exact begun_rebuilds hBegin
  | pointerDown point =>
    rw [apply]
    rcases s.pointerDown_cases point with ⟨answer, hDown⟩ | ⟨source, after, d, hDown, -⟩
    · rw [hDown]
      exact s.rebuilds_self
    · rw [hDown]
      exact begun_rebuilds (down_inv hDown)
  | pointerMove point => exact s.feedback_rebuilds (.move point)
  | onFrame => exact s.feedback_rebuilds .frame
  | pointerUp point => exact s.release_rebuilds (.up point)
  | pointerCancel => exact s.release_rebuilds .cancel
  | scrollCanvas | scrollPalette => exact ⟨⟨rfl, rfl⟩, .inl rfl⟩
  | refresh => exact ⟨⟨rfl, rfl⟩, .inr rfl⟩

theorem apply_redraws (s : Session K) (operation : Operation K) :
    s.Redraws (s.apply operation) :=
  (s.apply_rebuilds operation).redraws

theorem Attainable.drawn (h : s.Attainable) : s.Drawn := by
  induction h with
  | new h =>
    obtain ⟨style, palette, -, rfl⟩ := new_inv h
    exact ⟨.empty, rfl⟩
  | @apply s _ operation ih => exact (s.apply_redraws operation).drawn ih
  | edit _ _ ih => exact ih

/-- A block of the canvas shows a node of the text that its tree stands for. -/
theorem Drawn.exists_shows (h : s.Drawn) {id block : Nat} {t : BlockTree K} {b : Block K}
    (ht : s.canvas.tree? id = some t) (hb : t.block? block = some b) :
    ∃ source n path, Node.read source = .ok n ∧ n.Shown ∧ n.canonical = t.expression ∧
      b.Shows n none .empty path := by
  obtain ⟨c, hCanvas⟩ := h
  have hDark : (Canvas.build s.style c).tree? id = some t.unlit := by
    rw [← hCanvas, Canvas.tree?_unlit, ht]
    rfl
  obtain ⟨e, he, hTree⟩ := Option.map_eq_some_iff.mp hDark
  obtain ⟨p, tree, -, hLayOut, hEntry⟩ := Canvas.mem_entries_go (List.mem_of_find?_eq_some he)
  have hRoot : t.root.unlit = tree.root := congrArg BlockTree.root (hTree.symm.trans hEntry)
  obtain ⟨path, hPath⟩ := BlockTree.exists_descend hb
  obtain ⟨n, hRead, hShown, hText, -, hShows⟩ := Style.exists_shows hLayOut hRoot hPath
  exact ⟨p.expression, n, path, hRead, hShown, hText, hShows⟩

end

end Session

end Blockwork
