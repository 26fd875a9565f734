import Blockwork.Proofs.Block.Ring
import Blockwork.Proofs.Board.Drawn
import Blockwork.Proofs.Board.Preview

/-! # What is lit

While something is dragged, at most one leaf of the canvas is lit, the one that the drag has met,
and of the dragged tree only the root. The canvas is dark when nothing is dragged, whatever was
done to the collection behind its back.
-/

set_option autoImplicit false

namespace Blockwork

variable {K : Type}

theorem Canvas.modify_cases (c : Canvas K) (id : Nat) (change : BlockTree K → BlockTree K) :
    (c.modify id change).entries = c.entries ∨
      ∃ before e after, c.entries = before ++ e :: after ∧
        (c.modify id change).entries = before ++ { e with tree := change e.tree } :: after ∧
        e.id = id ∧ ∀ f ∈ before, f.id ≠ id := by
  rw [modify]
  dsimp only
  induction c.entries with
  | nil => exact .inl rfl
  | cons e rest ih =>
    rw [modify.go]
    split
    · rename_i hId
      exact .inr ⟨[], e, rest, rfl, rfl, hId, List.forall_mem_nil _⟩
    · rename_i hId
      rcases ih with hSame | ⟨before, f, after, hRest, hGo, hf, hBefore⟩
      · exact .inl (by rw [hSame])
      · refine .inr ⟨e :: before, f, after, by rw [hRest]; rfl, by rw [hGo]; rfl, hf, ?_⟩
        exact List.forall_mem_cons.mpr ⟨hId, hBefore⟩

variable [Scalar K]

namespace Canvas

def Lit (c : Canvas K) (place block : Nat) (e : CanvasEntry K) (b : Block K) : Prop :=
  c.entries[place]? = some e ∧ e.tree.block? block = some b ∧ b.frame.highlight ≠ .none

def ringTree (met : Collision) (t : BlockTree K) : BlockTree K :=
  t.modify met.leaf.block (Block.withRing (Session.Collision.tint met) ((1 : Nat) : K))

def ringed (c : Canvas K) (met : Collision) : Canvas K :=
  c.modify met.leaf.placed (ringTree met)

section

variable {c : Canvas K} {met : Collision} {place block : Nat} {e : CanvasEntry K} {b : Block K}

theorem unlit_of_mem (hDark : c.unlit = c) (he : e ∈ c.entries) : e.tree.unlit = e.tree := by
  rw [← hDark] at he
  obtain ⟨f, -, rfl⟩ := List.mem_map.mp he
  exact f.tree.unlit_unlit

theorem not_lit_of_unlit (hDark : c.unlit = c) : ¬ c.Lit place block e b := by
  rintro ⟨he, hb, hLit⟩
  have hTree := unlit_of_mem hDark (List.mem_of_getElem? he)
  exact hLit (BlockTree.highlight_of_unlit hTree hb)

/-- On a dark canvas the ring of a collision lights one leaf. -/
theorem exists_place_ringed (c : Canvas K) (hDark : c.unlit = c) (met : Collision) :
    ∃ first, ∀ {place block e b}, (c.ringed met).Lit place block e b →
      place = first ∧ met.leaf = ⟨e.id, block⟩ ∧ (c.ringed met).tree? e.id = some e.tree ∧
        b.isLeaf = true ∧
        b.frame.highlight = ⟨Session.Collision.tint met, ((1 : Nat) : K), .static, .static⟩ := by
  rcases c.modify_cases met.leaf.placed (ringTree met) with
    hSame | ⟨before, f, after, hEntries, hRinged, hId, hBefore⟩
  · refine ⟨0, ?_⟩
    rintro place block e b ⟨he, hb, hLit⟩
    rw [ringed, hSame] at he
    exact (not_lit_of_unlit hDark ⟨he, hb, hLit⟩).elim
  · refine ⟨before.length, ?_⟩
    rintro place block e b ⟨he, hb, hLit⟩
    rw [ringed, hRinged] at he
    have hDarkTree : ∀ g ∈ before ++ f :: after, g.tree.unlit = g.tree := by
      rw [← hEntries]
      exact fun g => unlit_of_mem hDark
    rcases Nat.lt_trichotomy place before.length with hLow | rfl | hHigh
    · rw [List.getElem?_append_left hLow] at he
      have hTree := hDarkTree e (List.mem_append_left _ (List.mem_of_getElem? he))
      exact absurd (BlockTree.highlight_of_unlit hTree hb) hLit
    · rw [List.getElem?_append_right le_rfl, Nat.sub_self] at he
      obtain rfl := Option.some.inj he
      have hTree := hDarkTree f (List.mem_append_right _ List.mem_cons_self)
      obtain ⟨rfl, hLeaf, hRing⟩ := BlockTree.highlight_modify_withRing hTree hb hLit
      refine ⟨rfl, by rw [hId], ?_, hLeaf, hRing⟩
      rw [tree?, ringed, hRinged, List.find?_append, List.find?_eq_none.mpr, Option.none_or,
        List.find?_cons_of_pos (by simp)]
      · rfl
      · intro g hg
        simpa [hId] using hBefore g hg
    · obtain ⟨k, rfl⟩ : ∃ k, place = before.length + (k + 1) :=
        ⟨place - before.length - 1, by omega⟩
      rw [List.getElem?_append_right (by omega), Nat.add_sub_cancel_left,
        List.getElem?_cons_succ] at he
      have hMem := List.mem_append_right before (List.mem_cons_of_mem f (List.mem_of_getElem? he))
      exact absurd (BlockTree.highlight_of_unlit (hDarkTree e hMem) hb) hLit

end

end Canvas

namespace Session

/-- Only the leaf that a drag has met is lit, and only the root of what is dragged. -/
structure Shines (s : Session K) : Prop where
  canvas : s.canvas.unlit = s.canvas ∨ ∃ d met, s.drag = some d ∧ d.collision = some met ∧
    s.canvas = s.canvas.unlit.ringed met
  drag : ∀ d, s.drag = some d → d.tree.root.DarkBelow

section

variable {s : Session K}

theorem Shines.dark (h : s.Shines) (hIdle : s.drag = none) : s.canvas.unlit = s.canvas := by
  rcases h.canvas with hDark | ⟨d, met, hd, -⟩
  · exact hDark
  · rw [hIdle] at hd
    cases hd

/-- A canvas that is laid out anew is dark. -/
theorem Shines.build (h : s.Shines) (next : Collection K) :
    Shines { s with placed := next, canvas := .build s.style next } :=
  ⟨.inl (Canvas.unlit_build s.style next), h.drag⟩

theorem shines_freed (s : Session K) : s.freed.Shines :=
  ⟨.inl s.canvas.unlit_unlit, nofun⟩

theorem shines_lift {d : Detached K} (hDark : s.canvas.unlit = s.canvas)
    (hTree : d.tree.unlit = d.tree) (point : Point K) : (s.lift d point).Shines := by
  refine ⟨.inl hDark, ?_⟩
  rintro e he
  obtain rfl := Option.some.inj he
  exact (Block.darkBelow_of_unlit (congrArg BlockTree.root hTree)).withBackground .dragging

theorem Shines.beginDrag (h : s.Shines) (source : Source) (point : Point K) :
    (s.beginDrag source point).2.Shines := by
  unfold Session.beginDrag
  split
  · exact h
  · rename_i hIdle
    have hDark := h.dark (Option.not_isSome_iff_eq_none.mp hIdle)
    cases source with
    | template index =>
      dsimp only
      split
      · exact h
      · split
        · exact h
        · rename_i tree hTree
          exact shines_lift hDark (BlockTree.unlit_of_layOutText tree hTree) point
    | canvas placed block =>
      dsimp only
      split
      · exact h
      · rename_i d after hDetach
        obtain ⟨tree, e, -, -, ⟨-, rfl, hTree⟩ | ⟨-, -, hPiece, next, rfl⟩⟩ := detach_inv hDetach
        · exact shines_lift hDark (by rw [hTree, BlockTree.unlit_unlit]) point
        · exact shines_lift (Canvas.unlit_build s.style next)
            (BlockTree.unlit_of_layOutText d.tree hPiece) point

theorem Shines.pointerDown (h : s.Shines) (point : Point K) : (s.pointerDown point).2.Shines := by
  rw [Session.pointerDown]
  split
  · exact h
  · split
    · exact h
    · rename_i source _
      have hBegin := h.beginDrag source point
      split
      · rename_i fault after hFault
        rwa [hFault] at hBegin
      · rename_i began after hBegan
        rwa [hBegan] at hBegin

theorem Shines.pointerMove (h : s.Shines) (point : Point K) : (s.pointerMove point).2.Shines := by
  cases hd : s.drag with
  | none =>
    rw [Session.pointerMove, hd]
    exact h
  | some d =>
    have hMoved (pending : Bool) :
        Shines { s with
          drag := some { d with pending := some point }, framePending := pending } := by
      refine ⟨?_, ?_⟩
      · rcases h.canvas with hDark | ⟨e, met, he, hMet, hCanvas⟩
        · exact .inl hDark
        · obtain rfl := Option.some.inj (hd.symm.trans he)
          exact .inr ⟨_, met, rfl, hMet, hCanvas⟩
      · rintro e he
        obtain rfl := Option.some.inj he
        exact h.drag d hd
    simp only [Session.pointerMove, hd]
    split
    · exact hMoved s.framePending
    · exact hMoved true

theorem shines_showCollision {d : Drag K} (hTree : d.tree.root.DarkBelow) :
    (s.showCollision d).2.Shines := by
  have hTinted (tint : Tint) (c : Option Collision) (e : Drag K)
      (he : some { d.withHandle tint with collision := c } = some e) : e.tree.root.DarkBelow := by
    obtain rfl := Option.some.inj he
    exact hTree.withHandle tint
  rw [showCollision]
  dsimp only
  split
  · exact ⟨.inl s.canvas.unlit_unlit, hTinted _ _⟩
  · rename_i met _
    refine ⟨.inr ⟨_, met, rfl, rfl, ?_⟩, hTinted _ _⟩
    have hUnlit : (s.canvas.unlit.ringed met).unlit = s.canvas.unlit := by
      have hRing (t : BlockTree K) : (Canvas.ringTree met t).unlit = t.unlit :=
        BlockTree.unlit_modify t (fun b => Block.unlit_withRing b _ _) _
      rw [Canvas.ringed, Canvas.unlit_modify _ hRing, Canvas.unlit_unlit]
    exact congrArg (Canvas.ringed · met) hUnlit.symm

theorem Shines.onFrame (h : s.Shines) : s.onFrame.2.Shines := by
  rw [Session.onFrame]
  dsimp only
  split
  · exact ⟨h.canvas, h.drag⟩
  · rename_i d hd
    split
    · exact ⟨h.canvas, h.drag⟩
    · apply shines_showCollision
      have hRoot : d.settled.tree.root = d.tree.root := by
        rw [Drag.settled]
        split <;> rfl
      rw [hRoot]
      exact h.drag d hd

theorem Shines.release (h : s.Shines) (release : Release K) : (s.release release).2.Shines := by
  cases hd : s.drag with
  | none =>
    rw [release_of_idle hd]
    exact h
  | some d =>
    rcases release_cases hd release with ⟨answer, hRelease⟩ | ⟨outcome, next, hRelease, -⟩
    · rw [hRelease]
      exact s.shines_freed
    · rw [hRelease]
      exact s.shines_freed.build next

theorem Shines.apply (h : s.Shines) (operation : Operation K) : (s.apply operation).Shines := by
  cases operation with
  | addExpression text origin =>
    rw [Session.apply]
    rcases s.addExpression_cases text origin with ⟨fault, hAdd⟩ | ⟨next, hAdd⟩
    · rw [hAdd]
      exact h
    · rw [hAdd]
      exact h.build next
  | beginDrag source point => exact h.beginDrag source point
  | pointerDown point => exact h.pointerDown point
  | pointerMove point => exact h.pointerMove point
  | onFrame => exact h.onFrame
  | pointerUp point => exact h.release (.up point)
  | pointerCancel => exact h.release .cancel
  | scrollCanvas | scrollPalette => exact ⟨h.canvas, h.drag⟩
  | refresh => exact h.build s.placed

theorem Attainable.shines (h : s.Attainable) : s.Shines := by
  induction h with
  | new h =>
    obtain ⟨style, palette, -, rfl⟩ := new_inv h
    exact ⟨.inl rfl, nofun⟩
  | apply _ operation ih => exact ih.apply operation
  | edit _ _ ih => exact ⟨ih.canvas, ih.drag⟩

/-- At most one block of the canvas is lit, the leaf of the collision; without a drag none is, and
of the dragged tree the root alone can be. -/
theorem Attainable.highlights (h : s.Attainable) :
    (∀ i j k l e f b c, s.canvas.Lit i k e b → s.canvas.Lit j l f c → i = j ∧ k = l) ∧
    (∀ i k e b, s.canvas.Lit i k e b → b.isLeaf = true ∧ ∃ d met, s.drag = some d ∧
      d.collision = some met ∧ met.leaf = ⟨e.id, k⟩ ∧ s.canvas.tree? e.id = some e.tree ∧
      b.frame.highlight =
        ⟨if met.agrees then .matched else .mismatched, ((1 : Nat) : K), .static, .static⟩) ∧
    (s.drag = none → ∀ e ∈ s.canvas.entries, ∀ k b, e.tree.block? k = some b →
      b.frame.highlight = .none) ∧
    ∀ d, s.drag = some d → ∀ k b, d.tree.block? k = some b → k ≠ d.tree.rootId →
      b.frame.highlight = .none := by
  have hShines := h.shines
  refine ⟨?_, ?_, ?_, ?_⟩
  · intro i j k l e f b c hFirst hSecond
    rcases hShines.canvas with hDark | ⟨d, met, -, -, hCanvas⟩
    · exact absurd hFirst (Canvas.not_lit_of_unlit hDark)
    · obtain ⟨first, hOnly⟩ := s.canvas.unlit.exists_place_ringed s.canvas.unlit_unlit met
      rw [hCanvas] at hFirst hSecond
      obtain ⟨rfl, hLeft, -⟩ := hOnly hFirst
      obtain ⟨rfl, hRight, -⟩ := hOnly hSecond
      exact ⟨rfl, congrArg LeafRef.block (hLeft.symm.trans hRight)⟩
  · intro i k e b hLit
    rcases hShines.canvas with hDark | ⟨d, met, hd, hMet, hCanvas⟩
    · exact absurd hLit (Canvas.not_lit_of_unlit hDark)
    · obtain ⟨first, hOnly⟩ := s.canvas.unlit.exists_place_ringed s.canvas.unlit_unlit met
      rw [← hCanvas] at hOnly
      obtain ⟨-, hLeaf, hTree, hIsLeaf, hRing⟩ := hOnly hLit
      exact ⟨hIsLeaf, d, met, hd, hMet, hLeaf, hTree, hRing⟩
  · intro hIdle e he k b hb
    exact BlockTree.highlight_of_unlit (Canvas.unlit_of_mem (hShines.dark hIdle) he) hb
  · intro d hd k b hb hInner
    exact BlockTree.highlight_of_darkBelow (hShines.drag d hd) hb hInner

end

def litSum (first second : BlockTree Float) : Session Float :=
  (((draggedSum first second).apply (.pointerMove ⟨(316 : Nat), (100 : Nat)⟩)).editPlaced
    .clear).apply .onFrame

theorem exists_litSum :
    ∃ first second, bare.style.layOutText "(x+y)" = .ok first ∧
      bare.style.layOutText "(a+b)" = .ok second ∧
      ((litSum first second).canvas.entries[1]?.bind fun e =>
        (e.tree.block? 0).map fun b => (e.id, b.frame.highlight.ring)) = some (1, .matched) := by
  have hx : Node.read "(x+y)" = .ok (.group (.operator .add [.symbol "x", .symbol "y"])) := by cbv
  have ha : Node.read "(a+b)" = .ok (.group (.operator .add [.symbol "a", .symbol "b"])) := by cbv
  rw [Style.layOutText, hx, Style.layOutText, ha]
  refine ⟨_, _, rfl, rfl, ?_⟩
  decide +kernel

theorem Attainable.highlights_litSum :
    ∃ (s : Session Float) (e : CanvasEntry Float) (b : Block Float) (d : Drag Float)
      (met : Collision), s.Attainable ∧ s.canvas.Lit 1 0 e b ∧
        b.frame.highlight.ring = .matched ∧ s.drag = some d ∧ d.collision = some met ∧
        met.leaf = ⟨1, 0⟩ := by
  obtain ⟨first, second, hFirst, hSecond, hShown⟩ := exists_litSum
  have hAttainable : (litSum first second).Attainable :=
    (((reachable_draggedSum hFirst hSecond).attainable.apply _).edit _).apply _
  obtain ⟨e, he, hShown⟩ := Option.bind_eq_some_iff.mp hShown
  obtain ⟨b, hb, hShown⟩ := Option.map_eq_some_iff.mp hShown
  obtain ⟨hId, hRing⟩ := Prod.mk.inj hShown
  have hLit : (litSum first second).canvas.Lit 1 0 e b := by
    refine ⟨he, hb, ?_⟩
    intro hNone
    rw [hNone] at hRing
    cases hRing
  obtain ⟨-, d, met, hd, hMet, hLeaf, -⟩ := hAttainable.highlights.2.1 1 0 e b hLit
  rw [hId] at hLeaf
  exact ⟨_, e, b, d, met, hAttainable, hLit, hRing, hd, hMet, hLeaf⟩

end Session

end Blockwork
