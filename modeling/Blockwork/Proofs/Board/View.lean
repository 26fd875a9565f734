import Mathlib.Algebra.Order.Field.Basic
import Mathlib.Tactic.Ring
import Blockwork.Proofs.Block.Numbering
import Blockwork.Proofs.Board.Feedback
import Blockwork.Proofs.Scene.Drawing

/-! # What a drag begins at

A source is seen on the screen as a block of a tree that is shifted. In exact arithmetic a drag
begins with the block where it is seen, and with all that is below it: the maps between the palette,
the canvas and the screen agree with the shifts, and the layout of a branch on its own is a twin of
the branch.
-/

set_option autoImplicit false

namespace Blockwork

/-- What is seen of the source of a drag: the tree that the block is in, with its shift on the
screen. -/
structure View (K : Type) where
  tree : BlockTree K
  shift : Offset K
  block : Nat

variable {K : Type}

theorem Canvas.exists_entry {c : Canvas K} {id : Nat} {t : BlockTree K}
    (h : c.tree? id = some t) : ∃ e ∈ c.entries, e.tree = t := by
  obtain ⟨e, he, hTree⟩ := Option.map_eq_some_iff.mp h
  exact ⟨e, List.mem_of_find?_eq_some he, hTree⟩

variable [Scalar K]

namespace View

def place (v : View K) (e : Entry K) : Point K := v.tree.originOf e + v.shift

structure Moved (v : View K) (before : Session K) (t : BlockTree K) (after : Session K)
    (shift displacement : Offset K) : Prop where
  numbers : t.rootId ≤ v.block
  blocks : ∀ k e, t.entry? k = some e →
    ∃ f, v.tree.entry? (v.block - t.rootId + k) = some f ∧ f.block.Matches e.block ∧
      before.Draws f.block (v.place f) ∧ t.originOf e + shift = v.place f + displacement ∧
      after.Draws e.block (v.place f + displacement)

/-- A drag of the block of a view that began with the pointer at a point. -/
structure Lifts (v : View K) (style : Style K) (start : Point K) (d : Drag K) : Prop where
  twin : ∃ top ρ, (Spot.ofRoot v.tree.root).descend top = some ρ ∧ ρ.entry.id = v.block ∧
    d.tree.root.Twins ρ.block ∧ d.grab = start - (ρ.place v.tree.origin + v.shift)
  laid : ∃ tree, style.layOutText d.expression = .ok tree ∧ d.tree.root.unlit = tree.root

theorem Lifts.of_core {v : View K} {style : Style K} {start : Point K} {d e : Drag K}
    (h : v.Lifts style start d) (hCore : e.core = d.core) : v.Lifts style start e := by
  obtain ⟨⟨top, ρ, hρ, hId, hTwins, hGrab⟩, tree, hTree, hRoot⟩ := h
  have hSame := (Drag.follows_of_core hCore).root
  have hText : e.expression = d.expression := Block.expression_of_unlit hSame
  have hHeld : e.core.grab = d.core.grab := congrArg Drag.grab hCore
  have hHeld : e.grab = d.grab := hHeld
  refine ⟨⟨top, ρ, hρ, hId, (Block.twins_of_unlit hSame).trans hTwins, hHeld.trans hGrab⟩, tree, ?_,
    hSame.trans hRoot⟩
  rw [hText, hTree]

end View

namespace Session

def view? (s : Session K) : Source → Option (View K)
  | .template index =>
    s.palette.templates[index]?.map fun t => ⟨t, -s.viewport.paletteScroll, t.rootId⟩
  | .canvas placed block =>
    (s.canvas.tree? placed).map fun t => ⟨t, s.viewport.canvasOffset, block⟩

section

variable {s : Session K}

theorem Reachable.palette (h : s.Reachable) :
    ∀ t ∈ s.palette.templates,
      ∃ tree, s.style.layOutText t.expression = .ok tree ∧ t.root = tree.root := by
  induction h with
  | new h =>
    obtain ⟨style, palette, hPalette, rfl⟩ := new_inv h
    intro t ht
    obtain ⟨text, tree, hTree, hRoot⟩ := Palette.laid_of_build hPalette t ht
    have hText : t.expression = tree.expression := congrArg (·.frame.expression) hRoot
    refine ⟨tree, ?_, hRoot⟩
    rw [hText]
    exact Style.layOutText_expression hTree
  | @apply s hReachable operation ih =>
    obtain ⟨hKeeps, -⟩ := hReachable.consistent.effect operation
    rw [hKeeps.style, hKeeps.palette]
    exact ih

end

end Session

variable {F : Type} [Field F] [LinearOrder F] [IsStrictOrderedRing F]

theorem Spot.place_ofRoot {b : Block F} (h : b.frame.offset = .zero) (origin : Point F) :
    (ofRoot b).place origin = origin := by
  have hTop : (ofRoot b).place origin = origin + b.frame.offset := rfl
  rw [hTop, h, Point.add_zero_offset]

theorem Viewport.paletteToGlobal_eq (v : Viewport F) (p : Point F) :
    v.paletteToGlobal p = p + -v.paletteScroll :=
  Point.eq_of_coordinates (sub_eq_add_neg p.x _) (sub_eq_add_neg p.y _)

theorem Viewport.canvasToGlobal_eq (v : Viewport F) (p : Point F) :
    v.canvasToGlobal p = p + v.canvasOffset := by
  apply Point.eq_of_coordinates
  · show v.paletteWidth + p.x - v.canvasScroll.x = p.x + (v.paletteWidth - v.canvasScroll.x)
    ring
  · show p.y - v.canvasScroll.y = p.y + ((0 : Nat) - v.canvasScroll.y)
    rw [Nat.cast_zero]
    ring

namespace View

variable {v : View F} {style : Style F} {start : Point F} {d : Drag F}

theorem Lifts.exists_entry (h : v.Lifts style start d) :
    ∃ e, v.tree.entry? v.block = some e ∧ v.place e = start - d.grab := by
  obtain ⟨⟨top, ρ, hρ, hId, -, hGrab⟩, -⟩ := h
  refine ⟨ρ.entry, ?_, ?_⟩
  · rw [← hId]
    exact BlockTree.lookup_spot hρ
  · rw [hGrab, Point.sub_sub_self]
    rfl

/-- What is dragged has all blocks of the view, whatever shift and displacement its root has. -/
theorem Lifts.moved (h : v.Lifts style start d) {t : BlockTree F}
    (hRoot : t.root.unlit = d.tree.root.unlit) {before after : Session F}
    (hBefore : before.DrawsTree v.tree v.shift) {shift displacement : Offset F}
    (hAfter : after.DrawsTree t shift)
    (hOrigin : t.origin + shift = start - d.grab + displacement) :
    v.Moved before t after shift displacement := by
  obtain ⟨⟨top, ρ, hρ, hId, hTwins, hGrab⟩, tree, hTree, hLaid⟩ := h
  have hTwins := (Block.twins_of_unlit hRoot).trans hTwins
  have hOffset : t.root.frame.offset = .zero := by
    have hSame := congrArg (fun b => b.frame.offset) (hRoot.trans hLaid)
    rw [Style.offset_of_layOutText hTree] at hSame
    cases hBlock : t.root <;> rw [hBlock] at hSame <;> exact hSame
  have hPlace : (Spot.ofRoot t.root).place t.origin =
      ρ.place v.tree.origin + (t.origin - ρ.place v.tree.origin) := by
    rw [Spot.place_ofRoot hOffset, Point.add_sub_self]
  have hCount := hTwins.count_eq
  have hLast := ρ.id_entry_add_one
  have hPos := t.root.count_pos
  have hRootId : t.rootId = t.root.count - 1 := rfl
  have hFirst : v.block - t.rootId = ρ.first := by omega
  constructor
  · omega
  · intro k e he
    obtain ⟨f, hf, hLooks, hApart⟩ := BlockTree.exists_twin hρ hTwins hPlace he
    have hMoved : t.originOf e + shift = v.place f + displacement := by
      rw [hGrab, Point.sub_sub_self] at hOrigin
      rw [hApart, Point.displaced hOrigin]
      rfl
    refine ⟨f, ?_, hLooks.toMatches.symm, hBefore.draws hf, hMoved, ?_⟩
    · rwa [hFirst]
    · rw [← hMoved]
      exact hAfter.draws he

end View

namespace Session

structure Lifted (s : Session F) (source : Source) (start : Point F) (begun : Session F)
    (v : View F) (d : Drag F) : Prop where
  seen : s.view? source = some v
  shown : s.DrawsTree v.tree v.shift
  drag : begun.drag = some d
  lifts : v.Lifts s.style start d
  pending : d.pending = none
  origin : d.tree.origin = start - d.grab

variable {s begun : Session F} {source : Source} {start : Point F}

theorem exists_lifted {after : Session F} {d : Detached F} {v : View F} {top : List Nat}
    {ρ : Spot F} {tree : BlockTree F} (hSeen : s.view? source = some v)
    (hShown : s.DrawsTree v.tree v.shift)
    (hρ : (Spot.ofRoot v.tree.root).descend top = some ρ) (hId : ρ.entry.id = v.block)
    (hTwins : d.tree.root.Twins ρ.block)
    (hPosition : d.position = ρ.place v.tree.origin + v.shift)
    (hTree : s.style.layOutText d.tree.expression = .ok tree)
    (hRoot : d.tree.root.unlit = tree.root) :
    ∃ e, s.Lifted source start (after.lift d start) v e := by
  have hUnlit := Block.unlit_withBackground d.tree.root .dragging
  have hText := Block.expression_withBackground d.tree.root .dragging
  refine ⟨_, hSeen, hShown, rfl, ⟨⟨top, ρ, hρ, hId, ?_, ?_⟩, tree, ?_, ?_⟩, rfl, ?_⟩
  · exact (Block.twins_of_unlit hUnlit).trans hTwins
  · exact congrArg (start - ·) hPosition
  · rw [Drag.expression, BlockTree.expression, hText]
    exact hTree
  · exact hUnlit.trans hRoot
  · exact (Point.sub_sub_self start d.position).symm

theorem Reachable.lifted_template (h : s.Reachable) {index : Nat} {t tree : BlockTree F}
    (hTemplate : s.palette.templates[index]? = some t)
    (hTree : s.style.layOutText t.expression = .ok tree) :
    ∃ v d, s.Lifted (.template index) start
      (s.lift ⟨tree, none, s.viewport.paletteToGlobal t.origin⟩ start) v d := by
  have hMem := List.mem_of_getElem? hTemplate
  obtain ⟨laid, hLaid, hRoot⟩ := h.palette t hMem
  obtain rfl := Except.ok.inj (hTree.symm.trans hLaid)
  have hDark : tree.root.unlit = tree.root :=
    congrArg BlockTree.root (BlockTree.unlit_of_layOutText tree hTree)
  have hOffset := Style.offset_of_layOutText hTree
  rw [← hRoot] at hOffset
  have hSeen : s.view? (.template index) =
      some ⟨t, -s.viewport.paletteScroll, t.rootId⟩ := by
    rw [view?, hTemplate]
    rfl
  have hTop : (Spot.ofRoot t.root).descend [] = some (Spot.ofRoot t.root) := rfl
  refine ⟨_, exists_lifted hSeen (drawsTree_template hMem) hTop t.id_root_entry ?_ ?_
    (Style.layOutText_expression hTree) hDark⟩
  · exact Block.twins_of_unlit (congrArg Block.unlit hRoot.symm)
  · show s.viewport.paletteToGlobal t.origin = _
    rw [Spot.place_ofRoot hOffset, Viewport.paletteToGlobal_eq]

theorem Consistent.lifted_canvas (h : s.Consistent) (hIdle : s.drag = none) {placed block : Nat}
    {d : Detached F} {after : Session F} (hDetaches : s.Detaches placed block d after) :
    ∃ v e, s.Lifted (.canvas placed block) start (after.lift d start) v e := by
  have hShown {t : BlockTree F} (hTree : s.canvas.tree? placed = some t) :
      s.view? (.canvas placed block) = some ⟨t, s.viewport.canvasOffset, block⟩ ∧
        s.DrawsTree t s.viewport.canvasOffset := by
    refine ⟨by rw [view?, hTree]; rfl, ?_⟩
    obtain ⟨e, he, rfl⟩ := Canvas.exists_entry hTree
    apply drawsTree_placed he
    rw [hIdle]
    nofun
  cases hDetaches with
  | @whole tree e hTree hEntry hRoot =>
    obtain ⟨p, laid, -, hLaid, hUnlit⟩ := h.exists_tree hTree
    have hDark : tree.root.unlit = laid.root := congrArg BlockTree.root hUnlit
    have hText : laid.expression = tree.unlit.expression := by rw [hUnlit]; rfl
    subst hRoot
    obtain rfl := Option.some.inj (hEntry.symm.trans tree.entry?_rootId)
    obtain ⟨hSeen, hDrawn⟩ := hShown hTree
    have hTop : (Spot.ofRoot tree.root).descend [] = some (Spot.ofRoot tree.root) := rfl
    refine ⟨_, exists_lifted hSeen hDrawn hTop tree.id_root_entry ?_ ?_
      (hText ▸ Style.layOutText_expression hLaid) ?_⟩
    · exact Block.twins_of_unlit tree.root.unlit_unlit
    · exact Viewport.canvasToGlobal_eq _ _
    · exact tree.root.unlit_unlit.trans hDark
  | @part tree piece e p n r path hTree hEntry hInner hLocated hRead hPiece next hNext =>
    obtain ⟨q, laid, -, hLaid, hUnlit⟩ := h.exists_tree hTree
    have hDark : tree.root.unlit = laid.root := congrArg BlockTree.root hUnlit
    have hId := BlockTree.id_of_lookup hEntry
    obtain ⟨top, ρ, hρ, rfl⟩ := BlockTree.exists_spot hEntry
    -- The tree on the canvas may be lit, and the layout of its text is the same one in the dark.
    have hPath : tree.root.descend top = some ρ.block := Spot.block_of_descend hρ
    have hBlock : laid.root.descend top = some ρ.block.unlit := by
      rw [← hDark, Block.descend_unlit, hPath]
      rfl
    have hAlone : s.style.layOutText ρ.block.unlit.frame.expression = .ok piece := by
      rw [Block.expression_unlit]
      exact hPiece
    have hTwins := (Style.twins_of_descend hLaid hBlock hAlone).trans
      (Block.twins_of_unlit ρ.block.unlit_unlit)
    have hPieceDark : piece.root.unlit = piece.root :=
      congrArg BlockTree.root (BlockTree.unlit_of_layOutText piece hPiece)
    obtain ⟨hSeen, hDrawn⟩ := hShown hTree
    exact ⟨_, exists_lifted hSeen hDrawn hρ hId hTwins (Viewport.canvasToGlobal_eq _ _)
      (Style.layOutText_expression hPiece) hPieceDark⟩

theorem Reachable.begin_lifts (h : s.Reachable)
    (hBegin : s.beginDrag source start = (.ok true, begun)) :
    ∃ v d, s.Lifted source start begun v d := by
  have hConsistent := h.consistent
  obtain ⟨hIdle, ⟨index, t, tree, rfl, hTemplate, hTree, rfl⟩ |
    ⟨placed, block, d, after, rfl, hDetach, rfl⟩⟩ := beginDrag_inv hBegin
  · exact h.lifted_template hTemplate hTree
  · rcases hConsistent.detach_cases placed block with ⟨e, left, hFound, hDetaches⟩ | hMissing
    · cases hDetach.symm.trans hFound
      exact hConsistent.lifted_canvas hIdle hDetaches
    · cases hDetach.symm.trans hMissing

theorem Lifted.moved_begin {v : View F} {d : Drag F} (h : s.Lifted source start begun v d) :
    v.Moved s d.tree begun .zero .zero := by
  apply h.lifts.moved rfl h.shown (drawsTree_drag h.drag)
  rw [h.origin]

end Session

end Blockwork
