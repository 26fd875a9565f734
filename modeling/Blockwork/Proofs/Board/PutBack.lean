import Blockwork.Proofs.Block.WellTyped
import Blockwork.Proofs.Board.Feedback
import Blockwork.Proofs.Expression.Replacement

/-! # Pulling out and putting back

A branch that is pulled out of a placed expression leaves a placeholder of its own type in its
place. Released over that placeholder the branch is put back, and the expression says what it said
before, at the same place; the others never change.
-/

set_option autoImplicit false

namespace Blockwork

variable {K : Type} [Scalar K]

namespace Session

section

variable {s : Session K}

theorem Reachable.feedback (h : s.Reachable) : (step : Feedback K) → (s.feedback step).Reachable
  | .move point => h.apply (.pointerMove point)
  | .frame => h.apply .onFrame

theorem Reachable.feed (h : s.Reachable) (steps : List (Feedback K)) :
    (s.feed steps).Reachable := by
  induction steps generalizing s with
  | nil => exact h
  | cons step steps ih => exact ih (h.feedback step)

section

variable {id : Nat} {b : Block K} {p : Placed K} {n sub : Node} {path : List Nat}

theorem Located.exists_layOut (h : s.Located id b p n path) :
    ∃ (m : Node) (above : Option Parent) (trail : Address) (inner : Block K) (offset : Offset K),
      m.layOut s.style above trail = .ok inner ∧ b.unlit = inner.withOffset offset ∧
        n.ungroup.descend path = some m.ungroup := by
  obtain ⟨tree, hTree, hPath⟩ := h.tree
  obtain ⟨m, root, hRead, hRoot, rfl⟩ := Style.layOutText_inv hTree
  obtain rfl := Except.ok.inj (h.read.symm.trans hRead)
  have hPath : (root.withOffset root.frame.offset).descend path = some b.unlit := by
    rw [Block.withOffset_self]
    exact hPath
  exact Node.layOut_of_descend hRoot hPath

theorem Located.typeIn (h : s.Located id b p n path) (hSub : n.ungroup.descend path = some sub)
    (hOther : ∀ name, sub ≠ .symbol name) (slot : SlotType) :
    sub.typeIn slot = .ok b.frame.type := by
  obtain ⟨m, above, trail, inner, offset, hLayOut, hBlock, hNode⟩ := h.exists_layOut
  obtain rfl := Option.some.inj (hNode.symm.trans hSub)
  rw [Node.typeIn_ungroup, ← Block.type_unlit, hBlock, Block.type_withOffset]
  exact Node.typeIn_of_layOut_of_ne_symbol slot m hLayOut hOther

theorem Located.ne_symbol (h : s.Located id b p n path) (hBranch : b.isLeaf = false)
    (hSub : n.ungroup.descend path = some sub) (name : String) : sub ≠ .symbol name := by
  rintro rfl
  obtain ⟨m, above, trail, inner, offset, hLayOut, hBlock, hNode⟩ := h.exists_layOut
  have hLeaf := Node.isLeaf_of_layOut_symbol m hLayOut (Option.some.inj (hNode.symm.trans hSub))
  rw [← Block.isLeaf_unlit, hBlock, Block.isLeaf_withOffset, hLeaf] at hBranch
  cases hBranch

end

section

variable {id block : Nat} {p : Placed K} {t : BlockTree K} {b : Block K} {path : List Nat}
  {begun : Session K}

/-- What is left when a branch is pulled out: the placeholder at its path, under a new id, and the
branch in the drag. -/
structure Pulled (s begun : Session K) (id : Nat) (p : Placed K) (b : Block K) (n : Node)
    (path : List Nat) (v : Literal) (d : Drag K) : Prop where
  located : s.Located id b p n path
  placeholder : Node.read b.frame.type.placeholder = .ok (.literal v)
  type : v.slotType = .ok b.frame.type
  placed : begun.placed =
    (s.placed.add ⟨(n.ungroup.put path (.literal v)).canonical, p.origin⟩).erase id
  drag : begun.drag = some d
  owner : d.owner = none
  piece : ∃ piece, s.style.layOutText b.frame.expression = .ok piece ∧
    d.tree.root.unlit = piece.root.unlit

theorem Begins.part_inv {point : Point K} {n : Node} (hTree : s.canvas.tree? id = some t)
    (hBlock : t.block? block = some b) (hInner : block ≠ t.rootId)
    (hLocated : s.Located id b p n path) (hBegins : s.Begins point (.canvas id block) begun) :
    ∃ v piece e next, Node.read b.frame.type.placeholder = .ok (.literal v) ∧
      v.slotType = .ok b.frame.type ∧ s.style.layOutText b.frame.expression = .ok piece ∧
      t.entry? block = some e ∧
      next = (s.placed.add ⟨(n.ungroup.put path (.literal v)).canonical, p.origin⟩).erase id ∧
      begun = lift { s with placed := next, canvas := .build s.style next }
        ⟨piece, none, s.viewport.canvasToGlobal (t.originOf e)⟩ point := by
  obtain ⟨v, hPlaceholder, hType⟩ := b.frame.type.read_placeholder
  cases hBegins with
  | canvas hIdle hDetaches =>
    cases hDetaches with
    | whole hOther _ hRoot =>
      obtain rfl := Option.some.inj (hTree.symm.trans hOther)
      exact absurd hRoot hInner
    | @part _ piece e _ _ _ _ hOther hEntry _ hPart hRead hPiece next hNext =>
      obtain rfl := Option.some.inj (hTree.symm.trans hOther)
      obtain rfl : e.block = b := by
        rw [BlockTree.block?, hEntry] at hBlock
        exact Option.some.inj hBlock
      obtain rfl := Option.some.inj (hLocated.placed.symm.trans hPart.placed)
      obtain rfl := Except.ok.inj (hLocated.read.symm.trans hPart.read)
      obtain rfl := hLocated.path_eq hPart
      obtain rfl := Except.ok.inj (hPlaceholder.symm.trans hRead)
      exact ⟨v, piece, e, next, hPlaceholder, hType, hPiece, hEntry, hNext, rfl⟩

theorem Begins.pulled {point : Point K} {n : Node} (hTree : s.canvas.tree? id = some t)
    (hBlock : t.block? block = some b) (hInner : block ≠ t.rootId)
    (hLocated : s.Located id b p n path) (hBegins : s.Begins point (.canvas id block) begun) :
    ∃ v d, s.Pulled begun id p b n path v d := by
  obtain ⟨v, piece, e, next, hPlaceholder, hType, hPiece, -, hNext, rfl⟩ :=
    hBegins.part_inv hTree hBlock hInner hLocated
  refine ⟨v, _, hLocated, hPlaceholder, hType, hNext, rfl, rfl, piece, hPiece, ?_⟩
  exact Block.unlit_withBackground piece.root .dragging

/-- A begin at an inner block whose texts have been read and laid out. -/
theorem Consistent.beginDrag_part (h : s.Consistent) (hIdle : s.drag = none)
    (hTree : s.canvas.tree? id = some t) {e : Entry K} (hEntry : t.entry? block = some e)
    (hInner : block ≠ t.rootId) {n : Node} (hLocated : s.Located id e.block p n path)
    {v : Literal} (hRead : Node.read e.block.frame.type.placeholder = .ok (.literal v))
    {piece : BlockTree K} (hPiece : s.style.layOutText e.block.frame.expression = .ok piece)
    {next : Collection K}
    (hNext : next =
      (s.placed.add ⟨(n.ungroup.put path (.literal v)).canonical, p.origin⟩).erase id)
    (point : Point K) :
    s.beginDrag (.canvas id block) point =
      (.ok true, Session.lift { s with placed := next, canvas := .build s.style next }
        ⟨piece, none, s.viewport.canvasToGlobal (t.originOf e)⟩ point) := by
  subst hNext
  have hBlock : t.block? block = some e.block := congrArg (Option.map Entry.block) hEntry
  obtain ⟨begun, hBegin, hBegins⟩ := h.exists_begun hIdle hTree hEntry point
  obtain ⟨v', piece', e', next', hRead', -, hPiece', hEntry', rfl, rfl⟩ :=
    hBegins.part_inv hTree hBlock hInner hLocated
  obtain rfl := Node.literal.inj (Except.ok.inj (hRead.symm.trans hRead'))
  obtain rfl := Except.ok.inj (hPiece.symm.trans hPiece')
  obtain rfl := Option.some.inj (hEntry.symm.trans hEntry')
  exact hBegin

theorem Pulled.feed {n : Node} {v : Literal} {d : Drag K} (h : s.Pulled begun id p b n path v d)
    (steps : List (Feedback K)) : ∃ e, s.Pulled (begun.feed steps) id p b n path v e := by
  have hCore := core_feed begun steps
  have hPlaced : (begun.feed steps).core.placed = begun.core.placed := by
    rw [hCore]
  obtain ⟨e, he, hSame⟩ := exists_drag_of_core hCore h.drag
  have hFollows := Drag.follows_of_core hSame
  obtain ⟨piece, hPiece, hTree⟩ := h.piece
  exact ⟨e, h.located, h.placeholder, h.type, Eq.trans hPlaced h.placed, he,
    hFollows.owner.trans h.owner, piece, hPiece, hFollows.root.trans hTree⟩

section

variable {after : Session K} {n : Node} {v : Literal} {d : Drag K} {left : Nat} {u : BlockTree K}
  {l : Block K}

theorem Pulled.exists_node (h : s.Pulled after id p b n path v d) (hBranch : b.isLeaf = false) :
    ∃ sub : Node, n.ungroup.descend path = some sub ∧ sub.Readable ∧
      Node.read b.frame.expression = .ok sub.regroup ∧
      ∀ slot, sub.typeIn slot = .ok b.frame.type := by
  obtain ⟨sub, hSub, hText⟩ := h.located.shows.text
  have hReadable := (Node.readable_of_read h.located.read).ungroup.descend hSub
  refine ⟨sub, hSub, hReadable, ?_, ?_⟩
  · rw [← hText]
    exact Node.read_canonical hReadable
  · exact h.located.typeIn hSub (h.located.ne_symbol hBranch hSub)

theorem Pulled.drag_eq (h : s.Pulled after id p b n path v d) (hBranch : b.isLeaf = false) :
    d.tree.root.frame.type = b.frame.type ∧ d.expression = b.frame.expression := by
  obtain ⟨piece, hPiece, hRoot⟩ := h.piece
  obtain ⟨sub, hSub, hReadable, hRead, hType⟩ := h.exists_node hBranch
  constructor
  · obtain ⟨m, root, hm, hLayOut, rfl⟩ := Style.layOutText_inv hPiece
    obtain rfl := Except.ok.inj (hRead.symm.trans hm)
    have hPieceType := Node.typeIn_of_layOut _ hLayOut rfl
    rw [← Node.typeIn_ungroup, Node.ungroup_regroup, Node.typeIn_ungroup, hType] at hPieceType
    rw [Block.type_of_unlit hRoot]
    exact (Except.ok.inj hPieceType).symm
  · have hText : d.expression = piece.expression := Block.expression_of_unlit hRoot
    rw [hText]
    exact h.located.stored.expression_eq hPiece

theorem Pulled.located_left (h : s.Pulled after id p b n path v d) (hs : s.Consistent)
    (hAfter : after.Consistent) (hTree : after.canvas.tree? s.placed.next = some u)
    (hPath : u.root.descend path = some l) :
    after.Located s.placed.next l ⟨(n.ungroup.put path (.literal v)).canonical, p.origin⟩
        (n.ungroup.put path (.literal v)).regroup path ∧
      l.frame.type = b.frame.type := by
  obtain ⟨q, m, hLocated⟩ := hAfter.located_of_descend hTree hPath
  have hMember := Collection.mem_ids_of_get? h.located.placed
  have hPlaced := hLocated.placed
  rw [h.placed, hs.ordered.get?_replaced hMember] at hPlaced
  obtain rfl := Option.some.inj hPlaced
  have hTreeBare : n.ungroup.ungroup = n.ungroup := Node.ungroup_ungroup n
  have hReadable : (n.ungroup.put path (.literal v)).Readable :=
    (Node.readable_of_read h.located.read).ungroup.put (Node.readable_of_read h.placeholder) path
  obtain rfl := Except.ok.inj (hLocated.read.symm.trans (Node.read_canonical hReadable))
  refine ⟨hLocated, ?_⟩
  obtain ⟨sub, hSub, -⟩ := h.located.shows.text
  have hLeft : (n.ungroup.put path (.literal v)).regroup.ungroup.descend path =
      some (.literal v) := by
    rw [Node.ungroup_regroup, Node.ungroup_put hTreeBare]
    exact Node.descend_put hSub _
  have hType := hLocated.typeIn hLeft nofun .number
  exact Except.ok.inj (hType.symm.trans h.type)

/-- A release over the placeholder puts the branch back. -/
theorem Pulled.release (h : s.Pulled after id p b n path v d) (hs : s.Consistent)
    (hAfter : after.Consistent) (hBranch : b.isLeaf = false) (release : Release K)
    (hTree : after.canvas.tree? s.placed.next = some u) (hLeft : u.block? left = some l)
    (hPath : u.root.descend path = some l)
    (hFirst : after.FirstMet (d.released release) ⟨s.placed.next, left⟩)
    (hNotOver : ¬ (d.released release).position.x < after.viewport.paletteWidth) :
    ∃ final,
      after.release release = (.ok (.merged s.placed.next (s.placed.next + 1)), final) ∧
        final.drag = none ∧
        final.placed = ⟨s.placed.others [id] ++ [(s.placed.next + 1, p)], s.placed.next + 2⟩ := by
  obtain ⟨hLeftover, hType⟩ := h.located_left hs hAfter hTree hPath
  obtain ⟨hDragType, hDragText⟩ := h.drag_eq hBranch
  have hOutside : after.viewport.isOverPalette (d.released release).position = false := by
    rwa [← Bool.not_eq_true, Viewport.isOverPalette_iff]
  have hLeafBlock : after.leafBlock? ⟨s.placed.next, left⟩ = some l := by
    rw [leafBlock?, hTree]
    exact hLeft
  have hAgrees : l.frame.type = (d.released release).tree.root.frame.type := by
    rw [Drag.root_released, hDragType, hType]
  obtain ⟨outcome, next, hDrops, hRelease⟩ := hAfter.exists_release h.drag release
  obtain ⟨target, m, other, r, hTarget, hRead, rfl, rfl⟩ :=
    hDrops.of_agreement hOutside hFirst hLeafBlock hAgrees
  obtain rfl := Option.some.inj (hLeftover.placed.symm.trans hTarget.placed)
  obtain rfl := Except.ok.inj (hLeftover.read.symm.trans hTarget.read)
  obtain rfl := hLeftover.path_eq hTarget
  obtain ⟨sub, hSub, -, hSubRead, -⟩ := h.exists_node hBranch
  rw [Drag.expression_released, hDragText] at hRead
  obtain rfl := Except.ok.inj (hSubRead.symm.trans hRead)
  obtain ⟨n', hn', hText, -⟩ := (hs.stored.get? h.located.placed).read
  obtain rfl := Except.ok.inj (h.located.read.symm.trans hn')
  have hNext : after.placed.next = s.placed.next + 1 := by
    rw [h.placed]
    rfl
  rw [hNext] at hRelease
  refine ⟨_, hRelease, rfl, ?_⟩
  dsimp only
  rw [Node.canonical_put_back hSub, hText, h.placed, Drag.leave, h.owner]
  exact hs.ordered.replaced_twice id _ _

end

/-- A branch that is pulled out and released over its placeholder is put back: the expression has
its old text and its old place, under a new id, and nothing else has changed. -/
theorem Reachable.put_back (h : s.Reachable) (hIdle : s.drag = none)
    (hPlaced : s.placed.get? id = some p) (hTree : s.canvas.tree? id = some t)
    (hBlock : t.block? block = some b) (hInner : block ≠ t.rootId) (hBranch : b.isLeaf = false)
    (hPath : t.root.descend path = some b) (point : Point K) :
    ∃ begun, s.beginDrag (.canvas id block) point = (.ok true, begun) ∧ ∀ steps,
      let after := begun.feed steps
      let edited := s.placed.next
      ∃ d, after.drag = some d ∧ ∀ release left u l,
        after.canvas.tree? edited = some u → u.block? left = some l →
        u.root.descend path = some l → after.FirstMet (d.released release) ⟨edited, left⟩ →
        ¬ (d.released release).position.x < after.viewport.paletteWidth →
        ∃ final, after.release release = (.ok (.merged edited (edited + 1)), final) ∧
          final.drag = none ∧
          final.placed = ⟨s.placed.others [id] ++ [(edited + 1, p)], edited + 2⟩ := by
  have hConsistent := h.consistent
  obtain ⟨e, hEntry, -⟩ := Option.map_eq_some_iff.mp hBlock
  obtain ⟨begun, hBegin, hBegins⟩ := hConsistent.exists_begun hIdle hTree hEntry point
  refine ⟨begun, hBegin, ?_⟩
  intro steps after edited
  obtain ⟨q, n, hLocated⟩ := hConsistent.located_of_descend hTree hPath
  obtain rfl := Option.some.inj (hPlaced.symm.trans hLocated.placed)
  obtain ⟨v, d', hPulled⟩ := hBegins.pulled hTree hBlock hInner hLocated
  obtain ⟨d, hPulled⟩ := hPulled.feed steps
  have hBegun : begun.Reachable := by
    have hApplied := h.apply (.beginDrag (.canvas id block) point)
    rwa [Session.apply, hBegin] at hApplied
  have hAfter : after.Consistent := (hBegun.feed steps).consistent
  refine ⟨d, hPulled.drag, ?_⟩
  intro release left u l hEdited hLeft hLeftPath hFirst hNotOver
  exact hPulled.release hConsistent hAfter hBranch release hEdited hLeft hLeftPath hFirst hNotOver

end

end

def product : Session Float :=
  let placed : Collection Float := ⟨[(0, ⟨"((a+b)*c)", ⟨(100 : Nat), (100 : Nat)⟩⟩)], 1⟩
  { bare with placed, canvas := .build bare.style placed }

def pulledProduct (piece edited : BlockTree Float) (position : Point Float) : Session Float :=
  lift { bare with
    placed := ⟨[(1, ⟨"(NaN*c)", ⟨(100 : Nat), (100 : Nat)⟩⟩)], 2⟩
    canvas := ⟨[⟨1, { edited with origin := ⟨(100 : Nat), (100 : Nat)⟩ }⟩], []⟩ }
    ⟨piece, none, position⟩ ⟨(400 : Nat), (100 : Nat)⟩

theorem read_product : Node.read "((a+b)*c)" = .ok (.group (.operator .mul
    [.group (.operator .add [.symbol "a", .symbol "b"]), .symbol "c"])) := by
  cbv

theorem reachable_product : product.Reachable := by
  have hShown : (Node.group (.operator .mul
      [.group (.operator .add [.symbol "a", .symbol "b"]), .symbol "c"])).Shown := by
    apply Node.Shown.group
    apply Node.Shown.operator rfl
    simp [Node.Shown.symbol, (shown_sum "a" "b").group]
  exact reachable_bare.addExpression read_product hShown ⟨(100 : Nat), (100 : Nat)⟩

theorem canonical_nan : (Node.literal (.number (0.0 / 0.0))).canonical = "NaN" := by
  rw [Node.canonical, Literal.canonical, if_pos Double.isNaN_nan]

theorem read_nan : Node.read "NaN" = .ok (.literal (.number (0.0 / 0.0))) := by
  rw [← canonical_nan]
  exact Node.read_canonical (.literal .nan)

theorem canonical_leftover :
    (Node.operator .mul [.literal (.number (0.0 / 0.0)), .symbol "c"]).canonical = "(NaN*c)" := by
  rw [Node.canonical, Node.canonicals, canonical_nan]
  rfl

theorem read_leftover :
    Node.read "(NaN*c)" =
      .ok (.group (.operator .mul [.literal (.number (0.0 / 0.0)), .symbol "c"])) := by
  have hReadable : (Node.operator .mul [.literal (.number (0.0 / 0.0)), .symbol "c"]).Readable :=
    (Node.readable_of_read read_product).ungroup.put (.literal .nan) [0]
  rw [← canonical_leftover]
  exact Node.read_canonical hReadable

theorem exists_pulledProduct :
    let place : Point Float := ⟨(100 : Nat), (100 : Nat)⟩
    ∃ tree piece edited : BlockTree Float, bare.style.layOutText "((a+b)*c)" = .ok tree ∧
      bare.style.layOutText "(a+b)" = .ok piece ∧
      bare.style.layOutText "(NaN*c)" = .ok edited ∧ tree.rootId = 4 ∧
      ∃ e l, tree.entry? 2 = some e ∧ e.block.isLeaf = false ∧
        tree.root.descend [0] = some e.block ∧ e.block.frame.expression = "(a+b)" ∧
        e.block.frame.type = .number ∧ edited.block? 0 = some l ∧
        edited.root.descend [0] = some l ∧
        let position := bare.viewport.canvasToGlobal
          (BlockTree.originOf { tree with origin := place } e)
        let begun := pulledProduct piece edited position
        ∃ d, begun.drag = some d ∧ begun.FirstMet (d.released .cancel) ⟨1, 0⟩ ∧
          ¬ (d.released .cancel).position.x < begun.viewport.paletteWidth := by
  intro place
  have ha : Node.read "(a+b)" = .ok (.group (.operator .add [.symbol "a", .symbol "b"])) := by cbv
  rw [Style.layOutText, read_product, Style.layOutText, ha, Style.layOutText, read_leftover]
  refine ⟨_, _, _, rfl, rfl, rfl, rfl, _, _, rfl, rfl, rfl, ?_, rfl, rfl, rfl, ?_⟩
  · decide
  · refine ⟨_, rfl, ⟨⟨?_, _, _, rfl, rfl, ?_⟩, [], _, rfl, ?_⟩, ?_⟩
    · exact Option.some_ne_none _
    · decide +kernel
    · exact List.forall_mem_nil _
    · decide +kernel

theorem tree?_product {tree : BlockTree Float}
    (hTree : bare.style.layOutText "((a+b)*c)" = .ok tree) :
    product.canvas.tree? 0 = some { tree with origin := ⟨(100 : Nat), (100 : Nat)⟩ } :=
  (Canvas.tree?_build reachable_product.consistent.stored).mpr
    ⟨⟨"((a+b)*c)", ⟨(100 : Nat), (100 : Nat)⟩⟩, tree, rfl, hTree, rfl⟩

theorem beginDrag_product {tree piece edited : BlockTree Float} {e : Entry Float}
    (hTree : bare.style.layOutText "((a+b)*c)" = .ok tree)
    (hPiece : bare.style.layOutText "(a+b)" = .ok piece)
    (hEdited : bare.style.layOutText "(NaN*c)" = .ok edited) (hInner : 2 ≠ tree.rootId)
    (hEntry : tree.entry? 2 = some e) (hPath : tree.root.descend [0] = some e.block)
    (hText : e.block.frame.expression = "(a+b)") (hType : e.block.frame.type = .number) :
    product.beginDrag (.canvas 0 2) ⟨(400 : Nat), (100 : Nat)⟩ =
      (.ok true, pulledProduct piece edited (bare.viewport.canvasToGlobal
        (BlockTree.originOf { tree with origin := ⟨(100 : Nat), (100 : Nat)⟩ } e))) := by
  have hConsistent := reachable_product.consistent
  have hCanvas := tree?_product hTree
  obtain ⟨p, n, hLocated⟩ := hConsistent.located_of_descend hCanvas hPath
  obtain rfl := Option.some.inj hLocated.placed
  obtain rfl := Except.ok.inj (read_product.symm.trans hLocated.read)
  rw [← hText] at hPiece
  have hNext : (⟨[(1, ⟨"(NaN*c)", ⟨(100 : Nat), (100 : Nat)⟩⟩)], 2⟩ : Collection Float) =
      (product.placed.add ⟨(Node.operator .mul [.literal (.number (0.0 / 0.0)),
        .symbol "c"]).canonical, ⟨(100 : Nat), (100 : Nat)⟩⟩).erase 0 := by
    rw [← canonical_leftover]
    rfl
  have hRead : Node.read e.block.frame.type.placeholder =
      .ok (.literal (.number (0.0 / 0.0))) := by
    rw [hType]
    exact read_nan
  have hEdit : Canvas.build product.style ⟨[(1, ⟨"(NaN*c)", ⟨(100 : Nat), (100 : Nat)⟩⟩)], 2⟩ =
      ⟨[⟨1, { edited with origin := ⟨(100 : Nat), (100 : Nat)⟩ }⟩], []⟩ :=
    Canvas.go_cons_ok hEdited []
  rw [hConsistent.beginDrag_part rfl hCanvas hEntry hInner hLocated hRead hPiece hNext, hEdit]
  rfl

theorem Reachable.put_back_product :
    let p : Placed Float := ⟨"((a+b)*c)", ⟨(100 : Nat), (100 : Nat)⟩⟩
    ∃ s begun after : Session Float, s.Reachable ∧ s.placed = ⟨[(0, p)], 1⟩ ∧
      s.beginDrag (.canvas 0 2) ⟨(400 : Nat), (100 : Nat)⟩ = (.ok true, begun) ∧
      begun.release .cancel = (.ok (.merged 1 2), after) ∧ after.placed = ⟨[(2, p)], 3⟩ := by
  intro p
  obtain ⟨tree, piece, edited, hTree, hPiece, hEdited, hRootId, e, l, hEntry, hBranch, hPath,
    hText, hType, hLeft, hLeftPath, d, hDrag, hFirst, hNotOver⟩ := exists_pulledProduct
  have hInner : 2 ≠ tree.rootId := by
    rw [hRootId]
    decide
  have hBlock : BlockTree.block? { tree with origin := p.origin } 2 = some e.block :=
    congrArg (Option.map Entry.block) hEntry
  have hBegin := beginDrag_product hTree hPiece hEdited hInner hEntry hPath hText hType
  obtain ⟨begun, hBegun, hBack⟩ := reachable_product.put_back (p := p) rfl rfl
    (tree?_product hTree) hBlock hInner hBranch hPath ⟨(400 : Nat), (100 : Nat)⟩
  obtain rfl := congrArg Prod.snd (hBegun.symm.trans hBegin)
  obtain ⟨d', hDrag', hRelease⟩ := hBack []
  obtain rfl := Option.some.inj (hDrag.symm.trans hDrag')
  obtain ⟨after, hAfter, -, hPlaced⟩ := hRelease .cancel 0 _ l rfl hLeft hLeftPath hFirst hNotOver
  exact ⟨product, _, after, reachable_product, rfl, hBegin, hAfter, hPlaced⟩

end Session

end Blockwork
