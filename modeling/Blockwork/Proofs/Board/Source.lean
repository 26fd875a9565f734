import Blockwork.Proofs.Block.Numbering
import Blockwork.Proofs.Board.PutBack

/-! # The source of a drag

The begin of a drag at an inner block edits the expression that the block is taken off; every
other source leaves the collection as it is. A template, an expression or a block that is not there
starts nothing.
-/

set_option autoImplicit false

namespace Blockwork

variable {K : Type} [Scalar K]

namespace Session

section

variable {s : Session K} {placed block : Nat} {p : Placed K} {t : BlockTree K} {b : Block K}

theorem expression_lift (d : Detached K) (point : Point K) :
    ∃ e, s.lift d point = { s with drag := some e } ∧ e.owner = d.owner ∧
      e.expression = d.tree.expression :=
  ⟨_, rfl, rfl, Block.expression_withBackground d.tree.root .dragging⟩

/-- What is placed in a consistent session is on the canvas. -/
theorem Consistent.exists_canvas (h : s.Consistent) (hPlaced : s.placed.get? placed = some p) :
    ∃ t, s.canvas.tree? placed = some t := by
  obtain ⟨tree, hTree⟩ := (h.stored.get? hPlaced).exists_layOut s.style
  have hDark : s.canvas.unlit.tree? placed = some { tree with origin := p.origin } := by
    rw [h.canvas]
    exact (Canvas.tree?_build h.stored).mpr ⟨p, tree, hPlaced, hTree, rfl⟩
  rw [Canvas.tree?_unlit] at hDark
  obtain ⟨t, ht, -⟩ := Option.map_eq_some_iff.mp hDark
  exact ⟨t, ht⟩

theorem Consistent.exists_place (h : s.Consistent) (hPlaced : s.placed.get? placed = some p)
    (hTree : s.canvas.tree? placed = some t) (hBlock : t.block? block = some b) :
    ∃ n path sub, s.Located placed b p n path ∧ t.root.descend path = some b ∧
      (∀ other, t.root.descend other = some b → other = path) ∧
      n.ungroup.descend path = some sub ∧ sub.canonical = b.frame.expression := by
  obtain ⟨path, hPath⟩ := BlockTree.exists_descend hBlock
  obtain ⟨q, n, hLocated⟩ := h.located_of_descend hTree hPath
  obtain rfl := Option.some.inj (hPlaced.symm.trans hLocated.placed)
  obtain ⟨sub, hSub, hText⟩ := hLocated.shows.text
  refine ⟨n, path, sub, hLocated, hPath, ?_, hSub, hText⟩
  intro other hOther
  obtain ⟨q, m, hLocated'⟩ := h.located_of_descend hTree hOther
  obtain rfl := Option.some.inj (hPlaced.symm.trans hLocated'.placed)
  obtain rfl := Except.ok.inj (hLocated.read.symm.trans hLocated'.read)
  exact hLocated.path_eq hLocated'

/-- The session after an inner block was pulled out: the expression with the placeholder of the
block in its place stands in for the one that the block was taken off. -/
def pulledOut (s : Session K) (placed : Nat) (p : Placed K) (n : Node) (path : List Nat)
    (placeholder : Node) (d : Drag K) : Session K :=
  let text := (n.ungroup.put path placeholder).canonical
  let next : Collection K :=
    ⟨s.placed.others [placed] ++ [(s.placed.next, ⟨text, p.origin⟩)], s.placed.next + 1⟩
  { s with placed := next, canvas := .build s.style next, drag := some d }

theorem Consistent.begin_part (h : s.Consistent) (hIdle : s.drag = none)
    (hPlaced : s.placed.get? placed = some p) (hTree : s.canvas.tree? placed = some t)
    (hBlock : t.block? block = some b) (hInner : block ≠ t.rootId) (point : Point K) :
    ∃ n path sub placeholder d, Node.read p.expression = .ok n ∧
      t.root.descend path = some b ∧ (∀ other, t.root.descend other = some b → other = path) ∧
      n.ungroup.descend path = some sub ∧ sub.canonical = b.frame.expression ∧
      Node.read b.frame.type.placeholder = .ok placeholder ∧
      d.owner = none ∧ d.expression = b.frame.expression ∧
      s.beginDrag (.canvas placed block) point =
        (.ok true, s.pulledOut placed p n path placeholder d) := by
  obtain ⟨n, path, sub, hLocated, hPath, hOnly, hSub, hText⟩ :=
    h.exists_place hPlaced hTree hBlock
  obtain ⟨e, hEntry, -⟩ := Option.map_eq_some_iff.mp hBlock
  obtain ⟨begun, hBegin, hBegins⟩ := h.exists_begun hIdle hTree hEntry point
  obtain ⟨v, piece, f, next, hRead, -, hPiece, -, hNext, rfl⟩ :=
    hBegins.part_inv hTree hBlock hInner hLocated
  obtain ⟨d, hLift, hOwner, hDragged⟩ := expression_lift
    (s := { s with placed := next, canvas := .build s.style next })
    ⟨piece, none, s.viewport.canvasToGlobal (t.originOf f)⟩ point
  have hOrdered := h.ordered
  have hFresh : s.placed.next ∉ [placed] := by
    rw [List.mem_singleton]
    rintro rfl
    exact hOrdered.next_notMem (Collection.mem_ids_of_get? hPlaced)
  have hLater : next = ⟨s.placed.others [placed] ++
      [(s.placed.next, ⟨(n.ungroup.put path (.literal v)).canonical, p.origin⟩)],
        s.placed.next + 1⟩ := by
    rw [hNext, ← Collection.others_add hFresh, ← (hOrdered.add _).entries_erase]
    rfl
  refine ⟨n, path, sub, _, d, hLocated.read, hPath, hOnly, hSub, hText, hRead, hOwner, ?_, ?_⟩
  · rw [hDragged]
    exact hLocated.stored.expression_eq hPiece
  · simp only [pulledOut, ← hLater]
    exact hBegin.trans (by rw [hLift])

theorem Consistent.begin_whole (h : s.Consistent) (hIdle : s.drag = none)
    (hPlaced : s.placed.get? placed = some p) (hTree : s.canvas.tree? placed = some t)
    (point : Point K) :
    ∃ d : Drag K, d.owner = some placed ∧ d.expression = p.expression ∧
      s.beginDrag (.canvas placed t.rootId) point = (.ok true, { s with drag := some d }) := by
  obtain ⟨begun, hBegin, hBegins⟩ := h.exists_begun hIdle hTree t.entry?_rootId point
  obtain ⟨q, hq, hText⟩ := h.expression_tree hTree
  obtain rfl := Option.some.inj (hPlaced.symm.trans hq)
  cases hBegins with
  | canvas _ hDetaches =>
    cases hDetaches with
    | @whole tree e hOther =>
      obtain rfl := Option.some.inj (hTree.symm.trans hOther)
      obtain ⟨d, hLift, hOwner, hd⟩ := expression_lift (s := s)
        ⟨t.unlit, some placed, s.viewport.canvasToGlobal (t.originOf e)⟩ point
      refine ⟨d, hOwner, ?_, hBegin.trans (by rw [hLift])⟩
      rw [hd, hText]
      exact t.expression_unlit
    | part hOther _ hInner =>
      obtain rfl := Option.some.inj (hTree.symm.trans hOther)
      exact absurd rfl hInner

theorem Consistent.begin_template (h : s.Consistent) (hIdle : s.drag = none) {index : Nat}
    (hTemplate : s.palette.templates[index]? = some t) (point : Point K) :
    ∃ d : Drag K, d.owner = none ∧ d.expression = t.expression ∧
      s.beginDrag (.template index) point = (.ok true, { s with drag := some d }) := by
  have hStored := h.palette t (List.mem_of_getElem? hTemplate)
  obtain ⟨tree, hTree⟩ := hStored.exists_layOut s.style
  obtain ⟨d, hLift, hOwner, hText⟩ := expression_lift (s := s)
    ⟨tree, none, s.viewport.paletteToGlobal t.origin⟩ point
  refine ⟨d, hOwner, ?_, ?_⟩
  · rw [hText]
    exact hStored.expression_eq hTree
  · simp only [Session.beginDrag, isDragging, hIdle, hTemplate, hTree, ← hLift]
    rfl

theorem begin_missing (hIdle : s.drag = none) (point : Point K) :
    (∀ index, s.palette.templates[index]? = none →
      s.beginDrag (.template index) point = (.ok false, s)) ∧
    ∀ placed block, (s.canvas.tree? placed).bind (·.block? block) = none →
      s.beginDrag (.canvas placed block) point = (.ok false, s) := by
  have hDragging : s.isDragging = false := by
    rw [isDragging, hIdle]
    rfl
  constructor
  · intro index hMissing
    simp only [Session.beginDrag, hDragging, hMissing]
    rfl
  · intro placed block hMissing
    have hDetach : s.detach placed block = .error (.missingOwner placed) := by
      rw [Session.detach]
      split
      · rename_i owner tree _ hTree
        rw [hTree, Option.bind_some, BlockTree.block?, Option.map_eq_none_iff] at hMissing
        rw [hMissing]
      · rfl
    simp only [Session.beginDrag, hDragging, hDetach]
    rfl

/-- A drag that begins edits the expression that an inner block is taken off, and nothing else. -/
theorem Reachable.begin_edits (h : s.Reachable) (hIdle : s.drag = none) (point : Point K) :
    s.placed.Ordered ∧
    (∀ placed p, s.placed.get? placed = some p → ∃ t, s.canvas.tree? placed = some t ∧
      (∀ block b, t.block? block = some b → block ≠ t.rootId →
        ∃ n path sub placeholder d, Node.read p.expression = .ok n ∧
          t.root.descend path = some b ∧ (∀ other, t.root.descend other = some b → other = path) ∧
          n.ungroup.descend path = some sub ∧ sub.canonical = b.frame.expression ∧
          Node.read b.frame.type.placeholder = .ok placeholder ∧
          d.owner = none ∧ d.expression = b.frame.expression ∧
          s.beginDrag (.canvas placed block) point =
            (.ok true, s.pulledOut placed p n path placeholder d)) ∧
      (∃ d : Drag K, d.owner = some placed ∧ d.expression = p.expression ∧
        s.beginDrag (.canvas placed t.rootId) point = (.ok true, { s with drag := some d })) ∧
      ∀ block, t.block? block = none → s.beginDrag (.canvas placed block) point = (.ok false, s)) ∧
    (∀ placed block, s.placed.get? placed = none →
      s.beginDrag (.canvas placed block) point = (.ok false, s)) ∧
    (∀ index t, s.palette.templates[index]? = some t →
      ∃ d : Drag K, d.owner = none ∧ d.expression = t.expression ∧
        s.beginDrag (.template index) point = (.ok true, { s with drag := some d })) ∧
    ∀ index, s.palette.templates[index]? = none →
      s.beginDrag (.template index) point = (.ok false, s) := by
  have hConsistent := h.consistent
  obtain ⟨hTemplate, hCanvas⟩ := begin_missing hIdle point
  refine ⟨hConsistent.ordered, ?_, ?_, ?_, hTemplate⟩
  · intro placed p hPlaced
    obtain ⟨t, hTree⟩ := hConsistent.exists_canvas hPlaced
    refine ⟨t, hTree, ?_, hConsistent.begin_whole hIdle hPlaced hTree point, ?_⟩
    · intro block b hBlock hInner
      exact hConsistent.begin_part hIdle hPlaced hTree hBlock hInner point
    · intro block hMissing
      apply hCanvas
      rw [hTree]
      exact hMissing
  · intro placed block hMissing
    apply hCanvas
    cases hTree : s.canvas.tree? placed with
    | none => rfl
    | some t =>
      obtain ⟨p, hPlaced, -⟩ := hConsistent.expression_tree hTree
      cases hMissing.symm.trans hPlaced
  · intro index t ht
    exact hConsistent.begin_template hIdle ht point

end

theorem Reachable.begin_edits_product :
    let place : Point Float := ⟨(100 : Nat), (100 : Nat)⟩
    ∃ (begun : Session Float) (d : Drag Float), product.Reachable ∧
      product.placed = ⟨[(0, ⟨"((a+b)*c)", place⟩)], 1⟩ ∧
      product.beginDrag (.canvas 0 2) ⟨(400 : Nat), (100 : Nat)⟩ = (.ok true, begun) ∧
      begun.placed = ⟨[(1, ⟨"(NaN*c)", place⟩)], 2⟩ ∧ begun.palette = product.palette ∧
      begun.drag = some d ∧ d.owner = none ∧ d.expression = "(a+b)" := by
  intro place
  obtain ⟨tree, -, -, hTree, -, -, hRootId, e, l, hEntry, -, hPath, hText, hType, -⟩ :=
    exists_pulledProduct
  have hInner : 2 ≠ tree.rootId := by
    rw [hRootId]
    decide
  have hBlock : BlockTree.block? { tree with origin := place } 2 = some e.block :=
    congrArg (Option.map Entry.block) hEntry
  obtain ⟨-, hPlaced, -⟩ := reachable_product.begin_edits rfl ⟨(400 : Nat), (100 : Nat)⟩
  obtain ⟨t, hCanvas, hPart, -⟩ := hPlaced 0 _ rfl
  obtain rfl := Option.some.inj ((tree?_product hTree).symm.trans hCanvas)
  obtain ⟨n, path, sub, placeholder, d, hRead, -, hOnly, -, -, hPlaceholder, hOwner, hDrag,
    hBegin⟩ := hPart 2 _ hBlock hInner
  obtain rfl := hOnly [0] hPath
  obtain rfl := Except.ok.inj (read_product.symm.trans hRead)
  rw [hType] at hPlaceholder
  obtain rfl := Except.ok.inj (read_nan.symm.trans hPlaceholder)
  refine ⟨_, d, reachable_product, rfl, hBegin, ?_, rfl, rfl, hOwner, hDrag.trans hText⟩
  simp only [pulledOut, ← canonical_leftover]
  rfl

end Session

end Blockwork
