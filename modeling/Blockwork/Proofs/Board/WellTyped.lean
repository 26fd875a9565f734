import Blockwork.Proofs.Block.WellTyped
import Blockwork.Proofs.Board.Effect

/-! # Well typed sessions

If the palette and everything that is added is well typed, so are all placed expressions and what
is dragged, at any time. A block is pulled out of a slot of its own type, and its placeholder has
that type; a merge compares the types of the leaf and of the dragged block, and the leaf has the
type of its slot.
-/

set_option autoImplicit false

namespace Blockwork

variable {K : Type} [Scalar K]

structure BlockTree.WellTyped (style : Style K) (t : BlockTree K) : Prop where
  text : style.WellTyped t.expression
  fits : ∀ n, Node.read t.expression = .ok n → n.Fits t.root.frame.type

namespace BlockTree.WellTyped

variable {style : Style K} {t u : BlockTree K}

theorem of_layOutText {text : String} (hStored : Stored text) (hTyped : style.WellTyped text)
    (hTree : style.layOutText text = .ok t) : t.WellTyped style := by
  have hText := hStored.expression_eq hTree
  constructor
  · rwa [hText]
  · rw [hText]
    exact fun n => Style.fits_of_layOutText hTree

theorem congr (h : t.WellTyped style) (hRoot : u.root.unlit = t.root.unlit) :
    u.WellTyped style := by
  have hText : u.expression = t.expression := Block.expression_of_unlit hRoot
  constructor
  · rw [hText]
    exact h.text
  · rw [hText, Block.type_of_unlit hRoot]
    exact h.fits

end BlockTree.WellTyped

def Collection.WellTyped (style : Style K) (c : Collection K) : Prop :=
  ∀ e ∈ c.entries, style.WellTyped e.2.expression

namespace Collection.WellTyped

variable {style : Style K} {c : Collection K}

theorem add (h : c.WellTyped style) {p : Placed K} (hp : style.WellTyped p.expression) :
    (c.add p).WellTyped style :=
  forall_mem_add h hp

theorem erase (h : c.WellTyped style) (id : Nat) : (c.erase id).WellTyped style :=
  forall_mem_erase h id

theorem get? (h : c.WellTyped style) {id : Nat} {p : Placed K} (hp : c.get? id = some p) :
    style.WellTyped p.expression :=
  h _ (mem_of_get? hp)

end Collection.WellTyped

namespace Session

structure WellTyped (s : Session K) : Prop where
  placed : s.placed.WellTyped s.style
  palette : ∀ t ∈ s.palette.templates, s.style.WellTyped t.expression
  drag : ∀ d, s.drag = some d → d.tree.WellTyped s.style

section

variable {s after : Session K}

theorem WellTyped.kept (h : s.WellTyped) (hKeeps : s.Keeps after)
    (hPlaced : after.placed.WellTyped s.style)
    (hDrag : ∀ d, after.drag = some d → d.tree.WellTyped s.style) : after.WellTyped := by
  constructor
  · rwa [hKeeps.style]
  · rw [hKeeps.style, hKeeps.palette]
    exact h.palette
  · rwa [hKeeps.style]

/-- A node that fits the type of a block can take its place. -/
theorem Located.wellTyped_put {id : Nat} {b : Block K} {p : Placed K} {n r : Node}
    {path : List Nat} (h : s.Located id b p n path) (hTyped : s.placed.WellTyped s.style)
    {replacement : String} (hRead : Node.read replacement = .ok r) (hr : r.WellTyped)
    (hFits : r.Fits b.frame.type) :
    s.style.WellTyped (n.ungroup.put path r).canonical := by
  have hText := hTyped.get? h.placed
  have hNode := (Style.wellTyped_iff_of_shown h.read h.shown).mp hText
  obtain ⟨tree, hTree, hBlock⟩ := h.tree
  apply Style.wellTyped_canonical
  · exact (Node.readable_of_read h.read).ungroup.put (Node.readable_of_read hRead) path
  · apply ((Node.wellTyped_congr (Node.ungroup_ungroup n)).mpr hNode).put hr
    rintro above k parent slot rfl hParent hSlot
    have hType := hText n tree h.read hTree above k parent b.unlit hParent hBlock
    rw [hSlot, Block.type_unlit] at hType
    obtain rfl := Except.ok.inj hType
    exact hFits

theorem Located.wellTyped_block {id : Nat} {b : Block K} {p : Placed K} {n : Node}
    {path : List Nat} (h : s.Located id b p n path) (hTyped : s.placed.WellTyped s.style) :
    s.style.WellTyped b.frame.expression := by
  have hText := hTyped.get? h.placed
  have hNode := (Node.wellTyped_congr (Node.ungroup_ungroup n)).mpr
    ((Style.wellTyped_iff_of_shown h.read h.shown).mp hText)
  obtain ⟨sub, hSub, hSubText⟩ := h.shows.text
  rw [← hSubText]
  exact Style.wellTyped_canonical ((Node.readable_of_read h.read).ungroup.descend hSub)
    (hNode.descend hSub)

theorem Consistent.wellTyped_detaches (h : s.Consistent) (hTyped : s.WellTyped)
    {placed block : Nat} {d : Detached K} (hDetaches : s.Detaches placed block d after) :
    after.placed.WellTyped s.style ∧ d.tree.WellTyped s.style := by
  cases hDetaches with
  | @whole tree _ hTree =>
    obtain ⟨p, laid, hp, hLaid, hUnlit⟩ := h.exists_tree hTree
    have hLaidTyped := BlockTree.WellTyped.of_layOutText (h.stored.get? hp)
      (hTyped.placed.get? hp) hLaid
    refine ⟨hTyped.placed, hLaidTyped.congr ?_⟩
    rw [hUnlit]
  | part _ _ _ hLocated hRead hPiece hNext =>
    subst hNext
    constructor
    · obtain ⟨v, hPlaceholder, hType⟩ := SlotType.read_placeholder _
      obtain rfl := Except.ok.inj (hRead.symm.trans hPlaceholder)
      have hPut := hLocated.wellTyped_put hTyped.placed hRead
        (Node.wellTyped_of_operands_eq_nil rfl) hType
      apply Collection.WellTyped.erase
      exact hTyped.placed.add hPut
    · exact .of_layOutText hLocated.stored (hLocated.wellTyped_block hTyped.placed) hPiece

theorem WellTyped.lift (h : s.WellTyped) {d : Detached K} (hTree : d.tree.WellTyped s.style)
    (point : Point K) : (s.lift d point).WellTyped := by
  refine ⟨h.placed, h.palette, ?_⟩
  rintro e he
  obtain rfl := Option.some.inj he
  exact hTree.congr (Block.unlit_withBackground d.tree.root .dragging)

theorem Consistent.wellTyped_begins (h : s.Consistent) (hTyped : s.WellTyped) {source : Source}
    {point : Point K} (hBegins : s.Begins point source after) : after.WellTyped := by
  cases hBegins with
  | template _ hTemplate hTree =>
    exact hTyped.lift (.of_layOutText (h.palette _ hTemplate) (hTyped.palette _ hTemplate) hTree)
      point
  | canvas hIdle hDetaches =>
    obtain ⟨hPlaced, hTree⟩ := h.wellTyped_detaches hTyped hDetaches
    cases hDetaches with
    | whole => exact hTyped.lift hTree point
    | part =>
      refine WellTyped.lift ⟨hPlaced, hTyped.palette, ?_⟩ hTree point
      intro d hd
      rw [hIdle] at hd
      cases hd

theorem WellTyped.drops (h : s.WellTyped) {d : Drag K} (hStored : Stored d.expression)
    (hd : d.tree.WellTyped s.style) {outcome : Outcome} {next : Collection K}
    (hDrops : s.Drops d outcome next) : next.WellTyped s.style := by
  cases hDrops with
  | deleted => exact h.placed
  | merged _ _ _ hType hLocated hRead =>
    obtain ⟨r, hr, -, -, hShown⟩ := hStored.read
    obtain rfl := Except.ok.inj (hRead.symm.trans hr)
    -- The leaf's type is its slot's, and the dragged block has it too.
    have hFits := hd.fits _ hRead
    rw [← hType] at hFits
    have hNode := (Style.wellTyped_iff_of_shown hRead hShown).mp hd.text
    have hPut := hLocated.wellTyped_put h.placed hRead hNode hFits
    apply Collection.WellTyped.erase
    exact h.placed.add hPut
  | placed => exact h.placed.add hd.text

end

end Session

def Operation.WellTyped (style : Style K) : Operation K → Prop
  | .addExpression text _ => style.WellTyped text
  | _ => True

namespace Session

section

variable {s : Session K}

theorem Consistent.wellTyped_apply (h : s.Consistent) (hTyped : s.WellTyped)
    {operation : Operation K} (hOperation : operation.WellTyped s.style) :
    (s.apply operation).WellTyped := by
  obtain ⟨hKeeps, hEffect⟩ := h.effect operation
  cases hEffect with
  | still hPlaced hDrag =>
    apply hTyped.kept hKeeps
    · rw [hPlaced]
      exact hTyped.placed
    · rw [hDrag]
      exact hTyped.drag
  | added hRead hShown hPlaced hDrag =>
    have hNode := (Style.wellTyped_iff_of_shown hRead hShown).mp hOperation
    apply hTyped.kept hKeeps
    · rw [hPlaced]
      exact hTyped.placed.add (Style.wellTyped_canonical (Node.readable_of_read hRead) hNode)
    · rw [hDrag]
      exact hTyped.drag
  | begun hBegins => exact h.wellTyped_begins hTyped hBegins
  | moved hPlaced hDrag hLater hFollows =>
    apply hTyped.kept hKeeps
    · rw [hPlaced]
      exact hTyped.placed
    · intro e he
      obtain rfl := Option.some.inj (hLater.symm.trans he)
      exact (hTyped.drag _ hDrag).congr hFollows.root
  | @released _ d _ _ _ release hDrag hDrops hPlaced hOver =>
    have hStored : Stored (d.released release).expression := by
      rw [Drag.expression_released]
      exact (h.drag d hDrag).stored
    have hTree : (d.released release).tree.WellTyped s.style :=
      (hTyped.drag d hDrag).congr (congrArg Block.unlit (d.root_released release))
    apply hTyped.kept hKeeps
    · rw [hPlaced]
      exact Drag.forall_mem_leave d (hTyped.drops hStored hTree hDrops)
    · rw [hOver]
      nofun

/-- A run from a well typed palette on which every added expression is well typed. -/
inductive TypedRun : Session K → Prop where
  | new {settings : Settings K} {fonts : Fonts K} {s : Session K}
      (h : new settings fonts = .ok s)
      (hPalette : ∀ t ∈ s.palette.templates, s.style.WellTyped t.expression) : TypedRun s
  | apply {s : Session K} (h : TypedRun s) (operation : Operation K)
      (hOperation : operation.WellTyped s.style) : TypedRun (s.apply operation)

theorem TypedRun.reachable (h : s.TypedRun) : s.Reachable := by
  induction h with
  | new h => exact .new h
  | apply _ operation _ ih => exact ih.apply operation

theorem TypedRun.wellTyped (h : s.TypedRun) : s.WellTyped := by
  induction h with
  | new h hPalette =>
    obtain ⟨style, palette, -, rfl⟩ := new_inv h
    exact ⟨nofun, hPalette, nofun⟩
  | apply h operation hOperation ih =>
    exact h.reachable.consistent.wellTyped_apply ih hOperation

/-- On such a run all placed expressions and what is dragged lay out and are well typed. -/
theorem TypedRun.expressions (h : s.TypedRun) :
    (∀ id p, (id, p) ∈ s.placed.entries →
      (∃ tree, s.style.layOutText p.expression = .ok tree) ∧ s.style.WellTyped p.expression) ∧
    ∀ d, s.drag = some d →
      (∃ tree, s.style.layOutText d.expression = .ok tree) ∧ s.style.WellTyped d.expression := by
  have hConsistent := h.reachable.consistent
  have hTyped := h.wellTyped
  constructor
  · intro id p hp
    exact ⟨(hConsistent.stored _ hp).exists_layOut s.style, hTyped.placed _ hp⟩
  · intro d hd
    exact ⟨(hConsistent.drag d hd).stored.exists_layOut s.style, (hTyped.drag d hd).text⟩

end

theorem wellTyped_sum {style : Style K} {text left right : String}
    (hRead : Node.read text = .ok (.operator .add [.symbol left, .symbol right])) :
    style.WellTyped text := by
  rw [Style.wellTyped_iff_of_shown hRead (shown_sum left right), Node.wellTyped_iff]
  intro k m hm
  have hSymbol : ∃ name, m = .symbol name := by
    have hMem := List.mem_of_getElem? hm
    simp only [Node.bare, Node.operands, List.mem_cons, List.not_mem_nil, or_false] at hMem
    rcases hMem with rfl | rfl <;> exact ⟨_, rfl⟩
  obtain ⟨name, rfl⟩ := hSymbol
  exact ⟨⟨.number, rfl, rfl⟩, Node.wellTyped_of_operands_eq_nil rfl⟩

theorem TypedRun.expressions_sum :
    ∃ (s : Session Float) (d : Drag Float), s.TypedRun ∧ s.placed = sums ∧ s.drag = some d ∧
      d.expression = "(x+y)" ∧ s.style.WellTyped d.expression := by
  have hx : Node.read "x + y" = .ok (.operator .add [.symbol "x", .symbol "y"]) := by cbv
  have ha : Node.read "a + b" = .ok (.operator .add [.symbol "a", .symbol "b"]) := by cbv
  obtain ⟨first, second, hFirst, hSecond, d, -, hPlaced, hDrag, -, hText, -⟩ := exists_draggedSum
  have hBare : bare.TypedRun := .new new_bare (List.forall_mem_nil _)
  have hRun : (draggedSum first second).TypedRun := by
    rw [draggedSum_eq hFirst hSecond]
    have hOne (origin : Point Float) := hBare.apply (.addExpression "x + y" origin)
      (wellTyped_sum hx)
    have hTwo (first second : Point Float) := (hOne first).apply (.addExpression "a + b" second)
      (wellTyped_sum ha)
    exact (hTwo _ _).apply _ trivial
  exact ⟨_, d, hRun, hPlaced, hDrag, hText, (hRun.expressions.2 d hDrag).2⟩

end Session

end Blockwork
