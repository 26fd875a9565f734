import Blockwork.Proofs.Plane.Finite
import Blockwork.Proofs.Scene.Strokes

/-! # Blocks drawn in part

A box without finite edges is left out of a scene, each box for itself, while the label and the
handle of a block are drawn in any case. So a block without a finite place is drawn as a label and
a handle that are nowhere, and so is all that is below it.
-/

set_option autoImplicit false

namespace Blockwork

section

variable {K : Type}

theorem Block.id_of_mem_entries {b : Block K} {start : Nat} {parent : Option Nat}
    {above : List (Offset K)} {e : Entry K} (h : e ∈ b.entries start parent above) :
    start ≤ e.id ∧ e.id < start + b.count := by
  have hMem := List.mem_map_of_mem (f := (·.id)) h
  rwa [map_id_entries, List.mem_range'_1] at hMem

theorem Block.id_of_mem_entriesAll {bs : List (Block K)} {start parent : Nat}
    {above : List (Offset K)} {e : Entry K} (h : e ∈ entriesAll start parent above bs) :
    start ≤ e.id ∧ e.id < start + countAll bs := by
  have hMem := List.mem_map_of_mem (f := (·.id)) h
  rwa [map_id_entriesAll, List.mem_range'_1] at hMem

namespace BlockTree

variable {t : BlockTree K} {e u : Entry K} {lower upper : Nat}

theorem offsets_of_parent (he : t.entry? lower = some e) (hParent : e.parent = some upper)
    (hu : t.entry? upper = some u) : e.offsets = e.block.frame.offset :: u.offsets := by
  obtain ⟨path, k, σ, τ, -, hChild, rfl, hUpper⟩ := exists_child he hParent
  obtain rfl := Option.some.inj (hu.symm.trans hUpper)
  obtain ⟨-, -, -, hAbove⟩ := Spot.child?_eq_some hChild
  rw [← hAbove]
  rfl

/-- The way from a block up to the root goes on from each block above it. -/
theorem offsets_of_above (h : Entry.Above t.entries upper lower) (hu : t.entry? upper = some u)
    (he : t.entry? lower = some e) : u.offsets <:+ e.offsets := by
  induction h generalizing e with
  | single h =>
    obtain ⟨d, hd, rfl, hParent⟩ := h
    obtain rfl := Option.some.inj ((lookup_of_mem hd).symm.trans he)
    rw [offsets_of_parent he hParent hu]
    exact List.suffix_cons _ _
  | tail _ h ih =>
    obtain ⟨d, hd, rfl, hParent⟩ := h
    obtain rfl := Option.some.inj ((lookup_of_mem hd).symm.trans he)
    obtain ⟨middle, hMiddle⟩ := Option.isSome_iff_exists.mp (lt_of_parent he hParent).2
    rw [offsets_of_parent he hParent hMiddle]
    exact (ih hMiddle).trans (List.suffix_cons _ _)

end BlockTree

variable [Scalar K]

def Primitive.isFinite : Primitive K → Bool
  | .roundRect rect _ _ _ => rect.isFinite
  | .circle center _ _ => center.isFinite
  | .label _ center _ _ => center.isFinite
  | .line start stop _ _ => start.isFinite && stop.isFinite

def Point.along (p : Point K) (offsets : List (Offset K)) : Point K :=
  offsets.foldr (fun v q => q + v) p

def BlockTree.placeOf (t : BlockTree K) (shift : Offset K) (e : Entry K) : Point K :=
  (t.origin + shift).along e.offsets

namespace Block

def fullBox (type : SlotType) (rect : Rect K) (place : Offset K) (fill : Color) : Primitive K :=
  .roundRect (rect + place) (type.cornerRadius rect.height) fill (1 : Nat)

def fullBoxes (place : Offset K) : Block K → List (Primitive K)
  | .leaf f s =>
    (if ((0 : Nat) : K) < f.highlight.ringAlpha then
      [.roundRect (s.ring + place) (f.type.cornerRadius s.ring.height)
        (Color.white.tinted f.highlight.ring.color) f.highlight.ringAlpha]
    else []) ++
      [fullBox f.type s.background place backgroundFill, fullBox f.type s.checkArea place .white]
  | .branch f s _ =>
    [fullBox f.type s.background place backgroundFill,
      fullBox f.type s.eventLayer place (Color.white.tinted f.highlight.background.color)]

theorem box_eq_filter (rect : Rect K) (radius : K) (fill : Color) (opacity : K) :
    Primitive.box rect radius fill opacity =
      [Primitive.roundRect rect radius fill opacity].filter Primitive.isFinite := by
  rw [Primitive.box, List.filter_singleton, Primitive.isFinite, Bool.cond_eq_ite]

/-- Of the boxes of a block the finite ones are drawn. -/
theorem boxes_eq_filter (place : Offset K) (b : Block K) :
    b.boxes place = (b.fullBoxes place).filter Primitive.isFinite := by
  cases b with
  | leaf f s =>
    rw [boxes, fullBoxes, drawRing, drawBox, drawBox, box_eq_filter, box_eq_filter, box_eq_filter,
      List.filter_append, List.append_assoc, ← List.filter_append]
    split <;> rfl
  | branch f s cs =>
    rw [boxes, fullBoxes, drawBox, drawBox, box_eq_filter, box_eq_filter, ← List.filter_append]
    rfl

theorem mem_draw_of_mem_marks {b : Block K} {metrics : Metrics K} {parentOrigin : Point K}
    {primitive : Primitive K}
    (h : primitive ∈ b.marks metrics (parentOrigin + b.frame.offset).toOffset) :
    primitive ∈ b.draw metrics parentOrigin := by
  cases b with
  | leaf | branch => exact List.mem_append_right _ h

end Block

/-! ## The strokes of each block -/

def Entry.own (metrics : Metrics K) (origin : Point K) (e : Entry K) : List (Stroke K) :=
  let place := (origin.along e.offsets).toOffset
  (e.block.boxes place ++ e.block.marks metrics place).map (.mk e.id)

namespace Block

variable (metrics : Metrics K) (origin : Point K) {e : Entry K}

mutual

theorem filter_strokes (first : Nat) (parent : Option Nat) (above : List (Offset K)) :
    (b : Block K) → e ∈ b.entries first parent above →
      (b.strokes metrics first (origin.along above)).filter (·.block = e.id) =
        e.own metrics origin
  | .leaf f s, h => by
    obtain rfl := List.mem_singleton.mp h
    rw [strokes, ← List.map_append]
    exact Stroke.filter_map_self first _
  | .branch f s cs, h => by
    rw [strokes, List.filter_append, List.filter_append]
    rcases List.mem_append.mp h with h | h
    · have hBelow := (id_of_mem_entriesAll h).2.ne'
      rw [Stroke.filter_map_of_ne hBelow, Stroke.filter_map_of_ne hBelow, List.nil_append,
        List.append_nil]
      exact filter_strokesAll first _ (f.offset :: above) cs h
    · obtain rfl := List.mem_singleton.mp h
      have hInner : (strokesAll metrics first (origin.along above + f.offset) cs).filter
          (·.block = first + countAll cs) = [] :=
        Stroke.filter_eq_nil fun stroke hStroke =>
          (bounds_of_mem_strokesAll metrics first _ cs hStroke).2.ne
      rw [hInner, Stroke.filter_map_self, Stroke.filter_map_self, List.append_nil,
        ← List.map_append]
      rfl

theorem filter_strokesAll (first parent : Nat) (above : List (Offset K)) :
    (bs : List (Block K)) → e ∈ entriesAll first parent above bs →
      (strokesAll metrics first (origin.along above) bs).filter (·.block = e.id) =
        e.own metrics origin
  | b :: bs, h => by
    rw [strokesAll, List.filter_append]
    rcases List.mem_append.mp h with h | h
    · have hId := (id_of_mem_entries h).2
      have hLater : (strokesAll metrics (first + b.count) (origin.along above) bs).filter
          (·.block = e.id) = [] :=
        Stroke.filter_eq_nil fun stroke hStroke =>
          (hId.trans_le (bounds_of_mem_strokesAll metrics _ _ bs hStroke).1).ne'
      rw [filter_strokes first parent above b h, hLater, List.append_nil]
    · have hId := (id_of_mem_entriesAll h).1
      have hEarlier : (b.strokes metrics first (origin.along above)).filter
          (·.block = e.id) = [] :=
        Stroke.filter_eq_nil fun stroke hStroke =>
          ((bounds_of_mem_strokes metrics _ _ b hStroke).2.trans_le hId).ne
      rw [filter_strokesAll _ parent above bs h, hEarlier, List.nil_append]

end

end Block

end

/-! ## Places without a finite coordinate -/

variable {metrics : Metrics Float}

theorem Point.isFinite_of_along {p : Point Float} {inner outer : List (Offset Float)}
    (h : outer <:+ inner) (hFinite : (p.along inner).isFinite = true) :
    (p.along outer).isFinite = true := by
  obtain ⟨lower, rfl⟩ := h
  induction lower with
  | nil => exact hFinite
  | cons v lower ih => exact ih (Point.isFinite_of_add hFinite).1

/-- Nothing of a block is finite unless its place is. -/
theorem Block.isFinite_of_primitive {b : Block Float} {place : Offset Float}
    {primitive : Primitive Float} (h : primitive ∈ b.fullBoxes place ++ b.marks metrics place)
    (hFinite : primitive.isFinite = true) : place.toPoint.isFinite = true := by
  cases b with
  | leaf f s =>
    simp only [fullBoxes, marks, List.mem_append, List.mem_cons, List.not_mem_nil, or_false] at h
    rcases h with (hRing | rfl | rfl) | rfl
    · split at hRing
      · obtain rfl := List.mem_singleton.mp hRing
        exact Rect.isFinite_of_add hFinite
      · cases hRing
    · exact Rect.isFinite_of_add hFinite
    · exact Rect.isFinite_of_add hFinite
    · exact (Point.isFinite_of_add hFinite).2
  | branch f s cs =>
    simp only [fullBoxes, marks, List.mem_append, List.mem_cons, List.not_mem_nil, or_false] at h
    rcases h with (rfl | rfl) | rfl | rfl
    · exact Rect.isFinite_of_add hFinite
    · exact Rect.isFinite_of_add hFinite
    · exact (Point.isFinite_of_add hFinite).2
    · exact (Point.isFinite_of_add hFinite).2

namespace BlockTree

theorem isFinite_placeOf_of_above {t : BlockTree Float} {shift : Offset Float} {upper lower : Nat}
    {u e : Entry Float} (h : lower = upper ∨ Entry.Above t.entries upper lower)
    (hu : t.entry? upper = some u) (he : t.entry? lower = some e)
    (hFinite : (t.placeOf shift e).isFinite = true) : (t.placeOf shift u).isFinite = true := by
  rcases h with rfl | h
  · obtain rfl := Option.some.inj (hu.symm.trans he)
    exact hFinite
  · exact Point.isFinite_of_along (offsets_of_above h hu he) hFinite

/-- Strokes that draw a tree shifted, box by box: a block is drawn whole only if no box of it is
left out, and it is never left out itself. -/
structure DrawnInParts (t : BlockTree Float) (metrics : Metrics Float) (shift : Offset Float)
    (strokes : List (Stroke Float)) : Prop where
  blocks : ∀ stroke ∈ strokes, (t.entry? stroke.block).isSome = true
  own : ∀ id e, t.entry? id = some e →
    let place := (t.placeOf shift e).toOffset
    strokes.filter (·.block = id) =
      ((e.block.fullBoxes place).filter Primitive.isFinite ++ e.block.marks metrics place).map
        (.mk id)
  whole : ∀ id e, t.entry? id = some e →
    let place := (t.placeOf shift e).toOffset
    strokes.filter (·.block = id) =
        (e.block.fullBoxes place ++ e.block.marks metrics place).map (.mk id) ↔
      ∀ box ∈ e.block.fullBoxes place, box.isFinite = true
  astray : ∀ stroke ∈ strokes, stroke.primitive.isFinite = false →
    ∃ e, t.entry? stroke.block = some e ∧
      stroke.primitive ∈ e.block.marks metrics (t.placeOf shift e).toOffset
  nowhere : ∀ id e, t.entry? id = some e → (t.placeOf shift e).isFinite = false →
    ∀ stroke ∈ strokes, stroke.block = id ∨ Entry.Above t.entries id stroke.block →
      stroke.primitive.isFinite = false

section

variable {t : BlockTree Float} {shift : Offset Float} {strokes : List (Stroke Float)}
  (hBlocks : ∀ stroke ∈ strokes, (t.entry? stroke.block).isSome = true)
  (hOwn : ∀ id e, t.entry? id = some e →
    let place := (t.placeOf shift e).toOffset
    strokes.filter (·.block = id) =
      ((e.block.fullBoxes place).filter Primitive.isFinite ++ e.block.marks metrics place).map
        (.mk id))

include hBlocks hOwn

theorem exists_part {stroke : Stroke Float} (h : stroke ∈ strokes) :
    ∃ e, t.entry? stroke.block = some e ∧
      let place := (t.placeOf shift e).toOffset
      stroke.primitive ∈
        (e.block.fullBoxes place).filter Primitive.isFinite ++ e.block.marks metrics place := by
  obtain ⟨e, he⟩ := Option.isSome_iff_exists.mp (hBlocks stroke h)
  exact ⟨e, he, Stroke.primitive_mem h (hOwn _ e he)⟩

theorem drawnInParts_of_own : t.DrawnInParts metrics shift strokes := by
  refine ⟨hBlocks, hOwn, ?_, ?_, ?_⟩
  · intro id e he place
    rw [hOwn id e he]
    constructor
    · intro hWhole
      have hLength := congrArg List.length hWhole
      rw [List.length_map, List.length_map, List.length_append, List.length_append] at hLength
      exact List.length_filter_eq_length_iff.mp (Nat.add_right_cancel hLength)
    · intro hFinite
      rw [List.filter_eq_self.mpr hFinite]
  · intro stroke hStroke hAstray
    obtain ⟨e, he, hPart⟩ := exists_part hBlocks hOwn hStroke
    rcases List.mem_append.mp hPart with hBox | hMark
    · have hFinite := List.of_mem_filter hBox
      rw [hAstray] at hFinite
      cases hFinite
    · exact ⟨e, he, hMark⟩
  · intro id u hu hNowhere stroke hStroke hBelow
    obtain ⟨e, he, hPart⟩ := exists_part hBlocks hOwn hStroke
    have hFull : stroke.primitive ∈ e.block.fullBoxes (t.placeOf shift e).toOffset ++
        e.block.marks metrics (t.placeOf shift e).toOffset :=
      (List.filter_sublist.append_right _).subset hPart
    by_contra hFinite
    have hPlace := Block.isFinite_of_primitive hFull (Bool.eq_true_of_not_eq_false hFinite)
    rw [isFinite_placeOf_of_above hBelow hu he hPlace] at hNowhere
    cases hNowhere

end

/-- A tree is drawn box by box, wherever it is. -/
theorem drawn_in_parts (metrics : Metrics Float) (shift : Offset Float) (t : BlockTree Float) :
    ∃ strokes, strokes.map Stroke.primitive = t.draw metrics shift ∧
      t.DrawnInParts metrics shift strokes := by
  refine ⟨t.root.strokes metrics 0 (t.origin + shift),
    Block.map_primitive_strokes metrics 0 _ t.root, drawnInParts_of_own ?_ ?_⟩
  · intro stroke hStroke
    have hBound := (Block.bounds_of_mem_strokes metrics 0 _ t.root hStroke).2
    have hCount : t.entries.length = t.root.count := Block.length_entries 0 none [] t.root
    rw [Option.isSome_iff_exists]
    refine ⟨t.entries[stroke.block], List.getElem?_eq_getElem ?_⟩
    omega
  · intro id e he place
    have hFilter := Block.filter_strokes metrics (t.origin + shift) 0 none [] t.root
      (List.mem_of_getElem? he)
    rw [← Block.boxes_eq_filter, ← id_of_lookup he]
    exact hFilter

/-- Of a sum that is nowhere the label and the handle are drawn, and none of the boxes. -/
theorem label_without_box :
    let style : Style Float := ⟨Settings.standardMetrics, .fixedAdvance 1⟩
    ∃ tree e label handle, style.layOutText "a + b" = .ok tree ∧
      let t := { tree with origin := ⟨0 / 0, 100⟩ }
      let place := (t.placeOf .zero e).toOffset
      t.entry? t.rootId = some e ∧ (e.block.fullBoxes place).length = 2 ∧
        (∀ box ∈ e.block.fullBoxes place, box.isFinite = false) ∧
        e.block.marks style.metrics place = [label, handle] ∧
        (label ∈ t.draw style.metrics .zero ∧ label.isFinite = false) ∧
        handle ∈ t.draw style.metrics .zero ∧ handle.isFinite = false := by
  intro style
  have hRead : Node.read "a + b" = .ok (.operator .add [.symbol "a", .symbol "b"]) := by cbv
  obtain ⟨tree, f, s, cs, hTree, hRoot⟩ : ∃ tree f s cs,
      style.layOutText "a + b" = .ok tree ∧ tree.root = .branch f s cs := by
    rw [Style.layOutText, hRead]
    exact ⟨_, _, _, _, rfl, rfl⟩
  let t := { tree with origin := (⟨0 / 0, 100⟩ : Point Float) }
  let e := (Spot.ofRoot t.root).entry
  let place := (t.placeOf .zero e).toOffset
  have hBlock : e.block = .branch f s cs := hRoot
  have hOrigin : (⟨0 / 0, 100⟩ : Point Float).isFinite = false := by decide +kernel
  have hNowhere {primitive : Primitive Float}
      (h : primitive ∈ e.block.fullBoxes place ++ e.block.marks style.metrics place) :
      primitive.isFinite = false := by
    by_contra hFinite
    have hPlace := Block.isFinite_of_primitive h (Bool.eq_true_of_not_eq_false hFinite)
    have hShifted := Point.isFinite_of_along List.nil_suffix hPlace
    rw [(Point.isFinite_of_add hShifted).1] at hOrigin
    cases hOrigin
  have hDrawn {primitive : Primitive Float} (h : primitive ∈ e.block.marks style.metrics place) :
      primitive ∈ t.draw style.metrics .zero ∧ primitive.isFinite = false :=
    ⟨Block.mem_draw_of_mem_marks h, hNowhere (List.mem_append_right _ h)⟩
  have hBoxes : (e.block.fullBoxes place).length = 2 := by
    rw [hBlock]
    rfl
  rw [hBlock] at hDrawn
  refine ⟨tree, e, _, _, hTree, t.entry?_rootId, hBoxes,
    fun box hBox => hNowhere (List.mem_append_left _ hBox), congrArg (Block.marks _ _) hBlock,
    hDrawn (.head _), hDrawn (.tail _ (.head _))⟩

end BlockTree

end Blockwork
