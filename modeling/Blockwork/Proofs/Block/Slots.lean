import Mathlib.Algebra.Order.Field.Basic
import Mathlib.Tactic.Ring
import Blockwork.Block.Arrange
import Blockwork.Proofs.Plane.Exact

/-! # Slots

A branch cuts one hole for each of its children and moves the child so that it fills the hole. A
leaf fills it with its background, since it draws its own padding, and a branch with all of its
box. Every hole stays a padding away from the edge of the event layer, so what surrounds a leaf's
background stays inside the branch too.
-/

set_option autoImplicit false

namespace Blockwork

section

variable {K : Type} [Scalar K]

namespace Style

/-- The padding that a child draws around itself. -/
def margin (style : Style K) (child : Occupant K) : K :=
  if child.isLeaf then style.metrics.padding else ((0 : Nat) : K)

/-- The part of a child that fills its slot, in the child's own coordinates. -/
def seat (style : Style K) (child : Occupant K) : Rect K :=
  .ofOriginSize ⟨style.margin child, style.margin child⟩ (style.slotSize child)

end Style

end

variable {F : Type} [Field F] [LinearOrder F] [IsStrictOrderedRing F]

structure Metrics.Sound (m : Metrics F) : Prop where
  textHeight : 0 < m.textHeight
  operatorWidth : 0 < m.operatorWidth
  minTextWidth : 0 < m.minTextWidth
  padding : 0 ≤ m.padding
  lineWidth : 0 ≤ m.lineWidth

namespace Style

/-- A plan seats its children: every child fills a hole of its own. -/
structure Seats (style : Style F) (children : List (Occupant F)) (plan : BranchPlan F) :
    Prop where
  proper : plan.size.Proper
  background : plan.shape.background = .ofOriginSize .origin plan.size
  eventLayer : plan.shape.eventLayer.Within plan.shape.background
  rim : ∀ h ∈ plan.shape.holes,
    (h.rect.grown style.metrics.padding).Within plan.shape.eventLayer
  apart : plan.shape.holes.Pairwise fun h k => h.rect.Apart k.rect
  length : plan.shape.holes.length = children.length
  seated : ∀ (k : Nat) (child : Occupant F) (hole : Hole F) (offset : Offset F),
    children[k]? = some child → plan.shape.holes[k]? = some hole →
      plan.offsets[k]? = some offset → style.seat child + offset = hole.rect

variable {style : Style F}

theorem labelBox_pos (h : style.metrics.Sound) (label : String) (font : F) :
    0 < style.labelBox label font :=
  lt_max_of_lt_right h.minTextWidth

theorem margin_bounds (h : style.metrics.Sound) (child : Occupant F) :
    0 ≤ style.margin child ∧ style.margin child ≤ style.metrics.padding := by
  rw [margin]
  split
  · exact ⟨h.padding, le_refl _⟩
  · rw [Nat.cast_zero]
    exact ⟨le_refl _, h.padding⟩

theorem size_eq (style : Style F) (child : Occupant F) :
    child.size =
      ⟨style.margin child + (style.slotSize child).width + style.margin child,
        style.margin child + (style.slotSize child).height + style.margin child⟩ := by
  obtain ⟨⟨width, height⟩, isLeaf, type⟩ := child
  cases isLeaf
  · simp [margin, slotSize]
  · simp only [margin, slotSize, if_true, Nat.cast_ofNat, Size.mk.injEq]
    constructor <;> ring

theorem proper_size (h : style.metrics.Sound) {child : Occupant F}
    (hSlot : (style.slotSize child).Proper) : child.size.Proper := by
  obtain ⟨hMargin, -⟩ := margin_bounds h child
  obtain ⟨hWidth, hHeight⟩ := Size.proper_iff.mp hSlot
  rw [size_eq style child]
  apply Size.proper_iff.mpr
  constructor <;> dsimp only <;> linarith

theorem seat_within (h : style.metrics.Sound) {child : Occupant F}
    (hSlot : (style.slotSize child).Proper) :
    (style.seat child).Within (.ofOriginSize .origin child.size) := by
  obtain ⟨hMargin, -⟩ := margin_bounds h child
  rw [seat, Rect.ofOriginSize_eq hSlot, Rect.ofOriginSize_eq (proper_size h hSlot),
    size_eq style child]
  simp only [Rect.Within, Point.origin, Nat.cast_zero]
  refine ⟨?_, ?_, ?_, ?_⟩ <;> linarith

theorem seat_add {child : Occupant F} (h : (style.slotSize child).Proper) {offset : Offset F}
    {corner : Point F} {line : F}
    (hx : style.margin child + offset.x = corner.x + line)
    (hy : style.margin child + offset.y = corner.y + line) :
    style.seat child + offset =
      Rect.ofOriginSize corner (style.slotSize child) + (⟨line, line⟩ : Offset F) := by
  rw [seat, Rect.ofOriginSize_eq h, Rect.ofOriginSize_eq h, Rect.add_offset, Rect.add_offset]
  simp only [Rect.mk.injEq]
  refine ⟨hx, hy, ?_, ?_⟩
  · linarith
  · linarith

theorem outlined {layer : Size F} (h : layer.Proper) {line : F} (hLine : 0 ≤ line)
    (origin corner : Point F) (hx : corner.x = origin.x + line) (hy : corner.y = origin.y + line) :
    let box : Size F := ⟨line + layer.width + line, line + layer.height + line⟩
    box.Proper ∧ (Rect.ofOriginSize corner layer).Within (.ofOriginSize origin box) := by
  intro box
  have hBox : box.Proper := by
    obtain ⟨hWidth, hHeight⟩ := Size.proper_iff.mp h
    apply Size.proper_iff.mpr
    constructor <;> dsimp only [box] <;> linarith
  refine ⟨hBox, ?_⟩
  rw [Rect.ofOriginSize_eq h, Rect.ofOriginSize_eq hBox]
  simp only [Rect.Within, box]
  refine ⟨?_, ?_, ?_, ?_⟩ <;> linarith

theorem outlined_branch {layer : Size F} (h : layer.Proper) {line : F} (hLine : 0 ≤ line) :
    let box : Size F := ⟨line + layer.width + line, line + layer.height + line⟩
    box.Proper ∧ (Rect.ofOriginSize ⟨line, line⟩ layer).Within (.ofOriginSize .origin box) := by
  apply outlined h hLine .origin ⟨line, line⟩ <;> simp [Point.origin]

theorem proper_layer_beside (h : style.metrics.Sound) {left right : Occupant F}
    (hLeft : (style.slotSize left).Proper) (hRight : (style.slotSize right).Proper) :
    Size.Proper
      ⟨style.metrics.padding + ((style.slotSize left).width + style.metrics.operatorWidth +
        (style.slotSize right).width) + style.metrics.padding,
        style.metrics.padding + max (style.slotSize left).height (style.slotSize right).height +
          style.metrics.padding⟩ := by
  have hSign := h.operatorWidth
  have hPad := h.padding
  obtain ⟨hlWidth, hlHeight⟩ := Size.proper_iff.mp hLeft
  obtain ⟨hrWidth, -⟩ := Size.proper_iff.mp hRight
  have hMax := hlHeight.trans (le_max_left _ (style.slotSize right).height)
  apply Size.proper_iff.mpr
  constructor <;> dsimp only <;> linarith

theorem proper_layer_stack {pad box widest : F} (hPad : 0 ≤ pad) (hBox : 0 < box)
    (hWidest : 0 ≤ widest) (depth : F) :
    Size.Proper ⟨pad + box + widest + pad, pad + max (depth - pad) 0 + pad⟩ := by
  have hNone := le_max_right (depth - pad) 0
  apply Size.proper_iff.mpr
  constructor <;> dsimp only <;> linarith

theorem seats_beside (h : style.metrics.Sound) (label : String) {left right : Occupant F}
    (hLeft : (style.slotSize left).Proper) (hRight : (style.slotSize right).Proper) :
    style.Seats [left, right] (style.beside label left right) := by
  have hSign := h.operatorWidth
  have hPad := h.padding
  obtain ⟨hlWidth, hlHeight⟩ := Size.proper_iff.mp hLeft
  obtain ⟨hrWidth, hrHeight⟩ := Size.proper_iff.mp hRight
  have hlMax := le_max_left (style.slotSize left).height (style.slotSize right).height
  have hrMax := le_max_right (style.slotSize left).height (style.slotSize right).height
  have hEvent := proper_layer_beside h hLeft hRight
  obtain ⟨hProper, hLayer⟩ := outlined_branch hEvent h.lineWidth
  constructor
  · exact hProper
  · rfl
  · exact hLayer
  · intro hole hHole
    dsimp only [beside, Offset.toPoint] at hHole ⊢
    rw [Rect.ofOriginSize_eq hEvent]
    rw [Rect.ofOriginSize_eq hLeft, Rect.ofOriginSize_eq hRight] at hHole
    simp only [List.mem_cons, List.not_mem_nil, or_false] at hHole
    rcases hHole with rfl | rfl
    · simp only [Rect.add_offset, Rect.grown, Rect.Within, Nat.cast_ofNat]
      refine ⟨?_, ?_, ?_, ?_⟩ <;> linarith
    · simp only [Rect.add_offset, Rect.grown, Rect.Within, Nat.cast_ofNat]
      refine ⟨?_, ?_, ?_, ?_⟩ <;> linarith
  · dsimp only [beside]
    rw [List.pairwise_pair]
    apply Rect.apart_of_left
    rw [Rect.ofOriginSize_eq hLeft, Rect.ofOriginSize_eq hRight]
    simp only [Rect.add_offset]
    linarith
  · rfl
  · rintro (_ | _ | k) child hole offset hChild hHole hOffset
    · obtain rfl := Option.some.inj hChild
      obtain rfl := Option.some.inj hHole
      obtain rfl := Option.some.inj hOffset
      apply seat_add hLeft
      · rw [margin, Rect.ofOriginSize_eq hLeft]
        split <;> push_cast <;> ring
      · rw [margin, Rect.ofOriginSize_eq hLeft]
        split <;> push_cast <;> ring
    · obtain rfl := Option.some.inj hChild
      obtain rfl := Option.some.inj hHole
      obtain rfl := Option.some.inj hOffset
      apply seat_add hRight
      · rw [margin, Rect.ofOriginSize_eq hRight]
        split <;> push_cast <;> ring
      · rw [margin, Rect.ofOriginSize_eq hRight]
        split <;> push_cast <;> ring
    · cases hChild

/-- What holds of a column below a depth, beside a label of some width. -/
structure Stands (style : Style F) (labelWidth depth widest : F) (children : List (Occupant F))
    (slots : Column F) : Prop where
  broader : widest ≤ slots.widest
  deeper : depth ≤ slots.depth
  inside : ∀ h ∈ slots.holes, h.rect.x0 = labelWidth ∧ h.rect.x1 ≤ labelWidth + slots.widest ∧
    style.metrics.padding + depth ≤ h.rect.y0 ∧ h.rect.y1 ≤ slots.depth
  descending : slots.holes.Pairwise fun h k => h.rect.y1 ≤ k.rect.y0
  length : slots.holes.length = children.length
  seated : ∀ (k : Nat) (child : Occupant F) (hole : Hole F) (offset : Offset F),
    children[k]? = some child → slots.holes[k]? = some hole →
      slots.offsets[k]? = some offset →
        style.seat child + offset =
          hole.rect + (⟨style.metrics.lineWidth, style.metrics.lineWidth⟩ : Offset F)

theorem stands_column (h : style.metrics.Sound) (labelWidth : F) {children : List (Occupant F)}
    (hChildren : ∀ child ∈ children, (style.slotSize child).Proper) (depth widest : F) :
    style.Stands labelWidth depth widest children
      (style.column labelWidth depth widest children) := by
  induction children generalizing depth widest with
  | nil => exact ⟨le_refl _, le_refl _, nofun, .nil, rfl, nofun⟩
  | cons child later ih =>
    obtain ⟨hChild, hLater⟩ := List.forall_mem_cons.mp hChildren
    obtain ⟨hWidth, hHeight⟩ := Size.proper_iff.mp hChild
    have hPad := h.padding
    obtain ⟨hWidest, hDepth, hInside, hDescending, hLength, hSeated⟩ := ih hLater
      (depth + ((style.slotSize child).height + style.metrics.padding))
      (max widest (style.slotSize child).width)
    have hMax := le_max_left widest (style.slotSize child).width
    have hOwn := le_max_right widest (style.slotSize child).width
    rw [column]
    constructor
    · exact hMax.trans hWidest
    · dsimp only
      linarith
    · intro hole hHole
      rcases List.mem_cons.mp hHole with rfl | hHole
      · dsimp only
        rw [Rect.ofOriginSize_eq hChild]
        refine ⟨rfl, ?_, ?_, ?_⟩ <;> dsimp only <;> linarith
      · obtain ⟨hLeft, hRight, hTop, hBottom⟩ := hInside hole hHole
        refine ⟨hLeft, hRight, ?_, hBottom⟩
        linarith
    · apply List.Pairwise.cons ?_ hDescending
      intro hole hHole
      obtain ⟨-, -, hTop, -⟩ := hInside hole hHole
      rw [Rect.ofOriginSize_eq hChild]
      dsimp only
      linarith
    · exact congrArg Nat.succ hLength
    · rintro (_ | k) c hole offset hc hHole hOffset
      · obtain rfl := Option.some.inj hc
        obtain rfl := Option.some.inj hHole
        obtain rfl := Option.some.inj hOffset
        apply seat_add hChild
        · rw [margin]
          split <;> push_cast <;> ring
        · rw [margin]
          split <;> push_cast <;> ring
      · exact hSeated k c hole offset hc hHole hOffset

theorem seats_stack (h : style.metrics.Sound) (label : String) {children : List (Occupant F)}
    (hChildren : ∀ child ∈ children, (style.slotSize child).Proper) :
    style.Seats children (style.stack label children) := by
  have hLabel := labelBox_pos h label style.metrics.operatorFont
  have hPad := h.padding
  have hStands := stands_column h
    (style.metrics.padding + style.labelBox label style.metrics.operatorFont) hChildren
    ((0 : Nat) : F) ((0 : Nat) : F)
  obtain ⟨hWidest, hDepth, hInside, hDescending, hLength, hSeated⟩ := hStands
  dsimp only [stack]
  generalize style.column (style.metrics.padding +
    style.labelBox label style.metrics.operatorFont) ((0 : Nat) : F) ((0 : Nat) : F) children =
    slots at *
  generalize style.labelBox label style.metrics.operatorFont = box at *
  simp only [Nat.cast_zero] at *
  have hMax := le_max_left (slots.depth - style.metrics.padding) 0
  have hEvent := proper_layer_stack hPad hLabel hWidest slots.depth
  obtain ⟨hProper, hLayer⟩ := outlined_branch hEvent h.lineWidth
  constructor
  · exact hProper
  · rfl
  · exact hLayer
  · intro hole hHole
    dsimp only [Offset.toPoint] at hHole ⊢
    rw [Rect.ofOriginSize_eq hEvent]
    obtain ⟨inner, hInner, rfl⟩ := List.mem_map.mp hHole
    obtain ⟨hLeft, hRight, hTop, hBottom⟩ := hInside inner hInner
    simp only [Rect.add_offset, Rect.grown, Rect.Within]
    refine ⟨?_, ?_, ?_, ?_⟩ <;> linarith
  · dsimp only
    rw [List.pairwise_map]
    apply hDescending.imp
    intro upper lower hAbove
    apply Rect.apart_of_above
    simp only [Rect.add_offset]
    linarith
  · dsimp only
    rw [List.length_map, hLength]
  · intro k child hole offset hChild hHole hOffset
    dsimp only at hHole hOffset
    rw [List.getElem?_map] at hHole
    obtain ⟨inner, hInner, rfl⟩ := Option.map_eq_some_iff.mp hHole
    exact hSeated k child inner offset hChild hInner hOffset

theorem seats_plan (h : style.metrics.Sound) (label : String) (stacked : Bool)
    {children : List (Occupant F)}
    (hChildren : ∀ child ∈ children, (style.slotSize child).Proper) :
    style.Seats children (style.plan label stacked children) := by
  unfold plan
  split
  · split
    · exact seats_stack h label hChildren
    · apply seats_beside h label
      · exact hChildren _ (List.mem_cons_self)
      · exact hChildren _ (List.mem_cons_of_mem _ List.mem_cons_self)
  · exact seats_stack h label hChildren

theorem Seats.bounds_within {children : List (Occupant F)} {plan : BranchPlan F}
    (h : style.Seats children plan) (hSound : style.metrics.Sound) {k : Nat}
    {child : Occupant F} {hole : Hole F} {offset : Offset F} (hChild : children[k]? = some child)
    (hSlot : (style.slotSize child).Proper) (hHole : plan.shape.holes[k]? = some hole)
    (hOffset : plan.offsets[k]? = some offset) :
    (Rect.ofOriginSize .origin child.size + offset).Within (.ofOriginSize .origin plan.size) := by
  have hRim := h.rim hole (List.mem_of_getElem? hHole)
  have hFilled := h.seated k child hole offset hChild hHole hOffset
  obtain ⟨hMargin, hPad⟩ := margin_bounds hSound child
  have hSize := proper_size hSound hSlot
  rw [← h.background]
  apply Rect.Within.trans ?_ (hRim.trans h.eventLayer)
  rw [← hFilled, seat, Rect.ofOriginSize_eq hSlot, Rect.ofOriginSize_eq hSize,
    size_eq style child]
  simp only [Rect.add_offset, Rect.grown, Rect.Within, Point.origin, Nat.cast_zero]
  refine ⟨?_, ?_, ?_, ?_⟩ <;> linarith

theorem atom_seated (h : style.metrics.Sound) (label : String) (type : SlotType) :
    let child : Occupant F := ⟨(style.atom label).1, true, type⟩
    (style.atom label).2.checkArea.Within (style.atom label).2.background ∧
      (style.slotSize child).Proper ∧ style.seat child = (style.atom label).2.background := by
  intro child
  have hLabel := labelBox_pos h label style.metrics.labelFont
  let check : Size F := ⟨style.labelBox label style.metrics.labelFont, style.metrics.textHeight⟩
  let box : Size F := ⟨style.metrics.lineWidth + check.width + style.metrics.lineWidth,
    style.metrics.lineWidth + check.height + style.metrics.lineWidth⟩
  have hCheck : check.Proper := Size.proper_iff.mpr ⟨hLabel.le, h.textHeight.le⟩
  obtain ⟨hBox, hInside⟩ := outlined hCheck h.lineWidth
    ⟨style.metrics.padding, style.metrics.padding⟩
    ⟨style.metrics.padding + style.metrics.lineWidth,
      style.metrics.padding + style.metrics.lineWidth⟩ rfl rfl
  have hSlot : style.slotSize child = box := by
    simp only [child, slotSize, atom, if_true, box, check, Size.mk.injEq]
    constructor <;> push_cast <;> ring
  refine ⟨hInside, ?_, ?_⟩
  · rwa [hSlot]
  · rw [seat, hSlot]
    rfl

end Style

end Blockwork
