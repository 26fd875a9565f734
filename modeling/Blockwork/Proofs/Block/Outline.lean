import Mathlib.Algebra.Order.Field.Basic
import Mathlib.Tactic.Ring
import Blockwork.Proofs.Block.Exchange
import Blockwork.Proofs.Block.Nesting
import Blockwork.Proofs.Plane.Rounded

/-! # Outlines

A branch takes the pointer inside its outline, which has the same width on every side. Its holes
have the types of its children and leave a gap between any two of them. Where a text puts a number
branch, the holes are level with it, and without a truth value inside it is at least as wide as it
is high.
-/

set_option autoImplicit false

namespace Blockwork

variable {F : Type} [Field F] [LinearOrder F] [IsStrictOrderedRing F]

theorem Rect.inOrder_ordered (r : Rect F) : r.ordered.InOrder := ⟨min_le_max, min_le_max⟩

theorem Rect.inset_outlined {layer : Size F} (h : layer.Proper) {line : F} (hLine : 0 ≤ line) :
    ofOriginSize ⟨line, line⟩ layer = (ofOriginSize .origin
      ⟨line + layer.width + line, line + layer.height + line⟩).inset line := by
  obtain ⟨hBox, -⟩ := Style.outlined_branch h hLine
  rw [ofOriginSize_eq h, ofOriginSize_eq hBox]
  simp only [inset, Point.origin, Nat.cast_zero, zero_add, mk.injEq, true_and]
  constructor <;> ring

namespace Style

/-- A plan draws its event layer inside an outline and its holes with a gap between them. -/
structure Frames (style : Style F) (children : List (Occupant F)) (plan : BranchPlan F) :
    Prop where
  layer : plan.shape.eventLayer =
    (Rect.ofOriginSize .origin plan.size).inset style.metrics.lineWidth
  order : plan.shape.eventLayer.InOrder
  types : plan.shape.holes.map (·.type) = children.map (·.type)
  spaced : plan.shape.holes.Pairwise fun h k =>
    h.rect.x1 < k.rect.x0 ∨ h.rect.y1 + style.metrics.padding ≤ k.rect.y0

def Level (plan : BranchPlan F) : Prop :=
  ∀ h ∈ plan.shape.holes, h.rect.y0 + h.rect.y1 = plan.size.height

/-- A box that is wide enough to stay wide beside a label. -/
structure Broad (style : Style F) (size : Size F) : Prop where
  room : style.metrics.minTextWidth ≤ size.width
  height : size.height ≤ size.width + style.metrics.minTextWidth

section

variable {style : Style F} {left right child : Occupant F} (label : String)

theorem frames_beside (h : style.metrics.Sound)
    (hLeft : (style.slotSize left).Proper) (hRight : (style.slotSize right).Proper) :
    style.Frames [left, right] (style.beside label left right) := by
  have hSign := h.operatorWidth
  constructor
  · exact Rect.inset_outlined (proper_layer_beside h hLeft hRight) h.lineWidth
  · exact Rect.inOrder_ordered _
  · rfl
  · dsimp only [beside]
    rw [List.pairwise_pair]
    left
    rw [Rect.ofOriginSize_eq hLeft, Rect.ofOriginSize_eq hRight]
    simp only [Rect.add_offset]
    linarith

theorem level_beside (hLeft : (style.slotSize left).Proper)
    (hRight : (style.slotSize right).Proper) : Level (style.beside label left right) := by
  intro hole hHole
  dsimp only [beside] at hHole ⊢
  rw [Rect.ofOriginSize_eq hLeft, Rect.ofOriginSize_eq hRight] at hHole
  simp only [List.mem_cons, List.not_mem_nil, or_false] at hHole
  rcases hHole with rfl | rfl
  · simp only [Rect.add_offset, Nat.cast_ofNat]
    ring
  · simp only [Rect.add_offset, Nat.cast_ofNat]
    ring

theorem broad_beside (h : style.metrics.Sound) (hLeft : style.Broad (style.slotSize left))
    (hRight : style.Broad (style.slotSize right)) :
    style.metrics.minTextWidth ≤ (style.beside label left right).size.width ∧
      (style.beside label left right).size.height ≤
        (style.beside label left right).size.width := by
  obtain ⟨hText, hSign, hMin, hPad, hLine⟩ := h
  obtain ⟨hlRoom, hlHeight⟩ := hLeft
  obtain ⟨hrRoom, hrHeight⟩ := hRight
  have hMax : max (style.slotSize left).height (style.slotSize right).height ≤
      (style.slotSize left).width + (style.slotSize right).width :=
    max_le (by linarith) (by linarith)
  dsimp only [beside]
  constructor <;> linarith

theorem types_column (labelWidth depth widest : F) (children : List (Occupant F)) :
    (style.column labelWidth depth widest children).holes.map (·.type) = children.map (·.type) := by
  induction children generalizing depth widest with
  | nil => rfl
  | cons child later ih =>
    rw [column, List.map_cons, List.map_cons, ih]

theorem spaced_column (h : style.metrics.Sound) (labelWidth : F) {children : List (Occupant F)}
    (hChildren : ∀ child ∈ children, (style.slotSize child).Proper) (depth widest : F) :
    (style.column labelWidth depth widest children).holes.Pairwise fun h k =>
      h.rect.y1 + style.metrics.padding ≤ k.rect.y0 := by
  induction children generalizing depth widest with
  | nil => exact .nil
  | cons child later ih =>
    obtain ⟨hChild, hLater⟩ := List.forall_mem_cons.mp hChildren
    rw [column]
    apply List.Pairwise.cons ?_ (ih hLater _ _)
    intro hole hHole
    obtain ⟨-, -, hTop, -⟩ := (stands_column h labelWidth hLater _ _).inside hole hHole
    rw [Rect.ofOriginSize_eq hChild]
    dsimp only
    linarith

theorem frames_stack (h : style.metrics.Sound) {children : List (Occupant F)}
    (hChildren : ∀ child ∈ children, (style.slotSize child).Proper) :
    style.Frames children (style.stack label children) := by
  have hLabel := labelBox_pos h label style.metrics.operatorFont
  have hPad := h.padding
  have hStands := stands_column h
    (style.metrics.padding + style.labelBox label style.metrics.operatorFont) hChildren
    ((0 : Nat) : F) ((0 : Nat) : F)
  have hWidest := hStands.broader
  rw [Nat.cast_zero] at hWidest
  constructor
  · apply Rect.inset_outlined ?_ h.lineWidth
    rw [Nat.cast_zero]
    exact proper_layer_stack hPad hLabel hWidest _
  · exact Rect.inOrder_ordered _
  · dsimp only [stack]
    rw [List.map_map, ← types_column]
    rfl
  · dsimp only [stack]
    rw [List.pairwise_map]
    apply (spaced_column h _ hChildren _ _).imp
    intro upper lower hAbove
    right
    simp only [Rect.add_offset]
    linarith

theorem level_stack (hChild : (style.slotSize child).Proper) :
    Level (style.stack label [child]) := by
  intro hole hHole
  obtain ⟨-, hHeight⟩ := Size.proper_iff.mp hChild
  simp only [stack, column, List.map_cons, List.map_nil, List.mem_singleton,
    Nat.cast_zero] at hHole ⊢
  subst hHole
  rw [Rect.ofOriginSize_eq hChild, zero_add, add_sub_cancel_right, max_eq_left hHeight]
  simp only [Rect.add_offset]
  ring

theorem broad_stack (h : style.metrics.Sound) (hProper : (style.slotSize child).Proper)
    (hChild : style.Broad (style.slotSize child)) :
    style.metrics.minTextWidth ≤ (style.stack label [child]).size.width ∧
      (style.stack label [child]).size.height ≤ (style.stack label [child]).size.width := by
  obtain ⟨hText, hSign, hMin, hPad, hLine⟩ := h
  obtain ⟨hRoom, hHigh⟩ := hChild
  obtain ⟨hWidth, hHeight⟩ := Size.proper_iff.mp hProper
  have hLabel : style.metrics.minTextWidth ≤ style.labelBox label style.metrics.operatorFont :=
    le_max_right _ _
  simp only [stack, column, Nat.cast_zero, zero_add, add_sub_cancel_right, max_eq_left hHeight,
    max_eq_right hWidth]
  constructor <;> linarith

theorem frames_plan (h : style.metrics.Sound) (stacked : Bool) {children : List (Occupant F)}
    (hChildren : ∀ child ∈ children, (style.slotSize child).Proper) :
    style.Frames children (style.plan label stacked children) := by
  unfold plan
  split
  · split
    · exact frames_stack label h hChildren
    · apply frames_beside label h
      · exact hChildren _ (List.mem_cons_self)
      · exact hChildren _ (List.mem_cons_of_mem _ List.mem_cons_self)
  · exact frames_stack label h hChildren

/-- Two narrow label boxes make up for the height of a line of text. -/
theorem broad_atom (h : style.metrics.Sound)
    (hWide : style.metrics.textHeight ≤ 2 * style.metrics.minTextWidth) (label : String)
    (type : SlotType) : style.Broad (style.slotSize ⟨(style.atom label).1, true, type⟩) := by
  have hLabel : style.metrics.minTextWidth ≤ style.labelBox label style.metrics.labelFont :=
    le_max_right _ _
  have hLine := h.lineWidth
  simp only [slotSize, atom, if_true, Nat.cast_ofNat]
  constructor <;> dsimp only <;> linarith

end

end Style

/-- How the outline and the holes of a branch go with its frame and its children. -/
structure BranchShape.Outlines (style : Style F) (s : BranchShape F) (f : Frame F)
    (children : List (Block F)) : Prop where
  layer : s.eventLayer = (Rect.ofOriginSize .origin f.size).inset style.metrics.lineWidth
  order : s.eventLayer.InOrder
  types : ∀ (k : Nat) (c : Block F) (h : Hole F), children[k]? = some c → s.holes[k]? = some h →
    h.type = c.frame.type
  spaced : s.holes.Pairwise fun h k =>
    h.rect.x1 < k.rect.x0 ∨ h.rect.y1 + style.metrics.padding ≤ k.rect.y0
  type : f.type ≠ .string
  level : f.type = .number → ∀ h ∈ s.holes, h.rect.y0 + h.rect.y1 = f.size.height

namespace Block

def Outlined (style : Style F) : Block F → Prop
  | .leaf _ _ => True
  | .branch f s cs => s.Outlines style f cs

theorem Outlined.withOffset {style : Style F} {b : Block F} (h : b.Outlined style)
    (offset : Offset F) : (b.withOffset offset).Outlined style := by
  cases b with
  | leaf => trivial
  | branch => exact ⟨h.layer, h.order, h.types, h.spaced, h.type, h.level⟩

end Block

def Block.Arithmetic {K : Type} (b : Block K) : Prop :=
  ∀ path c, b.descend path = some c → c.isLeaf = false → c.frame.type = .number

namespace Block.Arithmetic

variable {K : Type} {b c : Block K}

theorem child {k : Nat} (h : b.Arithmetic) (hc : b.children[k]? = some c) : c.Arithmetic := by
  intro path d hd
  apply h (k :: path)
  rw [descend, hc]
  exact hd

theorem of_withOffset {offset : Offset K} (h : (b.withOffset offset).Arithmetic) :
    b.Arithmetic := by
  rintro (_ | ⟨k, path⟩) c hc
  · obtain rfl := Option.some.inj hc
    have hSelf := h [] _ rfl
    rwa [isLeaf_withOffset, type_withOffset] at hSelf
  · apply h (k :: path)
    rw [descend, children_withOffset]
    exact hc

end Block.Arithmetic

namespace Node

theorem ne_string_of_resultType {n : Node} {type : SlotType} (h : n.resultType = .ok type) :
    type ≠ .string := by
  rintro rfl
  rw [resultType] at h
  split at h
  · split at h <;> cases h
  · split at h <;> cases h
  · cases h

theorem family_of_number {op : Operator} {ns : List Node}
    (h : (Node.operator op ns).resultType = .ok .number) : op.family = some .arithmetic := by
  simp only [resultType, bare] at h
  split at h <;> first | assumption | cases h

theorem call_ne_number {name : String} {ns : List Node} :
    (Node.call name ns).resultType ≠ .ok .number := by
  intro h
  simp only [resultType, bare] at h
  split at h <;> cases h

end Node

namespace Style

variable {style : Style F} {children : List (Block F)} {label : String} {stacked : Bool}
  {type : SlotType} {expression : String} {address : Address}

theorem outlined_branchBlock (h : style.metrics.Sound)
    (hChildren : ∀ c ∈ children, c.Seated style) (hType : type ≠ .string)
    (hLevel : type = .number → Level (style.plan label stacked (children.map Block.occupant))) :
    (style.branchBlock label stacked type expression address children).Outlined style := by
  have hFrames : style.Frames (children.map Block.occupant)
      (style.plan label stacked (children.map Block.occupant)) := by
    apply frames_plan label h
    intro child hChild
    obtain ⟨c, hc, rfl⟩ := List.mem_map.mp hChild
    exact (hChildren c hc).proper
  refine ⟨hFrames.layer, hFrames.order, ?_, hFrames.spaced, hType, hLevel⟩
  intro k c hole hc hHole
  obtain ⟨inner, offset, hInner, -, rfl⟩ := List.getElem?_zipWith_eq_some.mp hc
  have hTypes := congrArg (·[k]?) hFrames.types
  simp only [List.getElem?_map, hHole, hInner, Option.map_some] at hTypes
  rw [Block.type_withOffset]
  exact Option.some.inj hTypes

theorem arithmetic_of_branchBlock
    (h : (style.branchBlock label stacked type expression address children).Arithmetic) :
    type = .number ∧ ∀ c ∈ children, c.Arithmetic := by
  refine ⟨h [] _ rfl rfl, ?_⟩
  intro c hc
  obtain ⟨k, hk⟩ := List.mem_iff_getElem?.mp hc
  have hBound := (List.getElem?_eq_some_iff.mp hk).1
  have hLength := style.length_offsets_plan label stacked (children.map Block.occupant)
  rw [List.length_map] at hLength
  rw [← hLength] at hBound
  apply Block.Arithmetic.of_withOffset
  exact h.child (List.getElem?_zipWith_eq_some.mpr
    ⟨c, _, hk, List.getElem?_eq_getElem hBound, rfl⟩)

end Style

namespace Node

variable {style : Style F}

theorem exists_singleton_of_layOutAll {node n : Node} {text : String} {trail : Address} {k : Nat}
    {children : List (Block F)} (h : layOutAll style node text trail k [n] = .ok children) :
    ∃ c, children = [c] ∧ n.layOut style (some ⟨node, text, k⟩) trail = .ok c := by
  rw [layOutAll, layOutAll] at h
  split at h
  · cases h
  · rename_i c hc
    obtain rfl := Except.ok.inj h
    exact ⟨c, rfl, hc⟩

theorem exists_pair_of_layOutAll {node l r : Node} {text : String} {trail : Address} {k : Nat}
    {children : List (Block F)} (h : layOutAll style node text trail k [l, r] = .ok children) :
    ∃ c d, children = [c, d] ∧ l.layOut style (some ⟨node, text, k⟩) trail = .ok c ∧
      r.layOut style (some ⟨node, text, k + 1⟩) trail = .ok d := by
  rw [layOutAll] at h
  split at h
  · cases h
  · rename_i c hc
    split at h
    · cases h
    · rename_i rest hRest
      obtain rfl := Except.ok.inj h
      obtain ⟨d, rfl, hd⟩ := exists_singleton_of_layOutAll hRest
      exact ⟨c, d, rfl, hc, hd⟩

theorem isStacked_of_arithmetic {op : Operator} (hFamily : op.family = some .arithmetic)
    (hBinary : op.isUnary = false) : op.isStacked 2 = false := by
  simp [Operator.isStacked, hFamily, hBinary]

theorem outlined_of_layOut (hSound : style.metrics.Sound) {n : Node} (hn : n.Readable)
    {above : Option Parent} {trail : Address} {b : Block F}
    (h : n.layOut style above trail = .ok b) : b.Outlined style := by
  induction hn generalizing above trail with
  | symbol | literal =>
    rw [layOut] at h
    split at h
    · cases h
    · obtain rfl := Except.ok.inj h
      trivial
  | @unary op n _ _ =>
    obtain ⟨type, children, hType, hChildren, rfl⟩ := layOut_operator_inv h
    have hSeated := seated_of_layOutAll hSound hChildren
    obtain ⟨c, rfl, -⟩ := exists_singleton_of_layOutAll hChildren
    apply Style.outlined_branchBlock hSound hSeated (ne_string_of_resultType hType)
    intro _
    exact Style.level_stack op.symbol (hSeated c List.mem_cons_self).proper
  | @binary op l r hBinary _ _ =>
    obtain ⟨type, children, hType, hChildren, rfl⟩ := layOut_operator_inv h
    have hSeated := seated_of_layOutAll hSound hChildren
    obtain ⟨c, d, rfl, -⟩ := exists_pair_of_layOutAll hChildren
    apply Style.outlined_branchBlock hSound hSeated (ne_string_of_resultType hType)
    rintro rfl
    have hStacks : op.isStacked [l, r].length = false :=
      isStacked_of_arithmetic (family_of_number hType) hBinary
    rw [hStacks]
    exact Style.level_beside op.symbol (hSeated c List.mem_cons_self).proper
      (hSeated d (List.mem_cons_of_mem _ List.mem_cons_self)).proper
  | @call name ns _ _ =>
    obtain ⟨type, children, hType, hChildren, rfl⟩ := layOut_call_inv h
    apply Style.outlined_branchBlock hSound (seated_of_layOutAll hSound hChildren)
      (ne_string_of_resultType hType)
    rintro rfl
    exact (call_ne_number hType).elim
  | group _ ih =>
    rw [layOut] at h
    exact ih h

/-- Without truth values in it a block is broad, and a branch is at least as wide as it is high. -/
theorem broad_of_layOut (hSound : style.metrics.Sound)
    (hWide : style.metrics.textHeight ≤ 2 * style.metrics.minTextWidth) {n : Node}
    (hn : n.Readable) {above : Option Parent} {trail : Address} {b : Block F}
    (h : n.layOut style above trail = .ok b) (hNumbers : b.Arithmetic) :
    style.Broad (style.slotSize b.occupant) ∧
      (b.isLeaf = false → b.frame.size.height ≤ b.frame.size.width) := by
  have hBranch {size : Size F} (hSize : style.metrics.minTextWidth ≤ size.width ∧
      size.height ≤ size.width) : style.Broad size :=
    ⟨hSize.1, hSize.2.trans (le_add_of_nonneg_right hSound.minTextWidth.le)⟩
  induction hn generalizing above trail b with
  | @symbol name =>
    rw [layOut] at h
    split at h
    · cases h
    · obtain rfl := Except.ok.inj h
      refine ⟨Style.broad_atom hSound hWide .., ?_⟩
      rintro ⟨⟩
  | @literal v =>
    rw [layOut] at h
    split at h
    · cases h
    · obtain rfl := Except.ok.inj h
      refine ⟨Style.broad_atom hSound hWide .., ?_⟩
      rintro ⟨⟩
  | @unary op n _ _ ih =>
    obtain ⟨type, children, -, hChildren, rfl⟩ := layOut_operator_inv h
    have hSeated := seated_of_layOutAll hSound hChildren
    obtain ⟨c, rfl, hc⟩ := exists_singleton_of_layOutAll hChildren
    obtain ⟨-, hInner⟩ := Style.arithmetic_of_branchBlock hNumbers
    have hSize := Style.broad_stack op.symbol hSound (hSeated c List.mem_cons_self).proper
      (ih hc (hInner c List.mem_cons_self)).1
    exact ⟨hBranch hSize, fun _ => hSize.2⟩
  | @binary op l r hBinary _ _ ihl ihr =>
    obtain ⟨type, children, hType, hChildren, rfl⟩ := layOut_operator_inv h
    obtain ⟨c, d, rfl, hc, hd⟩ := exists_pair_of_layOutAll hChildren
    obtain ⟨rfl, hInner⟩ := Style.arithmetic_of_branchBlock hNumbers
    have hStacks : op.isStacked [l, r].length = false :=
      isStacked_of_arithmetic (family_of_number hType) hBinary
    have hSize := Style.broad_beside op.symbol hSound (ihl hc (hInner c List.mem_cons_self)).1
      (ihr hd (hInner d (List.mem_cons_of_mem _ List.mem_cons_self))).1
    rw [hStacks]
    exact ⟨hBranch hSize, fun _ => hSize.2⟩
  | @call name ns _ _ =>
    obtain ⟨type, children, hType, -, rfl⟩ := layOut_call_inv h
    obtain ⟨rfl, -⟩ := Style.arithmetic_of_branchBlock hNumbers
    exact (call_ne_number hType).elim
  | group _ ih =>
    rw [layOut] at h
    exact ih h hNumbers

end Node

end Blockwork
