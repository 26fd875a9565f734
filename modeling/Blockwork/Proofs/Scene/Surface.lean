import Blockwork.Proofs.Block.CheckArea
import Blockwork.Proofs.Scene.Strokes

/-! # The surface of a tree

The surface of a tree is calculated from its root alone. In exact arithmetic and under valid
settings it encloses with its margin all boxes and handles that are drawn, since every block
encloses its own and its children.
-/

set_option autoImplicit false

namespace Blockwork

section

variable {K : Type} [Scalar K]

def Rect.around (center : Point K) (radius : K) : Rect K :=
  ⟨center.x - radius, center.y - radius, center.x + radius, center.y + radius⟩

/-- What a box or a circle covers; the extent of a label is not known. -/
def Primitive.bounds? : Primitive K → Option (Rect K)
  | .roundRect rect _ _ _ => some rect
  | .circle center radius _ => some (.around center radius)
  | .label .. | .line .. => none

namespace Block

/-- The bounds of a block hold its shapes and its children. -/
def Encloses : Block K → Prop
  | .leaf f s =>
    let bounds := (Block.leaf f s).localBounds
    s.ring.Within bounds ∧ s.background.Within bounds ∧ s.checkArea.Within bounds
  | .branch f s cs =>
    let bounds := (Block.branch f s cs).localBounds
    s.background.Within bounds ∧ s.eventLayer.Within bounds ∧
      (Rect.around s.handleCenter s.handleRadius).Within bounds ∧
      ∀ c ∈ cs, (c.localBounds + c.frame.offset).Within bounds

variable {b c : Block K}

theorem Encloses.withOffset (h : b.Encloses) (offset : Offset K) :
    (b.withOffset offset).Encloses := by
  cases b <;> exact h

theorem Encloses.child (h : b.Encloses) (hc : c ∈ b.children) :
    (c.localBounds + c.frame.offset).Within b.localBounds := by
  cases b with
  | leaf f s => cases hc
  | branch f s cs => exact h.2.2.2 c hc

end Block

theorem Primitive.eq_of_mem_box {rect : Rect K} {radius opacity : K} {fill : Color}
    {primitive : Primitive K} (h : primitive ∈ box rect radius fill opacity) :
    primitive = .roundRect rect radius fill opacity := by
  rw [box] at h
  split at h
  · exact List.mem_singleton.mp h
  · cases h

end

variable {F : Type} [Field F] [LinearOrder F] [IsStrictOrderedRing F]

namespace Rect

variable {r s : Rect F}

theorem Within.refl (r : Rect F) : r.Within r :=
  ⟨le_rfl, le_rfl, le_rfl, le_rfl⟩

theorem Within.add (h : r.Within s) (v : Offset F) : (r + v).Within (s + v) := by
  obtain ⟨hLeft, hTop, hRight, hBottom⟩ := h
  exact ⟨add_le_add_left hLeft _, add_le_add_left hTop _, add_le_add_left hRight _,
    add_le_add_left hBottom _⟩

theorem around_add (center : Point F) (v : Offset F) (radius : F) :
    around (center + v) radius = around center radius + v := by
  rw [add_offset]
  simp only [around, Point.add_offset, mk.injEq]
  refine ⟨?_, ?_, ?_, ?_⟩ <;> ring

end Rect

theorem Block.Encloses.within {b : Block F} (h : b.Encloses) {metrics : Metrics F}
    {place : Offset F} {primitive : Primitive F}
    (hPrimitive : primitive ∈ b.boxes place ++ b.marks metrics place) {r : Rect F}
    (hr : primitive.bounds? = some r) : r.Within (b.localBounds + place) := by
  have hBox {rect : Rect F} {radius opacity : F} {fill : Color}
      (hRect : rect.Within b.localBounds)
      (hMem : primitive ∈ Primitive.box (rect + place) radius fill opacity) :
      r.Within (b.localBounds + place) := by
    obtain rfl := Primitive.eq_of_mem_box hMem
    obtain rfl := Option.some.inj hr
    exact hRect.add place
  cases b with
  | leaf f s =>
    obtain ⟨hRing, hBackground, hCheck⟩ := h
    simp only [boxes, marks, List.mem_append, List.mem_singleton] at hPrimitive
    rcases hPrimitive with ((hMem | hMem) | hMem) | rfl
    · rw [drawRing] at hMem
      split at hMem
      · exact hBox hRing hMem
      · cases hMem
    · exact hBox hBackground hMem
    · exact hBox hCheck hMem
    · cases hr
  | branch f s cs =>
    obtain ⟨hBackground, hLayer, hHandle, -⟩ := h
    simp only [boxes, marks, List.mem_append, List.mem_cons, List.not_mem_nil, or_false]
      at hPrimitive
    rcases hPrimitive with (hMem | hMem) | rfl | rfl
    · exact hBox hBackground hMem
    · exact hBox hLayer hMem
    · cases hr
    · obtain rfl := Option.some.inj hr
      rw [Rect.around_add]
      exact hHandle.add place

namespace Style

variable {style : Style F}

variable (label : String) (type : SlotType) (expression : String) (address : Address)

end Style

namespace Spot

variable {σ τ : Spot F} {path : List Nat}

def bounds (σ : Spot F) (origin : Point F) : Rect F :=
  σ.block.localBounds + (σ.place origin).toOffset

theorem bounds_within (hEncloses : ∀ path τ, σ.descend path = some τ → τ.block.Encloses)
    (origin : Point F) (h : σ.descend path = some τ) :
    (τ.bounds origin).Within (σ.bounds origin) := by
  induction path generalizing σ with
  | nil =>
    obtain rfl := Option.some.inj h
    exact .refl _
  | cons k path ih =>
    obtain ⟨ρ, hChild, h⟩ := Option.bind_eq_some_iff.mp h
    have hInner := ih (fun path υ hυ => hEncloses (k :: path) υ (by
      rw [descend, hChild]
      exact hυ)) h
    have hBlock := List.mem_of_getElem? (child?_eq_some hChild).1
    have hOuter := ((hEncloses [] σ rfl).child hBlock).add (σ.place origin).toOffset
    have hMoved : ρ.bounds origin =
        ρ.block.localBounds + ρ.block.frame.offset + (σ.place origin).toOffset := by
      rw [bounds, place_of_child hChild]
      simp only [Rect.add_offset, Point.add_offset, Point.toOffset, Rect.mk.injEq]
      refine ⟨?_, ?_, ?_, ?_⟩ <;> ring
    rw [← hMoved] at hOuter
    exact hInner.trans hOuter

end Spot

namespace BlockTree

variable {style : Style F} {n : Node} {tree t : BlockTree F}

end BlockTree

end Blockwork
