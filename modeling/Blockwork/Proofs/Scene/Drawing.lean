import Blockwork.Proofs.Block.Twin
import Blockwork.Scene.Basic

/-! # Where a scene shows a block

A block is drawn in the coordinates of its parent, and its primitives stand one behind the other
with those of all that is below it. In exact arithmetic the parents add up: a block of a tree is
drawn where its origin lies once the tree is shifted.
-/

set_option autoImplicit false

namespace Blockwork

section

theorem infix_flatMap {α β : Type} {a : α} {as : List α} (h : a ∈ as) (f : α → List β) :
    f a <:+: as.flatMap f :=
  List.infix_of_mem_flatten (List.mem_map_of_mem h)

variable {K : Type} [Scalar K]

theorem Block.drawAll_eq_flatMap (metrics : Metrics K) (parentOrigin : Point K)
    (bs : List (Block K)) :
    drawAll metrics parentOrigin bs = bs.flatMap (draw metrics parentOrigin) := by
  induction bs with
  | nil => rfl
  | cons b bs ih => rw [drawAll, ih, List.flatMap_cons]

theorem Block.draw_child_infix (metrics : Metrics K) (parentOrigin : Point K) {b c : Block K}
    (h : c ∈ b.children) :
    c.draw metrics (parentOrigin + b.frame.offset) <:+: b.draw metrics parentOrigin := by
  cases b with
  | leaf => cases h
  | branch f s cs =>
    rw [draw, drawAll_eq_flatMap]
    have hAmong := infix_flatMap h (draw metrics (parentOrigin + f.offset))
    exact hAmong.trans (List.infix_append ..)

namespace Session

/-- The session shows a block, with all that is below it, at a place of the screen. -/
def Draws (s : Session K) (b : Block K) (place : Point K) : Prop :=
  ∃ parentOrigin : Point K, parentOrigin + b.frame.offset = place ∧
    ∀ size, b.draw s.settings.metrics parentOrigin <:+: (Scene.ofSession s size).items

def DrawsTree (s : Session K) (t : BlockTree K) (shift : Offset K) : Prop :=
  ∀ size, t.draw s.settings.metrics shift <:+: (Scene.ofSession s size).items

variable {s : Session K}

theorem drawsTree_template {t : BlockTree K} (h : t ∈ s.palette.templates) :
    s.DrawsTree t (-s.viewport.paletteScroll) := by
  intro size
  have hAmong := infix_flatMap h
    (BlockTree.draw s.settings.metrics (-s.viewport.paletteScroll))
  simp only [Scene.ofSession, List.append_assoc]
  exact hAmong.trans (List.infix_append' ..)

/-- What is placed is shown, unless it is dragged as a whole. -/
theorem drawsTree_placed {e : CanvasEntry K} (h : e ∈ s.canvas.entries)
    (hFree : s.drag.bind Drag.owner ≠ some e.id) : s.DrawsTree e.tree s.viewport.canvasOffset := by
  intro size
  have hShown : e ∈ s.canvas.entries.filter fun e => some e.id != s.drag.bind Drag.owner := by
    rw [List.mem_filter, bne_iff_ne]
    exact ⟨h, hFree.symm⟩
  have hAmong := infix_flatMap hShown
    fun e => e.tree.draw s.settings.metrics s.viewport.canvasOffset
  exact hAmong.trans (List.infix_append ..)

theorem drawsTree_drag {d : Drag K} (hd : s.drag = some d) : s.DrawsTree d.tree .zero := by
  intro size
  simp only [Scene.ofSession, hd]
  exact (List.suffix_append _ _).isInfix

end Session

end

variable {F : Type} [Field F] [LinearOrder F] [IsStrictOrderedRing F]

theorem Spot.draw_infix (metrics : Metrics F) (origin : Point F) {σ τ : Spot F} {path : List Nat}
    (h : σ.descend path = some τ) :
    τ.block.draw metrics (τ.above.foldl (· + ·) origin) <:+:
      σ.block.draw metrics (σ.above.foldl (· + ·) origin) := by
  induction path generalizing σ with
  | nil =>
    obtain rfl := Option.some.inj h
    exact List.infix_refl _
  | cons k path ih =>
    obtain ⟨ρ, hChild, h⟩ := Option.bind_eq_some_iff.mp h
    obtain ⟨hBlock, -, -, hAbove⟩ := child?_eq_some hChild
    have hFirst := Block.draw_child_infix metrics (σ.above.foldl (· + ·) origin)
      (List.mem_of_getElem? hBlock)
    have hPlace : ρ.above.foldl (· + ·) origin =
        σ.above.foldl (· + ·) origin + σ.block.frame.offset := by
      rw [hAbove]
      exact σ.place_eq origin
    rw [← hPlace] at hFirst
    exact (ih h).trans hFirst

/-- The blocks of a tree are shown at their origins, shifted as the tree is. -/
theorem Session.DrawsTree.draws {s : Session F} {t : BlockTree F} {shift : Offset F}
    (h : s.DrawsTree t shift) {id : Nat} {e : Entry F} (he : t.entry? id = some e) :
    s.Draws e.block (t.originOf e + shift) := by
  obtain ⟨path, τ, hτ, rfl⟩ := BlockTree.exists_spot he
  refine ⟨τ.above.foldl (· + ·) (t.origin + shift), ?_, ?_⟩
  · exact (τ.place_eq _).symm.trans (Point.foldl_add_offset t.origin shift _)
  · intro size
    exact (Spot.draw_infix s.settings.metrics (t.origin + shift) hτ).trans (h size)

end Blockwork
