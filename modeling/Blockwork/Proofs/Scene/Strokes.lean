import Blockwork.Proofs.Block.Numbering
import Blockwork.Proofs.Scene.Drawing

/-! # Strokes

What is drawn of a block bears the number of the block. The boxes of a block come before all that is
drawn below it and its marks come after that, and nothing of it is drawn anywhere else.
-/

set_option autoImplicit false

namespace Blockwork

/-- A primitive with the number of the block that it shows. -/
structure Stroke (K : Type) where
  block : Nat
  primitive : Primitive K

namespace Stroke

variable {K : Type} {strokes : List (Stroke K)} {primitives : List (Primitive K)}

theorem filter_eq_nil {id : Nat} (h : ∀ stroke ∈ strokes, stroke.block ≠ id) :
    strokes.filter (·.block = id) = [] :=
  List.filter_eq_nil_iff.mpr fun stroke hStroke => by simpa using h stroke hStroke

theorem filter_map_self (id : Nat) (primitives : List (Primitive K)) :
    (primitives.map (Stroke.mk id)).filter (·.block = id) = primitives.map (.mk id) :=
  List.filter_eq_self.mpr (by simp)

theorem filter_map_of_ne {id other : Nat} (h : other ≠ id) (primitives : List (Primitive K)) :
    (primitives.map (Stroke.mk other)).filter (·.block = id) = [] :=
  filter_eq_nil (by simpa using fun _ _ => h)

theorem primitive_mem {stroke : Stroke K} (hStroke : stroke ∈ strokes)
    (h : strokes.filter (·.block = stroke.block) = primitives.map (.mk stroke.block)) :
    stroke.primitive ∈ primitives := by
  have hOwn : stroke ∈ strokes.filter (·.block = stroke.block) :=
    List.mem_filter.mpr ⟨hStroke, decide_eq_true rfl⟩
  rw [h] at hOwn
  obtain ⟨primitive, hPrimitive, hSame⟩ := List.mem_map.mp hOwn
  rwa [← hSame]

end Stroke

section

variable {K : Type} [Scalar K]

namespace Block

def boxes (place : Offset K) : Block K → List (Primitive K)
  | .leaf f s =>
    drawRing f s place ++ drawBox f.type s.background place backgroundFill ++
      drawBox f.type s.checkArea place .white
  | .branch f s _ =>
    drawBox f.type s.background place backgroundFill ++
      drawBox f.type s.eventLayer place (Color.white.tinted f.highlight.background.color)

def marks (metrics : Metrics K) (place : Offset K) : Block K → List (Primitive K)
  | .leaf _ s => [.label s.label (s.labelCenter + place) metrics.labelFont .black]
  | .branch f s _ =>
    [.label s.label (s.labelCenter + place) metrics.operatorFont .black,
      .circle (s.handleCenter + place) s.handleRadius
        (Color.white.tinted f.highlight.handle.color)]

mutual

/-- The strokes of a block whose first block is numbered `first`, in a parent at a point. -/
def strokes (metrics : Metrics K) (first : Nat) (parentOrigin : Point K) :
    Block K → List (Stroke K)
  | .leaf f s =>
    let place := (parentOrigin + f.offset).toOffset
    ((Block.leaf f s).boxes place).map (.mk first) ++
      ((Block.leaf f s).marks metrics place).map (.mk first)
  | .branch f s cs =>
    let origin := parentOrigin + f.offset
    let id := first + countAll cs
    ((Block.branch f s cs).boxes origin.toOffset).map (.mk id) ++
      strokesAll metrics first origin cs ++
      ((Block.branch f s cs).marks metrics origin.toOffset).map (.mk id)

def strokesAll (metrics : Metrics K) (first : Nat) (parentOrigin : Point K) :
    List (Block K) → List (Stroke K)
  | [] => []
  | b :: bs =>
    b.strokes metrics first parentOrigin ++ strokesAll metrics (first + b.count) parentOrigin bs

end

section

variable (metrics : Metrics K) (first : Nat) (parentOrigin : Point K)

mutual

/-- The strokes of a block are what is drawn of it. -/
theorem map_primitive_strokes (first : Nat) (parentOrigin : Point K) : (b : Block K) →
    (b.strokes metrics first parentOrigin).map Stroke.primitive = b.draw metrics parentOrigin
  | .leaf f s => by
    simp [strokes, draw, boxes, marks, Function.comp_def]
  | .branch f s cs => by
    simp [strokes, draw, boxes, marks, Function.comp_def,
      map_primitive_strokesAll first (parentOrigin + f.offset) cs]

theorem map_primitive_strokesAll (first : Nat) (parentOrigin : Point K) : (bs : List (Block K)) →
    (strokesAll metrics first parentOrigin bs).map Stroke.primitive =
      drawAll metrics parentOrigin bs
  | [] => rfl
  | b :: bs => by
    rw [strokesAll, drawAll, List.map_append, map_primitive_strokes first parentOrigin b,
      map_primitive_strokesAll (first + b.count) parentOrigin bs]

end

mutual

theorem bounds_of_mem_strokes {stroke : Stroke K} (first : Nat) (parentOrigin : Point K) :
    (b : Block K) → stroke ∈ b.strokes metrics first parentOrigin →
      first ≤ stroke.block ∧ stroke.block < first + b.count
  | .leaf f s, h => by
    rw [strokes, ← List.map_append] at h
    obtain ⟨primitive, -, rfl⟩ := List.mem_map.mp h
    exact ⟨le_rfl, Nat.lt_succ_self first⟩
  | .branch f s cs, h => by
    rw [count]
    rcases List.mem_append.mp h with h | h
    · rcases List.mem_append.mp h with h | h
      · obtain ⟨primitive, -, rfl⟩ := List.mem_map.mp h
        dsimp only
        omega
      · obtain ⟨hLow, hHigh⟩ := bounds_of_mem_strokesAll first (parentOrigin + f.offset) cs h
        omega
    · obtain ⟨primitive, -, rfl⟩ := List.mem_map.mp h
      dsimp only
      omega

theorem bounds_of_mem_strokesAll {stroke : Stroke K} (first : Nat) (parentOrigin : Point K) :
    (bs : List (Block K)) → stroke ∈ strokesAll metrics first parentOrigin bs →
      first ≤ stroke.block ∧ stroke.block < first + countAll bs
  | b :: bs, h => by
    rw [countAll]
    rw [strokesAll] at h
    rcases List.mem_append.mp h with h | h
    · obtain ⟨hLow, hHigh⟩ := bounds_of_mem_strokes first parentOrigin b h
      omega
    · obtain ⟨hLow, hHigh⟩ := bounds_of_mem_strokesAll (first + b.count) parentOrigin bs h
      omega

end

end

end Block

namespace BlockTree

/-- Strokes that draw a tree shifted: for each block its own, at its origin and the shift, around
those of all blocks below it. -/
structure Painted (t : BlockTree K) (metrics : Metrics K) (shift : Offset K)
    (strokes : List (Stroke K)) : Prop where
  blocks : ∀ stroke ∈ strokes, (t.entry? stroke.block).isSome = true
  once : ∀ id e, t.entry? id = some e →
    let place := (t.originOf e + shift).toOffset
    strokes.filter (·.block = id) =
      (e.block.boxes place ++ e.block.marks metrics place).map (.mk id)
  around : ∀ id e, t.entry? id = some e →
    let place := (t.originOf e + shift).toOffset
    ∃ front inner back,
      strokes = front ++ (e.block.boxes place).map (.mk id) ++ inner ++
        (e.block.marks metrics place).map (.mk id) ++ back ∧
      (∀ stroke ∈ inner, Entry.Above t.entries id stroke.block) ∧
      ∀ stroke ∈ front ++ back, ¬ Entry.Above t.entries id stroke.block

theorem Painted.exists_entry {t : BlockTree K} {metrics : Metrics K} {shift : Offset K}
    {strokes : List (Stroke K)} (h : t.Painted metrics shift strokes) {stroke : Stroke K}
    (hStroke : stroke ∈ strokes) :
    ∃ e, t.entry? stroke.block = some e ∧
      let place := (t.originOf e + shift).toOffset
      stroke.primitive ∈ e.block.boxes place ++ e.block.marks metrics place := by
  obtain ⟨e, he⟩ := Option.isSome_iff_exists.mp (h.blocks stroke hStroke)
  exact ⟨e, he, Stroke.primitive_mem hStroke (h.once _ e he)⟩

end BlockTree

end

section

variable {K : Type} {t : BlockTree K} {τ : Spot K} {path : List Nat} {lower : Nat}

end

variable {F : Type} [Field F] [LinearOrder F] [IsStrictOrderedRing F]

namespace Spot

variable {σ τ : Spot F} {k : Nat} {path : List Nat} (metrics : Metrics F) (origin : Point F)

def strokes (σ : Spot F) : List (Stroke F) :=
  σ.block.strokes metrics σ.first (σ.above.foldl (· + ·) origin)

def inner (σ : Spot F) : List (Stroke F) :=
  Block.strokesAll metrics σ.first (σ.place origin) σ.block.children

def Misses (σ : Spot F) (stroke : Stroke F) : Prop :=
  stroke.block < σ.first ∨ σ.entry.id < stroke.block

end Spot

def BlockTree.strokes (metrics : Metrics F) (shift : Offset F) (t : BlockTree F) :
    List (Stroke F) :=
  t.root.strokes metrics 0 (t.origin + shift)

namespace BlockTree

end BlockTree

end Blockwork
