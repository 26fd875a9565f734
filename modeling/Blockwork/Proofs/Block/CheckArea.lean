import Mathlib.Data.List.Find
import Blockwork.Proofs.Block.Hit

/-! # Where a handle meets a leaf

The check area of a leaf lies in the leaf's background, which fills the leaf's slot, and every
branch above the leaf fills its own slot there too. The ways to two leaves part at a branch whose
holes for them lie apart, so no handle meets two leaves of a tree, although the rings of neighbours
may overlap.
-/

set_option autoImplicit false

namespace Blockwork

variable {F : Type} [Field F] [LinearOrder F] [IsStrictOrderedRing F]

namespace Block

variable {style : Style F} {b : Block F}

theorem Seated.withOffset (h : b.Seated style) (offset : Offset F) :
    (b.withOffset offset).Seated style := by
  cases b <;> exact ⟨h.proper, h.filling⟩

theorem Seated.filling_within (h : b.Seated style) (hSound : style.metrics.Sound) :
    b.filling.Within b.localBounds := by
  rw [← h.filling]
  exact Style.seat_within hSound h.proper

end Block

namespace Spot

variable {style : Style F} {σ τ ρ : Spot F} {origin p : Point F} {path other : List Nat}

theorem seated_of_layOut (hSound : style.metrics.Sound) {n : Node} {above : Option Parent}
    {trail : Address} {b : Block F} (h : n.layOut style above trail = .ok b)
    (hτ : (Spot.ofRoot b).descend path = some τ) : τ.block.Seated style := by
  obtain ⟨m, higher, below, inner, place, hLayOut, hInner⟩ := exists_layOut h hτ
  rw [hInner]
  exact (Node.seated_of_layOut hSound m higher below hLayOut).1.withOffset place

def Meets (σ : Spot F) (origin p : Point F) : Prop :=
  ∃ s, σ.block.leafShape? = some s ∧ s.checkArea.contains (σ.within origin p) = true

theorem Meets.isLeaf (h : σ.Meets origin p) : σ.block.isLeaf = true := by
  obtain ⟨s, hs, -⟩ := h
  cases hBlock : σ.block with
  | leaf f t => rfl
  | branch f t cs =>
    rw [hBlock] at hs
    cases hs

theorem Meets.fills (h : σ.Meets origin p) (hNests : σ.block.Nests) : σ.Fills origin p := by
  obtain ⟨s, hs, hp⟩ := h
  rw [Fills]
  cases hBlock : σ.block with
  | leaf f t =>
    rw [hBlock] at hs hNests
    obtain rfl := Option.some.inj hs
    exact hNests.contains hp
  | branch f t cs =>
    rw [hBlock] at hs
    cases hs

theorem fills_of_descend (hNested : σ.Nested) (h : σ.descend path = some τ)
    (hFills : τ.Fills origin p) (hCovers : τ.Covers origin p) : σ.Fills origin p := by
  cases path with
  | nil =>
    obtain rfl := Option.some.inj h
    exact hFills
  | cons k path =>
    have hBranch : σ.block.isLeaf = false := by
      rw [Bool.eq_false_iff]
      exact fun hLeaf => List.cons_ne_nil k path (eq_nil_of_leaf hLeaf h)
    exact (fills_iff_covers hBranch).mpr (covers_of_descend hNested h hCovers)

/-- Two leaves that fill their slots at the same point are one. -/
theorem leaf_unique (hNested : σ.Nested) (hτ : σ.descend path = some τ)
    (hρ : σ.descend other = some ρ) (hτLeaf : τ.block.isLeaf = true)
    (hρLeaf : ρ.block.isLeaf = true) (hτp : τ.Fills origin p) (hρp : ρ.Fills origin p)
    (hτIn : τ.Covers origin p) (hρIn : ρ.Covers origin p) : path = other := by
  induction path generalizing σ other with
  | nil =>
    obtain rfl := Option.some.inj hτ
    exact (eq_nil_of_leaf hτLeaf hρ).symm
  | cons k path ih =>
    cases other with
    | nil =>
      obtain rfl := Option.some.inj hρ
      exact eq_nil_of_leaf hρLeaf hτ
    | cons j other =>
      obtain ⟨c, hc, hτ⟩ := Option.bind_eq_some_iff.mp hτ
      obtain ⟨d, hd, hρ⟩ := Option.bind_eq_some_iff.mp hρ
      -- The holes of two slots lie apart, so the two ways take the same slot here.
      obtain rfl : k = j := slot_unique (hNested [] σ rfl) hc hd
        (fills_of_descend (hNested.child hc) hτ hτp hτIn)
        (fills_of_descend (hNested.child hd) hρ hρp hρIn)
      obtain rfl := Option.some.inj (hc.symm.trans hd)
      rw [ih (hNested.child hc) hτ hρ]

end Spot

namespace BlockTree

variable {t : BlockTree F} {id : Nat} {r : Rect F} {p : Point F}

theorem exists_checkArea (h : id ∈ t.leaves) : ∃ r, t.checkArea id = some r := by
  obtain ⟨e, he, rfl⟩ := List.mem_map.mp h
  obtain ⟨hMem, hLeaf⟩ := List.mem_filter.mp he
  obtain ⟨s, hs⟩ : ∃ s, e.block.leafShape? = some s := by
    cases hBlock : e.block with
    | leaf f s => exact ⟨s, rfl⟩
    | branch f s cs =>
      rw [hBlock] at hLeaf
      cases hLeaf
  exact ⟨s.checkArea + (t.originOf e).toOffset, by
    simp only [checkArea, lookup_of_mem hMem, Option.bind_eq_bind, Option.bind_some, hs]
    rfl⟩

theorem exists_of_checkArea (h : t.checkArea id = some r) (hp : r.contains p = true) :
    ∃ path τ, (Spot.ofRoot t.root).descend path = some τ ∧ τ.entry.id = id ∧
      τ.Meets t.origin p := by
  obtain ⟨e, he, h⟩ := Option.bind_eq_some_iff.mp h
  obtain ⟨s, hs, h⟩ := Option.bind_eq_some_iff.mp h
  obtain rfl := Option.some.inj h
  obtain ⟨path, τ, hτ, rfl⟩ := exists_spot he
  rw [Rect.contains_add] at hp
  exact ⟨path, τ, hτ, id_of_lookup he, s, hs, hp⟩

/-- In exact arithmetic and under valid settings the check areas of the leaves of a tree lie apart.
So the leaf that a handle meets does not depend on the order in which the leaves are asked. -/
theorem checkAreas_apart {settings : Settings F} {fonts : Fonts F} {style : Style F}
    (hCheck : settings.check = .ok ()) (hStyle : settings.style fonts = .ok style) {n : Node}
    {tree : BlockTree F} (hTree : style.layOut n = .ok tree) (origin : Point F) :
    let t := { tree with origin }
    (∀ i ∈ t.leaves, ∀ j ∈ t.leaves, i ≠ j →
      ∃ r s, t.checkArea i = some r ∧ t.checkArea j = some s ∧ r.Apart s) ∧
    ∀ (p : Point F) (order : List Nat), t.leaves.Perm order →
      order.find? (fun id => (t.checkArea id).any (·.contains p)) =
        t.leaves.find? (fun id => (t.checkArea id).any (·.contains p)) := by
  intro t
  have hSound := Settings.sound_of_check hCheck
  rw [← Settings.metrics_of_style hStyle] at hSound
  obtain ⟨root, hRoot, rfl⟩ := Style.layOut_inv hTree
  have hNested : (Spot.ofRoot root).Nested := Spot.nested_of_layOut hSound hRoot
  have hUnique {i j : Nat} {r s : Rect F} (hi : t.checkArea i = some r)
      (hj : t.checkArea j = some s) (p : Point F) (hr : r.contains p = true)
      (hs : s.contains p = true) : i = j := by
    obtain ⟨path, τ, hτ, rfl, hτp⟩ := exists_of_checkArea hi hr
    obtain ⟨other, ρ, hρ, rfl, hρp⟩ := exists_of_checkArea hj hs
    have hτFills := hτp.fills (hNested path τ hτ)
    have hρFills := hρp.fills (hNested other ρ hρ)
    have hτIn := (Spot.seated_of_layOut hSound hRoot hτ).filling_within hSound
    have hρIn := (Spot.seated_of_layOut hSound hRoot hρ).filling_within hSound
    obtain rfl := Spot.leaf_unique hNested hτ hρ hτp.isLeaf hρp.isLeaf hτFills hρFills
      (hτIn.contains hτFills) (hρIn.contains hρFills)
    obtain rfl := Option.some.inj (hτ.symm.trans hρ)
    rfl
  constructor
  · intro i hi j hj hDistinct
    obtain ⟨r, hr⟩ := exists_checkArea hi
    obtain ⟨s, hs⟩ := exists_checkArea hj
    refine ⟨r, s, hr, hs, ?_⟩
    rintro p ⟨hrp, hsp⟩
    exact hDistinct (hUnique hr hs p hrp hsp)
  · intro p order hOrder
    refine (List.find?_eq_find?_of_perm hOrder ?_).symm
    rintro i ⟨-, hi⟩ j ⟨-, hj⟩
    obtain ⟨r, hr, hrp⟩ := (Option.any_eq_true _ _).mp hi
    obtain ⟨s, hs, hsp⟩ := (Option.any_eq_true _ _).mp hj
    exact hUnique hr hs p hrp hsp

theorem checkAreas_apart_conjunction :
    let settings : Settings ℚ := { Settings.standard with templates := [] }
    let n : Node := .operator .and [.operator .add [.symbol "x", .symbol "y"], .symbol "z"]
    ∃ style tree, settings.check = .ok () ∧
      settings.style (.ofReadable fun _ => true) = .ok style ∧
      style.layOut n = .ok tree ∧
      let t := { tree with origin := ⟨8, 1⟩ }
      t.leaves = [0, 1, 3] ∧
        (∃ r s, t.checkArea 0 = some r ∧ t.checkArea 1 = some s ∧ r.Apart s) ∧
        ∀ p : Point ℚ, [3, 1, 0].find? (fun id => (t.checkArea id).any (·.contains p)) =
          t.leaves.find? (fun id => (t.checkArea id).any (·.contains p)) := by
  intro settings n
  have hStyle : settings.style (.ofReadable fun _ => true) =
      .ok ⟨Settings.standardMetrics, .fixedAdvance (3 / 5)⟩ := rfl
  obtain ⟨tree, hTree, hLeaves⟩ : ∃ tree,
      (⟨Settings.standardMetrics, .fixedAdvance (3 / 5)⟩ : Style ℚ).layOut n = .ok tree ∧
        ({ tree with origin := ⟨8, 1⟩ } : BlockTree ℚ).leaves = [0, 1, 3] :=
    ⟨_, rfl, rfl⟩
  obtain ⟨hApart, hOrder⟩ := checkAreas_apart Settings.check_standard hStyle hTree ⟨8, 1⟩
  rw [hLeaves] at hApart hOrder
  refine ⟨_, tree, Settings.check_standard, hStyle, hTree, hLeaves,
    hApart 0 (by decide) 1 (by decide) (by decide), fun p => ?_⟩
  rw [hLeaves]
  exact hOrder p [3, 1, 0] (by decide)

end BlockTree

end Blockwork
