import Blockwork.Proofs.Block.Nesting
import Blockwork.Proofs.Block.Spot

/-! # The branch under a point

The search for the branch that takes a point goes down from the root in the coordinates of each
block and leaves out what the bounds leave out. Since blocks nest and the holes of a branch lie
apart, it misses nothing: the branches that a scan of all blocks finds contain one another, and the
search ends at the innermost of them.
-/

set_option autoImplicit false

namespace Blockwork

section

variable {K : Type} [Scalar K]

namespace Block

variable {start : Nat} {p : Point K} {bs : List (Block K)}

theorem hitAll_cons (b : Block K) :
    hitAll start p (b :: bs) = (hitAll (start + b.count) p bs).or (b.hit start p) := by
  rw [hitAll]
  cases hitAll (start + b.count) p bs <;> rfl

theorem filling_of_branch {b : Block K} (h : b.isLeaf = false) : b.filling = b.localBounds := by
  cases b with
  | leaf f s => cases h
  | branch f s cs => rfl

theorem isLeaf_of_takes {b : Block K} (h : b.takes p = true) : b.isLeaf = false := by
  cases b with
  | leaf f s => cases h
  | branch f s cs => rfl

theorem hit_eq (b : Block K) :
    b.hit start p =
      let here := p - b.frame.offset
      if b.localBounds.contains here then
        (hitAll start here b.children).or
          (if b.takes here then some (start + countAll b.children) else none)
      else none := by
  cases b with
  | leaf f s =>
    rw [hit]
    exact (ite_self none).symm
  | branch f s cs =>
    rw [hit]
    cases hAll : hitAll start (p - f.offset) cs <;> simp only [frame, children, hAll] <;> rfl

theorem hitAll_eq_none :
    hitAll start p bs = none ↔
      ∀ k (b : Block K), bs[k]? = some b → b.hit (start + countAll (bs.take k)) p = none := by
  induction bs generalizing start with
  | nil => simp [hitAll]
  | cons b bs ih =>
    rw [hitAll_cons, Option.or_eq_none_iff, ih]
    constructor
    · rintro ⟨hRest, hFirst⟩ k c hc
      cases k with
      | zero =>
        obtain rfl := Option.some.inj hc
        exact hFirst
      | succ k =>
        rw [List.take_succ_cons, countAll, ← Nat.add_assoc]
        exact hRest k c hc
    · intro h
      refine ⟨?_, h 0 b rfl⟩
      intro k c hc
      have hHit := h (k + 1) c hc
      rwa [List.take_succ_cons, countAll, ← Nat.add_assoc] at hHit

theorem exists_of_hitAll {id : Nat} (h : hitAll start p bs = some id) :
    ∃ (k : Nat) (b : Block K),
      bs[k]? = some b ∧ b.hit (start + countAll (bs.take k)) p = some id := by
  induction bs generalizing start with
  | nil => cases h
  | cons b bs ih =>
    rw [hitAll_cons] at h
    rcases Option.or_eq_some_iff.mp h with hRest | ⟨-, hFirst⟩
    · obtain ⟨k, c, hc, hHit⟩ := ih hRest
      refine ⟨k + 1, c, hc, ?_⟩
      rw [List.take_succ_cons, countAll, ← Nat.add_assoc]
      exact hHit
    · exact ⟨0, b, rfl, hFirst⟩

mutual

theorem exists_branch_of_hit {id : Nat} : (b : Block K) → (start : Nat) → (p : Point K) →
    (parent : Option Nat) → (above : List (Offset K)) → b.hit start p = some id →
    ∃ e ∈ b.entries start parent above, e.id = id ∧ e.block.isLeaf = false
  | .leaf _ _, _, _, _, _, h => by cases h
  | .branch f s cs, start, p, parent, above, h => by
    rw [hit_eq] at h
    dsimp only at h
    split at h
    · rw [entries]
      rcases Option.or_eq_some_iff.mp h with hAll | ⟨-, hSelf⟩
      · obtain ⟨e, he, hBranch⟩ := exists_branch_of_hitAll cs start _ _ (f.offset :: above) hAll
        exact ⟨e, List.mem_append_left _ he, hBranch⟩
      · split at hSelf
        · refine ⟨_, List.mem_append_right _ List.mem_cons_self, Option.some.inj hSelf, rfl⟩
        · cases hSelf
    · cases h

theorem exists_branch_of_hitAll {id : Nat} : (bs : List (Block K)) → (start : Nat) →
    (p : Point K) → (parent : Nat) → (above : List (Offset K)) → hitAll start p bs = some id →
    ∃ e ∈ entriesAll start parent above bs, e.id = id ∧ e.block.isLeaf = false
  | [], _, _, _, _, h => by cases h
  | b :: bs, start, p, parent, above, h => by
    rw [entriesAll]
    rw [hitAll_cons] at h
    rcases Option.or_eq_some_iff.mp h with hRest | ⟨-, hFirst⟩
    · obtain ⟨e, he, hBranch⟩ := exists_branch_of_hitAll bs _ p parent above hRest
      exact ⟨e, List.mem_append_right _ he, hBranch⟩
    · obtain ⟨e, he, hBranch⟩ := exists_branch_of_hit b start p (some parent) above hFirst
      exact ⟨e, List.mem_append_left _ he, hBranch⟩

end

end Block

theorem BlockTree.exists_branch_of_hit {t : BlockTree K} {p : Point K} {id : Nat}
    (h : t.hit p = some id) : ∃ b, t.block? id = some b ∧ b.isLeaf = false := by
  obtain ⟨e, he, rfl, hBranch⟩ := Block.exists_branch_of_hit t.root 0 _ none [] h
  refine ⟨e.block, ?_, hBranch⟩
  rw [block?, lookup_of_mem he]
  rfl

namespace Spot

def around (σ : Spot K) (origin p : Point K) : Point K :=
  p - (σ.above.foldl (· + ·) origin).toOffset

def within (σ : Spot K) (origin p : Point K) : Point K :=
  p - (σ.entry.offsets.foldl (· + ·) origin).toOffset

/-- The bounds of the block at a spot hold a point. -/
def Covers (σ : Spot K) (origin p : Point K) : Prop :=
  σ.block.localBounds.contains (σ.within origin p) = true

def Fills (σ : Spot K) (origin p : Point K) : Prop :=
  σ.block.filling.contains (σ.within origin p) = true

/-- The block at a spot covers a point, and its event layer takes it. -/
structure Captures (σ : Spot K) (origin p : Point K) : Prop where
  covers : σ.Covers origin p
  takes : σ.block.takes (σ.within origin p) = true

def hit (σ : Spot K) (origin p : Point K) : Option Nat :=
  σ.block.hit σ.first (σ.around origin p)

def Nested (σ : Spot K) : Prop := ∀ path τ, σ.descend path = some τ → τ.block.Nests

variable {σ τ : Spot K} {origin p : Point K} {k : Nat}

theorem around_of_child (h : σ.child? k = some τ) : τ.around origin p = σ.within origin p := by
  rw [around, within, (child?_eq_some h).2.2.2]

theorem fills_iff_covers (h : σ.block.isLeaf = false) : σ.Fills origin p ↔ σ.Covers origin p := by
  rw [Fills, Covers, Block.filling_of_branch h]

theorem Captures.isLeaf (h : σ.Captures origin p) : σ.block.isLeaf = false :=
  Block.isLeaf_of_takes h.takes

theorem Nested.child (h : σ.Nested) (hChild : σ.child? k = some τ) : τ.Nested := by
  intro path ρ hρ
  apply h (k :: path) ρ
  rw [descend, hChild]
  exact hρ

theorem Nested.descend {path : List Nat} (h : σ.Nested) (hτ : σ.descend path = some τ) :
    τ.Nested := by
  intro rest ρ hρ
  apply h (path ++ rest) ρ
  rw [descend_append, hτ]
  exact hρ

end Spot

def BlockTree.Captures (t : BlockTree K) (p : Point K) (id : Nat) : Prop :=
  ∃ b bounds place, t.block? id = some b ∧ b.isLeaf = false ∧
    t.blockBounds id = some bounds ∧ bounds.contains p = true ∧
    t.blockOrigin id = some place ∧ b.takes (p - place.toOffset) = true

end

variable {F : Type} [Field F] [LinearOrder F] [IsStrictOrderedRing F]

theorem Point.foldl_add_offset (start : Point F) (v : Offset F) (offsets : List (Offset F)) :
    offsets.foldl (· + ·) (start + v) = offsets.foldl (· + ·) start + v := by
  induction offsets generalizing start with
  | nil => rfl
  | cons w offsets ih =>
    have hSwap : start + v + w = start + w + v := by
      simp only [Point.add_offset, add_right_comm]
    rw [List.foldl_cons, List.foldl_cons, hSwap, ih]

namespace Spot

variable {σ τ ρ : Spot F} {origin p : Point F} {k j id : Nat} {path : List Nat}

theorem within_eq (σ : Spot F) (origin p : Point F) :
    σ.within origin p = σ.around origin p - σ.block.frame.offset := by
  have hPlace : σ.entry.offsets.foldl (· + ·) origin =
      σ.above.foldl (· + ·) origin + σ.block.frame.offset :=
    Point.foldl_add_offset origin _ σ.above
  rw [within, hPlace, around]
  simp only [Point.sub_offset, Point.add_offset, Point.toOffset, sub_sub]

theorem hit_eq (σ : Spot F) (origin p : Point F) :
    σ.hit origin p =
      let here := σ.within origin p
      if σ.block.localBounds.contains here then
        (Block.hitAll σ.first here σ.block.children).or
          (if σ.block.takes here then some σ.entry.id else none)
      else none := by
  rw [hit, Block.hit_eq, within_eq]
  rfl

theorem hit_of_child (h : σ.child? k = some τ) :
    τ.hit origin p = τ.block.hit (σ.first + Block.countAll (σ.block.children.take k))
      (σ.within origin p) := by
  rw [hit, around_of_child h, (child?_eq_some h).2.1]

theorem hitAll_children : Block.hitAll σ.first (σ.within origin p) σ.block.children = none ↔
    ∀ k τ, σ.child? k = some τ → τ.hit origin p = none := by
  rw [Block.hitAll_eq_none]
  constructor
  · intro h k τ hChild
    rw [hit_of_child hChild]
    exact h k τ.block (child?_eq_some hChild).1
  · intro h k b hb
    obtain ⟨τ, hChild, rfl⟩ := exists_child? hb
    rw [← hit_of_child hChild]
    exact h k τ hChild

theorem exists_child_of_hitAll
    (h : Block.hitAll σ.first (σ.within origin p) σ.block.children = some id) :
    ∃ k τ, σ.child? k = some τ ∧ τ.hit origin p = some id := by
  obtain ⟨k, b, hb, hHit⟩ := Block.exists_of_hitAll h
  obtain ⟨τ, hChild, rfl⟩ := exists_child? hb
  rw [← hit_of_child hChild] at hHit
  exact ⟨k, τ, hChild, hHit⟩

theorem hit_eq_none : σ.hit origin p = none ↔
    (σ.Covers origin p →
      ¬ σ.Captures origin p ∧ ∀ k τ, σ.child? k = some τ → τ.hit origin p = none) := by
  rw [hit_eq, ← hitAll_children]
  dsimp only
  split
  · rename_i hCovers
    rw [Option.or_eq_none_iff]
    constructor
    · rintro ⟨hAll, hSelf⟩ -
      refine ⟨?_, hAll⟩
      rintro ⟨-, hTakes⟩
      rw [if_pos hTakes] at hSelf
      cases hSelf
    · intro h
      obtain ⟨hSelf, hAll⟩ := h hCovers
      refine ⟨hAll, if_neg ?_⟩
      exact fun hTakes => hSelf ⟨hCovers, hTakes⟩
  · rename_i hCovers
    exact iff_of_true rfl fun h => absurd h hCovers

/-- The search finds a branch below the spot or else the spot's own. -/
theorem of_hit (h : σ.hit origin p = some id) :
    (∃ k τ, σ.child? k = some τ ∧ τ.hit origin p = some id) ∨
      (σ.Captures origin p ∧ σ.entry.id = id ∧
        ∀ k τ, σ.child? k = some τ → τ.hit origin p = none) := by
  rw [hit_eq] at h
  dsimp only at h
  split at h
  · rename_i hCovers
    rcases Option.or_eq_some_iff.mp h with hAll | ⟨hAll, hSelf⟩
    · exact .inl (exists_child_of_hitAll hAll)
    · split at hSelf
      · rename_i hTakes
        exact .inr ⟨⟨hCovers, hTakes⟩, Option.some.inj hSelf, hitAll_children.mp hAll⟩
      · cases hSelf
  · cases h

theorem covers_iff_of_child (h : σ.child? k = some τ) : τ.Covers origin p ↔
    (τ.block.localBounds + τ.block.frame.offset).contains (σ.within origin p) = true := by
  rw [Covers, within_eq, around_of_child h, Rect.contains_add]

theorem covers_of_child (hNests : σ.block.Nests) (h : σ.child? k = some τ)
    (hp : τ.Covers origin p) : σ.Covers origin p := by
  have hMember := List.mem_of_getElem? (child?_eq_some h).1
  rw [covers_iff_of_child h] at hp
  rw [Covers]
  cases hBlock : σ.block with
  | leaf f s =>
    rw [hBlock] at hMember
    cases hMember
  | branch f s cs =>
    rw [hBlock] at hNests hMember
    exact (hNests.inside τ.block hMember).contains hp

theorem covers_of_descend (hNested : σ.Nested) (h : σ.descend path = some τ)
    (hp : τ.Covers origin p) : σ.Covers origin p := by
  induction path generalizing σ with
  | nil =>
    obtain rfl := Option.some.inj h
    exact hp
  | cons k path ih =>
    obtain ⟨ρ, hChild, h⟩ := Option.bind_eq_some_iff.mp h
    exact covers_of_child (hNested [] σ rfl) hChild (ih (hNested.child hChild) h)

theorem fills_iff_of_child (h : σ.child? k = some τ) : τ.Fills origin p ↔
    (τ.block.filling + τ.block.frame.offset).contains (σ.within origin p) = true := by
  rw [Fills, within_eq, around_of_child h, Rect.contains_add]

theorem exists_hole {f : Frame F} {s : BranchShape F} {cs : List (Block F)}
    (hBlock : σ.block = .branch f s cs) (hNests : s.Nests (Block.branch f s cs).localBounds cs)
    (h : σ.child? k = some τ) :
    ∃ hole, cs[k]? = some τ.block ∧ s.holes[k]? = some hole ∧
      hole.rect = τ.block.filling + τ.block.frame.offset := by
  have hSlot := (child?_eq_some h).1
  rw [hBlock, Block.children] at hSlot
  have hBound := (List.getElem?_eq_some_iff.mp hSlot).1
  rw [← hNests.length] at hBound
  have hHole : s.holes[k]? = some s.holes[k] := List.getElem?_eq_getElem hBound
  exact ⟨s.holes[k], hSlot, hHole, (hNests.filled k τ.block _ hSlot hHole).symm⟩

/-- At most one child fills its slot at a point. -/
theorem slot_unique (hNests : σ.block.Nests) (hτ : σ.child? k = some τ)
    (hρ : σ.child? j = some ρ) (hτp : τ.Fills origin p) (hρp : ρ.Fills origin p) : k = j := by
  cases hBlock : σ.block with
  | leaf f s =>
    rw [child?_of_leaf (by rw [hBlock]; rfl)] at hτ
    cases hτ
  | branch f s cs =>
    rw [hBlock] at hNests
    obtain ⟨hole, -, hHole, hRect⟩ := exists_hole hBlock hNests hτ
    obtain ⟨other, -, hOther, hOtherRect⟩ := exists_hole hBlock hNests hρ
    rw [fills_iff_of_child hτ, ← hRect] at hτp
    rw [fills_iff_of_child hρ, ← hOtherRect] at hρp
    obtain ⟨hk, rfl⟩ := List.getElem?_eq_some_iff.mp hHole
    obtain ⟨hj, rfl⟩ := List.getElem?_eq_some_iff.mp hOther
    have hApart := List.pairwise_iff_getElem.mp hNests.apart
    rcases lt_trichotomy k j with hLt | rfl | hLt
    · exact absurd ⟨hτp, hρp⟩ (hApart k j hk hj hLt _)
    · rfl
    · exact absurd ⟨hρp, hτp⟩ (hApart j k hj hk hLt _)

/-- A search without a result has missed nothing. -/
theorem not_captures_of_hit (hNested : σ.Nested) (hHit : σ.hit origin p = none)
    (h : σ.descend path = some τ) : ¬ τ.Captures origin p := by
  intro hp
  induction path generalizing σ with
  | nil =>
    obtain rfl := Option.some.inj h
    exact (hit_eq_none.mp hHit hp.covers).1 hp
  | cons k path ih =>
    have hCovers := covers_of_descend hNested h hp.covers
    obtain ⟨ρ, hChild, h⟩ := Option.bind_eq_some_iff.mp h
    exact ih (hNested.child hChild) ((hit_eq_none.mp hHit hCovers).2 k ρ hChild) h

/-- The branch that a search finds captures the point, and the others that do are on the way down
to it. -/
theorem exists_of_hit (hNested : σ.Nested) (hHit : σ.hit origin p = some id) :
    ∃ path τ, σ.descend path = some τ ∧ τ.entry.id = id ∧ τ.Captures origin p ∧
      ∀ other ρ, σ.descend other = some ρ → ρ.Captures origin p → other <+: path := by
  induction σ using Spot.induction with
  | step σ ih =>
    rcases of_hit hHit with ⟨k, child, hChild, hHit⟩ | ⟨hSelf, hId, hChildren⟩
    · have hInner := hNested.child hChild
      obtain ⟨path, τ, hτ, hId, hp, hOthers⟩ := ih k child hChild hInner hHit
      refine ⟨k :: path, τ, by rw [descend, hChild]; exact hτ, hId, hp, ?_⟩
      intro other ρ hρ hρp
      cases other with
      | nil => exact List.nil_prefix
      | cons j other =>
        obtain ⟨sibling, hSibling, hρ⟩ := Option.bind_eq_some_iff.mp hρ
        have hFills := (fills_iff_covers (isLeaf_of_descend hτ hp.isLeaf)).mpr
          (covers_of_descend hInner hτ hp.covers)
        have hOther := (fills_iff_covers (isLeaf_of_descend hρ hρp.isLeaf)).mpr
          (covers_of_descend (hNested.child hSibling) hρ hρp.covers)
        obtain rfl : j = k := slot_unique (hNested [] σ rfl) hSibling hChild hOther hFills
        obtain rfl := Option.some.inj (hChild.symm.trans hSibling)
        exact List.cons_prefix_cons.mpr ⟨rfl, hOthers other ρ hρ hρp⟩
    · refine ⟨[], σ, rfl, hId, hSelf, ?_⟩
      intro other ρ hρ hρp
      cases other with
      | nil => exact List.nil_prefix
      | cons j other =>
        obtain ⟨child, hChild, hρ⟩ := Option.bind_eq_some_iff.mp hρ
        exact absurd hρp
          (not_captures_of_hit (hNested.child hChild) (hChildren j child hChild) hρ)

theorem covers_iff (σ : Spot F) : σ.Covers origin p ↔
    (Rect.ofOriginSize (σ.entry.offsets.foldl (· + ·) origin) σ.block.frame.size).contains p =
      true := by
  have hPlace (place : Point F) : place = (.origin : Point F) + place.toOffset := by
    simp [Point.origin, Point.toOffset, Point.add_offset]
  conv_rhs => rw [hPlace (σ.entry.offsets.foldl (· + ·) origin)]
  rw [Rect.ofOriginSize_add, Rect.contains_add]
  rfl

end Spot

namespace BlockTree

theorem captures_iff {t : BlockTree F} {p : Point F} {id : Nat} : t.Captures p id ↔
    ∃ path τ, (Spot.ofRoot t.root).descend path = some τ ∧ τ.entry.id = id ∧
      τ.Captures t.origin p := by
  constructor
  · rintro ⟨b, bounds, place, hBlock, -, hBounds, hCovers, hPlace, hTakes⟩
    obtain ⟨e, he, rfl⟩ := Option.map_eq_some_iff.mp hBlock
    obtain ⟨path, τ, hτ, rfl⟩ := exists_spot he
    rw [blockBounds, he] at hBounds
    rw [blockOrigin, he] at hPlace
    obtain rfl := Option.some.inj hBounds
    obtain rfl := Option.some.inj hPlace
    exact ⟨path, τ, hτ, id_of_lookup he, τ.covers_iff.mpr hCovers, hTakes⟩
  · rintro ⟨path, τ, hτ, rfl, hp⟩
    have he := lookup_spot hτ
    refine ⟨τ.block, _, _, ?_, hp.isLeaf, ?_, τ.covers_iff.mp hp.covers, ?_, hp.takes⟩
    · rw [block?, he]
      rfl
    · rw [blockBounds, he]
      rfl
    · rw [blockOrigin, he]
      rfl

end BlockTree

/-- The block at a spot of a layout is a layout of its own, moved to its place. -/
theorem Spot.exists_layOut {style : Style F} {n : Node} {above : Option Parent} {trail : Address}
    {b : Block F} {path : List Nat} {τ : Spot F} (h : n.layOut style above trail = .ok b)
    (hτ : (Spot.ofRoot b).descend path = some τ) :
    ∃ (m : Node) (higher : Option Parent) (below : Address) (inner : Block F) (place : Offset F),
      m.layOut style higher below = .ok inner ∧ τ.block = inner.withOffset place := by
  have hBlock : (b.withOffset b.frame.offset).descend path = some τ.block := by
    rw [Block.withOffset_self]
    exact block_of_descend hτ
  obtain ⟨m, higher, below, inner, place, hLayOut, hInner, -⟩ := Node.layOut_of_descend h hBlock
  exact ⟨m, higher, below, inner, place, hLayOut, hInner⟩

theorem Spot.nested_of_layOut {style : Style F} (hSound : style.metrics.Sound) {n : Node}
    {above : Option Parent} {trail : Address} {b : Block F}
    (h : n.layOut style above trail = .ok b) : (Spot.ofRoot b).Nested := by
  intro path τ hτ
  obtain ⟨m, higher, below, inner, place, hLayOut, hInner⟩ := exists_layOut h hτ
  rw [hInner]
  exact (Node.seated_of_layOut hSound m higher below hLayOut).2.withOffset place

/-- In exact arithmetic and under valid settings the search for a point finds the innermost branch
that captures the point, and all others that capture it are around that one. -/
theorem BlockTree.hit_innermost {settings : Settings F} {fonts : Fonts F}
    {style : Style F} (hCheck : settings.check = .ok ())
    (hStyle : settings.style fonts = .ok style) {n : Node} {tree : BlockTree F}
    (hTree : style.layOut n = .ok tree) (origin p : Point F) :
    let t := { tree with origin }
    (t.hit p = none ↔ ∀ id, ¬ t.Captures p id) ∧
      ∀ id, t.hit p = some id → t.Captures p id ∧
        ∀ other, t.Captures p other → other = id ∨ Entry.Above t.entries other id := by
  intro t
  have hSound := Settings.sound_of_check hCheck
  rw [← Settings.metrics_of_style hStyle] at hSound
  obtain ⟨root, hRoot, rfl⟩ := Style.layOut_inv hTree
  have hNested : (Spot.ofRoot root).Nested := Spot.nested_of_layOut hSound hRoot
  have hFound {id : Nat} (hHit : t.hit p = some id) := Spot.exists_of_hit hNested hHit
  constructor
  · constructor
    · intro hHit id hp
      obtain ⟨path, τ, hτ, -, hp⟩ := captures_iff.mp hp
      exact Spot.not_captures_of_hit hNested hHit hτ hp
    · intro hNone
      cases hHit : t.hit p with
      | none => rfl
      | some id =>
        obtain ⟨path, τ, hτ, hId, hp, -⟩ := hFound hHit
        exact absurd (captures_iff.mpr ⟨path, τ, hτ, hId, hp⟩) (hNone id)
  · intro id hHit
    obtain ⟨path, τ, hτ, hId, hp, hOthers⟩ := hFound hHit
    refine ⟨captures_iff.mpr ⟨path, τ, hτ, hId, hp⟩, ?_⟩
    intro other hOther
    obtain ⟨upper, ρ, hρ, rfl, hρp⟩ := captures_iff.mp hOther
    rw [← hId]
    exact Spot.eq_or_above hρ hτ (hOthers upper ρ hρ hρp)

theorem BlockTree.hit_innermost_conjunction :
    let settings : Settings ℚ := { Settings.standard with templates := [] }
    let n : Node := .operator .and [.operator .add [.symbol "x", .symbol "y"], .symbol "z"]
    ∃ style tree, settings.check = .ok () ∧
      settings.style (.ofReadable fun _ => true) = .ok style ∧
      style.layOut n = .ok tree ∧
      let t := { tree with origin := ⟨8, 1⟩ }
      t.hit ⟨100, 25⟩ = some 2 ∧ t.Captures ⟨100, 25⟩ 2 ∧
        ∀ other, t.Captures ⟨100, 25⟩ other → other = 2 ∨ Entry.Above t.entries other 2 := by
  intro settings n
  have hCheck : settings.check = .ok () := Settings.check_standard
  have hStyle : settings.style (.ofReadable fun _ => true) =
      .ok ⟨Settings.standardMetrics, .fixedAdvance (3 / 5)⟩ := rfl
  have hLayOut : ∃ tree,
      (⟨Settings.standardMetrics, .fixedAdvance (3 / 5)⟩ : Style ℚ).layOut n = .ok tree ∧
      ({ tree with origin := ⟨8, 1⟩ } : BlockTree ℚ).hit ⟨100, 25⟩ = some 2 :=
    ⟨_, rfl, by decide +kernel⟩
  obtain ⟨tree, hTree, hHit⟩ := hLayOut
  have hInner := BlockTree.hit_innermost hCheck hStyle hTree ⟨8, 1⟩ ⟨100, 25⟩
  obtain ⟨hCaptures, hOthers⟩ := hInner.2 2 hHit
  exact ⟨_, tree, hCheck, hStyle, hTree, hHit, hCaptures, hOthers⟩

end Blockwork
