import Mathlib.Algebra.Order.Field.Basic
import Mathlib.Tactic.Ring
import Blockwork.Proofs.Block.Hit
import Blockwork.Proofs.Block.Numbering
import Blockwork.Proofs.Block.Outline

/-! # How many branches take a point

A branch that takes a point keeps it from the branch around it, since its outline lies in the hole
that is cut for it. What lies deeper in the hole is kept as well where corners are square or where
all pills lie in one another. The corner of a truth value inside a pill sticks out of the hole that
is cut for the pill, and there two branches take the same point.
-/

set_option autoImplicit false

namespace Blockwork

section

variable {K : Type} [Scalar K]

/-- The event layer of a branch takes a point of the tree's surroundings. -/
def BlockTree.Takes (t : BlockTree K) (p : Point K) (id : Nat) : Prop :=
  ∃ b place, t.block? id = some b ∧ b.isLeaf = false ∧ t.blockOrigin id = some place ∧
    b.takes (p - place.toOffset) = true

/-- Between two branches, right below the outer one, there is a number with a truth value in it
that is a branch. -/
def BlockTree.Spills (t : BlockTree K) (outer inner : Nat) : Prop :=
  ∃ e ∈ t.entries, e.parent = some outer ∧ Entry.Above t.entries e.id inner ∧
    e.block.frame.type = .number ∧ ∃ f ∈ t.entries, Entry.Above t.entries e.id f.id ∧
      f.block.isLeaf = false ∧ f.block.frame.type = .boolean

namespace Spot

def Takes (σ : Spot K) (origin p : Point K) : Prop :=
  σ.block.takes (σ.within origin p) = true

def Boxed (σ : Spot K) (origin p : Point K) : Prop :=
  (σ.block.localBounds.rounded σ.block.frame.type).contains (σ.within origin p) = true

variable {σ τ : Spot K} {origin p : Point K}

theorem Takes.isLeaf (h : σ.Takes origin p) : σ.block.isLeaf = false :=
  Block.isLeaf_of_takes h

end Spot

theorem Block.takes_branch {f : Frame K} {s : BranchShape K} {cs : List (Block K)} {p : Point K} :
    (Block.branch f s cs).takes p = true ↔ (s.eventLayer.rounded f.type).contains p = true ∧
      ∀ h ∈ s.holes, (h.rect.rounded h.type).contains p = false := by
  simp [takes, Rect.rounded]

theorem BlockTree.takes_iff {t : BlockTree K} {p : Point K} {id : Nat} : t.Takes p id ↔
    ∃ path τ, (Spot.ofRoot t.root).descend path = some τ ∧ τ.entry.id = id ∧
      τ.Takes t.origin p := by
  constructor
  · rintro ⟨b, place, hBlock, -, hPlace, hTakes⟩
    obtain ⟨e, he, rfl⟩ := Option.map_eq_some_iff.mp hBlock
    obtain ⟨path, τ, hτ, rfl⟩ := exists_spot he
    rw [blockOrigin, he] at hPlace
    obtain rfl := Option.some.inj hPlace
    exact ⟨path, τ, hτ, id_of_lookup he, hTakes⟩
  · rintro ⟨path, τ, hτ, rfl, hp⟩
    have he := lookup_spot hτ
    refine ⟨τ.block, _, ?_, hp.isLeaf, ?_, hp⟩
    · rw [block?, he]
      rfl
    · rw [blockOrigin, he]
      rfl

end

variable {F : Type} [Field F] [LinearOrder F] [IsStrictOrderedRing F]

/-- What the blocks of a text have in common. -/
structure Block.Regular (style : Style F) (b : Block F) : Prop where
  nests : b.Nests
  outlined : b.Outlined style
  wide : b.Arithmetic → b.isLeaf = false → b.localBounds.Wide

theorem Block.wide_of_size {b : Block F} (hProper : b.frame.size.Proper)
    (h : b.frame.size.height ≤ b.frame.size.width) : b.localBounds.Wide := by
  refine ⟨Rect.inOrder_ordered _, ?_⟩
  rw [localBounds, Rect.ofOriginSize_eq hProper, Rect.height, Rect.width]
  simpa using h

theorem Block.level_localBounds (b : Block F) :
    b.localBounds.y0 + b.localBounds.y1 = b.frame.size.height := by
  simp only [localBounds, Rect.ofOriginSize, Rect.ordered, min_add_max, Point.origin,
    Nat.cast_zero, zero_add]

theorem Node.regular_of_layOut {style : Style F} (hSound : style.metrics.Sound)
    (hWide : style.metrics.textHeight ≤ 2 * style.metrics.minTextWidth) {n : Node}
    (hn : n.Readable) {above : Option Parent} {trail : Address} {b c : Block F} {path : List Nat}
    {offset : Offset F} (h : n.layOut style above trail = .ok b)
    (hc : (b.withOffset offset).descend path = some c) : c.Regular style := by
  -- A child is moved to its place before the path goes on, so the offset is kept general.
  induction path generalizing n above trail b offset with
  | nil =>
    obtain rfl := Option.some.inj hc
    obtain ⟨hSeated, hNests⟩ := seated_of_layOut hSound n above trail h
    refine ⟨hNests.withOffset offset, (outlined_of_layOut hSound hn h).withOffset offset, ?_⟩
    intro hNumbers hBranch
    rw [Block.isLeaf_withOffset] at hBranch
    have hSize := (broad_of_layOut hSound hWide hn h hNumbers.of_withOffset).2 hBranch
    have hProper : b.frame.size.Proper := by
      have hSlot := hSeated.proper
      rwa [Style.slotSize, Block.occupant, hBranch, if_neg Bool.false_ne_true] at hSlot
    apply Block.wide_of_size <;> rwa [Block.size_withOffset]
  | cons k path ih =>
    rw [Block.descend, Block.children_withOffset] at hc
    obtain ⟨child, hChild, hc⟩ := Option.bind_eq_some_iff.mp hc
    obtain ⟨m, text, below, inner, place, hm, hLayOut, rfl⟩ := child_of_layOut n h hChild
    exact ih (hn.bare_operand (List.mem_of_getElem? hm)) hLayOut hc

namespace Spot

def Regular (style : Style F) (σ : Spot F) : Prop :=
  ∀ path τ, σ.descend path = some τ → τ.block.Regular style

def Edged (style : Style F) (σ : Spot F) (origin p : Point F) : Prop :=
  (σ.block.localBounds.inset style.metrics.lineWidth).Holds (σ.within origin p)

section

variable {style : Style F} {σ τ ρ : Spot F} {origin p : Point F} {j k : Nat} {path : List Nat}

theorem Regular.self (h : σ.Regular style) : σ.block.Regular style := h [] σ rfl

theorem Regular.child (h : σ.Regular style) (hChild : σ.child? k = some τ) :
    τ.Regular style := by
  intro path ρ hρ
  apply h (k :: path) ρ
  rw [descend, hChild]
  exact hρ

theorem Regular.descend (h : σ.Regular style) (hτ : σ.descend path = some τ) :
    τ.Regular style := by
  intro rest ρ hρ
  apply h (path ++ rest) ρ
  rw [descend_append, hτ]
  exact hρ

theorem Regular.exists_hole (h : σ.Regular style) {f : Frame F} {s : BranchShape F}
    {cs : List (Block F)} (hBlock : σ.block = .branch f s cs) (hChild : σ.child? k = some τ)
    (hBranch : τ.block.isLeaf = false) :
    ∃ hole, s.holes[k]? = some hole ∧ hole.type = τ.block.frame.type ∧
      hole.rect = τ.block.localBounds + τ.block.frame.offset := by
  obtain ⟨hNests, hOutlined, -⟩ := h.self
  rw [hBlock] at hNests hOutlined
  obtain ⟨hole, hSlot, hHole, hRect⟩ := Spot.exists_hole hBlock hNests hChild
  rw [Block.filling_of_branch hBranch] at hRect
  exact ⟨hole, hHole, hOutlined.types k τ.block _ hSlot hHole, hRect⟩

theorem inOrder_localBounds (b : Block F) : b.localBounds.InOrder := Rect.inOrder_ordered _

/-- What the box of a child holds, the branch around it does not take. -/
theorem Regular.not_takes (h : σ.Regular style) (hChild : σ.child? k = some τ)
    (hBranch : τ.block.isLeaf = false) (hp : τ.Boxed origin p) : ¬ σ.Takes origin p := by
  intro hTakes
  rw [Takes] at hTakes
  cases hBlock : σ.block with
  | leaf f s =>
    rw [hBlock] at hTakes
    cases hTakes
  | branch f s cs =>
    obtain ⟨hole, hHole, hType, hRect⟩ := h.exists_hole hBlock hChild hBranch
    rw [hBlock] at hTakes
    have hMissed := (Block.takes_branch.mp hTakes).2 hole (List.mem_of_getElem? hHole)
    rw [hRect, hType, Rect.rounded_add (inOrder_localBounds τ.block), ← around_of_child hChild,
      ← within_eq, hp] at hMissed
    cases hMissed

theorem Regular.inset_of_takes (h : σ.Regular style) (hp : σ.Takes origin p) :
    (σ.block.localBounds.inset style.metrics.lineWidth).InOrder ∧
      ((σ.block.localBounds.inset style.metrics.lineWidth).rounded σ.block.frame.type).contains
        (σ.within origin p) = true := by
  have hOutlined := h.self.outlined
  rw [Takes] at hp
  cases hBlock : σ.block with
  | leaf f s =>
    rw [hBlock] at hp
    cases hp
  | branch f s cs =>
    rw [hBlock] at hp hOutlined
    have hLayer : s.eventLayer =
        (Block.branch f s cs).localBounds.inset style.metrics.lineWidth := hOutlined.layer
    rw [← hLayer]
    exact ⟨hOutlined.order, (Block.takes_branch.mp hp).1⟩

theorem Regular.boxed (h : σ.Regular style) (hSound : style.metrics.Sound)
    (hp : σ.Takes origin p) : σ.Boxed origin p := by
  obtain ⟨hOrder, hInset⟩ := h.inset_of_takes hp
  exact Rect.rounded_of_inset hSound.lineWidth hOrder hInset

theorem Regular.edged (h : σ.Regular style) (hp : σ.Takes origin p) : σ.Edged style origin p := by
  obtain ⟨hOrder, hInset⟩ := h.inset_of_takes hp
  exact Rect.holds_of_rounded hOrder hInset

theorem Regular.edged_of_child (h : σ.Regular style) (hSound : style.metrics.Sound)
    (hChild : σ.child? k = some τ) (hBranch : τ.block.isLeaf = false)
    (hp : τ.Edged style origin p) : σ.Edged style origin p := by
  have hLine := hSound.lineWidth
  cases hBlock : σ.block with
  | leaf f s =>
    rw [child?_of_leaf (by rw [hBlock]; rfl)] at hChild
    cases hChild
  | branch f s cs =>
    obtain ⟨hole, hHole, -, hRect⟩ := h.exists_hole hBlock hChild hBranch
    obtain ⟨hNests, hOutlined, -⟩ := h.self
    rw [hBlock] at hNests hOutlined
    have hLayer : s.eventLayer =
        (Block.branch f s cs).localBounds.inset style.metrics.lineWidth := hOutlined.layer
    have hInside := hNests.holes hole (List.mem_of_getElem? hHole)
    rw [hRect, hLayer] at hInside
    have hOwn : (τ.block.localBounds.inset style.metrics.lineWidth).Within
        τ.block.localBounds := by
      simp only [Rect.Within, Rect.inset]
      refine ⟨?_, ?_, ?_, ?_⟩ <;> linarith
    have hHeld := hOwn.holds hp
    rw [within_eq, around_of_child hChild, ← Rect.holds_add] at hHeld
    rw [Edged, hBlock]
    exact hInside.holds hHeld

/-- What a branch takes lies inside the outlines of all that are around it. -/
theorem Regular.edged_of_descend (h : σ.Regular style) (hSound : style.metrics.Sound)
    (hτ : σ.descend path = some τ) (hp : τ.Takes origin p) : σ.Edged style origin p := by
  induction path generalizing σ with
  | nil =>
    obtain rfl := Option.some.inj hτ
    exact h.edged hp
  | cons k path ih =>
    obtain ⟨ρ, hChild, hτ⟩ := Option.bind_eq_some_iff.mp hτ
    exact h.edged_of_child hSound hChild (isLeaf_of_descend hτ hp.isLeaf) (ih (h.child hChild) hτ)

theorem Regular.slot_unique (h : σ.Regular style) (hSound : style.metrics.Sound)
    (hGap : 0 < style.metrics.padding ∨ 0 < style.metrics.lineWidth) (hτ : σ.child? k = some τ)
    (hρ : σ.child? j = some ρ) (hτBranch : τ.block.isLeaf = false)
    (hρBranch : ρ.block.isLeaf = false) (hτp : τ.Edged style origin p)
    (hρp : ρ.Edged style origin p) : k = j := by
  cases hBlock : σ.block with
  | leaf f s =>
    rw [child?_of_leaf (by rw [hBlock]; rfl)] at hτ
    cases hτ
  | branch f s cs =>
    have hOutlined := h.self.outlined
    rw [hBlock] at hOutlined
    obtain ⟨hole, hHole, -, hRect⟩ := h.exists_hole hBlock hτ hτBranch
    obtain ⟨other, hOther, -, hOtherRect⟩ := h.exists_hole hBlock hρ hρBranch
    obtain ⟨hk, rfl⟩ := List.getElem?_eq_some_iff.mp hHole
    obtain ⟨hj, rfl⟩ := List.getElem?_eq_some_iff.mp hOther
    have hPad := hSound.padding
    have hLine := hSound.lineWidth
    -- Seen from the parent, both points lie a line inside the two holes.
    have hInside {υ : Spot F} {i : Nat} {r : Rect F} (hυ : σ.child? i = some υ)
        (hr : r = υ.block.localBounds + υ.block.frame.offset) (hp : υ.Edged style origin p) :
        (r.inset style.metrics.lineWidth).Holds (σ.within origin p) := by
      have hMoved : (r.inset style.metrics.lineWidth) =
          υ.block.localBounds.inset style.metrics.lineWidth + υ.block.frame.offset := by
        rw [hr]
        simp only [Rect.inset, Rect.add_offset, Rect.mk.injEq]
        refine ⟨?_, ?_, ?_, ?_⟩ <;> ring
      rw [hMoved, Rect.holds_add, ← around_of_child hυ, ← within_eq]
      exact hp
    obtain ⟨hτx0, hτx1, hτy0, hτy1⟩ := hInside hτ hRect hτp
    obtain ⟨hρx0, hρx1, hρy0, hρy1⟩ := hInside hρ hOtherRect hρp
    simp only [Rect.inset] at hτx0 hτx1 hτy0 hτy1 hρx0 hρx1 hρy0 hρy1
    have hSum : 0 < style.metrics.padding + 2 * style.metrics.lineWidth := by
      rcases hGap with hGap | hGap <;> linarith
    have hSpaced := List.pairwise_iff_getElem.mp hOutlined.spaced
    rcases lt_trichotomy k j with hLt | rfl | hLt
    · rcases hSpaced k j hk hj hLt with hBeside | hBelow <;> linarith
    · rfl
    · rcases hSpaced j k hj hk hLt with hBeside | hBelow <;> linarith

/-- Pills lie in one another. -/
theorem Regular.boxed_of_descend (h : σ.Regular style) (hSound : style.metrics.Sound)
    (hNumbers : σ.block.Arithmetic) (hτ : σ.descend path = some τ) (hp : τ.Takes origin p) :
    σ.Boxed origin p := by
  induction path generalizing σ with
  | nil =>
    obtain rfl := Option.some.inj hτ
    exact h.boxed hSound hp
  | cons k path ih =>
    obtain ⟨ρ, hChild, hτ⟩ := Option.bind_eq_some_iff.mp hτ
    have hSlot := (child?_eq_some hChild).1
    have hInner := hNumbers.child hSlot
    have hBranch := isLeaf_of_descend hτ hp.isLeaf
    have hBoxed := ih (h.child hChild) hInner hτ
    cases hBlock : σ.block with
    | leaf f s =>
      rw [child?_of_leaf (by rw [hBlock]; rfl)] at hChild
      cases hChild
    | branch f s cs =>
      obtain ⟨hole, hHole, -, hRect⟩ := h.exists_hole hBlock hChild hBranch
      obtain ⟨hNests, hOutlined, hWide⟩ := h.self
      have hNumber : σ.block.frame.type = .number :=
        hNumbers [] _ rfl (by rw [hBlock]; rfl)
      have hWide := hWide hNumbers (by rw [hBlock]; rfl)
      rw [Boxed, hNumber]
      rw [hBlock] at hNests hOutlined hNumber hSlot
      have hLevel := hOutlined.level hNumber hole (List.mem_of_getElem? hHole)
      have hInside := hNests.inside ρ.block (List.mem_of_getElem? hSlot)
      rw [Boxed, hInner [] _ rfl hBranch, within_eq, around_of_child hChild,
        ← Rect.rounded_add (inOrder_localBounds ρ.block)] at hBoxed
      have hPill := (h.child hChild).self.wide hInner hBranch
      apply Rect.rounded_of_centred (hPill.add _) hWide ?_ ?_ hBoxed
      · rw [hBlock]
        exact hInside
      · rw [Block.level_localBounds, hBlock, ← hRect]
        exact hLevel

/-- What is taken inside a square branch, or one with numbers only, the branch around it leaves. -/
theorem Regular.spills (h : σ.Regular style) (hSound : style.metrics.Sound)
    (hτ : σ.descend (k :: path) = some τ) (hp : τ.Takes origin p) (hTakes : σ.Takes origin p) :
    ∃ ρ, σ.child? k = some ρ ∧ path ≠ [] ∧ ρ.block.isLeaf = false ∧
      ρ.block.frame.type = .number ∧ ¬ ρ.block.Arithmetic := by
  obtain ⟨ρ, hChild, hτ⟩ := Option.bind_eq_some_iff.mp hτ
  have hBranch := isLeaf_of_descend hτ hp.isLeaf
  have hInner := h.child hChild
  have hFree : ¬ ρ.Boxed origin p := fun hBoxed => h.not_takes hChild hBranch hBoxed hTakes
  refine ⟨ρ, hChild, ?_, hBranch, ?_, ?_⟩
  · rintro rfl
    obtain rfl := Option.some.inj hτ
    exact hFree (hInner.boxed hSound hp)
  · have hEdged := hInner.edged_of_descend hSound hτ hp
    cases hType : ρ.block.frame.type with
    | number => rfl
    | string =>
      have hOutlined := hInner.self.outlined
      cases hBlock : ρ.block with
      | leaf f s =>
        rw [hBlock] at hBranch
        cases hBranch
      | branch f s cs =>
        rw [hBlock] at hOutlined hType
        exact absurd hType hOutlined.type
    | boolean =>
      apply absurd _ hFree
      rw [Boxed, hType, Rect.rounded_boolean_iff (inOrder_localBounds ρ.block)]
      obtain ⟨hx0, hx1, hy0, hy1⟩ := hEdged
      have hLine := hSound.lineWidth
      simp only [Rect.inset] at hx0 hx1 hy0 hy1
      refine ⟨?_, ?_, ?_, ?_⟩ <;> linarith
  · intro hNumbers
    exact hFree (hInner.boxed_of_descend hSound hNumbers hτ hp)

/-- Of two branches that take a point one is on the way to the other. -/
theorem Regular.prefix_or_prefix (h : σ.Regular style) (hSound : style.metrics.Sound)
    (hGap : 0 < style.metrics.padding ∨ 0 < style.metrics.lineWidth) {other : List Nat}
    (hτ : σ.descend path = some τ) (hρ : σ.descend other = some ρ) (hτp : τ.Takes origin p)
    (hρp : ρ.Takes origin p) : path <+: other ∨ other <+: path := by
  induction path generalizing σ other with
  | nil => exact .inl List.nil_prefix
  | cons k path ih =>
    cases other with
    | nil => exact .inr List.nil_prefix
    | cons j other =>
      obtain ⟨c, hc, hτ⟩ := Option.bind_eq_some_iff.mp hτ
      obtain ⟨d, hd, hρ⟩ := Option.bind_eq_some_iff.mp hρ
      obtain rfl : k = j := h.slot_unique hSound hGap hc hd (isLeaf_of_descend hτ hτp.isLeaf)
        (isLeaf_of_descend hρ hρp.isLeaf) ((h.child hc).edged_of_descend hSound hτ hτp)
        ((h.child hd).edged_of_descend hSound hρ hρp)
      obtain rfl := Option.some.inj (hc.symm.trans hd)
      rw [List.cons_prefix_cons, List.cons_prefix_cons]
      simpa using ih (h.child hc) hτ hρ

end

end Spot

namespace BlockTree

variable {style : Style F} {t : BlockTree F} {p : Point F} {σ τ : Spot F} {top path : List Nat}

theorem spills_of_takes (h : (Spot.ofRoot t.root).Regular style) (hSound : style.metrics.Sound)
    (hσ : (Spot.ofRoot t.root).descend top = some σ)
    (hτ : (Spot.ofRoot t.root).descend (top ++ path) = some τ) (hσp : σ.Takes t.origin p)
    (hτp : τ.Takes t.origin p) : σ.entry.id = τ.entry.id ∨ t.Spills σ.entry.id τ.entry.id := by
  rw [Spot.descend_append, hσ, Option.bind_some] at hτ
  cases path with
  | nil =>
    obtain rfl := Option.some.inj hτ
    exact .inl rfl
  | cons k path =>
    obtain ⟨ρ, hChild, hPath, -, hNumber, hMixed⟩ :=
      (h.descend hσ).spills hSound hτ hτp hσp
    have hρ : (Spot.ofRoot t.root).descend (top ++ [k]) = some ρ := by
      rw [Spot.descend_concat, hσ]
      exact hChild
    have hEntries := Spot.mem_run_of_descend hρ
    rw [Spot.descend, hChild, Option.bind_some] at hτ
    obtain ⟨j, rest, rfl⟩ := List.exists_cons_of_ne_nil hPath
    -- The branch that is no number lies below the number, so the way to it is not empty.
    obtain ⟨way, c, hc, hBranch, hType⟩ : ∃ way c, ρ.block.descend way = some c ∧
        c.isLeaf = false ∧ c.frame.type ≠ .number := by
      simpa [Block.Arithmetic] using hMixed
    obtain ⟨υ, hυ, rfl⟩ := Spot.exists_descend_of_block hc
    have hOutlined := ((h.descend hρ).descend hυ).self.outlined
    refine .inr ⟨ρ.entry, hEntries _ ρ.entry_mem_run, (Spot.child?_eq_some hChild).2.2.1,
      (Spot.above_of_descend hτ).mono hEntries, hNumber, υ.entry,
      hEntries _ (Spot.mem_run_of_descend hυ _ υ.entry_mem_run), ?_, hBranch, ?_⟩
    · cases way with
      | nil =>
        obtain rfl := Option.some.inj hυ
        exact absurd hNumber hType
      | cons i way => exact (Spot.above_of_descend hυ).mono hEntries
    · have hBlock : υ.entry.block = υ.block := rfl
      rw [hBlock]
      cases hShape : υ.block with
      | leaf f s =>
        rw [hShape] at hBranch
        cases hBranch
      | branch f s cs =>
        rw [hShape] at hOutlined hType
        have hString := hOutlined.type
        cases hKind : f.type with
        | number => exact absurd hKind hType
        | string => exact absurd hKind hString
        | boolean => exact hKind

/-- In exact arithmetic and with label boxes that are not too narrow, two branches of a text that
take the same point stand one inside the other, and right below the outer one is a number that a
truth value spills out of. -/
theorem takes_once_or_spills {settings : Settings F} {fonts : Fonts F}
    (hCheck : settings.check = .ok ()) (hStyle : settings.style fonts = .ok style)
    (hWide : settings.metrics.textHeight ≤ 2 * settings.metrics.minTextWidth)
    (hGap : 0 < settings.metrics.padding ∨ 0 < settings.metrics.lineWidth) {text : String}
    {tree : BlockTree F} (hTree : style.layOutText text = .ok tree) (origin p : Point F) :
    let t := { tree with origin }
    ∀ i j, t.Takes p i → t.Takes p j → i = j ∨ t.Spills i j ∨ t.Spills j i := by
  intro t i j hi hj
  have hSound := Settings.sound_of_check hCheck
  rw [← Settings.metrics_of_style hStyle] at hSound hWide hGap
  obtain ⟨n, root, hRead, hRoot, rfl⟩ := Style.layOutText_inv hTree
  have hRegular : (Spot.ofRoot root).Regular style := by
    intro path τ hτ
    have hBlock : (root.withOffset root.frame.offset).descend path = some τ.block := by
      rw [Block.withOffset_self]
      exact Spot.block_of_descend hτ
    exact Node.regular_of_layOut hSound hWide (Node.readable_of_read hRead) hRoot hBlock
  obtain ⟨path, τ, hτ, rfl, hτp⟩ := takes_iff.mp hi
  obtain ⟨other, ρ, hρ, rfl, hρp⟩ := takes_iff.mp hj
  rcases hRegular.prefix_or_prefix hSound hGap hτ hρ hτp hρp with ⟨rest, rfl⟩ | ⟨rest, rfl⟩
  · rcases spills_of_takes (t := t) hRegular hSound hτ hρ hτp hρp with hSame | hSpills
    · exact .inl hSame
    · exact .inr (.inl hSpills)
  · rcases spills_of_takes (t := t) hRegular hSound hρ hτ hρp hτp with hSame | hSpills
    · exact .inl hSame.symm
    · exact .inr (.inr hSpills)

/-- The negation of a conjunction beside an atom, with a corner of the conjunction. -/
theorem exists_corner :
    ∃ tree,
      (⟨Settings.standardMetrics, .fixedAdvance (3 / 5)⟩ : Style ℚ).layOutText "-(a and b) > x" =
        .ok tree ∧
      tree.Takes ⟨114, 15⟩ 5 ∧ tree.Takes ⟨114, 15⟩ 2 := by
  have hRead : Node.read "-(a and b) > x" = .ok (.operator .gt
      [.operator .neg [.group (.operator .and [.symbol "a", .symbol "b"])], .symbol "x"]) := by
    cbv
  rw [Style.layOutText, hRead]
  refine ⟨_, rfl, ⟨_, _, rfl, rfl, rfl, ?_⟩, ⟨_, _, rfl, rfl, rfl, ?_⟩⟩
  · decide +kernel
  · decide +kernel

/-- Both the comparison and the conjunction take the corner of the conjunction. -/
theorem takes_twice :
    let settings : Settings ℚ := { Settings.standard with templates := [] }
    ∃ style tree, settings.check = .ok () ∧
      settings.style (.ofReadable fun _ => true) = .ok style ∧
      style.layOutText "-(a and b) > x" = .ok tree ∧
      ¬ ∀ i j, tree.Takes ⟨114, 15⟩ i → tree.Takes ⟨114, 15⟩ j → i = j := by
  intro settings
  have hStyle : settings.style (.ofReadable fun _ => true) =
      .ok ⟨Settings.standardMetrics, .fixedAdvance (3 / 5)⟩ := rfl
  obtain ⟨tree, hTree, hOuter, hInner⟩ := exists_corner
  refine ⟨_, tree, Settings.check_standard, hStyle, hTree, ?_⟩
  intro hOnce
  exact absurd (hOnce 5 2 hOuter hInner) (by decide)

theorem takes_once_or_spills_corner :
    let settings : Settings ℚ := { Settings.standard with templates := [] }
    ∃ style tree, settings.check = .ok () ∧
      settings.style (.ofReadable fun _ => true) = .ok style ∧
      settings.metrics.textHeight ≤ 2 * settings.metrics.minTextWidth ∧
      0 < settings.metrics.padding ∧ style.layOutText "-(a and b) > x" = .ok tree ∧
      tree.Takes ⟨114, 15⟩ 5 ∧ tree.Takes ⟨114, 15⟩ 2 ∧ (tree.Spills 5 2 ∨ tree.Spills 2 5) := by
  intro settings
  have hStyle : settings.style (.ofReadable fun _ => true) =
      .ok ⟨Settings.standardMetrics, .fixedAdvance (3 / 5)⟩ := rfl
  have hWide : settings.metrics.textHeight ≤ 2 * settings.metrics.minTextWidth := by
    decide +kernel
  have hGap : 0 < settings.metrics.padding := by
    decide +kernel
  obtain ⟨tree, hTree, hOuter, hInner⟩ := exists_corner
  have hBoth := takes_once_or_spills Settings.check_standard hStyle hWide (.inl hGap) hTree
    tree.origin ⟨114, 15⟩ 5 2 hOuter hInner
  exact ⟨_, tree, Settings.check_standard, hStyle, hWide, hGap, hTree, hOuter, hInner,
    hBoth.resolve_left (by decide)⟩

end BlockTree

end Blockwork
