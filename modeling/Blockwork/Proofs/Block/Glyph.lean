import Blockwork.Proofs.Block.Taken

/-! # Where a branch is grabbed

A branch is grabbed at its label. The label stands level with the branch and beside its holes, so
nothing inside the branch takes it. A sign between two operands always lies in the event layer; the
label of stacked operands is centred in its column without the outline, and an outline that is
wider than half of the column leaves it outside.
-/

set_option autoImplicit false

namespace Blockwork

variable {F : Type} [Field F] [LinearOrder F] [IsStrictOrderedRing F]

theorem Rect.contains_rounded_level {r : Rect F} (h : r.InOrder) {type : SlotType} {p : Point F}
    (hLevel : p.y + p.y = r.y0 + r.y1) :
    (r.rounded type).contains p = true ↔ r.x0 ≤ p.x ∧ p.x ≤ r.x1 := by
  constructor
  · intro hp
    obtain ⟨hx0, hx1, -, -⟩ := holds_of_rounded h hp
    exact ⟨hx0, hx1⟩
  · rintro ⟨hx0, hx1⟩
    have hCorner := h.corner_nonneg type
    have hTall : r.corner type ≤ (r.y1 - r.y0) / 2 :=
      (min_le_right _ _).trans (div_le_div_of_nonneg_right (min_le_right _ _) two_pos.le)
    have hx : beyond r.x0 r.x1 (r.corner type) p.x ≤ r.corner type := by
      apply beyond_le_iff.mpr
      refine ⟨?_, ?_, hCorner⟩ <;> linarith
    have hy : beyond r.y0 r.y1 (r.corner type) p.y = 0 := by
      apply le_antisymm (beyond_le_iff.mpr ?_) (beyond_nonneg ..)
      refine ⟨?_, ?_, le_rfl⟩ <;> linarith
    rw [contains_rounded_iff h, hy, mul_zero, add_zero]
    exact mul_self_le_mul_self (beyond_nonneg ..) hx

/-- The outline of a branch leaves room for its label: a stacked branch centres the label in a
column that does not count the outline. -/
def BranchShape.Roomy {K : Type} [Scalar K] (style : Style K) (s : BranchShape K) : Prop :=
  s.arrangement = .stacked → style.metrics.lineWidth * (2 : Nat) ≤
    style.metrics.padding + style.labelBox s.label style.metrics.operatorFont

/-- How the label of a branch stands among its parts. -/
structure BranchShape.Labelled (style : Style F) (s : BranchShape F) (size : Size F) : Prop where
  proper : size.Proper
  layer : s.eventLayer = (Rect.ofOriginSize .origin size).inset style.metrics.lineWidth
  order : s.eventLayer.InOrder
  level : s.labelCenter.y + s.labelCenter.y = size.height
  left : 0 ≤ s.labelCenter.x
  edge : style.metrics.lineWidth ≤ s.labelCenter.x ↔ s.Roomy style
  right : s.labelCenter.x + style.metrics.lineWidth < size.width
  holes : ∀ h ∈ s.holes, h.rect.InOrder
  clear : ∀ h ∈ s.holes, s.labelCenter.x < h.rect.x0 ∨ h.rect.x1 < s.labelCenter.x

namespace Style

variable {style : Style F} (label : String)

theorem labelled_beside (h : style.metrics.Sound) {left right : Occupant F}
    (hLeft : (style.slotSize left).Proper) (hRight : (style.slotSize right).Proper) :
    (style.beside label left right).shape.Labelled style (style.beside label left right).size := by
  have hFrames := frames_beside label h hLeft hRight
  have hSign := h.operatorWidth
  have hPad := h.padding
  have hLine := h.lineWidth
  obtain ⟨hlWidth, -⟩ := Size.proper_iff.mp hLeft
  obtain ⟨hrWidth, -⟩ := Size.proper_iff.mp hRight
  refine ⟨(seats_beside h label hLeft hRight).proper, hFrames.layer, hFrames.order, ?_, ?_, ?_, ?_,
    ?_, ?_⟩
  · simp only [beside, Nat.cast_ofNat, add_halves]
  · simp only [beside, Nat.cast_ofNat]
    linarith
  · simp only [BranchShape.Roomy, beside, Nat.cast_ofNat]
    refine iff_of_true ?_ nofun
    linarith
  · simp only [beside, Nat.cast_ofNat]
    linarith
  · intro hole hHole
    simp only [beside, List.mem_cons, List.not_mem_nil, or_false] at hHole
    rcases hHole with rfl | rfl <;> exact (Rect.inOrder_ordered _).add _
  · intro hole hHole
    simp only [beside, Rect.ofOriginSize_eq hLeft, Rect.ofOriginSize_eq hRight, List.mem_cons,
      List.not_mem_nil, or_false] at hHole
    simp only [beside, Nat.cast_ofNat]
    rcases hHole with rfl | rfl
    · right
      simp only [Rect.add_offset]
      linarith
    · left
      simp only [Rect.add_offset]
      linarith

theorem inOrder_column (labelWidth depth widest : F) (children : List (Occupant F)) :
    ∀ h ∈ (style.column labelWidth depth widest children).holes, h.rect.InOrder := by
  induction children generalizing depth widest with
  | nil => nofun
  | cons child later ih => exact List.forall_mem_cons.mpr ⟨Rect.inOrder_ordered _, ih _ _⟩

theorem labelled_stack (h : style.metrics.Sound) {children : List (Occupant F)}
    (hChildren : ∀ child ∈ children, (style.slotSize child).Proper) :
    (style.stack label children).shape.Labelled style (style.stack label children).size := by
  have hFrames := frames_stack label h hChildren
  have hPad := h.padding
  have hLine := h.lineWidth
  have hLabel := labelBox_pos h label style.metrics.operatorFont
  have hStands := stands_column h
    (style.metrics.padding + style.labelBox label style.metrics.operatorFont) hChildren
    ((0 : Nat) : F) ((0 : Nat) : F)
  have hWidest := hStands.broader
  rw [Nat.cast_zero] at hWidest
  refine ⟨(seats_stack h label hChildren).proper, hFrames.layer, hFrames.order, ?_, ?_, ?_, ?_,
    ?_, ?_⟩
  · simp only [stack, Nat.cast_ofNat, add_halves]
  · simp only [stack, Nat.cast_ofNat]
    linarith
  · simp only [BranchShape.Roomy, stack, Nat.cast_ofNat, forall_true_left]
    exact le_div_iff₀ two_pos
  · simp only [stack, Nat.cast_ofNat, Nat.cast_zero]
    linarith
  · intro hole hHole
    obtain ⟨inner, hInner, rfl⟩ := List.mem_map.mp hHole
    exact (inOrder_column _ _ _ children inner hInner).add _
  · intro hole hHole
    obtain ⟨inner, hInner, rfl⟩ := List.mem_map.mp hHole
    left
    simp only [stack, Nat.cast_ofNat, Rect.add_offset, (hStands.inside inner hInner).1]
    linarith

theorem labelled_plan (h : style.metrics.Sound) (stacked : Bool) {children : List (Occupant F)}
    (hChildren : ∀ child ∈ children, (style.slotSize child).Proper) :
    (style.plan label stacked children).shape.Labelled style
      (style.plan label stacked children).size := by
  unfold plan
  split
  · split
    · exact labelled_stack label h hChildren
    · apply labelled_beside label h
      · exact hChildren _ List.mem_cons_self
      · exact hChildren _ (List.mem_cons_of_mem _ List.mem_cons_self)
  · exact labelled_stack label h hChildren

end Style

namespace Block

def Labelled (style : Style F) : Block F → Prop
  | .leaf _ _ => True
  | .branch f s _ => s.Labelled style f.size

theorem exists_of_branchShape {K : Type} {b : Block K} {s : BranchShape K}
    (h : b.branchShape? = some s) : ∃ f cs, b = .branch f s cs := by
  cases b with
  | leaf f t => cases h
  | branch f t cs =>
    obtain rfl := Option.some.inj h
    exact ⟨f, cs, rfl⟩

theorem Labelled.withOffset {style : Style F} {b : Block F} (h : b.Labelled style)
    (offset : Offset F) : (b.withOffset offset).Labelled style := by
  cases b <;> exact h

end Block

theorem Style.labelled_branchBlock {style : Style F} (h : style.metrics.Sound) (label : String)
    (stacked : Bool) (type : SlotType) (expression : String) (address : Address)
    {children : List (Block F)} (hChildren : ∀ c ∈ children, c.Seated style) :
    (style.branchBlock label stacked type expression address children).Labelled style := by
  apply labelled_plan label h
  intro child hChild
  obtain ⟨c, hc, rfl⟩ := List.mem_map.mp hChild
  exact (hChildren c hc).proper

theorem Node.labelled_of_layOut {style : Style F} (hSound : style.metrics.Sound) {n : Node}
    {above : Option Parent} {trail : Address} {b : Block F}
    (h : n.layOut style above trail = .ok b) : b.Seated style ∧ b.Labelled style := by
  refine layOut_induction (motive := fun b => b.Seated style ∧ b.Labelled style) ?_ ?_ n h
  · intro label type text address
    exact ⟨Style.seated_leafBlock hSound .., trivial⟩
  · intro label stacked type text address children hChildren
    have hSeated : ∀ c ∈ children, c.Seated style := fun c hc => (hChildren c hc).1
    exact ⟨Style.seated_branchBlock _ _ _ _ _ hSound hSeated,
      Style.labelled_branchBlock hSound label stacked type text address hSeated⟩

namespace BranchShape.Labelled

variable {style : Style F} {f : Frame F} {s : BranchShape F} {cs : List (Block F)}

theorem bounds (h : s.Labelled style f.size) :
    (Block.branch f s cs).localBounds = ⟨0, 0, f.size.width, f.size.height⟩ := by
  rw [Block.localBounds, Block.frame, Rect.ofOriginSize_eq h.proper]
  simp [Point.origin]

theorem not_between (h : s.Labelled style f.size) {hole : Hole F} (hHole : hole ∈ s.holes) :
    ¬ (hole.rect.x0 ≤ s.labelCenter.x ∧ s.labelCenter.x ≤ hole.rect.x1) := by
  rintro ⟨hx0, hx1⟩
  rcases h.clear hole hHole with hLeft | hRight
  · exact absurd hx0 hLeft.not_ge
  · exact absurd hx1 hRight.not_ge

/-- The event layer takes the label iff the outline leaves room for it. -/
theorem takes_iff (h : s.Labelled style f.size) :
    (Block.branch f s cs).takes s.labelCenter = true ↔ s.Roomy style := by
  have hLayer := h.layer
  rw [Rect.ofOriginSize_eq h.proper] at hLayer
  have hLevel : s.labelCenter.y + s.labelCenter.y = s.eventLayer.y0 + s.eventLayer.y1 := by
    rw [h.level, hLayer]
    simp [Rect.inset, Point.origin]
  have hHoles : ∀ hole ∈ s.holes, (hole.rect.rounded hole.type).contains s.labelCenter = false := by
    intro hole hHole
    rw [Bool.eq_false_iff]
    intro hp
    obtain ⟨hx0, hx1, -, -⟩ := Rect.holds_of_rounded (h.holes hole hHole) hp
    exact h.not_between hHole ⟨hx0, hx1⟩
  have hRight := h.right
  rw [Block.takes_branch, and_iff_left hHoles, Rect.contains_rounded_level h.order hLevel, ← h.edge,
    hLayer]
  simp only [Rect.inset, Point.origin, Nat.cast_zero, zero_add, and_iff_left_iff_imp]
  intro _
  linarith

/-- The bounds of a branch hold its label unless the branch has no height. -/
theorem contains_iff (hLine : 0 ≤ style.metrics.lineWidth) (h : s.Labelled style f.size) :
    (Block.branch f s cs).localBounds.contains s.labelCenter = true ↔ 0 < f.size.height := by
  have hLevel := h.level
  have hRight := h.right
  rw [h.bounds, Rect.contains_iff]
  constructor
  · rintro ⟨-, -, -, hBelow⟩
    dsimp only at hBelow
    linarith
  · intro hHeight
    refine ⟨h.left, ?_, ?_, ?_⟩ <;> dsimp only <;> linarith

end BranchShape.Labelled

namespace Spot

variable {style : Style F} {σ τ : Spot F} {origin p : Point F} {f : Frame F} {s : BranchShape F}
  {cs : List (Block F)} {path : List Nat}

theorem labelled_of_layOut (hSound : style.metrics.Sound) {n : Node} {above : Option Parent}
    {trail : Address} {b : Block F} (h : n.layOut style above trail = .ok b)
    (hτ : (Spot.ofRoot b).descend path = some τ) : τ.block.Labelled style := by
  obtain ⟨m, _, _, inner, place, hLayOut, hInner⟩ := exists_layOut h hτ
  rw [hInner]
  exact (Node.labelled_of_layOut hSound hLayOut).2.withOffset place

theorem not_covers_of_label (hBlock : σ.block = .branch f s cs) (hNests : σ.block.Nests)
    (hLabelled : s.Labelled style f.size) (hLabel : σ.within origin p = s.labelCenter) {k : Nat}
    (h : σ.child? k = some τ) (hBranch : τ.block.isLeaf = false) : ¬ τ.Covers origin p := by
  intro hp
  rw [hBlock] at hNests
  obtain ⟨hole, -, hHole, hRect⟩ := exists_hole hBlock hNests h
  rw [← fills_iff_covers hBranch, fills_iff_of_child h, ← hRect, hLabel, Rect.contains_iff] at hp
  obtain ⟨hx0, hx1, -, -⟩ := hp
  exact hLabelled.not_between (List.mem_of_getElem? hHole) ⟨hx0, hx1.le⟩

theorem hit_label (hNested : σ.Nested) (hτ : σ.descend path = some τ)
    (hBlock : τ.block = .branch f s cs) (hLabelled : s.Labelled style f.size)
    (hLabel : τ.within origin p = s.labelCenter) (hp : τ.Captures origin p) :
    σ.hit origin p = some τ.entry.id := by
  cases hHit : σ.hit origin p with
  | none => exact absurd hp (not_captures_of_hit hNested hHit hτ)
  | some id =>
    obtain ⟨way, ρ, hρ, rfl, hρp, hOthers⟩ := exists_of_hit hNested hHit
    obtain ⟨rest, rfl⟩ := hOthers path τ hτ hp
    rw [descend_append, hτ, Option.bind_some] at hρ
    have hInner := hNested.descend hτ
    cases rest with
    | nil =>
      obtain rfl := Option.some.inj hρ
      rfl
    | cons k rest =>
      obtain ⟨υ, hChild, hρ⟩ := Option.bind_eq_some_iff.mp hρ
      exact absurd (covers_of_descend (hInner.child hChild) hρ hρp.covers)
        (not_covers_of_label hBlock (hInner [] τ rfl) hLabelled hLabel hChild
          (isLeaf_of_descend hρ hρp.isLeaf))

end Spot

namespace BlockTree

section

variable {t : BlockTree F} {τ : Spot F} {id : Nat} {p : Point F}

theorem glyphPoint_eq {e : Entry F} {s : BranchShape F} (h : t.entry? id = some e)
    (hs : e.block.branchShape? = some s) :
    t.glyphPoint id = some (t.originOf e + s.labelCenter.toOffset) := by
  simp only [glyphPoint, h, Option.bind_eq_bind, Option.bind_some, hs]
  rfl

theorem takes_entry_iff (h : t.entry? id = some τ.entry) : t.Takes p id ↔ τ.Takes t.origin p := by
  constructor
  · rintro ⟨b, place, hBlock, -, hPlace, hp⟩
    rw [block?, h] at hBlock
    rw [blockOrigin, h] at hPlace
    obtain rfl := Option.some.inj hBlock
    obtain rfl := Option.some.inj hPlace
    exact hp
  · intro hp
    refine ⟨τ.block, t.originOf τ.entry, ?_, hp.isLeaf, ?_, hp⟩
    · rw [block?, h]
      rfl
    · rw [blockOrigin, h]
      rfl

theorem captures_entry_iff (h : t.entry? id = some τ.entry) :
    t.Captures p id ↔ τ.Captures t.origin p := by
  constructor
  · rintro ⟨b, bounds, place, hBlock, hBranch, hBounds, hCovers, hPlace, hp⟩
    refine ⟨τ.covers_iff.mpr ?_, (takes_entry_iff h).mp ⟨b, place, hBlock, hBranch, hPlace, hp⟩⟩
    rw [blockBounds, h] at hBounds
    obtain rfl := Option.some.inj hBounds
    exact hCovers
  · intro hp
    obtain ⟨b, place, hBlock, hBranch, hPlace, hTakes⟩ := (takes_entry_iff h).mpr hp.takes
    refine ⟨b, _, place, hBlock, hBranch, ?_, τ.covers_iff.mp hp.covers, hPlace, hTakes⟩
    rw [blockBounds, h]
    rfl

end

/-- In exact arithmetic and under valid settings a branch of a text takes its label iff its outline
leaves room for the label, and is found there iff it also has a height. -/
theorem hit_glyphPoint {settings : Settings F} {fonts : Fonts F} {style : Style F}
    (hCheck : settings.check = .ok ()) (hStyle : settings.style fonts = .ok style)
    {text : String} {tree : BlockTree F} (hTree : style.layOutText text = .ok tree)
    (origin : Point F) :
    let t := { tree with origin }
    ∀ id b s, t.block? id = some b → b.branchShape? = some s →
      ∃ p, t.glyphPoint id = some p ∧ (t.Takes p id ↔ s.Roomy style) ∧
        (t.hit p = some id ↔ s.Roomy style ∧ 0 < b.frame.size.height) := by
  intro t id b s hb hs
  have hSound := Settings.sound_of_check hCheck
  rw [← Settings.metrics_of_style hStyle] at hSound
  obtain ⟨n, root, -, hRoot, rfl⟩ := Style.layOutText_inv hTree
  have hNested : (Spot.ofRoot root).Nested := Spot.nested_of_layOut hSound hRoot
  obtain ⟨e, he, rfl⟩ := Option.map_eq_some_iff.mp hb
  obtain ⟨path, τ, hτ, rfl⟩ := exists_spot he
  obtain rfl : τ.entry.id = id := id_of_lookup he
  change τ.block.branchShape? = some s at hs
  obtain ⟨f, cs, hBlock⟩ : ∃ f cs, τ.block = .branch f s cs := Block.exists_of_branchShape hs
  have hLabelled := Spot.labelled_of_layOut hSound hRoot hτ
  rw [hBlock] at hLabelled
  let p := t.originOf τ.entry + s.labelCenter.toOffset
  have hLabel : τ.within origin p = s.labelCenter :=
    Point.eq_of_coordinates (add_sub_cancel_left ..) (add_sub_cancel_left ..)
  have hTakes : τ.Takes origin p ↔ s.Roomy style := by
    rw [Spot.Takes, hBlock, hLabel]
    exact hLabelled.takes_iff
  have hCovers : τ.Covers origin p ↔ 0 < τ.block.frame.size.height := by
    rw [Spot.Covers, hBlock, hLabel]
    exact hLabelled.contains_iff hSound.lineWidth
  refine ⟨p, ?_, (takes_entry_iff he).trans hTakes, ?_⟩
  · exact glyphPoint_eq he hs
  · constructor
    · intro hHit
      obtain ⟨way, ρ, hρ, hId, hp, -⟩ := Spot.exists_of_hit hNested hHit
      have hp := (captures_entry_iff he).mp (captures_iff.mpr ⟨way, ρ, hρ, hId, hp⟩)
      exact ⟨hTakes.mp hp.takes, hCovers.mp hp.covers⟩
    · rintro ⟨hRoom, hHeight⟩
      exact Spot.hit_label hNested hτ hBlock hLabelled hLabel
        ⟨hCovers.mpr hHeight, hTakes.mpr hRoom⟩

/-- An outline of sixteen around a label column of thirty: the label of this negation stands left
of its event layer, and the search there finds nothing. -/
theorem misses_glyphPoint :
    let metrics : Metrics ℚ := { Settings.standardMetrics with lineWidth := 16 }
    let settings : Settings ℚ := { Settings.standard with metrics, templates := [] }
    ∃ style tree, settings.check = .ok () ∧
      settings.style (.ofReadable fun _ => true) = .ok style ∧
      style.layOutText "-a" = .ok tree ∧
      ¬ ∀ id b s, tree.block? id = some b → b.branchShape? = some s →
        ∃ p, tree.glyphPoint id = some p ∧ tree.Takes p id ∧ tree.hit p = some id := by
  intro metrics settings
  have hCheck : settings.check = .ok () := by
    simp [settings, metrics, Settings.check, Settings.standard, Settings.standardMetrics,
      Settings.checkFields, Settings.isPositive, Settings.isNotNegative, Scalar.isFinite,
      Settings.checkTemplates, Settings.checkMeasure, bind, Except.bind]
  have hStyle : settings.style (.ofReadable fun _ => true) =
      .ok ⟨metrics, .fixedAdvance (3 / 5)⟩ := rfl
  have hRead : Node.read "-a" = .ok (.operator .neg [.symbol "a"]) := by
    cbv
  obtain ⟨tree, b, s, hTree, hBlock, hShape, hHit⟩ : ∃ tree b s,
      (⟨metrics, .fixedAdvance (3 / 5)⟩ : Style ℚ).layOutText "-a" = .ok tree ∧
        tree.block? 1 = some b ∧ b.branchShape? = some s ∧ ∀ p, tree.glyphPoint 1 = some p → tree.hit p = none := by
    rw [Style.layOutText, hRead]
    refine ⟨_, _, _, rfl, rfl, rfl, ?_⟩
    intro p hp
    obtain rfl := Option.some.inj hp
    decide +kernel
  refine ⟨_, tree, hCheck, hStyle, hTree, ?_⟩
  intro hGrabs
  obtain ⟨p, hp, -, hFound⟩ := hGrabs 1 b s hBlock hShape
  rw [hHit p hp] at hFound
  cases hFound

theorem hit_glyphPoint_sum :
    let settings : Settings ℚ := { Settings.standard with templates := [] }
    ∃ style tree p, settings.check = .ok () ∧
      settings.style (.ofReadable fun _ => true) = .ok style ∧
      style.layOutText "-(a+b)" = .ok tree ∧
      let t := { tree with origin := ⟨8, 1⟩ }
      t.glyphPoint 2 = some p ∧ t.Takes p 2 ∧ t.hit p = some 2 := by
  intro settings
  have hStyle : settings.style (.ofReadable fun _ => true) =
      .ok ⟨Settings.standardMetrics, .fixedAdvance (3 / 5)⟩ := rfl
  have hRead : Node.read "-(a+b)" =
      .ok (.operator .neg [.group (.operator .add [.symbol "a", .symbol "b"])]) := by
    cbv
  obtain ⟨tree, b, s, hTree, hBlock, hShape, hBeside, hHeight⟩ : ∃ tree b s,
      (⟨Settings.standardMetrics, .fixedAdvance (3 / 5)⟩ : Style ℚ).layOutText "-(a+b)" = .ok tree ∧
        tree.block? 2 = some b ∧ b.branchShape? = some s ∧ s.arrangement = .beside ∧
        0 < b.frame.size.height := by
    rw [Style.layOutText, hRead]
    exact ⟨_, _, _, rfl, rfl, rfl, rfl, by decide +kernel⟩
  obtain ⟨p, hp, hTakes, hHit⟩ :=
    hit_glyphPoint Settings.check_standard hStyle hTree ⟨8, 1⟩ 2 b s hBlock hShape
  have hRoom : s.Roomy ⟨Settings.standardMetrics, .fixedAdvance (3 / 5)⟩ := by
    intro hStacked
    rw [hBeside] at hStacked
    cases hStacked
  exact ⟨_, tree, p, Settings.check_standard, hStyle, hTree, hp, hTakes.mpr hRoom,
    hHit.mpr ⟨hRoom, hHeight⟩⟩

end BlockTree

end Blockwork
