import Mathlib.Algebra.Order.Field.Basic
import Mathlib.Tactic.Ring
import Blockwork.Proofs.Block.Correspondence
import Blockwork.Proofs.Block.Slots

/-! # Nested blocks

In exact arithmetic and under valid settings the parts of every block lie inside one another: the
check area of a leaf in its background, the event layer of a branch in the branch, the holes in
the event layer and apart, and every child in its branch, where it fills its hole.
-/

set_option autoImplicit false

namespace Blockwork

section

variable {K : Type} [Scalar K]

/-- The part of a block that fills its slot: a leaf draws its own padding around it. -/
def Block.filling : Block K → Rect K
  | .leaf _ s => s.background
  | .branch f s cs => (Block.branch f s cs).localBounds

/-- How the shape of a branch within given bounds holds the children. -/
structure BranchShape.Nests (s : BranchShape K) (bounds : Rect K) (children : List (Block K)) :
    Prop where
  eventLayer : s.eventLayer.Within s.background
  holes : ∀ h ∈ s.holes, h.rect.Within s.eventLayer
  apart : s.holes.Pairwise fun h k => h.rect.Apart k.rect
  length : s.holes.length = children.length
  inside : ∀ c ∈ children, (c.localBounds + c.frame.offset).Within bounds
  filled : ∀ (k : Nat) (c : Block K) (h : Hole K), children[k]? = some c → s.holes[k]? = some h →
    c.filling + c.frame.offset = h.rect

def Block.Nests : Block K → Prop
  | .leaf _ s => s.checkArea.Within s.background
  | .branch f s cs => s.Nests (Block.branch f s cs).localBounds cs

namespace Block

variable {b : Block K}

@[simp] theorem filling_withOffset (offset : Offset K) :
    (b.withOffset offset).filling = b.filling := by
  cases b <;> rfl

theorem Nests.withOffset (h : b.Nests) (offset : Offset K) : (b.withOffset offset).Nests := by
  cases b <;> exact h

structure Seated (style : Style K) (b : Block K) : Prop where
  proper : (style.slotSize b.occupant).Proper
  filling : style.seat b.occupant = b.filling

end Block

end

variable {F : Type} [Field F] [LinearOrder F] [IsStrictOrderedRing F]

namespace Style

variable {style : Style F}

theorem seated_leafBlock (h : style.metrics.Sound) (label : String) (type : SlotType)
    (expression : String) (address : Address) :
    (style.leafBlock label type expression address).Seated style := by
  obtain ⟨-, hProper, hFilling⟩ := atom_seated h label type
  exact ⟨hProper, hFilling⟩

theorem nests_leafBlock (h : style.metrics.Sound) (label : String) (type : SlotType)
    (expression : String) (address : Address) :
    (style.leafBlock label type expression address).Nests :=
  (atom_seated h label type).1

section

variable {children : List (Block F)} (label : String) (stacked : Bool) (type : SlotType)
  (expression : String) (address : Address)

theorem seats_children (h : style.metrics.Sound) (hChildren : ∀ c ∈ children, c.Seated style) :
    style.Seats (children.map Block.occupant)
      (style.plan label stacked (children.map Block.occupant)) := by
  apply seats_plan h
  intro child hChild
  obtain ⟨c, hc, rfl⟩ := List.mem_map.mp hChild
  exact (hChildren c hc).proper

theorem seated_branchBlock (h : style.metrics.Sound)
    (hChildren : ∀ c ∈ children, c.Seated style) :
    (style.branchBlock label stacked type expression address children).Seated style :=
  ⟨(seats_children label stacked h hChildren).proper, rfl⟩

theorem nests_branchBlock (h : style.metrics.Sound)
    (hChildren : ∀ c ∈ children, c.Seated style) :
    (style.branchBlock label stacked type expression address children).Nests := by
  have hSeats := seats_children label stacked h hChildren
  have hOffsets := style.length_offsets_plan label stacked (children.map Block.occupant)
  have hLength := hSeats.length
  rw [List.length_map] at hOffsets hLength
  have hOccupant {k : Nat} {c : Block F} (hc : children[k]? = some c) :
      (children.map Block.occupant)[k]? = some c.occupant := by
    rw [List.getElem?_map, hc]
    rfl
  constructor
  · exact hSeats.eventLayer
  · intro hole hHole
    exact (Rect.within_grown hole.rect h.padding).trans (hSeats.rim hole hHole)
  · exact hSeats.apart
  · rw [List.length_zipWith, hOffsets, Nat.min_self, hLength]
  · intro c hc
    obtain ⟨k, hk⟩ := List.mem_iff_getElem?.mp hc
    obtain ⟨inner, offset, hInner, hOffset, rfl⟩ := List.getElem?_zipWith_eq_some.mp hk
    have hBound := (List.getElem?_eq_some_iff.mp hInner).1
    rw [← hLength] at hBound
    rw [Block.localBounds, Block.size_withOffset, Block.offset_withOffset]
    exact hSeats.bounds_within h (hOccupant hInner)
      (hChildren inner (List.mem_of_getElem? hInner)).proper (List.getElem?_eq_getElem hBound)
      hOffset
  · intro k c hole hc hHole
    obtain ⟨inner, offset, hInner, hOffset, rfl⟩ := List.getElem?_zipWith_eq_some.mp hc
    rw [Block.filling_withOffset, Block.offset_withOffset,
      ← (hChildren inner (List.mem_of_getElem? hInner)).filling]
    exact hSeats.seated k _ hole offset (hOccupant hInner) hHole hOffset

end

end Style

namespace Node

variable {style : Style F}

theorem seated_of_layOut (hSound : style.metrics.Sound) (n : Node) (above : Option Parent)
    (trail : Address) {b : Block F} (h : n.layOut style above trail = .ok b) :
    b.Seated style ∧ b.Nests := by
  refine layOut_induction (motive := fun b => b.Seated style ∧ b.Nests) ?_ ?_ n h
  · intro label type text address
    exact ⟨Style.seated_leafBlock hSound .., Style.nests_leafBlock hSound ..⟩
  · intro label stacked type text address children hChildren
    have hSeated : ∀ c ∈ children, c.Seated style := fun c hc => (hChildren c hc).1
    exact ⟨Style.seated_branchBlock _ _ _ _ _ hSound hSeated,
      Style.nests_branchBlock _ _ _ _ _ hSound hSeated⟩

theorem seated_of_layOutAll (hSound : style.metrics.Sound) {ns : List Node} {node : Node}
    {text : String} {trail : Address} {k : Nat} {children : List (Block F)}
    (h : layOutAll style node text trail k ns = .ok children) : ∀ c ∈ children, c.Seated style := by
  refine layOutAll_induction (motive := fun b => b.Seated style) ?_ ?_ ns h
  · intro label type text address
    exact Style.seated_leafBlock hSound ..
  · intro label stacked type text address children hChildren
    exact Style.seated_branchBlock _ _ _ _ _ hSound hChildren

end Node

namespace Settings

theorem checkFields_eq_ok {K : Type} {test : K → Bool} {cause : String → SettingsCause}
    {fields : List (String × K)} :
    checkFields test cause fields = .ok () ↔ ∀ f ∈ fields, test f.2 = true := by
  induction fields with
  | nil => simp [checkFields]
  | cons f rest ih =>
    obtain ⟨field, x⟩ := f
    rw [checkFields, List.forall_mem_cons]
    split <;> rename_i hTest
    · simp [ih, hTest]
    · simp [hTest]

variable {settings : Settings F}

theorem isPositive_iff {x : F} : isPositive x = true ↔ 0 < x := by
  simp [isPositive, Scalar.isFinite]

theorem isNotNegative_iff {x : F} : isNotNegative x = true ↔ 0 ≤ x := by
  simp [isNotNegative, Scalar.isFinite]

theorem sound_of_check (h : settings.check = .ok ()) : settings.metrics.Sound := by
  simp only [check, bind, Except.bind] at h
  split at h
  · cases h
  · rename_i hPositive
    split at h
    · cases h
    · rename_i hNotNegative
      rw [checkFields_eq_ok] at hPositive hNotNegative
      simp only [List.forall_mem_cons, isPositive_iff, isNotNegative_iff] at hPositive hNotNegative
      obtain ⟨hText, hOperator, hMin, -⟩ := hPositive
      obtain ⟨hPad, hLine, -⟩ := hNotNegative
      exact ⟨hText, hOperator, hMin, hPad, hLine⟩

theorem metrics_of_style {K : Type} [Scalar K] {settings : Settings K} {fonts : Fonts K}
    {style : Style K} (h : settings.style fonts = .ok style) :
    style.metrics = settings.metrics := by
  rw [Settings.style] at h
  cases hRuler : settings.measure.ruler fonts with
  | error e =>
    rw [hRuler] at h
    cases h
  | ok ruler =>
    rw [hRuler] at h
    obtain rfl := Except.ok.inj h
    rfl

theorem check_standard : ({ standard with templates := [] } : Settings F).check = .ok () := by
  simp [check, standard, standardMetrics, checkFields, isPositive, isNotNegative, Scalar.isFinite,
    checkTemplates, checkMeasure, bind, Except.bind]

end Settings

/-- Under valid settings the blocks of every layout nest. -/
theorem BlockTree.blocks_nest {settings : Settings F} {fonts : Fonts F} {style : Style F}
    (hCheck : settings.check = .ok ()) (hStyle : settings.style fonts = .ok style) {n : Node}
    {tree : BlockTree F} (hTree : style.layOut n = .ok tree) {id : Nat} {b : Block F}
    (hb : tree.block? id = some b) : b.Nests := by
  have hSound := Settings.sound_of_check hCheck
  rw [← Settings.metrics_of_style hStyle] at hSound
  obtain ⟨root, hRoot, rfl⟩ := Style.layOut_inv hTree
  obtain ⟨path, hPath⟩ := BlockTree.exists_descend hb
  rw [← Block.withOffset_self (BlockTree.ofRoot root).root] at hPath
  obtain ⟨m, above, trail, inner, offset, hLayOut, rfl, -⟩ := Node.layOut_of_descend hRoot hPath
  exact (Node.seated_of_layOut hSound m above trail hLayOut).2.withOffset offset

theorem BlockTree.blocks_nest_conjunction :
    let settings : Settings ℚ := { Settings.standard with templates := [] }
    let n : Node := .operator .and [.operator .add [.symbol "x", .symbol "y"], .symbol "z"]
    ∃ style tree b s, settings.check = .ok () ∧
      settings.style (.ofReadable fun _ => true) = .ok style ∧
      style.layOut n = .ok tree ∧ tree.block? 4 = some b ∧ b.branchShape? = some s ∧
      s.holes.length = 2 ∧ b.Nests := by
  intro settings n
  have hCheck : settings.check = .ok () := Settings.check_standard
  have hStyle : settings.style (.ofReadable fun _ => true) =
      .ok ⟨Settings.standardMetrics, .fixedAdvance (3 / 5)⟩ := rfl
  have hLayOut : ∃ tree b s,
      (⟨Settings.standardMetrics, .fixedAdvance (3 / 5)⟩ : Style ℚ).layOut n = .ok tree ∧
      tree.block? 4 = some b ∧ b.branchShape? = some s ∧ s.holes.length = 2 :=
    ⟨_, _, _, rfl, rfl, rfl, rfl⟩
  obtain ⟨tree, b, s, hTree, hBlock, hShape, hHoles⟩ := hLayOut
  exact ⟨_, tree, b, s, hCheck, hStyle, hTree, hBlock, hShape, hHoles,
    BlockTree.blocks_nest hCheck hStyle hTree hBlock⟩

end Blockwork
