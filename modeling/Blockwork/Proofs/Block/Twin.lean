import Blockwork.Proofs.Block.Exchange
import Blockwork.Proofs.Block.Grouping
import Blockwork.Proofs.Block.Highlight
import Blockwork.Proofs.Block.Hit

/-! # Twins

A block that is laid out twice has the same blocks below it, however it is lit and wherever it
stands. In exact arithmetic they begin at the same distances from it, so two twins are apart by one
offset with all that is below them.
-/

set_option autoImplicit false

namespace Blockwork

section

variable {K : Type} [Scalar K]

namespace Block

def plain (b : Block K) : Block K := b.unlit.anonymous

theorem matches_unlit (b : Block K) : b.Matches b.unlit := by
  cases b <;> exact ⟨rfl, rfl, rfl, rfl⟩

theorem matches_plain (b : Block K) : b.Matches b.plain :=
  b.matches_unlit.trans b.unlit.same_anonymous.toMatches

@[simp] theorem offset_plain (b : Block K) : b.plain.frame.offset = b.frame.offset := by
  cases b <;> rfl

@[simp] theorem count_plain (b : Block K) : b.plain.count = b.count := by
  rw [plain, count_anonymous, count_unlit]

theorem children_plain (b : Block K) : b.plain.children = b.children.map plain := by
  rw [plain, children_anonymous, children_unlit, anonymousAll_eq_map, List.map_map]
  rfl

theorem countAll_map_plain (bs : List (Block K)) : countAll (bs.map plain) = countAll bs := by
  induction bs with
  | nil => rfl
  | cons b bs ih => rw [List.map_cons, countAll, countAll, count_plain, ih]

/-- Two blocks look the same, and all below them looks the same and is at the same place in them. -/
structure Twins (b c : Block K) : Prop extends Matches b c where
  children : b.children.map plain = c.children.map plain

variable {b c : Block K}

theorem twins_of_plain (h : b.plain = c.plain) : b.Twins c := by
  constructor
  · have hMatches := b.matches_plain
    rw [h] at hMatches
    exact hMatches.trans c.matches_plain.symm
  · rw [← children_plain, h, children_plain]

theorem twins_of_unlit (h : b.unlit = c.unlit) : b.Twins c :=
  twins_of_plain (congrArg anonymous h)

theorem Twins.trans {d : Block K} (h : b.Twins c) (h' : c.Twins d) : b.Twins d :=
  ⟨h.toMatches.trans h'.toMatches, h.children.trans h'.children⟩

/-- Blocks without highlights that differ in their addresses and in their own place are twins. -/
theorem Alike.twins (h : b.Alike c) (hb : b.unlit = b) (hc : c.unlit = c) : b.Twins c := by
  have hPlain {d : Block K} (hd : d.unlit = d) :
      d.children.map plain = anonymousAll d.children := by
    rw [← children_plain, plain, hd, children_anonymous]
  exact ⟨h.same.toMatches, by rw [hPlain hb, hPlain hc, h.children]⟩

theorem Twins.count_eq (h : b.Twins c) : b.count = c.count := by
  rw [Block.count_eq, Block.count_eq, ← countAll_map_plain, h.children, countAll_map_plain]

theorem Twins.child (h : b.Twins c) {k : Nat} {x : Block K} (hx : b.children[k]? = some x) :
    ∃ y, c.children[k]? = some y ∧ x.Twins y ∧ x.frame.offset = y.frame.offset ∧
      countAll (b.children.take k) = countAll (c.children.take k) := by
  have hSlot := congrArg (·[k]?) h.children
  simp only [List.getElem?_map, hx, Option.map_some] at hSlot
  obtain ⟨y, hy, hPlain⟩ := Option.map_eq_some_iff.mp hSlot.symm
  refine ⟨y, hy, twins_of_plain hPlain.symm, ?_, ?_⟩
  · rw [← offset_plain, ← hPlain, offset_plain]
  · rw [← countAll_map_plain, List.map_take, h.children, ← List.map_take, countAll_map_plain]

end Block

/-- A node on its own and in its place in a tree gives twins. -/
theorem Node.twins_of_layOut {style : Style K} {n m : Node} {above higher : Option Parent}
    {trail other : Address} {b c : Block K} (hb : n.layOut style above trail = .ok b)
    (hc : m.layOut style higher other = .ok c) (hSame : m.ungroup = n.ungroup)
    (offset : Offset K) : b.Twins (c.withOffset offset) := by
  by_cases hSymbol : ∃ name, n.ungroup = .symbol name
  · obtain ⟨name, hName⟩ := hSymbol
    obtain ⟨type, address, -, rfl⟩ := leafBlock_of_layOut hb hName
    obtain ⟨type', address', -, rfl⟩ := leafBlock_of_layOut hc (hSame.trans hName)
    exact ⟨⟨rfl, rfl, rfl, rfl⟩, rfl⟩
  · have hOther : ∀ name, n.ungroup ≠ .symbol name := fun name hName => hSymbol ⟨name, hName⟩
    have hAlike : b.Alike (c.withOffset offset) := by
      rw [← b.withOffset_self]
      exact (Block.alike_of_anonymous_eq
        (anonymous_of_layOut hb hc hSame (.inr hOther))).withOffset _ _
    apply hAlike.twins (unlit_of_layOut n above trail hb)
    rw [Block.unlit_withOffset, unlit_of_layOut m higher other hc]

theorem Node.offset_of_layOut {style : Style K} {above : Option Parent} {trail : Address}
    {b : Block K} (n : Node) (h : n.layOut style above trail = .ok b) :
    b.frame.offset = .zero := by
  refine layOut_induction (motive := fun b => b.frame.offset = .zero) ?_ ?_ n h
  · intro label type text address
    rfl
  · intro label stacked type text address children _
    rfl

namespace Style

variable {style : Style K} {text : String} {tree : BlockTree K}

theorem offset_of_layOutText (h : style.layOutText text = .ok tree) :
    tree.root.frame.offset = .zero := by
  obtain ⟨n, b, -, hb, rfl⟩ := layOutText_inv h
  exact Node.offset_of_layOut n hb

/-- What a tree says lays out to the tree. -/
theorem layOutText_expression (h : style.layOutText text = .ok tree) :
    style.layOutText tree.expression = .ok tree := by
  obtain ⟨n, b, hRead, hb, rfl⟩ := layOutText_inv h
  have hText : (BlockTree.ofRoot b).expression = n.canonical := Node.canonical_of_layOut hb
  rw [hText, layOutText_of_read style (Node.read_canonical (Node.readable_of_read hRead)),
    layOut_congr style (Node.ungroup_regroup n), ← layOutText_of_read style hRead, h]

theorem twins_of_descend (h : style.layOutText text = .ok tree) {path : List Nat} {b : Block K}
    (hb : tree.root.descend path = some b) {piece : BlockTree K}
    (hPiece : style.layOutText b.frame.expression = .ok piece) : piece.root.Twins b := by
  obtain ⟨n, root, hRead, hRoot, rfl⟩ := layOutText_inv h
  obtain ⟨m, c, hReadPiece, hc, rfl⟩ := layOutText_inv hPiece
  obtain ⟨sub, hSub, hText⟩ := (Node.shows_of_layOut style path n none .empty hRoot hb).text
  have hm : m = sub.regroup := by
    have hReadSub := Node.read_canonical ((Node.readable_of_read hRead).ungroup.descend hSub)
    rw [hText] at hReadSub
    exact Except.ok.inj (hReadPiece.symm.trans hReadSub)
  have hb : (root.withOffset root.frame.offset).descend path = some b := by
    rw [Block.withOffset_self]
    exact hb
  obtain ⟨inner, above, trail, x, place, hInner, rfl, hNode⟩ := Node.layOut_of_descend hRoot hb
  apply Node.twins_of_layOut hc hInner
  rw [hm, Node.ungroup_regroup]
  obtain rfl := Option.some.inj (hSub.symm.trans hNode)
  exact (Node.ungroup_ungroup inner).symm

end Style

def Spot.place (σ : Spot K) (origin : Point K) : Point K := σ.entry.offsets.foldl (· + ·) origin

end

variable {F : Type} [Field F] [LinearOrder F] [IsStrictOrderedRing F]

namespace Spot

variable {σ ρ τ : Spot F} {origin other : Point F} {k : Nat} {path : List Nat}

theorem place_eq (σ : Spot F) (origin : Point F) :
    σ.place origin = σ.above.foldl (· + ·) origin + σ.block.frame.offset :=
  Point.foldl_add_offset origin _ σ.above

theorem place_of_child (h : σ.child? k = some τ) :
    τ.place origin = σ.place origin + τ.block.frame.offset := by
  rw [place_eq, (child?_eq_some h).2.2.2]
  rfl

/-- Below twins that are apart by an offset there are twins that are apart by it. -/
theorem exists_twin (h : σ.block.Twins ρ.block) {v : Offset F}
    (hPlace : σ.place origin = ρ.place other + v) (hτ : σ.descend path = some τ) :
    ∃ υ, ρ.descend path = some υ ∧ τ.block.Twins υ.block ∧
      ρ.first + τ.entry.id = σ.first + υ.entry.id ∧ τ.place origin = υ.place other + v := by
  induction path generalizing σ ρ with
  | nil =>
    obtain rfl := Option.some.inj hτ
    have hCount := h.count_eq
    have hLast := σ.id_entry_add_one
    have hOtherLast := ρ.id_entry_add_one
    refine ⟨ρ, rfl, h, ?_, hPlace⟩
    omega
  | cons k path ih =>
    obtain ⟨δ, hδ, hτ⟩ := Option.bind_eq_some_iff.mp hτ
    obtain ⟨hChild, hFirst, -, -⟩ := child?_eq_some hδ
    obtain ⟨y, hy, hTwins, hOffset, hEarlier⟩ := h.child hChild
    obtain ⟨ε, hε, rfl⟩ := exists_child? hy
    have hOtherFirst := (child?_eq_some hε).2.1
    have hBelow : δ.place origin = ε.place other + v := by
      rw [place_of_child hδ, place_of_child hε, hPlace, hOffset]
      simp only [Point.add_offset, add_right_comm]
    obtain ⟨υ, hυ, hLast, hId, hApart⟩ := ih hTwins hBelow hτ
    refine ⟨υ, ?_, hLast, ?_, hApart⟩
    · rw [descend, hε]
      exact hυ
    · omega

end Spot

theorem BlockTree.exists_twin {t u : BlockTree F} {top : List Nat} {ρ : Spot F}
    (hρ : (Spot.ofRoot u.root).descend top = some ρ) (h : t.root.Twins ρ.block) {v : Offset F}
    (hPlace : (Spot.ofRoot t.root).place t.origin = ρ.place u.origin + v) {k : Nat} {e : Entry F}
    (he : t.entry? k = some e) :
    ∃ f, u.entry? (ρ.first + k) = some f ∧ e.block.Twins f.block ∧
      t.originOf e = u.originOf f + v := by
  obtain rfl := id_of_lookup he
  obtain ⟨path, τ, hτ, rfl⟩ := exists_spot he
  obtain ⟨υ, hυ, hTwins, hId, hApart⟩ := Spot.exists_twin (σ := .ofRoot t.root) h hPlace hτ
  have hDown : (Spot.ofRoot u.root).descend (top ++ path) = some υ := by
    rw [Spot.descend_append, hρ]
    exact hυ
  have hFound := lookup_spot hDown
  rw [Spot.ofRoot, Nat.zero_add] at hId
  rw [← hId] at hFound
  exact ⟨υ.entry, hFound, hTwins, hApart⟩

end Blockwork
