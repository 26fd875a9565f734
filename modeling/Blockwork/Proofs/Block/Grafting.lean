import Blockwork.Proofs.Block.Form
import Blockwork.Proofs.Block.Spot
import Mathlib.Data.List.Forall2

/-! # Grafted blocks

When one block of a tree is exchanged, its run of entries is exchanged in the list of blocks. The
entries around it get other numbers; those of ancestors get new sizes as well, and all others keep
what they show.
-/

set_option autoImplicit false

namespace Blockwork

open List (Forall₂)

variable {K : Type}

namespace Entry

structure Renumbered (shift : Nat → Nat) (upper : Option Nat) (x y : Entry K) : Prop where
  id : y.id = shift x.id
  parent : y.parent = (x.parent.map shift).or upper
  children : y.children = x.children.map shift

/-- An entry of a copied run; only a block right below `top` may have been moved. -/
structure Copied (shift : Nat → Nat) (upper top : Option Nat) (x y : Entry K) : Prop
    extends Renumbered shift upper x y where
  same : x.block.Same y.block
  offset : x.parent ≠ top → y.block.frame.offset = x.block.frame.offset

end Entry

namespace Block

section

variable {bs cs : List (Block K)} {shift : Nat → Nat} {start start' : Nat}

theorem siblingIds_shift (h : bs.map count = cs.map count)
    (hShift : ∀ i < countAll bs, shift (start + i) = start' + i) :
    siblingIds start' cs = (siblingIds start bs).map shift := by
  induction bs generalizing cs start start' with
  | nil =>
    obtain rfl := List.map_eq_nil_iff.mp h.symm
    rfl
  | cons b bs ih =>
    cases cs with
    | nil => cases h
    | cons c cs =>
      obtain ⟨hHead, hTail⟩ := List.cons.inj h
      have hPos := b.count_pos
      have hLast : shift (start + b.count - 1) = start' + c.count - 1 := by
        rw [Nat.add_sub_assoc hPos, hShift _ (by rw [countAll]; omega)]
        omega
      have hRest : ∀ i < countAll bs, shift (start + b.count + i) = start' + c.count + i := by
        intro i hi
        rw [Nat.add_assoc, hShift _ (by rw [countAll]; omega)]
        omega
      rw [siblingIds, siblingIds, List.map_cons, hLast, ih hTail hRest]

theorem map_count_of_anonymousAll (h : anonymousAll bs = anonymousAll cs) :
    bs.map count = cs.map count := by
  have hCount (ds : List (Block K)) : (anonymousAll ds).map count = ds.map count := by
    rw [anonymousAll_eq_map, List.map_map]
    exact List.map_congr_left fun d _ => d.count_anonymous
  rw [← hCount, h, hCount]

theorem countAll_congr (h : bs.map count = cs.map count) : countAll bs = countAll cs := by
  induction bs generalizing cs with
  | nil =>
    obtain rfl := List.map_eq_nil_iff.mp h.symm
    rfl
  | cons b bs ih =>
    cases cs with
    | nil => cases h
    | cons c cs =>
      obtain ⟨hHead, hTail⟩ := List.cons.inj h
      rw [countAll, countAll, ih hTail]
      omega

end

section

variable {shift : Nat → Nat} {upper top : Option Nat}

mutual

theorem copied_entries : (b c : Block K) → b.anonymous = c.anonymous → {start start' : Nat} →
    {parent parent' : Option Nat} → {above above' : List (Offset K)} →
    (∀ i < b.count, shift (start + i) = start' + i) → parent' = (parent.map shift).or upper →
    Forall₂ (Entry.Copied shift upper top) (b.entries start parent above)
      (c.entries start' parent' above')
  | .leaf f s, .leaf g t, h, start, start', parent, parent', above, above', hShift, hParent => by
    have hSame : (Block.leaf f s).Same (.leaf g t) := same_of_anonymous_eq h
    have hFirst : start' = shift start := (hShift 0 (by simp [count])).symm
    have hOffset : g.offset = f.offset := (congrArg (·.frame.offset) h).symm
    exact .cons ⟨⟨hFirst, hParent, rfl⟩, hSame, fun _ => hOffset⟩ .nil
  | .branch f s bs, .branch g t cs, h, start, start', parent, parent', above, above', hShift,
    hParent => by
    have hSame : (Block.branch f s bs).Same (.branch g t cs) := same_of_anonymous_eq h
    have hOffset : g.offset = f.offset := (congrArg (·.frame.offset) h).symm
    have hAll : anonymousAll bs = anonymousAll cs := congrArg Block.children h
    have hCounts := map_count_of_anonymousAll hAll
    have hLast : start' + countAll cs = shift (start + countAll bs) := by
      rw [hShift _ (by rw [count]; omega), countAll_congr hCounts]
    have hInner : ∀ i < countAll bs, shift (start + i) = start' + i :=
      fun i hi => hShift i (by rw [count]; omega)
    rw [entries, entries]
    refine List.rel_append (copied_entriesAll bs cs hAll hInner hLast) (.cons ?_ .nil)
    exact ⟨⟨hLast, hParent, siblingIds_shift hCounts hInner⟩, hSame, fun _ => hOffset⟩

theorem copied_entriesAll : (bs cs : List (Block K)) → anonymousAll bs = anonymousAll cs →
    {start start' parent parent' : Nat} → {above above' : List (Offset K)} →
    (∀ i < countAll bs, shift (start + i) = start' + i) → parent' = shift parent →
    Forall₂ (Entry.Copied shift upper top) (entriesAll start parent above bs)
      (entriesAll start' parent' above' cs)
  | [], [], _, _, _, _, _, _, _, _, _ => .nil
  | b :: bs, c :: cs, h, start, start', parent, parent', above, above', hShift, hParent => by
    obtain ⟨hHead, hTail⟩ := List.cons.inj h
    have hCount : b.count = c.count := by
      rw [← count_anonymous b, hHead, count_anonymous]
    have hFirst : ∀ i < b.count, shift (start + i) = start' + i :=
      fun i hi => hShift i (by rw [countAll]; omega)
    have hRest : ∀ i < countAll bs, shift (start + b.count + i) = start' + c.count + i := by
      intro i hi
      rw [Nat.add_assoc, hShift _ (by rw [countAll]; omega)]
      omega
    have hUpper : some parent' = ((some parent).map shift).or upper := by
      rw [hParent]
      rfl
    rw [entriesAll, entriesAll]
    exact List.rel_append (copied_entries b c hHead hFirst hUpper)
      (copied_entriesAll bs cs hTail hRest hParent)

end

end

end Block

section

variable {shift : Nat → Nat} {upper : Option Nat}

theorem Spot.copied_run {σ ρ : Spot K} (h : σ.block.Alike ρ.block)
    (hShift : ∀ i < σ.block.count, shift (σ.first + i) = ρ.first + i)
    (hParent : ρ.parent = (σ.parent.map shift).or upper) :
    Forall₂ (Entry.Copied shift upper σ.parent) σ.run ρ.run := by
  have hCounts := Block.map_count_of_anonymousAll h.children
  have hLast : ρ.entry.id = shift σ.entry.id := by
    rw [Spot.entry, Spot.entry, hShift _ (by rw [Block.count_eq]; omega),
      Block.countAll_congr hCounts]
  have hInner : ∀ i < Block.countAll σ.block.children, shift (σ.first + i) = ρ.first + i :=
    fun i hi => hShift i (by rw [Block.count_eq]; omega)
  rw [run_eq, run_eq]
  refine List.rel_append (Block.copied_entriesAll _ _ h.children hInner hLast) (.cons ?_ .nil)
  exact ⟨⟨hLast, hParent, Block.siblingIds_shift hCounts hInner⟩, h.same, absurd rfl⟩

theorem Block.copied_runs {bs cs : List (Block K)} (h : Forall₂ Alike bs cs)
    {start start' parent parent' : Nat} {above above' : List (Offset K)}
    (hShift : ∀ i < countAll bs, shift (start + i) = start' + i)
    (hParent : parent' = shift parent) :
    Forall₂ (Entry.Copied shift none (some parent)) (entriesAll start parent above bs)
      (entriesAll start' parent' above' cs) := by
  induction h generalizing start start' with
  | nil => exact .nil
  | @cons b c bs cs hHead _ ih =>
    have hCount := hHead.count_eq
    have hFirst : ∀ i < b.count, shift (start + i) = start' + i :=
      fun i hi => hShift i (by rw [countAll]; omega)
    have hRest : ∀ i < countAll bs, shift (start + b.count + i) = start' + c.count + i := by
      intro i hi
      rw [Nat.add_assoc, hShift _ (by rw [countAll]; omega)]
      omega
    have hUpper : some parent' = ((some parent).map shift).or none := by
      rw [hParent]
      rfl
    rw [entriesAll, entriesAll]
    exact List.rel_append
      (Spot.copied_run (σ := ⟨start, some parent, above, b⟩)
        (ρ := ⟨start', some parent', above', c⟩) hHead hFirst hUpper)
      (ih hRest)

end

namespace Block

def label : Block K → String
  | .leaf _ s => s.label
  | .branch _ s _ => s.label

def arrangement? (b : Block K) : Option Arrangement := b.branchShape?.map (·.arrangement)

structure Resembles (b c : Block K) : Prop where
  isLeaf : c.isLeaf = b.isLeaf
  label : c.label = b.label
  arrangement : c.arrangement? = b.arrangement?
  type : b.isLeaf = false → c.frame.type = b.frame.type
  kind : ∃ n m, Node.read b.frame.expression = .ok n ∧ Node.read c.frame.expression = .ok m ∧
    m.bare.kindName = n.bare.kindName

theorem Resembles.withOffset {b c : Block K} (h : b.Resembles c) (offset place : Offset K) :
    (b.withOffset offset).Resembles (c.withOffset place) := by
  obtain ⟨hLeaf, hLabel, hArrangement, hType, hKind⟩ := h
  cases b <;> cases c <;> exact ⟨hLeaf, hLabel, hArrangement, hType, hKind⟩

theorem Same.resembles {b c : Block K} (h : b.Same c) {n : Node}
    (hRead : Node.read b.frame.expression = .ok n) : b.Resembles c := by
  have hLeaf := h.leafShape
  have hBranch := h.branchShape
  constructor
  · cases b <;> cases c <;> first | rfl | cases hLeaf
  · cases b <;> cases c
    · exact congrArg LeafShape.label (Option.some.inj hLeaf)
    · cases hLeaf
    · cases hLeaf
    · exact congrArg BranchShape.label (Option.some.inj hBranch)
  · rw [arrangement?, hBranch]
    rfl
  · exact fun _ => h.type
  · refine ⟨n, n, hRead, ?_, rfl⟩
    rw [h.expression]
    exact hRead

/-- The second block is the first one with the block at a path exchanged, as far as that can be
told from outside of the exchanged block. -/
inductive Grafted : List Nat → Block K → Block K → Prop where
  | here (b c : Block K) : Grafted [] b c
  | inside {k : Nat} {path : List Nat} {b c d e : Block K} (hd : b.children[k]? = some d)
      (he : c.children[k]? = some e) (hResembles : b.Resembles c)
      (hLeft : Forall₂ Alike (b.children.take k) (c.children.take k))
      (hRight : Forall₂ Alike (b.children.drop (k + 1)) (c.children.drop (k + 1)))
      (h : Grafted path d e) : Grafted (k :: path) b c

theorem map_count_of_alike {bs cs : List (Block K)} (h : Forall₂ Alike bs cs) :
    bs.map count = cs.map count := by
  induction h with
  | nil => rfl
  | cons hHead _ ih => rw [List.map_cons, List.map_cons, hHead.count_eq, ih]

theorem Grafted.count_add {path : List Nat} {b c x y : Block K} (h : Grafted path b c)
    (hx : b.descend path = some x) (hy : c.descend path = some y) :
    c.count + x.count = b.count + y.count := by
  induction h with
  | here b c =>
    obtain rfl := Option.some.inj hx
    obtain rfl := Option.some.inj hy
    omega
  | @inside _ _ b c _ _ hd he _ hLeft hRight _ ih =>
    rw [descend, hd, Option.bind_some] at hx
    rw [descend, he, Option.bind_some] at hy
    have hInner := ih hx hy
    have hLeft := countAll_congr (map_count_of_alike hLeft)
    have hRight := countAll_congr (map_count_of_alike hRight)
    rw [count_eq c, count_eq b, countAll_split hd, countAll_split he]
    omega

end Block

theorem Spot.bounds_of_descend {path : List Nat} {σ τ : Spot K} (h : σ.descend path = some τ) :
    σ.first ≤ τ.first ∧ τ.first + τ.block.count ≤ σ.first + σ.block.count := by
  induction path generalizing σ with
  | nil =>
    obtain rfl := Option.some.inj h
    exact ⟨Nat.le_refl _, Nat.le_refl _⟩
  | cons k path ih =>
    obtain ⟨ρ, hChild, h⟩ := Option.bind_eq_some_iff.mp h
    obtain ⟨hBlock, hFirst, -, -⟩ := child?_eq_some hChild
    have hSplit := Block.countAll_split hBlock
    have hCount := Block.count_eq σ.block
    have hInner := ih h
    omega

structure Entry.Kept (shift : Nat → Nat) (entries : List (Entry K)) (id : Nat) (x y : Entry K) :
    Prop where
  renumbered : x.Renumbered shift none y
  resembles : x.block.Resembles y.block
  same : ¬ Above entries x.id id → x.block.Same y.block

theorem Entry.Copied.kept {shift : Nat → Nat} {top : Option Nat} {entries : List (Entry K)}
    {id : Nat} {x y : Entry K} (h : x.Copied shift none top y) {n : Node}
    (hRead : Node.read x.block.frame.expression = .ok n) : x.Kept shift entries id y :=
  ⟨h.toRenumbered, h.same.resembles hRead, fun _ => h.same⟩

theorem Entry.kept_of_copied {shift : Nat → Nat} {top : Option Nat} {entries : List (Entry K)}
    {id : Nat} {xs ys : List (Entry K)} (h : Forall₂ (Entry.Copied shift none top) xs ys)
    (hReads : ∀ x ∈ xs, ∃ n, Node.read x.block.frame.expression = .ok n) :
    Forall₂ (Entry.Kept shift entries id) xs ys := by
  induction h with
  | nil => exact .nil
  | cons hHead _ ih =>
    obtain ⟨⟨n, hn⟩, hTail⟩ := List.forall_mem_cons.mp hReads
    exact .cons (hHead.kept hn) (ih hTail)

theorem Entry.kept_mono {shift : Nat → Nat} {entries all : List (Entry K)}
    {id : Nat} {xs ys : List (Entry K)} (hAll : ∀ e ∈ entries, e ∈ all)
    (h : Forall₂ (Entry.Kept shift entries id) xs ys) :
    Forall₂ (Entry.Kept shift all id) xs ys := by
  refine h.imp ?_
  rintro x y ⟨hRenumbered, hResembles, hSame⟩
  exact ⟨hRenumbered, hResembles, fun hNot => hSame fun hAbove => hNot (hAbove.mono hAll)⟩

/-- A renumbering for the exchange of the block at a spot by one with another count of blocks: the
numbers before the spot stay, those from its last one on move by the difference. -/
structure Spot.Shifts (τ : Spot K) (count : Nat) (shift : Nat → Nat) : Prop where
  low : ∀ i < τ.first, shift i = i
  high : ∀ i, τ.entry.id ≤ i → shift i + τ.block.count = i + count

theorem Spot.id_entry (σ : Spot K) : σ.entry.id = σ.first + Block.countAll σ.block.children :=
  rfl

theorem Spot.id_entry_add_one (σ : Spot K) : σ.entry.id + 1 = σ.first + σ.block.count := by
  rw [Block.count_eq, id_entry, Nat.add_assoc]

theorem Spot.Shifts.numbers {σ ρ δ ε τ : Spot K} {k count : Nat} {path : List Nat}
    {shift : Nat → Nat} (h : τ.Shifts count shift) (hδ : σ.child? k = some δ)
    (hε : ρ.child? k = some ε) (hFirst : ρ.first = σ.first) (hτ : δ.descend path = some τ)
    (hCount : ε.block.count + τ.block.count = δ.block.count + count)
    (hLeft : (σ.block.children.take k).map Block.count =
      (ρ.block.children.take k).map Block.count)
    (hRight : (σ.block.children.drop (k + 1)).map Block.count =
      (ρ.block.children.drop (k + 1)).map Block.count) :
    ε.first = δ.first ∧
      (∀ i < Block.countAll (σ.block.children.take k), shift (σ.first + i) = ρ.first + i) ∧
      (∀ i, shift (δ.first + δ.block.count + i) = ε.first + ε.block.count + i) ∧
      ρ.entry.id = shift σ.entry.id ∧ ρ.entry.children = σ.entry.children.map shift := by
  obtain ⟨hChild, hδFirst, -, -⟩ := child?_eq_some hδ
  obtain ⟨hChild', hεFirst, -, -⟩ := child?_eq_some hε
  obtain ⟨hBelow, hWithin⟩ := bounds_of_descend hτ
  have hId := τ.id_entry_add_one
  have hLeftCount := Block.countAll_congr hLeft
  have hRightCount := Block.countAll_congr hRight
  have hSame : ε.first = δ.first := by omega
  have hEarlier : ∀ i < Block.countAll (σ.block.children.take k),
      shift (σ.first + i) = ρ.first + i := by
    intro i hi
    rw [h.low _ (by omega), hFirst]
  have hLater : ∀ i, shift (δ.first + δ.block.count + i) = ε.first + ε.block.count + i := by
    intro i
    have hHigh := h.high (δ.first + δ.block.count + i) (by omega)
    omega
  have hMiddle : shift (δ.first + δ.block.count - 1) = ε.first + ε.block.count - 1 := by
    have hHigh := h.high (δ.first + δ.block.count - 1) (by omega)
    have hPos := ε.block.count_pos
    have hPos' := δ.block.count_pos
    omega
  have hLast : ρ.entry.id = shift σ.entry.id := by
    have hSplit := Block.countAll_split hChild
    have hSplit' := Block.countAll_split hChild'
    have hShift := hLater (Block.countAll (σ.block.children.drop (k + 1)))
    have hEntry : σ.entry.id =
        δ.first + δ.block.count + Block.countAll (σ.block.children.drop (k + 1)) := by
      rw [id_entry, hSplit, hδFirst]
      omega
    rw [hEntry, hShift, id_entry, hSplit', hεFirst]
    omega
  refine ⟨hSame, hEarlier, hLater, hLast, ?_⟩
  rw [entry, entry]
  dsimp only
  rw [Block.eq_split hChild, Block.eq_split hChild', Block.siblingIds_append,
    Block.siblingIds_append, Block.siblingIds, Block.siblingIds, ← hδFirst, ← hεFirst,
    List.map_append, List.map_cons, hMiddle, Block.siblingIds_shift hLeft hEarlier,
    Block.siblingIds_shift hRight fun i _ => hLater i]

/-- The run of a block after an exchange is the run before it, with the run of the exchanged block
replaced and the others kept. -/
theorem Block.Grafted.exists_run {path : List Nat} {b c y : Block K} (h : Grafted path b c)
    {σ ρ τ : Spot K} {shift : Nat → Nat} (hb : σ.block = b) (hc : ρ.block = c)
    (hFirst : ρ.first = σ.first) (hParent : ρ.parent = σ.parent.map shift)
    (hτ : σ.descend path = some τ) (hy : c.descend path = some y)
    (hShifts : τ.Shifts y.count shift)
    (hReads : ∀ x ∈ σ.run, ∃ n, Node.read x.block.frame.expression = .ok n) :
    ∃ υ : Spot K, υ.first = τ.first ∧ υ.parent = τ.parent.map shift ∧ υ.block = y ∧
      ∃ before after before' after', σ.run = before ++ (τ.run ++ after) ∧
        ρ.run = before' ++ (υ.run ++ after') ∧ τ.first = σ.first + before.length ∧
        Forall₂ (Entry.Kept shift σ.run τ.entry.id) before before' ∧
        Forall₂ (Entry.Kept shift σ.run τ.entry.id) after after' := by
  induction h generalizing σ ρ with
  | here b c =>
    obtain rfl := Option.some.inj hτ
    obtain rfl := Option.some.inj hy
    exact ⟨ρ, hFirst, hParent, hc, [], [], [], [], by simp, by simp, by simp, .nil, .nil⟩
  | @inside k path b c d e hd he hResembles hLeft hRight hInner ih =>
    subst hb hc
    have hAbove := Spot.above_of_descend hτ
    obtain ⟨δ, hδ, hτ⟩ := Option.bind_eq_some_iff.mp hτ
    obtain ⟨hChild, hδFirst, hδParent, -⟩ := Spot.child?_eq_some hδ
    obtain rfl := Option.some.inj (hd.symm.trans hChild)
    obtain ⟨ε, hε, rfl⟩ : ∃ ε, ρ.child? k = some ε ∧ ε.block = e := by
      rw [Spot.child?, he]
      exact ⟨_, rfl, rfl⟩
    have hεParent := (Spot.child?_eq_some hε).2.2.1
    rw [descend, he, Option.bind_some] at hy
    have hx := Spot.block_of_descend hτ
    obtain ⟨hSame, hEarlier, hLater, hLast, hChildren⟩ :=
      hShifts.numbers hδ hε hFirst hτ (hInner.count_add hx hy) (map_count_of_alike hLeft)
        (map_count_of_alike hRight)
    have hInside := Spot.mem_run_of_child hδ
    have hUpper : ε.parent = δ.parent.map shift := by
      rw [hεParent, hδParent, hLast]
      rfl
    obtain ⟨υ, hυFirst, hυParent, hυBlock, before, after, before', after', hRun, hRun', hLength,
      hBefore, hAfter⟩ := ih rfl rfl hSame hUpper hτ hy fun x hx => hReads x (hInside x hx)
    have hLefts : Forall₂ (Entry.Kept shift σ.run τ.entry.id) (σ.earlier k) (ρ.earlier k) := by
      refine Entry.kept_of_copied (copied_runs hLeft hEarlier hLast) fun x hx => hReads x ?_
      rw [Spot.run_of_child hδ]
      exact List.mem_append_left _ hx
    have hRights : Forall₂ (Entry.Kept shift σ.run τ.entry.id) (σ.later k) (ρ.later k) := by
      refine Entry.kept_of_copied (copied_runs hRight ?_ hLast) fun x hx => hReads x ?_
      · intro i _
        rw [Spot.first_later hδ, Spot.first_later hε]
        exact hLater i
      · rw [Spot.run_of_child hδ]
        exact List.mem_append_right _ (List.mem_append_right _ (List.mem_append_left _ hx))
    have hEntry : σ.entry.Kept shift σ.run τ.entry.id ρ.entry := by
      refine ⟨⟨hLast, ?_, hChildren⟩, hResembles, fun hNot => absurd hAbove hNot⟩
      rw [Option.or_none]
      exact hParent
    refine ⟨υ, hυFirst, hυParent, hυBlock, σ.earlier k ++ before,
      after ++ (σ.later k ++ [σ.entry]), ρ.earlier k ++ before', after' ++ (ρ.later k ++ [ρ.entry]),
      ?_, ?_, ?_, ?_, ?_⟩
    · rw [Spot.run_of_child hδ, hRun]
      simp only [List.append_assoc]
    · rw [Spot.run_of_child hε, hRun']
      simp only [List.append_assoc]
    · rw [List.length_append, Spot.earlier, length_entriesAll]
      omega
    · exact List.rel_append hLefts (Entry.kept_mono hInside hBefore)
    · exact List.rel_append (Entry.kept_mono hInside hAfter)
        (List.rel_append hRights (.cons hEntry .nil))

end Blockwork
