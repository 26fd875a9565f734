import Blockwork.Proofs.Block.Descent
import Mathlib.Logic.Relation

/-! # Spots in the list of blocks

The blocks of a subtree stand one behind the other in the list of all blocks, the subtree's root
last. A spot is a subtree with what its run of entries depends on: the number of its first block,
its parent, and the offsets above it.
-/

set_option autoImplicit false

namespace Blockwork

variable {K : Type}

structure Spot (K : Type) where
  first : Nat
  parent : Option Nat
  above : List (Offset K)
  block : Block K

/-- An entry is an ancestor of another one, by their numbers. -/
def Entry.Above (entries : List (Entry K)) : Nat → Nat → Prop :=
  Relation.TransGen fun upper lower => ∃ e ∈ entries, e.id = lower ∧ e.parent = some upper

theorem Entry.Above.mono {entries all : List (Entry K)} (h : ∀ e ∈ entries, e ∈ all)
    {upper lower : Nat} (hAbove : Above entries upper lower) : Above all upper lower := by
  refine Relation.TransGen.mono ?_ _ _ hAbove
  rintro a b ⟨e, he, hId, hParent⟩
  exact ⟨e, h e he, hId, hParent⟩

namespace Block

theorem countAll_append (bs cs : List (Block K)) :
    countAll (bs ++ cs) = countAll bs + countAll cs := by
  induction bs with
  | nil => simp [countAll]
  | cons b bs ih => rw [List.cons_append, countAll, countAll, ih, Nat.add_assoc]

theorem entriesAll_append (bs cs : List (Block K)) (start parent : Nat)
    (above : List (Offset K)) :
    entriesAll start parent above (bs ++ cs) =
      entriesAll start parent above bs ++ entriesAll (start + countAll bs) parent above cs := by
  induction bs generalizing start with
  | nil => simp [entriesAll, countAll]
  | cons b bs ih =>
    rw [List.cons_append, entriesAll, entriesAll, ih, List.append_assoc, countAll, Nat.add_assoc]

theorem siblingIds_append (bs cs : List (Block K)) (start : Nat) :
    siblingIds start (bs ++ cs) =
      siblingIds start bs ++ siblingIds (start + countAll bs) cs := by
  induction bs generalizing start with
  | nil => simp [siblingIds, countAll]
  | cons b bs ih =>
    rw [List.cons_append, siblingIds, siblingIds, ih, List.cons_append, countAll, Nat.add_assoc]

theorem eq_split {bs : List (Block K)} {k : Nat} {b : Block K} (h : bs[k]? = some b) :
    bs = bs.take k ++ b :: bs.drop (k + 1) := by
  obtain ⟨hBound, rfl⟩ := List.getElem?_eq_some_iff.mp h
  rw [List.cons_getElem_drop_succ, List.take_append_drop]

theorem countAll_split {bs : List (Block K)} {k : Nat} {b : Block K} (h : bs[k]? = some b) :
    countAll bs = countAll (bs.take k) + (b.count + countAll (bs.drop (k + 1))) := by
  conv_lhs => rw [eq_split h]
  rw [countAll_append, countAll]

theorem countAll_take_succ {bs : List (Block K)} {k : Nat} {b : Block K} (h : bs[k]? = some b) :
    countAll (bs.take (k + 1)) = countAll (bs.take k) + b.count := by
  rw [List.take_add_one, h, countAll_append]
  rfl

theorem count_eq (b : Block K) : b.count = countAll b.children + 1 := by
  cases b <;> rfl

end Block

namespace Spot

def ofRoot (b : Block K) : Spot K := ⟨0, none, [], b⟩

def entry (σ : Spot K) : Entry K where
  id := σ.first + Block.countAll σ.block.children
  parent := σ.parent
  children := Block.siblingIds σ.first σ.block.children
  offsets := σ.block.frame.offset :: σ.above
  block := σ.block

def run (σ : Spot K) : List (Entry K) := σ.block.entries σ.first σ.parent σ.above

def child? (σ : Spot K) (k : Nat) : Option (Spot K) :=
  σ.block.children[k]?.map fun c => {
    first := σ.first + Block.countAll (σ.block.children.take k)
    parent := some σ.entry.id
    above := σ.entry.offsets
    block := c }

def earlier (σ : Spot K) (k : Nat) : List (Entry K) :=
  Block.entriesAll σ.first σ.entry.id σ.entry.offsets (σ.block.children.take k)

def later (σ : Spot K) (k : Nat) : List (Entry K) :=
  Block.entriesAll (σ.first + Block.countAll (σ.block.children.take (k + 1))) σ.entry.id
    σ.entry.offsets (σ.block.children.drop (k + 1))

def descend : List Nat → Spot K → Option (Spot K)
  | [], σ => some σ
  | k :: path, σ => (σ.child? k).bind (descend path)

section

variable {σ τ : Spot K} {k : Nat} {path : List Nat}

theorem run_eq (σ : Spot K) :
    σ.run =
      Block.entriesAll σ.first σ.entry.id σ.entry.offsets σ.block.children ++ [σ.entry] := by
  obtain ⟨first, parent, above, block⟩ := σ
  cases block <;> rfl

theorem child?_eq_some (h : σ.child? k = some τ) :
    σ.block.children[k]? = some τ.block ∧
      τ.first = σ.first + Block.countAll (σ.block.children.take k) ∧
      τ.parent = some σ.entry.id ∧ τ.above = σ.entry.offsets := by
  obtain ⟨c, hc, rfl⟩ := Option.map_eq_some_iff.mp h
  exact ⟨hc, rfl, rfl, rfl⟩

theorem exists_child? {b : Block K} (h : σ.block.children[k]? = some b) :
    ∃ τ, σ.child? k = some τ ∧ τ.block = b :=
  ⟨_, by rw [child?, h]; rfl, rfl⟩

theorem child?_of_leaf (h : σ.block.isLeaf = true) : σ.child? k = none := by
  obtain ⟨first, parent, above, block⟩ := σ
  cases block with
  | leaf f s => rfl
  | branch f s cs => cases h

theorem first_later (h : σ.child? k = some τ) :
    σ.first + Block.countAll (σ.block.children.take (k + 1)) = τ.first + τ.block.count := by
  obtain ⟨hChild, hFirst, -, -⟩ := child?_eq_some h
  rw [Block.countAll_take_succ hChild, hFirst, Nat.add_assoc]

/-- The run of a child within its parent's. -/
theorem run_of_child (h : σ.child? k = some τ) :
    σ.run = σ.earlier k ++ (τ.run ++ (σ.later k ++ [σ.entry])) := by
  obtain ⟨hChild, hFirst, hParent, hAbove⟩ := child?_eq_some h
  have hRun : τ.run = τ.block.entries τ.first (some σ.entry.id) σ.entry.offsets := by
    rw [run, hParent, hAbove]
  rw [run_eq, earlier, later, first_later h, hRun]
  conv_lhs => rw [Block.eq_split hChild]
  rw [Block.entriesAll_append, Block.entriesAll, ← hFirst, List.append_assoc, List.append_assoc]

theorem mem_run_of_child (h : σ.child? k = some τ) : ∀ e ∈ τ.run, e ∈ σ.run := by
  rw [run_of_child h]
  intro e he
  exact List.mem_append_right _ (List.mem_append_left _ he)

theorem entry_mem_run (σ : Spot K) : σ.entry ∈ σ.run := by
  rw [run_eq]
  exact List.mem_append_right _ List.mem_cons_self

theorem mem_run_of_descend (h : σ.descend path = some τ) : ∀ e ∈ τ.run, e ∈ σ.run := by
  induction path generalizing σ with
  | nil =>
    obtain rfl := Option.some.inj h
    exact fun e he => he
  | cons k path ih =>
    obtain ⟨ρ, hChild, h⟩ := Option.bind_eq_some_iff.mp h
    exact fun e he => mem_run_of_child hChild e (ih h e he)

theorem run_split (h : σ.descend path = some τ) :
    ∃ front back, σ.run = front ++ (τ.run ++ back) ∧ τ.first = σ.first + front.length := by
  induction path generalizing σ with
  | nil =>
    obtain rfl := Option.some.inj h
    exact ⟨[], [], by simp, rfl⟩
  | cons k path ih =>
    obtain ⟨ρ, hChild, h⟩ := Option.bind_eq_some_iff.mp h
    obtain ⟨front, back, hRun, hFirst⟩ := ih h
    refine ⟨σ.earlier k ++ front, back ++ (σ.later k ++ [σ.entry]), ?_, ?_⟩
    · rw [run_of_child hChild, hRun]
      simp only [List.append_assoc]
    · rw [hFirst, (child?_eq_some hChild).2.1, List.length_append, earlier,
        Block.length_entriesAll, Nat.add_assoc]

theorem block_of_descend (h : σ.descend path = some τ) :
    σ.block.descend path = some τ.block := by
  induction path generalizing σ with
  | nil =>
    obtain rfl := Option.some.inj h
    rfl
  | cons k path ih =>
    obtain ⟨ρ, hChild, h⟩ := Option.bind_eq_some_iff.mp h
    rw [Block.descend, (child?_eq_some hChild).1]
    exact ih h

theorem exists_descend_of_block {b : Block K} (h : σ.block.descend path = some b) :
    ∃ τ, σ.descend path = some τ ∧ τ.block = b := by
  induction path generalizing σ with
  | nil =>
    obtain rfl := Option.some.inj h
    exact ⟨σ, rfl, rfl⟩
  | cons k path ih =>
    obtain ⟨c, hc, h⟩ := Option.bind_eq_some_iff.mp h
    obtain ⟨ρ, hChild, rfl⟩ := exists_child? hc
    obtain ⟨τ, hτ, hBlock⟩ := ih h
    exact ⟨τ, by rw [descend, hChild]; exact hτ, hBlock⟩

theorem eq_nil_of_leaf (hLeaf : σ.block.isLeaf = true) (h : σ.descend path = some τ) :
    path = [] := by
  cases path with
  | nil => rfl
  | cons k path =>
    rw [descend, child?_of_leaf hLeaf] at h
    cases h

/-- Only a branch has a branch at or below it. -/
theorem isLeaf_of_descend (h : σ.descend path = some τ) (hBranch : τ.block.isLeaf = false) :
    σ.block.isLeaf = false := by
  cases hLeaf : σ.block.isLeaf with
  | false => rfl
  | true =>
    obtain rfl := eq_nil_of_leaf hLeaf h
    obtain rfl := Option.some.inj h
    exact hLeaf.symm.trans hBranch

theorem descend_append (σ : Spot K) (top path : List Nat) :
    σ.descend (top ++ path) = (σ.descend top).bind (descend path) := by
  induction top generalizing σ with
  | nil => rfl
  | cons k top ih =>
    rw [List.cons_append, descend, descend]
    cases σ.child? k with
    | none => rfl
    | some ρ => exact ih ρ

theorem descend_singleton (σ : Spot K) (k : Nat) : σ.descend [k] = σ.child? k := by
  rw [descend]
  cases σ.child? k <;> rfl

theorem descend_concat (σ : Spot K) (path : List Nat) (k : Nat) :
    σ.descend (path ++ [k]) = (σ.descend path).bind fun τ => τ.child? k := by
  have hLast : descend [k] = fun τ : Spot K => τ.child? k :=
    funext fun τ => τ.descend_singleton k
  rw [descend_append, hLast]

theorem count_of_child (h : σ.child? k = some τ) : τ.block.count < σ.block.count := by
  obtain ⟨hChild, -⟩ := child?_eq_some h
  have hSplit := Block.countAll_split hChild
  have hCount := σ.block.count_eq
  omega

/-- What passes from the children of a spot to the spot holds everywhere. -/
theorem induction {motive : Spot K → Prop}
    (step : ∀ σ, (∀ k τ, σ.child? k = some τ → motive τ) → motive σ) (σ : Spot K) : motive σ := by
  induction hCount : σ.block.count using Nat.strong_induction_on generalizing σ with
  | _ count ih =>
    subst hCount
    exact step σ fun k τ hChild => ih τ.block.count (count_of_child hChild) τ rfl

theorem above_of_descend (h : σ.descend (k :: path) = some τ) :
    Entry.Above σ.run σ.entry.id τ.entry.id := by
  induction path generalizing σ k with
  | nil =>
    obtain ⟨ρ, hChild, h⟩ := Option.bind_eq_some_iff.mp h
    obtain rfl := Option.some.inj h
    exact .single ⟨ρ.entry, mem_run_of_child hChild _ ρ.entry_mem_run, rfl,
      (child?_eq_some hChild).2.2.1⟩
  | cons j path ih =>
    obtain ⟨ρ, hChild, h⟩ := Option.bind_eq_some_iff.mp h
    have hStep : Entry.Above σ.run σ.entry.id ρ.entry.id :=
      .single ⟨ρ.entry, mem_run_of_child hChild _ ρ.entry_mem_run, rfl,
        (child?_eq_some hChild).2.2.1⟩
    exact hStep.trans ((ih h).mono (mem_run_of_child hChild))

theorem eq_or_above {ρ : Spot K} {top : List Nat} (hρ : σ.descend top = some ρ)
    (hτ : σ.descend path = some τ) (h : top <+: path) :
    ρ.entry.id = τ.entry.id ∨ Entry.Above σ.run ρ.entry.id τ.entry.id := by
  obtain ⟨rest, rfl⟩ := h
  rw [descend_append, hρ, Option.bind_some] at hτ
  cases rest with
  | nil =>
    obtain rfl := Option.some.inj hτ
    exact .inl rfl
  | cons k rest => exact .inr ((above_of_descend hτ).mono (mem_run_of_descend hρ))

end

mutual

/-- Every entry of a run is that of a spot inside. -/
theorem exists_descend_of_mem_run {e : Entry K} : (b : Block K) → (first : Nat) →
    (parent : Option Nat) → (above : List (Offset K)) → e ∈ b.entries first parent above →
    ∃ path τ, descend path ⟨first, parent, above, b⟩ = some τ ∧ e = τ.entry
  | .leaf f s, first, parent, above, h => by
    obtain rfl := List.mem_singleton.mp h
    exact ⟨[], _, rfl, rfl⟩
  | .branch f s cs, first, parent, above, h => by
    rw [Block.entries] at h
    rcases List.mem_append.mp h with h | h
    · obtain ⟨k, c, path, τ, hc, hPath, he⟩ := exists_descend_of_mem_runs cs _ _ _ h
      refine ⟨k :: path, τ, ?_, he⟩
      rw [descend, child?, Block.children, hc]
      exact hPath
    · obtain rfl := List.mem_singleton.mp h
      exact ⟨[], _, rfl, rfl⟩

theorem exists_descend_of_mem_runs {e : Entry K} : (bs : List (Block K)) →
    (start parent : Nat) → (above : List (Offset K)) →
    e ∈ Block.entriesAll start parent above bs →
    ∃ (k : Nat) (c : Block K) (path : List Nat) (τ : Spot K), bs[k]? = some c ∧
      descend path ⟨start + Block.countAll (bs.take k), some parent, above, c⟩ = some τ ∧
        e = τ.entry
  | [], _, _, _, h => by cases h
  | b :: bs, start, parent, above, h => by
    rw [Block.entriesAll] at h
    rcases List.mem_append.mp h with h | h
    · obtain ⟨path, τ, hPath, he⟩ := exists_descend_of_mem_run b _ _ _ h
      exact ⟨0, b, path, τ, rfl, hPath, he⟩
    · obtain ⟨k, c, path, τ, hc, hPath, he⟩ := exists_descend_of_mem_runs bs _ _ _ h
      refine ⟨k + 1, c, path, τ, hc, ?_, he⟩
      rw [List.take_succ_cons, Block.countAll, ← Nat.add_assoc]
      exact hPath

end

end Spot

namespace BlockTree

variable {t : BlockTree K} {e : Entry K} {id : Nat}

theorem id_of_lookup (h : t.entry? id = some e) : e.id = id := by
  have hIds := congrArg (·[id]?) (Block.map_id_entries 0 none [] t.root)
  have hEntry : (t.root.entries 0 none [])[id]? = some e := h
  rw [List.getElem?_map, hEntry, Option.map_some] at hIds
  obtain ⟨_, hRange⟩ := List.getElem?_eq_some_iff.mp hIds.symm
  simpa using hRange.symm

theorem lookup_of_mem (h : e ∈ t.entries) : t.entry? e.id = some e := by
  obtain ⟨i, hi⟩ := List.mem_iff_getElem?.mp h
  rw [id_of_lookup hi]
  exact hi

theorem lookup_spot {path : List Nat} {τ : Spot K}
    (h : (Spot.ofRoot t.root).descend path = some τ) : t.entry? τ.entry.id = some τ.entry :=
  lookup_of_mem (Spot.mem_run_of_descend h _ τ.entry_mem_run)

/-- Every entry of a tree is that of a spot. -/
theorem exists_spot (h : t.entry? id = some e) :
    ∃ path τ, (Spot.ofRoot t.root).descend path = some τ ∧ e = τ.entry :=
  Spot.exists_descend_of_mem_run t.root 0 none [] (List.mem_of_getElem? h)

end BlockTree

theorem Node.address_below [Scalar K] {style : Style K} {n : Node} {b : Block K}
    {top path : List Nat} {σ τ : Spot K} (h : n.layOut style none .empty = .ok b)
    (hσ : (Spot.ofRoot b).descend top = some σ) (hτ : σ.descend path = some τ) :
    ∃ sub, n.ungroup.descend top = some sub ∧ sub.canonical = σ.block.frame.expression ∧
      τ.block.frame.address.steps =
        σ.block.frame.address.steps ++ (sub.steps none none path).tail := by
  have hInner : (Spot.ofRoot b).descend (top ++ path) = some τ := by
    rw [Spot.descend_append, hσ]
    exact hτ
  obtain ⟨⟨sub, hSub, hText⟩, hTop⟩ :=
    shows_of_layOut style top n none .empty h (Spot.block_of_descend hσ)
  have hSteps : τ.block.frame.address.steps = n.ungroup.steps none none (top ++ path) :=
    (shows_of_layOut style _ n none .empty h (Spot.block_of_descend hInner)).address
  refine ⟨sub, hSub, hText, ?_⟩
  rw [hSteps, steps_append hSub, hTop]
  rfl

end Blockwork
