import Blockwork.Proofs.Block.Arena
import Blockwork.Proofs.Block.Hit
import Blockwork.Proofs.Block.Numbering

/-! # The links of an arena

The cells of an arena name each other by number alone. In the arena of an expression these numbers
hold the tree: children and parents are linked both ways, a parent has a larger number than its
children, and the root comes last. The cells are the expression's nodes in post-order, and every
cell is addressed one step below its parent.
-/

set_option autoImplicit false

namespace Blockwork

open List (Forall₂)

variable {K : Type}

namespace Arena

def descend (a : Arena K) (id : Nat) : List Nat → Option Nat
  | [] => some id
  | k :: path => do
    let c ← a.cell? id
    a.descend (← c.children[k]?) path

/-- The cells of an arena are linked both ways, and leaves and branches are told apart. -/
structure Linked (a : Arena K) : Prop where
  id : ∀ i c, a.cell? i = some c → c.id = i
  last : a.cells.size = a.root + 1
  mark : ∀ i c, a.cell? i = some c → (c.flags.isRoot = true ↔ i = a.root)
  root : ∀ i c, a.cell? i = some c → (c.parent = none ↔ i = a.root)
  upper : ∀ i c p, a.cell? i = some c → c.parent = some p → i < p ∧ p < a.cells.size
  children : ∀ p u i, a.cell? p = some u →
    (i ∈ u.children ↔ ∃ c, a.cell? i = some c ∧ c.parent = some p)
  siblings : ∀ p u, a.cell? p = some u → u.children.Pairwise (· < ·)
  leaf : ∀ i, i ∈ a.leaves ↔ ∃ c, a.cell? i = some c ∧ c.flags.isLeaf = true
  branch : ∀ i, i ∈ a.branches ↔ ∃ c, a.cell? i = some c ∧ c.flags.isLeaf = false
  parted : (a.leaves.toList ++ a.branches.toList).Perm (List.range a.cells.size)
  leaves : a.leaves.toList.Pairwise (· < ·)
  branches : a.branches.toList.Pairwise (· < ·)
  childless : ∀ i c, a.cell? i = some c → c.flags.isLeaf = true → c.children = []

/-- The cells of an arena are the nodes of an expression: they come in the post-order of the nodes,
and the address of a cell is that of its parent and one more step. -/
structure Enumerates (a : Arena K) (n : Node) : Prop extends a.Linked where
  all : ∀ path, path ∈ n.postorder ↔ ∃ sub, n.ungroup.descend path = some sub
  once : n.postorder.Nodup
  nodes : Forall₂ (fun path c => ∃ sub, n.ungroup.descend path = some sub ∧
    a.descend a.root path = some c.id ∧ c.expression = sub.canonical) n.postorder a.cells.toList
  rootAddress : ∀ i c, a.cell? i = some c → c.parent = none →
    c.address = Address.empty.extended (.root c.expression)
  address : ∀ i c p u, a.cell? i = some c → c.parent = some p → a.cell? p = some u →
    ∃ k, u.children[k]? = some i ∧
      c.address = u.address.extended (.child c.expression k u.expression)

end Arena

namespace BlockTree

variable {t : BlockTree K} {i : Nat} {c : Cell K}

theorem cell?_arena (t : BlockTree K) (i : Nat) :
    t.arena.cell? i = (t.entry? i).map t.cell := by
  rw [Arena.cell?, arena, List.getElem?_toArray, List.getElem?_map]
  rfl

theorem size_cells (t : BlockTree K) : t.arena.cells.size = t.entries.length := by
  rw [arena, List.size_toArray, List.length_map]

theorem exists_entry (h : t.arena.cell? i = some c) :
    ∃ e, t.entry? i = some e ∧ t.cell e = c := by
  rw [cell?_arena] at h
  exact Option.map_eq_some_iff.mp h

theorem exists_cell_iff (t : BlockTree K) (i : Nat) (p : Cell K → Prop) :
    (∃ c, t.arena.cell? i = some c ∧ p c) ↔ ∃ e, t.entry? i = some e ∧ p (t.cell e) := by
  constructor
  · rintro ⟨c, hc, hp⟩
    obtain ⟨e, he, rfl⟩ := exists_entry hc
    exact ⟨e, he, hp⟩
  · rintro ⟨e, he, hp⟩
    exact ⟨t.cell e, by rw [cell?_arena, he, Option.map_some], hp⟩

theorem linked_arena (t : BlockTree K) : t.arena.Linked where
  id i c hc := by
    obtain ⟨e, he, rfl⟩ := exists_entry hc
    exact id_of_lookup he
  last := t.size_cells.trans t.length_entries_eq
  mark i c hc := by
    obtain ⟨e, he, rfl⟩ := exists_entry hc
    exact Option.isNone_iff_eq_none.trans (parent_eq_none_iff he)
  root i c hc := by
    obtain ⟨e, he, rfl⟩ := exists_entry hc
    exact parent_eq_none_iff he
  upper i c p hc hp := by
    obtain ⟨e, he, rfl⟩ := exists_entry hc
    obtain ⟨hLess, hUpper⟩ := lt_of_parent he hp
    obtain ⟨u, hu⟩ := Option.isSome_iff_exists.mp hUpper
    rw [size_cells]
    exact ⟨hLess, (List.getElem?_eq_some_iff.mp hu).1⟩
  children p u i hu := by
    obtain ⟨e, he, rfl⟩ := exists_entry hu
    exact (mem_children_iff he).trans (t.exists_cell_iff i fun c => c.parent = some p).symm
  siblings p u hu := by
    obtain ⟨e, he, rfl⟩ := exists_entry hu
    exact children_increasing he
  leaf i := by
    rw [t.exists_cell_iff i fun c => c.flags.isLeaf = true]
    exact List.mem_toArray.trans mem_filter_ids
  branch i := by
    rw [t.exists_cell_iff i fun c => c.flags.isLeaf = false]
    refine List.mem_toArray.trans (mem_filter_ids.trans ?_)
    simp only [Bool.not_eq_true']
    rfl
  parted := by
    rw [size_cells]
    exact t.leaves_append_branches
  leaves := t.filter_ids_increasing _
  branches := t.filter_ids_increasing _
  childless i c hc hLeaf := by
    obtain ⟨e, he, rfl⟩ := exists_entry hc
    exact children_of_leaf he hLeaf

theorem descend_arena {path : List Nat} {front : List Nat} {σ τ : Spot K}
    (hσ : (Spot.ofRoot t.root).descend front = some σ) (h : σ.descend path = some τ) :
    t.arena.descend σ.entry.id path = some τ.entry.id := by
  induction path generalizing front σ with
  | nil =>
    obtain rfl := Option.some.inj h
    rfl
  | cons k path ih =>
    obtain ⟨ρ, hChild, hRest⟩ := Option.bind_eq_some_iff.mp h
    have hρ : (Spot.ofRoot t.root).descend (front ++ [k]) = some ρ := by
      rw [Spot.descend_concat, hσ]
      exact hChild
    have hId : (t.cell σ.entry).children[k]? = some ρ.entry.id := by
      have hNumber := σ.getElem?_children_entry k
      rw [hChild] at hNumber
      exact hNumber
    rw [Arena.descend, cell?_arena, lookup_spot hσ]
    dsimp only [Option.map_some, bind, Option.bind]
    rw [hId]
    exact ih hρ hRest

end BlockTree

variable [Scalar K]

namespace BlockTree

variable {t : BlockTree K}

theorem climb_entry {i : Nat} {e : Entry K} (h : t.entry? i = some e) (steps : Nat) (p : Point K) :
    t.arena.climb (steps + 1) p (some i) =
      t.arena.climb steps (p + e.block.frame.offset) e.parent := by
  rw [Arena.climb, cell?_arena, h]
  rfl

/-- A way up to the root ends, since every parent has a larger number. -/
theorem climb_arena {path : List Nat} {σ : Spot K}
    (h : (Spot.ofRoot t.root).descend path = some σ) (p : Point K) {steps : Nat}
    (hSteps : t.entries.length ≤ σ.entry.id + steps) :
    t.arena.climb steps p (some σ.entry.id) = some (σ.entry.offsets.foldl (· + ·) p) := by
  have hEntry := lookup_spot h
  have hUpper := (List.getElem?_eq_some_iff.mp hEntry).1
  obtain ⟨steps, rfl⟩ : ∃ k, steps = k + 1 := ⟨steps - 1, by omega⟩
  rw [climb_entry hEntry]
  induction path using List.reverseRecOn generalizing σ p steps with
  | nil =>
    obtain rfl := Option.some.inj h
    cases steps <;> rfl
  | append_singleton path k ih =>
    rw [Spot.descend_concat] at h
    obtain ⟨ρ, hρ, hChild⟩ := Option.bind_eq_some_iff.mp h
    have hOffsets : σ.entry.offsets = σ.block.frame.offset :: ρ.entry.offsets := by
      rw [← (Spot.child?_eq_some hChild).2.2.2]
      rfl
    have hParent := Spot.parent_of_child hChild
    have hAbove := (lt_of_parent hEntry hParent).1
    have hρEntry := lookup_spot hρ
    have hρUpper := (List.getElem?_eq_some_iff.mp hρEntry).1
    obtain ⟨steps, rfl⟩ : ∃ k, steps = k + 1 := ⟨steps - 1, by omega⟩
    rw [hParent, climb_entry hρEntry, ih hρ _ hρEntry hρUpper steps (by omega), hOffsets]
    rfl

/-- The loop over parents finds where a block begins. -/
theorem blockOrigin_arena (t : BlockTree K) (id : Nat) :
    t.arena.blockOrigin id = t.blockOrigin id := by
  rw [Arena.blockOrigin, size_cells]
  cases h : t.entry? id with
  | none =>
    obtain ⟨steps, hSteps⟩ : ∃ k, t.entries.length = k + 1 := ⟨_, t.length_entries_eq⟩
    rw [hSteps, Arena.climb, cell?_arena, blockOrigin, h]
    rfl
  | some e =>
    obtain ⟨path, σ, hσ, rfl⟩ := exists_spot h
    rw [blockOrigin, h, ← id_of_lookup h, climb_arena hσ _ (Nat.le_add_left _ _)]
    rfl

theorem hitFrom_entry {i : Nat} {e : Entry K} (h : t.entry? i = some e) (steps : Nat)
    (p : Point K) :
    let here := p - e.block.frame.offset
    t.arena.hitFrom (steps + 1) p i =
      if e.block.localBounds.contains here then
        (e.children.reverse.findSome? (t.arena.hitFrom steps here)).or
          (if e.block.takes here then some i else none)
      else none := by
  have hBounds : (t.cell e).bare.localBounds = e.block.localBounds := by
    cases e with | mk id parent children offsets block => cases block <;> rfl
  have hTakes : ∀ q, (t.cell e).bare.takes q = e.block.takes q := by
    cases e with | mk id parent children offsets block => cases block <;> exact fun q => rfl
  have hOffset : (t.cell e).offset = e.block.frame.offset := rfl
  have hChildren : (t.cell e).children = e.children := rfl
  rw [Arena.hitFrom, cell?_arena, h]
  dsimp only [Option.map_some, Option.bind_eq_bind, Option.bind_some]
  rw [hBounds, hOffset, hChildren, hTakes]

mutual

/-- A search below a block ends, since it goes down to its own blocks alone. -/
theorem hitFrom_arena {start steps : Nat} {parent : Option Nat} {above : List (Offset K)}
    (p : Point K) : (b : Block K) →
    (∀ e ∈ b.entries start parent above, t.entry? e.id = some e) → b.count ≤ steps →
    t.arena.hitFrom steps p (start + b.count - 1) = b.hit start p
  | .leaf f s, h, hSteps => by
    have hEntry : t.entry? start = _ := h _ List.mem_cons_self
    obtain ⟨steps, rfl⟩ : ∃ k, steps = k + 1 := ⟨steps - 1, by rw [Block.count] at hSteps; omega⟩
    rw [Block.count, Nat.add_sub_cancel, hitFrom_entry hEntry]
    exact ite_self _
  | .branch f s cs, h, hSteps => by
    rw [Block.entries] at h
    have hEntry : t.entry? (start + Block.countAll cs) = _ :=
      h _ (List.mem_append_right _ List.mem_cons_self)
    rw [Block.count] at hSteps
    obtain ⟨steps, rfl⟩ : ∃ k, steps = k + 1 := ⟨steps - 1, by omega⟩
    have hBelow : (Block.siblingIds start cs).reverse.findSome?
        (t.arena.hitFrom steps (p - f.offset)) = Block.hitAll start (p - f.offset) cs :=
      findSome?_hitFrom_arena _ cs (fun e he => h e (List.mem_append_left _ he)) (by omega)
    rw [Block.count, ← Nat.add_assoc, Nat.add_sub_cancel, hitFrom_entry hEntry, Block.hit_eq]
    dsimp only [Block.frame]
    rw [hBelow]
    rfl

theorem findSome?_hitFrom_arena {start steps parent : Nat} {above : List (Offset K)}
    (p : Point K) : (bs : List (Block K)) →
    (∀ e ∈ Block.entriesAll start parent above bs, t.entry? e.id = some e) →
    Block.countAll bs ≤ steps →
    (Block.siblingIds start bs).reverse.findSome? (t.arena.hitFrom steps p) =
      Block.hitAll start p bs
  | [], _, _ => rfl
  | b :: bs, h, hSteps => by
    rw [Block.entriesAll] at h
    rw [Block.countAll] at hSteps
    have hFirst : t.arena.hitFrom steps p (start + b.count - 1) = b.hit start p :=
      hitFrom_arena p b (fun e he => h e (List.mem_append_left _ he)) (by omega)
    have hRest : (Block.siblingIds (start + b.count) bs).reverse.findSome?
        (t.arena.hitFrom steps p) = Block.hitAll (start + b.count) p bs :=
      findSome?_hitFrom_arena p bs (fun e he => h e (List.mem_append_right _ he)) (by omega)
    rw [Block.siblingIds, List.reverse_cons, List.findSome?_append, hRest, Block.hitAll_cons,
      List.findSome?_singleton, hFirst]

end

/-- The search down the children finds what takes the point. -/
theorem hit_arena (t : BlockTree K) (p : Point K) : t.arena.hit p = t.hit p := by
  have hAll : ∀ e ∈ t.root.entries 0 none [], t.entry? e.id = some e := fun e he => lookup_of_mem he
  have hSize : t.root.count ≤ t.arena.cells.size := by
    rw [size_cells]
    exact (t.root.length_entries 0 none []).ge
  have hRoot := hitFrom_arena (p - t.origin.toOffset) t.root hAll hSize
  rw [Nat.zero_add] at hRoot
  exact hRoot

end BlockTree

namespace Node

variable {style : Style K} {n : Node} {b : Block K}

theorem nodes_of_layOut (h : n.layOut style none .empty = .ok b) :
    let a := (BlockTree.ofRoot b).arena
    Forall₂ (fun path c => ∃ sub, n.ungroup.descend path = some sub ∧
      a.descend a.root path = some c.id ∧ c.expression = sub.canonical)
      n.postorder a.cells.toList := by
  have hAt : Forall₂ (Spot.ofRoot b).At n.postorder (BlockTree.ofRoot b).entries :=
    at_of_layOut (Spot.ofRoot b) h b.withOffset_self.symm
  have hCells : (BlockTree.ofRoot b).arena.cells.toList =
      (BlockTree.ofRoot b).entries.map (BlockTree.ofRoot b).cell := rfl
  dsimp only
  rw [hCells, List.forall₂_map_right_iff]
  refine hAt.imp ?_
  rintro path e ⟨τ, hτ, rfl⟩
  obtain ⟨sub, hSub, hText⟩ :=
    (shows_of_layOut style path n none .empty h (Spot.block_of_descend hτ)).text
  have hRoot : (Spot.ofRoot b).descend [] = some (Spot.ofRoot b) := rfl
  have hLast : (Spot.ofRoot b).entry.id = (BlockTree.ofRoot b).rootId :=
    (BlockTree.ofRoot b).id_root_entry
  have hWay := BlockTree.descend_arena (t := .ofRoot b) hRoot hτ
  rw [hLast] at hWay
  exact ⟨sub, hSub, hWay, hText.symm⟩

theorem address_of_child (h : n.layOut style none .empty = .ok b) {path : List Nat} {k : Nat}
    {σ τ : Spot K} (hσ : (Spot.ofRoot b).descend path = some σ) (hChild : σ.child? k = some τ) :
    τ.block.frame.address = σ.block.frame.address.extended
      (.child τ.block.frame.expression k σ.block.frame.expression) := by
  have hτ : σ.descend [k] = some τ := (σ.descend_singleton k).trans hChild
  obtain ⟨sub, hSub, hText, hSteps⟩ := address_below h hσ hτ
  obtain ⟨m, hm, hLabel⟩ : ∃ m, sub.operands[k]? = some m ∧
      m.canonical = τ.block.frame.expression := by
    have hInner : (Spot.ofRoot b).descend (path ++ [k]) = some τ := by
      rw [Spot.descend_append, hσ]
      exact hτ
    obtain ⟨m, hm, hLabel⟩ :=
      (shows_of_layOut style _ n none .empty h (Spot.block_of_descend hInner)).text
    rw [descend_concat, hSub] at hm
    exact ⟨m, hm, hLabel⟩
  rw [steps_cons hm, List.tail_cons, steps, hText, hLabel] at hSteps
  exact congrArg Address.mk hSteps

end Node

/-- The arena of a node holds the tree of its inner nodes, in post-order. -/
theorem Style.fill_enumerates {style : Style K} {n : Node} {a : Arena K}
    (h : style.fill n = .ok a) : a.Enumerates n := by
  obtain ⟨tree, hTree, rfl⟩ := layOut_of_fill h
  obtain ⟨root, hRoot, rfl⟩ := layOut_inv hTree
  constructor
  · exact BlockTree.linked_arena _
  · exact fun path => Node.mem_postorder
  · exact n.nodup_postorder
  · exact Node.nodes_of_layOut hRoot
  · intro i c hc hNone
    obtain ⟨e, he, rfl⟩ := BlockTree.exists_entry hc
    rcases BlockTree.exists_upper he with rfl | ⟨path, k, σ, τ, -, hChild, rfl⟩
    · obtain ⟨⟨sub, hSub, hText⟩, hSteps⟩ := Node.shows_of_layOut style [] n none .empty hRoot rfl
      obtain rfl := Option.some.inj hSub
      have hRootStep := congrArg Address.mk hSteps
      rw [Node.steps, hText] at hRootStep
      exact hRootStep
    · cases (Spot.parent_of_child hChild).symm.trans hNone
  · intro i c p u hc hp hu
    obtain ⟨e, he, rfl⟩ := BlockTree.exists_entry hc
    obtain ⟨upper, hUpper, rfl⟩ := BlockTree.exists_entry hu
    obtain ⟨path, k, σ, τ, hσ, hChild, rfl, hAbove⟩ := BlockTree.exists_child he hp
    obtain rfl := Option.some.inj (hUpper.symm.trans hAbove)
    refine ⟨k, ?_, Node.address_of_child hRoot hσ hChild⟩
    have hNumber := σ.getElem?_children_entry k
    rw [hChild, Option.map_some, BlockTree.id_of_lookup he] at hNumber
    exact hNumber

theorem Style.fill_enumerates_disjunction :
    let n : Node := .group (.operator .or
      [.operator .not [.group (.symbol "a")], .operator .gt [.symbol "x", .symbol "x"]])
    ∃ a : Arena Float,
      (⟨Settings.standardMetrics, .fixedAdvance 1⟩ : Style Float).fill n = .ok a ∧
        a.cells.toList.map (·.children) = [[], [0], [], [], [2, 3], [1, 4]] ∧
        n.postorder = [[0, 0], [0], [1, 0], [1, 1], [1], []] ∧ a.Enumerates n := by
  intro n
  have hFill : ∃ a : Arena Float,
      (⟨Settings.standardMetrics, .fixedAdvance 1⟩ : Style Float).fill n = .ok a ∧
        a.cells.toList.map (·.children) = [[], [0], [], [], [2, 3], [1, 4]] :=
    ⟨_, rfl, rfl⟩
  obtain ⟨a, ha, hChildren⟩ := hFill
  exact ⟨a, ha, hChildren, rfl, Style.fill_enumerates ha⟩

end Blockwork
