import Blockwork.Block.Arena
import Blockwork.Proofs.Block.Form
import Blockwork.Proofs.Block.Spot

/-! # Filling an arena lists a tree

The cells that are pushed for a node are the entries of the block that it is laid out to. Children
are pushed before their parent, as roots of their own, and are adopted when all of them are there.
What was in the arena before stays as it was.
-/

set_option autoImplicit false

namespace Blockwork

variable {K : Type}

def Cell.ids (isLeaf : Bool) (cs : List (Cell K)) : List Nat :=
  (cs.filter (·.flags.isLeaf == isLeaf)).map (·.id)

theorem Cell.ids_append (isLeaf : Bool) (cs ds : List (Cell K)) :
    ids isLeaf (cs ++ ds) = ids isLeaf cs ++ ids isLeaf ds := by
  rw [ids, List.filter_append, List.map_append]
  rfl

theorem Cell.ids_singleton (isLeaf : Bool) (c : Cell K) :
    ids isLeaf [c] = if c.flags.isLeaf == isLeaf then [c.id] else [] := by
  rw [ids, List.filter_singleton]
  cases c.flags.isLeaf == isLeaf <;> rfl

namespace Block

mutual

/-- A cell does not tell where its parent begins. -/
theorem map_cell_entries (start : Nat) (parent : Option Nat) (above other : List (Offset K)) :
    (b : Block K) → (b.entries start parent above).map (·.cell false false) =
      (b.entries start parent other).map (·.cell false false)
  | .leaf f s => rfl
  | .branch f s cs => by
    rw [entries, entries, List.map_append, List.map_append, map_cell_entriesAll _ _ _ _ cs]
    rfl

theorem map_cell_entriesAll (start parent : Nat) (above other : List (Offset K)) :
    (bs : List (Block K)) → (entriesAll start parent above bs).map (·.cell false false) =
      (entriesAll start parent other bs).map (·.cell false false)
  | [] => rfl
  | b :: bs => by
    rw [entriesAll, entriesAll, List.map_append, List.map_append,
      map_cell_entries _ _ above other b, map_cell_entriesAll _ _ above other bs]

end

def cells (start : Nat) (parent : Option Nat) (b : Block K) : List (Cell K) :=
  (b.entries start parent []).map (·.cell false false)

def adopted (start parent : Nat) (bs : List (Block K)) : List (Cell K) :=
  (entriesAll start parent [] bs).map (·.cell false false)

/-- The cells of siblings before they have a parent. -/
def orphans (start : Nat) : List (Block K) → List (Cell K)
  | [] => []
  | b :: bs => b.cells start none ++ orphans (start + b.count) bs

def top (start : Nat) (parent : Option Nat) (b : Block K) : Cell K :=
  (Spot.entry ⟨start, parent, [], b⟩).cell false false

theorem adopted_cons (start parent : Nat) (b : Block K) (bs : List (Block K)) :
    adopted start parent (b :: bs) =
      b.cells start (some parent) ++ adopted (start + b.count) parent bs := by
  rw [adopted, entriesAll, List.map_append]
  rfl

theorem cells_eq (start : Nat) (parent : Option Nat) (b : Block K) :
    b.cells start parent =
      adopted start (start + countAll b.children) b.children ++ [b.top start parent] := by
  have hRun := Spot.run_eq (⟨start, parent, [], b⟩ : Spot K)
  rw [Spot.run] at hRun
  rw [cells, hRun, List.map_append, map_cell_entriesAll _ _ _ []]
  rfl

theorem ids_cells (isLeaf : Bool) (start : Nat) (parent : Option Nat) (b : Block K) :
    Cell.ids isLeaf (b.cells start parent) =
      ((b.entries start parent []).filter (·.block.isLeaf == isLeaf)).map (·.id) := by
  rw [Cell.ids, cells, List.filter_map, List.map_map]
  rfl

mutual

theorem parent_of_mem_entries {start p : Nat} {above : List (Offset K)} {e : Entry K} :
    (b : Block K) → e ∈ b.entries start (some p) above → e.parent.isNone = false
  | .leaf f s, h => by
    obtain rfl := List.mem_singleton.mp h
    rfl
  | .branch f s cs, h => by
    rw [entries] at h
    rcases List.mem_append.mp h with h | h
    · exact parent_of_mem_entriesAll cs h
    · obtain rfl := List.mem_singleton.mp h
      rfl

theorem parent_of_mem_entriesAll {start p : Nat} {above : List (Offset K)} {e : Entry K} :
    (bs : List (Block K)) → e ∈ entriesAll start p above bs → e.parent.isNone = false
  | [], h => by cases h
  | b :: bs, h => by
    rw [entriesAll] at h
    rcases List.mem_append.mp h with h | h
    · exact parent_of_mem_entries b h
    · exact parent_of_mem_entriesAll bs h

end

theorem length_adopted (start parent : Nat) (bs : List (Block K)) :
    (adopted start parent bs).length = countAll bs := by
  rw [adopted, List.length_map, length_entriesAll]

theorem length_cells (start : Nat) (parent : Option Nat) (b : Block K) :
    (b.cells start parent).length = b.count := by
  rw [cells, List.length_map, length_entries]

theorem length_orphans (start : Nat) (bs : List (Block K)) :
    (orphans start bs).length = countAll bs := by
  induction bs generalizing start with
  | nil => rfl
  | cons b bs ih => rw [orphans, List.length_append, length_cells, ih, countAll]

theorem cells_withOffset (start parent : Nat) (b : Block K) (offset : Offset K) :
    (b.withOffset offset).cells start (some parent) =
      adopted start (start + countAll b.children) b.children ++
        [{ b.top start none with parent := some parent, offset }] := by
  rw [cells_eq, children_withOffset]
  cases b <;> rfl

theorem countAll_withOffset {bs : List (Block K)} {offsets : List (Offset K)}
    (h : offsets.length = bs.length) :
    countAll (List.zipWith withOffset bs offsets) = countAll bs := by
  induction bs generalizing offsets with
  | nil => rw [List.zipWith_nil_left]
  | cons b bs ih =>
    obtain ⟨offset, offsets, rfl⟩ := List.exists_cons_of_length_eq_add_one h
    rw [List.zipWith_cons_cons, countAll, countAll, count_withOffset, ih (Nat.succ.inj h)]

theorem siblingIds_withOffset (start : Nat) {bs : List (Block K)} {offsets : List (Offset K)}
    (h : offsets.length = bs.length) :
    siblingIds start (List.zipWith withOffset bs offsets) = siblingIds start bs := by
  induction bs generalizing start offsets with
  | nil => rw [List.zipWith_nil_left]
  | cons b bs ih =>
    obtain ⟨offset, offsets, rfl⟩ := List.exists_cons_of_length_eq_add_one h
    rw [List.zipWith_cons_cons, siblingIds, siblingIds, count_withOffset, ih _ (Nat.succ.inj h)]

/-- What is adopted keeps its number and its kind. -/
theorem ids_adopted (isLeaf : Bool) (start parent : Nat) {bs : List (Block K)}
    {offsets : List (Offset K)} (h : offsets.length = bs.length) :
    Cell.ids isLeaf (adopted start parent (List.zipWith withOffset bs offsets)) =
      Cell.ids isLeaf (orphans start bs) := by
  induction bs generalizing start offsets with
  | nil =>
    obtain rfl := List.length_eq_zero_iff.mp h
    rfl
  | cons b bs ih =>
    obtain ⟨offset, offsets, rfl⟩ := List.exists_cons_of_length_eq_add_one h
    rw [List.zipWith_cons_cons, adopted_cons, orphans, Cell.ids_append, Cell.ids_append,
      count_withOffset, ih _ (Nat.succ.inj h), cells_withOffset, cells_eq, Cell.ids_append,
      Cell.ids_append, Cell.ids_singleton, Cell.ids_singleton]

end Block

namespace Style

variable [Scalar K] (style : Style K) (label : String) (stacked : Bool) (type : SlotType)
  (expression : String) (address : Address) (bs : List (Block K))

theorem count_branchBlock :
    (style.branchBlock label stacked type expression address bs).count = Block.countAll bs + 1 := by
  rw [Block.count_eq]
  refine congrArg (· + 1) (Block.countAll_withOffset ?_)
  rw [length_offsets_plan, List.length_map]

theorem cells_branchBlock (start : Nat) :
    let plan := style.plan label stacked (bs.map Block.occupant)
    let id := start + Block.countAll bs
    (style.branchBlock label stacked type expression address bs).cells start none =
      Block.adopted start id (List.zipWith Block.withOffset bs plan.offsets) ++
        [{ id, type, expression, address
           parent := none
           children := Block.siblingIds start bs
           offset := .zero
           size := plan.size
           shape := .branch plan.shape
           flags := ⟨false, false, false⟩
           highlight := .none }] := by
  intro plan id
  have hOffsets : plan.offsets.length = bs.length := by
    rw [length_offsets_plan, List.length_map]
  have hChildren : (style.branchBlock label stacked type expression address bs).children =
      List.zipWith Block.withOffset bs plan.offsets := rfl
  have hId : id = start + Block.countAll (List.zipWith Block.withOffset bs plan.offsets) := by
    rw [Block.countAll_withOffset hOffsets]
  rw [Block.cells_eq, hChildren, hId, ← Block.siblingIds_withOffset start hOffsets]
  rfl

end Style

namespace Walk

/-- The walk has come to `after` with these cells pushed. -/
structure Grown (w : Walk K) (cs : List (Cell K)) (after : Walk K) : Prop where
  cells : after.cells.toList = w.cells.toList ++ cs
  leaves : after.leaves.toList = w.leaves.toList ++ Cell.ids true cs
  branches : after.branches.toList = w.branches.toList ++ Cell.ids false cs

section

variable {w v after : Walk K} {cs ds front : List (Cell K)}

theorem Grown.refl (w : Walk K) : w.Grown [] w := by
  constructor <;> simp [Cell.ids]

theorem Grown.trans (h : w.Grown cs v) (hNext : v.Grown ds after) : w.Grown (cs ++ ds) after where
  cells := by rw [hNext.cells, h.cells, List.append_assoc]
  leaves := by rw [hNext.leaves, h.leaves, Cell.ids_append, List.append_assoc]
  branches := by rw [hNext.branches, h.branches, Cell.ids_append, List.append_assoc]

theorem Grown.size (h : w.Grown cs after) : after.cells.size = w.cells.size + cs.length := by
  rw [← Array.length_toList, h.cells, List.length_append, Array.length_toList]

theorem split_top {start : Nat} {b : Block K} {rest : List (Cell K)}
    (hCells : w.cells.toList = front ++ (b.cells start none ++ rest))
    (hStart : front.length = start) :
    ∃ below, below = front ++ Block.adopted start (start + Block.countAll b.children) b.children ∧
      below.length = start + b.count - 1 ∧
      w.cells.toList = below ++ (b.top start none :: rest) := by
  refine ⟨_, rfl, ?_, ?_⟩
  · rw [List.length_append, Block.length_adopted, hStart, b.count_eq, ← Nat.add_assoc,
      Nat.add_sub_cancel]
  · rw [hCells, Block.cells_eq]
    simp only [List.append_assoc, List.singleton_append]

theorem cell_top {start : Nat} {b : Block K} {rest : List (Cell K)}
    (hCells : w.cells.toList = front ++ (b.cells start none ++ rest))
    (hStart : front.length = start) :
    w.cell (start + b.count - 1) = .ok (b.top start none) := by
  obtain ⟨below, -, hIndex, hSplit⟩ := split_top hCells hStart
  have hTop : w.cells[start + b.count - 1]? = some (b.top start none) := by
    rw [← Array.getElem?_toList, hSplit, ← hIndex, List.getElem?_append_right le_rfl, Nat.sub_self]
    rfl
  rw [cell, hTop]

theorem occupants_orphans {bs : List (Block K)}
    (hCells : w.cells.toList = front ++ Block.orphans front.length bs) :
    w.occupants (Block.siblingIds front.length bs) = .ok (bs.map Block.occupant) := by
  induction bs generalizing front with
  | nil => rfl
  | cons b bs ih =>
    rw [Block.orphans] at hCells
    have hFront : (front ++ b.cells front.length none).length = front.length + b.count := by
      rw [List.length_append, Block.length_cells]
    have hRest := @ih (front ++ b.cells front.length none) (by
      rw [hFront, hCells, List.append_assoc])
    rw [hFront] at hRest
    rw [Block.siblingIds, occupants, cell_top hCells rfl, hRest]
    cases b <;> rfl

theorem adopt_orphans (parent : Nat) {bs : List (Block K)} {offsets : List (Offset K)}
    (hLength : offsets.length = bs.length)
    (hCells : w.cells.toList = front ++ Block.orphans front.length bs) :
    ∃ after, w.adopt parent ((Block.siblingIds front.length bs).zip offsets) = .ok after ∧
      after.cells.toList =
        front ++ Block.adopted front.length parent (List.zipWith Block.withOffset bs offsets) ∧
      after.leaves = w.leaves ∧ after.branches = w.branches := by
  induction bs generalizing front w offsets with
  | nil =>
    obtain rfl := List.length_eq_zero_iff.mp hLength
    exact ⟨w, rfl, hCells, rfl, rfl⟩
  | cons b bs ih =>
    obtain ⟨offset, offsets, rfl⟩ := List.exists_cons_of_length_eq_add_one hLength
    rw [Block.orphans] at hCells
    let own : Cell K := { b.top front.length none with parent := some parent, offset }
    let v : Walk K := { w with
      cells := w.cells.setIfInBounds (front.length + b.count - 1) own }
    let moved := (b.withOffset offset).cells front.length (some parent)
    have hMoved : (front ++ moved).length = front.length + b.count := by
      rw [List.length_append, Block.length_cells, Block.count_withOffset]
    have hv : v.cells.toList =
        (front ++ moved) ++ Block.orphans (front ++ moved).length bs := by
      obtain ⟨below, hBelow, hIndex, hSplit⟩ := split_top hCells rfl
      rw [Array.toList_setIfInBounds, hSplit, ← hIndex, List.set_append_right _ _ le_rfl,
        Nat.sub_self, List.set_cons_zero, hMoved, hBelow]
      simp only [moved, Block.cells_withOffset, own, List.append_assoc, List.singleton_append]
    obtain ⟨after, hAdopt, hAfter, hLeaves, hBranches⟩ := ih (Nat.succ.inj hLength) hv
    refine ⟨after, ?_, ?_, hLeaves, hBranches⟩
    · rw [hMoved] at hAdopt
      rw [Block.siblingIds, List.zip_cons_cons, adopt, cell_top hCells rfl]
      exact hAdopt
    · rw [hAfter, List.zipWith_cons_cons, Block.adopted_cons, hMoved, Block.count_withOffset,
        List.append_assoc]

theorem Grown.occupants {bs : List (Block K)} (h : w.Grown (Block.orphans w.cells.size bs) v) :
    v.occupants (Block.siblingIds w.cells.size bs) = .ok (bs.map Block.occupant) := by
  have hFront : v.cells.toList = w.cells.toList ++ Block.orphans w.cells.toList.length bs := h.cells
  exact occupants_orphans hFront

theorem Grown.adopt_push {bs : List (Block K)} {offsets : List (Offset K)}
    (h : w.Grown (Block.orphans w.cells.size bs) v) (hLength : offsets.length = bs.length) :
    ∃ u, v.adopt v.cells.size ((Block.siblingIds w.cells.size bs).zip offsets) = .ok u ∧
      ∀ c : Cell K, c.id = v.cells.size → c.flags.isLeaf = false →
        w.Grown
          (Block.adopted w.cells.size v.cells.size (List.zipWith Block.withOffset bs offsets) ++ [c])
          { u with cells := u.cells.push c, branches := u.branches.push v.cells.size } := by
  have hFront : v.cells.toList = w.cells.toList ++ Block.orphans w.cells.toList.length bs := h.cells
  obtain ⟨u, hAdopt, hCells, hLeaves, hBranches⟩ := adopt_orphans v.cells.size hLength hFront
  refine ⟨u, hAdopt, fun c hId hLeaf => ⟨?_, ?_, ?_⟩⟩
  · rw [Array.toList_push, hCells, List.append_assoc]
    rfl
  · rw [hLeaves, h.leaves, Cell.ids_append, Block.ids_adopted _ _ _ hLength, Cell.ids_singleton,
      hLeaf]
    exact congrArg _ (List.append_nil _).symm
  · rw [Array.toList_push, hBranches, h.branches, Cell.ids_append, Block.ids_adopted _ _ _ hLength,
      List.append_assoc, Cell.ids_singleton, hLeaf, hId]
    rfl

end

/-- A walk pushes the cells of what is laid out and answers its numbers. It ends where the layout
ends, or before that for want of numbers. -/
inductive Fills {α β : Type} (cells : α → List (Cell K)) (number : α → β) (w : Walk K) :
    Except Fault α → Except Stop (β × Walk K) → Prop where
  | filled {x : α} {after : Walk K} (grown : w.Grown (cells x) after) :
      Fills cells number w (.ok x) (.ok (number x, after))
  | fault (e : Fault) : Fills cells number w (.error e) (.error (.fault e))
  | full {laid : Except Fault α}
      (crowded : ∀ x, laid = .ok x → capacity < w.cells.size + (cells x).length) :
      Fills cells number w laid (.error .full)

theorem Fills.full_map {α β γ : Type} {cells : β → List (Cell K)} {number : β → γ} {w : Walk K}
    {f : α → β} {laid : Except Fault α}
    (crowded : ∀ x, laid = .ok x → capacity < w.cells.size + (cells (f x)).length) :
    Fills cells number w (laid.map f) (.error .full) := by
  refine .full fun y hy => ?_
  cases laid with
  | error e => cases hy
  | ok x =>
    obtain rfl := Except.ok.inj hy
    exact crowded x rfl

def FillsBlock (w : Walk K) : Except Fault (Block K) → Except Stop (Nat × Walk K) → Prop :=
  Fills (Block.cells w.cells.size none) (fun b => w.cells.size + b.count - 1) w

def FillsRow (w : Walk K) :
    Except Fault (List (Block K)) → Except Stop (List Nat × Walk K) → Prop :=
  Fills (Block.orphans w.cells.size) (Block.siblingIds w.cells.size) w

theorem FillsRow.cons {w v : Walk K} {b : Block K} {laid : Except Fault (List (Block K))}
    {row : Except Stop (List Nat × Walk K)} (grown : w.Grown (b.cells w.cells.size none) v)
    (h : v.FillsRow laid row) : w.FillsRow (laid.map (b :: ·))
      (row.map fun (ids, u) => ((w.cells.size + b.count - 1) :: ids, u)) := by
  have hSize : v.cells.size = w.cells.size + b.count := by rw [grown.size, Block.length_cells]
  cases h with
  | @filled bs u grownLater =>
    rw [hSize] at grownLater ⊢
    exact .filled (grown.trans grownLater)
  | fault e => exact .fault e
  | full crowded =>
    refine .full_map fun bs hbs => ?_
    have hLater := crowded bs hbs
    rw [Block.length_orphans] at hLater ⊢
    rw [Block.countAll]
    omega

variable [Scalar K]

section

variable (style : Style K) (label : String) (type : SlotType) (expression : String)
  (address : Address) (w : Walk K)

theorem fills_pushLeaf : w.FillsBlock (.ok (style.leafBlock label type expression address))
    (w.pushLeaf style label type expression address) := by
  by_cases hRoom : w.cells.size < capacity
  · rw [pushLeaf, nextId, if_pos hRoom]
    refine .filled ⟨?_, ?_, ?_⟩
    · exact Array.toList_push
    · exact Array.toList_push
    · exact (List.append_nil _).symm
  · rw [pushLeaf, nextId, if_neg hRoom]
    refine .full fun b hb => ?_
    obtain rfl := Except.ok.inj hb
    exact Nat.lt_succ_of_le (Nat.le_of_not_lt hRoom)

theorem fills_pushBranch (stacked : Bool) {v : Walk K} {bs : List (Block K)}
    (h : w.Grown (Block.orphans w.cells.size bs) v) :
    w.FillsBlock (.ok (style.branchBlock label stacked type expression address bs))
      (v.pushBranch style label stacked type expression address
        (Block.siblingIds w.cells.size bs)) := by
  let plan := style.plan label stacked (bs.map Block.occupant)
  let outer := style.branchBlock label stacked type expression address bs
  have hOffsets : plan.offsets.length = bs.length := by
    rw [style.length_offsets_plan, List.length_map]
  have hSize : v.cells.size = w.cells.size + Block.countAll bs := by
    rw [h.size, Block.length_orphans]
  have hNumber : w.cells.size + outer.count - 1 = v.cells.size := by
    rw [style.count_branchBlock, hSize, ← Nat.add_assoc, Nat.add_sub_cancel]
  have hOuter := style.cells_branchBlock label stacked type expression address bs w.cells.size
  rw [← hSize] at hOuter
  obtain ⟨u, hAdopt, hGrown⟩ := h.adopt_push hOffsets
  rw [pushBranch, h.occupants]
  by_cases hRoom : v.cells.size < capacity
  · rw [nextId, if_pos hRoom]
    dsimp only [bind, Except.bind]
    rw [hAdopt, ← hNumber]
    refine .filled (x := outer) ?_
    rw [hOuter, hNumber]
    exact hGrown _ rfl rfl
  · rw [nextId, if_neg hRoom]
    refine .full fun b hb => ?_
    obtain rfl := Except.ok.inj hb
    rw [Block.length_cells, style.count_branchBlock]
    omega

theorem FillsRow.branch (stacked : Bool) {laid : Except Fault (List (Block K))}
    {row : Except Stop (List Nat × Walk K)} (h : w.FillsRow laid row) :
    w.FillsBlock (laid.map (style.branchBlock label stacked type expression address))
      (row.bind fun (children, v) =>
        v.pushBranch style label stacked type expression address children) := by
  cases h with
  | filled grown => exact fills_pushBranch style label type expression address w stacked grown
  | fault e => exact .fault e
  | full crowded =>
    refine .full_map fun bs hbs => ?_
    have hBelow := crowded bs hbs
    rw [Block.length_orphans] at hBelow
    rw [Block.length_cells, style.count_branchBlock]
    omega

end

end Walk

variable [Scalar K]

namespace Node

variable (style : Style K)

mutual

theorem fills_fill (above : Option Parent) (trail : Address) (w : Walk K) :
    (n : Node) → w.FillsBlock (n.layOut style above trail) (n.fill style above trail w)
  | .group inner => fills_fill above trail w inner
  | .symbol name => by
    rw [layOut, fill]
    cases operandType (above.map Parent.node) with
    | error e => exact .fault e
    | ok type => exact Walk.fills_pushLeaf style _ type _ _ w
  | .literal v => by
    rw [layOut, fill]
    cases v.slotType with
    | error e => exact .fault e
    | ok type => exact Walk.fills_pushLeaf style _ type _ _ w
  | .operator op ns => by
    rw [layOut, fill]
    cases (operator op ns).resultType with
    | error e => exact .fault e
    | ok type =>
      cases op.stacking ns.length with
      | error e => exact .fault e
      | ok stacked =>
        let text := (operator op ns).canonical
        let address := trail.extended (Parent.step text above)
        have hRow := fills_fillAll (operator op ns) text address 0 w ns
        dsimp only
        generalize layOutAll style (operator op ns) _ _ 0 ns = laid at hRow ⊢
        generalize fillAll style (operator op ns) _ _ 0 w ns = row at hRow ⊢
        cases laid <;> cases row <;> exact hRow.branch style op.symbol type text address w stacked
  | .call name ns => by
    rw [layOut, fill, resultType_call]
    cases isTextEquality name with
    | false => exact .fault _
    | true =>
      let text := (call name ns).canonical
      let address := trail.extended (Parent.step text above)
      have hRow := fills_fillAll (call name ns) text address 0 w ns
      dsimp only
      generalize layOutAll style (call name ns) _ _ 0 ns = laid at hRow ⊢
      generalize fillAll style (call name ns) _ _ 0 w ns = row at hRow ⊢
      cases laid <;> cases row <;> exact hRow.branch style name .boolean text address w true

theorem fills_fillAll (node : Node) (text : String) (trail : Address) (k : Nat) (w : Walk K) :
    (ns : List Node) →
      w.FillsRow (layOutAll style node text trail k ns) (fillAll style node text trail k w ns)
  | [] => .filled (.refl w)
  | n :: ns => by
    have hFirst := fills_fill (some ⟨node, text, k⟩) trail w n
    rw [layOutAll, fillAll]
    generalize n.layOut style _ trail = laid at hFirst ⊢
    generalize n.fill style _ trail w = first at hFirst ⊢
    cases hFirst with
    | @filled b v grown =>
      have hRow := (fills_fillAll node text trail (k + 1) v ns).cons grown
      dsimp only
      generalize layOutAll style node text trail (k + 1) ns = laidAll at hRow ⊢
      cases laidAll <;> exact hRow
    | fault e => exact .fault e
    | full crowded =>
      refine .full fun bs hbs => ?_
      cases laid with
      | error e => cases hbs
      | ok b =>
        generalize layOutAll style node text trail (k + 1) ns = laidAll at hbs
        cases laidAll with
        | error e => cases hbs
        | ok later =>
          obtain rfl := Except.ok.inj hbs
          have hFirst := crowded b rfl
          rw [Block.length_cells] at hFirst
          rw [Block.length_orphans, Block.countAll]
          omega

end

end Node

theorem BlockTree.map_cell_ofRoot (b : Block K) :
    (ofRoot b).entries.map (ofRoot b).cell =
      Block.adopted 0 (0 + Block.countAll b.children) b.children ++
        [{ b.top 0 none with flags := { (b.top 0 none).flags with isRoot := true } }] := by
  have hBelow : ∀ e ∈ Block.entriesAll 0 (0 + Block.countAll b.children)
      (Spot.ofRoot b).entry.offsets b.children, (ofRoot b).cell e = e.cell false false := by
    intro e he
    rw [cell, Block.parent_of_mem_entriesAll _ he]
    rfl
  have hRun : (ofRoot b).entries = _ := Spot.run_eq (Spot.ofRoot b)
  rw [hRun, List.map_append, Block.adopted, Block.map_cell_entriesAll _ _ [] _]
  exact congrArg (· ++ _) (List.map_congr_left hBelow)

theorem Walk.Grown.arena {b : Block K} {w : Walk K}
    (h : (empty : Walk K).Grown (b.cells 0 none) w) :
    ∃ c, w.cell (b.count - 1) = .ok c ∧
      (⟨w.cells.setIfInBounds (b.count - 1) { c with flags := { c.flags with isRoot := true } },
        b.count - 1, .origin, w.leaves, w.branches⟩ : Arena K) = (BlockTree.ofRoot b).arena := by
  have hCells : w.cells.toList = [] ++ (b.cells 0 none ++ []) := by
    rw [List.append_nil]
    exact h.cells
  obtain ⟨below, hBelow, hIndex, hSplit⟩ := split_top hCells rfl
  have hTop := cell_top hCells rfl
  rw [Nat.zero_add] at hIndex hTop
  refine ⟨_, hTop, ?_⟩
  have hMarked : w.cells.setIfInBounds (b.count - 1)
      { b.top 0 none with flags := { (b.top 0 none).flags with isRoot := true } } =
        ((BlockTree.ofRoot b).entries.map (BlockTree.ofRoot b).cell).toArray := by
    apply Array.toList_inj.mp
    rw [Array.toList_setIfInBounds, hSplit, ← hIndex, List.set_append_right _ _ le_rfl,
      Nat.sub_self, List.set_cons_zero, BlockTree.map_cell_ofRoot, hBelow]
    rfl
  have hLeaves : w.leaves = (BlockTree.ofRoot b).leaves.toArray := by
    apply Array.toList_inj.mp
    rw [h.leaves, Block.ids_cells]
    simp [empty, BlockTree.leaves, BlockTree.entries, BlockTree.ofRoot]
  have hBranches : w.branches = (BlockTree.ofRoot b).branches.toArray := by
    apply Array.toList_inj.mp
    rw [h.branches, Block.ids_cells]
    simp [empty, BlockTree.branches, BlockTree.entries, BlockTree.ofRoot]
  rw [hMarked, hLeaves, hBranches]
  rfl

/-- Filling an arena with a node gives the list of its tree or the fault of its layout, unless there
are more blocks than numbers. -/
theorem Style.fill_cases (style : Style K) (n : Node) :
    (∃ tree, style.layOut n = .ok tree ∧ style.fill n = .ok tree.arena) ∨
    (∃ e, style.layOut n = .error e ∧ style.fill n = .error (.fault e)) ∨
    (style.fill n = .error .full ∧
      ∀ tree, style.layOut n = .ok tree → Walk.capacity < tree.count) := by
  have hFills : Walk.Fills (Block.cells 0 none) (fun b => 0 + b.count - 1) .empty
      (n.layOut style none .empty) (n.fill style none .empty .empty) :=
    n.fills_fill style none .empty .empty
  rw [layOut, fill]
  generalize n.layOut style none .empty = laid at hFills ⊢
  generalize n.fill style none .empty .empty = filled at hFills ⊢
  cases hFills with
  | @filled b w grown =>
    obtain ⟨c, hRoot, hArena⟩ := grown.arena
    refine .inl ⟨.ofRoot b, rfl, ?_⟩
    rw [Nat.zero_add]
    dsimp only [bind, Except.bind]
    rw [hRoot, ← hArena]
    rfl
  | fault e => exact .inr (.inl ⟨e, rfl, rfl⟩)
  | full crowded =>
    refine .inr (.inr ⟨rfl, fun tree hTree => ?_⟩)
    cases laid with
    | error e => cases hTree
    | ok b =>
      obtain rfl := Except.ok.inj hTree
      have hCount : Walk.capacity < 0 + (b.cells 0 none).length := crowded b rfl
      rw [Block.length_cells, Nat.zero_add] at hCount
      exact hCount

theorem Style.layOut_of_fill {style : Style K} {n : Node} {a : Arena K} (h : style.fill n = .ok a) :
    ∃ tree, style.layOut n = .ok tree ∧ tree.arena = a := by
  rcases style.fill_cases n with ⟨tree, hTree, hFill⟩ | ⟨e, -, hFill⟩ | ⟨hFill, -⟩
  · exact ⟨tree, hTree, Except.ok.inj (hFill.symm.trans h)⟩
  · cases hFill.symm.trans h
  · cases hFill.symm.trans h

end Blockwork
