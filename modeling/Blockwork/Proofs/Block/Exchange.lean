import Blockwork.Proofs.Block.Grafting
import Blockwork.Proofs.Expression.Replacement

/-! # Exchanging a block by its text

Substitution at a block's address and layout commute. The tree of the new text is the old tree with
the block exchanged: ancestors keep their heads, everything beside them keeps its looks, and the
new blocks look as they do on their own. Only a lone symbol takes its type from its new slot.
-/

set_option autoImplicit false

namespace Blockwork

open List (Forall₂)

variable {K : Type}

theorem Block.alike_around {bs cs : List (Block K)} {k : Nat} (hLength : bs.length = cs.length)
    (h : ∀ (j : Nat) (b c : Block K), j ≠ k → bs[j]? = some b → cs[j]? = some c → b.Alike c) :
    Forall₂ Alike (bs.take k) (cs.take k) ∧ Forall₂ Alike (bs.drop (k + 1)) (cs.drop (k + 1)) := by
  constructor
  · rw [List.forall₂_iff_get]
    refine ⟨by simp [hLength], fun i hi hi' => h i _ _ ?_ ?_ ?_⟩
    · rw [List.length_take] at hi
      omega
    · simp
    · simp
  · rw [List.forall₂_iff_get]
    refine ⟨by simp [hLength], fun i hi hi' => h (k + 1 + i) _ _ ?_ ?_ ?_⟩
    · omega
    · simp
    · simp

def BlockTree.slotType (t : BlockTree K) (e : Entry K) : Except Fault SlotType :=
  match e.parent.bind t.entry? with
  | none => Node.operandType none
  | some upper =>
    match Node.read upper.block.frame.expression with
    | .error cause => .error (.source cause)
    | .ok n => Node.operandType (some n)

namespace Entry

/-- The number of a block outside of an entry's run, once `count` blocks are in the run's place. -/
def renumber (e : Entry K) (count id : Nat) : Nat :=
  if id < e.id then id else id + count - e.block.count

structure Spliced (shift : Nat → Nat) (upper : Option Nat) (x y : Entry K) : Prop where
  renumbered : x.Renumbered shift upper y
  looks : x.block.Matches y.block
  offset : x.parent ≠ none → y.block.frame.offset = x.block.frame.offset

end Entry

theorem Spot.shifts_renumber (τ : Spot K) {count : Nat} (hCount : 0 < count) :
    τ.Shifts count (τ.entry.renumber count) := by
  have hId := τ.id_entry_add_one
  have hBlock : τ.entry.block = τ.block := rfl
  constructor
  · intro i hi
    have hPos := τ.block.count_pos
    rw [Entry.renumber, if_pos (by omega)]
  · intro i hi
    rw [Entry.renumber, if_neg (by omega), hBlock]
    exact Nat.sub_add_cancel (by omega)

variable [Scalar K]

namespace Style

variable (style : Style K) (label : String) (stacked : Bool) (children : List (Occupant K))

theorem label_plan : (style.plan label stacked children).shape.label = label := by
  unfold plan
  split
  · split <;> rfl
  · rfl

theorem arrangement_plan :
    (style.plan label stacked children).shape.arrangement =
      if stacked = false ∧ children.length = 2 then .beside else .stacked := by
  unfold plan
  split
  · cases stacked <;> rfl
  · rename_i hOther
    rw [if_neg]
    · rfl
    · rintro ⟨-, hTwo⟩
      obtain ⟨a, b, rfl⟩ := List.length_eq_two.mp hTwo
      exact hOther a b rfl

theorem arrangement?_branchBlock (type : SlotType) (expression : String) (address : Address)
    (children : List (Block K)) :
    (style.branchBlock label stacked type expression address children).arrangement? =
      some (if stacked = false ∧ children.length = 2 then .beside else .stacked) := by
  rw [← List.length_map (f := Block.occupant), ← arrangement_plan style label]
  rfl

end Style

namespace Node

def heading? : Node → Option (String × Arrangement)
  | .operator op ns =>
    some (op.symbol, if op.isStacked ns.length = false ∧ ns.length = 2 then .beside else .stacked)
  | .call name _ => some (name, .stacked)
  | _ => none

section

variable {n m r : Node} {k : Nat} {path : List Nat}

theorem heading?_put_cons (n r : Node) (k : Nat) (path : List Nat) :
    (n.put (k :: path) r).heading? = n.heading? := by
  cases n <;> simp [put, heading?]

theorem kindName_put_cons (n r : Node) (k : Nat) (path : List Nat) :
    (n.put (k :: path) r).kindName = n.kindName := by
  cases n <;> rfl

theorem kindName_regroup (n : Node) : n.regroup.bare.kindName = n.ungroup.kindName := by
  fun_induction bare n with
  | case1 inner ih => exact ih
  | case2 n hBare =>
    cases n with
    | group inner => exact (hBare inner rfl).elim
    | _ => rfl

theorem exists_heading (h : n.operands[k]? = some m) :
    ∃ label arrangement, n.heading? = some (label, arrangement) := by
  cases n with
  | operator op ns => exact ⟨_, _, rfl⟩
  | call name ns => exact ⟨_, _, rfl⟩
  | _ => cases h

theorem ne_symbol_of_heading {heading : String × Arrangement} (h : n.heading? = some heading)
    (name : String) : n ≠ .symbol name := by
  rintro rfl
  cases h

theorem Readable.bare_operand (h : n.Readable) (hm : m ∈ n.bare.operands) : m.Readable := by
  induction h with
  | symbol | literal => cases hm
  | unary _ h =>
    obtain rfl := List.mem_singleton.mp hm
    exact h
  | binary _ hl hr =>
    rcases List.mem_cons.mp hm with rfl | hm
    · exact hl
    · obtain rfl := List.mem_singleton.mp hm
      exact hr
  | call _ h => exact h m hm
  | group _ ih => exact ih hm

theorem operand_of_put {x y : Node} (hPut : m.ungroup = n.ungroup.put (k :: path) r) {j : Nat}
    (hx : n.bare.operands[j]? = some x) (hy : m.bare.operands[j]? = some y) :
    y.ungroup = if k = j then x.ungroup.put path r else x.ungroup := by
  have hOperand := operand_ungroup hy
  rw [hPut, operands_put_cons, List.getElem?_modify, operand_ungroup hx] at hOperand
  split
  · simpa [*] using hOperand.symm
  · simpa [*] using hOperand.symm

end

variable {style : Style K}

theorem heading_of_layOut {label : String} {arrangement : Arrangement} : (n : Node) →
    {above : Option Parent} → {trail : Address} → {b : Block K} →
    n.layOut style above trail = .ok b → n.ungroup.heading? = some (label, arrangement) →
    b.isLeaf = false ∧ b.label = label ∧ b.arrangement? = some arrangement
  | .group inner, above, trail, b, h, hHeading => by
    rw [layOut] at h
    exact heading_of_layOut inner h hHeading
  | .operator op ns, above, trail, b, h, hHeading => by
    obtain ⟨type, children, -, hChildren, rfl⟩ := layOut_operator_inv h
    obtain ⟨rfl, rfl⟩ := Prod.mk.inj (Option.some.inj hHeading)
    refine ⟨rfl, Style.label_plan .., ?_⟩
    rw [Style.arrangement?_branchBlock, length_of_layOutAll hChildren, ungroupAll_eq_map,
      List.length_map]
  | .call name ns, above, trail, b, h, hHeading => by
    obtain ⟨type, children, -, hChildren, rfl⟩ := layOut_call_inv h
    obtain ⟨rfl, rfl⟩ := Prod.mk.inj (Option.some.inj hHeading)
    refine ⟨rfl, Style.label_plan .., ?_⟩
    rw [Style.arrangement?_branchBlock]
    rfl

section

variable {n m r : Node} {k : Nat} {path : List Nat} {above higher : Option Parent}
  {trail other : Address} {b c : Block K}

/-- A node above an exchanged one keeps the head of its block. -/
theorem resembles_of_layOut {operand : Node} (hb : n.layOut style above trail = .ok b)
    (hc : m.layOut style higher other = .ok c) (hn : n.Readable) (hm : m.Readable)
    (hPut : m.ungroup = n.ungroup.put (k :: path) r)
    (hOperand : n.ungroup.operands[k]? = some operand) (offset place : Offset K) :
    (b.withOffset offset).Resembles (c.withOffset place) := by
  obtain ⟨label, arrangement, hHeading⟩ := exists_heading hOperand
  have hHeading' : m.ungroup.heading? = some (label, arrangement) := by
    rw [hPut, heading?_put_cons, hHeading]
  obtain ⟨hLeaf, hLabel, hArrangement⟩ := heading_of_layOut n hb hHeading
  obtain ⟨hLeaf', hLabel', hArrangement'⟩ := heading_of_layOut m hc hHeading'
  have hType := typeIn_of_layOut_of_ne_symbol .number n hb (ne_symbol_of_heading hHeading)
  have hType' := typeIn_of_layOut_of_ne_symbol .number m hc (ne_symbol_of_heading hHeading')
  rw [← typeIn_ungroup, hPut, typeIn_put_cons, typeIn_ungroup, hType] at hType'
  apply Block.Resembles.withOffset
  constructor
  · rw [hLeaf, hLeaf']
  · rw [hLabel, hLabel']
  · rw [hArrangement, hArrangement']
  · exact fun _ => (Except.ok.inj hType').symm
  · refine ⟨n.regroup, m.regroup, ?_, ?_, ?_⟩
    · rw [canonical_of_layOut hb]
      exact read_canonical hn
    · rw [canonical_of_layOut hc]
      exact read_canonical hm
    · rw [kindName_regroup, kindName_regroup, hPut, kindName_put_cons]

theorem length_children_of_put (hb : n.layOut style above trail = .ok b)
    (hc : m.layOut style higher other = .ok c)
    (hPut : m.ungroup = n.ungroup.put (k :: path) r) :
    b.children.length = c.children.length := by
  have hOperands := operands_ungroup m
  rw [hPut, operands_put_cons, operands_ungroup] at hOperands
  rw [length_children_of_layOut n hb, length_children_of_layOut m hc]
  simpa using congrArg List.length hOperands

theorem alike_of_layOut (hb : n.layOut style above trail = .ok b)
    (hc : m.layOut style higher other = .ok c)
    (hPut : m.ungroup = n.ungroup.put (k :: path) r) {j : Nat} {d e : Block K} (hj : j ≠ k)
    (hd : b.children[j]? = some d) (he : c.children[j]? = some e) : d.Alike e := by
  obtain ⟨x, text, below, inner, place, hx, hInner, rfl⟩ := child_of_layOut n hb hd
  obtain ⟨y, text', below', inner', place', hy, hInner', rfl⟩ := child_of_layOut m hc he
  have hSlot : operandType (some n.bare) = operandType (some m.bare) := by
    rw [operandType_bare, operandType_bare, ← operandType_ungroup n, ← operandType_ungroup m,
      hPut, operandType_put_cons]
  have hSame := operand_of_put hPut hx hy
  rw [if_neg hj.symm] at hSame
  have hForm := anonymous_of_layOut hInner hInner' hSame (.inl hSlot)
  exact (Block.alike_of_anonymous_eq hForm).withOffset place place'

/-- Exchanging a node exchanges its block. -/
theorem grafted_of_layOut {sub : Node} (hb : n.layOut style above trail = .ok b)
    (hc : m.layOut style higher other = .ok c) (hn : n.Readable) (hm : m.Readable)
    (hPut : m.ungroup = n.ungroup.put path r) (hSub : n.ungroup.descend path = some sub)
    (offset place : Offset K) :
    Block.Grafted path (b.withOffset offset) (c.withOffset place) := by
  induction path generalizing n m above higher trail other b c offset place with
  | nil => exact .here _ _
  | cons k path ih =>
    obtain ⟨operand, hOperand, hSub⟩ := exists_operand_of_descend hSub
    have hLength := length_children_of_put hb hc hPut
    obtain ⟨hLeft, hRight⟩ := Block.alike_around hLength fun j d e => alike_of_layOut hb hc hPut
    obtain ⟨x, hx, rfl⟩ := exists_operand_of_ungroup hOperand
    have hBound : k < b.children.length := by
      rw [length_children_of_layOut n hb]
      exact (List.getElem?_eq_some_iff.mp hx).1
    have hd := List.getElem?_eq_getElem hBound
    have he := List.getElem?_eq_getElem (hLength ▸ hBound)
    obtain ⟨x', text, below, inner, shift, hx', hInner, hd'⟩ := child_of_layOut n hb hd
    obtain ⟨y, text', below', inner', shift', hy, hInner', he'⟩ := child_of_layOut m hc he
    obtain rfl := Option.some.inj (hx.symm.trans hx')
    have hSame := operand_of_put hPut hx hy
    rw [if_pos rfl] at hSame
    rw [hd'] at hd
    rw [he'] at he
    have hGrafted := ih hInner hInner' (hn.bare_operand (List.mem_of_getElem? hx))
      (hm.bare_operand (List.mem_of_getElem? hy)) hSame hSub shift shift'
    apply Block.Grafted.inside (d := inner.withOffset shift) (e := inner'.withOffset shift')
    · rw [Block.children_withOffset, hd]
    · rw [Block.children_withOffset, he]
    · exact resembles_of_layOut hb hc hn hm hPut hOperand offset place
    · simpa using hLeft
    · simpa using hRight
    · exact hGrafted

end

theorem spliced_of_layOut {n m : Node} {above : Option Parent} {trail : Address} {b c : Block K}
    (hb : n.layOut style none .empty = .ok b) (hc : m.layOut style above trail = .ok c)
    (hSame : m.ungroup = n.ungroup) {υ : Spot K} {offset : Offset K}
    (hBlock : υ.block = c.withOffset offset) :
    υ.block.count = b.count ∧
      Forall₂ (fun x y => x.Spliced (υ.first + ·) υ.parent y ∧
        ((∀ name, n.ungroup ≠ .symbol name) → y.block.frame.type = x.block.frame.type) ∧
        ((∃ name, n.ungroup = .symbol name) → y.block = υ.block))
        (Spot.ofRoot b).run υ.run := by
  by_cases hSymbol : ∃ name, n.ungroup = .symbol name
  · obtain ⟨name, hName⟩ := hSymbol
    obtain ⟨type, address, -, rfl⟩ := leafBlock_of_layOut hb hName
    obtain ⟨type', address', -, rfl⟩ := leafBlock_of_layOut hc (hSame.trans hName)
    obtain ⟨first, parent, place, block⟩ := υ
    obtain rfl := hBlock
    refine ⟨rfl, .cons ⟨⟨⟨rfl, rfl, rfl⟩, ⟨rfl, rfl, rfl, rfl⟩, absurd rfl⟩, ?_, fun _ => rfl⟩ .nil⟩
    exact fun hOther => absurd hName (hOther name)
  · have hOther : ∀ name, n.ungroup ≠ .symbol name := fun name hName => hSymbol ⟨name, hName⟩
    have hAlike : b.Alike υ.block := by
      rw [hBlock, ← b.withOffset_self]
      exact (Block.alike_of_anonymous_eq
        (anonymous_of_layOut hb hc hSame (.inr hOther))).withOffset _ _
    refine ⟨hAlike.count_eq.symm, ?_⟩
    have hShift (i : Nat) : υ.first + ((Spot.ofRoot b).first + i) = υ.first + i := by
      rw [Spot.ofRoot, Nat.zero_add]
    have hCopied : Forall₂ (Entry.Copied (υ.first + ·) υ.parent none) (Spot.ofRoot b).run υ.run :=
      Spot.copied_run hAlike (fun i _ => hShift i) rfl
    refine hCopied.imp ?_
    rintro x y ⟨hRenumbered, hLike, hOffset⟩
    exact ⟨⟨hRenumbered, hLike.toMatches, hOffset⟩, fun _ => hLike.type,
      fun hName => absurd hName hSymbol⟩

theorem reads_of_layOut {n : Node} {b : Block K} (hb : n.layOut style none .empty = .ok b)
    (hn : n.Readable) :
    ∀ x ∈ (Spot.ofRoot b).run, ∃ m, Node.read x.block.frame.expression = .ok m := by
  intro x hx
  obtain ⟨path, hPath⟩ := Block.exists_descend_of_mem_entries b 0 none [] hx
  obtain ⟨sub, hSub, hText⟩ := (shows_of_layOut style path n none .empty hb hPath).text
  rw [← hText]
  exact ⟨sub.regroup, read_canonical (hn.ungroup.descend hSub)⟩

theorem slotType_of_layOut {n m : Node} {b c y : Block K} {path : List Nat} {τ : Spot K}
    {name : String} (hb : n.layOut style none .empty = .ok b)
    (hc : m.layOut style none .empty = .ok c) (hn : n.Readable)
    (hPut : m.ungroup = n.ungroup.put path (.symbol name))
    (hτ : (Spot.ofRoot b).descend path = some τ) (hy : c.descend path = some y) :
    (BlockTree.ofRoot b).slotType τ.entry = .ok y.frame.type := by
  rcases List.eq_nil_or_concat' path with rfl | ⟨above, k, rfl⟩
  · obtain rfl := Option.some.inj hτ
    obtain rfl := Option.some.inj hy
    have hType := typeIn_of_layOut m hc rfl
    rw [← typeIn_ungroup, hPut, put_nil] at hType
    exact hType
  · rw [Spot.descend_concat] at hτ
    obtain ⟨σ, hσ, hτ⟩ := Option.bind_eq_some_iff.mp hτ
    have hParent : τ.entry.parent = some σ.entry.id := (Spot.child?_eq_some hτ).2.2.1
    have hLookup : BlockTree.entry? (.ofRoot b) σ.entry.id = some σ.entry :=
      BlockTree.lookup_of_mem (Spot.mem_run_of_descend hσ _ σ.entry_mem_run)
    obtain ⟨sub, hSub, hText⟩ :=
      (shows_of_layOut style above n none .empty hb (Spot.block_of_descend hσ)).text
    have hRead : Node.read σ.entry.block.frame.expression = .ok sub.regroup := by
      rw [Spot.entry, ← hText]
      exact read_canonical (hn.ungroup.descend hSub)
    have hUpper : m.ungroup.descend above = some (sub.put [k] (.symbol name)) := by
      rw [hPut, descend_put_append, hSub]
      rfl
    obtain ⟨operand, slot, hOperand, hSlot, hType⟩ := typeIn_of_descend hc hUpper hy
    rw [operands_put_cons, List.getElem?_modify_eq] at hOperand
    obtain ⟨old, -, hOld⟩ := Option.map_eq_some_iff.mp hOperand
    rw [put_nil] at hOld
    subst hOld
    rw [operandType_put_cons] at hSlot
    have hSlotType : slot = y.frame.type := Except.ok.inj hType
    rw [BlockTree.slotType, hParent, Option.bind_some, hLookup]
    simp only [hRead]
    rw [← operandType_ungroup, ungroup_regroup, operandType_ungroup, hSlot, hSlotType]

/-- The list of blocks of a tree in which a node was exchanged. -/
theorem exists_exchange {n m r : Node} {b c p : Block K} {path : List Nat} {τ : Spot K}
    (hb : n.layOut style none .empty = .ok b) (hc : m.layOut style none .empty = .ok c)
    (hp : r.layOut style none .empty = .ok p) (hn : n.Readable) (hm : m.Readable)
    (hPut : m.ungroup = n.ungroup.put path r.ungroup)
    (hτ : (Spot.ofRoot b).descend path = some τ) :
    let shift := τ.entry.renumber p.count
    ∃ front back front' run back', (Spot.ofRoot b).run = front ++ (τ.run ++ back) ∧
      (Spot.ofRoot c).run = front' ++ (run ++ back') ∧ τ.first = front.length ∧
      Forall₂ (Entry.Kept shift (Spot.ofRoot b).run τ.entry.id) front front' ∧
      Forall₂ (Entry.Kept shift (Spot.ofRoot b).run τ.entry.id) back back' ∧
      Forall₂ (fun x y => x.Spliced (front.length + ·) (τ.parent.map shift) y ∧
        ((∀ name, r.ungroup ≠ .symbol name) → y.block.frame.type = x.block.frame.type) ∧
        ((∃ name, r.ungroup = .symbol name) →
          (BlockTree.ofRoot b).slotType τ.entry = .ok y.block.frame.type))
        (Spot.ofRoot p).run run := by
  intro shift
  obtain ⟨sub, hSub, -⟩ :=
    (shows_of_layOut style path n none .empty hb (Spot.block_of_descend hτ)).text
  have hSub' : m.ungroup.descend path = some r.ungroup := by
    rw [hPut]
    exact descend_put hSub r.ungroup
  obtain ⟨y, hy⟩ := exists_block_of_descend c.frame.offset hc hSub'
  obtain ⟨inner, higher, below, d, place, hInner, hBlock, hNode⟩ := layOut_of_descend hc hy
  rw [Block.withOffset_self] at hy
  have hSame : inner.ungroup = r.ungroup := Option.some.inj (hNode.symm.trans hSub')
  have hGrafted := grafted_of_layOut hb hc hn hm hPut hSub b.frame.offset c.frame.offset
  rw [Block.withOffset_self, Block.withOffset_self] at hGrafted
  have hCount : y.count = p.count :=
    (spliced_of_layOut (υ := .ofRoot y) hp hInner hSame hBlock).1
  have hShifts : τ.Shifts y.count shift := by
    rw [hCount]
    exact τ.shifts_renumber p.count_pos
  obtain ⟨υ, hFirst, hParent, rfl, front, back, front', back', hRun, hRun', hLength, hFront,
    hBack⟩ := hGrafted.exists_run (σ := .ofRoot b) (ρ := .ofRoot c) rfl rfl rfl rfl hτ hy hShifts
      (reads_of_layOut hb hn)
  have hLength : τ.first = front.length := hLength.trans (Nat.zero_add _)
  refine ⟨front, back, front', υ.run, back', hRun, hRun', hLength, hFront, hBack, ?_⟩
  rw [← hLength, ← hFirst, ← hParent]
  refine (spliced_of_layOut hp hInner hSame hBlock).2.imp ?_
  rintro x z ⟨hSpliced, hType, hSymbol⟩
  refine ⟨hSpliced, hType, ?_⟩
  rintro ⟨name, hName⟩
  rw [hName] at hPut
  rw [hSymbol ⟨name, hName⟩]
  exact slotType_of_layOut hb hc hn hPut hτ hy

end Node

/-- Substitution at a block exchanges the block's run in the list of blocks by the blocks of the
replacement, and changes nothing beside the blocks above. -/
theorem Style.layOut_substitute {style : Style K} {expression replacement : String}
    {tree piece : BlockTree K} {id : Nat} {e : Entry K}
    (hTree : style.layOutText expression = .ok tree)
    (hPiece : style.layOutText replacement = .ok piece) (he : tree.entry? id = some e) :
    ∃ r text after, Node.read replacement = .ok r ∧
      e.block.frame.address.substitute expression replacement = .ok text ∧
      style.layOutText text = .ok after ∧
      ∃ front back front' run back',
        tree.entries =
          front ++ (e.block.entries front.length e.parent e.offsets.tail ++ back) ∧
        after.entries = front' ++ (run ++ back') ∧
        Forall₂ (Entry.Kept (e.renumber piece.count) tree.entries id) front front' ∧
        Forall₂ (Entry.Kept (e.renumber piece.count) tree.entries id) back back' ∧
        Forall₂ (fun x y =>
          x.Spliced (front.length + ·) (e.parent.map (e.renumber piece.count)) y ∧
          ((∀ name, r.ungroup ≠ .symbol name) → y.block.frame.type = x.block.frame.type) ∧
          ((∃ name, r.ungroup = .symbol name) →
            tree.slotType e = .ok y.block.frame.type)) piece.entries run := by
  obtain ⟨n, b, hRead, hb, rfl⟩ := layOutText_inv hTree
  obtain ⟨r, p, hReadPiece, hp, rfl⟩ := layOutText_inv hPiece
  obtain rfl := BlockTree.id_of_lookup he
  obtain ⟨path, τ, hτ, rfl⟩ := BlockTree.exists_spot he
  have hn := Node.readable_of_read hRead
  have hr := Node.readable_of_read hReadPiece
  have hShows := Node.shows_of_layOut style path n none .empty hb (Spot.block_of_descend hτ)
  have hStored := Stored.put hRead (Node.shown_of_layOut style n none .empty hb) hReadPiece
    (Node.shown_of_layOut style r none .empty hp) path
  obtain ⟨after, hAfter⟩ := hStored.exists_layOut style
  refine ⟨r, _, after, hReadPiece, hShows.substitute hRead hReadPiece, hAfter, ?_⟩
  obtain ⟨m, c, hReadAfter, hc, rfl⟩ := layOutText_inv hAfter
  have hm : m.ungroup = n.ungroup.put path r.ungroup := by
    have hRegroup := Node.read_canonical (hn.ungroup.put hr path)
    obtain rfl := Except.ok.inj (hRegroup.symm.trans hReadAfter)
    rw [Node.ungroup_regroup, Node.ungroup_put (Node.ungroup_ungroup n)]
  obtain ⟨front, back, front', run, back', hRun, hRun', hLength, hFront, hBack, hSpliced⟩ :=
    Node.exists_exchange hb hc hp hn (Node.readable_of_read hReadAfter) hm hτ
  refine ⟨front, back, front', run, back', ?_, hRun', hFront, hBack, hSpliced⟩
  rw [← hLength]
  exact hRun

theorem Style.layOut_substitute_condition :
    let style : Style Float := ⟨Settings.standardMetrics, .fixedAdvance 1⟩
    ∃ tree piece e text after y, style.layOutText "(a > b) and c" = .ok tree ∧
      style.layOutText "d" = .ok piece ∧ piece.root.frame.type = .number ∧
      tree.entry? 2 = some e ∧ e.block.frame.expression = "(a>b)" ∧
      e.block.frame.address.substitute "(a > b) and c" "d" = .ok text ∧
      style.layOutText text = .ok after ∧ y ∈ after.entries ∧
      y.block.frame.expression = "d" ∧ y.block.frame.type = .boolean := by
  intro style
  have hRead : Node.read "(a > b) and c" = .ok (.operator .and
      [.group (.operator .gt [.symbol "a", .symbol "b"]), .symbol "c"]) := by cbv
  have hReadPiece : Node.read "d" = .ok (.symbol "d") := by cbv
  have hReadUpper : Node.read "((a>b) and c)" = .ok (.group (.operator .and
      [.group (.operator .gt [.symbol "a", .symbol "b"]), .symbol "c"])) := by cbv
  have hTree : ∃ tree e upper, style.layOutText "(a > b) and c" = .ok tree ∧
      tree.entry? 2 = some e ∧ e.block.frame.expression = "(a>b)" ∧
      e.parent.bind tree.entry? = some upper ∧
      upper.block.frame.expression = "((a>b) and c)" := by
    rw [Style.layOutText, hRead]
    exact ⟨_, _, _, rfl, rfl, by decide +kernel, rfl, by decide +kernel⟩
  have hPiece : ∃ piece, style.layOutText "d" = .ok piece ∧
      ∃ x, piece.entries = [x] ∧ x.block = piece.root ∧ x.block.frame.expression = "d" ∧
        piece.root.frame.type = .number := by
    rw [Style.layOutText, hReadPiece]
    exact ⟨_, rfl, _, rfl, rfl, rfl, rfl⟩
  obtain ⟨tree, e, upper, hTree, he, hText, hUpper, hUpperText⟩ := hTree
  obtain ⟨piece, hPiece, x, hEntries, hx, hLabel, hType⟩ := hPiece
  have hSlot : tree.slotType e = .ok .boolean := by
    rw [BlockTree.slotType, hUpper]
    simp only [hUpperText, hReadUpper]
    rfl
  obtain ⟨r, text, after, hr, hSubstitute, hAfter, front, back, front', run, back', -, hRun, -, -,
    hSpliced⟩ := Style.layOut_substitute hTree hPiece he
  obtain rfl := Except.ok.inj (hReadPiece.symm.trans hr)
  rw [hEntries] at hSpliced
  obtain ⟨y, ys, ⟨hLooks, -, hSymbol⟩, -, rfl⟩ := List.forall₂_cons_left_iff.mp hSpliced
  have hy := Except.ok.inj (hSlot.symm.trans (hSymbol ⟨"d", rfl⟩))
  refine ⟨tree, piece, e, text, after, y, hTree, hPiece, hType, he, hText, hSubstitute, hAfter, ?_,
    hLooks.looks.expression.trans hLabel, hy.symm⟩
  simp [hRun]
end Blockwork
