import Blockwork.Block.Tree
import Blockwork.Proofs.Expression.Path
import Blockwork.Proofs.Expression.Readable

/-! # Blocks at operand paths

The blocks of a tree are the blocks at its paths. The block at a path shows the node at that path,
and its address is the chain of steps along the path.
-/

set_option autoImplicit false

namespace Blockwork

variable {K : Type}

namespace Block

def descend : List Nat → Block K → Option (Block K)
  | [], b => some b
  | k :: path, b => b.children[k]?.bind (descend path)

mutual

theorem exists_descend_of_mem_entries {e : Entry K} : (b : Block K) → (start : Nat) →
    (parent : Option Nat) → (above : List (Offset K)) → e ∈ b.entries start parent above →
    ∃ path, b.descend path = some e.block
  | .leaf f s, start, parent, above, h => by
    obtain rfl := List.mem_singleton.mp h
    exact ⟨[], rfl⟩
  | .branch f s cs, start, parent, above, h => by
    rw [entries] at h
    rcases List.mem_append.mp h with h | h
    · obtain ⟨k, c, path, hc, hPath⟩ := exists_descend_of_mem_entriesAll cs _ _ _ h
      exact ⟨k :: path, by rw [descend, children, hc, Option.bind_some, hPath]⟩
    · obtain rfl := List.mem_singleton.mp h
      exact ⟨[], rfl⟩

theorem exists_descend_of_mem_entriesAll {e : Entry K} : (bs : List (Block K)) →
    (start parent : Nat) → (above : List (Offset K)) → e ∈ entriesAll start parent above bs →
    ∃ (k : Nat) (b : Block K) (path : List Nat),
      bs[k]? = some b ∧ b.descend path = some e.block
  | [], _, _, _, h => by cases h
  | b :: bs, start, parent, above, h => by
    rw [entriesAll] at h
    rcases List.mem_append.mp h with h | h
    · obtain ⟨path, hPath⟩ := exists_descend_of_mem_entries b _ _ _ h
      exact ⟨0, b, path, rfl, hPath⟩
    · obtain ⟨k, c, path, hc, hPath⟩ := exists_descend_of_mem_entriesAll bs _ _ _ h
      exact ⟨k + 1, c, path, hc, hPath⟩

end

theorem exists_descend_withOffset {b shown : Block K} {offset : Offset K} {path : List Nat}
    (h : (b.withOffset offset).descend path = some shown) :
    ∃ inner, b.descend path = some inner ∧ inner.frame.expression = shown.frame.expression ∧
      inner.frame.address = shown.frame.address := by
  cases path with
  | nil =>
    obtain rfl := Option.some.inj h
    refine ⟨b, rfl, ?_, ?_⟩
    · cases b <;> rfl
    · cases b <;> rfl
  | cons k path => exact ⟨shown, by cases b <;> exact h, rfl, rfl⟩

end Block

theorem BlockTree.exists_descend {t : BlockTree K} {id : Nat} {b : Block K}
    (h : t.block? id = some b) : ∃ path, t.root.descend path = some b := by
  obtain ⟨e, he, rfl⟩ := Option.map_eq_some_iff.mp h
  exact Block.exists_descend_of_mem_entries t.root 0 none [] (List.mem_of_getElem? he)

/-- A block says and is addressed as the node at a path below `n`. -/
structure Block.Shows (b : Block K) (n : Node) (above : Option Parent) (trail : Address)
    (path : List Nat) : Prop where
  text : ∃ sub, n.ungroup.descend path = some sub ∧ sub.canonical = b.frame.expression
  address : b.frame.address.steps =
    trail.steps ++ n.ungroup.steps (above.map (·.slot)) (above.map (·.text)) path

theorem Block.Shows.path_eq {b : Block K} {n : Node} {above : Option Parent} {trail : Address}
    {path other : List Nat} (h : b.Shows n above trail path)
    (hOther : b.Shows n above trail other) : other = path := by
  obtain ⟨⟨sub, hSub, -⟩, hSteps⟩ := h
  obtain ⟨⟨otherSub, hOtherSub, -⟩, hOtherSteps⟩ := hOther
  have hChains := List.append_cancel_left (hOtherSteps.symm.trans hSteps)
  have hSlots := congrArg (List.map (·.slot)) hChains
  rw [Node.slots_steps hOtherSub, Node.slots_steps hSub] at hSlots
  exact (List.map_inj_right fun _ _ => Option.some.inj).mp (List.cons.inj hSlots).2

variable [Scalar K]

namespace Node

theorem layOut_operator_inv {style : Style K} {op : Operator} {ns : List Node}
    {above : Option Parent} {trail : Address} {b : Block K}
    (h : layOut style above trail (.operator op ns) = .ok b) :
    let text := (Node.operator op ns).canonical
    let address := trail.extended (Parent.step text above)
    ∃ type children, (Node.operator op ns).resultType = .ok type ∧
      layOutAll style (.operator op ns) text address 0 ns = .ok children ∧
      b = style.branchBlock op.symbol (op.isStacked ns.length) type text address children := by
  rw [layOut_operator] at h
  split at h
  · cases h
  · rename_i type hType
    dsimp only at h
    split at h
    · cases h
    · rename_i children hChildren
      exact ⟨type, children, hType, hChildren, (Except.ok.inj h).symm⟩

theorem layOut_call_inv {style : Style K} {name : String} {ns : List Node}
    {above : Option Parent} {trail : Address} {b : Block K}
    (h : layOut style above trail (.call name ns) = .ok b) :
    let text := (Node.call name ns).canonical
    let address := trail.extended (Parent.step text above)
    ∃ type children, (Node.call name ns).resultType = .ok type ∧
      layOutAll style (.call name ns) text address 0 ns = .ok children ∧
      b = style.branchBlock name true type text address children := by
  rw [layOut_call] at h
  split at h
  · cases h
  · rename_i type hType
    dsimp only at h
    split at h
    · cases h
    · rename_i children hChildren
      exact ⟨type, children, hType, hChildren, (Except.ok.inj h).symm⟩

mutual

theorem layOut_induction {style : Style K} {motive : Block K → Prop}
    (leaf : ∀ label type text address, motive (style.leafBlock label type text address))
    (branch : ∀ label stacked type text address children, (∀ c ∈ children, motive c) →
      motive (style.branchBlock label stacked type text address children)) :
    (n : Node) → {above : Option Parent} → {trail : Address} → {b : Block K} →
    n.layOut style above trail = .ok b → motive b
  | .group inner, above, trail, b, h => by
    rw [layOut] at h
    exact layOut_induction leaf branch inner h
  | .symbol name, above, trail, b, h => by
    rw [layOut] at h
    split at h
    · cases h
    · obtain rfl := Except.ok.inj h
      exact leaf ..
  | .literal v, above, trail, b, h => by
    rw [layOut] at h
    split at h
    · cases h
    · obtain rfl := Except.ok.inj h
      exact leaf ..
  | .operator op ns, above, trail, b, h => by
    obtain ⟨type, children, -, hChildren, rfl⟩ := layOut_operator_inv h
    exact branch _ _ _ _ _ _ (layOutAll_induction leaf branch ns hChildren)
  | .call name ns, above, trail, b, h => by
    obtain ⟨type, children, -, hChildren, rfl⟩ := layOut_call_inv h
    exact branch _ _ _ _ _ _ (layOutAll_induction leaf branch ns hChildren)

theorem layOutAll_induction {style : Style K} {motive : Block K → Prop}
    (leaf : ∀ label type text address, motive (style.leafBlock label type text address))
    (branch : ∀ label stacked type text address children, (∀ c ∈ children, motive c) →
      motive (style.branchBlock label stacked type text address children)) :
    (ns : List Node) → {node : Node} → {text : String} → {trail : Address} → {k : Nat} →
    {children : List (Block K)} → layOutAll style node text trail k ns = .ok children →
    ∀ c ∈ children, motive c
  | [], _, _, _, _, children, h => by
    rw [layOutAll] at h
    obtain rfl := Except.ok.inj h
    nofun
  | n :: ns, node, text, trail, k, children, h => by
    rw [layOutAll] at h
    split at h
    · cases h
    · rename_i first hFirst
      split at h
      · cases h
      · rename_i rest hRest
        obtain rfl := Except.ok.inj h
        exact List.forall_mem_cons.mpr
          ⟨layOut_induction leaf branch n hFirst, layOutAll_induction leaf branch ns hRest⟩

end

theorem exists_layOut_of_layOutAll {style : Style K} {node : Node} {text : String}
    {trail : Address} {first k : Nat} {ns : List Node} {children : List (Block K)} {c : Block K}
    (h : layOutAll style node text trail first ns = .ok children) (hc : children[k]? = some c) :
    ∃ m, ns[k]? = some m ∧ m.layOut style (some ⟨node, text, first + k⟩) trail = .ok c := by
  induction ns generalizing first k children with
  | nil =>
    rw [layOutAll] at h
    obtain rfl := Except.ok.inj h
    cases hc
  | cons n ns ih =>
    rw [layOutAll] at h
    split at h
    · cases h
    · rename_i head hHead
      split at h
      · cases h
      · rename_i rest hRest
        obtain rfl := Except.ok.inj h
        cases k with
        | zero =>
          obtain rfl := Option.some.inj hc
          exact ⟨n, rfl, hHead⟩
        | succ k =>
          obtain ⟨m, hm, hLayOut⟩ := ih hRest hc
          refine ⟨m, hm, ?_⟩
          rwa [Nat.add_right_comm, Nat.add_assoc] at hLayOut

theorem shows_of_children {style : Style K} {n : Node} {ns : List Node} {above : Option Parent}
    {trail : Address} {label : String} {stacked : Bool} {type : SlotType}
    {children : List (Block K)} {shown : Block K} {k : Nat} {path : List Nat}
    (hns : n.bare.operands = ns)
    (hChildren : layOutAll style n n.canonical
      (trail.extended (Parent.step n.canonical above)) 0 ns = .ok children)
    (h : (style.branchBlock label stacked type n.canonical
      (trail.extended (Parent.step n.canonical above)) children).descend (k :: path) = some shown)
    (ih : ∀ {m : Node} {c inner : Block K}, ns[k]? = some m →
      m.layOut style (some ⟨n, n.canonical, k⟩)
        (trail.extended (Parent.step n.canonical above)) = .ok c →
      c.descend path = some inner →
      inner.Shows m (some ⟨n, n.canonical, k⟩)
        (trail.extended (Parent.step n.canonical above)) path) :
    shown.Shows n above trail (k :: path) := by
  obtain ⟨c, hc, hShown⟩ := Option.bind_eq_some_iff.mp h
  obtain ⟨c, offset, hChild, hOffset, rfl⟩ := List.getElem?_zipWith_eq_some.mp hc
  obtain ⟨inner, hInner, hText, hAddress⟩ := Block.exists_descend_withOffset hShown
  obtain ⟨m, hm, hLayOut⟩ := exists_layOut_of_layOutAll hChildren hChild
  rw [Nat.zero_add] at hLayOut
  obtain ⟨⟨sub, hSub, hSubText⟩, hSteps⟩ := ih hm hLayOut hInner
  have hUngrouped : n.ungroup.operands[k]? = some m.ungroup := by
    rw [← hns] at hm
    exact Node.operand_ungroup hm
  constructor
  · exact ⟨sub, (descend_cons hUngrouped).trans hSub, hSubText.trans hText⟩
  · rw [← hAddress, hSteps, steps_cons hUngrouped, canonical_ungroup, Address.extended,
      List.append_assoc]
    cases above <;> rfl

theorem shows_leaf {style : Style K} {n : Node} {above : Option Parent} {trail : Address}
    {label : String} {type : SlotType} {shown : Block K} {path : List Nat}
    (hAtom : n.ungroup = n)
    (h : (style.leafBlock label type n.canonical
      (trail.extended (Parent.step n.canonical above))).descend path = some shown) :
    shown.Shows n above trail path := by
  cases path with
  | nil =>
    obtain rfl := Option.some.inj h
    constructor
    · exact ⟨n, by rw [hAtom]; rfl, rfl⟩
    · rw [hAtom]
      cases above <;> rfl
  | cons k path => cases h

/-- The block at a path shows the node at that path. -/
theorem shows_of_layOut (style : Style K) : (path : List Nat) → (n : Node) →
    (above : Option Parent) → (trail : Address) → {b shown : Block K} →
    n.layOut style above trail = .ok b → b.descend path = some shown →
    shown.Shows n above trail path
  | path, .group inner, above, trail, b, shown, h, hPath => by
    rw [layOut] at h
    obtain ⟨hText, hAddress⟩ := shows_of_layOut style path inner above trail h hPath
    exact ⟨hText, hAddress⟩
  | [], .operator op ns, above, trail, b, shown, h, hPath => by
    obtain ⟨type, children, -, -, rfl⟩ := layOut_operator_inv h
    obtain rfl := Option.some.inj hPath
    refine ⟨⟨_, rfl, canonical_ungroup _⟩, ?_⟩
    rw [steps, canonical_ungroup]
    cases above <;> rfl
  | k :: path, .operator op ns, above, trail, b, shown, h, hPath => by
    obtain ⟨type, children, -, hChildren, rfl⟩ := layOut_operator_inv h
    exact shows_of_children (n := .operator op ns) rfl hChildren hPath
      fun {m _ _} _ hLayOut hInner => shows_of_layOut style path m _ _ hLayOut hInner
  | [], .call name ns, above, trail, b, shown, h, hPath => by
    obtain ⟨type, children, -, -, rfl⟩ := layOut_call_inv h
    obtain rfl := Option.some.inj hPath
    refine ⟨⟨_, rfl, canonical_ungroup _⟩, ?_⟩
    rw [steps, canonical_ungroup]
    cases above <;> rfl
  | k :: path, .call name ns, above, trail, b, shown, h, hPath => by
    obtain ⟨type, children, -, hChildren, rfl⟩ := layOut_call_inv h
    exact shows_of_children (n := .call name ns) rfl hChildren hPath
      fun {m _ _} _ hLayOut hInner => shows_of_layOut style path m _ _ hLayOut hInner
  | path, .symbol name, above, trail, b, shown, h, hPath => by
    rw [layOut] at h
    split at h
    · cases h
    · obtain rfl := Except.ok.inj h
      exact shows_leaf rfl hPath
  | path, .literal v, above, trail, b, shown, h, hPath => by
    rw [layOut] at h
    split at h
    · cases h
    · obtain rfl := Except.ok.inj h
      exact shows_leaf rfl hPath
termination_by path n => (path.length, sizeOf n)

theorem canonical_of_layOut {style : Style K} {n : Node} {above : Option Parent}
    {trail : Address} {b : Block K} (h : n.layOut style above trail = .ok b) :
    b.frame.expression = n.canonical := by
  obtain ⟨sub, hSub, hText⟩ := (shows_of_layOut style [] n above trail h rfl).text
  obtain rfl := Option.some.inj hSub
  rw [← hText, canonical_ungroup]

end Node

theorem Style.layOut_inv {style : Style K} {n : Node} {tree : BlockTree K}
    (h : style.layOut n = .ok tree) :
    ∃ root, n.layOut style none .empty = .ok root ∧ tree = .ofRoot root := by
  rw [Style.layOut] at h
  cases hRoot : n.layOut style none .empty with
  | error e =>
    rw [hRoot] at h
    cases h
  | ok root =>
    rw [hRoot] at h
    exact ⟨root, rfl, (Except.ok.inj h).symm⟩

end Blockwork
