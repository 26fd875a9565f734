import Blockwork.Proofs.Block.Correspondence
import Blockwork.Proofs.Block.Spot

/-! # Blocks in post-order

The list of blocks runs through the nodes of a tree in post-order: the operands of a node from the
first to the last, each with all that is below it, and then the node. Groups have no place in that
order, as they have no block.
-/

set_option autoImplicit false

namespace Blockwork

open List (Forall₂)

namespace Node

mutual

/-- The paths of all nodes but groups, in post-order. -/
def postorder : Node → List (List Nat)
  | .symbol _ => [[]]
  | .literal _ => [[]]
  | .operator _ ns => postorderAll 0 ns ++ [[]]
  | .call _ ns => postorderAll 0 ns ++ [[]]
  | .group inner => inner.postorder

def postorderAll (k : Nat) : List Node → List (List Nat)
  | [] => []
  | n :: ns => n.postorder.map (k :: ·) ++ postorderAll (k + 1) ns

end

theorem postorder_eq : (n : Node) → n.postorder = postorderAll 0 n.bare.operands ++ [[]]
  | .symbol _ | .literal _ | .operator _ _ | .call _ _ => rfl
  | .group inner => postorder_eq inner

theorem nil_mem_postorder (n : Node) : [] ∈ n.postorder := by
  rw [postorder_eq]
  exact List.mem_append_right _ List.mem_cons_self

theorem mem_postorderAll {path : List Nat} {ns : List Node} {k : Nat} :
    path ∈ postorderAll k ns ↔
      ∃ (j : Nat) (m : Node) (rest : List Nat), ns[j]? = some m ∧ path = (k + j) :: rest ∧
        rest ∈ m.postorder := by
  induction ns generalizing k with
  | nil => simp [postorderAll]
  | cons n ns ih =>
    rw [postorderAll, List.mem_append, List.mem_map, ih]
    constructor
    · rintro (⟨rest, hRest, rfl⟩ | ⟨j, m, rest, hm, rfl, hRest⟩)
      · exact ⟨0, n, rest, rfl, rfl, hRest⟩
      · exact ⟨j + 1, m, rest, hm, by rw [Nat.add_right_comm, Nat.add_assoc], hRest⟩
    · rintro ⟨_ | j, m, rest, hm, rfl, hRest⟩
      · obtain rfl := Option.some.inj hm
        exact .inl ⟨rest, hRest, rfl⟩
      · exact .inr ⟨j, m, rest, hm, by rw [Nat.add_right_comm, Nat.add_assoc], hRest⟩

theorem cons_mem_postorder {n : Node} {k : Nat} {path : List Nat} :
    k :: path ∈ n.postorder ↔ ∃ m, n.bare.operands[k]? = some m ∧ path ∈ m.postorder := by
  rw [postorder_eq, List.mem_append, mem_postorderAll]
  constructor
  · rintro (⟨j, m, rest, hm, hPath, hRest⟩ | hNil)
    · obtain ⟨rfl, rfl⟩ := List.cons.inj hPath
      rw [Nat.zero_add]
      exact ⟨m, hm, hRest⟩
    · cases List.mem_singleton.mp hNil
  · rintro ⟨m, hm, hPath⟩
    exact .inl ⟨k, m, path, hm, by rw [Nat.zero_add], hPath⟩

theorem mem_postorder {n : Node} {path : List Nat} :
    path ∈ n.postorder ↔ ∃ sub, n.ungroup.descend path = some sub := by
  induction path generalizing n with
  | nil => exact ⟨fun _ => ⟨_, rfl⟩, fun _ => n.nil_mem_postorder⟩
  | cons k path ih =>
    rw [cons_mem_postorder]
    constructor
    · rintro ⟨m, hm, hPath⟩
      rw [descend_cons (operand_ungroup hm)]
      exact ih.mp hPath
    · rintro ⟨sub, hSub⟩
      obtain ⟨operand, hOperand, hSub⟩ := exists_operand_of_descend hSub
      obtain ⟨m, hm, rfl⟩ := exists_operand_of_ungroup hOperand
      exact ⟨m, hm, ih.mpr ⟨sub, hSub⟩⟩

mutual

theorem postorder_ungroup : (n : Node) → n.ungroup.postorder = n.postorder
  | .symbol _ | .literal _ => rfl
  | .operator _ ns | .call _ ns => by
    rw [ungroup, postorder, postorder, postorderAll_ungroupAll 0 ns]
  | .group inner => postorder_ungroup inner

theorem postorderAll_ungroupAll (k : Nat) : (ns : List Node) →
    postorderAll k (ungroupAll ns) = postorderAll k ns
  | [] => rfl
  | n :: ns => by
    rw [ungroupAll, postorderAll, postorderAll, postorder_ungroup n,
      postorderAll_ungroupAll (k + 1) ns]

end

theorem nodup_postorderAll {ns : List Node} (h : ∀ n ∈ ns, n.postorder.Nodup) (k : Nat) :
    (postorderAll k ns).Nodup := by
  induction ns generalizing k with
  | nil => exact List.nodup_nil
  | cons n ns ih =>
    obtain ⟨hHead, hTail⟩ := List.forall_mem_cons.mp h
    rw [postorderAll, List.nodup_append]
    refine ⟨hHead.map fun _ _ hCons => (List.cons.inj hCons).2, ih hTail (k + 1), ?_⟩
    rintro path hPath other hOther rfl
    obtain ⟨rest, -, rfl⟩ := List.mem_map.mp hPath
    obtain ⟨j, m, tail, -, hTail, -⟩ := mem_postorderAll.mp hOther
    have hSlot := (List.cons.inj hTail).1
    omega

theorem nodup_concat {ns : List Node} (h : ∀ n ∈ ns, n.postorder.Nodup) :
    (postorderAll 0 ns ++ [[]]).Nodup := by
  rw [List.nodup_append]
  refine ⟨nodup_postorderAll h 0, List.nodup_singleton [], ?_⟩
  rintro path hPath other hOther rfl
  obtain rfl := List.mem_singleton.mp hOther
  obtain ⟨j, m, rest, -, hNil, -⟩ := mem_postorderAll.mp hPath
  cases hNil

theorem nodup_postorder : (n : Node) → n.postorder.Nodup
  | .symbol _ | .literal _ => List.nodup_singleton []
  | .operator _ ns | .call _ ns => nodup_concat fun n _ => nodup_postorder n
  | .group inner => nodup_postorder inner

end Node

variable {K : Type}

namespace Spot

def At (σ : Spot K) (path : List Nat) (e : Entry K) : Prop :=
  ∃ τ, σ.descend path = some τ ∧ e = τ.entry

theorem at_siblings (k start parent : Nat) (above : List (Offset K)) {bs : List (Block K)}
    {ns : List Node} (hLength : bs.length = ns.length)
    (h : ∀ (j : Nat) (m : Node) (c : Block K), ns[j]? = some m → bs[j]? = some c →
      let τ : Spot K := ⟨start + Block.countAll (bs.take j), some parent, above, c⟩
      Forall₂ τ.At m.postorder τ.run) :
    Forall₂ (fun path e => ∃ (j : Nat) (rest : List Nat) (c : Block K),
        path = (k + j) :: rest ∧ bs[j]? = some c ∧
          At ⟨start + Block.countAll (bs.take j), some parent, above, c⟩ rest e)
      (Node.postorderAll k ns) (Block.entriesAll start parent above bs) := by
  induction bs generalizing ns start k with
  | nil =>
    obtain rfl := List.length_eq_zero_iff.mp hLength.symm
    exact .nil
  | cons b bs ih =>
    cases ns with
    | nil => cases hLength
    | cons n ns =>
      have hFirst := h 0 n b rfl rfl
      have hLater := ih (k + 1) (start + b.count) (Nat.succ.inj hLength) fun j m c hm hc => by
        have hInner := h (j + 1) m c hm hc
        rwa [List.take_succ_cons, Block.countAll, ← Nat.add_assoc] at hInner
      rw [Node.postorderAll, Block.entriesAll]
      refine List.rel_append ?_ (hLater.imp ?_)
      · rw [List.forall₂_map_left_iff]
        exact hFirst.imp fun rest e he => ⟨0, rest, b, rfl, rfl, he⟩
      · rintro path e ⟨j, rest, c, rfl, hc, he⟩
        refine ⟨j + 1, rest, c, by rw [Nat.add_right_comm, Nat.add_assoc], hc, ?_⟩
        rwa [List.take_succ_cons, Block.countAll, ← Nat.add_assoc]

theorem at_of_children {σ : Spot K} {ns : List Node} (hLength : σ.block.children.length = ns.length)
    (h : ∀ k m τ, ns[k]? = some m → σ.child? k = some τ → Forall₂ τ.At m.postorder τ.run) :
    Forall₂ σ.At (Node.postorderAll 0 ns ++ [[]]) σ.run := by
  have hSiblings := at_siblings 0 σ.first σ.entry.id σ.entry.offsets hLength
    fun k m c hm hc => h k m _ hm (by rw [child?, hc]; rfl)
  rw [run_eq]
  refine List.rel_append (hSiblings.imp ?_) (.cons ⟨σ, rfl, rfl⟩ .nil)
  rintro path e ⟨k, rest, c, rfl, hc, τ, hτ, rfl⟩
  refine ⟨τ, ?_, rfl⟩
  rw [Nat.zero_add, descend, child?, hc]
  exact hτ

end Spot

variable [Scalar K]

/-- The entries of a node's block run through the node in post-order. -/
theorem Node.at_of_layOut {style : Style K} (σ : Spot K) : ∀ {n : Node} {above : Option Parent}
    {trail : Address} {b : Block K} {offset : Offset K}, n.layOut style above trail = .ok b →
    σ.block = b.withOffset offset → Forall₂ σ.At n.postorder σ.run := by
  induction σ using Spot.induction with
  | step σ ih =>
    intro n above trail b offset h hσ
    have hChildren : σ.block.children = b.children := by rw [hσ, Block.children_withOffset]
    rw [postorder_eq]
    apply Spot.at_of_children
    · rw [hChildren, length_children_of_layOut n h]
    · intro k m τ hm hτ
      obtain ⟨hChild, -⟩ := Spot.child?_eq_some hτ
      rw [hChildren] at hChild
      obtain ⟨other, text, below, inner, place, hOther, hLayOut, hMoved⟩ :=
        child_of_layOut n h hChild
      obtain rfl := Option.some.inj (hm.symm.trans hOther)
      exact ih k τ hτ hLayOut hMoved

end Blockwork
