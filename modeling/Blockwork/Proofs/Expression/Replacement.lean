import Blockwork.Proofs.Expression.Path
import Blockwork.Proofs.Expression.Readable

/-! # Replacements at a path

A later replacement at a path covers an earlier one, and a node that is put back where it was
leaves the tree as it was. In a tree without groups, only the replacement can bring groups in.
-/

set_option autoImplicit false

namespace Blockwork

namespace Node

theorem ungroupAll_modify {f g : Node → Node} {ns : List Node} (hns : ungroupAll ns = ns)
    (h : ∀ m : Node, m.ungroup = m → (f m).ungroup = g m) (k : Nat) :
    ungroupAll (ns.modify k f) = ns.modify k g := by
  induction ns generalizing k with
  | nil => cases k <;> rfl
  | cons m ns ih =>
    obtain ⟨hHead, hTail⟩ := List.cons.inj hns
    cases k with
    | zero =>
      rw [List.modify_zero_cons, List.modify_zero_cons, ungroupAll, h m hHead, hTail]
    | succ k =>
      rw [List.modify_succ_cons, List.modify_succ_cons, ungroupAll, hHead, ih hTail]

theorem modify_eq_self {f : Node → Node} {ns : List Node} {k : Nat} {m : Node}
    (hm : ns[k]? = some m) (h : f m = m) : ns.modify k f = ns := by
  rw [List.modify_eq_set_getElem?, hm]
  obtain ⟨hBound, rfl⟩ := List.getElem?_eq_some_iff.mp hm
  simp [h]

section

variable {n sub : Node} {path : List Nat}

theorem ungroup_put (h : n.ungroup = n) (path : List Nat) (r : Node) :
    (n.put path r).ungroup = n.put path r.ungroup := by
  induction path generalizing n with
  | nil => simp
  | cons k path ih =>
    cases n with
    | operator op ns =>
      rw [Node.ungroup, operator.injEq] at h
      rw [put, put, Node.ungroup, ungroupAll_modify h.2 (fun _ => ih)]
    | call name ns =>
      rw [Node.ungroup, call.injEq] at h
      rw [put, put, Node.ungroup, ungroupAll_modify h.2 (fun _ => ih)]
    | _ => exact h

theorem put_put (n r s : Node) (path : List Nat) : (n.put path r).put path s = n.put path s := by
  induction path generalizing n with
  | nil => simp
  | cons k path ih =>
    have hTwice : (put · path s) ∘ (put · path r) = (put · path s) := funext ih
    cases n with
    | operator op ns => rw [put, put, put, List.modify_modify_eq, hTwice]
    | call name ns => rw [put, put, put, List.modify_modify_eq, hTwice]
    | _ => rfl

theorem put_self (h : n.descend path = some sub) : n.put path sub = n := by
  induction path generalizing n with
  | nil =>
    obtain rfl := Option.some.inj h
    simp
  | cons k path ih =>
    obtain ⟨m, hm, hSub⟩ := exists_operand_of_descend h
    have hSame : n.operands.modify k (put · path sub) = n.operands := modify_eq_self hm (ih hSub)
    cases n with
    | operator op ns => exact congrArg (Node.operator op) hSame
    | call name ns => exact congrArg (Node.call name) hSame
    | _ => rfl

theorem descend_put_append (n r : Node) (above path : List Nat) :
    (n.put (above ++ path) r).descend above = (n.descend above).map (·.put path r) := by
  induction above generalizing n with
  | nil => rfl
  | cons k above ih =>
    rw [List.cons_append, descend, descend, operands_put_cons, List.getElem?_modify_eq]
    cases n.operands[k]? with
    | none => rfl
    | some m => exact ih m

/-- A node that is taken out of a tree and put back leaves the text as it was, whatever stood in
its place meanwhile and however the trees were read. -/
theorem canonical_put_back (h : n.ungroup.descend path = some sub) (r : Node) :
    ((n.ungroup.put path r).regroup.ungroup.put path sub.regroup).canonical = n.canonical := by
  have hTree : n.ungroup.ungroup = n.ungroup := ungroup_ungroup n
  have hSame : (n.ungroup.put path sub.regroup).ungroup = (n.ungroup.put path sub).ungroup := by
    rw [ungroup_put hTree, ungroup_put hTree, ungroup_regroup]
  rw [ungroup_regroup, ungroup_put hTree, put_put, canonical_congr hSame, put_self h,
    canonical_ungroup]

end

end Node

end Blockwork
