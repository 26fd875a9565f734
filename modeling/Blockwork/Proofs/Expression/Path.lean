import Blockwork.Expression.Node
import Blockwork.Address

/-! # Operand paths

A path names a node of a tree without groups by the operand slots on the way down to it. The
address of a node is the chain of steps along its path.
-/

set_option autoImplicit false

namespace Blockwork

namespace Node

def descend : List Nat → Node → Option Node
  | [], n => some n
  | k :: path, n => n.operands[k]?.bind (descend path)

def put : Node → List Nat → Node → Node
  | _, [], r => r
  | .operator op ns, k :: path, r => .operator op (ns.modify k (put · path r))
  | .call name ns, k :: path, r => .call name (ns.modify k (put · path r))
  | n, _ :: _, _ => n

/-- The steps from a node down a path, as addresses spell them. -/
def steps (slot : Option Nat) (parent : Option String) : List Nat → Node → List AddressStep
  | [], n => [⟨n.canonical, slot, parent⟩]
  | k :: path, n =>
    ⟨n.canonical, slot, parent⟩ ::
      match n.operands[k]? with
      | none => []
      | some m => steps (some k) (some n.canonical) path m

section

variable {n m sub r : Node} {k : Nat} {path : List Nat}

@[simp] theorem descend_nil : n.descend [] = some n := rfl

@[simp] theorem put_nil : n.put [] r = r := by cases n <;> rfl

theorem descend_cons (hm : n.operands[k]? = some m) : n.descend (k :: path) = m.descend path := by
  rw [descend, hm, Option.bind_some]

theorem exists_operand_of_descend (h : n.descend (k :: path) = some sub) :
    ∃ m, n.operands[k]? = some m ∧ m.descend path = some sub :=
  Option.bind_eq_some_iff.mp h

theorem descend_concat (n : Node) (path : List Nat) (k : Nat) :
    n.descend (path ++ [k]) = (n.descend path).bind fun m => m.operands[k]? := by
  induction path generalizing n with
  | nil =>
    rw [List.nil_append, descend, descend, Option.bind_some]
    cases n.operands[k]? <;> rfl
  | cons j path ih =>
    rw [List.cons_append, descend, descend]
    cases n.operands[j]? with
    | none => rfl
    | some m => exact ih m

theorem steps_cons {slot : Option Nat} {parent : Option String} (hm : n.operands[k]? = some m) :
    n.steps slot parent (k :: path) =
      ⟨n.canonical, slot, parent⟩ :: m.steps (some k) (some n.canonical) path := by
  rw [steps, hm]

/-- A chain goes on below a node as the chain that begins there does behind its first step. -/
theorem steps_append {slot : Option Nat} {parent : Option String} {top : List Nat}
    (h : n.descend top = some sub) (path : List Nat) :
    n.steps slot parent (top ++ path) =
      n.steps slot parent top ++ (sub.steps none none path).tail := by
  induction top generalizing n slot parent with
  | nil =>
    obtain rfl := Option.some.inj h
    cases path <;> rfl
  | cons k top ih =>
    obtain ⟨m, hm, h⟩ := exists_operand_of_descend h
    rw [List.cons_append, steps_cons hm, steps_cons hm, ih h, List.cons_append]

theorem exists_steps (slot : Option Nat) (parent : Option String) (n : Node) (path : List Nat) :
    ∃ later, n.steps slot parent path = ⟨n.canonical, slot, parent⟩ :: later := by
  cases path with
  | nil => exact ⟨[], rfl⟩
  | cons k path => exact ⟨_, rfl⟩

end

theorem operands_ungroup : (n : Node) → n.ungroup.operands = n.bare.operands.map ungroup
  | .group inner => operands_ungroup inner
  | .operator _ ns => ungroupAll_eq_map ns
  | .call _ ns => ungroupAll_eq_map ns
  | .symbol _ | .literal _ => rfl

theorem operand_ungroup {n m : Node} {k : Nat} (h : n.bare.operands[k]? = some m) :
    n.ungroup.operands[k]? = some m.ungroup := by
  rw [operands_ungroup, List.getElem?_map, h]
  rfl

theorem exists_operand_of_ungroup {n sub : Node} {k : Nat}
    (h : n.ungroup.operands[k]? = some sub) :
    ∃ m, n.bare.operands[k]? = some m ∧ m.ungroup = sub := by
  rwa [operands_ungroup, List.getElem?_map, Option.map_eq_some_iff] at h

theorem slots_steps {n sub : Node} {path : List Nat} (h : n.descend path = some sub)
    (slot : Option Nat) (parent : Option String) :
    (n.steps slot parent path).map (·.slot) = slot :: path.map some := by
  induction path generalizing n slot parent with
  | nil => rfl
  | cons k path ih =>
    obtain ⟨m, hm, h⟩ := exists_operand_of_descend h
    rw [steps_cons hm, List.map_cons, ih h, List.map_cons]

theorem operands_put_cons (n r : Node) (k : Nat) (path : List Nat) :
    (n.put (k :: path) r).operands = n.operands.modify k (put · path r) := by
  cases n <;> simp [put, operands]

theorem descend_put {n sub : Node} {path : List Nat} (h : n.descend path = some sub) (r : Node) :
    (n.put path r).descend path = some r := by
  induction path generalizing n with
  | nil => simp
  | cons k path ih =>
    obtain ⟨m, hm, h⟩ := exists_operand_of_descend h
    have hPut : (n.put (k :: path) r).operands[k]? = some (m.put path r) := by
      rw [operands_put_cons, List.getElem?_modify_eq, hm]
      rfl
    rw [descend_cons hPut, ih h]

theorem canonical_operator_congr {op : Operator} {ns ms : List Node}
    (h : canonicals ns = canonicals ms) :
    (Node.operator op ns).canonical = (Node.operator op ms).canonical := by
  rw [canonical, canonical, h]

theorem canonical_call_congr {name : String} {ns ms : List Node}
    (h : canonicals ns = canonicals ms) :
    (Node.call name ns).canonical = (Node.call name ms).canonical := by
  rw [canonical, canonical, h]

theorem canonicals_modify {ns : List Node} {k : Nat} {m : Node} (hm : ns[k]? = some m)
    (f : Node → Node) : canonicals (ns.modify k f) = (canonicals ns).set k (f m).canonical := by
  induction ns generalizing k with
  | nil => cases hm
  | cons n ns ih =>
    cases k with
    | zero =>
      obtain rfl := Option.some.inj hm
      rfl
    | succ k =>
      rw [List.modify_succ_cons, canonicals, ih hm]
      rfl

theorem length_le_intercalate (separator : String) {text : String} {texts : List String}
    (h : text ∈ texts) : text.length ≤ (separator.intercalate texts).length := by
  induction texts with
  | nil => cases h
  | cons first texts ih =>
    cases texts with
    | nil =>
      obtain rfl := List.mem_singleton.mp h
      simp
    | cons second texts =>
      rw [String.intercalate_cons_cons, String.length_append, String.length_append]
      rcases List.mem_cons.mp h with rfl | h
      · omega
      · have := ih h
        omega

theorem length_canonical_operand {n m : Node} (h : m ∈ n.operands) :
    m.canonical.length < n.canonical.length := by
  have hParen : ")".length = 1 := rfl
  cases n with
  | operator op ns =>
    have hm : m.canonical ∈ canonicals ns := canonicals_eq_map ns ▸ List.mem_map_of_mem h
    rw [canonical]
    split
    · rename_i text hOne
      rw [hOne, List.mem_singleton] at hm
      simp only [String.length_append, hm]
      omega
    · have := length_le_intercalate
        (if op.isWord then " " ++ op.symbol ++ " " else op.symbol) hm
      simp only [String.length_append]
      omega
  | call name ns =>
    have hm : m.canonical ∈ canonicals ns := canonicals_eq_map ns ▸ List.mem_map_of_mem h
    have := length_le_intercalate ", " hm
    rw [canonical]
    simp only [String.length_append]
    omega
  | _ => cases h

end Node

end Blockwork
