import Blockwork.Expression.Reading
import Blockwork.Address

/-! # Splicing at an address

A cursor goes through the steps of an address while the tree is walked. The operands of an operator
are offered the step at the cursor before the operator itself, and what came back of them once more
after it. The node that takes the last step is replaced. Groups are passed through and dropped.
-/

set_option autoImplicit false

namespace Blockwork

/-- How far a walk has come in an address. -/
structure Cursor where
  consumed : Nat
  replacement : Option Node

namespace Cursor

variable (steps : List AddressStep)

def Done (c : Cursor) : Prop := steps.length ≤ c.consumed

instance (c : Cursor) : Decidable (c.Done steps) := Nat.decLe _ _

/-- What comes of the step at the cursor when a node is offered it. -/
inductive Offer where
  | outOfRange
  | replaced (new : Node) (next : Cursor)
  | passed (next : Cursor)

def offer (text : String) (slot : Option Nat) (parent : Option String) (c : Cursor) : Offer :=
  match steps[c.consumed]? with
  | none => .outOfRange
  | some step =>
    if step.text = text ∧ step.slot = slot ∧ step.parent = parent then
      let next : Cursor := ⟨c.consumed + 1, c.replacement⟩
      if next.Done steps then
        match next.replacement with
        | some new => .replaced new ⟨next.consumed, none⟩
        | none => .passed next
      else .passed next
    else .passed c

variable {steps} {text : String} {slot : Option Nat} {parent : Option String} {c next : Cursor}

theorem done_of_replaced {new : Node} (h : c.offer steps text slot parent = .replaced new next) :
    c.consumed ≤ next.consumed ∧ next.Done steps := by
  rw [offer] at h
  split at h
  · cases h
  · split at h
    · dsimp only at h
      split at h
      · rename_i hDone
        split at h
        · obtain ⟨-, rfl⟩ := Offer.replaced.inj h
          exact ⟨Nat.le_succ _, hDone⟩
        · cases h
      · cases h
    · cases h

theorem onward_of_passed (h : c.offer steps text slot parent = .passed next) :
    c.consumed ≤ next.consumed := by
  rw [offer] at h
  split at h
  · cases h
  · split at h
    · dsimp only at h
      split at h
      · split at h
        · cases h
        · obtain rfl := Offer.passed.inj h
          exact Nat.le_succ _
      · obtain rfl := Offer.passed.inj h
        exact Nat.le_succ _
    · obtain rfl := Offer.passed.inj h
      exact Nat.le_refl _

end Cursor

/-- What a walk leaves of a node or of operands, and how far it comes. The bound holds of what is
left short of the last step. -/
structure Walked (steps : List AddressStep) (c : Cursor) {α : Type} (bound : α → Prop) where
  left : α
  cursor : Cursor
  onward : c.consumed ≤ cursor.consumed
  bounded : cursor.Done steps ∨ bound left

namespace Walked

variable {steps : List AddressStep} {c d : Cursor} {α : Type} {bound weak : α → Prop}

/-- The same, seen from a cursor further back and with a weaker bound. -/
def widen (w : Walked steps d bound) (hOnward : c.consumed ≤ d.consumed)
    (hWeak : ∀ x, bound x → weak x) : Walked steps c weak :=
  ⟨w.left, w.cursor, Nat.le_trans hOnward w.onward, w.bounded.imp_right (hWeak _)⟩

def pair (w : Walked steps c bound) : α × Cursor := (w.left, w.cursor)

end Walked

namespace Node

def NoLarger (n m : Node) : Prop := sizeOf m ≤ sizeOf n

def NoneLarger (ns ms : List Node) : Prop := sizeOf ms ≤ sizeOf ns

section

variable {n m : Node} {ns ms : List Node}

theorem NoLarger.group (h : n.NoLarger m) : (group n).NoLarger m := by
  have := group.sizeOf_spec n
  simp only [NoLarger] at h ⊢
  omega

theorem NoneLarger.operator (h : NoneLarger ns ms) (op : Operator) :
    (operator op ns).NoLarger (.operator op ms) := by
  simp only [NoLarger, NoneLarger, operator.sizeOf_spec] at h ⊢
  omega

theorem NoneLarger.call (h : NoneLarger ns ms) (name : String) :
    (call name ns).NoLarger (.call name ms) := by
  simp only [NoLarger, NoneLarger, call.sizeOf_spec] at h ⊢
  omega

theorem NoLarger.cons (h : n.NoLarger m) (hRest : NoneLarger ns ms) :
    NoneLarger (n :: ns) (m :: ms) := by
  simp only [NoLarger, NoneLarger, List.cons.sizeOf_spec] at h hRest ⊢
  omega

end

mutual

/-- The walk of a cursor over a node: the node that it leaves, and how far it comes. It has no
outcome if a step behind the last one is looked up. Short of the last step no node gets larger, so
the second pass over what came back of the operands ends. -/
def walk (steps : List AddressStep) (slot : Option Nat) (parent : Option String) (c : Cursor)
    (n : Node) : Option (Walked steps c n.NoLarger) :=
  if hDone : c.Done steps then some ⟨n, c, Nat.le_refl _, .inl hDone⟩
  else
    match n with
    | .group inner =>
      (walk steps slot parent c inner).map fun w => w.widen (Nat.le_refl _) fun _ => NoLarger.group
    | .operator op ns => do
      let w ← walkAll steps (Node.operator op ns).canonical 0 c ns
      let node := Node.operator op w.left
      if hLeft : w.cursor.Done steps then some ⟨node, w.cursor, w.onward, .inl hLeft⟩
      else
        have hKept : sizeOf w.left ≤ sizeOf ns := w.bounded.resolve_left hLeft
        (walkTurn steps slot parent w.cursor node).map fun v =>
          v.widen w.onward fun _ h => Nat.le_trans h (NoneLarger.operator hKept op)
    | node => walkTurn steps slot parent c node
termination_by 3 * sizeOf n + 2

def walkTurn (steps : List AddressStep) (slot : Option Nat) (parent : Option String) (c : Cursor)
    (node : Node) : Option (Walked steps c node.NoLarger) :=
  match hOffer : c.offer steps node.canonical slot parent with
  | .outOfRange => none
  | .replaced new next =>
    have h := Cursor.done_of_replaced hOffer
    some ⟨new, next, h.1, .inl h.2⟩
  | .passed next =>
    (walkOperands steps next node).map fun w => w.widen (Cursor.onward_of_passed hOffer) fun _ h => h
termination_by 3 * sizeOf node + 1

def walkOperands (steps : List AddressStep) (c : Cursor) :
    (node : Node) → Option (Walked steps c node.NoLarger)
  | .operator op ns =>
    (walkAll steps (Node.operator op ns).canonical 0 c ns).map fun w =>
      ⟨.operator op w.left, w.cursor, w.onward, w.bounded.imp_right (·.operator op)⟩
  | .call name ns =>
    (walkAll steps (Node.call name ns).canonical 0 c ns).map fun w =>
      ⟨.call name w.left, w.cursor, w.onward, w.bounded.imp_right (·.call name)⟩
  | atom => some ⟨atom, c, Nat.le_refl _, .inr (Nat.le_refl _)⟩
termination_by node => 3 * sizeOf node

def walkAll (steps : List AddressStep) (text : String) (k : Nat) (c : Cursor) :
    (ns : List Node) → Option (Walked steps c (NoneLarger ns))
  | [] => some ⟨[], c, Nat.le_refl _, .inr (Nat.le_refl _)⟩
  | n :: ns => do
    let first ← walk steps (some k) (some text) c n
    let rest ← walkAll steps text (k + 1) first.cursor ns
    have hBound : rest.cursor.Done steps ∨ NoneLarger (n :: ns) (first.left :: rest.left) :=
      first.bounded.elim (fun hDone => .inl (Nat.le_trans hDone rest.onward)) fun hFirst =>
        rest.bounded.imp_right hFirst.cons
    some ⟨first.left :: rest.left, rest.cursor, Nat.le_trans first.onward rest.onward, hBound⟩
termination_by ns => 3 * sizeOf ns

end

section

variable (steps : List AddressStep) (slot : Option Nat) (parent : Option String) (c : Cursor)

/-- What comes of a walk, without its bounds. -/
def visit (n : Node) : Option (Node × Cursor) := (walk steps slot parent c n).map Walked.pair

def turn (node : Node) : Option (Node × Cursor) :=
  (walkTurn steps slot parent c node).map Walked.pair

def visitOperands (node : Node) : Option (Node × Cursor) :=
  (walkOperands steps c node).map Walked.pair

def visitAll (steps : List AddressStep) (text : String) (k : Nat) (c : Cursor) (ns : List Node) :
    Option (List Node × Cursor) :=
  (walkAll steps text k c ns).map Walked.pair

theorem visit_eq (n : Node) : visit steps slot parent c n =
    if c.Done steps then some (n, c)
    else
      match n with
      | .group inner => visit steps slot parent c inner
      | .operator op ns => do
        let (operands, left) ← visitAll steps (Node.operator op ns).canonical 0 c ns
        let node := Node.operator op operands
        if left.Done steps then some (node, left) else turn steps slot parent left node
      | node => turn steps slot parent c node := by
  rw [visit, walk.eq_def]
  split
  · rfl
  · cases n with
    | group inner =>
      dsimp only
      rw [visit, Option.map_map]
      rfl
    | operator op ns =>
      dsimp only
      rw [visitAll]
      cases walkAll steps (Node.operator op ns).canonical 0 c ns with
      | none => rfl
      | some w =>
        dsimp only [Option.map_some, Option.bind_eq_bind, Option.bind_some, Walked.pair]
        split
        · rfl
        · rw [turn, Option.map_map]
          rfl
    | _ => rfl

theorem turn_eq (node : Node) : turn steps slot parent c node =
    match c.offer steps node.canonical slot parent with
    | .outOfRange => none
    | .replaced new next => some (new, next)
    | .passed next => visitOperands steps next node := by
  rw [turn, walkTurn]
  split
  · rename_i hOffer
    rw [hOffer]
    rfl
  · rename_i hOffer
    conv => rhs; rw [hOffer]
    rfl
  · rename_i hOffer
    conv => rhs; rw [hOffer]
    dsimp only
    rw [visitOperands, Option.map_map]
    rfl

theorem visitOperands_eq (node : Node) : visitOperands steps c node =
    match node with
    | .operator op ns => do
      let (operands, last) ← visitAll steps node.canonical 0 c ns
      some (.operator op operands, last)
    | .call name ns => do
      let (operands, last) ← visitAll steps node.canonical 0 c ns
      some (.call name operands, last)
    | atom => some (atom, c) := by
  rw [visitOperands, walkOperands.eq_def]
  cases node with
  | operator op ns =>
    dsimp only
    rw [visitAll, Option.map_map]
    cases walkAll steps (Node.operator op ns).canonical 0 c ns <;> rfl
  | call name ns =>
    dsimp only
    rw [visitAll, Option.map_map]
    cases walkAll steps (Node.call name ns).canonical 0 c ns <;> rfl
  | _ => rfl

theorem visitAll_eq (text : String) (k : Nat) (ns : List Node) : visitAll steps text k c ns =
    match ns with
    | n :: ns => do
      let (first, left) ← visit steps (some k) (some text) c n
      let (rest, last) ← visitAll steps text (k + 1) left ns
      some (first :: rest, last)
    | [] => some ([], c) := by
  rw [visitAll, walkAll.eq_def]
  cases ns with
  | nil => rfl
  | cons n ns =>
    dsimp only
    rw [visit]
    cases walk steps (some k) (some text) c n with
    | none => rfl
    | some w =>
      dsimp only [Option.map_some, Option.bind_eq_bind, Option.bind_some, Walked.pair]
      rw [visitAll]
      cases walkAll steps text (k + 1) w.cursor ns <;> rfl

end

end Node

/-- The canonical text of `expression` with the node at an address replaced. Both texts are read
first; an address that names nothing changes nothing. -/
def Address.substitute (a : Address) (expression replacement : String) : Except Fault String := do
  let new ← (Node.read replacement).mapError .source
  let root ← (Node.read expression).mapError .source
  match Node.visit a.steps none none ⟨0, some new⟩ root with
  | some (node, _) => return node.canonical
  -- never: no step is looked up in vain
  | none => return root.canonical

end Blockwork
