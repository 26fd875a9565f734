import Blockwork.Expression.Typing
import Blockwork.Proofs.Expression.Path

/-! # Well typed trees

A symbol takes the type of its slot; every other node has a type of its own. A tree is well typed
when no operand's type differs from the type of its slot. Its subtrees are well typed then, and so
is what a replacement makes of it, if the new node fits the slot of the old one.
-/

set_option autoImplicit false

namespace Blockwork

namespace Node

def typeIn (slot : SlotType) : Node → Except Fault SlotType
  | .symbol _ => .ok slot
  | .literal v => v.slotType
  | .group inner => inner.typeIn slot
  | .operator op ns => (Node.operator op ns).resultType
  | .call name ns => (Node.call name ns).resultType

def Fits (n : Node) (slot : SlotType) : Prop := n.typeIn slot = .ok slot

def WellTyped (n : Node) : Prop :=
  ∀ (path : List Nat) (k : Nat) (parent m : Node), n.ungroup.descend path = some parent →
    parent.operands[k]? = some m → ∃ slot, operandType (some parent) = .ok slot ∧ m.Fits slot

section

variable {n m r : Node} {slot : SlotType}

@[simp] theorem typeIn_ungroup (slot : SlotType) : (n : Node) →
    n.ungroup.typeIn slot = n.typeIn slot
  | .group inner => by rw [Node.ungroup, typeIn_ungroup slot inner, typeIn]
  | .symbol _ | .literal _ | .operator _ _ | .call _ _ => rfl

@[simp] theorem operandType_ungroup : (n : Node) →
    operandType (some n.ungroup) = operandType (some n)
  | .group inner => by
    rw [Node.ungroup, operandType_ungroup inner, operandType, operandType, bare]
  | .symbol _ | .literal _ | .operator _ _ | .call _ _ => rfl

@[simp] theorem operandType_bare : (n : Node) →
    operandType (some n.bare) = operandType (some n)
  | .group inner => by
    rw [bare, operandType_bare inner, operandType, operandType, bare]
  | .symbol _ | .literal _ | .operator _ _ | .call _ _ => rfl

/-- A node whose type in some slot is `slot` fits there: only symbols take another type, and these
fit everywhere. -/
theorem fits_of_typeIn {other : SlotType} : (n : Node) → n.typeIn other = .ok slot → n.Fits slot
  | .symbol _, _ => rfl
  | .group inner, h => fits_of_typeIn inner h
  | .literal _, h => h
  | .operator _ _, h => h
  | .call _ _, h => h

theorem wellTyped_congr (h : n.ungroup = m.ungroup) : n.WellTyped ↔ m.WellTyped := by
  rw [WellTyped, WellTyped, h]

theorem wellTyped_iff :
    n.WellTyped ↔ ∀ (k : Nat) (m : Node), n.bare.operands[k]? = some m →
      (∃ slot, operandType (some n) = .ok slot ∧ m.Fits slot) ∧ m.WellTyped := by
  constructor
  · intro h k m hm
    constructor
    · simpa [Fits] using h [] k n.ungroup m.ungroup rfl (operand_ungroup hm)
    · intro path j parent sub hParent hSub
      rw [← descend_cons (operand_ungroup hm)] at hParent
      exact h (k :: path) j parent sub hParent hSub
  · rintro h (_ | ⟨k, path⟩) j parent sub hParent hSub
    · obtain rfl := Option.some.inj hParent
      obtain ⟨m, hm, rfl⟩ := exists_operand_of_ungroup hSub
      simpa [Fits] using (h j m hm).1
    · obtain ⟨inner, hInner, hParent⟩ := exists_operand_of_descend hParent
      obtain ⟨m, hm, rfl⟩ := exists_operand_of_ungroup hInner
      exact (h k m hm).2 path j parent sub hParent hSub

theorem wellTyped_of_operands_eq_nil (h : n.bare.operands = []) : n.WellTyped := by
  rw [wellTyped_iff, h]
  nofun

theorem bare_of_operand {k : Nat} (h : n.operands[k]? = some m) : n.bare = n := by
  cases n with
  | group => cases h
  | _ => rfl

theorem WellTyped.descend {path : List Nat} (h : n.WellTyped) (hm : n.descend path = some m) :
    m.WellTyped := by
  induction path generalizing n with
  | nil =>
    obtain rfl := Option.some.inj hm
    exact h
  | cons k path ih =>
    obtain ⟨inner, hInner, hm⟩ := exists_operand_of_descend hm
    rw [← bare_of_operand hInner] at hInner
    exact ih (wellTyped_iff.mp h k inner hInner).2 hm

theorem operandType_put_cons (n r : Node) (k : Nat) (path : List Nat) :
    operandType (some (n.put (k :: path) r)) = operandType (some n) := by
  cases n <;> rfl

theorem typeIn_put_cons (n r : Node) (k : Nat) (path : List Nat) (slot : SlotType) :
    (n.put (k :: path) r).typeIn slot = n.typeIn slot := by
  cases n <;> rfl

theorem bare_or_put_cons (n r : Node) (k : Nat) (path : List Nat) :
    n.bare = n ∧ (n.put (k :: path) r).bare = n.put (k :: path) r ∨ n.put (k :: path) r = n := by
  cases n with
  | group => exact .inr rfl
  | _ => exact .inl ⟨rfl, rfl⟩

/-- A replacement that fits the slot at its path keeps a tree well typed. -/
theorem WellTyped.put {path : List Nat} (h : n.WellTyped) (hr : r.WellTyped)
    (hFits : ∀ above k parent slot, path = above ++ [k] → n.descend above = some parent →
      operandType (some parent) = .ok slot → r.Fits slot) : (n.put path r).WellTyped := by
  -- The old node says too little about the slot, since a symbol fits everywhere: the parent does.
  induction path generalizing n with
  | nil => simpa using hr
  | cons k path ih =>
    rcases bare_or_put_cons n r k path with ⟨hBare, hPut⟩ | hSame
    · rw [wellTyped_iff, hBare] at h
      rw [wellTyped_iff, hPut, operands_put_cons, operandType_put_cons]
      intro j m hm
      by_cases hSlot : k = j
      · subst hSlot
        rw [List.getElem?_modify_eq] at hm
        obtain ⟨inner, hInner, rfl⟩ := Option.map_eq_some_iff.mp hm
        obtain ⟨⟨slot, hType, hInnerFits⟩, hInnerTyped⟩ := h k inner hInner
        refine ⟨⟨slot, hType, ?_⟩, ih hInnerTyped ?_⟩
        · cases path with
          | nil => simpa using hFits [] k n slot rfl rfl hType
          | cons j path => exact (typeIn_put_cons inner r j path slot).trans hInnerFits
        · rintro above j parent slot rfl hParent
          exact hFits (k :: above) j parent slot rfl ((descend_cons hInner).trans hParent)
      · rw [List.getElem?_modify_ne _ _ hSlot] at hm
        exact h j m hm
    · rwa [hSame]

end

end Node

end Blockwork
