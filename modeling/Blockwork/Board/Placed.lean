import Blockwork.Plane.Shape

/-! # Placed expressions

Expressions on a canvas, from the bottom to the top of the stack. Each has an id of its own for as
long as it is there; ids only grow, so one that was given out never names another expression.
-/

set_option autoImplicit false

namespace Blockwork

structure Placed (K : Type) where
  expression : String
  origin : Point K

structure Collection (K : Type) where
  entries : List (Nat × Placed K)
  next : Nat

namespace Collection

variable {K : Type}

def empty : Collection K := ⟨[], 0⟩

def add (c : Collection K) (p : Placed K) : Collection K :=
  ⟨c.entries ++ [(c.next, p)], c.next + 1⟩

def ofList (ps : List (Placed K)) : Collection K := ps.foldl add empty

def ids (c : Collection K) : List Nat := c.entries.map (·.1)

def get? (c : Collection K) (id : Nat) : Option (Placed K) :=
  (c.entries.find? fun e => e.1 = id).map (·.2)

def contains (c : Collection K) (id : Nat) : Bool := (c.get? id).isSome

/-- The collection with an expression exchanged in its place; other ids change nothing. -/
def set (c : Collection K) (id : Nat) (p : Placed K) : Collection K :=
  { c with entries := setFirst c.entries }
where
  setFirst : List (Nat × Placed K) → List (Nat × Placed K)
    | [] => []
    | e :: rest => if e.1 = id then (e.1, p) :: rest else e :: setFirst rest

def erase (c : Collection K) (id : Nat) : Collection K :=
  { c with entries := c.entries.eraseP fun e => e.1 = id }

def clear (c : Collection K) : Collection K := { c with entries := [] }

@[simp] theorem ids_empty : (empty : Collection K).ids = [] := rfl

@[simp] theorem ids_add (c : Collection K) (p : Placed K) : (c.add p).ids = c.ids ++ [c.next] := by
  simp [add, ids]

theorem map_fst_setFirst (id : Nat) (p : Placed K) (entries : List (Nat × Placed K)) :
    (set.setFirst id p entries).map (·.1) = entries.map (·.1) := by
  induction entries with
  | nil => rfl
  | cons e rest ih =>
    rw [set.setFirst]
    split
    · rfl
    · simp [ih]

@[simp] theorem ids_set (c : Collection K) (id : Nat) (p : Placed K) :
    (c.set id p).ids = c.ids :=
  map_fst_setFirst id p c.entries

theorem ids_erase (c : Collection K) (id : Nat) : (c.erase id).ids = c.ids.erase id := by
  simp only [erase, ids]
  induction c.entries with
  | nil => rfl
  | cons e rest ih =>
    by_cases h : e.1 = id
    · simp [h]
    · simp [h, ih]

@[simp] theorem ids_clear (c : Collection K) : c.clear.ids = [] := rfl

theorem contains_iff {c : Collection K} {id : Nat} : c.contains id = true ↔ id ∈ c.ids := by
  simp [contains, get?, ids, List.find?_isSome]

end Collection

end Blockwork
