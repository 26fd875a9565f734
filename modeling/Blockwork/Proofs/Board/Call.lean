import Blockwork.Proofs.Board.Failure

/-! # Calls

What a program does to a session: it calls operations, and between them it edits the collection by
the collection's own operations. Some answers name an id as new.
-/

set_option autoImplicit false

namespace Blockwork

/-- A change of a collection by its own operations. -/
inductive Edit (K : Type) where
  | add (p : Placed K)
  | set (id : Nat) (p : Placed K)
  | remove (id : Nat)
  | clear

inductive Call (K : Type) where
  | operation (operation : Operation K)
  | edit (edit : Edit K)

variable {K : Type}

def Collection.edit (c : Collection K) : Edit K → Collection K
  | .add p => c.add p
  | .set id p => c.set id p
  | .remove id => c.erase id
  | .clear => c.clear

namespace Edit

def adds : Edit K → Bool
  | .add _ => true
  | _ => false

def named (c : Collection K) : Edit K → Option Nat
  | .add _ => some c.next
  | _ => none

end Edit

def Outcome.named : Outcome → Option Nat
  | .placed id => some id
  | .merged _ id => some id
  | .deleted _ | .aborted => none

def Operation.adds : Operation K → Bool
  | .addExpression .. | .beginDrag .. | .pointerDown _ | .pointerUp _ | .pointerCancel => true
  | .pointerMove _ | .onFrame | .scrollCanvas _ | .scrollPalette _ | .refresh => false

def Call.adds : Call K → Bool
  | .operation o => o.adds
  | .edit e => e.adds

variable [Scalar K]

namespace Session

/-- The session that a call leaves, whether it succeeds or fails. -/
def call (s : Session K) : Call K → Session K
  | .operation operation => s.apply operation
  | .edit edit => s.editPlaced fun c => c.edit edit

def perform (s : Session K) (calls : List (Call K)) : Session K := calls.foldl call s

def named (s : Session K) : Call K → Option Nat
  | .operation (.addExpression text origin) => (s.addExpression text origin).1.toOption
  | .operation (.pointerUp point) => (s.pointerUp point).1.toOption.bind Outcome.named
  | .operation .pointerCancel => s.pointerCancel.1.toOption.bind Outcome.named
  | .operation _ => none
  | .edit edit => edit.named s.placed

/-- The ids that the answers to a sequence of calls name as new, in their order. -/
def given (s : Session K) : List (Call K) → List Nat
  | [] => []
  | call :: calls => (s.named call).toList ++ (s.call call).given calls

section

variable {s : Session K}

theorem perform_append (s : Session K) (calls more : List (Call K)) :
    s.perform (calls ++ more) = (s.perform calls).perform more :=
  List.foldl_append

theorem Attainable.call (h : s.Attainable) (call : Call K) : (s.call call).Attainable := by
  cases call with
  | operation operation => exact h.apply operation
  | edit edit => exact h.edit fun c => c.edit edit

theorem Attainable.perform (h : s.Attainable) (calls : List (Call K)) :
    (s.perform calls).Attainable := by
  induction calls generalizing s with
  | nil => exact h
  | cons call calls ih => exact ih (h.call call)

end

end Session

end Blockwork
