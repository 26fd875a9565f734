import Blockwork.Fault

/-! # Structural addresses

An address names a node by the chain from the root down to it. Each step says what its node says,
in which operand slot it sits, and what its parent says; the root has neither slot nor parent.
-/

set_option autoImplicit false

namespace Blockwork

def slotName (slot : Nat) : String := "operand[" ++ toString slot ++ "]"

def slotLimit : Nat := UInt64.size

def readSlot (s : String) : Except Fault Nat :=
  let opening := "operand[".toList
  let cs := s.toList
  let inner := cs.drop opening.length
  let body := inner.dropLast
  let digits := if body.head? = some '+' then body.drop 1 else body
  let slot := Decimal.ofDigits digits
  if opening.isPrefixOf cs && inner.getLast? = some ']' && !digits.isEmpty &&
      digits.all Char.isDigit && slot < slotLimit then .ok slot
  else .error (.settings (.unknownSlot s))

structure AddressStep where
  text : String
  slot : Option Nat
  parent : Option String
  deriving DecidableEq, Repr

namespace AddressStep

def root (text : String) : AddressStep := ⟨text, none, none⟩

def child (text : String) (slot : Nat) (parent : String) : AddressStep :=
  ⟨text, some slot, some parent⟩

/-- The step as one clause; without slot or without parent it reads as a root. -/
def describe (s : AddressStep) : String :=
  match s.slot, s.parent with
  | some slot, some parent => slotName slot ++ " of " ++ parent ++ ": " ++ s.text
  | _, _ => "root: " ++ s.text

end AddressStep

structure Address where
  steps : List AddressStep
  deriving DecidableEq, Repr

namespace Address

def empty : Address := ⟨[]⟩

def extended (a : Address) (step : AddressStep) : Address := ⟨a.steps ++ [step]⟩

def length (a : Address) : Nat := a.steps.length

def describe (a : Address) : String := " > ".intercalate (a.steps.map AddressStep.describe)

end Address

end Blockwork
