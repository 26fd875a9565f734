import Blockwork.Decimal.Written

/-! # JSON values

Objects keep their members in order, repeated names included, so that a record can refuse them.
Whole numbers of a word and others are told apart by how they are spelled; a number beyond the
doubles is infinite.
-/

set_option autoImplicit false

namespace Blockwork

inductive Json where
  | null
  | truth (b : Bool)
  | integer (n : Int)
  | real (x : Float)
  | text (s : String)
  | unpaired
  | list (items : List Json)
  | object (members : List (String × Json))

namespace Json

def float? : Json → Option Float
  | .integer n =>
    let size := (⟨n.natAbs, 0⟩ : Decimal).toFloat
    let x := if n < 0 then -size else size
    if x.isFinite then some x else none
  | .real x => if x.isFinite then some x else none
  | _ => none

def natBelow? (limit : Nat) : Json → Option Nat
  | .integer n => if 0 ≤ n ∧ n < limit then some n.toNat else none
  | _ => none

def text? : Json → Option String
  | .text s => some s
  | _ => none

def list? : Json → Option (List Json)
  | .list items => some items
  | _ => none

mutual

def depth : Json → Nat
  | .list items => depthOfList items + 1
  | .object members => depthOfMembers members + 1
  | _ => 0

def depthOfList : List Json → Nat
  | [] => 0
  | j :: js => max j.depth (depthOfList js)

def depthOfMembers : List (String × Json) → Nat
  | [] => 0
  | (_, j) :: rest => max j.depth (depthOfMembers rest)

end

mutual

def isSound : Json → Bool
  | .unpaired => false
  | .integer n => (float? (.integer n)).isSome
  | .real x => x.isFinite
  | .list items => areSound items
  | .object members => membersAreSound members
  | _ => true

def areSound : List Json → Bool
  | [] => true
  | j :: js => j.isSound && areSound js

def membersAreSound : List (String × Json) → Bool
  | [] => true
  | (_, j) :: rest => j.isSound && membersAreSound rest

end

/-- The fields of a record, in the order of `names`: from an object, or from a list in that order.
A field may be missing but not repeated; only a lenient record has others besides. -/
def record? (lenient : Bool) (names : List String) : Json → Option (List (Option Json))
  | .list items =>
    if items.length ≤ names.length then
      some (items.map some ++ List.replicate (names.length - items.length) none)
    else none
  | .object members =>
    let known := members.filter fun m => names.contains m.1
    if (lenient || known.length = members.length) &&
        names.all fun name => (known.filter fun m => m.1 = name).length ≤ 1 then
      some (names.map fun name => (known.find? fun m => m.1 = name).map (·.2))
    else none
  | _ => none

def tagged? (tag : String) : Json → Option (String × Json)
  | .list (.text kind :: rest) => some (kind, .list rest)
  | .object members =>
    match members.filter fun m => m.1 = tag with
    | [(_, .text kind)] => some (kind, .object (members.filter fun m => m.1 != tag))
    | _ => none
  | _ => none

def required {α : Type} (read : Json → Option α) (field : Option Json) : Option α :=
  field.bind read

def orElse {α : Type} (value : α) (read : Json → Option α) : Option Json → Option α
  | none => some value
  | some j => read j

end Json

end Blockwork
