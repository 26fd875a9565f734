import Blockwork.Block.Layout

/-! # Block trees

Blocks are numbered from the leaves up: the blocks of a child come before its parent, those of an
earlier child before those of a later one, and the root comes last. The entries of a tree list
its blocks in that order with their place in it. A block's origin is the tree's origin plus the
offsets from the block up to the root.
-/

set_option autoImplicit false

namespace Blockwork

structure BlockTree (K : Type) where
  root : Block K
  origin : Point K
  isTemplate : Bool

/-- A block of a tree with its number and its place. -/
structure Entry (K : Type) where
  id : Nat
  parent : Option Nat
  children : List Nat
  offsets : List (Offset K)
  block : Block K

variable {K : Type}

namespace Block

mutual

def count : Block K → Nat
  | .leaf _ _ => 1
  | .branch _ _ cs => countAll cs + 1

def countAll : List (Block K) → Nat
  | [] => 0
  | b :: bs => b.count + countAll bs

end

def siblingIds (start : Nat) : List (Block K) → List Nat
  | [] => []
  | b :: bs => (start + b.count - 1) :: siblingIds (start + b.count) bs

mutual

/-- The entries of a block whose first block is numbered `start`, below a parent at `above`. -/
def entries (start : Nat) (parent : Option Nat) (above : List (Offset K)) :
    Block K → List (Entry K)
  | .leaf f s => [⟨start, parent, [], f.offset :: above, .leaf f s⟩]
  | .branch f s cs =>
    let id := start + countAll cs
    let here := f.offset :: above
    entriesAll start id here cs ++ [⟨id, parent, siblingIds start cs, here, .branch f s cs⟩]

def entriesAll (start parent : Nat) (above : List (Offset K)) : List (Block K) → List (Entry K)
  | [] => []
  | b :: bs => b.entries start (some parent) above ++ entriesAll (start + b.count) parent above bs

end

theorem count_pos (b : Block K) : 0 < b.count := by
  cases b <;> simp [count]

mutual

theorem length_entries (start : Nat) (parent : Option Nat) (above : List (Offset K)) :
    (b : Block K) → (b.entries start parent above).length = b.count
  | .leaf _ _ => by simp [entries, count]
  | .branch _ _ cs => by simp [entries, count, length_entriesAll _ _ _ cs]

theorem length_entriesAll (start parent : Nat) (above : List (Offset K)) :
    (bs : List (Block K)) → (entriesAll start parent above bs).length = countAll bs
  | [] => rfl
  | b :: bs => by
    simp [entriesAll, countAll, length_entries _ _ _ b, length_entriesAll _ _ _ bs]

end

mutual

theorem map_id_entries (start : Nat) (parent : Option Nat) (above : List (Offset K)) :
    (b : Block K) → (b.entries start parent above).map (·.id) = List.range' start b.count
  | .leaf _ _ => rfl
  | .branch _ _ cs => by
    simp [entries, count, map_id_entriesAll start _ _ cs, List.range'_concat]

theorem map_id_entriesAll (start parent : Nat) (above : List (Offset K)) :
    (bs : List (Block K)) →
      (entriesAll start parent above bs).map (·.id) = List.range' start (countAll bs)
  | [] => rfl
  | b :: bs => by
    rw [entriesAll, List.map_append, map_id_entries start _ _ b, map_id_entriesAll _ _ _ bs,
      countAll]
    simp

end

mutual

def modify (k : Nat) (change : Block K → Block K) : Block K → Block K
  | .leaf f s => if k = 0 then change (.leaf f s) else .leaf f s
  | .branch f s cs =>
    if k = countAll cs then change (.branch f s cs)
    else .branch f s (modifyAll k change cs)

def modifyAll (k : Nat) (change : Block K → Block K) : List (Block K) → List (Block K)
  | [] => []
  | b :: bs =>
    if k < b.count then b.modify k change :: bs
    else b :: modifyAll (k - b.count) change bs

end

variable [Scalar K]

mutual

def unlit : Block K → Block K
  | .leaf f s => .leaf { f with highlight := .none } s
  | .branch f s cs => .branch { f with highlight := .none } s (unlitAll cs)

def unlitAll : List (Block K) → List (Block K)
  | [] => []
  | b :: bs => b.unlit :: unlitAll bs

end

mutual

/-- The number of the branch that takes a point, given in the parent's coordinates; later children
are asked before earlier ones, and all of them before the block itself. -/
def hit (start : Nat) (p : Point K) : Block K → Option Nat
  | .leaf _ _ => none
  | .branch f s cs =>
    let here := p - f.offset
    let self : Block K := .branch f s cs
    if self.localBounds.contains here then
      match hitAll start here cs with
      | some id => some id
      | none => if self.takes here then some (start + countAll cs) else none
    else none

def hitAll (start : Nat) (p : Point K) : List (Block K) → Option Nat
  | [] => none
  | b :: bs =>
    match hitAll (start + b.count) p bs with
    | some id => some id
    | none => b.hit start p

end

end Block

variable [Scalar K]

namespace BlockTree

def ofRoot (root : Block K) : BlockTree K := ⟨root, .origin, false⟩

def count (t : BlockTree K) : Nat := t.root.count

def rootId (t : BlockTree K) : Nat := t.count - 1

def expression (t : BlockTree K) : String := t.root.frame.expression

def entries (t : BlockTree K) : List (Entry K) := t.root.entries 0 none []

def entry? (t : BlockTree K) (id : Nat) : Option (Entry K) := t.entries[id]?

def block? (t : BlockTree K) (id : Nat) : Option (Block K) := (t.entry? id).map (·.block)

def leaves (t : BlockTree K) : List Nat := (t.entries.filter (·.block.isLeaf)).map (·.id)

def branches (t : BlockTree K) : List Nat := (t.entries.filter (!·.block.isLeaf)).map (·.id)

def modify (t : BlockTree K) (id : Nat) (change : Block K → Block K) : BlockTree K :=
  { t with root := t.root.modify id change }

def unlit (t : BlockTree K) : BlockTree K := { t with root := t.root.unlit }

def originOf (t : BlockTree K) (e : Entry K) : Point K := e.offsets.foldl (· + ·) t.origin

def blockOrigin (t : BlockTree K) (id : Nat) : Option (Point K) := (t.entry? id).map t.originOf

def blockBounds (t : BlockTree K) (id : Nat) : Option (Rect K) :=
  (t.entry? id).map fun e => .ofOriginSize (t.originOf e) e.block.frame.size

def bounds (t : BlockTree K) : Rect K :=
  .ofOriginSize (t.origin + t.root.frame.offset) t.root.frame.size

def checkArea (t : BlockTree K) (id : Nat) : Option (Rect K) := do
  let e ← t.entry? id
  let shape ← e.block.leafShape?
  return shape.checkArea + (t.originOf e).toOffset

def handleCenter (t : BlockTree K) (id : Nat) : Option (Point K) := do
  let e ← t.entry? id
  let shape ← e.block.branchShape?
  return shape.handleCenter + (t.originOf e).toOffset

def glyphPoint (t : BlockTree K) (id : Nat) : Option (Point K) := do
  let e ← t.entry? id
  let shape ← e.block.branchShape?
  return t.originOf e + shape.labelCenter.toOffset

def hit (t : BlockTree K) (p : Point K) : Option Nat := t.root.hit 0 (p - t.origin.toOffset)

end BlockTree

def Style.layOut (style : Style K) (n : Node) : Except Fault (BlockTree K) :=
  (n.layOut style none .empty).map .ofRoot

def Style.layOutText (style : Style K) (text : String) : Except Fault (BlockTree K) :=
  match Node.read text with
  | .error e => .error (.source e)
  | .ok n => style.layOut n

end Blockwork
