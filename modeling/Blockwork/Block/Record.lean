import Blockwork.Block.Arena
import Blockwork.Json.Read
import Blockwork.Plane.Record

/-! # Records of addresses and blocks

Addresses are read and written; blocks are only written.
-/

set_option autoImplicit false

namespace Blockwork

open Json

def AddressStep.toJson (s : AddressStep) : Json :=
  .object [("node_text", .text s.text),
    ("child_path", ofOption (fun k => .text (slotName k)) s.slot),
    ("parent_text", ofOption .text s.parent)]

def slotOfJson? : Json → Option (Option Nat)
  | .null => some none
  | .text s => (readSlot s).toOption.map some
  | _ => none

def parentOfJson? : Json → Option (Option String)
  | .null => some none
  | .text s => some (some s)
  | _ => none

/-- Reads a step leniently; slot and parent may be missing, unless the step is a list. -/
def AddressStep.ofJson? (j : Json) : Option AddressStep := do
  if let .list items := j then
    if items.length != 3 then none
  match ← j.record? true ["node_text", "child_path", "parent_text"] with
  | [text, slot, parent] =>
    return ⟨← required text? text, ← orElse none slotOfJson? slot,
      ← orElse none parentOfJson? parent⟩
  | _ => none

def Address.toJson (a : Address) : Json := .list (a.steps.map AddressStep.toJson)

def Address.ofJson? (j : Json) : Option Address := do
  return ⟨← (← j.list?).mapM AddressStep.ofJson?⟩

def Highlight.toJson (h : Highlight Float) : Json :=
  .object [("ring", .text h.ring.name), ("ring_alpha", .real h.ringAlpha),
    ("background", .text h.background.name), ("handle", .text h.handle.name)]

def Hole.toJson (h : Hole Float) : Json :=
  .object [("rect", h.rect.toJson), ("child_type", .text h.type.name)]

def LeafShape.toJson (s : LeafShape Float) : Json :=
  .object [("kind", .text "leaf"), ("ring", s.ring.toJson), ("background", s.background.toJson),
    ("check_area", s.checkArea.toJson), ("label", .text s.label),
    ("label_center", s.labelCenter.toJson)]

def BranchShape.toJson (s : BranchShape Float) : Json :=
  .object [("kind", .text "branch"), ("arrangement", .text s.arrangement.name),
    ("background", s.background.toJson), ("event_layer", s.eventLayer.toJson),
    ("holes", .list (s.holes.map Hole.toJson)), ("handle_center", s.handleCenter.toJson),
    ("handle_radius", .real s.handleRadius), ("label", .text s.label),
    ("label_center", s.labelCenter.toJson)]

def CellShape.toJson : CellShape Float → Json
  | .leaf s => s.toJson
  | .branch s => s.toJson

def CellFlags.toJson (f : CellFlags) : Json :=
  .object [("is_leaf", .truth f.isLeaf), ("is_root", .truth f.isRoot),
    ("is_template", .truth f.isTemplate)]

def Cell.toJson (c : Cell Float) : Json :=
  .object [("id", ofNat c.id), ("parent", ofOption ofNat c.parent),
    ("children", .list (c.children.map ofNat)), ("offset", c.offset.toJson),
    ("size", c.size.toJson), ("shape", c.shape.toJson), ("result_type", .text c.type.name),
    ("flags", c.flags.toJson), ("expression", .text c.expression),
    ("address", c.address.toJson), ("highlight", c.highlight.toJson)]

def Arena.toJson (a : Arena Float) : Json :=
  .object [("blocks", .list (a.cells.toList.map Cell.toJson)), ("root", ofNat a.root),
    ("origin", a.origin.toJson), ("leaves", .list (a.leaves.toList.map ofNat)),
    ("branches", .list (a.branches.toList.map ofNat))]

def BlockTree.flagsToJson (t : BlockTree Float) (e : Entry Float) : Json :=
  (t.cell e).flags.toJson

def BlockTree.toJson (t : BlockTree Float) : Json := t.arena.toJson

end Blockwork
