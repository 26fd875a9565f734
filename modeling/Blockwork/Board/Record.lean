import Blockwork.Board.Session
import Blockwork.Json.Read
import Blockwork.Plane.Record

/-! # Records of sessions

Sources, events and placed expressions are read leniently: fields that are not known do not count.
-/

set_option autoImplicit false

namespace Blockwork

open Json

def idLimit : Nat := UInt64.size

def blockLimit : Nat := UInt32.size

def Source.ofJson? (j : Json) : Option Source := do
  match ← j.tagged? "kind" with
  | ("template", rest) =>
    match ← rest.record? true ["index"] with
    | [index] => return .template (← required (natBelow? idLimit) index)
    | _ => none
  | ("canvas", rest) =>
    match ← rest.record? true ["placed", "block"] with
    | [placed, block] =>
      return .canvas (← required (natBelow? idLimit) placed)
        (← required (natBelow? blockLimit) block)
    | _ => none
  | _ => none

def Source.toJson : Source → Json
  | .template index => .object [("kind", .text "template"), ("index", ofNat index)]
  | .canvas placed block =>
    .object [("kind", .text "canvas"), ("placed", ofNat placed), ("block", ofNat block)]

/-- An event without fields: any object, or a list of its type alone. -/
def PointerEvent.bare? (rest : Json) (event : PointerEvent Float) : Option (PointerEvent Float) :=
  match rest with
  | .list (_ :: _) => none
  | _ => some event

def PointerEvent.ofJson? (j : Json) : Option (PointerEvent Float) := do
  if !j.isSound then none
  let (kind, rest) ← j.tagged? "type"
  let place : Option (Float × Float) := do
    match ← rest.record? true ["x", "y"] with
    | [x, y] => return (← required float? x, ← required float? y)
    | _ => none
  match kind with
  | "down" => place.map fun (x, y) => .down ⟨x, y⟩
  | "move" => place.map fun (x, y) => .move ⟨x, y⟩
  | "frame" => bare? rest .frame
  | "up" => place.map fun (x, y) => .up ⟨x, y⟩
  | "cancel" => bare? rest .cancel
  | "scroll_canvas" => place.map fun (x, y) => .scrollCanvas ⟨x, y⟩
  | "scroll_palette" => place.map fun (x, y) => .scrollPalette ⟨x, y⟩
  | _ => none

def Placed.ofJson? (j : Json) : Option (Placed Float) := do
  match ← j.record? true ["expression", "origin"] with
  | [expression, origin] =>
    return ⟨← required text? expression, ← required Point.ofJson? origin⟩
  | _ => none

def Placed.toJson (p : Placed Float) : Json :=
  .object [("expression", .text p.expression), ("origin", p.origin.toJson)]

def LeafRef.toJson (l : LeafRef) : Json :=
  .object [("placed", ofNat l.placed), ("block", ofNat l.block)]

def Collision.toJson (c : Collision) : Json :=
  .object [("leaf", c.leaf.toJson), ("matched", .truth c.agrees)]

def Outcome.toJson : Outcome → Json
  | .deleted removed =>
    .object [("outcome", .text "deleted"), ("removed", ofOption ofNat removed)]
  | .placed id => .object [("outcome", .text "placed"), ("id", ofNat id)]
  | .merged target id =>
    .object [("outcome", .text "merged"), ("target", ofNat target), ("id", ofNat id)]
  | .aborted => .object [("outcome", .text "aborted")]

end Blockwork
