import Blockwork.Proofs.Block.Substitution
import Blockwork.Proofs.Expression.RoundTrip

/-! # Texts that lay out

A tree lays out when its operators belong to families, its calls compare texts, and none of its
literals is null. This is a property of the tree alone, and it passes to the tree of its canonical
text, to its subtrees, and to what replacements make of it.
-/

set_option autoImplicit false

namespace Blockwork

namespace Node

inductive Shown : Node → Prop where
  | symbol (name : String) : Shown (.symbol name)
  | literal {v : Literal} {type : SlotType} (hType : v.slotType = .ok type) : Shown (.literal v)
  | operator {op : Operator} {family : OperatorFamily} {ns : List Node}
      (hFamily : op.family = some family) (h : ∀ n ∈ ns, n.Shown) : Shown (.operator op ns)
  | call {name : String} {ns : List Node} (hName : isTextEquality name = true)
      (h : ∀ n ∈ ns, n.Shown) : Shown (.call name ns)
  | group {n : Node} (h : n.Shown) : Shown (.group n)

section

variable {n m : Node}

theorem Shown.ungroup (h : n.Shown) : n.ungroup.Shown := by
  induction h with
  | symbol name => exact .symbol name
  | literal hType => exact .literal hType
  | operator hFamily _ ih =>
    rw [Node.ungroup, ungroupAll_eq_map]
    apply Shown.operator hFamily
    simpa using ih
  | call hName _ ih =>
    rw [Node.ungroup, ungroupAll_eq_map]
    apply Shown.call hName
    simpa using ih
  | group _ ih => exact ih

theorem Shown.regroup (h : n.Shown) : n.regroup.Shown := by
  induction h with
  | symbol name => exact .symbol name
  | literal hType => exact .literal hType
  | operator hFamily _ ih =>
    rw [Node.regroup, regroupAll_eq_map]
    apply Shown.group
    apply Shown.operator hFamily
    simpa using ih
  | call hName _ ih =>
    rw [Node.regroup, regroupAll_eq_map]
    apply Shown.call hName
    simpa using ih
  | group _ ih => exact ih

theorem shown_of_ungroup : (n : Node) → n.ungroup.Shown → n.Shown
  | .symbol name, _ => .symbol name
  | .literal _, h => h
  | .group inner, h => .group (shown_of_ungroup inner h)
  | .operator op ns, h => by
    rw [Node.ungroup, ungroupAll_eq_map] at h
    cases h with
    | operator hFamily h =>
      exact .operator hFamily fun n hn => shown_of_ungroup n (h _ (List.mem_map_of_mem hn))
  | .call name ns, h => by
    rw [Node.ungroup, ungroupAll_eq_map] at h
    cases h with
    | call hName h =>
      exact .call hName fun n hn => shown_of_ungroup n (h _ (List.mem_map_of_mem hn))

theorem Shown.operand (h : n.Shown) (hm : m ∈ n.operands) : m.Shown := by
  cases h with
  | operator _ h => exact h m hm
  | call _ h => exact h m hm
  | _ => cases hm

theorem Shown.descend {path : List Nat} (h : n.Shown) (hm : n.descend path = some m) :
    m.Shown := by
  induction path generalizing n with
  | nil =>
    obtain rfl := Option.some.inj hm
    exact h
  | cons k path ih =>
    obtain ⟨inner, hInner, hm⟩ := exists_operand_of_descend hm
    exact ih (h.operand (List.mem_of_getElem? hInner)) hm

end

theorem forall_mem_modify {p : Node → Prop} {f : Node → Node} {ns : List Node} (k : Nat)
    (h : ∀ n ∈ ns, p n) (hf : ∀ n ∈ ns, p (f n)) : ∀ n ∈ ns.modify k f, p n := by
  induction ns generalizing k with
  | nil => cases k <;> simp
  | cons m ns ih =>
    obtain ⟨hHead, hTail⟩ := List.forall_mem_cons.mp h
    obtain ⟨hfHead, hfTail⟩ := List.forall_mem_cons.mp hf
    cases k with
    | zero => exact List.forall_mem_cons.mpr ⟨hfHead, hTail⟩
    | succ k => exact List.forall_mem_cons.mpr ⟨hHead, ih k hTail hfTail⟩

theorem Shown.put {n r : Node} (h : n.Shown) (hr : r.Shown) (path : List Nat) :
    (n.put path r).Shown := by
  induction path generalizing n with
  | nil => simpa using hr
  | cons k path ih =>
    cases h with
    | operator hFamily h => exact .operator hFamily (forall_mem_modify k h fun n hn => ih (h n hn))
    | call hName h => exact .call hName (forall_mem_modify k h fun n hn => ih (h n hn))
    | symbol name => exact .symbol name
    | literal hType => exact .literal hType
    | group h => exact .group h

theorem Readable.put {n r : Node} (h : n.Readable) (hr : r.Readable) (path : List Nat) :
    (n.put path r).Readable := by
  induction path generalizing n with
  | nil => simpa using hr
  | cons k path ih =>
    cases h with
    | unary hUnary h =>
      cases k with
      | zero => exact .unary hUnary (ih h)
      | succ k => simpa [Node.put] using Readable.unary hUnary h
    | binary hBinary hl hRight =>
      cases k with
      | zero => exact .binary hBinary (ih hl) hRight
      | succ k =>
        cases k with
        | zero => exact .binary hBinary hl (ih hRight)
        | succ k => simpa [Node.put] using Readable.binary hBinary hl hRight
    | call hName h => exact .call hName (forall_mem_modify k h fun n hn => ih (h n hn))
    | symbol hName hPlain => exact .symbol hName hPlain
    | literal h => exact .literal h
    | group h => exact .group h

theorem Readable.descend {n m : Node} {path : List Nat} (h : n.Readable)
    (hm : n.descend path = some m) : m.Readable := by
  induction path generalizing n with
  | nil =>
    obtain rfl := Option.some.inj hm
    exact h
  | cons k path ih =>
    obtain ⟨inner, hInner, hm⟩ := exists_operand_of_descend hm
    exact ih (h.operand (List.mem_of_getElem? hInner)) hm

section

variable {K : Type} [Scalar K] (style : Style K)

theorem exists_layOutAll {node : Node} {type : SlotType}
    (hType : operandType (some node) = .ok type) {ns : List Node}
    (h : ∀ n ∈ ns, ∀ (above : Option Parent) (trail : Address),
      (∃ type, operandType (above.map Parent.node) = .ok type) →
        ∃ b, n.layOut style above trail = .ok b)
    (text : String) (trail : Address) (k : Nat) :
    ∃ children, layOutAll style node text trail k ns = .ok children := by
  induction ns generalizing k with
  | nil => exact ⟨[], by rw [layOutAll]⟩
  | cons n ns ih =>
    obtain ⟨hHead, hTail⟩ := List.forall_mem_cons.mp h
    obtain ⟨first, hFirst⟩ := hHead (some ⟨node, text, k⟩) trail ⟨type, hType⟩
    obtain ⟨rest, hRest⟩ := ih hTail (k + 1)
    refine ⟨first :: rest, ?_⟩
    rw [layOutAll, hFirst]
    simp only [hRest]

/-- A tree that can be shown lays out wherever a slot has a type. -/
theorem Shown.exists_layOut {n : Node} (h : n.Shown) (above : Option Parent) (trail : Address)
    (hAbove : ∃ type, operandType (above.map Parent.node) = .ok type) :
    ∃ b, n.layOut style above trail = .ok b := by
  induction h generalizing above trail with
  | symbol name =>
    obtain ⟨type, hType⟩ := hAbove
    rw [layOut, hType]
    exact ⟨_, rfl⟩
  | literal hType =>
    rw [layOut, hType]
    exact ⟨_, rfl⟩
  | @operator op family ns hFamily _ ih =>
    have hResult : ∃ type, (Node.operator op ns).resultType = .ok type := by
      cases family <;> simp [resultType, bare, hFamily]
    have hOperand : ∃ type, operandType (some (.operator op ns)) = .ok type := by
      cases family <;> simp [operandType, bare, hFamily]
    obtain ⟨type, hType⟩ := hResult
    obtain ⟨slot, hSlot⟩ := hOperand
    obtain ⟨children, hChildren⟩ := exists_layOutAll style hSlot ih
      (Node.operator op ns).canonical
      (trail.extended (Parent.step (Node.operator op ns).canonical above)) 0
    rw [layOut_operator, hType]
    simp only [hChildren]
    exact ⟨_, rfl⟩
  | @call name ns hName _ ih =>
    have hType : (Node.call name ns).resultType = .ok .boolean := by
      simp [resultType, bare, hName]
    have hSlot : operandType (some (.call name ns)) = .ok .string := by
      simp [operandType, bare, hName]
    obtain ⟨children, hChildren⟩ := exists_layOutAll style hSlot ih (Node.call name ns).canonical
      (trail.extended (Parent.step (Node.call name ns).canonical above)) 0
    rw [layOut_call, hType]
    simp only [hChildren]
    exact ⟨_, rfl⟩
  | group _ ih =>
    rw [layOut]
    exact ih above trail hAbove

theorem exists_layOut_of_mem {node : Node} {text : String} {trail : Address} {k : Nat}
    {ns : List Node} {children : List (Block K)}
    (h : layOutAll style node text trail k ns = .ok children) {n : Node} (hn : n ∈ ns) :
    ∃ above c, n.layOut style above trail = .ok c := by
  induction ns generalizing k children with
  | nil => cases hn
  | cons m ns ih =>
    rw [layOutAll] at h
    split at h
    · cases h
    · rename_i first hFirst
      split at h
      · cases h
      · rename_i rest hRest
        rcases List.mem_cons.mp hn with rfl | hn
        · exact ⟨_, first, hFirst⟩
        · exact ih hRest hn

theorem shown_of_layOut : (n : Node) → (above : Option Parent) → (trail : Address) →
    {b : Block K} → n.layOut style above trail = .ok b → n.Shown
  | .symbol name, _, _, _, _ => .symbol name
  | .literal v, above, trail, b, h => by
    rw [layOut] at h
    split at h
    · cases h
    · rename_i type hType
      exact .literal hType
  | .group inner, above, trail, b, h => by
    rw [layOut] at h
    exact .group (shown_of_layOut inner above trail h)
  | .operator op ns, above, trail, b, h => by
    obtain ⟨type, children, hType, hChildren, -⟩ := layOut_operator_inv h
    obtain ⟨family, hFamily⟩ : ∃ family, op.family = some family := by
      cases hSome : op.family with
      | none => simp [resultType, bare, hSome] at hType
      | some family => exact ⟨family, rfl⟩
    refine .operator hFamily fun n hn => ?_
    obtain ⟨above, c, hLayOut⟩ := exists_layOut_of_mem style hChildren hn
    exact shown_of_layOut n above _ hLayOut
  | .call name ns, above, trail, b, h => by
    obtain ⟨type, children, hType, hChildren, -⟩ := layOut_call_inv h
    have hName : isTextEquality name = true := by
      cases hEquality : isTextEquality name with
      | false => simp [resultType, bare, hEquality] at hType
      | true => rfl
    refine .call hName fun n hn => ?_
    obtain ⟨above, c, hLayOut⟩ := exists_layOut_of_mem style hChildren hn
    exact shown_of_layOut n above _ hLayOut

end

end Node

theorem Style.exists_layOutText {K : Type} [Scalar K] (style : Style K) {text : String} {n : Node}
    (hRead : Node.read text = .ok n) (hShown : n.Shown) :
    ∃ tree, style.layOutText text = .ok tree := by
  obtain ⟨b, hLayOut⟩ := hShown.exists_layOut style none .empty ⟨.number, rfl⟩
  refine ⟨.ofRoot b, ?_⟩
  rw [layOutText, hRead]
  simp only [layOut, hLayOut]
  rfl

theorem SlotType.exists_literal (type : SlotType) :
    ∃ v : Literal, v.Readable ∧ v.slotType = .ok type ∧
      (Node.literal v).canonical = type.placeholder := by
  cases type with
  | number =>
    refine ⟨.number (0.0 / 0.0), .nan, rfl, ?_⟩
    rw [Node.canonical, Literal.canonical, if_pos Double.isNaN_nan]
    rfl
  | string => exact ⟨.text "", .text "", rfl, by decide⟩
  | boolean => exact ⟨.truth true, .truth true, rfl, by decide⟩

/-- The canonical text of a tree that can be shown. -/
def Stored (text : String) : Prop :=
  ∃ n : Node, n.Readable ∧ n.Shown ∧ n.canonical = text

namespace Stored

variable {text : String}

theorem read (h : Stored text) :
    ∃ n, Node.read text = .ok n ∧ n.canonical = text ∧ n.Readable ∧ n.Shown := by
  obtain ⟨n, hReadable, hShown, rfl⟩ := h
  have hRead := Node.read_canonical hReadable
  exact ⟨n.regroup, hRead, Node.canonical_congr (Node.ungroup_regroup n),
    Node.readable_of_read hRead, hShown.regroup⟩

theorem of_read {source : String} {n : Node} (hRead : Node.read source = .ok n)
    (hShown : n.Shown) : Stored n.canonical :=
  ⟨n, Node.readable_of_read hRead, hShown, rfl⟩

theorem placeholder (type : SlotType) : Stored type.placeholder := by
  obtain ⟨v, hReadable, hType, hText⟩ := type.exists_literal
  exact ⟨.literal v, .literal hReadable, .literal hType, hText⟩

theorem put {n r : Node} {source replacement : String} (hRead : Node.read source = .ok n)
    (hShown : n.Shown) (hReplacement : Node.read replacement = .ok r) (hr : r.Shown)
    (path : List Nat) : Stored (n.ungroup.put path r).canonical :=
  ⟨n.ungroup.put path r,
    (Node.readable_of_read hRead).ungroup.put (Node.readable_of_read hReplacement) path,
    hShown.ungroup.put hr path, rfl⟩

variable {K : Type}

theorem of_block {n : Node} {source : String} {b : Block K} {path : List Nat}
    {above : Option Parent} {trail : Address} (hRead : Node.read source = .ok n)
    (hShown : n.Shown) (h : b.Shows n above trail path) : Stored b.frame.expression := by
  obtain ⟨sub, hSub, hText⟩ := h.text
  exact ⟨sub, (Node.readable_of_read hRead).ungroup.descend hSub, hShown.ungroup.descend hSub,
    hText⟩

variable [Scalar K] {style : Style K}

theorem exists_layOut (style : Style K) (h : Stored text) :
    ∃ tree, style.layOutText text = .ok tree := by
  obtain ⟨n, hRead, -, -, hShown⟩ := h.read
  exact Style.exists_layOutText style hRead hShown

theorem expression_eq {tree : BlockTree K} (h : Stored text)
    (hLayOut : style.layOutText text = .ok tree) : tree.expression = text := by
  obtain ⟨n, hRead, hText, -, -⟩ := h.read
  obtain ⟨m, b, hm, hBlock, rfl⟩ := Style.layOutText_inv hLayOut
  obtain rfl := Except.ok.inj (hRead.symm.trans hm)
  exact (Node.canonical_of_layOut hBlock).trans hText

theorem of_layOut {source : String} {tree : BlockTree K}
    (h : style.layOutText source = .ok tree) : Stored tree.expression := by
  obtain ⟨n, b, hRead, hLayOut, rfl⟩ := Style.layOutText_inv h
  have hText : (BlockTree.ofRoot b).expression = n.canonical := Node.canonical_of_layOut hLayOut
  rw [hText]
  exact of_read hRead (Node.shown_of_layOut style n none .empty hLayOut)

end Stored

end Blockwork
