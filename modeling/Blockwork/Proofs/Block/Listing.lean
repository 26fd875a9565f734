import Blockwork.CommandLine.Run
import Blockwork.Proofs.Block.Numbering
import Blockwork.Proofs.Block.Shown

/-! # The table of addresses

Canonical texts are made of words, numerals, signs and escaped literals, and addresses are made of
canonical texts. None of them breaks a line or a field, so the table of addresses has one line for
each block and four fields in each line.
-/

set_option autoImplicit false

namespace Blockwork

/-- Text without tabs and line breaks. -/
def Text.Unbroken (cs : List Char) : Prop := ∀ c ∈ cs, c ≠ '\t' ∧ c ≠ '\n' ∧ c ≠ '\r'

namespace Text

section

variable {as bs : List Char}

theorem unbroken_of_all (h : (as.all fun c => c != '\t' && c != '\n' && c != '\r') = true) :
    Unbroken as := by
  simpa [Unbroken, and_assoc] using h

theorem Unbroken.append (ha : Unbroken as) (hb : Unbroken bs) : Unbroken (as ++ bs) :=
  List.forall_mem_append.mpr ⟨ha, hb⟩

theorem Unbroken.cons {c : Char} (hc : c ≠ '\t' ∧ c ≠ '\n' ∧ c ≠ '\r') (h : Unbroken as) :
    Unbroken (c :: as) :=
  List.forall_mem_cons.mpr ⟨hc, h⟩

theorem Unbroken.intercalate {separator : List Char} {xss : List (List Char)}
    (hSeparator : Unbroken separator) (h : ∀ xs ∈ xss, Unbroken xs) :
    Unbroken (separator.intercalate xss) :=
  forall_mem_intercalate hSeparator h

theorem unbroken_of_parts (h : ∀ c ∈ as, Scan.isWordPart c = true) : Unbroken as := by
  intro c hc
  refine ⟨?_, ?_, ?_⟩ <;>
    · rintro rfl
      cases h _ hc

theorem unbroken_of_digits (h : ∀ c ∈ as, c.isDigit = true) : Unbroken as :=
  unbroken_of_parts fun c hc => Scan.isWordPart_of_isDigit (h c hc)

theorem unbroken_word {name : String} (h : Scan.IsWord name) : Unbroken name.toList := by
  obtain ⟨c, cs, hName, hc, hcs⟩ := h
  rw [hName]
  exact unbroken_of_parts
    (List.forall_mem_cons.mpr ⟨Scan.isWordPart_iff.mpr (.inl hc), hcs⟩)

theorem unbroken_nat (n : Nat) : Unbroken (toString n).toList := by
  rw [Nat.toString_eq_repr, Nat.toList_repr]
  exact unbroken_of_digits fun c hc =>
    Nat.isDigit_of_mem_toDigits (by decide) (by decide) hc

theorem unbroken_spelled {whole digits : List Char} (hWhole : ∀ c ∈ whole, c.isDigit = true)
    (hDigits : ∀ c ∈ digits, c.isDigit = true) : Unbroken (Decimal.spelled whole digits) := by
  cases digits with
  | nil => exact unbroken_of_digits hWhole
  | cons d ds =>
    exact (unbroken_of_digits hWhole).append (.cons (by decide) (unbroken_of_digits hDigits))

theorem unbroken_literalEscape (c : Char) : Unbroken (literalEscape c) := by
  unfold literalEscape
  split_ifs with _ _ hLine hTab hReturn
  iterate 5 exact unbroken_of_all rfl
  exact .cons ⟨hTab, hLine, hReturn⟩ nofun

theorem unbroken_literal (s : String) : Unbroken (literal s).toList := by
  have hInside : Unbroken (s.toList.flatMap literalEscape) := by
    intro a ha
    obtain ⟨c, -, hc⟩ := List.mem_flatMap.mp ha
    exact unbroken_literalEscape c a hc
  rw [Scan.toList_literal]
  exact .cons (by decide) (hInside.append (unbroken_of_all rfl))

end

end Text

open Text (Unbroken)

theorem Literal.unbroken_canonical {v : Literal} (h : v.Readable) :
    Unbroken v.canonical.toList := by
  rcases Scan.literal_canonical h with ⟨word, hFinite, rfl, hCanonical, -⟩ | ⟨s, rfl⟩ | ⟨hName, -⟩
  · obtain ⟨whole, digits, -, hWhole, hDigits, hText, -⟩ := Scan.exists_spelled_write hFinite
    rw [hCanonical, hText]
    exact Text.unbroken_spelled hWhole hDigits
  · exact Text.unbroken_literal s
  · exact Text.unbroken_word hName.word

namespace Operator

variable (op : Operator)

theorem unbroken_sign : Unbroken op.sign := by
  cases op <;> exact Text.unbroken_of_all rfl

theorem unbroken_gap : Unbroken op.gap := by
  cases op <;> exact Text.unbroken_of_all rfl

end Operator

namespace Node

/-- A node of a tree: the tree itself, or a node of an operand or of what is grouped. -/
inductive Holds (n : Node) : Node → Prop where
  | self : Holds n n
  | operand {m k : Node} (h : Holds n m) (hk : k ∈ m.operands) : Holds n k
  | group {m : Node} (h : Holds n (.group m)) : Holds n m

section

variable {n m : Node}

theorem Readable.holds (h : n.Readable) (hm : n.Holds m) : m.Readable := by
  induction hm with
  | self => exact h
  | operand _ hk ih => exact ih.operand hk
  | group _ ih => exact ih.of_group

theorem unbroken_canonical (h : n.Readable) : Unbroken n.canonical.toList := by
  have hOpen : '(' ≠ '\t' ∧ '(' ≠ '\n' ∧ '(' ≠ '\r' := by decide
  have hClose : Unbroken [')'] := Text.unbroken_of_all rfl
  induction h with
  | symbol hName _ => exact Text.unbroken_word hName.word
  | literal h => exact Literal.unbroken_canonical h
  | @unary op _ _ _ ih =>
    rw [toList_canonical_unary]
    exact .cons hOpen (op.unbroken_sign.append (ih.append hClose))
  | @binary op _ _ _ _ _ ihl ihr =>
    rw [toList_canonical_binary]
    exact .cons hOpen (ihl.append (op.unbroken_gap.append (ihr.append hClose)))
  | call hName _ ih =>
    have hComma : Unbroken [',', ' '] := Text.unbroken_of_all rfl
    have hOperands := hComma.intercalate (List.forall_mem_map.mpr ih)
    rw [toList_canonical_call]
    exact (Text.unbroken_word hName.word).append (.cons hOpen (hOperands.append hClose))
  | group _ ih => exact ih

end

end Node

namespace AddressStep

theorem unbroken_slotName (slot : Nat) : Unbroken (slotName slot).toList := by
  rw [slotName, String.toList_append, String.toList_append]
  exact ((Text.unbroken_of_all rfl).append (Text.unbroken_nat slot)).append
    (Text.unbroken_of_all rfl)

theorem unbroken_describe {s : AddressStep} (hText : Unbroken s.text.toList)
    (hParent : ∀ parent ∈ s.parent, Unbroken parent.toList) : Unbroken s.describe.toList := by
  obtain ⟨text, slot, parent⟩ := s
  have hRoot : Unbroken ("root: " ++ text).toList := by
    rw [String.toList_append]
    exact (Text.unbroken_of_all rfl).append hText
  cases slot with
  | none => exact hRoot
  | some slot =>
    cases parent with
    | none => exact hRoot
    | some parent =>
      have hSlot := unbroken_slotName slot
      have hOf : Unbroken " of ".toList := Text.unbroken_of_all rfl
      have hColon : Unbroken ": ".toList := Text.unbroken_of_all rfl
      simp only [describe, String.toList_append]
      exact (((hSlot.append hOf).append (hParent parent rfl)).append hColon).append hText

end AddressStep

theorem Address.unbroken_describe {a : Address}
    (h : ∀ s ∈ a.steps, Unbroken s.describe.toList) : Unbroken a.describe.toList := by
  rw [describe, String.toList_intercalate, List.map_map]
  exact .intercalate (Text.unbroken_of_all rfl) (List.forall_mem_map.mpr h)

theorem Node.unbroken_steps {n : Node} (h : n.Readable) (path : List Nat) (slot : Option Nat)
    (parent : Option String) (hParent : ∀ text ∈ parent, Unbroken text.toList) :
    ∀ s ∈ n.steps slot parent path, Unbroken s.describe.toList := by
  -- The parent's text of a step is the text of the node before it, or that of `parent` at the top.
  induction path generalizing n slot parent with
  | nil =>
    exact List.forall_mem_singleton.mpr
      (AddressStep.unbroken_describe (unbroken_canonical h) hParent)
  | cons k path ih =>
    rw [steps]
    refine List.forall_mem_cons.mpr
      ⟨AddressStep.unbroken_describe (unbroken_canonical h) hParent, ?_⟩
    cases hOperand : n.operands[k]? with
    | none => exact List.forall_mem_nil _
    | some m =>
      have hAbove : ∀ text ∈ some n.canonical, Unbroken text.toList := fun text hText =>
        Option.some.inj hText ▸ unbroken_canonical h
      exact ih (h.operand (List.mem_of_getElem? hOperand)) _ _ hAbove

theorem Block.Shows.unbroken_address {K : Type} {b : Block K} {n : Node} {path : List Nat}
    (hn : n.Readable) (h : b.Shows n none .empty path) :
    Unbroken b.frame.address.describe.toList := by
  have hSteps : b.frame.address.steps = n.ungroup.steps none none path := h.address
  apply Address.unbroken_describe
  rw [hSteps]
  exact Node.unbroken_steps hn.ungroup path none none nofun

theorem Style.unbroken_addresses {K : Type} [Scalar K] {style : Style K} {text : String}
    {tree : BlockTree K} (h : style.layOutText text = .ok tree) :
    ∀ e ∈ tree.entries, Unbroken e.block.frame.address.describe.toList := by
  obtain ⟨n, root, hRead, hLayOut, rfl⟩ := layOutText_inv h
  intro e he
  obtain ⟨path, hPath⟩ := Block.exists_descend_of_mem_entries root 0 none [] he
  exact (Node.shows_of_layOut style path n none .empty hLayOut hPath).unbroken_address
    (Node.readable_of_read hRead)

namespace CommandLine

def fields (e : Entry Float) : List String :=
  [toString e.id, if e.block.isLeaf then "leaf" else "branch", e.block.frame.type.name,
    e.block.frame.address.describe]

def line (e : Entry Float) : List Char := ['\t'].intercalate ((fields e).map String.toList)

theorem flatMap_concat_eq_intercalate {α β : Type} (mark : α) (f : β → List α) (bs : List β) :
    (bs.flatMap fun b => f b ++ [mark]) = [mark].intercalate (bs.map f ++ [[]]) := by
  induction bs with
  | nil => rfl
  | cons b bs ih =>
    rw [List.flatMap_cons, ih, List.map_cons, List.cons_append,
      List.intercalate_cons_of_ne_nil (by simp)]

theorem toList_addressTable (t : BlockTree Float) :
    (addressTable t).toList = ['\n'].intercalate (t.entries.map line ++ [[]]) := by
  rw [addressTable, String.toList_join, List.flatMap_map, ← flatMap_concat_eq_intercalate]
  refine congrArg (List.flatMap · t.entries) (funext fun e => ?_)
  simp [line, fields, List.intercalate_cons_cons]

variable {e : Entry Float}

theorem unbroken_fields (h : Unbroken e.block.frame.address.describe.toList) :
    ∀ cs ∈ (fields e).map String.toList, Unbroken cs := by
  have hKind : Unbroken (if e.block.isLeaf then "leaf" else "branch").toList := by
    split <;> exact Text.unbroken_of_all rfl
  have hType : Unbroken e.block.frame.type.name.toList := by
    cases e.block.frame.type <;> exact Text.unbroken_of_all rfl
  have hFields : ∀ field ∈ fields e, Unbroken field.toList :=
    List.forall_mem_cons.mpr ⟨Text.unbroken_nat e.id, List.forall_mem_cons.mpr
      ⟨hKind, List.forall_mem_cons.mpr ⟨hType, List.forall_mem_singleton.mpr h⟩⟩⟩
  exact List.forall_mem_map.mpr hFields

theorem splitOn_line (h : Unbroken e.block.frame.address.describe.toList) :
    (line e).splitOn '\t' = (fields e).map String.toList :=
  List.splitOn_intercalate '\t' (fun cs hcs hTab => (unbroken_fields h cs hcs _ hTab).1 rfl)
    (by simp [fields])

/-- A line has tabs between its fields and no break. -/
theorem not_mem_line (h : Unbroken e.block.frame.address.describe.toList) :
    ∀ c ∈ line e, c ≠ '\n' ∧ c ≠ '\r' :=
  forall_mem_intercalate (List.forall_mem_singleton.mpr (by decide))
    fun cs hcs c hc => (unbroken_fields h cs hcs c hc).2

variable {t : BlockTree Float}

theorem splitOn_addressTable
    (h : ∀ e ∈ t.entries, Unbroken e.block.frame.address.describe.toList) :
    (addressTable t).toList.splitOn '\n' = t.entries.map line ++ [[]] := by
  rw [toList_addressTable]
  apply List.splitOn_intercalate '\n' _ (by simp)
  refine List.forall_mem_append.mpr ⟨List.forall_mem_map.mpr fun e he hMem => ?_, by simp⟩
  exact (not_mem_line (h e he) _ hMem).1 rfl

theorem return_not_mem_addressTable
    (h : ∀ e ∈ t.entries, Unbroken e.block.frame.address.describe.toList) :
    '\r' ∉ (addressTable t).toList := by
  have hLines : ∀ cs ∈ t.entries.map line ++ [[]], ∀ c ∈ cs, c ≠ '\r' :=
    List.forall_mem_append.mpr
      ⟨List.forall_mem_map.mpr fun e he c hc => (not_mem_line (h e he) c hc).2, by simp⟩
  rw [toList_addressTable]
  exact fun hMem =>
    forall_mem_intercalate (List.forall_mem_singleton.mpr (by decide)) hLines _ hMem rfl

/-- The command lays out on any host alike that opens the font of the settings as the style does. -/
theorem perform_addresses {m : Type → Type} [Monad m] [LawfulMonad m] (host : Host m)
    {settings : Settings Float} {fonts : Fonts Float} {style : Style Float} {text : String}
    (hFont : ∀ path, settings.measure = .font path → host.font path = pure (fonts.file path))
    (hStyle : settings.style fonts = .ok style) (hTree : style.layOutText text = .ok t) :
    host.perform settings (.addresses text) = pure (addressTable t) := by
  obtain ⟨metrics, width, templates, top, measure⟩ := settings
  cases measure with
  | font path =>
    have hRuler : (fonts.file path).ruler path = .ok style.ruler ∧ metrics = style.metrics := by
      cases hFile : (fonts.file path).ruler path with
      | error e => simp [Settings.style, Measure.ruler, hFile, Except.map] at hStyle
      | ok ruler =>
        rw [Settings.style, Measure.ruler, hFile] at hStyle
        obtain rfl := Except.ok.inj hStyle
        exact ⟨rfl, rfl⟩
    obtain ⟨hRuler, rfl⟩ := hRuler
    simp [Host.perform, Host.layOut, Host.fonts, hFont path rfl, Settings.style, Measure.ruler,
      Except.map, hRuler, orFail, hTree]
  | fixedAdvance em =>
    obtain rfl := Except.ok.inj hStyle
    simp [Host.perform, Host.layOut, Host.fonts, Settings.style, Measure.ruler, Except.map,
      orFail, hTree]

/-- Whatever its literals hold, a text that lays out has nodes and addresses without tabs and line
breaks. The command prints a line for each block, in the order of their numbers, each with the
same four fields. -/
theorem addressTable_safe {style : Style Float} {text : String} {t : BlockTree Float}
    (h : style.layOutText text = .ok t) :
    (∃ n, Node.read text = .ok n ∧ ∀ m, n.Holds m → Unbroken m.canonical.toList) ∧
    (∀ e ∈ t.entries, Unbroken e.block.frame.address.describe.toList) ∧
    (∀ (m : Type → Type) [Monad m] [LawfulMonad m] (host : Host m) (settings : Settings Float)
        (fonts : Fonts Float),
      (∀ path, settings.measure = .font path → host.font path = pure (fonts.file path)) →
      settings.style fonts = .ok style →
      host.perform settings (.addresses text) = pure (addressTable t)) ∧
    t.entries.map (·.id) = List.range t.entries.length ∧
    (addressTable t).toList.splitOn '\n' = t.entries.map line ++ [[]] ∧
    (∀ e ∈ t.entries, (line e).splitOn '\t' = (fields e).map String.toList) ∧
    '\r' ∉ (addressTable t).toList := by
  obtain ⟨n, -, hRead, -, -⟩ := Style.layOutText_inv h
  have hAddresses := Style.unbroken_addresses h
  refine ⟨⟨n, hRead, fun m hm => ?_⟩, hAddresses, fun m _ _ host settings fonts hFont hStyle => ?_,
    BlockTree.map_id_entries t, splitOn_addressTable hAddresses,
    fun e he => splitOn_line (hAddresses e he), return_not_mem_addressTable hAddresses⟩
  · exact Node.unbroken_canonical ((Node.readable_of_read hRead).holds hm)
  · exact perform_addresses host hFont hStyle h

theorem addressTable_safe_call :
    let style : Style Float := ⟨Settings.standardMetrics, .fixedAdvance 1⟩
    ∃ t, style.layOutText "equalText(\"a\tb\", \"\r\n\")" = .ok t ∧ t.entries.length = 3 ∧
      (addressTable t).toList.splitOn '\n' = t.entries.map line ++ [[]] ∧
      '\r' ∉ (addressTable t).toList := by
  intro style
  have hRead : Node.read "equalText(\"a\tb\", \"\r\n\")" =
      .ok (.call "equalText" [.literal (.text "a\tb"), .literal (.text "\r\n")]) := by cbv
  have hLayOut : ∃ t, style.layOutText "equalText(\"a\tb\", \"\r\n\")" = .ok t ∧
      t.entries.length = 3 := by
    rw [Style.layOutText, hRead]
    exact ⟨_, rfl, rfl⟩
  obtain ⟨t, hTree, hLength⟩ := hLayOut
  obtain ⟨-, -, -, -, hLines, -, hReturn⟩ := addressTable_safe hTree
  exact ⟨t, hTree, hLength, hLines, hReturn⟩

end CommandLine

end Blockwork
