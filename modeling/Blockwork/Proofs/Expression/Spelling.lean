import Blockwork.Proofs.Expression.Lexemes

/-! # Scanning a canonical text

The canonical text of a readable tree is scanned to the tree's row of token kinds. Behind a word or
a number there stands a mark or a blank, and behind an order sign there stands an operand, so no
two lexemes run together.
-/

set_option autoImplicit false

namespace Blockwork

namespace Scan

theorem apart_cons {c : Char} (hPart : isWordPart c = false) (hPoint : c ≠ '.') (cs : List Char) :
    Apart (c :: cs) := by
  intro d hd
  obtain rfl := Option.some.inj hd
  exact ⟨hPart, hPoint⟩

theorem apart_blank (cs : List Char) : Apart (' ' :: cs) := apart_cons rfl (by decide) cs

theorem apart_close (cs : List Char) : Apart (')' :: cs) := apart_cons rfl (by decide) cs

theorem apart_comma (cs : List Char) : Apart (',' :: cs) := apart_cons rfl (by decide) cs

section

variable {rest : List Char} {ks : List TokenKind}

theorem Scans.mark {c : Char} {k : TokenKind} (h : markKind c = some k)
    (hPair : ∀ d ∈ rest.head?, pairKind c d = none) (hRest : Scans rest ks) :
    Scans (c :: rest) (k :: ks) :=
  .lexeme (.mark h hPair) hRest

theorem Scans.open (hRest : Scans rest ks) : Scans ('(' :: rest) (.leftParen :: ks) :=
  hRest.mark rfl fun _ _ => rfl

theorem Scans.close (hRest : Scans rest ks) : Scans (')' :: rest) (.rightParen :: ks) :=
  hRest.mark rfl fun _ _ => rfl

theorem Scans.word {name : String} (hWord : IsWord name) (hApart : Apart rest)
    (hRest : Scans rest ks) : Scans (name.toList ++ rest) (wordKind name :: ks) := by
  obtain ⟨c, cs, hName, hc, hcs⟩ := hWord
  rw [← @String.ofList_toList name, String.toList_ofList, hName]
  exact .lexeme (.word hc hcs hApart) hRest

theorem Scans.name {name : String} (h : IsName name) (hApart : Apart rest)
    (hRest : Scans rest ks) : Scans (name.toList ++ rest) (.ident name :: ks) := by
  rw [← h.kind]
  exact hRest.word h.word hApart

end

end Scan

def Operator.gap (op : Operator) : List Char :=
  if op.isWord then ' ' :: op.symbol.toList ++ [' '] else op.symbol.toList

def Operator.sign (op : Operator) : List Char :=
  if op.isWord then op.symbol.toList ++ [' '] else op.symbol.toList

namespace Node

theorem toList_canonical_unary (op : Operator) (n : Node) :
    (Node.operator op [n]).canonical.toList =
      '(' :: (op.sign ++ (n.canonical.toList ++ [')'])) := by
  cases h : op.isWord <;> simp [canonical, canonicals, Operator.sign, h]

theorem toList_canonical_binary (op : Operator) (l r : Node) :
    (Node.operator op [l, r]).canonical.toList =
      '(' :: (l.canonical.toList ++ (op.gap ++ (r.canonical.toList ++ [')']))) := by
  cases h : op.isWord <;>
    simp [canonical, canonicals, Operator.gap, h]

theorem toList_canonical_call (name : String) (ns : List Node) :
    (Node.call name ns).canonical.toList =
      name.toList ++ '(' :: ([',', ' '].intercalate (ns.map (·.canonical.toList)) ++ [')']) := by
  simp [canonical, canonicals_eq_map, String.toList_intercalate, Function.comp_def]

end Node

namespace Scan

section

variable {op : Operator} {rest : List Char} {ks : List TokenKind}

theorem isWord_symbol (h : op.isWord = true) :
    IsWord op.symbol ∧ wordKind op.symbol = op.kind := by
  cases op
  case and => exact ⟨⟨'a', ['n', 'd'], rfl, rfl, List.all_eq_true.mp rfl⟩, rfl⟩
  case or => exact ⟨⟨'o', ['r'], rfl, rfl, List.all_eq_true.mp rfl⟩, rfl⟩
  case xor => exact ⟨⟨'x', ['o', 'r'], rfl, rfl, List.all_eq_true.mp rfl⟩, rfl⟩
  case not => exact ⟨⟨'n', ['o', 't'], rfl, rfl, List.all_eq_true.mp rfl⟩, rfl⟩
  all_goals cases h

theorem Scans.symbol (hWord : op.isWord = true) (h : Scans rest ks) :
    Scans (op.symbol.toList ++ ' ' :: rest) (op.kind :: ks) := by
  obtain ⟨hSymbol, hKind⟩ := isWord_symbol hWord
  rw [← hKind]
  exact .word hSymbol (apart_blank rest) (.blank rfl h)

theorem pairKind_eq_none {c d : Char} (h : d ≠ '=') : pairKind c d = none := by
  unfold pairKind
  split
  all_goals first | rfl | exact absurd rfl h

theorem apart_gap (hBinary : op.isUnary = false) (rest : List Char) : Apart (op.gap ++ rest) := by
  cases op
  case not | neg => cases hBinary
  all_goals exact apart_cons rfl (by decide) _

theorem Scans.gap (hBinary : op.isUnary = false) (hEqual : ∀ c ∈ rest.head?, c ≠ '=')
    (h : Scans rest ks) : Scans (op.gap ++ rest) (op.kind :: ks) := by
  cases hWord : op.isWord with
  | true =>
    rw [Operator.gap, if_pos hWord, List.append_assoc]
    exact .blank rfl (.symbol hWord h)
  | false =>
    cases op
    case add | sub | mul | div | mod | pow | lt | gt =>
      exact h.mark rfl fun d hd => pairKind_eq_none (hEqual d hd)
    case le | ge | eq | ne => exact .lexeme (.pair rfl) h
    case neg => cases hBinary
    case and | or | xor | not => cases hWord

theorem Scans.sign (hUnary : op.isUnary = true) (h : Scans rest ks) :
    Scans (op.sign ++ rest) (op.kind :: ks) := by
  cases hWord : op.isWord with
  | true =>
    rw [Operator.sign, if_pos hWord, List.append_assoc]
    exact .symbol hWord h
  | false =>
    cases op
    case not => cases hWord
    case neg => exact h.mark rfl fun _ _ => rfl
    all_goals cases hUnary

end

def Edge (c : Char) : Prop :=
  c = '(' ∨ c = ')' ∨ c = '"' ∨ isWordPart c = true

structure Edged (text : List Char) : Prop where
  head : ∃ c cs, text = c :: cs ∧ Edge c
  last : ∃ cs c, text = cs ++ [c] ∧ Edge c

theorem edged_of_ends {c d : Char} {cs : List Char} (hc : Edge c) (hd : Edge d) :
    Edged (c :: cs ++ [d]) :=
  ⟨⟨c, cs ++ [d], rfl, hc⟩, ⟨c :: cs, d, rfl, hd⟩⟩

theorem edged_of_parts {text : List Char} (hne : text ≠ []) (h : ∀ c ∈ text, isWordPart c = true) :
    Edged text := by
  refine ⟨?_, ?_⟩
  · obtain ⟨c, cs, rfl⟩ := List.exists_cons_of_ne_nil hne
    exact ⟨c, cs, rfl, .inr (.inr (.inr (h c List.mem_cons_self)))⟩
  · obtain ⟨cs, c, rfl⟩ := List.eq_nil_or_concat text |>.resolve_left hne
    exact ⟨cs, c, by simp, .inr (.inr (.inr (h c (by simp))))⟩

theorem edged_word {name : String} (h : IsWord name) : Edged name.toList := by
  obtain ⟨c, cs, hName, hc, hcs⟩ := h
  rw [hName]
  apply edged_of_parts (by simp)
  intro a ha
  rcases List.mem_cons.mp ha with rfl | ha
  · exact isWordPart_iff.mpr (.inl hc)
  · exact hcs a ha

theorem edged_append {text more : List Char} (h : Edged text) (hMore : Edged more)
    (between : List Char) : Edged (text ++ between ++ more) := by
  obtain ⟨c, cs, rfl, hc⟩ := h.head
  obtain ⟨ds, d, rfl, hd⟩ := hMore.last
  exact ⟨⟨c, _, rfl, hc⟩, ⟨c :: cs ++ between ++ ds, d, by simp, hd⟩⟩

theorem edged_spelled {whole digits : List Char} (hNonempty : whole ≠ [])
    (hWhole : ∀ c ∈ whole, c.isDigit = true) (hDigits : ∀ c ∈ digits, c.isDigit = true) :
    Edged (Decimal.spelled whole digits) := by
  have hHead : Edged whole :=
    edged_of_parts hNonempty fun c hc => isWordPart_of_isDigit (hWhole c hc)
  cases digits with
  | nil => exact hHead
  | cons d ds =>
    have hTail : Edged (d :: ds) :=
      edged_of_parts (by simp) fun c hc => isWordPart_of_isDigit (hDigits c hc)
    simpa [Decimal.spelled] using edged_append hHead hTail ['.']

theorem literal_canonical {v : Literal} (h : v.Readable) :
    (∃ word < Double.top, v = .number (Double.ofWord word) ∧
      v.canonical = NumeralStyle.plain.write (Double.ofWord word) ∧
      v.kind = .number (Double.ofWord word)) ∨
    (∃ s, v = .text s) ∨
    IsName v.canonical ∧ v.kind = .ident v.canonical := by
  have hNan : IsName "NaN" := ⟨⟨'N', ['a', 'N'], rfl, rfl, List.all_eq_true.mp rfl⟩, rfl⟩
  have hInfinity : IsName "Infinity" :=
    ⟨⟨'I', ['n', 'f', 'i', 'n', 'i', 't', 'y'], rfl, rfl, List.all_eq_true.mp rfl⟩, rfl⟩
  have hTrue : IsName "true" := ⟨⟨'t', ['r', 'u', 'e'], rfl, rfl, List.all_eq_true.mp rfl⟩, rfl⟩
  have hFalse : IsName "false" :=
    ⟨⟨'f', ['a', 'l', 's', 'e'], rfl, rfl, List.all_eq_true.mp rfl⟩, rfl⟩
  have hNull : IsName "null" := ⟨⟨'n', ['u', 'l', 'l'], rfl, rfl, List.all_eq_true.mp rfl⟩, rfl⟩
  cases h with
  | nan =>
    have hCanonical : Literal.canonical (.number (0.0 / 0.0)) = "NaN" := by
      rw [Literal.canonical, if_pos Double.isNaN_nan]
    rw [hCanonical, Literal.kind, if_pos Double.isNaN_nan]
    exact .inr (.inr ⟨hNan, rfl⟩)
  | @magnitude word h =>
    rcases Nat.lt_or_eq_of_le h with hFinite | rfl
    · refine .inl ⟨word, hFinite, rfl, ?_, ?_⟩
      · rw [Literal.canonical, Double.isNaN_ofWord h, Double.isFinite_ofWord hFinite]
        rfl
      · rw [Literal.kind, Double.isNaN_ofWord h, Double.isFinite_ofWord hFinite]
        rfl
    · rw [Double.ofWord_top]
      exact .inr (.inr ⟨hInfinity, rfl⟩)
  | text s => exact .inr (.inl ⟨s, rfl⟩)
  | truth b =>
    cases b with
    | true => exact .inr (.inr ⟨hTrue, rfl⟩)
    | false => exact .inr (.inr ⟨hFalse, rfl⟩)
  | null => exact .inr (.inr ⟨hNull, rfl⟩)

theorem edged_literal {v : Literal} (h : v.Readable) : Edged v.canonical.toList := by
  rcases literal_canonical h with ⟨word, hFinite, rfl, hCanonical, -⟩ | ⟨s, rfl⟩ | ⟨hName, -⟩
  · obtain ⟨whole, digits, hNonempty, hWhole, hDigits, hText, -⟩ := exists_spelled_write hFinite
    rw [hCanonical, hText]
    exact edged_spelled hNonempty hWhole hDigits
  · rw [Literal.canonical, toList_literal]
    exact edged_of_ends (.inr (.inr (.inl rfl))) (.inr (.inr (.inl rfl)))
  · exact edged_word hName.word

theorem edged_canonical {n : Node} (h : n.Readable) : Edged n.canonical.toList := by
  have hOpen : Edge '(' := .inl rfl
  have hClose : Edge ')' := .inr (.inl rfl)
  induction h with
  | symbol hName hPlain => exact edged_word hName.word
  | literal h => exact edged_literal h
  | @unary op n =>
    rw [Node.toList_canonical_unary, ← List.append_assoc]
    exact edged_of_ends hOpen hClose
  | @binary op l r =>
    rw [Node.toList_canonical_binary, ← List.append_assoc, ← List.append_assoc]
    exact edged_of_ends hOpen hClose
  | call hName =>
    rw [Node.toList_canonical_call, ← List.cons_append, ← List.append_assoc]
    obtain ⟨c, cs, hText, hc⟩ := (edged_word hName.word).head
    rw [hText]
    exact edged_of_ends hc hClose
  | group _ ih => exact ih

theorem scans_literal {v : Literal} (h : v.Readable) {rest : List Char} {ks : List TokenKind}
    (hApart : Apart rest) (hRest : Scans rest ks) :
    Scans (v.canonical.toList ++ rest) (v.kind :: ks) := by
  rcases literal_canonical h with ⟨word, hFinite, rfl, hCanonical, hKind⟩ | ⟨s, rfl⟩ |
    ⟨hName, hKind⟩
  · rw [hCanonical, hKind]
    exact .lexeme (.number hFinite hApart) hRest
  · exact .lexeme (.text s rest) hRest
  · rw [hKind]
    exact hRest.name hName hApart

/-- The canonical text of a tree, with a text behind it that stays apart. -/
def ScansCanonical (n : Node) : Prop :=
  ∀ {rest : List Char} {ks : List TokenKind}, Apart rest → Scans rest ks →
    Scans (n.canonical.toList ++ rest) (n.kinds ++ ks)

theorem scans_arguments {ns : List Node} (hns : ∀ n ∈ ns, ScansCanonical n) {rest : List Char}
    {ks : List TokenKind} (hApart : Apart rest) (hRest : Scans rest ks) :
    Scans ([',', ' '].intercalate (ns.map (·.canonical.toList)) ++ rest)
      ([TokenKind.comma].intercalate (ns.map Node.kinds) ++ ks) := by
  induction ns with
  | nil => exact hRest
  | cons n ns ih =>
    have hHead : ScansCanonical n := hns n List.mem_cons_self
    cases ns with
    | nil => simpa using hHead hApart hRest
    | cons m ns =>
      have hLater := ih fun x hx => hns x (List.mem_cons_of_mem _ hx)
      have hBehind := Scans.blank (b := ' ') rfl hLater
      have hComma := hHead (apart_comma _) (hBehind.mark rfl fun _ _ => rfl)
      simpa [List.intercalate_cons_cons] using hComma

theorem scansCanonical {n : Node} (h : n.Readable) : ScansCanonical n := by
  induction h with
  | symbol hName hPlain => exact fun hApart hRest => hRest.name hName hApart
  | literal h => exact fun hApart hRest => scans_literal h hApart hRest
  | @unary op n hUnary h ih =>
    intro rest ks hApart hRest
    have hInside := ((ih (apart_close rest) hRest.close).sign hUnary).open
    simpa [Node.toList_canonical_unary, Node.kinds, Node.kindsAll] using hInside
  | @binary op l r hBinary hl hr ihl ihr =>
    intro rest ks hApart hRest
    have hEqual : ∀ c ∈ (r.canonical.toList ++ ')' :: rest).head?, c ≠ '=' := by
      obtain ⟨c, cs, hText, hc⟩ := (edged_canonical hr).head
      rw [hText]
      intro d hd
      obtain rfl := Option.some.inj hd
      rintro rfl
      exact absurd hc (by simp [Edge]; decide)
    have hRight := (ihr (apart_close rest) hRest.close).gap hBinary hEqual
    have hInside := (ihl (apart_gap hBinary _) hRight).open
    simpa [Node.toList_canonical_binary, Node.kinds, Node.kindsAll,
      List.intercalate_cons_cons] using hInside
  | @call name ns hName h ih =>
    intro rest ks hApart hRest
    have hArguments := (scans_arguments ih (apart_close rest) hRest.close).open
    have hWhole := hArguments.name hName (apart_cons rfl (by decide) _)
    simpa [Node.toList_canonical_call, Node.kinds, Node.kindsAll_eq_map] using hWhole
  | group _ ih => exact ih

end Scan

end Blockwork
