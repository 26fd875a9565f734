import Blockwork.Proofs.Expression.Completeness
import Blockwork.Proofs.Expression.Lexemes

/-! # The strata of expressions

The language of expressions, stratum by stratum and token by token. It is what the levels of the
readers derive, so a text is read as a tree exactly if its row of tokens says that tree, and no row
says two trees.
-/

set_option autoImplicit false

namespace Blockwork

inductive Stratum where
  | disjunction | exclusion | conjunction | comparison | sum | product | unary | power | primary

namespace Stratum

def next : Stratum → Option Stratum
  | .disjunction => some .exclusion
  | .exclusion => some .conjunction
  | .conjunction => some .comparison
  | .comparison => some .sum
  | .sum => some .product
  | .product => some .unary
  | .unary => some .power
  | .power => some .primary
  | .primary => none

inductive Joins : Stratum → TokenKind → Operator → Prop where
  | or : Joins .disjunction .or .or
  | xor : Joins .exclusion .xor .xor
  | and : Joins .conjunction .and .and
  | equal : Joins .comparison .equal .eq
  | notEqual : Joins .comparison .notEqual .ne
  | less : Joins .comparison .less .lt
  | lessEqual : Joins .comparison .lessEqual .le
  | greater : Joins .comparison .greater .gt
  | greaterEqual : Joins .comparison .greaterEqual .ge
  | plus : Joins .sum .plus .add
  | minus : Joins .sum .minus .sub
  | star : Joins .product .star .mul
  | slash : Joins .product .slash .div
  | percent : Joins .product .percent .mod

end Stratum

inductive Names : String → Node → Prop where
  | true : Names "true" (.literal (.truth true))
  | false : Names "false" (.literal (.truth false))
  | nan : Names "NaN" (.literal (.number (0.0 / 0.0)))
  | infinity : Names "Infinity" (.literal (.number (1.0 / 0.0)))
  | null : Names "null" (.literal .null)
  | symbol {name : String} (h : name ∉ ["true", "false", "NaN", "Infinity", "null"]) :
      Names name (.symbol name)

/-- A row of tokens says a tree, as an expression of a stratum. -/
inductive Phrase : Stratum → List TokenKind → Node → Prop where
  | operand {s t : Stratum} {ks : List TokenKind} {n : Node} (hNext : s.next = some t)
      (h : Phrase t ks n) : Phrase s ks n
  | join {s t : Stratum} {k : TokenKind} {op : Operator} {ls rs : List TokenKind} {l r : Node}
      (hNext : s.next = some t) (hop : s.Joins k op) (hl : Phrase s ls l) (hr : Phrase t rs r) :
      Phrase s (ls ++ k :: rs) (.operator op [l, r])
  | minus {ks : List TokenKind} {n : Node} (h : Phrase .unary ks n) :
      Phrase .unary (.minus :: ks) (.operator .neg [n])
  | plus {ks : List TokenKind} {n : Node} (h : Phrase .unary ks n) : Phrase .unary (.plus :: ks) n
  | not {ks : List TokenKind} {n : Node} (h : Phrase .unary ks n) :
      Phrase .unary (.not :: ks) (.operator .not [n])
  | power {ls rs : List TokenKind} {l r : Node} (hl : Phrase .primary ls l)
      (hr : Phrase .unary rs r) : Phrase .power (ls ++ .caret :: rs) (.operator .pow [l, r])
  | number (x : Float) : Phrase .primary [.number x] (.literal (.number x))
  | text (s : String) : Phrase .primary [.text s] (.literal (.text s))
  | word {name : String} {n : Node} (h : Names name n) : Phrase .primary [.ident name] n
  | call (name : String) {operands : List (List TokenKind × Node)}
      (h : ∀ p ∈ operands, Phrase .disjunction p.1 p.2) :
      Phrase .primary
        (.ident name :: .leftParen :: [TokenKind.comma].intercalate (operands.map (·.1)) ++
          [.rightParen])
        (.call name (operands.map (·.2)))
  | group {ks : List TokenKind} {n : Node} (h : Phrase .disjunction ks n) :
      Phrase .primary (.leftParen :: ks ++ [.rightParen]) (.group n)

namespace Reading

theorem names_iff {name : String} {n : Node} : Names name n ↔ named name = n := by
  constructor
  · rintro (_ | _ | _ | _ | _ | h)
    case symbol =>
      simp only [List.mem_cons, List.not_mem_nil, or_false, not_or] at h
      simp [named, h]
    all_goals rfl
  · rintro rfl
    unfold named
    split
    · rename_i h
      exact h ▸ .true
    split
    · rename_i h
      exact h ▸ .false
    split
    · rename_i h
      exact h ▸ .nan
    split
    · rename_i h
      exact h ▸ .infinity
    split
    · rename_i h
      exact h ▸ .null
    · exact .symbol (by simp [*])

def category : Stratum → Category
  | .disjunction => .binary levels
  | .exclusion => .binary (levels.drop 1)
  | .conjunction => .binary (levels.drop 2)
  | .comparison => .binary (levels.drop 3)
  | .sum => .binary (levels.drop 4)
  | .product => .binary (levels.drop 5)
  | .unary => .unary
  | .power => .power
  | .primary => .primary

theorem nested_category (s : Stratum) : (category s).Nested := by
  cases s
  case unary | power | primary => trivial
  case disjunction => exact List.suffix_refl levels
  all_goals exact List.drop_suffix _ levels

theorem Derives.operand_of_next {s t : Stratum} (hNext : s.next = some t) {ks : List TokenKind}
    {n : Node} (h : Derives (category t) ks n) : Derives (category s) ks n := by
  cases s <;> cases hNext
  case product => exact .operand (.tight h)
  case unary => exact .unsigned h
  case power => exact .base h
  all_goals exact .operand h

theorem Derives.join {s t : Stratum} (hNext : s.next = some t) {k : TokenKind} {op : Operator}
    (hop : s.Joins k op) {ls rs : List TokenKind} {l r : Node} (hl : Derives (category s) ls l)
    (hr : Derives (category t) rs r) :
    Derives (category s) (ls ++ k :: rs) (.operator op [l, r]) := by
  cases hop <;> cases hNext
  case star | slash | percent => exact .operator rfl hl (.tight hr)
  all_goals exact .operator rfl hl hr

theorem derives_of_phrase {s : Stratum} {ks : List TokenKind} {n : Node} (h : Phrase s ks n) :
    Derives (category s) ks n := by
  induction h with
  | operand hNext _ ih => exact .operand_of_next hNext ih
  | join hNext hop _ _ ihl ihr => exact .join hNext hop ihl ihr
  | minus _ ih => exact .minus ih
  | plus _ ih => exact .plus ih
  | not _ ih => exact .not ih
  | power _ _ ihl ihr => exact .power ihl ihr
  | number x => exact .number x
  | text s => exact .text s
  | @word name n h =>
    obtain rfl := names_iff.mp h
    exact .name name
  | call name _ ih => exact .call name ih
  | group _ ih => exact .group ih

def Category.stratum : Category → Stratum
  | .binary [] => .unary
  | .binary [_] => .product
  | .binary [_, _] => .sum
  | .binary [_, _, _] => .comparison
  | .binary [_, _, _, _] => .conjunction
  | .binary [_, _, _, _, _] => .exclusion
  | .binary _ => .disjunction
  | .unary => .unary
  | .power => .power
  | .primary => .primary

/-- A level of the readers and the tighter ones are a stratum and the next. -/
theorem stratum_of_nested {level : Level} {tighter : List Level}
    (h : level :: tighter <:+ levels) :
    (Category.binary (level :: tighter)).stratum.next = some (Category.binary tighter).stratum ∧
      ∀ k op, level k = some op → (Category.binary (level :: tighter)).stratum.Joins k op := by
  simp only [levels, List.suffix_cons_iff, List.cons.injEq, List.suffix_nil, reduceCtorEq,
    or_false] at h
  rcases h with ⟨rfl, rfl⟩ | ⟨rfl, rfl⟩ | ⟨rfl, rfl⟩ | ⟨rfl, rfl⟩ | ⟨rfl, rfl⟩ | ⟨rfl, rfl⟩
  all_goals
    refine ⟨rfl, ?_⟩
    intro k op hop
    cases k <;> cases hop <;> constructor

theorem phrase_of_derives {c : Category} {ks : List TokenKind} {n : Node} (h : Derives c ks n)
    (hc : c.Nested) : Phrase c.stratum ks n := by
  have hLevels : (Category.binary levels).Nested := List.suffix_refl levels
  induction h with
  | tight _ ih => exact ih trivial
  | operand _ ih =>
    exact .operand (stratum_of_nested hc).1 (ih ((List.suffix_cons _ _).trans hc))
  | operator hop _ _ ihl ihr =>
    obtain ⟨hNext, hJoins⟩ := stratum_of_nested hc
    exact .join hNext (hJoins _ _ hop) (ihl hc) (ihr ((List.suffix_cons _ _).trans hc))
  | minus _ ih => exact .minus (ih trivial)
  | plus _ ih => exact .plus (ih trivial)
  | not _ ih => exact .not (ih trivial)
  | unsigned _ ih | base _ ih => exact .operand rfl (ih trivial)
  | power _ _ ihl ihr => exact .power (ihl trivial) (ihr trivial)
  | number x => exact .number x
  | text s => exact .text s
  | name name => exact .word (names_iff.mpr rfl)
  | call name _ ih => exact .call name fun p hp => ih p hp hLevels
  | group _ ih => exact .group (ih hLevels)

theorem derives_iff_phrase {ks : List TokenKind} {n : Node} :
    Derives (.binary levels) ks n ↔ Phrase .disjunction ks n :=
  ⟨fun h => phrase_of_derives h (List.suffix_refl levels), derives_of_phrase⟩

theorem Category.Nested.ends_eof {c : Category} (h : c.Nested) : c.Ends .eof := by
  cases c with
  | binary ls => exact stops_eof.of_suffix h
  | unary | power => exact stops_eof.of_suffix List.nil_suffix
  | primary => nofun

theorem phrase_unique {s : Stratum} {ks : List TokenKind} {n m : Node} (hn : Phrase s ks n)
    (hm : Phrase s ks m) : n = m := by
  let row : List Token := ks.map (⟨·, 0, 0⟩)
  have hNested := nested_category s
  -- The readers are functions, so two trees of one row are one answer.
  have hRow : row.map Token.kind = ks := by simp [row, Function.comp_def]
  have hReads {n : Node} (h : Phrase s ks n) :
      Gives ((category s).read (row ++ [⟨.eof, 0, 0⟩])) n [⟨.eof, 0, 0⟩] :=
    ((derives_of_phrase h).reads hNested).gives [] hRow hNested.ends_eof
  exact (hReads hn).unique (hReads hm)

end Reading

/-- A text that scans is read as a tree exactly if it is not blank and its row of tokens says the
tree, and no row of tokens says two trees. -/
theorem Node.read_iff_phrase {s : String} {ts : List Token}
    (h : Scan.tokens 0 (Text.trim s.toList) = .ok ts) :
    (∀ n, Node.read s = .ok n ↔ Text.trim s.toList ≠ [] ∧
      ∃ ks, ts.map Token.kind = ks ++ [.eof] ∧ Phrase .disjunction ks n) ∧
    ∀ stratum ks n m, Phrase stratum ks n → Phrase stratum ks m → n = m := by
  obtain ⟨row, last, rfl, hLast, hRow⟩ := Scan.tokens_readable h
  have hKinds : (row ++ [last]).map Token.kind = row.map Token.kind ++ [.eof] := by simp [hLast]
  have hComplete (n : Node) : Reading.complete (row ++ [last]) = .ok n ↔
      Phrase .disjunction (row.map Token.kind) n :=
    (Reading.complete_iff_derives hLast fun t ht => (hRow t ht).2).trans
      Reading.derives_iff_phrase
  refine ⟨fun n => ?_, fun _ _ _ _ => Reading.phrase_unique⟩
  unfold Node.read
  split
  · rename_i hBlank
    simp [hBlank]
  · rename_i hBlank
    simp only [h, hComplete, hKinds, List.append_left_inj, exists_eq_left']
    exact ⟨fun hn => ⟨hBlank, hn⟩, And.right⟩

theorem Node.read_iff_phrase_signs : Node.read " not a - b ^ -c" = .ok (.operator .sub [
    .operator .not [.symbol "a"],
    .operator .pow [.symbol "b", .operator .neg [.symbol "c"]]]) := by
  have hTokens : Scan.tokens 0 (Text.trim " not a - b ^ -c".toList) = .ok [
      ⟨.not, 0, 3⟩, ⟨.ident "a", 4, 5⟩, ⟨.minus, 6, 7⟩, ⟨.ident "b", 8, 9⟩, ⟨.caret, 10, 11⟩,
      ⟨.minus, 12, 13⟩, ⟨.ident "c", 13, 14⟩, ⟨.eof, 14, 14⟩] := by cbv
  have hWord (name : String) (h : name ∉ ["true", "false", "NaN", "Infinity", "null"]) :
      Phrase .primary [.ident name] (.symbol name) := .word (.symbol h)
  have hUnary {ks : List TokenKind} {n : Node} (h : Phrase .primary ks n) : Phrase .unary ks n :=
    .operand rfl (.operand rfl h)
  have hNot := Phrase.not (hUnary (hWord "a" (by decide)))
  have hMinus := Phrase.minus (hUnary (hWord "c" (by decide)))
  have hPower := Phrase.power (hWord "b" (by decide)) hMinus
  have hSum : Phrase .sum _ _ :=
    .join rfl .minus (.operand rfl (.operand rfl hNot)) (.operand rfl (.operand rfl hPower))
  have hWhole : Phrase .disjunction _ _ :=
    .operand rfl (.operand rfl (.operand rfl (.operand rfl hSum)))
  exact ((Node.read_iff_phrase hTokens).1 _).mpr ⟨by decide, _, rfl, hWhole⟩

end Blockwork
