import Blockwork.Proofs.Expression.Completeness

/-! # The canonical row of tokens

In a canonical row every operator stands between parentheses. The grammar derives from it the tree
with a group around every operator and no other, so that is the tree it is read as.
-/

set_option autoImplicit false

namespace Blockwork

namespace Reading

section

variable {ks : List TokenKind} {n : Node}

theorem Derives.of_unary (h : Derives .unary ks n) (ls : List Level) :
    Derives (.binary ls) ks n := by
  induction ls with
  | nil => exact .tight h
  | cons level tighter ih => exact .operand ih

theorem Derives.of_primary (h : Derives .primary ks n) (ls : List Level) :
    Derives (.binary ls) ks n :=
  .of_unary (.unsigned (.base h)) ls

/-- An expression of some levels is one of looser levels too. -/
theorem Derives.looser {tighter : List Level} (h : Derives (.binary tighter) ks n)
    (outer : List Level) : Derives (.binary (outer ++ tighter)) ks n := by
  induction outer with
  | nil => exact h
  | cons level outer ih => exact .operand ih

end

theorem exists_level {op : Operator} (hBinary : op.isUnary = false) (hPower : op ≠ .pow) :
    ∃ outer level tighter, levels = outer ++ level :: tighter ∧ level op.kind = some op := by
  cases op
  case or => exact ⟨[], _, _, rfl, rfl⟩
  case xor => exact ⟨levels.take 1, _, _, rfl, rfl⟩
  case and => exact ⟨levels.take 2, _, _, rfl, rfl⟩
  case eq | ne | le | ge | lt | gt => exact ⟨levels.take 3, _, _, rfl, rfl⟩
  case add | sub => exact ⟨levels.take 4, _, _, rfl, rfl⟩
  case mul | div | mod => exact ⟨levels.take 5, _, _, rfl, rfl⟩
  case pow => exact absurd rfl hPower
  case not | neg => exact absurd hBinary (by decide)

theorem literal_kind {v : Literal} (h : v.Readable) :
    (∃ x, v = .number x ∧ v.kind = .number x) ∨ (∃ s, v = .text s ∧ v.kind = .text s) ∨
      ∃ name, v.kind = .ident name ∧ named name = .literal v := by
  cases h with
  | nan => exact .inr (.inr ⟨"NaN", by rw [Literal.kind, if_pos Double.isNaN_nan], rfl⟩)
  | @magnitude word h =>
    rcases Nat.lt_or_eq_of_le h with hFinite | rfl
    · refine .inl ⟨_, rfl, ?_⟩
      rw [Literal.kind, Double.isNaN_ofWord h, Double.isFinite_ofWord hFinite]
      rfl
    · refine .inr (.inr ⟨"Infinity", ?_, ?_⟩)
      · rw [Double.ofWord_top]
        rfl
      · rw [Double.ofWord_top]
        rfl
  | text s => exact .inr (.inl ⟨s, rfl, rfl⟩)
  | truth b =>
    cases b with
    | true => exact .inr (.inr ⟨"true", rfl, rfl⟩)
    | false => exact .inr (.inr ⟨"false", rfl, rfl⟩)
  | null => exact .inr (.inr ⟨"null", rfl, rfl⟩)

theorem derives_unary {op : Operator} {n : Node} (hUnary : op.isUnary = true)
    (h : Derives .primary n.kinds n.regroup) :
    Derives .primary (Node.operator op [n]).kinds (Node.operator op [n]).regroup := by
  have hOperand : Derives .unary n.kinds n.regroup := .unsigned (.base h)
  cases op
  case not => exact .group (.of_unary (.not hOperand) levels)
  case neg => exact .group (.of_unary (.minus hOperand) levels)
  all_goals cases hUnary

theorem derives_binary {op : Operator} {l r : Node} (hBinary : op.isUnary = false)
    (hl : Derives .primary l.kinds l.regroup) (hr : Derives .primary r.kinds r.regroup) :
    Derives .primary (Node.operator op [l, r]).kinds (Node.operator op [l, r]).regroup := by
  have hKinds : (Node.operator op [l, r]).kinds =
      .leftParen :: (l.kinds ++ op.kind :: r.kinds) ++ [.rightParen] := by
    simp [Node.kinds, Node.kindsAll, List.intercalate_cons_cons]
  rw [hKinds]
  refine .group ?_
  by_cases hPower : op = .pow
  · -- the exponent is a unary expression, so this operator stands below all levels
    subst hPower
    exact .of_unary (.unsigned (.power hl (.unsigned (.base hr)))) levels
  · obtain ⟨outer, level, tighter, hLevels, hop⟩ := exists_level hBinary hPower
    rw [hLevels]
    exact .looser (.operator hop (.of_primary hl _) (.of_primary hr _)) outer

theorem derives_call (name : String) {ns : List Node}
    (h : ∀ n ∈ ns, Derives .primary n.kinds n.regroup) :
    Derives .primary (Node.call name ns).kinds (Node.call name ns).regroup := by
  have hOperands : ∀ p ∈ ns.map fun n => (n.kinds, n.regroup),
      Derives (.binary levels) p.1 p.2 := by
    intro p hp
    obtain ⟨n, hn, rfl⟩ := List.mem_map.mp hp
    exact .of_primary (h n hn) levels
  have hCall := Derives.call name hOperands
  simpa [Node.kinds, Node.kindsAll_eq_map, Node.regroup, Node.regroupAll_eq_map,
    Function.comp_def] using hCall

theorem derives_regroup {n : Node} (h : n.Readable) : Derives .primary n.kinds n.regroup := by
  induction h with
  | @symbol name hName hPlain =>
    have hWord := Derives.name name
    rwa [hPlain] at hWord
  | @literal v h =>
    rw [Node.kinds, Node.regroup]
    rcases literal_kind h with ⟨x, rfl, hKind⟩ | ⟨text, rfl, hKind⟩ | ⟨name, hKind, hNamed⟩
    · rw [hKind]
      exact .number x
    · rw [hKind]
      exact .text text
    · rw [hKind, ← hNamed]
      exact .name name
  | unary hUnary _ ih => exact derives_unary hUnary ih
  | binary hBinary _ _ ihl ihr => exact derives_binary hBinary ihl ihr
  | @call name ns _ _ ih => exact derives_call name ih
  | group _ ih => exact ih

theorem complete_kinds {n : Node} (h : n.Readable) {ts : List Token}
    (hts : ts.map Token.kind = n.kinds ++ [.eof]) : complete ts = .ok n.regroup :=
  complete_of_derives (.of_primary (derives_regroup h) levels) hts

end Reading

end Blockwork
