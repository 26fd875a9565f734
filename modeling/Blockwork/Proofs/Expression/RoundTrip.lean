import Blockwork.Proofs.Expression.Regrouping
import Blockwork.Proofs.Expression.Spelling

/-! # Canonical texts read back

Every tree that was read from a text is readable, and the canonical text of a readable tree is read
as the same tree up to groups. So canonical texts stand for trees without groups.
-/

set_option autoImplicit false

namespace Blockwork

namespace Text

theorem dropWhileEnd_concat {α : Type} {p : α → Bool} {a : α} (h : p a = false) (as : List α) :
    dropWhileEnd p (as ++ [a]) = as ++ [a] := by
  induction as with
  | nil => simp [dropWhileEnd, h]
  | cons b bs ih =>
    rw [List.cons_append, dropWhileEnd, ih]
    cases bs <;> rfl

theorem isWhiteSpace_of_edge {c : Char} (h : Scan.Edge c) : isWhiteSpace c = false := by
  rcases h with rfl | rfl | rfl | h
  · rfl
  · rfl
  · rfl
  · exact Scan.isWhiteSpace_of_isWordPart h

theorem trim_edged {text : List Char} (h : Scan.Edged text) : trim text = text := by
  obtain ⟨c, cs, hHead, hc⟩ := h.head
  obtain ⟨ds, d, hLast, hd⟩ := h.last
  have hFront : text.dropWhile isWhiteSpace = text := by
    rw [hHead, List.dropWhile_cons_of_neg (by simp [isWhiteSpace_of_edge hc])]
  rw [trim, hFront, hLast]
  exact dropWhileEnd_concat (isWhiteSpace_of_edge hd) ds

end Text

namespace Node

theorem readable_of_read {s : String} {n : Node} (h : read s = .ok n) : n.Readable := by
  rw [read] at h
  split at h
  · cases h
  · split at h
    · cases h
    · rename_i ts hTokens
      obtain ⟨row, last, rfl, hLast, hRow⟩ := Scan.tokens_readable hTokens
      have hDerives := (Reading.complete_iff_derives hLast fun t ht => (hRow t ht).2).mp h
      refine hDerives.readable (fun _ h => h) fun k hk => ?_
      obtain ⟨t, ht, rfl⟩ := List.mem_map.mp hk
      exact (hRow t ht).1

/-- The canonical text of a readable tree is read as the tree with a group around every operator
and no other. -/
theorem read_canonical {n : Node} (h : n.Readable) : read n.canonical = .ok n.regroup := by
  have hEdged := Scan.edged_canonical h
  have hScans := @Scan.scansCanonical n h [] _ (by simp [Scan.Apart]) .nil
  rw [List.append_nil] at hScans
  obtain ⟨ts, hTokens, hKinds⟩ := hScans 0
  obtain ⟨c, cs, hText, -⟩ := hEdged.head
  rw [read, Text.trim_edged hEdged]
  split
  · rename_i hNil
    rw [hText] at hNil
    cases hNil
  · rw [hTokens]
    exact Reading.complete_kinds h hKinds

theorem Readable.ungroup {n : Node} (h : n.Readable) : n.ungroup.Readable := by
  induction h with
  | symbol hName hPlain => exact .symbol hName hPlain
  | literal h => exact .literal h
  | unary hUnary _ ih => exact .unary hUnary ih
  | binary hBinary _ _ ihl ihr => exact .binary hBinary ihl ihr
  | call hName _ ih =>
    rw [Node.ungroup, ungroupAll_eq_map]
    refine .call hName fun m hm => ?_
    obtain ⟨n, hn, rfl⟩ := List.mem_map.mp hm
    exact ih n hn
  | group _ ih => exact ih

end Node

theorem Literal.same_iff {v w : Literal} (hv : v.Readable) (hw : w.Readable) :
    v.same w = true ↔ v = w := by
  have hApart : ∀ {word : Nat}, word ≤ Double.top → Double.ofWord word ≠ 0.0 / 0.0 := by
    intro word hWord hEqual
    have hNaN := Double.isNaN_ofWord hWord
    rw [hEqual, Double.isNaN_nan] at hNaN
    cases hNaN
  cases hv with
  | nan =>
    cases hw with
    | nan => simp only [same, Double.isNaN_nan, Bool.and_self, Bool.or_true]
    | magnitude hw =>
      simp only [same, Double.nan_beq, Double.isNaN_ofWord hw, Bool.and_false, Bool.or_false,
        Bool.false_eq_true, number.injEq, (hApart hw).symm]
    | _ => simp [same]
  | @magnitude v hv =>
    cases hw with
    | nan =>
      simp only [same, Double.beq_nan, Double.isNaN_ofWord hv, Bool.false_and, Bool.or_false,
        Bool.false_eq_true, number.injEq, hApart hv]
    | @magnitude w hw =>
      have hWords : Double.ofWord v = Double.ofWord w ↔ v = w :=
        ⟨fun h => (Double.beq_ofWord_iff hv hw).mp (by rw [h, Double.beq_ofWord_iff hw hw]),
          congrArg _⟩
      simp only [same, Double.isNaN_ofWord hv, Bool.false_and, Bool.or_false, number.injEq,
        Double.beq_ofWord_iff hv hw, hWords]
    | _ => simp [same]
  | _ => cases hw <;> simp [same]

namespace Node

theorem Readable.of_literal {v : Literal} (h : (Node.literal v).Readable) : v.Readable := by
  cases h
  assumption

theorem Readable.of_operator {op : Operator} {ns : List Node} (h : (Node.operator op ns).Readable) :
    ∀ n ∈ ns, n.Readable := by
  cases h with
  | unary _ h => simpa using h
  | binary _ hl hr => simpa using ⟨hl, hr⟩

theorem Readable.of_call {name : String} {ns : List Node} (h : (Node.call name ns).Readable) :
    ∀ n ∈ ns, n.Readable := by
  cases h
  assumption

theorem Readable.operand {n m : Node} (h : n.Readable) (hm : m ∈ n.operands) : m.Readable := by
  cases n with
  | operator op ns => exact h.of_operator m hm
  | call name ns => exact h.of_call m hm
  | _ => cases hm

theorem Readable.of_group {n : Node} (h : (Node.group n).Readable) : n.Readable := by
  cases h
  assumption

mutual

theorem same_iff : (n m : Node) → n.Readable → m.Readable → (n.same m = true ↔ n = m)
  | .symbol a, m, _, _ => by cases m <;> simp [same]
  | .literal v, m, hn, hm => by
    cases m with
    | literal w => rw [same, Literal.same_iff hn.of_literal hm.of_literal, literal.injEq]
    | _ => simp [same]
  | .operator op ns, m, hn, hm => by
    cases m with
    | operator o ms =>
      rw [same, Bool.and_eq_true, decide_eq_true_iff, operator.injEq,
        sameAll_iff ns ms hn.of_operator hm.of_operator]
    | _ => simp [same]
  | .call name ns, m, hn, hm => by
    cases m with
    | call other ms =>
      rw [same, Bool.and_eq_true, decide_eq_true_iff, call.injEq,
        sameAll_iff ns ms hn.of_call hm.of_call]
    | _ => simp [same]
  | .group n, m, hn, hm => by
    cases m with
    | group m => rw [same, same_iff n m hn.of_group hm.of_group, group.injEq]
    | _ => simp [same]

theorem sameAll_iff : (ns ms : List Node) → (∀ n ∈ ns, n.Readable) → (∀ m ∈ ms, m.Readable) →
    (sameAll ns ms = true ↔ ns = ms)
  | [], ms, _, _ => by cases ms <;> simp [sameAll]
  | n :: ns, ms, hns, hms => by
    cases ms with
    | nil => simp [sameAll]
    | cons m ms =>
      rw [sameAll, Bool.and_eq_true, List.cons.injEq,
        same_iff n m (hns n List.mem_cons_self) (hms m List.mem_cons_self),
        sameAll_iff ns ms (fun x hx => hns x (List.mem_cons_of_mem _ hx))
          (fun x hx => hms x (List.mem_cons_of_mem _ hx))]

end

/-- Canonical texts stand for trees without groups. -/
theorem canonical_inj {n m : Node} (hn : n.Readable) (hm : m.Readable) :
    n.canonical = m.canonical ↔ n.ungroup = m.ungroup := by
  refine ⟨fun h => ?_, canonical_congr⟩
  have hRead := read_canonical hn
  rw [h, read_canonical hm] at hRead
  have hRegroup : m.regroup = n.regroup := Except.ok.inj hRead
  rw [← ungroup_regroup n, ← hRegroup, ungroup_regroup m]

/-- The canonical text of what was read is read as the same tree up to groups, and has itself as
canonical text; two texts have the same canonical text when their trees are the same up to
groups. -/
theorem canonical_round_trip {s : String} {n : Node} (h : read s = .ok n) :
    (∃ m, read n.canonical = .ok m ∧ m.ungroup.same n.ungroup = true ∧
      m.canonical = n.canonical) ∧
    ∀ {t : String} {k : Node}, read t = .ok k →
      (n.canonical = k.canonical ↔ n.ungroup.same k.ungroup = true) := by
  have hn := readable_of_read h
  refine ⟨⟨n.regroup, read_canonical hn, ?_, canonical_congr (ungroup_regroup n)⟩, ?_⟩
  · rw [ungroup_regroup]
    exact (same_iff _ _ hn.ungroup hn.ungroup).mpr rfl
  · intro t k hk
    have hkReadable := readable_of_read hk
    rw [canonical_inj hn hkReadable, same_iff _ _ hn.ungroup hkReadable.ungroup]

theorem canonical_round_trip_power :
    ∃ n k, read "-x ^ 'a'" = .ok n ∧ read "-((x) ^ \"a\")" = .ok k ∧
      (∃ m, read n.canonical = .ok m ∧ m.ungroup.same n.ungroup = true ∧
        m.canonical = n.canonical) ∧ n.canonical = k.canonical := by
  have hFlat : read "-x ^ 'a'" =
      .ok (.operator .neg [.operator .pow [.symbol "x", .literal (.text "a")]]) := by cbv
  have hGrouped : read "-((x) ^ \"a\")" =
      .ok (.operator .neg [.group (.operator .pow
        [.group (.symbol "x"), .literal (.text "a")])]) := by cbv
  obtain ⟨hRead, hTexts⟩ := canonical_round_trip hFlat
  exact ⟨_, _, hFlat, hGrouped, hRead, (hTexts hGrouped).mpr (by decide)⟩

end Node

end Blockwork
