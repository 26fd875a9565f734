import Blockwork.Proofs.Expression.Readable

/-! # The grammar of expressions

What readers accept is derived by a stratified grammar over token kinds: binary operators lean to
the left over the next tighter level, signs stand before unary expressions, the exponent of a power
is a unary expression, and everything else is primary. Each reader's answer is a derivation of the
tokens that it took off.
-/

set_option autoImplicit false

namespace Blockwork

namespace Reading

inductive Category where
  | binary (ls : List Level)
  | unary
  | power
  | primary

inductive Derives : Category → List TokenKind → Node → Prop where
  | tight {ks : List TokenKind} {n : Node} (h : Derives .unary ks n) : Derives (.binary []) ks n
  | operand {level : Level} {tighter : List Level} {ks : List TokenKind} {n : Node}
      (h : Derives (.binary tighter) ks n) : Derives (.binary (level :: tighter)) ks n
  | operator {level : Level} {tighter : List Level} {k : TokenKind} {op : Operator}
      {ls rs : List TokenKind} {l r : Node} (hop : level k = some op)
      (hl : Derives (.binary (level :: tighter)) ls l) (hr : Derives (.binary tighter) rs r) :
      Derives (.binary (level :: tighter)) (ls ++ k :: rs) (.operator op [l, r])
  | minus {ks : List TokenKind} {n : Node} (h : Derives .unary ks n) :
      Derives .unary (.minus :: ks) (.operator .neg [n])
  | plus {ks : List TokenKind} {n : Node} (h : Derives .unary ks n) :
      Derives .unary (.plus :: ks) n
  | not {ks : List TokenKind} {n : Node} (h : Derives .unary ks n) :
      Derives .unary (.not :: ks) (.operator .not [n])
  | unsigned {ks : List TokenKind} {n : Node} (h : Derives .power ks n) : Derives .unary ks n
  | base {ks : List TokenKind} {n : Node} (h : Derives .primary ks n) : Derives .power ks n
  | power {ls rs : List TokenKind} {l r : Node} (hl : Derives .primary ls l)
      (hr : Derives .unary rs r) : Derives .power (ls ++ .caret :: rs) (.operator .pow [l, r])
  | number (x : Float) : Derives .primary [.number x] (.literal (.number x))
  | text (s : String) : Derives .primary [.text s] (.literal (.text s))
  | name (name : String) : Derives .primary [.ident name] (named name)
  | call (name : String) {operands : List (List TokenKind × Node)}
      (h : ∀ p ∈ operands, Derives (.binary levels) p.1 p.2) :
      Derives .primary
        (.ident name :: .leftParen :: [TokenKind.comma].intercalate (operands.map (·.1)) ++
          [.rightParen])
        (.call name (operands.map (·.2)))
  | group {ks : List TokenKind} {n : Node} (h : Derives (.binary levels) ks n) :
      Derives .primary (.leftParen :: ks ++ [.rightParen]) (.group n)

/-- A node is derived from the tokens of `source` before `rest`. -/
def Takes (c : Category) (source : List Token) (n : Node) (rest : List Token) : Prop :=
  ∃ taken, source = taken ++ rest ∧ Derives c (taken.map Token.kind) n

def TakesAll (source : List Token) (ns : List Node) (rest : List Token) : Prop :=
  ∃ (taken : List Token) (close : Token) (operands : List (List TokenKind × Node)),
    source = taken ++ close :: rest ∧ close.kind = .rightParen ∧
    taken.map Token.kind = [TokenKind.comma].intercalate (operands.map (·.1)) ∧
    ns = operands.map (·.2) ∧ ∀ p ∈ operands, Derives (.binary levels) p.1 p.2

theorem Takes.map {c d : Category} {source rest : List Token} {n m : Node}
    (h : Takes c source n rest) (hd : ∀ {ks}, Derives c ks n → Derives d ks m) :
    Takes d source m rest := by
  obtain ⟨taken, hSource, h⟩ := h
  exact ⟨taken, hSource, hd h⟩

theorem Takes.sign {c d : Category} {source rest : List Token} {n m : Node} {t : Token}
    {k : TokenKind} (h : Takes c source n rest) (ht : t.kind = k)
    (hd : ∀ {ks}, Derives c ks n → Derives d (k :: ks) m) : Takes d (t :: source) m rest := by
  obtain ⟨taken, hSource, h⟩ := h
  exact ⟨t :: taken, by rw [hSource, List.cons_append], by simpa [ht] using hd h⟩

theorem Takes.join {c d e : Category} {source behind rest : List Token} {l r m : Node} {t : Token}
    (hl : Takes c source l (t :: behind)) (hr : Takes d behind r rest)
    (he : ∀ {ls rs}, Derives c ls l → Derives d rs r → Derives e (ls ++ t.kind :: rs) m) :
    Takes e source m rest := by
  obtain ⟨left, hSource, hl⟩ := hl
  obtain ⟨right, hBehind, hr⟩ := hr
  refine ⟨left ++ t :: right, ?_, by simpa using he hl hr⟩
  rw [hSource, hBehind, List.append_assoc, List.cons_append]

theorem TakesAll.one {source rest : List Token} {n : Node} {t : Token} (ht : t.kind = .rightParen)
    (h : Takes (.binary levels) source n (t :: rest)) : TakesAll source [n] rest := by
  obtain ⟨taken, hSource, h⟩ := h
  exact ⟨taken, t, [(taken.map Token.kind, n)], hSource, ht, by simp, rfl, by simpa using h⟩

theorem TakesAll.cons {source behind rest : List Token} {n : Node} {ns : List Node} {t : Token}
    (ht : t.kind = .comma) (h : Takes (.binary levels) source n (t :: behind))
    (hs : TakesAll behind ns rest) (hne : ns ≠ []) : TakesAll source (n :: ns) rest := by
  obtain ⟨taken, hSource, h⟩ := h
  obtain ⟨later, close, operands, hBehind, hClose, hKinds, rfl, hOperands⟩ := hs
  refine ⟨taken ++ t :: later, close, (taken.map Token.kind, n) :: operands, ?_, hClose, ?_, rfl,
    ?_⟩
  · rw [hSource, hBehind, List.append_assoc, List.cons_append]
  · rw [List.map_cons, List.intercalate_cons_of_ne_nil (by simpa using hne), ← hKinds]
    simp [ht]
  · intro p hp
    rcases List.mem_cons.mp hp with rfl | hp
    · exact h
    · exact hOperands p hp

section

variable {source : List Token} {r : Front Node source}

theorem map_eq_ok {ε α β : Type} {f : α → β} {answer : Except ε α} {b : β}
    (h : answer.map f = .ok b) : ∃ a, answer = .ok a ∧ f a = b := by
  cases answer with
  | error e => cases h
  | ok a => exact ⟨a, rfl, Except.ok.inj h⟩

theorem binary_inv {level : Level} {tighter : List Level}
    (h : binary (level :: tighter) source = .ok r) :
    ∃ left, binary tighter source = .ok left ∧
      ∃ whole, chain level tighter left.value left.rest = .ok whole ∧
        r.value = whole.value ∧ r.rest = whole.rest := by
  rw [binary] at h
  split at h
  · cases h
  · rename_i left hLeft
    split at h
    · cases h
    · rename_i whole hWhole
      obtain rfl := Except.ok.inj h
      exact ⟨left, hLeft, whole, hWhole, rfl, rfl⟩

theorem chain_inv {level : Level} {tighter : List Level} {left : Node} {middle : List Token}
    {r : Extension middle} (h : chain level tighter left middle = .ok r) :
    (r.value = left ∧ r.rest = middle) ∨
      ∃ t behind op, middle = t :: behind ∧ level t.kind = some op ∧
        ∃ right, binary tighter behind = .ok right ∧
          ∃ whole, chain level tighter (.operator op [left, right.value]) right.rest = .ok whole ∧
            r.value = whole.value ∧ r.rest = whole.rest := by
  cases middle with
  | nil =>
    rw [chain] at h
    obtain rfl := Except.ok.inj h
    exact .inl ⟨rfl, rfl⟩
  | cons t behind =>
    rw [chain] at h
    split at h
    · obtain rfl := Except.ok.inj h
      exact .inl ⟨rfl, rfl⟩
    · rename_i op hop
      split at h
      · cases h
      · rename_i right hRight
        split at h
        · cases h
        · rename_i whole hWhole
          obtain rfl := Except.ok.inj h
          exact .inr ⟨t, behind, op, rfl, hop, right, hRight, whole, hWhole, rfl, rfl⟩

theorem unary_inv (h : unary source = .ok r) :
    (∃ t behind, source = t :: behind ∧ ∃ inner, unary behind = .ok inner ∧
      r.rest = inner.rest ∧
      (t.kind = .minus ∧ r.value = .operator .neg [inner.value] ∨
        t.kind = .plus ∧ r.value = inner.value ∨
        t.kind = .not ∧ r.value = .operator .not [inner.value])) ∨
      power source = .ok r := by
  cases source with
  | nil =>
    rw [unary] at h
    cases h
  | cons t behind =>
    rw [unary] at h
    split at h
    case h_1 hk =>
      obtain ⟨inner, hInner, rfl⟩ := map_eq_ok h
      exact .inl ⟨t, behind, rfl, inner, hInner, rfl, .inl ⟨hk, rfl⟩⟩
    case h_2 hk =>
      obtain ⟨inner, hInner, rfl⟩ := map_eq_ok h
      exact .inl ⟨t, behind, rfl, inner, hInner, rfl, .inr (.inl ⟨hk, rfl⟩)⟩
    case h_3 hk =>
      obtain ⟨inner, hInner, rfl⟩ := map_eq_ok h
      exact .inl ⟨t, behind, rfl, inner, hInner, rfl, .inr (.inr ⟨hk, rfl⟩)⟩
    case h_4 => exact .inr h

theorem power_inv (h : power source = .ok r) :
    ∃ base, primary source = .ok base ∧
      (r = base ∨ ∃ t behind, base.rest = t :: behind ∧ t.kind = .caret ∧
        ∃ up, unary behind = .ok up ∧
          r.value = .operator .pow [base.value, up.value] ∧ r.rest = up.rest) := by
  rw [power] at h
  split at h
  · cases h
  · rename_i base t behind hShort hBase
    split at h
    · rename_i hk
      split at h
      · cases h
      · rename_i up hUp
        obtain rfl := Except.ok.inj h
        exact ⟨_, hBase, .inr ⟨t, behind, rfl, hk, up, hUp, rfl, rfl⟩⟩
    · obtain rfl := Except.ok.inj h
      exact ⟨_, hBase, .inl rfl⟩
  · rename_i base hShort hBase
    obtain rfl := Except.ok.inj h
    exact ⟨_, hBase, .inl rfl⟩

theorem primary_inv (h : primary source = .ok r) :
    ∃ t rest, source = t :: rest ∧
      ((∃ x, t.kind = .number x ∧ r.value = .literal (.number x) ∧ r.rest = rest) ∨
        (∃ s, t.kind = .text s ∧ r.value = .literal (.text s) ∧ r.rest = rest) ∨
        (∃ name, t.kind = .ident name ∧ (r.value = named name ∧ r.rest = rest ∨
          ∃ u inner, rest = u :: inner ∧ u.kind = .leftParen ∧
            ∃ args, arguments inner = .ok args ∧
              r.value = .call name args.value ∧ r.rest = args.rest)) ∨
        (t.kind = .leftParen ∧ ∃ inner, binary levels rest = .ok inner ∧
          ∃ u, inner.rest = u :: r.rest ∧ u.kind = .rightParen ∧
            r.value = .group inner.value)) := by
  cases source with
  | nil =>
    rw [primary] at h
    cases h
  | cons t rest =>
    refine ⟨t, rest, rfl, ?_⟩
    rw [primary.eq_def] at h
    dsimp only at h
    split at h
    case h_1 x hk =>
      obtain rfl := Except.ok.inj h
      exact .inl ⟨x, hk, rfl, rfl⟩
    case h_2 s hk =>
      obtain rfl := Except.ok.inj h
      exact .inr (.inl ⟨s, hk, rfl, rfl⟩)
    case h_3 name hk =>
      refine .inr (.inr (.inl ⟨name, hk, ?_⟩))
      split at h
      · obtain rfl := Except.ok.inj h
        exact .inl ⟨rfl, rfl⟩
      · rename_i u inner
        split at h
        · rename_i hu
          obtain ⟨args, hArgs, rfl⟩ := map_eq_ok h
          exact .inr ⟨u, inner, rfl, hu, args, hArgs, rfl, rfl⟩
        · obtain rfl := Except.ok.inj h
          exact .inl ⟨rfl, rfl⟩
    case h_4 hk =>
      split at h
      · cases h
      · rename_i inner u behind hShort hInner
        split at h
        · rename_i hu
          obtain rfl := Except.ok.inj h
          exact .inr (.inr (.inr ⟨hk, _, hInner, u, rfl, hu, rfl⟩))
        · cases h
      · cases h
    case h_5 => cases h

end

section

variable {source : List Token} {r : Front (List Node) source}

theorem arguments_inv (h : arguments source = .ok r) :
    (∃ t, source = t :: r.rest ∧ t.kind = .rightParen ∧ r.value = []) ∨
      operands source = .ok r := by
  cases source with
  | nil =>
    rw [arguments] at h
    exact .inr h
  | cons t rest =>
    rw [arguments] at h
    split at h
    · rename_i hk
      obtain rfl := Except.ok.inj h
      exact .inl ⟨t, rfl, hk, rfl⟩
    · exact .inr h

theorem operands_inv (h : operands source = .ok r) :
    ∃ first, binary levels source = .ok first ∧ ∃ t behind, first.rest = t :: behind ∧
      (t.kind = .comma ∧ (∃ later, operands behind = .ok later ∧
          r.value = first.value :: later.value ∧ r.rest = later.rest) ∨
        t.kind = .rightParen ∧ r.value = [first.value] ∧ r.rest = behind) := by
  rw [operands] at h
  split at h
  · cases h
  · rename_i first t behind hShort hFirst
    refine ⟨_, hFirst, t, behind, rfl, ?_⟩
    split at h
    · rename_i hk
      split at h
      · cases h
      · rename_i later hLater
        obtain rfl := Except.ok.inj h
        exact .inl ⟨hk, later, hLater, rfl, rfl⟩
    · rename_i hk
      obtain rfl := Except.ok.inj h
      exact .inr ⟨hk, rfl, rfl⟩
    · cases h
  · cases h

end

mutual

theorem binary_takes : (ls : List Level) → (source : List Token) → {r : Front Node source} →
    binary ls source = .ok r → Takes (.binary ls) source r.value r.rest
  | [], source, r, h => by
    rw [binary] at h
    exact (unary_takes source h).map .tight
  | level :: tighter, source, r, h => by
    obtain ⟨left, hLeft, whole, hWhole, hValue, hRest⟩ := binary_inv h
    rw [hValue, hRest]
    exact chain_takes level tighter left.rest
      ((binary_takes tighter source hLeft).map .operand) hWhole
termination_by ls source => (source.length, ls.length + 3)
decreasing_by
  · exact Prod.Lex.right _ (by simp)
  · exact Prod.Lex.right _ (by simp)
  · exact Prod.Lex.left _ _ left.shorter

theorem chain_takes (level : Level) (tighter : List Level) {left : Node} {source : List Token}
    (middle : List Token) {r : Extension middle}
    (hLeft : Takes (.binary (level :: tighter)) source left middle)
    (h : chain level tighter left middle = .ok r) :
    Takes (.binary (level :: tighter)) source r.value r.rest := by
  rcases chain_inv h with ⟨hValue, hRest⟩ |
    ⟨t, behind, op, hMiddle, hop, right, hRight, whole, hWhole, hValue, hRest⟩
  · rwa [hValue, hRest]
  · have hShort : right.rest.length < middle.length := by
      have := right.shorter
      rw [hMiddle, List.length_cons]
      omega
    rw [hMiddle] at hLeft
    rw [hValue, hRest]
    exact chain_takes level tighter right.rest
      (hLeft.join (binary_takes tighter behind hRight) (.operator hop)) hWhole
termination_by (middle.length, 0)
decreasing_by
  · exact Prod.Lex.left _ _ (by simp [hMiddle])
  · exact Prod.Lex.left _ _ hShort

theorem unary_takes (source : List Token) {r : Front Node source} (h : unary source = .ok r) :
    Takes .unary source r.value r.rest := by
  rcases unary_inv h with ⟨t, behind, hSource, inner, hInner, hRest, hSign⟩ | h
  · have hOperand := unary_takes behind hInner
    rw [hRest]
    conv => arg 2; rw [hSource]
    rcases hSign with ⟨hk, hValue⟩ | ⟨hk, hValue⟩ | ⟨hk, hValue⟩
    · rw [hValue]
      exact hOperand.sign hk .minus
    · rw [hValue]
      exact hOperand.sign hk .plus
    · rw [hValue]
      exact hOperand.sign hk .not
  · exact (power_takes source h).map .unsigned
termination_by (source.length, 2)
decreasing_by
  · exact Prod.Lex.left _ _ (by simp [hSource])
  · exact Prod.Lex.right _ (by simp)

theorem power_takes (source : List Token) {r : Front Node source} (h : power source = .ok r) :
    Takes .power source r.value r.rest := by
  obtain ⟨base, hBase, rfl | ⟨t, behind, hBehind, hk, up, hUp, hValue, hRest⟩⟩ := power_inv h
  · exact (primary_takes source hBase).map .base
  · have hShort : behind.length < source.length := by
      have := base.shorter
      rw [hBehind, List.length_cons] at this
      omega
    have hLeft := primary_takes source hBase
    rw [hBehind] at hLeft
    rw [hValue, hRest]
    refine hLeft.join (unary_takes behind hUp) fun hl hr => ?_
    rw [hk]
    exact .power hl hr
termination_by (source.length, 1)
decreasing_by
  · exact Prod.Lex.right _ (by simp)
  · exact Prod.Lex.right _ (by simp)
  · exact Prod.Lex.left _ _ hShort

theorem primary_takes (source : List Token) {r : Front Node source} (h : primary source = .ok r) :
    Takes .primary source r.value r.rest := by
  obtain ⟨t, rest, hSource, ⟨x, hk, hValue, hRest⟩ | ⟨s, hk, hValue, hRest⟩ |
    ⟨name, hk, ⟨hValue, hRest⟩ | ⟨u, inner, hInner, hu, args, hArgs, hValue, hRest⟩⟩ |
    ⟨hk, inner, hInner, u, hBehind, hu, hValue⟩⟩ := primary_inv h
  · exact ⟨[t], by rw [hRest]; exact hSource, by simpa [hk, hValue] using .number x⟩
  · exact ⟨[t], by rw [hRest]; exact hSource, by simpa [hk, hValue] using .text s⟩
  · exact ⟨[t], by rw [hRest]; exact hSource, by simpa [hk, hValue] using .name name⟩
  · have hShort : inner.length < source.length := by
      rw [hSource, hInner]
      simp only [List.length_cons]
      omega
    have hInside := arguments_takes inner hArgs
    rw [← hRest] at hInside
    obtain ⟨taken, close, operands, hTaken, hClose, hKinds, hNodes, hOperands⟩ := hInside
    refine ⟨t :: u :: (taken ++ [close]), hSource.trans ?_, ?_⟩
    · rw [hInner, hTaken]
      simp
    · rw [hValue, hNodes]
      simpa [hk, hu, hKinds, hClose] using Derives.call name hOperands
  · have hShort : rest.length < source.length := by simp [hSource]
    obtain ⟨taken, hTaken, hDerives⟩ := binary_takes levels rest hInner
    refine ⟨t :: (taken ++ [u]), hSource.trans ?_, ?_⟩
    · rw [hTaken, hBehind]
      simp
    · rw [hValue]
      simpa [hk, hu] using Derives.group hDerives
termination_by (source.length, 0)
decreasing_by
  · exact Prod.Lex.left _ _ hShort
  · exact Prod.Lex.left _ _ hShort

theorem arguments_takes (source : List Token) {r : Front (List Node) source}
    (h : arguments source = .ok r) : TakesAll source r.value r.rest := by
  rcases arguments_inv h with ⟨t, hSource, hk, hValue⟩ | h
  · exact ⟨[], t, [], hSource, hk, rfl, hValue, nofun⟩
  · exact (operands_takes source h).2
termination_by (source.length, levels.length + 5)
decreasing_by exact Prod.Lex.right _ (by simp)

theorem operands_takes (source : List Token) {r : Front (List Node) source}
    (h : operands source = .ok r) : r.value ≠ [] ∧ TakesAll source r.value r.rest := by
  obtain ⟨first, hFirst, t, behind, hBehind, ⟨hk, later, hLater, hValue, hRest⟩ |
    ⟨hk, hValue, hRest⟩⟩ := operands_inv h
  · have hShort : behind.length < source.length := by
      have := first.shorter
      rw [hBehind, List.length_cons] at this
      omega
    have hHead := binary_takes levels source hFirst
    obtain ⟨hne, hTail⟩ := operands_takes behind hLater
    rw [hBehind] at hHead
    rw [hValue, hRest]
    exact ⟨by simp, .cons hk hHead hTail hne⟩
  · have hHead := binary_takes levels source hFirst
    rw [hBehind] at hHead
    rw [hValue, hRest]
    exact ⟨by simp, .one hk hHead⟩
termination_by (source.length, levels.length + 4)
decreasing_by
  · exact Prod.Lex.right _ (by simp)
  · exact Prod.Lex.left _ _ hShort
  · exact Prod.Lex.right _ (by simp)

end

theorem complete_derives {source : List Token} {n : Node} (h : complete source = .ok n) :
    ∃ taken t rest, source = taken ++ t :: rest ∧ t.kind = .eof ∧
      Derives (.binary levels) (taken.map Token.kind) n := by
  rw [complete] at h
  split at h
  · cases h
  · rename_i node t rest hShort hNode
    split at h
    · rename_i hk
      obtain rfl := Except.ok.inj h
      obtain ⟨taken, hSource, hDerives⟩ := binary_takes levels source hNode
      exact ⟨taken, t, rest, hSource, hk, hDerives⟩
    · cases h
  · cases h

theorem isUnary_of_level {level : Level} (h : level ∈ levels) {k : TokenKind} {op : Operator}
    (hop : level k = some op) : op.isUnary = false := by
  simp only [levels, List.mem_cons, List.not_mem_nil, or_false] at h
  rcases h with rfl | rfl | rfl | rfl | rfl | rfl
  all_goals
    dsimp only at hop
    split at hop
  all_goals first | (cases hop; rfl) | cases hop

theorem named_readable {name : String} (h : IsName name) : (named name).Readable := by
  unfold named
  split
  · exact .literal (.truth true)
  split
  · exact .literal (.truth false)
  split
  · exact .literal .nan
  split
  · rw [← Double.ofWord_top]
    exact .literal (.magnitude (Nat.le_refl _))
  split
  · exact .literal .null
  · exact .symbol h (by simp [named, *])

theorem mem_intercalate {α : Type} {separator xs : List α} {xss : List (List α)} {x : α}
    (hx : x ∈ xs) (hxs : xs ∈ xss) : x ∈ separator.intercalate xss := by
  induction xss with
  | nil => cases hxs
  | cons ys yss ih =>
    rcases List.eq_nil_or_concat yss with rfl | hMore
    · obtain rfl := List.mem_singleton.mp hxs
      rwa [List.intercalate_singleton]
    · rw [List.intercalate_cons_of_ne_nil (by obtain ⟨_, _, rfl⟩ := hMore; simp)]
      rcases List.mem_cons.mp hxs with rfl | hxs
      · exact List.mem_append_left _ (List.mem_append_left _ hx)
      · exact List.mem_append_right _ (ih hxs)

def Category.Known : Category → Prop
  | .binary ls => ∀ level ∈ ls, level ∈ levels
  | _ => True

theorem Derives.readable {c : Category} {ks : List TokenKind} {n : Node} (h : Derives c ks n)
    (hc : c.Known) (hks : ∀ k ∈ ks, k.Readable) : n.Readable := by
  have hLevels : (Category.binary levels).Known := fun _ h => h
  induction h with
  | tight _ ih => exact ih trivial hks
  | operand _ ih => exact ih (fun l hl => hc l (List.mem_cons_of_mem _ hl)) hks
  | operator hop _ _ ihl ihr =>
    refine .binary (isUnary_of_level (hc _ List.mem_cons_self) hop) (ihl hc fun k hk => ?_)
      (ihr (fun l hl => hc l (List.mem_cons_of_mem _ hl)) fun k hk => ?_)
    · exact hks k (List.mem_append_left _ hk)
    · exact hks k (List.mem_append_right _ (List.mem_cons_of_mem _ hk))
  | minus _ ih | not _ ih =>
    exact .unary rfl (ih trivial fun k hk => hks k (List.mem_cons_of_mem _ hk))
  | plus _ ih => exact ih trivial fun k hk => hks k (List.mem_cons_of_mem _ hk)
  | unsigned _ ih | base _ ih => exact ih trivial hks
  | power _ _ ihl ihr =>
    refine .binary rfl (ihl trivial fun k hk => ?_) (ihr trivial fun k hk => ?_)
    · exact hks k (List.mem_append_left _ hk)
    · exact hks k (List.mem_append_right _ (List.mem_cons_of_mem _ hk))
  | number x =>
    obtain ⟨word, hWord, rfl⟩ := hks _ List.mem_cons_self
    exact .literal (.magnitude hWord)
  | text s => exact .literal (.text s)
  | name name => exact named_readable (hks _ List.mem_cons_self)
  | call name h ih =>
    refine .call (hks _ List.mem_cons_self) fun n hn => ?_
    obtain ⟨p, hp, rfl⟩ := List.mem_map.mp hn
    refine ih p hp hLevels fun k hk => hks k ?_
    have hInside := @mem_intercalate _ [.comma] _ _ _ hk (List.mem_map_of_mem hp)
    exact List.mem_cons_of_mem _ (List.mem_cons_of_mem _ (List.mem_append_left _ hInside))
  | group _ ih =>
    refine .group (ih hLevels fun k hk => hks k ?_)
    exact List.mem_cons_of_mem _ (List.mem_append_left _ hk)

end Reading

end Blockwork
