import Blockwork.Proofs.Block.Grafting
import Blockwork.Proofs.Block.Highlight
import Blockwork.Proofs.Block.Postorder

/-! # A branch on its own

The text of a branch lays out, and to the same blocks as within the text around it. They are
numbered from zero on, the branch is a root at no place yet, and its address is a single root step;
apart from that the two runs of blocks agree, entry by entry.
-/

set_option autoImplicit false

namespace Blockwork

open List (Forall₂)

variable {K : Type}

/-- Two lists that run through a third one agree wherever they meet it. -/
theorem forall₂_along {α β γ : Type} {R : α → β → Prop} {S : α → γ → Prop} {T : β → γ → Prop}
    {ps : List α} {xs : List β} {ys : List γ} (h : Forall₂ T xs ys) (hx : Forall₂ R ps xs)
    (hy : Forall₂ S ps ys) : Forall₂ (fun x y => T x y ∧ ∃ p, R p x ∧ S p y) xs ys := by
  induction hx generalizing ys with
  | nil =>
    cases hy
    exact .nil
  | cons hHead _ ih =>
    cases hy with
    | cons hOther hy =>
      cases h with
      | cons hBoth h => exact .cons ⟨hBoth, _, hHead, hOther⟩ (ih h hy)

variable [Scalar K]

/-- An entry `x` of a branch on its own and the entry `y` of the same block in the branch's place
`e`, where the first block of the branch is numbered `first`. -/
structure Entry.Embedded (e : Entry K) (first : Nat) (x y : Entry K) : Prop
    extends Copied (first + ·) e.parent none x y where
  highlight : y.block.frame.highlight = x.block.frame.highlight
  address : ∃ later, y.block.frame.address.steps = e.block.frame.address.steps ++ later ∧
    x.block.frame.address.steps = .root e.block.frame.expression :: later

namespace Node

variable {style : Style K} {n m : Node} {b c : Block K} {path top : List Nat}

theorem ungroup_of_descend {sub : Node} (h : n.ungroup.descend path = some sub) :
    sub.ungroup = sub := by
  induction path generalizing n with
  | nil =>
    obtain rfl := Option.some.inj h
    exact ungroup_ungroup n
  | cons k path ih =>
    obtain ⟨operand, hOperand, h⟩ := exists_operand_of_descend h
    obtain ⟨m, -, rfl⟩ := exists_operand_of_ungroup hOperand
    exact ih h

theorem highlight_of_layOut {x : Block K} (hb : n.layOut style none .empty = .ok b)
    (hx : b.descend path = some x) : x.frame.highlight = .none := by
  have hLit : b.unlit.descend path = some x.unlit := by
    rw [Block.descend_unlit, hx, Option.map_some]
  rw [unlit_of_layOut n none .empty hb, hx] at hLit
  rw [Option.some.inj hLit]
  cases x <;> rfl

theorem address_embedded {ρ τ υ : Spot K} (hb : n.layOut style none .empty = .ok b)
    (hc : m.layOut style none .empty = .ok c) (hSub : n.ungroup.descend top = some m.ungroup)
    (hτ : (Spot.ofRoot b).descend top = some τ) (hρ : (Spot.ofRoot c).descend path = some ρ)
    (hυ : τ.descend path = some υ) :
    ∃ later, υ.block.frame.address.steps = τ.block.frame.address.steps ++ later ∧
      ρ.block.frame.address.steps = .root τ.block.frame.expression :: later := by
  obtain ⟨sub, hText, hLabel, hBelow⟩ := address_below hb hτ hυ
  obtain rfl := Option.some.inj (hSub.symm.trans hText)
  obtain ⟨later, hLater⟩ := exists_steps none none m.ungroup path
  have hAlone : ρ.block.frame.address.steps = m.ungroup.steps none none path :=
    (shows_of_layOut style path m none .empty hc (Spot.block_of_descend hρ)).address
  refine ⟨later, ?_, ?_⟩
  · rw [hBelow, hLater, List.tail_cons]
  · rw [hAlone, hLater, hLabel]
    rfl

/-- A branch in its place has the blocks that its node has on its own. -/
theorem embedded_of_layOut {τ : Spot K} (hb : n.layOut style none .empty = .ok b)
    (hc : m.layOut style none .empty = .ok c) (hτ : (Spot.ofRoot b).descend top = some τ)
    (hSub : n.ungroup.descend top = some m.ungroup) (hBranch : τ.block.isLeaf = false) :
    Forall₂ (τ.entry.Embedded τ.first) (Spot.ofRoot c).run τ.run := by
  have hTop := Spot.block_of_descend hτ
  rw [Spot.ofRoot, ← b.withOffset_self] at hTop
  obtain ⟨sub, above, trail, inner, place, hInner, hBlock, hNode⟩ := layOut_of_descend hb hTop
  have hSame : sub.ungroup = m.ungroup := Option.some.inj (hNode.symm.trans hSub)
  have hOther (name : String) : m.ungroup ≠ .symbol name := by
    intro hSymbol
    have hLeaf := isLeaf_of_layOut_symbol sub hInner (hSame.trans hSymbol)
    rw [hBlock, Block.isLeaf_withOffset, hLeaf] at hBranch
    cases hBranch
  have hAlike : c.Alike τ.block := by
    rw [hBlock, ← c.withOffset_self]
    exact (Block.alike_of_anonymous_eq
      (anonymous_of_layOut hc hInner hSame (.inr hOther))).withOffset _ _
  have hShift (i : Nat) : τ.first + ((Spot.ofRoot c).first + i) = τ.first + i := by
    rw [Spot.ofRoot, Nat.zero_add]
  have hCopied : Forall₂ (Entry.Copied (τ.first + ·) τ.parent none) (Spot.ofRoot c).run τ.run :=
    Spot.copied_run hAlike (fun i _ => hShift i) rfl
  -- Both runs go through the same paths, so entries that correspond sit at the same path.
  have hAlone : Forall₂ (Spot.ofRoot c).At m.postorder (Spot.ofRoot c).run :=
    at_of_layOut _ hc c.withOffset_self.symm
  have hInPlace : Forall₂ τ.At sub.postorder τ.run := at_of_layOut τ hInner hBlock
  rw [← postorder_ungroup, hSame, postorder_ungroup] at hInPlace
  refine (forall₂_along hCopied hAlone hInPlace).imp ?_
  rintro x y ⟨hxy, path, ⟨ρ, hρ, rfl⟩, υ, hυ, rfl⟩
  refine ⟨hxy, ?_, address_embedded hb hc hSub hτ hρ hυ⟩
  have hDown : (Spot.ofRoot b).descend (top ++ path) = some υ := by
    rw [Spot.descend_append, hτ]
    exact hυ
  have hDark := highlight_of_layOut hb (Spot.block_of_descend hDown)
  exact hDark.trans (highlight_of_layOut hc (Spot.block_of_descend hρ)).symm

end Node

/-- The text of a branch lays out to the run of the branch's blocks. -/
theorem Style.layOutText_branch {style : Style K} {text : String} {tree : BlockTree K} {id : Nat}
    {e : Entry K} (hTree : style.layOutText text = .ok tree) (he : tree.entry? id = some e)
    (hBranch : e.block.isLeaf = false) :
    ∃ piece front back, style.layOutText e.block.frame.expression = .ok piece ∧
      tree.entries =
        front ++ (e.block.entries front.length e.parent e.offsets.tail ++ back) ∧
      Forall₂ (e.Embedded front.length) piece.entries
        (e.block.entries front.length e.parent e.offsets.tail) := by
  obtain ⟨n, b, hRead, hb, rfl⟩ := layOutText_inv hTree
  obtain ⟨top, τ, hτ, rfl⟩ := BlockTree.exists_spot he
  have hShown := Node.shown_of_layOut style n none .empty hb
  have hShows := Node.shows_of_layOut style top n none .empty hb (Spot.block_of_descend hτ)
  obtain ⟨piece, hPiece⟩ := (Stored.of_block hRead hShown hShows).exists_layOut style
  obtain ⟨m, c, hReadPiece, hc, rfl⟩ := layOutText_inv hPiece
  have hSub : n.ungroup.descend top = some m.ungroup := by
    obtain ⟨sub, hSub, hText⟩ := hShows.text
    have hReadable := (Node.readable_of_read hRead).ungroup.descend hSub
    have hReadSub := Node.read_canonical hReadable
    rw [hText] at hReadSub
    obtain rfl := Except.ok.inj (hReadPiece.symm.trans hReadSub)
    rw [Node.ungroup_regroup, hSub, Node.ungroup_of_descend hSub]
  obtain ⟨front, back, hRun, hFirst⟩ := Spot.run_split hτ
  refine ⟨_, front, back, hPiece, ?_⟩
  rw [show front.length = τ.first by rw [hFirst, Spot.ofRoot, Nat.zero_add]]
  exact ⟨hRun, Node.embedded_of_layOut hb hc hτ hSub hBranch⟩

theorem Style.layOutText_branch_sum :
    let style : Style Float := ⟨Settings.standardMetrics, .fixedAdvance 1⟩
    ∃ tree e piece front back, style.layOutText "c > a + b" = .ok tree ∧
      tree.entry? 3 = some e ∧ e.block.frame.expression = "(a+b)" ∧
      style.layOutText "(a+b)" = .ok piece ∧
      tree.entries =
        front ++ (e.block.entries front.length e.parent e.offsets.tail ++ back) ∧
      Forall₂ (e.Embedded front.length) piece.entries
        (e.block.entries front.length e.parent e.offsets.tail) := by
  intro style
  have hRead : Node.read "c > a + b" = .ok (.operator .gt
      [.symbol "c", .operator .add [.symbol "a", .symbol "b"]]) := by cbv
  have hTree : ∃ tree e, style.layOutText "c > a + b" = .ok tree ∧ tree.entry? 3 = some e ∧
      e.block.isLeaf = false ∧ e.block.frame.expression = "(a+b)" := by
    rw [Style.layOutText, hRead]
    exact ⟨_, _, rfl, rfl, rfl, by decide +kernel⟩
  obtain ⟨tree, e, hTree, he, hBranch, hText⟩ := hTree
  obtain ⟨piece, front, back, hPiece, hEntries, hEmbedded⟩ :=
    Style.layOutText_branch hTree he hBranch
  rw [hText] at hPiece
  exact ⟨tree, e, piece, front, back, hTree, he, hText, hPiece, hEntries, hEmbedded⟩

end Blockwork
