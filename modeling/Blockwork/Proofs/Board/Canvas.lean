import Blockwork.Board.Canvas
import Blockwork.Proofs.Block.Highlight
import Blockwork.Proofs.Block.Shown
import Blockwork.Proofs.Board.Placed

/-! # The canvas of a collection

A canvas is built dark. When all placed texts lay out nothing is skipped, and the tree of an id is
the layout of the text with that id, at its place.
-/

set_option autoImplicit false

namespace Blockwork

variable {K : Type}

namespace Collection

/-- Every text of the collection lays out. -/
def AllStored (c : Collection K) : Prop :=
  ∀ e ∈ c.entries, Stored e.2.expression

theorem AllStored.add {c : Collection K} (h : c.AllStored) {p : Placed K}
    (hp : Stored p.expression) : (c.add p).AllStored :=
  forall_mem_add h hp

theorem AllStored.erase {c : Collection K} (h : c.AllStored) (id : Nat) :
    (c.erase id).AllStored :=
  forall_mem_erase h id

theorem AllStored.get? {c : Collection K} (h : c.AllStored) {id : Nat} {p : Placed K}
    (hp : c.get? id = some p) : Stored p.expression :=
  h _ (mem_of_get? hp)

end Collection

variable [Scalar K]

theorem Style.exists_shows {style : Style K} {text : String} {tree t : BlockTree K} {b : Block K}
    {path : List Nat} (hTree : style.layOutText text = .ok tree)
    (hDark : t.root.unlit = tree.root) (hb : t.root.descend path = some b) :
    ∃ n, Node.read text = .ok n ∧ n.Shown ∧ n.canonical = t.expression ∧
      tree.root.descend path = some b.unlit ∧ b.Shows n none .empty path := by
  obtain ⟨n, root, hRead, hRoot, rfl⟩ := layOutText_inv hTree
  have hText : t.root.unlit.frame.expression = n.canonical := by
    rw [hDark]
    exact Node.canonical_of_layOut hRoot
  have hPath : (BlockTree.ofRoot root).root.descend path = some b.unlit := by
    rw [← hDark, Block.descend_unlit, hb]
    rfl
  have hShows := Node.shows_of_layOut style path n none .empty hRoot hPath
  refine ⟨n, hRead, Node.shown_of_layOut style n none .empty hRoot, ?_, hPath, ?_⟩
  · rw [← hText, Block.expression_unlit]
    rfl
  · constructor
    · simpa using hShows.text
    · simpa using hShows.address

namespace Canvas

section

variable (c : Canvas K)

@[simp] theorem unlit_unlit : c.unlit.unlit = c.unlit := by
  simp [unlit, Function.comp_def]

theorem unlit_modify {change : BlockTree K → BlockTree K} (h : ∀ t, (change t).unlit = t.unlit)
    (id : Nat) : (c.modify id change).unlit = c.unlit := by
  have hGo : ∀ entries : List (CanvasEntry K),
      (modify.go id change entries).map (fun e => { e with tree := e.tree.unlit }) =
        entries.map fun e => { e with tree := e.tree.unlit } := by
    intro entries
    induction entries with
    | nil => rfl
    | cons e rest ih =>
      rw [modify.go]
      split
      · rw [List.map_cons, List.map_cons, h]
      · rw [List.map_cons, List.map_cons, ih]
  simp only [unlit, modify, hGo]

theorem tree?_unlit (id : Nat) : c.unlit.tree? id = (c.tree? id).map BlockTree.unlit := by
  rw [tree?, tree?, unlit, List.find?_map, Option.map_map, Option.map_map]
  rfl

@[simp] theorem leaves_unlit : c.unlit.leaves = c.leaves := by
  simp [leaves, unlit, List.flatMap_map]

@[simp] theorem checkArea_unlit (leaf : LeafRef) : c.unlit.checkArea leaf = c.checkArea leaf := by
  rw [checkArea, checkArea, tree?_unlit]
  cases c.tree? leaf.placed with
  | none => rfl
  | some t => exact BlockTree.checkArea_unlit t leaf.block

end

section

variable {style : Style K} {placed : Collection K}

theorem go_cons_ok {id : Nat} {p : Placed K} {tree : BlockTree K}
    (h : style.layOutText p.expression = .ok tree) (rest : List (Nat × Placed K)) :
    build.go style ((id, p) :: rest) =
      { build.go style rest with
        entries := ⟨id, { tree with origin := p.origin }⟩ :: (build.go style rest).entries } := by
  rw [build.go, h]

theorem go_cons_error {id : Nat} {p : Placed K} {fault : Fault}
    (h : style.layOutText p.expression = .error fault) (rest : List (Nat × Placed K)) :
    build.go style ((id, p) :: rest) =
      { build.go style rest with skipped := id :: (build.go style rest).skipped } := by
  rw [build.go, h]

theorem mem_entries_go {entries : List (Nat × Placed K)} {e : CanvasEntry K}
    (h : e ∈ (build.go style entries).entries) :
    ∃ p tree, (e.id, p) ∈ entries ∧ style.layOutText p.expression = .ok tree ∧
      e.tree = { tree with origin := p.origin } := by
  induction entries with
  | nil => cases h
  | cons first rest ih =>
    obtain ⟨id, p⟩ := first
    cases hLayOut : style.layOutText p.expression with
    | ok tree =>
      rw [go_cons_ok hLayOut] at h
      rcases List.mem_cons.mp h with rfl | h
      · exact ⟨p, tree, List.mem_cons_self, hLayOut, rfl⟩
      · obtain ⟨q, other, hq, hOther, hTree⟩ := ih h
        exact ⟨q, other, List.mem_cons_of_mem _ hq, hOther, hTree⟩
    | error fault =>
      rw [go_cons_error hLayOut] at h
      obtain ⟨q, other, hq, hOther, hTree⟩ := ih h
      exact ⟨q, other, List.mem_cons_of_mem _ hq, hOther, hTree⟩

theorem unlit_go (style : Style K) (entries : List (Nat × Placed K)) :
    (build.go style entries).unlit = build.go style entries := by
  induction entries with
  | nil => rfl
  | cons e rest ih =>
    obtain ⟨id, p⟩ := e
    have hEntries := congrArg Canvas.entries ih
    cases hLayOut : style.layOutText p.expression with
    | ok tree =>
      have hDark : tree.root.unlit = tree.root :=
        congrArg BlockTree.root (BlockTree.unlit_of_layOutText tree hLayOut)
      rw [go_cons_ok hLayOut]
      simp only [unlit, List.map_cons] at hEntries ⊢
      rw [hEntries, BlockTree.unlit, hDark]
    | error fault =>
      rw [go_cons_error hLayOut]
      simp only [unlit] at hEntries ⊢
      rw [hEntries]

theorem unlit_build (style : Style K) (placed : Collection K) :
    (build style placed).unlit = build style placed :=
  unlit_go style placed.entries

theorem skipped_go {entries : List (Nat × Placed K)}
    (h : ∀ e ∈ entries, Stored e.2.expression) : (build.go style entries).skipped = [] := by
  induction entries with
  | nil => rfl
  | cons e rest ih =>
    obtain ⟨hHead, hTail⟩ := List.forall_mem_cons.mp h
    obtain ⟨tree, hLayOut⟩ := hHead.exists_layOut style
    rw [go_cons_ok hLayOut]
    exact ih hTail

theorem skipped_build (h : placed.AllStored) :
    (build style placed).skipped = [] :=
  skipped_go h

theorem find?_go {entries : List (Nat × Placed K)} (h : ∀ e ∈ entries, Stored e.2.expression)
    {id : Nat} {t : BlockTree K} :
    ((build.go style entries).entries.find? fun e => e.id = id).map (·.tree) = some t ↔
      ∃ p tree, (entries.find? fun e => e.1 = id).map (·.2) = some p ∧
        style.layOutText p.expression = .ok tree ∧ t = { tree with origin := p.origin } := by
  induction entries with
  | nil => simp [build.go, empty]
  | cons e rest ih =>
    obtain ⟨hHead, hTail⟩ := List.forall_mem_cons.mp h
    obtain ⟨tree, hLayOut⟩ := hHead.exists_layOut style
    obtain ⟨first, p⟩ := e
    rw [go_cons_ok hLayOut]
    by_cases hId : first = id
    · rw [List.find?_cons_of_pos (by simp [hId]), List.find?_cons_of_pos (by simp [hId])]
      constructor
      · intro hTree
        exact ⟨p, tree, rfl, hLayOut, (Option.some.inj hTree).symm⟩
      · rintro ⟨q, other, hq, hOther, rfl⟩
        obtain rfl := Option.some.inj hq
        rw [hLayOut] at hOther
        obtain rfl := Except.ok.inj hOther
        rfl
    · rw [List.find?_cons_of_neg (by simp [hId]), List.find?_cons_of_neg (by simp [hId])]
      exact ih hTail

theorem tree?_build (h : placed.AllStored) {id : Nat} {t : BlockTree K} :
    (build style placed).tree? id = some t ↔
      ∃ p tree, placed.get? id = some p ∧ style.layOutText p.expression = .ok tree ∧
        t = { tree with origin := p.origin } :=
  find?_go h

end

end Canvas

end Blockwork
