import Blockwork.Board.Session
import Blockwork.Proofs.Board.Canvas

/-! # Consistent sessions

In a consistent session every placed text is canonical and lays out, the dark canvas is the one
built from the placed expressions, and what is dragged as a whole is still placed with the text of
the drag. Additions, pointer moves and frames keep a session consistent, whether they succeed or
fail.
-/

set_option autoImplicit false

namespace Blockwork

variable {K : Type}

/-- A drag agrees with the collection that its owner is placed in. -/
structure Drag.Fits (d : Drag K) (placed : Collection K) : Prop where
  stored : Stored d.expression
  owner : ∀ id, d.owner = some id → ∃ p, placed.get? id = some p ∧ p.expression = d.expression

namespace Drag

def sampled (d : Drag K) (point : Point K) : Drag K := { d with pending := some point }

variable {d : Drag K}

theorem Fits.sampled {c : Collection K} (h : d.Fits c) (point : Point K) :
    (d.sampled point).Fits c := by
  constructor
  · exact h.stored
  · exact h.owner

theorem Fits.withHandle {c : Collection K} (h : d.Fits c) (tint : Tint) :
    (d.withHandle tint).Fits c := by
  have hText : (d.withHandle tint).expression = d.expression :=
    Block.expression_withHandle d.tree.root tint
  constructor
  · rw [hText]
    exact h.stored
  · intro id hid
    rw [hText]
    exact h.owner id hid

variable [Scalar K]

@[simp] theorem expression_settled : d.settled.expression = d.expression := by
  rw [settled]
  split <;> rfl

@[simp] theorem owner_settled : d.settled.owner = d.owner := by
  rw [settled]
  split <;> rfl

theorem Fits.settled {c : Collection K} (h : d.Fits c) : d.settled.Fits c := by
  constructor
  · simpa using h.stored
  · simpa using h.owner

end Drag

theorem Session.drag_pointerMove {s : Session K} {d : Drag K} (hd : s.drag = some d)
    (point : Point K) : (s.pointerMove point).2.drag = some (d.sampled point) := by
  rw [Session.pointerMove, hd]
  dsimp only
  split <;> rfl

variable [Scalar K]

namespace Session

structure Consistent (s : Session K) : Prop where
  stored : s.placed.AllStored
  canvas : s.canvas.unlit = .build s.style s.placed
  ordered : s.placed.Ordered
  palette : ∀ t ∈ s.palette.templates, Stored t.expression
  drag : ∀ d, s.drag = some d → d.Fits s.placed

section

variable {s : Session K}

theorem checkStaged_of_entries {entries : List (Nat × Placed K)}
    (h : ∀ e ∈ entries, e ∈ s.placed.entries ∨ Stored e.2.expression) :
    s.checkStaged entries = .ok () := by
  induction entries with
  | nil => rfl
  | cons e rest ih =>
    obtain ⟨hHead, hTail⟩ := List.forall_mem_cons.mp h
    rw [checkStaged, ih hTail]
    rcases hHead with hMem | hStored
    · rw [if_pos (Collection.contains_iff.mpr (List.mem_map_of_mem hMem))]
    · obtain ⟨tree, hLayOut⟩ := hStored.exists_layOut s.style
      rw [hLayOut]
      split <;> rfl

/-- A collection whose new expressions lay out is committed. -/
theorem commit_of_entries {next : Collection K}
    (h : ∀ e ∈ next.entries, e ∈ s.placed.entries ∨ Stored e.2.expression) :
    s.commit next = .ok { s with placed := next, canvas := .build s.style next } := by
  rw [commit, checkStaged_of_entries h]

theorem commit_of_stored {next : Collection K} (h : next.AllStored) :
    s.commit next = .ok { s with placed := next, canvas := .build s.style next } :=
  commit_of_entries fun e he => .inr (h e he)

theorem exists_layOut_of_checkStaged {entries : List (Nat × Placed K)}
    (h : s.checkStaged entries = .ok ()) {e : Nat × Placed K} (he : e ∈ entries)
    (hNew : s.placed.contains e.1 = false) :
    ∃ tree, s.style.layOutText e.2.expression = .ok tree := by
  induction entries with
  | nil => cases he
  | cons f rest ih =>
    rw [checkStaged] at h
    rcases List.mem_cons.mp he with rfl | he
    · rw [hNew, if_neg Bool.false_ne_true] at h
      split at h
      · cases h
      · rename_i tree hTree
        exact ⟨tree, hTree⟩
    · split at h
      · exact ih h he
      · split at h
        · cases h
        · exact ih h he

theorem commit_inv {next : Collection K} {after : Session K} (h : s.commit next = .ok after) :
    s.checkStaged next.entries = .ok () ∧
      after = { s with placed := next, canvas := .build s.style next } := by
  rw [commit] at h
  split at h
  · cases h
  · rename_i hCheck
    exact ⟨hCheck, (Except.ok.inj h).symm⟩

theorem Consistent.committed (h : s.Consistent) {next : Collection K}
    (hStored : next.AllStored) (hOrdered : next.Ordered)
    (hDrag : ∀ d, s.drag = some d → d.Fits next) :
    Consistent { s with placed := next, canvas := .build s.style next } where
  stored := hStored
  canvas := Canvas.unlit_build s.style next
  ordered := hOrdered
  palette := h.palette
  drag := hDrag

theorem Consistent.withDrag (h : s.Consistent) {d : Drag K} (hFits : d.Fits s.placed) :
    Consistent { s with drag := some d } := by
  refine { h with drag := ?_ }
  rintro e hSome
  obtain rfl := Option.some.inj hSome
  exact hFits

theorem shown_of_layOut_canonical {text : String} {n : Node} {tree : BlockTree K}
    {style : Style K} (hRead : Node.read text = .ok n)
    (hLayOut : style.layOutText n.canonical = .ok tree) : n.Shown := by
  obtain ⟨m, b, hCanonical, hBlock, -⟩ := Style.layOutText_inv hLayOut
  rw [Node.read_canonical (Node.readable_of_read hRead)] at hCanonical
  obtain rfl := Except.ok.inj hCanonical
  have hShown := Node.shown_of_layOut style n.regroup none .empty hBlock
  apply Node.shown_of_ungroup
  rw [← Node.ungroup_regroup]
  exact hShown.ungroup

/-- An expression is added in its canonical form, or nothing changes. -/
theorem Consistent.addExpression_cases (h : s.Consistent) (text : String) (origin : Point K) :
    (∃ n : Node, Node.read text = .ok n ∧ n.Shown ∧
      let next := s.placed.add ⟨n.canonical, origin⟩
      s.addExpression text origin =
        (.ok s.placed.next, { s with placed := next, canvas := .build s.style next })) ∨
      ∃ fault, s.addExpression text origin = (.error fault, s) := by
  rw [Session.addExpression]
  split
  · exact .inr ⟨_, rfl⟩
  · rename_i n hRead
    split
    · exact .inr ⟨_, rfl⟩
    · rename_i after hCommit
      obtain ⟨hCheck, rfl⟩ := commit_inv hCommit
      have hFresh : s.placed.contains s.placed.next = false := by
        rw [← Bool.not_eq_true, Collection.contains_iff]
        exact h.ordered.next_notMem
      obtain ⟨tree, hLayOut⟩ := exists_layOut_of_checkStaged hCheck
        (List.mem_append_right _ List.mem_cons_self) hFresh
      exact .inl ⟨n, hRead, shown_of_layOut_canonical hRead hLayOut, rfl⟩

theorem Consistent.addExpression (h : s.Consistent) (text : String) (origin : Point K) :
    (s.addExpression text origin).2.Consistent := by
  rcases h.addExpression_cases text origin with ⟨n, hRead, hShown, hAdded⟩ | ⟨fault, hFault⟩
  · rw [hAdded]
    apply h.committed (h.stored.add (Stored.of_read hRead hShown)) (h.ordered.add _)
    intro d hd
    obtain ⟨hStored, hOwner⟩ := h.drag d hd
    refine ⟨hStored, fun id hid => ?_⟩
    obtain ⟨p, hp, hText⟩ := hOwner id hid
    exact ⟨p, Collection.get?_add_of_get? _ hp, hText⟩
  · rw [hFault]
    exact h

theorem Consistent.addExpression_eq (h : s.Consistent) {text : String} {n : Node}
    (hRead : Node.read text = .ok n) (hShown : n.Shown) (origin : Point K) :
    let next := s.placed.add ⟨n.canonical, origin⟩
    s.addExpression text origin =
      (.ok s.placed.next, { s with placed := next, canvas := .build s.style next }) := by
  intro next
  have hNext : next.AllStored := h.stored.add (Stored.of_read hRead hShown)
  rw [Session.addExpression, hRead]
  dsimp only
  rw [commit_of_stored hNext]

theorem Consistent.exists_tree (h : s.Consistent) {id : Nat} {t : BlockTree K}
    (ht : s.canvas.tree? id = some t) :
    ∃ p tree, s.placed.get? id = some p ∧ s.style.layOutText p.expression = .ok tree ∧
      t.unlit = { tree with origin := p.origin } := by
  apply (Canvas.tree?_build h.stored).mp
  rw [← h.canvas, Canvas.tree?_unlit, ht]
  rfl

theorem Consistent.expression_tree (h : s.Consistent) {id : Nat} {t : BlockTree K}
    (ht : s.canvas.tree? id = some t) :
    ∃ p, s.placed.get? id = some p ∧ p.expression = t.expression := by
  obtain ⟨p, tree, hp, hTree, hUnlit⟩ := h.exists_tree ht
  refine ⟨p, hp, ?_⟩
  rw [← BlockTree.expression_unlit, hUnlit]
  exact ((h.stored.get? hp).expression_eq hTree).symm

/-- A block of the canvas with the placed text that it is a part of. -/
structure Located (s : Session K) (id : Nat) (b : Block K) (p : Placed K) (n : Node)
    (path : List Nat) : Prop where
  placed : s.placed.get? id = some p
  read : Node.read p.expression = .ok n
  shown : n.Shown
  tree : ∃ tree, s.style.layOutText p.expression = .ok tree ∧
    tree.root.descend path = some b.unlit
  shows : b.Shows n none .empty path

theorem Consistent.located_of_descend (h : s.Consistent) {id : Nat} {t : BlockTree K}
    {b : Block K} {path : List Nat} (ht : s.canvas.tree? id = some t)
    (hb : t.root.descend path = some b) : ∃ p n, s.Located id b p n path := by
  obtain ⟨p, tree, hp, hTree, hUnlit⟩ := h.exists_tree ht
  obtain ⟨n, hRead, hShown, -, hPath, hShows⟩ :=
    Style.exists_shows hTree (congrArg BlockTree.root hUnlit) hb
  exact ⟨p, n, hp, hRead, hShown, ⟨tree, hTree, hPath⟩, hShows⟩

theorem Consistent.exists_located (h : s.Consistent) {id block : Nat} {t : BlockTree K}
    {b : Block K} (ht : s.canvas.tree? id = some t) (hb : t.block? block = some b) :
    ∃ p n path, s.Located id b p n path := by
  obtain ⟨path, hPath⟩ := BlockTree.exists_descend hb
  obtain ⟨p, n, hLocated⟩ := h.located_of_descend ht hPath
  exact ⟨p, n, path, hLocated⟩

theorem Located.substitute {id : Nat} {b : Block K} {p : Placed K} {n r : Node} {path : List Nat}
    (h : s.Located id b p n path) {replacement : String}
    (hReplacement : Node.read replacement = .ok r) :
    b.frame.address.substitute p.expression replacement =
      .ok (n.ungroup.put path r).canonical :=
  h.shows.substitute h.read hReplacement

theorem Located.path_eq {id : Nat} {b : Block K} {p : Placed K} {n : Node} {path other : List Nat}
    (h : s.Located id b p n path) (hOther : s.Located id b p n other) : other = path :=
  h.shows.path_eq hOther.shows

theorem Located.stored {id : Nat} {b : Block K} {p : Placed K} {n : Node} {path : List Nat}
    (h : s.Located id b p n path) : Stored b.frame.expression :=
  .of_block h.read h.shown h.shows

theorem Located.stored_put {id : Nat} {b : Block K} {p : Placed K} {n r : Node} {path : List Nat}
    (h : s.Located id b p n path) {replacement : String} (hStored : Stored replacement)
    (hReplacement : Node.read replacement = .ok r) :
    Stored (n.ungroup.put path r).canonical := by
  obtain ⟨r', hr', -, -, hShown⟩ := hStored.read
  obtain rfl := Except.ok.inj (hReplacement.symm.trans hr')
  exact .put h.read h.shown hReplacement hShown path

theorem Consistent.pointerMove (h : s.Consistent) (point : Point K) :
    (s.pointerMove point).2.Consistent := by
  rw [Session.pointerMove]
  split
  · exact h
  · rename_i d hd
    have hMoved := h.withDrag ((h.drag d hd).sampled point)
    dsimp only
    split
    · exact hMoved
    · exact { hMoved with }

theorem Consistent.showCollision (h : s.Consistent) {d : Drag K} (hFits : d.Fits s.placed) :
    (s.showCollision d).2.Consistent := by
  have hDark : s.canvas.unlit.unlit = .build s.style s.placed :=
    (Canvas.unlit_unlit s.canvas).trans h.canvas
  rw [Session.showCollision]
  dsimp only
  have hTinted : ∀ (tint : Tint) (c : Option Collision),
      Drag.Fits { d.withHandle tint with collision := c } s.placed := by
    intro tint c
    obtain ⟨hStored, hOwner⟩ := hFits.withHandle tint
    exact ⟨hStored, hOwner⟩
  split
  · exact { h.withDrag (hTinted .static none) with canvas := hDark }
  · rename_i c hProbe
    have hRing : ∀ t : BlockTree K,
        (t.modify c.leaf.block (Block.withRing (Collision.tint c) ((1 : Nat) : K))).unlit =
          t.unlit :=
      fun t => BlockTree.unlit_modify t (fun b => Block.unlit_withRing b _ _) _
    exact { h.withDrag (hTinted (Collision.tint c) (some c)) with
      canvas := (Canvas.unlit_modify s.canvas.unlit hRing _).trans hDark }

theorem Consistent.onFrame (h : s.Consistent) : s.onFrame.2.Consistent := by
  have hDone : Consistent { s with framePending := false } := { h with }
  rw [Session.onFrame]
  dsimp only
  split
  · exact hDone
  · rename_i d hd
    split
    · exact hDone
    · exact hDone.showCollision (h.drag d hd).settled

theorem Consistent.refresh (h : s.Consistent) : s.refresh.Consistent :=
  { h with canvas := Canvas.unlit_build s.style s.placed }

end

end Session

end Blockwork
