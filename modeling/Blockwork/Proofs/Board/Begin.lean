import Blockwork.Proofs.Board.Consistency

/-! # The begin of a drag

A template is copied. The root of a placed expression takes the whole expression along and leaves
the collection as it is; every other block becomes a tree of its own and leaves the placeholder of
its type, under a new id. In a consistent session a drag begins in one of these ways or not at all,
and nothing fails.
-/

set_option autoImplicit false

namespace Blockwork

variable {K : Type} [Scalar K]

namespace Session

theorem beginDrag_of_drag {s : Session K} {d : Drag K} (hd : s.drag = some d) (source : Source)
    (point : Point K) : s.beginDrag source point = (.ok false, s) := by
  have hDragging : s.isDragging = true := congrArg Option.isSome hd
  unfold Session.beginDrag
  rw [if_pos hDragging]

theorem pointerDown_of_drag {s : Session K} {d : Drag K} (hd : s.drag = some d)
    (point : Point K) : s.pointerDown point = (.ok none, s) := by
  have hDragging : s.isDragging = true := congrArg Option.isSome hd
  rw [Session.pointerDown, if_pos hDragging]

/-- A drag that begins lifts the layout of a template or what is detached from the canvas. -/
theorem beginDrag_inv {s begun : Session K} {source : Source} {point : Point K}
    (h : s.beginDrag source point = (.ok true, begun)) :
    s.drag = none ∧
      ((∃ index t tree, source = .template index ∧ s.palette.templates[index]? = some t ∧
        s.style.layOutText t.expression = .ok tree ∧
        begun = s.lift ⟨tree, none, s.viewport.paletteToGlobal t.origin⟩ point) ∨
      ∃ placed block d after, source = .canvas placed block ∧
        s.detach placed block = .ok (d, after) ∧ begun = after.lift d point) := by
  unfold Session.beginDrag at h
  split at h
  · cases h
  · rename_i hIdle
    refine ⟨by simpa [isDragging] using hIdle, ?_⟩
    cases source with
    | template index =>
      dsimp only at h
      split at h
      · cases h
      · rename_i t hTemplate
        split at h
        · cases h
        · rename_i tree hTree
          cases h
          exact .inl ⟨index, t, tree, rfl, hTemplate, hTree, rfl⟩
    | canvas placed block =>
      dsimp only at h
      split at h
      · split at h <;> cases h
      · rename_i d after hDetach
        cases h
        exact .inr ⟨placed, block, d, after, rfl, hDetach, rfl⟩

theorem down_inv {s begun : Session K} {source : Source} {point : Point K}
    (h : s.pointerDown point = (.ok (some source), begun)) :
    s.beginDrag source point = (.ok true, begun) := by
  rw [Session.pointerDown] at h
  split at h
  · cases h
  · split at h
    · cases h
    · rename_i found _
      split at h
      · cases h
      · rename_i began after hBegin
        obtain ⟨hAnswer, rfl⟩ := Prod.mk.inj h
        cases began with
        | false => cases hAnswer
        | true =>
          cases hAnswer
          exact hBegin

/-- What is taken off at a block, and the session that is left. -/
inductive Detaches (s : Session K) (placed block : Nat) : Detached K → Session K → Prop where
  | whole {tree : BlockTree K} {e : Entry K} (hTree : s.canvas.tree? placed = some tree)
      (hEntry : tree.entry? block = some e) (hRoot : block = tree.rootId) :
      Detaches s placed block
        ⟨tree.unlit, some placed, s.viewport.canvasToGlobal (tree.originOf e)⟩ s
  | part {tree piece : BlockTree K} {e : Entry K} {p : Placed K} {n r : Node} {path : List Nat}
      (hTree : s.canvas.tree? placed = some tree) (hEntry : tree.entry? block = some e)
      (hInner : block ≠ tree.rootId) (hLocated : s.Located placed e.block p n path)
      (hRead : Node.read e.block.frame.type.placeholder = .ok r)
      (hPiece : s.style.layOutText e.block.frame.expression = .ok piece)
      {next : Collection K}
      (hNext : next = (s.placed.add ⟨(n.ungroup.put path r).canonical, p.origin⟩).erase placed) :
      Detaches s placed block ⟨piece, none, s.viewport.canvasToGlobal (tree.originOf e)⟩
        { s with placed := next, canvas := .build s.style next }

section

variable {s : Session K}

theorem Consistent.exists_detach (h : s.Consistent) {placed block : Nat} {tree : BlockTree K}
    {e : Entry K} (hTree : s.canvas.tree? placed = some tree)
    (hEntry : tree.entry? block = some e) :
    ∃ d after, s.detach placed block = .ok (d, after) ∧ s.Detaches placed block d after := by
  have hBlock : tree.block? block = some e.block := by
    rw [BlockTree.block?, hEntry]
    rfl
  obtain ⟨p, n, path, hLocated⟩ := h.exists_located hTree hBlock
  simp only [Session.detach, hLocated.placed, hTree, hEntry]
  split
  · rename_i hRoot
    exact ⟨_, _, rfl, .whole hTree hEntry hRoot⟩
  · rename_i hInner
    -- The placeholder, the piece and the edited text all lay out, so no step of the edit fails.
    have hPlaceholder := Stored.placeholder e.block.frame.type
    obtain ⟨r, hRead, -⟩ := hPlaceholder.read
    obtain ⟨piece, hPiece⟩ := hLocated.stored.exists_layOut s.style
    have hNext := (h.stored.add (p := ⟨(n.ungroup.put path r).canonical, p.origin⟩)
      (hLocated.stored_put hPlaceholder hRead)).erase placed
    refine ⟨_, _, ?_, .part hTree hEntry hInner hLocated hRead hPiece rfl⟩
    simp only [hLocated.substitute hRead, hPiece, commit_of_stored hNext, bind, Except.bind]
    rfl

theorem Consistent.detach_cases (h : s.Consistent) (placed block : Nat) :
    (∃ d after, s.detach placed block = .ok (d, after) ∧ s.Detaches placed block d after) ∨
      s.detach placed block = .error (.missingOwner placed) := by
  cases hTree : s.canvas.tree? placed with
  | none =>
    rw [Session.detach, hTree]
    cases s.placed.get? placed <;> exact .inr rfl
  | some tree =>
    cases hEntry : tree.entry? block with
    | some e => exact .inl (h.exists_detach hTree hEntry)
    | none =>
      obtain ⟨p, -, hPlaced, -⟩ := h.exists_tree hTree
      simp only [Session.detach, hPlaced, hTree, hEntry, or_true]

theorem Consistent.detaches (h : s.Consistent) (hDrag : s.drag = none) {placed block : Nat}
    {d : Detached K} {after : Session K} (hDetaches : s.Detaches placed block d after) :
    after.Consistent ∧ Stored d.tree.expression ∧
      ∀ id, d.owner = some id →
        ∃ p, after.placed.get? id = some p ∧ p.expression = d.tree.expression := by
  cases hDetaches with
  | @whole tree _ hTree =>
    obtain ⟨p, hp, hText⟩ := h.expression_tree hTree
    rw [← BlockTree.expression_unlit] at hText
    refine ⟨h, hText ▸ h.stored.get? hp, fun id hid => ?_⟩
    obtain rfl := Option.some.inj hid
    exact ⟨p, hp, hText⟩
  | part _ _ _ hLocated hRead hPiece hNext =>
    subst hNext
    refine ⟨?_, Stored.of_layOut hPiece, nofun⟩
    apply h.committed
    · exact (h.stored.add (hLocated.stored_put (.placeholder _) hRead)).erase placed
    · exact (h.ordered.add _).erase placed
    · rw [hDrag]
      nofun

theorem Consistent.lift (h : s.Consistent) {d : Detached K} (hStored : Stored d.tree.expression)
    (hOwner : ∀ id, d.owner = some id →
      ∃ p, s.placed.get? id = some p ∧ p.expression = d.tree.expression) (point : Point K) :
    (s.lift d point).Consistent := by
  have hText : (d.tree.root.withBackground .dragging).frame.expression = d.tree.expression :=
    Block.expression_withBackground d.tree.root .dragging
  rw [← hText] at hStored hOwner
  exact h.withDrag ⟨hStored, hOwner⟩

end

/-- The session in which a drag from a source has begun. -/
inductive Begins (s : Session K) (point : Point K) : Source → Session K → Prop where
  | template {index : Nat} {t tree : BlockTree K} (hIdle : s.drag = none)
      (hTemplate : t ∈ s.palette.templates) (hTree : s.style.layOutText t.expression = .ok tree) :
      Begins s point (.template index)
        (s.lift ⟨tree, none, s.viewport.paletteToGlobal t.origin⟩ point)
  | canvas {placed block : Nat} {d : Detached K} {after : Session K} (hIdle : s.drag = none)
      (hDetaches : s.Detaches placed block d after) :
      Begins s point (.canvas placed block) (after.lift d point)

section

variable {s after : Session K}

/-- A drag begins at every block of the canvas. -/
theorem Consistent.exists_begun (h : s.Consistent) (hIdle : s.drag = none)
    {placed block : Nat} {tree : BlockTree K} {e : Entry K}
    (hTree : s.canvas.tree? placed = some tree) (hEntry : tree.entry? block = some e)
    (point : Point K) :
    ∃ after, s.beginDrag (.canvas placed block) point = (.ok true, after) ∧
      s.Begins point (.canvas placed block) after := by
  obtain ⟨d, after, hDetach, hDetaches⟩ := h.exists_detach hTree hEntry
  refine ⟨after.lift d point, ?_, .canvas hIdle hDetaches⟩
  simp only [Session.beginDrag, isDragging, hIdle, hDetach]
  rfl

theorem Consistent.beginDrag_cases (h : s.Consistent) (source : Source) (point : Point K) :
    (∃ after, s.beginDrag source point = (.ok true, after) ∧ s.Begins point source after) ∨
      s.beginDrag source point = (.ok false, s) := by
  unfold Session.beginDrag
  split
  · exact .inr rfl
  · rename_i hIdle
    have hIdle : s.drag = none := by simpa [isDragging] using hIdle
    cases source with
    | template index =>
      dsimp only
      split
      · exact .inr rfl
      · rename_i t hTemplate
        have hMem := List.mem_of_getElem? hTemplate
        obtain ⟨tree, hTree⟩ := (h.palette t hMem).exists_layOut s.style
        rw [hTree]
        exact .inl ⟨_, rfl, .template hIdle hMem hTree⟩
    | canvas placed block =>
      dsimp only
      rcases h.detach_cases placed block with ⟨d, after, hDetach, hDetaches⟩ | hMissing
      · rw [hDetach]
        exact .inl ⟨_, rfl, .canvas hIdle hDetaches⟩
      · rw [hMissing]
        exact .inr rfl

theorem Consistent.pointerDown_cases (h : s.Consistent) (point : Point K) :
    (∃ source after, s.pointerDown point = (.ok (some source), after) ∧
      s.Begins point source after) ∨ s.pointerDown point = (.ok none, s) := by
  rw [Session.pointerDown]
  split
  · exact .inr rfl
  · split
    · exact .inr rfl
    · rename_i source _
      rcases h.beginDrag_cases source point with ⟨after, hBegin, hBegins⟩ | hNone
      · rw [hBegin]
        exact .inl ⟨source, after, rfl, hBegins⟩
      · rw [hNone]
        exact .inr rfl

theorem Consistent.begins (h : s.Consistent) {source : Source} {point : Point K}
    (hBegins : s.Begins point source after) : after.Consistent := by
  cases hBegins with
  | template _ _ hTree => exact h.lift (Stored.of_layOut hTree) (fun id hid => by cases hid) point
  | canvas hIdle hDetaches =>
    obtain ⟨hAfter, hStored, hOwner⟩ := h.detaches hIdle hDetaches
    exact hAfter.lift hStored hOwner point

theorem Consistent.beginDrag (h : s.Consistent) (source : Source) (point : Point K) :
    (s.beginDrag source point).2.Consistent := by
  rcases h.beginDrag_cases source point with ⟨after, hBegin, hBegins⟩ | hNone
  · rw [hBegin]
    exact h.begins hBegins
  · rw [hNone]
    exact h

theorem Consistent.pointerDown (h : s.Consistent) (point : Point K) :
    (s.pointerDown point).2.Consistent := by
  rcases h.pointerDown_cases point with ⟨source, after, hDown, hBegins⟩ | hNone
  · rw [hDown]
    exact h.begins hBegins
  · rw [hNone]
    exact h

end

end Session

end Blockwork
