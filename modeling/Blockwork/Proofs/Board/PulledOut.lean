import Blockwork.Proofs.Block.Replay
import Blockwork.Proofs.Board.Drawn
import Blockwork.Proofs.Board.PutBack

/-! # What becomes of a branch that is pulled out

A pull is committed at once, and from then on the branch is in the drag only. Whatever the program
does to the collection in the meantime, the release puts the text of the branch back into it or
deletes it at the palette; only a drop on a leaf of an expression that was taken away or rewritten
behind the canvas's back is another matter, and the first of these is given up.
-/

set_option autoImplicit false

namespace Blockwork

variable {K : Type}

def Operation.Holds : Operation K → Prop
  | .pointerUp _ | .pointerCancel => False
  | _ => True

def Operation.pointer (last : Point K) : Operation K → Point K
  | .pointerMove point => point
  | _ => last

/-- Some expression or a part of one has the canonical text. -/
def Collection.Says (c : Collection K) (text : String) : Prop :=
  ∃ e ∈ c.entries, ∃ n path sub, Node.read e.2.expression = .ok n ∧
    n.ungroup.descend path = some sub ∧ sub.canonical = text

theorem Collection.says_of_put {c : Collection K} {e : Nat × Placed K} {n m r : Node}
    {path : List Nat} {text : String} (he : e ∈ c.entries) (hn : n.Readable)
    (hPath : n.ungroup.descend path = some m) (hRead : Node.read text = .ok r)
    (hText : r.canonical = text)
    (hExpression : e.2.expression = (n.ungroup.put path r).canonical) : c.Says text := by
  have hReadable := hn.ungroup.put (Node.readable_of_read hRead) path
  refine ⟨e, he, (n.ungroup.put path r).regroup, path, r.ungroup, ?_, ?_, ?_⟩
  · rw [hExpression]
    exact Node.read_canonical hReadable
  · rw [Node.ungroup_regroup, Node.ungroup_put (Node.ungroup_ungroup n)]
    exact Node.descend_put hPath _
  · rw [Node.canonical_ungroup, hText]

theorem Collection.says_of_mem {c : Collection K} {e : Nat × Placed K} (he : e ∈ c.entries)
    (hStored : Stored e.2.expression) : c.Says e.2.expression := by
  obtain ⟨n, hRead, hText, -, -⟩ := hStored.read
  exact ⟨e, he, n, [], n.ungroup, hRead, rfl, by rw [Node.canonical_ungroup, hText]⟩

variable [Scalar K]

namespace Session

/-- A branch of its own is dragged. -/
def Carries (s : Session K) (text : String) : Prop :=
  ∃ d, s.drag = some d ∧ d.owner = none ∧ d.expression = text

/-- What the program does between the begin of a drag and its end. -/
inductive Meanwhile (begun : Session K) : Session K → Prop where
  | begun : Meanwhile begun begun
  | apply {s : Session K} (h : Meanwhile begun s) {operation : Operation K}
      (hHolds : operation.Holds) : Meanwhile begun (s.apply operation)
  | edit {s : Session K} (h : Meanwhile begun s) (edit : Collection K → Collection K) :
      Meanwhile begun (s.editPlaced edit)

/-- The expression under an id still says what the canvas shows. -/
def Current (s : Session K) (id : Nat) : Prop :=
  ∃ t p n, s.canvas.tree? id = some t ∧ s.placed.get? id = some p ∧
    Node.read p.expression = .ok n ∧ n.canonical = t.expression

section

variable {s begun last : Session K} {text : String}

theorem apply_held {d : Drag K} (hd : s.drag = some d) {operation : Operation K}
    (hHolds : operation.Holds) :
    (s.apply operation).drag = some d ∧ (∀ last, operation.pointer last = last) ∨
      operation = .onFrame ∨ ∃ point, operation = .pointerMove point := by
  cases operation with
  | addExpression text origin =>
    refine .inl ⟨?_, fun _ => rfl⟩
    rw [Session.apply]
    rcases s.addExpression_cases text origin with ⟨fault, hAdd⟩ | ⟨next, hAdd⟩ <;> rw [hAdd] <;>
      exact hd
  | beginDrag source point =>
    refine .inl ⟨?_, fun _ => rfl⟩
    rw [Session.apply, beginDrag_of_drag hd]
    exact hd
  | pointerDown point =>
    refine .inl ⟨?_, fun _ => rfl⟩
    rw [Session.apply, pointerDown_of_drag hd]
    exact hd
  | pointerMove point => exact .inr (.inr ⟨point, rfl⟩)
  | onFrame => exact .inr (.inl rfl)
  | pointerUp | pointerCancel => exact hHolds.elim
  | scrollCanvas | scrollPalette | refresh => exact .inl ⟨hd, fun _ => rfl⟩

theorem Carries.apply (h : s.Carries text) {operation : Operation K}
    (hHolds : operation.Holds) : (s.apply operation).Carries text := by
  obtain ⟨d, hd, hOwner, hText⟩ := h
  have hFeedback (step : Feedback K) : (s.feedback step).Carries text := by
    obtain ⟨e, he, hCore⟩ := exists_drag_of_core (core_feedback s step) hd
    have hFollows := Drag.follows_of_core hCore
    exact ⟨e, he, hFollows.owner.trans hOwner,
      (Block.expression_of_unlit hFollows.root).trans hText⟩
  rcases apply_held hd hHolds with ⟨hSame, -⟩ | rfl | ⟨point, rfl⟩
  · exact ⟨d, hSame, hOwner, hText⟩
  · exact hFeedback .frame
  · exact hFeedback (.move point)

theorem Meanwhile.carries (h : begun.Meanwhile last) (hBegun : begun.Carries text) :
    last.Carries text := by
  induction h with
  | begun => exact hBegun
  | apply _ hHolds ih => exact ih.apply hHolds
  | edit _ _ ih => exact ih

theorem Meanwhile.attainable (h : begun.Meanwhile last) (hBegun : begun.Attainable) :
    last.Attainable := by
  induction h with
  | begun => exact hBegun
  | @apply _ _ operation _ ih => exact ih.apply operation
  | edit _ edit ih => exact ih.edit edit

theorem Drawn.carries (h : s.Drawn) {id block : Nat} {t : BlockTree K} {b : Block K}
    {point : Point K} (hTree : s.canvas.tree? id = some t) (hBlock : t.block? block = some b)
    (hInner : block ≠ t.rootId)
    (hBegin : s.beginDrag (.canvas id block) point = (.ok true, begun)) :
    Stored b.frame.expression ∧ begun.Carries b.frame.expression := by
  obtain ⟨source, n, path, hRead, hShown, -, hShows⟩ := h.exists_shows hTree hBlock
  have hStored := Stored.of_block hRead hShown hShows
  refine ⟨hStored, ?_⟩
  obtain ⟨-, ⟨index, -, -, hSource, -⟩ | ⟨_, _, d, after, hSource, hDetach, rfl⟩⟩ :=
    beginDrag_inv hBegin
  · cases hSource
  · cases hSource
    obtain ⟨tree, e, hOther, hEntry, ⟨hRoot, -⟩ | ⟨-, hOwner, hPiece, -⟩⟩ := detach_inv hDetach
    · obtain rfl := Option.some.inj (hTree.symm.trans hOther)
      exact absurd hRoot hInner
    · obtain rfl := Option.some.inj (hTree.symm.trans hOther)
      obtain rfl : e.block = b := by
        rw [BlockTree.block?, hEntry] at hBlock
        exact Option.some.inj hBlock
      refine ⟨_, rfl, hOwner, ?_⟩
      exact (Block.expression_withBackground d.tree.root .dragging).trans
        (hStored.expression_eq hPiece)

theorem Consistent.current (h : s.Consistent) {id : Nat} {t : BlockTree K}
    (ht : s.canvas.tree? id = some t) : s.Current id := by
  obtain ⟨p, hp, hText⟩ := h.expression_tree ht
  obtain ⟨n, hRead, hCanonical, -, -⟩ := (h.stored.get? hp).read
  exact ⟨t, p, n, ht, hp, hRead, hCanonical.trans hText⟩

theorem Current.merge {leaf : LeafRef} {b : Block K} (h : s.Current leaf.placed) (hs : s.Drawn)
    (hb : s.leafBlock? leaf = some b) (hStored : Stored text) :
    ∃ next, s.merge s.placed leaf text = .ok (s.placed.next, next) ∧ next.Says text ∧
      ∀ e ∈ next.entries, e ∈ s.placed.entries ∨ Stored e.2.expression := by
  obtain ⟨t, p, n, ht, hp, hRead, hCurrent⟩ := h
  have hBlock : t.block? leaf.block = some b := by
    rwa [leafBlock?, ht] at hb
  obtain ⟨source, m, path, hSource, hShown, hText, hShows⟩ := hs.exists_shows ht hBlock
  -- The text may be spelled in another way, and the address finds the leaf all the same.
  have hReadable := Node.readable_of_read hRead
  have hSame : m.ungroup = n.ungroup :=
    (Node.canonical_inj (Node.readable_of_read hSource) hReadable).mp (hText.trans hCurrent.symm)
  have hShows : b.Shows n none .empty path := by
    obtain ⟨hNode, hAddress⟩ := hShows
    rw [hSame] at hNode hAddress
    exact ⟨hNode, hAddress⟩
  have hShown : n.Shown := by
    apply Node.shown_of_ungroup
    rw [← hSame]
    exact hShown.ungroup
  obtain ⟨r, hr, hrText, -, hrShown⟩ := hStored.read
  obtain ⟨sub, hSub, -⟩ := hShows.text
  refine ⟨(s.placed.add ⟨(n.ungroup.put path r).canonical, p.origin⟩).erase leaf.placed, ?_, ?_, ?_⟩
  · rw [Session.merge, hp, ht, Option.bind_some, hBlock]
    simp only [hShows.substitute hRead hr]
    rfl
  · exact Collection.says_of_put (Collection.mem_replaced hp _) hReadable hSub hr hrText rfl
  · apply Collection.forall_mem_erase
    exact Collection.forall_mem_add (fun e he => .inl he) (.inr (.put hRead hShown hr hrShown path))

variable {d : Drag K}

/-- A drop deletes at the palette, and elsewhere the collection says what was dropped. -/
theorem exists_drop_of_current (hs : s.Drawn) (hOwner : d.owner = none)
    (hStored : Stored d.expression)
    (hTarget : ∀ c, s.probe d = some c → c.agrees = true → s.Current c.leaf.placed) :
    ∃ outcome next, s.drop d = .ok (outcome, next) ∧
      (s.viewport.isOverPalette d.position = true ∧ outcome = .deleted none ∨
        next.Says d.expression) ∧
      ∀ e ∈ next.entries, e ∈ s.placed.entries ∨ Stored e.2.expression := by
  have hPlace : (s.placed.add ⟨d.expression, s.dropOrigin d⟩).Says d.expression ∧
      ∀ e ∈ (s.placed.add ⟨d.expression, s.dropOrigin d⟩).entries,
        e ∈ s.placed.entries ∨ Stored e.2.expression := by
    have hLast : (s.placed.next, (⟨d.expression, s.dropOrigin d⟩ : Placed K)) ∈
        (s.placed.add ⟨d.expression, s.dropOrigin d⟩).entries :=
      List.mem_append_right _ List.mem_cons_self
    exact ⟨Collection.says_of_mem hLast hStored,
      Collection.forall_mem_add (fun e he => .inl he) (.inr hStored)⟩
  cases hOver : s.viewport.isOverPalette d.position with
  | true =>
    rw [drop, if_pos hOver, hOwner]
    exact ⟨_, _, rfl, .inl ⟨rfl, rfl⟩, fun e he => .inl he⟩
  | false =>
    rw [drop_of_probe hOver]
    cases hProbe : s.probe d with
    | none => exact ⟨_, _, rfl, .inr hPlace.1, hPlace.2⟩
    | some c =>
      dsimp only
      split
      · rename_i hAgrees
        obtain ⟨-, -, b, hBlock, -⟩ := probe_inv hProbe
        obtain ⟨next, hMerge, hSays, hEntries⟩ := (hTarget c hProbe hAgrees).merge hs hBlock hStored
        rw [hMerge]
        exact ⟨_, next, rfl, .inr hSays, hEntries⟩
      · exact ⟨_, _, rfl, .inr hPlace.1, hPlace.2⟩

theorem release_vanished (hd : s.drag = some d) {release : Release K} {c : Collision}
    (hProbe : s.probe (d.released release) = some c) (hAgrees : c.agrees = true)
    (hGone : s.placed.get? c.leaf.placed = none) :
    s.release release = (.ok .aborted, s.freed) := by
  obtain ⟨hOutside, -⟩ := probe_inv hProbe
  have hMerge : s.merge s.placed c.leaf (d.released release).expression =
      .error (.missingOwner c.leaf.placed) := by
    rw [merge, hGone]
  rw [release_eq hd, drop_freed, drop_of_probe hOutside, hProbe]
  dsimp only
  rw [if_pos hAgrees, hMerge]
  rfl

theorem release_rewritten (hs : s.Drawn) (hd : s.drag = some d) (hOwner : d.owner = none)
    (hStored : Stored d.expression) {release : Release K} {c : Collision}
    (hProbe : s.probe (d.released release) = some c) (hAgrees : c.agrees = true)
    {t : BlockTree K} {p : Placed K} {m : Node} (ht : s.canvas.tree? c.leaf.placed = some t)
    (hp : s.placed.get? c.leaf.placed = some p) (hRead : Node.read p.expression = .ok m)
    (hShown : m.Shown) (hOther : m.canonical ≠ t.expression) :
    ∃ final, s.release release = (.ok (.merged c.leaf.placed s.placed.next), final) ∧
      final.placed = (s.placed.add ⟨m.canonical, p.origin⟩).erase c.leaf.placed := by
  obtain ⟨hOutside, -, b, hBlock, -⟩ := probe_inv hProbe
  rw [leafBlock?, ht, Option.bind_some] at hBlock
  obtain ⟨source, n, path, -, -, hText, hShows⟩ := hs.exists_shows ht hBlock
  obtain ⟨r, hr, -⟩ := hStored.read
  rw [← hText] at hOther
  have hMerge : s.merge s.placed c.leaf (d.released release).expression =
      .ok (s.placed.next, (s.placed.add ⟨m.canonical, p.origin⟩).erase c.leaf.placed) := by
    rw [merge, hp, ht, Option.bind_some, hBlock, Drag.expression_released]
    simp only [hShows.substitute_stale hRead hr hOther]
    rfl
  have hEntries : ∀ e ∈ ((s.placed.add ⟨m.canonical, p.origin⟩).erase c.leaf.placed).entries,
      e ∈ s.freed.placed.entries ∨ Stored e.2.expression := by
    apply Collection.forall_mem_erase
    exact Collection.forall_mem_add (fun e he => .inl he) (.inr (.of_read hRead hShown))
  have hLeave (c : Collection K) : d.leave c = c := by
    rw [Drag.leave, hOwner]
  rw [release_eq hd, drop_freed, drop_of_probe hOutside, hProbe]
  dsimp only
  rw [if_pos hAgrees, hMerge]
  simp only [Except.map, hLeave, commit_of_entries hEntries]
  exact ⟨_, rfl, rfl⟩

variable {id block : Nat} {t : BlockTree K} {b : Block K} {point : Point K}

/-- An inner block that is pulled out is deleted at the palette or its text is kept, unless it is
dropped on an expression that was taken away or rewritten behind the canvas's back; if that was
taken away, the drop is given up. -/
theorem Attainable.pulled_kept (h : s.Attainable) (hTree : s.canvas.tree? id = some t)
    (hBlock : t.block? block = some b) (hInner : block ≠ t.rootId)
    (hBegin : s.beginDrag (.canvas id block) point = (.ok true, begun))
    (hLast : begun.Meanwhile last) (release : Release K) :
    ∃ d answer final, last.drag = some d ∧ d.expression = b.frame.expression ∧
      last.release release = (answer, final) ∧
      ((∀ c, last.probe (d.released release) = some c → c.agrees = true →
          last.Current c.leaf.placed) →
        ∃ outcome, answer = .ok outcome ∧ outcome ≠ .aborted ∧
          (last.viewport.isOverPalette (d.released release).position = true ∧
              outcome = .deleted none ∨
            final.placed.Says b.frame.expression)) ∧
      ∀ c, last.probe (d.released release) = some c → c.agrees = true →
        last.placed.get? c.leaf.placed = none →
          answer = .ok .aborted ∧ final.placed = last.placed := by
  obtain ⟨hStored, hCarries⟩ := h.drawn.carries hTree hBlock hInner hBegin
  have hBegun : begun.Attainable := by
    have hApplied := h.apply (.beginDrag (.canvas id block) point)
    rwa [Session.apply, hBegin] at hApplied
  obtain ⟨d, hd, hOwner, hText⟩ := hLast.carries hCarries
  have hDrawn := (hLast.attainable hBegun).drawn
  rw [← hText] at hStored ⊢
  refine ⟨d, (last.release release).1, (last.release release).2, hd, rfl, rfl, ?_, ?_⟩
  · intro hTarget
    have hReleasedOwner : (d.released release).owner = none := by
      rw [Drag.owner_released, hOwner]
    have hReleasedText : Stored (d.released release).expression := by
      rwa [Drag.expression_released]
    obtain ⟨outcome, next, hDrop, hKept, hEntries⟩ :=
      exists_drop_of_current hDrawn hReleasedOwner hReleasedText hTarget
    rw [Drag.expression_released] at hKept
    have hLeave : d.leave next = next := by
      rw [Drag.leave, hOwner]
    have hCommit := commit_of_entries (s := last.freed) hEntries
    rw [release_eq hd, drop_freed, hDrop]
    dsimp only
    rw [hLeave, hCommit]
    exact ⟨outcome, rfl, drop_ne_aborted hDrop, hKept⟩
  · intro c hProbe hAgrees hGone
    rw [release_vanished hd hProbe hAgrees hGone]
    exact ⟨rfl, rfl⟩

end

theorem exists_begunProduct :
    ∃ (t : BlockTree Float) (b : Block Float) (begun : Session Float) (d : Drag Float),
      product.canvas.tree? 0 = some t ∧ t.block? 2 = some b ∧ 2 ≠ t.rootId ∧ b.isLeaf = false ∧
      b.frame.expression = "(a+b)" ∧
      product.beginDrag (.canvas 0 2) ⟨(400 : Nat), (100 : Nat)⟩ = (.ok true, begun) ∧
      begun.Reachable ∧
      begun.placed = ⟨[(1, ⟨"(NaN*c)", ⟨(100 : Nat), (100 : Nat)⟩⟩)], 2⟩ ∧
      begun.drag = some d ∧ begun.probe (d.released .cancel) = some ⟨⟨1, 0⟩, true⟩ := by
  obtain ⟨tree, piece, edited, hTree, hPiece, hEdited, hRootId, e, l, hEntry, hBranch, hPath,
    hText, hType, hLeft, -, d, hDrag, hFirst, hNotOver⟩ := exists_pulledProduct
  have hInner : 2 ≠ tree.rootId := by
    rw [hRootId]
    decide
  have hBegin := beginDrag_product hTree hPiece hEdited hInner hEntry hPath hText hType
  have hBegun := reachable_product.apply (.beginDrag (.canvas 0 2) ⟨(400 : Nat), (100 : Nat)⟩)
  rw [Session.apply, hBegin] at hBegun
  obtain rfl := Option.some.inj hDrag
  rw [← Viewport.isOverPalette_iff, Bool.not_eq_true] at hNotOver
  refine ⟨_, e.block, _, _, tree?_product hTree, congrArg (Option.map Entry.block) hEntry, hInner,
    hBranch, hText, hBegin, hBegun, rfl, rfl, ?_⟩
  have ha : Node.read "(a+b)" = .ok (.group (.operator .add [.symbol "a", .symbol "b"])) := by cbv
  rw [Style.layOutText, ha] at hPiece
  rw [Style.layOutText, read_leftover] at hEdited
  obtain rfl := Except.ok.inj hPiece
  obtain rfl := Except.ok.inj hEdited
  obtain rfl := Option.some.inj hLeft
  exact probe_of_firstMet hNotOver hFirst rfl

theorem Attainable.pulled_kept_product :
    ∃ (begun final : Session Float) (outcome : Outcome), product.Attainable ∧
      product.beginDrag (.canvas 0 2) ⟨(400 : Nat), (100 : Nat)⟩ = (.ok true, begun) ∧
      (begun.editPlaced fun c => c.add ⟨"x", .origin⟩).release .cancel = (.ok outcome, final) ∧
      final.placed.Says "(a+b)" := by
  obtain ⟨t, b, begun, d, hTree, hBlock, hInner, -, hText, hBegin, hBegun, -, hDrag, hMet⟩ :=
    exists_begunProduct
  let last := begun.editPlaced fun c => c.add ⟨"x", .origin⟩
  have hProbe : last.probe (d.released .cancel) = some ⟨⟨1, 0⟩, true⟩ := hMet
  obtain ⟨hOutside, -, l, hLeaf, -⟩ := probe_inv hProbe
  have hCurrent : last.Current 1 := by
    obtain ⟨u, hu, -⟩ := Option.bind_eq_some_iff.mp hLeaf
    obtain ⟨u, p, n, hu, hp, hRead, hSame⟩ := hBegun.consistent.current hu
    exact ⟨u, p, n, hu, Collection.get?_add_of_get? _ hp, hRead, hSame⟩
  obtain ⟨d', answer, final, hDrag', -, hRelease, hKept, -⟩ :=
    reachable_product.attainable.pulled_kept hTree hBlock hInner hBegin (.edit .begun _) .cancel
  obtain rfl := Option.some.inj (hDrag.symm.trans hDrag')
  rw [hText] at hKept
  obtain ⟨outcome, rfl, -, hEnd⟩ := hKept fun c hFound _ => by
    obtain rfl := Option.some.inj (hProbe.symm.trans hFound)
    exact hCurrent
  refine ⟨begun, final, outcome, reachable_product.attainable, hBegin, hRelease, ?_⟩
  rcases hEnd with ⟨hOver, -⟩ | hSays
  · cases hOver.symm.trans hOutside
  · exact hSays

/-- Neither the rewritten product nor a part of it is the sum. -/
theorem not_says_product (id : Nat) (origin : Point Float) (next : Nat) :
    ¬ Collection.Says ⟨[(id, ⟨"(x*c)", origin⟩)], next⟩ "(a+b)" := by
  have hRead : Node.read "(x*c)" = .ok (.group (.operator .mul [.symbol "x", .symbol "c"])) := by
    cbv
  rintro ⟨e, he, n, path, sub, hn, hSub, hText⟩
  obtain rfl := List.mem_singleton.mp he
  obtain rfl := Except.ok.inj (hRead.symm.trans hn)
  cases path with
  | nil =>
    obtain rfl := Option.some.inj hSub
    revert hText
    decide
  | cons k path =>
    obtain ⟨operand, hOperand, hSub⟩ := Node.exists_operand_of_descend hSub
    have hMem : operand ∈ [Node.symbol "x", .symbol "c"] := List.mem_of_getElem? hOperand
    obtain ⟨name, rfl, hName⟩ : ∃ name, operand = .symbol name ∧ name ≠ "(a+b)" := by
      rcases List.mem_cons.mp hMem with rfl | hMem
      · exact ⟨"x", rfl, by decide⟩
      · exact ⟨"c", List.mem_singleton.mp hMem, by decide⟩
    cases path with
    | nil =>
      obtain rfl := Option.some.inj hSub
      exact hName hText
    | cons k path =>
      obtain ⟨_, hNone, -⟩ := Node.exists_operand_of_descend hSub
      cases hNone

/-- The sum pulled out of the product is lost when it is released over the placeholder, after all
expressions were taken away, and after the one that is there was rewritten. -/
theorem Attainable.pulled_lost :
    ∃ (t : BlockTree Float) (b : Block Float) (begun : Session Float),
      product.Attainable ∧ product.canvas.tree? 0 = some t ∧ t.block? 2 = some b ∧
      2 ≠ t.rootId ∧ b.isLeaf = false ∧ b.frame.expression = "(a+b)" ∧
      product.beginDrag (.canvas 0 2) ⟨(400 : Nat), (100 : Nat)⟩ = (.ok true, begun) ∧
      (∃ final, (begun.editPlaced .clear).release .cancel = (.ok .aborted, final) ∧
        ¬ final.placed.Says "(a+b)") ∧
      ∃ final, (begun.editPlaced fun c => c.set 1 ⟨"(x*c)", .origin⟩).release .cancel =
          (.ok (.merged 1 2), final) ∧
        ¬ final.placed.Says "(a+b)" := by
  obtain ⟨t, b, begun, d, hTree, hBlock, hInner, hBranch, hText, hBegin, hBegun, hPlaced, hDrag,
    hMet⟩ := exists_begunProduct
  have hProbe (edit : Collection Float → Collection Float) :
      (begun.editPlaced edit).probe (d.released .cancel) = some ⟨⟨1, 0⟩, true⟩ := hMet
  refine ⟨t, b, begun, reachable_product.attainable, hTree, hBlock, hInner, hBranch, hText, hBegin,
    ?_, ?_⟩
  · refine ⟨_, release_vanished (s := begun.editPlaced .clear) hDrag (hProbe _) rfl rfl, ?_⟩
    rintro ⟨entry, hMem, -⟩
    cases hMem
  · have hRead : Node.read "(x*c)" = .ok (.group (.operator .mul [.symbol "x", .symbol "c"])) := by
      cbv
    have hShown : (Node.group (.operator .mul [.symbol "x", .symbol "c"])).Shown := by
      apply Node.Shown.group
      apply Node.Shown.operator rfl
      simp [Node.Shown.symbol]
    obtain ⟨hStored, d', hDrag', hOwner, hExpression⟩ :=
      reachable_product.attainable.drawn.carries hTree hBlock hInner hBegin
    obtain rfl := Option.some.inj (hDrag.symm.trans hDrag')
    rw [← hExpression] at hStored
    obtain ⟨-, -, l, hLeaf, -⟩ := probe_inv hMet
    obtain ⟨u, hu, -⟩ := Option.bind_eq_some_iff.mp hLeaf
    obtain ⟨p, hp, hSame⟩ := hBegun.consistent.expression_tree hu
    rw [hPlaced] at hp
    obtain rfl := Option.some.inj hp
    have hOther : (Node.group (.operator .mul [.symbol "x", .symbol "c"])).canonical ≠
        u.expression := by
      rw [← hSame]
      decide
    let last := begun.editPlaced fun c => c.set 1 ⟨"(x*c)", .origin⟩
    have hLast : last.placed = ⟨[(1, ⟨"(x*c)", .origin⟩)], 2⟩ :=
      congrArg (fun c => c.set 1 ⟨"(x*c)", .origin⟩) hPlaced
    have hThere : last.placed.get? 1 = some ⟨"(x*c)", .origin⟩ := by
      rw [hLast]
      rfl
    obtain ⟨final, hRelease, hFinal⟩ := release_rewritten (s := last)
      (hBegun.attainable.edit _).drawn hDrag hOwner hStored (hProbe _) rfl hu hThere hRead hShown
      hOther
    rw [hLast] at hRelease hFinal
    refine ⟨final, hRelease, ?_⟩
    rw [hFinal]
    exact not_says_product _ _ _

end Session

end Blockwork
