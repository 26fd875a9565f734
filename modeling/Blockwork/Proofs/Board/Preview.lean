import Blockwork.Proofs.Board.PutBack

/-! # What a drag shows and what its end does

A frame that applies a pointer sample shows the leaf under the handle, and the end of a drag looks
for the leaf again. Both find the same one as long as the canvas is not scrolled in between and
only grows; what is added then lies behind the leaves that are there.
-/

set_option autoImplicit false

namespace Blockwork

variable {K : Type}

def Operation.Waits : Operation K → Prop
  | .pointerMove _ | .pointerUp _ | .pointerCancel => False
  | _ => True

namespace Canvas

/-- The second canvas is the first with further trees on top. -/
def Grows (base c : Canvas K) : Prop := ∃ more, c.entries = base.entries ++ more

section

variable {base c : Canvas K}

theorem Grows.tree? (h : base.Grows c) {id : Nat} {t : BlockTree K}
    (ht : base.tree? id = some t) : c.tree? id = some t := by
  obtain ⟨more, hEntries⟩ := h
  obtain ⟨e, he, rfl⟩ := Option.map_eq_some_iff.mp ht
  rw [Canvas.tree?, hEntries, List.find?_append, he]
  rfl

theorem Grows.leaves (h : base.Grows c) : ∃ more, c.leaves = base.leaves ++ more := by
  obtain ⟨more, hEntries⟩ := h
  exact ⟨_, by rw [Canvas.leaves, hEntries, List.flatMap_append]; rfl⟩

theorem exists_tree?_of_mem_leaves {leaf : LeafRef} (h : leaf ∈ c.leaves) :
    ∃ t, c.tree? leaf.placed = some t := by
  obtain ⟨e, he, hLeaf⟩ := List.mem_flatMap.mp h
  obtain ⟨block, -, rfl⟩ := List.mem_map.mp hLeaf
  have hFound : (c.entries.find? fun f => f.id = e.id).isSome := by
    rw [List.find?_isSome]
    exact ⟨e, he, by simp⟩
  obtain ⟨f, hf⟩ := Option.isSome_iff_exists.mp hFound
  exact ⟨f.tree, by rw [Canvas.tree?, hf]; rfl⟩

end

end Canvas

namespace Session

structure Aligned (s t : Session K) : Prop where
  width : t.viewport.paletteWidth = s.viewport.paletteWidth
  scroll : t.viewport.canvasScroll = s.viewport.canvasScroll

/-- A later session of the same drag, whose collection has only grown. -/
structure Waited (s t : Session K) : Prop where
  drag : t.drag = s.drag
  style : t.style = s.style
  width : t.viewport.paletteWidth = s.viewport.paletteWidth
  placed : ∃ more, t.placed = ⟨s.placed.entries ++ more, s.placed.next + more.length⟩

section

variable {s t : Session K}

theorem Waited.of_placed (hDrag : t.drag = s.drag) (hStyle : t.style = s.style)
    (hWidth : t.viewport.paletteWidth = s.viewport.paletteWidth)
    (hPlaced : t.placed = s.placed) : s.Waited t := by
  refine ⟨hDrag, hStyle, hWidth, [], ?_⟩
  rw [hPlaced, List.append_nil]
  rfl

theorem Waited.trans {u : Session K} (h : s.Waited t) (hu : t.Waited u) : s.Waited u := by
  obtain ⟨first, hFirst⟩ := h.placed
  obtain ⟨second, hSecond⟩ := hu.placed
  refine ⟨hu.drag.trans h.drag, hu.style.trans h.style, hu.width.trans h.width,
    first ++ second, ?_⟩
  rw [hSecond, hFirst]
  simp only [List.append_assoc, List.length_append, Nat.add_assoc]

end

end Session

variable [Scalar K]

namespace Canvas

theorem entries_go_append (style : Style K) (entries more : List (Nat × Placed K)) :
    (build.go style (entries ++ more)).entries =
      (build.go style entries).entries ++ (build.go style more).entries := by
  induction entries with
  | nil => rfl
  | cons e rest ih =>
    obtain ⟨id, p⟩ := e
    rw [List.cons_append]
    cases hLayOut : style.layOutText p.expression with
    | ok tree => rw [go_cons_ok hLayOut, go_cons_ok hLayOut, ih, List.cons_append]
    | error fault => rw [go_cons_error hLayOut, go_cons_error hLayOut, ih]

theorem Grows.checkArea {base c : Canvas K} (h : base.Grows c) {leaf : LeafRef}
    (hLeaf : leaf ∈ base.leaves) : c.checkArea leaf = base.checkArea leaf := by
  obtain ⟨t, ht⟩ := exists_tree?_of_mem_leaves hLeaf
  rw [Canvas.checkArea, h.tree? ht, Canvas.checkArea, ht]

end Canvas

namespace Session

section

variable {s t : Session K} {d e : Drag K}

theorem Aligned.isOverPalette (h : s.Aligned t) (p : Point K) :
    t.viewport.isOverPalette p = s.viewport.isOverPalette p := by
  rw [Viewport.isOverPalette, h.width, Viewport.isOverPalette]

theorem Aligned.globalToCanvas (h : s.Aligned t) (p : Point K) :
    t.viewport.globalToCanvas p = s.viewport.globalToCanvas p := by
  rw [Viewport.globalToCanvas, h.width, h.scroll, Viewport.globalToCanvas]

theorem probe_aligned (hAligned : s.Aligned t) (hCanvas : t.canvas.unlit = s.canvas.unlit) :
    t.probe d = s.probe d := by
  have hOver : t.freed.viewport.isOverPalette d.position =
      s.freed.viewport.isOverPalette d.position :=
    hAligned.isOverPalette d.position
  have hPoint : t.freed.viewport.globalToCanvas = s.freed.viewport.globalToCanvas :=
    funext hAligned.globalToCanvas
  have hDark : t.freed.canvas = s.freed.canvas := hCanvas
  rw [← probe_freed, ← probe_freed (s := s), probe, hOver, hPoint, hDark, probe]

/-- What is met stays first when the canvas grows. -/
theorem probe_of_grows (hAligned : s.Aligned t) (hGrows : s.canvas.Grows t.canvas)
    {c : Collision} (h : s.probe d = some c) : t.probe d = some c := by
  obtain ⟨hOutside, ⟨hMeets, before, after, hLeaves, hBefore⟩, b, hBlock, hAgrees⟩ := probe_inv h
  have hSame : ∀ leaf ∈ s.canvas.leaves, t.Meets d leaf ↔ s.Meets d leaf := by
    intro leaf hLeaf
    rw [Meets, Meets, hGrows.checkArea hLeaf]
    simp only [hAligned.globalToCanvas]
  have hMem : c.leaf ∈ s.canvas.leaves := by
    rw [hLeaves]
    exact List.mem_append_right _ List.mem_cons_self
  obtain ⟨more, hMore⟩ := hGrows.leaves
  have hFirst : t.FirstMet d c.leaf := by
    refine ⟨(hSame _ hMem).mpr hMeets, before, after ++ more, ?_, ?_⟩
    · rw [hMore, hLeaves, List.append_assoc, List.cons_append]
    · intro l hl hMet
      have hEarlier : l ∈ s.canvas.leaves := by
        rw [hLeaves]
        exact List.mem_append_left _ hl
      exact hBefore l hl ((hSame l hEarlier).mp hMet)
  have hLater : t.leafBlock? c.leaf = some b := by
    obtain ⟨tree, hTree, hb⟩ := Option.bind_eq_some_iff.mp hBlock
    rw [leafBlock?, hGrows.tree? hTree]
    exact hb
  rw [probe_of_firstMet ((hAligned.isOverPalette _).trans hOutside) hFirst hLater, ← hAgrees]

theorem Drops.merged_iff {outcome : Outcome} {next : Collection K} (h : s.Drops d outcome next)
    (target : Nat) :
    (∃ id, outcome = .merged target id) ↔
      ∃ c, s.probe d = some c ∧ c.agrees = true ∧ c.leaf.placed = target := by
  constructor
  · rintro ⟨id, rfl⟩
    cases h with
    | merged hOutside hFirst hBlock hType =>
      exact ⟨_, probe_of_firstMet hOutside hFirst hBlock, decide_eq_true hType, rfl⟩
  · rintro ⟨c, hProbe, hAgrees, rfl⟩
    obtain ⟨hOutside, hFirst, b, hBlock, hType⟩ := probe_inv hProbe
    rw [hAgrees, eq_comm, decide_eq_true_eq] at hType
    obtain ⟨_, _, _, _, -, -, hOutcome, -⟩ := h.of_agreement hOutside hFirst hBlock hType
    exact ⟨_, hOutcome⟩

theorem Consistent.merged_iff (h : s.Consistent) (hd : s.drag = some d)
    (hPending : d.pending = none) (target : Nat) :
    (∃ id after, s.pointerCancel = (.ok (.merged target id), after)) ↔
      ∃ c, s.probe d = some c ∧ c.agrees = true ∧ c.leaf.placed = target := by
  obtain ⟨outcome, next, hDrops, hRelease⟩ := h.exists_release hd .cancel
  rw [Drag.released_cancel hPending] at hDrops
  rw [release] at hRelease
  rw [← hDrops.merged_iff, hRelease]
  simp only [Prod.mk.injEq, Except.ok.injEq, exists_and_left, exists_eq', and_true]

theorem showCollision_drag (d : Drag K) (hPending : d.pending = none) :
    ∃ e, (s.showCollision d).2.drag = some e ∧ e.pending = none ∧ e.collision = s.probe d ∧
      e.owner = d.owner ∧ e.tree.unlit = d.tree.unlit := by
  have hTinted (tint : Tint) : (d.withHandle tint).tree.unlit = d.tree.unlit := by
    simp only [Drag.withHandle, BlockTree.unlit, Block.unlit_withHandle]
  have hDark : ({ s with canvas := s.canvas.unlit } : Session K).probe d = s.probe d :=
    probe_aligned ⟨rfl, rfl⟩ (Canvas.unlit_unlit s.canvas)
  rw [showCollision]
  dsimp only
  rw [hDark]
  split
  · rename_i hNone
    exact ⟨_, rfl, hPending, hNone.symm, rfl, hTinted .static⟩
  · rename_i c hSome
    exact ⟨_, rfl, hPending, hSome.symm, rfl, hTinted (Collision.tint c)⟩

theorem onFrame_shows (hd : s.drag = some e) (hSample : e.pending ≠ none) :
    ∃ d, s.onFrame.2.drag = some d ∧ d.pending = none ∧ d.collision = s.onFrame.2.probe d := by
  have hFrame : s.onFrame.2 = ({ s with framePending := false }.showCollision e.settled).2 := by
    rw [Session.onFrame]
    simp only [hd]
    split
    · rename_i hNone
      exact absurd hNone hSample
    · rfl
  have hCore := core_feedback s .frame
  have hCanvas := congrArg Session.canvas hCore
  have hViewport := congrArg Session.viewport hCore
  have hAligned : s.Aligned s.onFrame.2 :=
    ⟨congrArg Viewport.paletteWidth hViewport, congrArg Viewport.canvasScroll hViewport⟩
  obtain ⟨d, hDrag, hPending, hShown, hOwner, hTree⟩ :=
    showCollision_drag (s := { s with framePending := false }) e.settled e.pending_settled
  rw [← hFrame] at hDrag
  refine ⟨d, hDrag, hPending, ?_⟩
  rw [hShown, probe_aligned hAligned hCanvas, probe_congr hTree hOwner]
  rfl

theorem Waited.apply (hd : s.drag = some d) (hPending : d.pending = none)
    {operation : Operation K} (hWaits : operation.Waits) : s.Waited (s.apply operation) := by
  cases operation with
  | addExpression text origin =>
    rw [Session.apply, Session.addExpression]
    split
    · exact .of_placed rfl rfl rfl rfl
    · rename_i n _
      split
      · exact .of_placed rfl rfl rfl rfl
      · rename_i after hCommit
        obtain ⟨-, rfl⟩ := commit_inv hCommit
        exact ⟨rfl, rfl, rfl, [(s.placed.next, ⟨n.canonical, origin⟩)], rfl⟩
  | beginDrag source point =>
    rw [Session.apply, beginDrag_of_drag hd]
    exact .of_placed rfl rfl rfl rfl
  | pointerDown point =>
    rw [Session.apply, pointerDown_of_drag hd]
    exact .of_placed rfl rfl rfl rfl
  | onFrame =>
    rw [Session.apply, Session.onFrame]
    simp only [hd, hPending]
    exact .of_placed hd.symm rfl rfl rfl
  | scrollCanvas | scrollPalette | refresh => exact .of_placed rfl rfl rfl rfl
  | pointerMove | pointerUp | pointerCancel => exact hWaits.elim

theorem Waited.run (hd : s.drag = some d) (hPending : d.pending = none)
    {rest : List (Operation K)} (hRest : ∀ operation ∈ rest, operation.Waits) :
    s.Waited (s.run rest) := by
  induction rest generalizing s with
  | nil => exact .of_placed rfl rfl rfl rfl
  | cons operation rest ih =>
    obtain ⟨hHead, hTail⟩ := List.forall_mem_cons.mp hRest
    have hStep := Waited.apply hd hPending hHead
    exact hStep.trans (ih (hStep.drag.trans hd) hTail)

/-- While a drag waits, a probe finds what it found, if that was a leaf or nothing is added. -/
theorem Waited.probe (h : s.Waited t) (hs : s.Consistent) (ht : t.Consistent)
    (hScroll : t.viewport.canvasScroll = s.viewport.canvasScroll)
    (hAdded : s.probe d = none → t.placed.next = s.placed.next) : t.probe d = s.probe d := by
  obtain ⟨-, hStyle, hWidth, more, hPlaced⟩ := h
  have hAligned : s.Aligned t := ⟨hWidth, hScroll⟩
  have hDark := ht.canvas
  rw [hStyle, hPlaced] at hDark
  cases hProbe : s.probe d with
  | some c =>
    have hGrows : s.freed.canvas.Grows t.freed.canvas := by
      refine ⟨(Canvas.build.go s.style more).entries, ?_⟩
      rw [freed, hDark, freed, hs.canvas]
      exact Canvas.entries_go_append s.style s.placed.entries more
    have hFreed : s.freed.Aligned t.freed := ⟨hWidth, hScroll⟩
    rw [← probe_freed] at hProbe
    rw [← probe_freed, probe_of_grows hFreed hGrows hProbe]
  | none =>
    have hNext := hAdded hProbe
    rw [hPlaced] at hNext
    obtain rfl : more = [] := List.eq_nil_of_length_eq_zero (Nat.add_left_cancel hNext)
    have hCanvas : t.canvas.unlit = s.canvas.unlit := by
      rw [hDark, hs.canvas, List.append_nil]
      rfl
    rw [probe_aligned hAligned hCanvas, hProbe]

/-- A cancelled drag is merged where a probe finds a leaf of its type. This is what the drag shows
if a frame has applied a sample and since then the canvas was not scrolled away and, unless a leaf
is shown, nothing was added. -/
theorem Reachable.cancel_merges (h : s.Reachable) :
    (∀ d, s.drag = some d → d.pending = none → ∀ target,
      (∃ id after, s.pointerCancel = (.ok (.merged target id), after)) ↔
        ∃ c, s.probe d = some c ∧ c.agrees = true ∧ c.leaf.placed = target) ∧
    ∀ e rest, s.drag = some e → e.pending ≠ none → (∀ operation ∈ rest, operation.Waits) →
      let shown := s.apply .onFrame
      let last := shown.run rest
      last.viewport.canvasScroll = shown.viewport.canvasScroll →
      ∃ d, last.drag = some d ∧ d.pending = none ∧
        ((d.collision = none → last.placed.next = shown.placed.next) → ∀ target,
          (∃ id after, last.pointerCancel = (.ok (.merged target id), after)) ↔
            ∃ c, d.collision = some c ∧ c.agrees = true ∧ c.leaf.placed = target) := by
  constructor
  · intro d hd hPending
    exact h.consistent.merged_iff hd hPending
  · intro e rest hDrag hSample hRest shown last hScroll
    obtain ⟨d, hd, hPending, hShown⟩ := onFrame_shows hDrag hSample
    have hBefore : shown.Reachable := h.apply .onFrame
    have hLast : last.Consistent := (hBefore.run rest).consistent
    have hWaited : shown.Waited last := Waited.run hd hPending hRest
    have hLater : last.drag = some d := hWaited.drag.trans hd
    refine ⟨d, hLater, hPending, fun hAdded => ?_⟩
    rw [hShown] at hAdded ⊢
    have hProbe : last.probe d = s.onFrame.2.probe d :=
      hWaited.probe hBefore.consistent hLast hScroll hAdded
    rw [← hProbe]
    exact hLast.merged_iff hLater hPending

end

theorem Reachable.cancel_merges_shown :
    ∃ (s : Session Float) (e d : Drag Float), s.Reachable ∧ s.drag = some e ∧ e.pending ≠ none ∧
      let last := (s.apply .onFrame).run [.onFrame]
      last.drag = some d ∧ (∃ after, last.pointerCancel = (.ok (.merged 1 2), after)) ∧
        ∃ c, d.collision = some c ∧ c.agrees = true ∧ c.leaf.placed = 1 := by
  obtain ⟨first, second, hFirst, hSecond, d, b, hPlaced, hDrag, -, -, hNotOver, hMet, hBlock,
    hType, -⟩ := exists_draggedSum
  have hReachable := reachable_draggedSum hFirst hSecond
  have hOutside : (draggedSum first second).viewport.isOverPalette
      (d.released (.up ⟨(316 : Nat), (100 : Nat)⟩)).position = false := by
    rw [← Bool.not_eq_true, Viewport.isOverPalette_iff]
    exact hNotOver
  obtain ⟨outcome, next, hDrops, hRelease⟩ :=
    hReachable.consistent.exists_release hDrag (.up ⟨(316 : Nat), (100 : Nat)⟩)
  obtain ⟨_, _, _, _, -, -, rfl, -⟩ := hDrops.of_agreement hOutside hMet hBlock hType
  let s := (draggedSum first second).apply (.pointerMove ⟨(316 : Nat), (100 : Nat)⟩)
  have hMoved : s.drag = some (d.sampled ⟨(316 : Nat), (100 : Nat)⟩) := drag_pointerMove hDrag _
  have hSample : (d.sampled ⟨(316 : Nat), (100 : Nat)⟩).pending ≠ none := Option.some_ne_none _
  have hCancel := pointerCancel_feed hDrag [] 2 ⟨(316 : Nat), (100 : Nat)⟩
  have hMerged : ((s.apply .onFrame).run [.onFrame]).pointerCancel =
      (.ok (.merged 1 (draggedSum first second).placed.next), _) := hCancel.trans hRelease
  rw [hPlaced] at hMerged
  have hCore := core_feedback (s.apply .onFrame) .frame
  have hViewport := congrArg Session.viewport hCore
  have hPlaced := congrArg Session.placed hCore
  obtain ⟨e, he, -, hShown⟩ := (hReachable.apply (.pointerMove _)).cancel_merges.2 _ [.onFrame]
    hMoved hSample (by simp [Operation.Waits]) (congrArg Viewport.canvasScroll hViewport)
  have hAdded := congrArg Collection.next hPlaced
  exact ⟨s, _, e, hReachable.apply _, hMoved, hSample, he, ⟨_, hMerged⟩,
    (hShown (fun _ => hAdded) 1).mp ⟨_, _, hMerged⟩⟩

/-- Cancelling the drag and what the drag shows disagree on a target. -/
def Misleads (s : Session K) (target : Nat) : Prop :=
  ∃ d, s.drag = some d ∧ d.pending = none ∧
    ¬ ((∃ id after, s.pointerCancel = (.ok (.merged target id), after)) ↔
      ∃ c, d.collision = some c ∧ c.agrees = true ∧ c.leaf.placed = target)

def misses (s : Session K) (target : Nat) : Bool :=
  s.drag.any fun d => d.pending.isNone && d.collision.isNone &&
    (s.probe d).any fun c => c.agrees && c.leaf.placed == target

theorem Reachable.misleads {s : Session K} {target : Nat} (h : s.Reachable)
    (hMisses : s.misses target = true) : s.Misleads target := by
  obtain ⟨d, hd, hMisses⟩ := (Option.any_eq_true _ _).mp hMisses
  simp only [Bool.and_eq_true, Option.isNone_iff_eq_none, Option.any_eq_true, beq_iff_eq]
    at hMisses
  obtain ⟨⟨hPending, hNone⟩, hFound⟩ := hMisses
  refine ⟨d, hd, hPending, fun hIff => ?_⟩
  obtain ⟨c, hSome, -⟩ := hIff.mp ((h.consistent.merged_iff hd hPending target).mpr hFound)
  rw [hNone] at hSome
  cases hSome

theorem exists_misses :
    let place : Point Float := ⟨(100 : Nat), (100 : Nat)⟩
    let below : Point Float := ⟨(100 : Nat), (500 : Nat)⟩
    ∃ tree piece edited sum : BlockTree Float, bare.style.layOutText "((a+b)*c)" = .ok tree ∧
      bare.style.layOutText "(a+b)" = .ok piece ∧
      bare.style.layOutText "(NaN*c)" = .ok edited ∧ bare.style.layOutText "(x+y)" = .ok sum ∧
      ∃ e, tree.entry? 2 = some e ∧
        let position := bare.viewport.canvasToGlobal
          (BlockTree.originOf { tree with origin := place } e)
        let begun := pulledProduct piece edited position
        let moved := begun.run [.pointerMove ⟨(400 : Nat), (500 : Nat)⟩, .onFrame]
        begun.misses 1 = true ∧
        (begun.run [.scrollCanvas ⟨(0 : Nat), (1000 : Nat)⟩,
          .pointerMove ⟨(400 : Nat), (100 : Nat)⟩, .onFrame, .scrollCanvas .zero]).misses 1 = true ∧
        misses { moved with
          placed := ⟨[(1, ⟨"(NaN*c)", place⟩), (2, ⟨"(x+y)", below⟩)], 3⟩
          canvas := ⟨[⟨1, { edited with origin := place }⟩, ⟨2, { sum with origin := below }⟩],
            []⟩ } 2 = true := by
  intro place below
  have ha : Node.read "(a+b)" = .ok (.group (.operator .add [.symbol "a", .symbol "b"])) := by cbv
  have hx : Node.read "(x+y)" = .ok (.group (.operator .add [.symbol "x", .symbol "y"])) := by cbv
  rw [Style.layOutText, read_product, Style.layOutText, ha, Style.layOutText, read_leftover,
    Style.layOutText, hx]
  refine ⟨_, _, _, _, rfl, rfl, rfl, rfl, _, rfl, ?_, ?_, ?_⟩
  · decide +kernel
  · decide +kernel
  · decide +kernel

theorem addExpression_pulledProduct {piece edited sum : BlockTree Float} {position : Point Float}
    (hReachable : (pulledProduct piece edited position).Reachable)
    (hEdited : bare.style.layOutText "(NaN*c)" = .ok edited)
    (hSum : bare.style.layOutText "(x+y)" = .ok sum) {p below : Point Float} :
    (pulledProduct piece edited position).run [.pointerMove p, .onFrame,
        .addExpression "x + y" below] =
      { (pulledProduct piece edited position).run [.pointerMove p, .onFrame] with
        placed := ⟨[(1, ⟨"(NaN*c)", ⟨(100 : Nat), (100 : Nat)⟩⟩), (2, ⟨"(x+y)", below⟩)], 3⟩
        canvas := ⟨[⟨1, { edited with origin := ⟨(100 : Nat), (100 : Nat)⟩ }⟩,
          ⟨2, { sum with origin := below }⟩], []⟩ } := by
  have hx : Node.read "x + y" = .ok (.operator .add [.symbol "x", .symbol "y"]) := by cbv
  have hText : (Node.operator .add [.symbol "x", .symbol "y"]).canonical = "(x+y)" := by decide
  have hCore := core_feed (pulledProduct piece edited position) [.move p, .frame]
  have hPlaced := congrArg Session.placed hCore
  have hStyle := congrArg Session.style hCore
  generalize hMoved : (pulledProduct piece edited position).run [.pointerMove p, .onFrame] = moved
  have hConsistent : moved.Consistent := hMoved ▸ (hReachable.run _).consistent
  have hPlaced : moved.placed = ⟨[(1, ⟨"(NaN*c)", ⟨(100 : Nat), (100 : Nat)⟩⟩)], 2⟩ :=
    hMoved ▸ hPlaced
  have hStyle : moved.style = bare.style := hMoved ▸ hStyle
  have hRun : (pulledProduct piece edited position).run [.pointerMove p, .onFrame,
      .addExpression "x + y" below] = (moved.addExpression "x + y" below).2 :=
    congrArg (fun s => (s.addExpression "x + y" below).2) hMoved
  rw [hRun, hConsistent.addExpression_eq hx (shown_sum "x" "y") below, hPlaced, hText]
  simp only [hStyle, Collection.add, List.cons_append, List.nil_append, Canvas.build,
    Canvas.build.go, hEdited, hSum, Canvas.empty]

/-- The sum that was pulled out of the product is merged without a leaf being shown: right after
the pull, after scrolling back, and into an expression that came later. -/
theorem Reachable.cancel_merges_unseen :
    ∃ begun : Session Float, begun.Reachable ∧ begun.Misleads 1 ∧
      (begun.run [.scrollCanvas ⟨(0 : Nat), (1000 : Nat)⟩,
        .pointerMove ⟨(400 : Nat), (100 : Nat)⟩, .onFrame, .scrollCanvas .zero]).Misleads 1 ∧
      (begun.run [.pointerMove ⟨(400 : Nat), (500 : Nat)⟩, .onFrame,
        .addExpression "x + y" ⟨(100 : Nat), (500 : Nat)⟩]).Misleads 2 := by
  obtain ⟨tree, piece, edited, hTree, hPiece, hEdited, hRootId, e, l, hEntry, -, hPath, hText,
    hType, -⟩ := exists_pulledProduct
  obtain ⟨tree', piece', edited', sum, hTree', hPiece', hEdited', hSum, e', hEntry', hBegun,
    hScrolled, hAdded⟩ := exists_misses
  obtain rfl := Except.ok.inj (hTree.symm.trans hTree')
  obtain rfl := Except.ok.inj (hPiece.symm.trans hPiece')
  obtain rfl := Except.ok.inj (hEdited.symm.trans hEdited')
  obtain rfl := Option.some.inj (hEntry.symm.trans hEntry')
  have hInner : 2 ≠ tree.rootId := by
    rw [hRootId]
    decide
  have hBegin := beginDrag_product hTree hPiece hEdited hInner hEntry hPath hText hType
  have hReachable := reachable_product.apply (.beginDrag (.canvas 0 2) ⟨(400 : Nat), (100 : Nat)⟩)
  rw [Session.apply, hBegin] at hReachable
  have hLast := hReachable.run [.pointerMove ⟨(400 : Nat), (500 : Nat)⟩, .onFrame,
    .addExpression "x + y" ⟨(100 : Nat), (500 : Nat)⟩]
  refine ⟨_, hReachable, hReachable.misleads hBegun, (hReachable.run _).misleads hScrolled,
    hLast.misleads ?_⟩
  rw [addExpression_pulledProduct hReachable hEdited hSum]
  exact hAdded

end Session

end Blockwork
