import Blockwork.Proofs.Block.Twin
import Blockwork.Proofs.Board.Frames
import Blockwork.Proofs.Board.Fresh
import Blockwork.Proofs.Board.Handles
import Blockwork.Proofs.Board.Source

/-! # Where a drag comes from

A drag begins at the block that its source names, and it shows that block until it ends. The pointer
goes down on branches only, but a program may name a leaf as well. A leaf that is dragged has no
handle, so it meets nothing, wherever it goes.
-/

set_option autoImplicit false

namespace Blockwork

variable {K : Type} [Scalar K]

theorem Block.Twins.isLeaf {b c : Block K} (h : b.Twins c) : c.isLeaf = b.isLeaf := by
  have hShape := h.leafShape
  cases b <;> cases c <;> first | rfl | cases hShape

structure Drag.Shows (d : Drag K) (b : Block K) : Prop where
  twins : d.tree.root.Twins b
  apart : b.isLeaf = true → d.collision = none

namespace Session

def sourceBlock? (s : Session K) : Source → Option (Block K)
  | .template index => s.palette.templates[index]?.map (·.root)
  | .canvas placed block => (s.canvas.tree? placed).bind (·.block? block)

/-- A call that begins a drag: the program names the source, or the pointer goes down on it. -/
inductive Starts (s : Session K) (source : Source) : Call K → Prop where
  | named {point : Point K} {after : Session K}
      (h : s.beginDrag source point = (.ok true, after)) :
      Starts s source (.operation (.beginDrag source point))
  | pressed {point : Point K} {after : Session K}
      (h : s.pointerDown point = (.ok (some source), after)) :
      Starts s source (.operation (.pointerDown point))

/-- The trees of the palette and the canvas are layouts of texts, highlights apart, and those of the
canvas have ids of their own. -/
structure Laid (s : Session K) : Prop where
  ordered : s.placed.Ordered
  canvas : ∃ c : Collection K, c.Ordered ∧ s.canvas.unlit = .build s.style c
  palette : ∀ t ∈ s.palette.templates,
    ∃ text tree, s.style.layOutText text = .ok tree ∧ t.root = tree.root

section

variable {s after : Session K} {d e : Drag K} {b : Block K} {source : Source} {point : Point K}

theorem call_rebuilds (s : Session K) (call : Call K) : s.Rebuilds (s.call call) := by
  cases call with
  | edit edit => exact ⟨⟨rfl, rfl⟩, .inl rfl⟩
  | operation operation => exact s.apply_rebuilds operation

theorem laid_new {settings : Settings K} {fonts : Fonts K}
    (h : new settings fonts = .ok s) : s.Laid := by
  obtain ⟨style, palette, hPalette, rfl⟩ := new_inv h
  constructor
  · exact Collection.ordered_empty
  · exact ⟨.empty, Collection.ordered_empty, rfl⟩
  · exact Palette.laid_of_build hPalette

theorem Laid.call (h : s.Laid) (call : Call K) : (s.call call).Laid := by
  obtain ⟨⟨hStyle, hPalette⟩, hCanvas⟩ := s.call_rebuilds call
  obtain ⟨count, -, hContinues, -⟩ := s.advances_call call
  have hOrdered := hContinues.ordered h.ordered
  refine ⟨hOrdered, ?_, ?_⟩
  · rw [hStyle]
    rcases hCanvas with hSame | hBuilt
    · rw [hSame]
      exact h.canvas
    · exact ⟨_, hOrdered, by rw [hBuilt, Canvas.unlit_build]⟩
  · rw [hStyle, hPalette]
    exact h.palette

theorem Laid.perform (h : s.Laid) (calls : List (Call K)) : (s.perform calls).Laid := by
  induction calls generalizing s with
  | nil => exact h
  | cons call calls ih => exact ih (h.call call)

theorem Laid.distinct (h : s.Laid) : s.canvas.Distinct := by
  obtain ⟨c, hOrdered, hCanvas⟩ := h.canvas
  rw [← Canvas.distinct_unlit, hCanvas]
  exact Canvas.distinct_build s.style hOrdered

theorem Laid.exists_layOut (h : s.Laid) (hb : s.sourceBlock? source = some b) :
    ∃ text tree path, s.style.layOutText text = .ok tree ∧
      tree.root.descend path = some b.unlit := by
  cases source with
  | template index =>
    obtain ⟨t, ht, rfl⟩ := Option.map_eq_some_iff.mp hb
    obtain ⟨text, tree, hTree, hRoot⟩ := h.palette t (List.mem_of_getElem? ht)
    have hDark : tree.root.unlit = tree.root :=
      congrArg BlockTree.root (BlockTree.unlit_of_layOutText tree hTree)
    refine ⟨text, tree, [], hTree, ?_⟩
    rw [hRoot, hDark]
    rfl
  | canvas placed block =>
    obtain ⟨t, ht, hBlock⟩ := Option.bind_eq_some_iff.mp hb
    obtain ⟨c, -, hCanvas⟩ := h.canvas
    have hDark : (Canvas.build s.style c).tree? placed = some t.unlit := by
      rw [← hCanvas, Canvas.tree?_unlit, ht]
      rfl
    obtain ⟨e, he, hTree⟩ := Option.map_eq_some_iff.mp hDark
    obtain ⟨p, tree, -, hLayOut, hEntry⟩ := Canvas.mem_entries_go (List.mem_of_find?_eq_some he)
    have hRoot : t.root.unlit = tree.root := congrArg BlockTree.root (hTree.symm.trans hEntry)
    obtain ⟨path, hPath⟩ := BlockTree.exists_descend hBlock
    refine ⟨p.expression, tree, path, hLayOut, ?_⟩
    rw [← hRoot, Block.descend_unlit, hPath]
    rfl

/-- What the text of a source's block lays out to is the block's twin. -/
theorem Laid.twins (h : s.Laid) (hb : s.sourceBlock? source = some b) {piece : BlockTree K}
    (hPiece : s.style.layOutText b.frame.expression = .ok piece) : piece.root.Twins b := by
  obtain ⟨text, tree, path, hTree, hPath⟩ := h.exists_layOut hb
  rw [← Block.expression_unlit] at hPiece
  exact (Style.twins_of_descend hTree hPath hPiece).trans (Block.twins_of_unlit b.unlit_unlit)

/-- A drag begins with a twin of the block that its source names. -/
theorem Laid.begun (h : s.Laid) (hBegin : s.beginDrag source point = (.ok true, after)) :
    ∃ b d, s.sourceBlock? source = some b ∧ after.drag = some d ∧ d.Shows b := by
  have hLift (left : Session K) (d : Detached K) (b : Block K) (hTwins : d.tree.root.Twins b) :
      ∃ e, (left.lift d point).drag = some e ∧ e.Shows b := by
    have hTinted := Block.twins_of_unlit (Block.unlit_withBackground d.tree.root .dragging)
    exact ⟨_, rfl, hTinted.trans hTwins, fun _ => rfl⟩
  obtain ⟨-, ⟨index, t, tree, rfl, ht, hTree, rfl⟩ |
    ⟨placed, block, d, left, rfl, hDetach, rfl⟩⟩ := beginDrag_inv hBegin
  · have hb : s.sourceBlock? (.template index) = some t.root := by
      rw [sourceBlock?, ht]
      rfl
    obtain ⟨e, he, hShows⟩ := hLift s ⟨tree, none, _⟩ t.root (h.twins hb hTree)
    exact ⟨t.root, e, hb, he, hShows⟩
  · obtain ⟨tree, f, hTree, hEntry, hTaken⟩ := detach_inv hDetach
    have hb : s.sourceBlock? (.canvas placed block) = some f.block := by
      rw [sourceBlock?, hTree, Option.bind_some, BlockTree.block?, hEntry]
      rfl
    have hTwins : d.tree.root.Twins f.block := by
      rcases hTaken with ⟨rfl, -, hWhole⟩ | ⟨-, -, hPiece, -⟩
      · obtain rfl := Option.some.inj (tree.entry?_rootId.symm.trans hEntry)
        rw [hWhole]
        exact Block.twins_of_unlit tree.root.unlit_unlit
      · exact h.twins hb hPiece
    obtain ⟨e, he, hShows⟩ := hLift left d f.block hTwins
    exact ⟨f.block, e, hb, he, hShows⟩

theorem sourceAt_of_down (h : s.pointerDown point = (.ok (some source), after)) :
    s.sourceAt point = some source := by
  rw [pointerDown] at h
  split at h
  · cases h
  · split at h
    · cases h
    · rename_i found hFound
      split at h
      · cases h
      · rename_i began left _
        obtain ⟨hAnswer, -⟩ := Prod.mk.inj h
        cases began with
        | false => cases hAnswer
        | true =>
          cases hAnswer
          exact hFound

/-- The pointer goes down on branches only. -/
theorem Laid.branch_of_down (h : s.Laid)
    (hDown : s.pointerDown point = (.ok (some source), after))
    (hb : s.sourceBlock? source = some b) : b.isLeaf = false := by
  have hSource := sourceAt_of_down hDown
  rw [sourceAt] at hSource
  split at hSource
  · obtain ⟨⟨index, id⟩, hHit, rfl⟩ := Option.map_eq_some_iff.mp hSource
    obtain ⟨t, ht, hRoot⟩ := Palette.exists_branch_of_hit hHit
    obtain ⟨u, hu, rfl⟩ := Option.map_eq_some_iff.mp hb
    obtain rfl := Option.some.inj (ht.symm.trans hu)
    exact hRoot
  · obtain ⟨⟨placed, id⟩, hHit, rfl⟩ := Option.map_eq_some_iff.mp hSource
    obtain ⟨t, c, ht, hc, hBranch⟩ := h.distinct.exists_branch_of_hit hHit
    have hSame : s.sourceBlock? (.canvas placed id) = some c := by
      rw [sourceBlock?, ht]
      exact hc
    obtain rfl := Option.some.inj (hSame.symm.trans hb)
    exact hBranch

theorem Laid.started (h : s.Laid) {call : Call K} (hStarts : s.Starts source call) :
    s.drag = none ∧ ∃ b d, s.sourceBlock? source = some b ∧ (s.call call).drag = some d ∧
      d.Shows b := by
  have hBegun {point : Point K} {after : Session K}
      (hBegin : s.beginDrag source point = (.ok true, after)) : s.drag = none ∧
        ∃ b d, s.sourceBlock? source = some b ∧ after.drag = some d ∧ d.Shows b :=
    ⟨(begun_inv hBegin).1, h.begun hBegin⟩
  cases hStarts with
  | named hBegin =>
    rw [Session.call, apply, hBegin]
    exact hBegun hBegin
  | pressed hDown =>
    rw [Session.call, apply, hDown]
    exact hBegun (down_inv hDown)

theorem Shows.onFrame (hd : s.drag = some d) (h : d.Shows b) :
    ∃ e, s.onFrame.2.drag = some e ∧ e.Shows b := by
  have hRoot : d.settled.tree.root = d.tree.root := by
    rw [Drag.settled]
    split <;> rfl
  have hTwins (tint : Tint) : (d.settled.withHandle tint).tree.root.Twins b := by
    have hTinted := Block.twins_of_unlit (Block.unlit_withHandle d.settled.tree.root tint)
    have hShown := h.twins
    rw [← hRoot] at hShown
    exact hTinted.trans hShown
  rw [Session.onFrame, hd]
  dsimp only
  split
  · exact ⟨d, rfl, h⟩
  · rw [showCollision]
    dsimp only
    split
    · exact ⟨_, rfl, hTwins _, fun _ => rfl⟩
    · rename_i c hProbe
      refine ⟨_, rfl, hTwins _, fun hLeaf => ?_⟩
      have hDragged : d.settled.tree.root.isLeaf = true := by
        rw [hRoot, ← h.twins.isLeaf, hLeaf]
      rw [probe_of_leaf hDragged] at hProbe
      cases hProbe

theorem Shows.call (hd : s.drag = some d) (h : d.Shows b) {call : Call K}
    (he : (s.call call).drag = some e) : e.Shows b := by
  cases call with
  | edit edit =>
    obtain rfl := Option.some.inj (hd.symm.trans he)
    exact h
  | operation operation =>
    have hOver (release : Release K) : (s.release release).2.drag = none := by
      rcases release_cases hd release with ⟨answer, hRelease⟩ | ⟨outcome, next, hRelease, -⟩ <;>
        rw [hRelease] <;> rfl
    by_cases hHolds : operation.Holds
    · rcases apply_held hd hHolds with ⟨hSame, -⟩ | rfl | ⟨point, rfl⟩
      · obtain rfl := Option.some.inj (hSame.symm.trans he)
        exact h
      · obtain ⟨f, hf, hShows⟩ := Shows.onFrame hd h
        obtain rfl := Option.some.inj (hf.symm.trans he)
        exact hShows
      · obtain rfl := Option.some.inj ((drag_pointerMove hd point).symm.trans he)
        exact ⟨h.twins, h.apart⟩
    · cases operation with
      | pointerUp point => cases (hOver (.up point)).symm.trans he
      | pointerCancel => cases (hOver .cancel).symm.trans he
      | _ => exact absurd trivial hHolds

/-- Where nothing was dragged, only a call that starts a drag makes one. -/
theorem starts_of_idle (hIdle : s.drag = none) {call : Call K}
    (he : (s.call call).drag = some e) : ∃ source, s.Starts source call := by
  have hNone {after : Session K} (hSame : after.drag = s.drag) (he : after.drag = some e) :
      False := by
    rw [hSame, hIdle] at he
    cases he
  cases call with
  | edit edit => exact (hNone rfl he).elim
  | operation operation =>
    rw [Session.call] at he
    cases operation with
    | addExpression text origin =>
      rw [apply] at he
      rcases s.addExpression_cases text origin with ⟨fault, hAdd⟩ | ⟨next, hAdd⟩ <;>
        rw [hAdd] at he <;> exact (hNone rfl he).elim
    | beginDrag source point =>
      rw [apply] at he
      rcases s.beginDrag_cases source point with ⟨answer, hBegin, -⟩ | ⟨after, d, hBegin, -⟩
      · rw [hBegin] at he
        exact (hNone rfl he).elim
      · exact ⟨source, .named hBegin⟩
    | pointerDown point =>
      rw [apply] at he
      rcases s.pointerDown_cases point with ⟨answer, hDown⟩ | ⟨source, after, d, hDown, -⟩
      · rw [hDown] at he
        exact (hNone rfl he).elim
      · exact ⟨source, .pressed hDown⟩
    | pointerMove point =>
      rw [apply, pointerMove, hIdle] at he
      exact (hNone rfl he).elim
    | onFrame =>
      rw [apply, onFrame, hIdle] at he
      exact (hNone hIdle.symm he).elim
    | pointerUp point =>
      have hUp := release_of_idle hIdle (.up point)
      rw [release] at hUp
      rw [apply, hUp] at he
      exact (hNone rfl he).elim
    | pointerCancel =>
      have hCancel := release_of_idle hIdle .cancel
      rw [release] at hCancel
      rw [apply, hCancel] at he
      exact (hNone rfl he).elim
    | scrollCanvas | scrollPalette | refresh => exact (hNone rfl he).elim

/-- What is dragged at the end of a run was begun by one of its calls and held since then. -/
theorem Laid.exists_start (h : s.Laid) (hIdle : s.drag = none) {calls : List (Call K)}
    (hd : (s.perform calls).drag = some d) :
    ∃ before call after source b, calls = before ++ call :: after ∧
      (s.perform before).Starts source call ∧ (s.perform before).sourceBlock? source = some b ∧
      (∀ more, more <+: after → (s.perform (before ++ call :: more)).isDragging = true) ∧
      d.Shows b := by
  induction calls using List.reverseRecOn generalizing d with
  | nil =>
    cases hIdle.symm.trans hd
  | append_singleton calls call ih =>
    have hDragging : (s.perform (calls ++ [call])).isDragging = true := by
      rw [isDragging, hd]
      rfl
    have hLast := hd
    rw [perform_append] at hLast
    cases hBefore : (s.perform calls).drag with
    | some e =>
      obtain ⟨before, first, after, source, b, rfl, hStarts, hb, hHeld, hShows⟩ := ih hBefore
      refine ⟨before, first, after ++ [call], source, b, by simp, hStarts, hb, ?_,
        Shows.call hBefore hShows hLast⟩
      intro more hMore
      rcases List.prefix_concat_iff.mp hMore with rfl | hMore
      · simpa using hDragging
      · exact hHeld more hMore
    | none =>
      obtain ⟨source, hStarts⟩ := starts_of_idle hBefore hLast
      obtain ⟨-, b, e, hb, he, hShows⟩ := (h.perform calls).started hStarts
      obtain rfl := Option.some.inj (he.symm.trans hLast)
      refine ⟨calls, call, [], source, b, rfl, hStarts, hb, ?_, hShows⟩
      intro more hMore
      obtain rfl := List.prefix_nil.mp hMore
      exact hDragging

theorem Reachable.laid (h : s.Reachable) : s.Laid := by
  induction h with
  | new h => exact laid_new h
  | apply _ operation ih => exact ih.call (.operation operation)

theorem Reachable.drags_named (h : s.Reachable) (hIdle : s.drag = none)
    (hb : s.sourceBlock? source = some b) (point : Point K) :
    ∃ after d, s.beginDrag source point = (.ok true, after) ∧ after.drag = some d ∧
      d.Shows b := by
  have hBegun : ∃ after, s.beginDrag source point = (.ok true, after) := by
    cases source with
    | template index =>
      obtain ⟨t, ht, -⟩ := Option.map_eq_some_iff.mp hb
      obtain ⟨d, -, -, hBegin⟩ := h.consistent.begin_template hIdle ht point
      exact ⟨_, hBegin⟩
    | canvas placed block =>
      obtain ⟨t, ht, hBlock⟩ := Option.bind_eq_some_iff.mp hb
      obtain ⟨e, he, -⟩ := Option.map_eq_some_iff.mp hBlock
      obtain ⟨after, hBegin, -⟩ := h.consistent.exists_begun hIdle ht he point
      exact ⟨after, hBegin⟩
  obtain ⟨after, hBegin⟩ := hBegun
  obtain ⟨c, d, hc, hd, hShows⟩ := h.laid.begun hBegin
  obtain rfl := Option.some.inj (hc.symm.trans hb)
  exact ⟨after, d, hBegin, hd, hShows⟩

variable {settings : Settings K} {fonts : Fonts K}

/-- Whatever is dragged on a run was begun at the block that a source names and has been held
since, and it shows that block. If the pointer went down on it, it is a branch. With a branch the
drag has a handle and meets what its handle is over; a program can name a leaf too, and then the
drag has no handle and meets nothing. -/
theorem drag_shows_source (h : new settings fonts = .ok s) {calls : List (Call K)}
    (hd : (s.perform calls).drag = some d) :
    ∃ before call after source b, calls = before ++ call :: after ∧
      (s.perform before).drag = none ∧ (s.perform before).Starts source call ∧
      (s.perform before).sourceBlock? source = some b ∧
      (∀ more, more <+: after → (s.perform (before ++ call :: more)).isDragging = true) ∧
      d.tree.root.Twins b ∧ d.tree.root.isLeaf = b.isLeaf ∧
      (∀ point, call = .operation (.pointerDown point) → b.isLeaf = false) ∧
      (b.isLeaf = false →
        ∃ handle, d.settled.tree.handleCenter d.settled.tree.rootId = some handle ∧
          ∀ t : Session K, (t.probe d.settled).isSome = true ↔
            t.viewport.isOverPalette d.settled.position = false ∧
              ∃ leaf area, some leaf.placed ≠ d.owner ∧ t.canvas.checkArea leaf = some area ∧
                area.contains (t.viewport.globalToCanvas handle) = true) ∧
      (b.isLeaf = true → d.settled.tree.handleCenter d.settled.tree.rootId = none ∧
        d.collision = none ∧ ∀ t : Session K, t.probe d.settled = none) := by
  obtain ⟨style, palette, -, rfl⟩ := id (new_inv h)
  obtain ⟨before, call, after, source, b, hSplit, hStarts, hb, hHeld, hShows⟩ :=
    (laid_new h).exists_start rfl hd
  have hLaid := (laid_new h).perform before
  obtain ⟨hIdle, -⟩ := hLaid.started hStarts
  have hLeaf : d.tree.root.isLeaf = b.isLeaf := hShows.twins.isLeaf.symm
  have hSettled : d.settled.tree.root.isLeaf = b.isLeaf := by
    rw [← hLeaf, ← d.root_released .cancel]
    rfl
  refine ⟨before, call, after, source, b, hSplit, hIdle, hStarts, hb, hHeld, hShows.twins, hLeaf,
    ?_, ?_, ?_⟩
  · rintro point rfl
    cases hStarts with
    | pressed hDown => exact hLaid.branch_of_down hDown hb
  · intro hBranch
    have hHandle := exists_handle (hSettled.trans hBranch)
    rwa [Drag.owner_settled] at hHandle
  · intro hLeafBlock
    have hRoot := hSettled.trans hLeafBlock
    exact ⟨(BlockTree.handleCenter_rootId _).mpr hRoot, hShows.apart hLeafBlock,
      fun t => probe_of_leaf hRoot⟩

end

theorem drag_shows_source_sum :
    let additions : List (Call Float) :=
      [.operation (.addExpression "x + y" ⟨(20 : Nat), (200 : Nat)⟩),
        .operation (.addExpression "a + b" ⟨(100 : Nat), (100 : Nat)⟩)]
    let begin : Call Float := .operation (.beginDrag (.canvas 0 2) ⟨(220 : Nat), (200 : Nat)⟩)
    ∃ (d : Drag Float) (b : Block Float), (bare.perform (additions ++ [begin])).drag = some d ∧
      (bare.perform additions).sourceBlock? (.canvas 0 2) = some b ∧ b.isLeaf = false ∧
      d.tree.root.Twins b := by
  intro additions begin
  obtain ⟨first, second, hFirst, hSecond, d, -, -, hDrag, -, -, -, hMet, -⟩ := exists_draggedSum
  rw [draggedSum_eq hFirst hSecond] at hDrag
  have hd : (bare.perform (additions ++ [begin])).drag = some d := hDrag
  obtain ⟨before, call, after, source, b, hSplit, -, hStarts, hb, -, hTwins, hLeaf, -⟩ :=
    drag_shows_source new_bare hd
  have hBranch : b.isLeaf = false := by
    obtain ⟨handle, hHandle⟩ := hMet.exists_handle
    cases hSame : b.isLeaf with
    | false => rfl
    | true =>
      rw [hSame, ← d.root_released, ← BlockTree.handleCenter_rootId, hHandle] at hLeaf
      cases hLeaf
  -- Of the three calls the last one is the only one that starts a drag.
  have hLast : before = additions ∧
      call = .operation (.beginDrag (.canvas 0 2) ⟨(220 : Nat), (200 : Nat)⟩) := by
    rcases before with _ | ⟨_, _ | ⟨_, _ | ⟨_, _⟩⟩⟩ <;>
      simp only [additions, List.cons_append, List.nil_append, List.cons.injEq] at hSplit
    · obtain ⟨rfl, -⟩ := hSplit
      cases hStarts
    · obtain ⟨-, rfl, -⟩ := hSplit
      cases hStarts
    · obtain ⟨rfl, rfl, rfl, -⟩ := hSplit
      exact ⟨rfl, rfl⟩
    · obtain ⟨-, -, -, hEnd⟩ := hSplit
      simp at hEnd
  obtain ⟨rfl, hCall⟩ := hLast
  cases hStarts with
  | named =>
    cases hCall
    exact ⟨d, b, hd, hb, hBranch, hTwins⟩
  | pressed => cases hCall

/-- A variable that stands alone is dragged by its leaf, and has no handle then. -/
theorem drags_leaf :
    let calls : List (Call Float) := [.operation (.addExpression "a" ⟨(100 : Nat), (100 : Nat)⟩),
      .operation (.beginDrag (.canvas 0 0) ⟨(110 : Nat), (110 : Nat)⟩)]
    new { Settings.standard with templates := [] } (.ofReadable fun _ => true) = .ok bare ∧
      ∃ d, (bare.perform calls).drag = some d ∧ d.tree.root.isLeaf = true ∧
        d.tree.handleCenter d.tree.rootId = none := by
  intro calls
  have hRead : Node.read "a" = .ok (.symbol "a") := by cbv
  let place : Point Float := ⟨(100 : Nat), (100 : Nat)⟩
  obtain ⟨tree, f, shape, hTree, hRoot⟩ : ∃ tree f shape,
      bare.style.layOutText "a" = .ok tree ∧ tree.root = .leaf f shape := by
    rw [Style.layOutText, hRead]
    exact ⟨_, _, _, rfl, rfl⟩
  have hReachable := reachable_bare.apply (.addExpression "a" place)
  have hAdd := reachable_bare.consistent.addExpression_eq hRead (.symbol "a") place
  have hCanvas : Canvas.build bare.style (bare.placed.add ⟨"a", place⟩) =
      ⟨[⟨0, { tree with origin := place }⟩], []⟩ := by
    simp only [bare, blank, Collection.add, Collection.empty, List.nil_append, Canvas.build]
    rw [Canvas.go_cons_ok hTree]
    rfl
  have hb : (bare.apply (.addExpression "a" place)).sourceBlock? (.canvas 0 0) =
      some (.leaf f shape) := by
    have hBlock : BlockTree.block? { tree with origin := place } 0 = some (.leaf f shape) := by
      simp only [BlockTree.block?, BlockTree.entry?, BlockTree.entries, hRoot]
      rfl
    rw [apply, hAdd]
    simp only [sourceBlock?, Node.canonical]
    rw [hCanvas]
    exact hBlock
  have hIdle : (bare.apply (.addExpression "a" place)).drag = none := by
    rw [apply, hAdd]
    rfl
  obtain ⟨after, d, hBegin, hd, hShows⟩ :=
    hReachable.drags_named hIdle hb ⟨(110 : Nat), (110 : Nat)⟩
  have hLeaf : d.tree.root.isLeaf = true := hShows.twins.isLeaf.symm
  refine ⟨new_bare, d, ?_, hLeaf, d.tree.handleCenter_rootId.mpr hLeaf⟩
  have hDrag := congrArg (fun answer => answer.2.drag) hBegin
  exact hDrag.trans hd

end Session

end Blockwork
