import Mathlib.Algebra.Order.Field.Basic
import Mathlib.Tactic.Ring
import Blockwork.Proofs.Board.PulledOut
import Blockwork.Proofs.Board.View

/-! # Steady drags

What is dragged begins where it is shown and then follows the pointer, whatever is scrolled in the
meantime, and a drop leaves it where it was dragged to. Only the top of the canvas holds a drop
back.
-/

set_option autoImplicit false

namespace Blockwork

variable {K : Type}

def Release.pointer (last : Point K) : Release K → Point K
  | .up point => point
  | .cancel => last

variable [Scalar K]

theorem Drag.aimed_iff {d : Drag K} {point : Point K} (hPending : d.pending = none) :
    d.Aimed point ↔ d.tree.origin = point - d.grab := by
  have hSelf : d.settled = d := by
    rw [settled, hPending]
  constructor
  · intro h
    rw [← hSelf, h]
    rfl
  · intro h
    obtain ⟨tree, owner, grab, pending, collision⟩ := d
    obtain rfl : pending = none := hPending
    have hOrigin : tree.origin = point - grab := h
    simp only [Aimed, settled, sampled, ← hOrigin]

theorem Drag.position_released {d : Drag K} {point : Point K} (h : d.Aimed point)
    (release : Release K) :
    (d.released release).position = release.pointer point - d.grab := by
  cases release with
  | up sample => rfl
  | cancel =>
    have hEnd : (d.released .cancel).position = (d.sampled point).settled.position :=
      congrArg Drag.position h
    exact hEnd

namespace Session

/-- How far a drop at a point of the screen is moved down to the top of the canvas. -/
def lowering (s : Session K) (p : Point K) : K :=
  max ((0 : Nat) : K) (s.settings.minDropY - (s.viewport.globalToCanvas p).y)

section

variable {s last after : Session K} {d : Drag K}

theorem apply_aimed {point : Point K} (hd : s.drag = some d) (hAimed : d.Aimed point)
    {operation : Operation K} (hHolds : operation.Holds) :
    ∃ e, (s.apply operation).drag = some e ∧ e.core = d.core ∧
      e.Aimed (operation.pointer point) := by
  rcases apply_held hd hHolds with ⟨hSame, hPointer⟩ | rfl | ⟨sample, rfl⟩
  · refine ⟨d, hSame, rfl, ?_⟩
    rwa [hPointer]
  · obtain ⟨e, he, hLater⟩ := onFrame_aimed hd hAimed
    obtain ⟨f, hf, hCore⟩ := exists_drag_of_core (core_feedback s .frame) hd
    obtain rfl := Option.some.inj (he.symm.trans hf)
    exact ⟨e, he, hCore, hLater⟩
  · exact ⟨d.sampled sample, drag_pointerMove hd sample, rfl, rfl⟩

theorem run_aimed {point : Point K} (hd : s.drag = some d) (hAimed : d.Aimed point)
    {operations : List (Operation K)} (hHolds : ∀ o ∈ operations, o.Holds) :
    ∃ e, (s.run operations).drag = some e ∧ e.core = d.core ∧
      e.Aimed (operations.foldl Operation.pointer point) := by
  induction operations generalizing s d point with
  | nil => exact ⟨d, hd, rfl, hAimed⟩
  | cons operation operations ih =>
    obtain ⟨hFirst, hRest⟩ := List.forall_mem_cons.mp hHolds
    obtain ⟨e, he, hCore, hLater⟩ := apply_aimed hd hAimed hFirst
    obtain ⟨f, hf, hSame, hLast⟩ := ih he hLater hRest
    exact ⟨f, hf, hSame.trans hCore, hLast⟩

theorem style_run (s : Session K) (operations : List (Operation K)) :
    (s.run operations).style = s.style := by
  induction operations generalizing s with
  | nil => rfl
  | cons operation operations ih => exact (ih _).trans (s.apply_redraws operation).style

theorem pending_onFrame (hd : s.drag = some d) :
    ∃ e, s.onFrame.2.drag = some e ∧ e.pending = none := by
  rw [Session.onFrame, hd]
  dsimp only
  split
  · exact ⟨d, rfl, by assumption⟩
  · rw [showCollision]
    dsimp only
    split
    · exact ⟨_, rfl, d.pending_settled⟩
    · exact ⟨_, rfl, d.pending_settled⟩

theorem Consistent.placed_release (h : s.Consistent) (hd : s.drag = some d) {release : Release K}
    {id : Nat} (hRelease : s.release release = (.ok (.placed id), after)) {tree : BlockTree K}
    (hTree : s.style.layOutText d.expression = .ok tree) :
    after.drag = none ∧ after.viewport = s.viewport ∧
      after.canvas.tree? id = some { tree with origin := s.dropOrigin (d.released release) } := by
  obtain ⟨outcome, next, hDrops, hEnd⟩ := h.exists_release hd release
  obtain ⟨hOutcome, rfl⟩ := Prod.mk.inj (hEnd.symm.trans hRelease)
  obtain rfl := Except.ok.inj hOutcome
  refine ⟨rfl, rfl, ?_⟩
  have hFits := h.drag d hd
  have hStored : (d.leave next).AllStored := by
    apply Drag.forall_mem_leave
    apply hDrops.allStored h.stored
    exact ⟨by simpa using hFits.stored, by simpa using hFits.owner⟩
  apply (Canvas.tree?_build hStored).mpr
  cases hDrops with
  | placed =>
    refine ⟨⟨d.expression, s.dropOrigin (d.released release)⟩, tree, ?_, hTree, rfl⟩
    have hOrdered := Drag.ordered_leave d (h.ordered.add
      ⟨(d.released release).expression, s.dropOrigin (d.released release)⟩)
    apply hOrdered.get?_of_mem
    rw [Drag.leave_add hFits h.ordered, Drag.expression_released]
    exact List.mem_append_right _ List.mem_cons_self

end

variable {F : Type} [Field F] [LinearOrder F] [IsStrictOrderedRing F]

variable {s begun : Session F} {source : Source} {start : Point F}

theorem dropOrigin_shifted (s : Session F) (d : Drag F) :
    s.dropOrigin d + s.viewport.canvasOffset =
      d.position + (⟨0, s.lowering d.position⟩ : Offset F) := by
  have hTop (y scroll least : F) :
      max (y + scroll) least + (0 - scroll) = y + max 0 (least - (y + scroll)) := by
    rcases le_total least (y + scroll) with h | h
    · rw [max_eq_left h, max_eq_left (sub_nonpos.mpr h)]
      ring
    · rw [max_eq_right h, max_eq_right (sub_nonneg.mpr h)]
      ring
  have hZero : ((0 : Nat) : F) = 0 := Nat.cast_zero
  apply Point.eq_of_coordinates
  · show d.position.x + s.viewport.canvasScroll.x - s.viewport.paletteWidth +
      (s.viewport.paletteWidth - s.viewport.canvasScroll.x) = d.position.x + 0
    ring
  · show max (d.position.y + s.viewport.canvasScroll.y) s.settings.minDropY +
      (((0 : Nat) : F) - s.viewport.canvasScroll.y) = d.position.y +
        max ((0 : Nat) : F) (s.settings.minDropY - (d.position.y + s.viewport.canvasScroll.y))
    rw [hZero]
    exact hTop _ _ _

/-- A frame brings what is dragged to the pointer. -/
theorem Lifted.moved_frame {v : View F} {d e : Drag F} {last : Session F} {pointer : Point F}
    (h : s.Lifted source start begun v d) (he : last.drag = some e) (hCore : e.core = d.core)
    (hAimed : e.Aimed pointer) :
    ∃ f, last.onFrame.2.drag = some f ∧
      v.Moved s f.tree last.onFrame.2 .zero (pointer - start) := by
  obtain ⟨f, hf, hAimed⟩ := onFrame_aimed he hAimed
  obtain ⟨g, hg, hPending⟩ := pending_onFrame he
  obtain ⟨k, hk, hSame⟩ := exists_drag_of_core (core_feedback last .frame) he
  obtain rfl := Option.some.inj (hf.symm.trans hg)
  obtain rfl := Option.some.inj (hf.symm.trans hk)
  refine ⟨f, hf, (h.lifts.of_core (hSame.trans hCore)).moved rfl h.shown (drawsTree_drag hf) ?_⟩
  rw [(Drag.aimed_iff hPending).mp hAimed, Point.sub_add_sub, Point.add_zero_offset]

/-- A drop brings what is dragged to the pointer, or below it at the top of the canvas. -/
theorem Lifted.moved_release {v : View F} {d e : Drag F} {x : Entry F} {last after : Session F}
    {pointer : Point F} {release : Release F} {id : Nat} (h : s.Lifted source start begun v d)
    (hx : v.tree.entry? v.block = some x) (hLast : last.Consistent) (hStyle : last.style = s.style)
    (he : last.drag = some e) (hCore : e.core = d.core) (hAimed : e.Aimed pointer)
    (hRelease : last.release release = (.ok (.placed id), after)) :
    let way := release.pointer pointer - start
    ∃ t, after.canvas.tree? id = some t ∧
      v.Moved s t after after.viewport.canvasOffset
        ⟨way.x, way.y + last.lowering (v.place x + way)⟩ := by
  intro way
  have hLifts := h.lifts.of_core hCore
  obtain ⟨tree, hTree, hRoot⟩ := hLifts.laid
  rw [← hStyle] at hTree
  obtain ⟨hOver, hViewport, hPlaced⟩ := hLast.placed_release he hRelease hTree
  have hDark : tree.root.unlit = tree.root :=
    congrArg BlockTree.root (BlockTree.unlit_of_layOutText tree hTree)
  have hSame (origin : Point F) :
      ({ tree with origin := origin } : BlockTree F).root.unlit = e.tree.root.unlit :=
    hDark.trans hRoot.symm
  refine ⟨_, hPlaced, hLifts.moved (hSame _) h.shown ?_ ?_⟩
  · obtain ⟨entry, hEntry, hSame⟩ := Canvas.exists_entry hPlaced
    rw [← hSame]
    apply drawsTree_placed hEntry
    rw [hOver]
    nofun
  · obtain ⟨y, hy, hPlace⟩ := hLifts.exists_entry
    obtain rfl := Option.some.inj (hx.symm.trans hy)
    have hEnd : v.place x + way = (e.released release).position := by
      rw [hPlace, Point.sub_add_sub, Drag.position_released hAimed]
    rw [hEnd, hViewport]
    refine (last.dropOrigin_shifted _).trans ?_
    rw [← hEnd, hPlace]
    apply Point.eq_of_coordinates
    · exact add_zero _
    · exact add_assoc _ _ _

/-- What a drag takes along is where it was shown when the drag begins, is displaced as far as the
pointer has come when a frame is over, and stays there if the release gives a new expression, unless
the top of the canvas moves that down. -/
theorem Reachable.drag_steady (h : s.Reachable)
    (hBegin : s.beginDrag source start = (.ok true, begun)) :
    ∃ v x, s.view? source = some v ∧ v.tree.entry? v.block = some x ∧
      (∃ d, begun.drag = some d ∧ v.Moved s d.tree begun .zero .zero) ∧
      ∀ operations : List (Operation F), (∀ o ∈ operations, o.Holds) →
        let last := begun.run operations
        let pointer := operations.foldl Operation.pointer start
        (∃ d, last.onFrame.2.drag = some d ∧
          v.Moved s d.tree last.onFrame.2 .zero (pointer - start)) ∧
        ∀ release id after, last.release release = (.ok (.placed id), after) →
          let way := release.pointer pointer - start
          ∃ t, after.canvas.tree? id = some t ∧
            v.Moved s t after after.viewport.canvasOffset
              ⟨way.x, way.y + last.lowering (v.place x + way)⟩ := by
  obtain ⟨v, d, hLifted⟩ := h.begin_lifts hBegin
  obtain ⟨x, hx, -⟩ := hLifted.lifts.exists_entry
  refine ⟨v, x, hLifted.seen, hx, ⟨d, hLifted.drag, hLifted.moved_begin⟩, ?_⟩
  intro operations hHolds last pointer
  have hAimed := (Drag.aimed_iff hLifted.pending).mpr hLifted.origin
  obtain ⟨e, he, hCore, hLater⟩ := run_aimed hLifted.drag hAimed hHolds
  refine ⟨hLifted.moved_frame he hCore hLater, ?_⟩
  intro release id after hRelease
  have hBegun : begun.Reachable := by
    have hApplied := h.apply (.beginDrag source start)
    rwa [Session.apply, hBegin] at hApplied
  have hStyle : last.style = s.style := by
    exact (begun.style_run operations).trans (begun_rebuilds hBegin).style
  exact hLifted.moved_release hx (hBegun.run operations).consistent hStyle he hCore hLater hRelease

def negation : Session ℚ :=
  let style : Style ℚ := ⟨Settings.standardMetrics, .fixedAdvance ((3 : Nat) / (5 : Nat))⟩
  let placed : Collection ℚ := ⟨[(0, ⟨"(not (a>b))", ⟨100, 100⟩⟩)], 1⟩
  { blank { Settings.standard with templates := [] } style ⟨[]⟩ with
    placed
    canvas := .build style placed
    viewport := ⟨(200 : Nat), .zero, ⟨10, 20⟩⟩ }

theorem read_negation : Node.read "(not (a>b))" = .ok (.group (.operator .not
    [.group (.operator .gt [.symbol "a", .symbol "b"])])) := by
  cbv

theorem reachable_negation : negation.Reachable := by
  have hShown : (Node.group (.operator .not
      [.group (.operator .gt [.symbol "a", .symbol "b"])])).Shown := by
    apply Node.Shown.group
    apply Node.Shown.operator rfl
    have hInner : Node.Shown (.operator .gt [.symbol "a", .symbol "b"]) := by
      apply Node.Shown.operator rfl
      simp [Node.Shown.symbol]
    simp [hInner.group]
  have hCheck : Settings.check { Settings.standard (K := ℚ) with templates := [] } = .ok () :=
    Settings.check_standard
  have hNew : new { Settings.standard with templates := [] } (.ofReadable fun _ => true) =
      .ok (blank (K := ℚ) { Settings.standard with templates := [] }
        ⟨Settings.standardMetrics, .fixedAdvance ((3 : Nat) / (5 : Nat))⟩ ⟨[]⟩) := by
    simp only [new, hCheck]
    rfl
  have hAdded := (Reachable.new hNew).addExpression read_negation hShown ⟨100, 100⟩
  exact hAdded.apply (.scrollCanvas ⟨10, 20⟩)

def pulledNegation (piece edited : BlockTree ℚ) (position : Point ℚ) : Session ℚ :=
  lift { negation with
    placed := ⟨[(1, ⟨"(not true)", ⟨100, 100⟩⟩)], 2⟩
    canvas := ⟨[⟨1, { edited with origin := ⟨100, 100⟩ }⟩], []⟩ }
    ⟨piece, none, position⟩ ⟨340, 90⟩

theorem exists_pulledNegation :
    let up : Release ℚ := .up ⟨500, -10⟩
    ∃ tree piece edited : BlockTree ℚ, negation.style.layOutText "(not (a>b))" = .ok tree ∧
      negation.style.layOutText "(a>b)" = .ok piece ∧
      negation.style.layOutText "(not true)" = .ok edited ∧ tree.rootId = 3 ∧
      ∃ e, tree.entry? 2 = some e ∧ tree.root.descend [0] = some e.block ∧
        e.block.frame.expression = "(a>b)" ∧ e.block.frame.type = .boolean ∧
        let place := BlockTree.originOf { tree with origin := ⟨100, 100⟩ } e
        let last := (pulledNegation piece edited
          (negation.viewport.canvasToGlobal place)).scrollCanvas ⟨0, 5⟩
        place = ⟨714 / 5, 106⟩ ∧
        ∃ d, last.drag = some d ∧ last.viewport.isOverPalette (d.released up).position = false ∧
          last.probe (d.released up) = none := by
  intro up
  have hPiece : Node.read "(a>b)" = .ok (.group (.operator .gt [.symbol "a", .symbol "b"])) := by
    cbv
  have hEdited : Node.read "(not true)" =
      .ok (.group (.operator .not [.literal (.truth true)])) := by
    cbv
  rw [Style.layOutText, read_negation, Style.layOutText, hPiece, Style.layOutText, hEdited]
  refine ⟨_, _, _, rfl, rfl, rfl, rfl, _, rfl, rfl, ?_, rfl, ?_, _, rfl, ?_, ?_⟩
  · decide +kernel
  · exact Point.eq_of_coordinates (by decide +kernel) (by decide +kernel)
  · decide +kernel
  · decide +kernel

theorem tree?_negation {tree : BlockTree ℚ}
    (hTree : negation.style.layOutText "(not (a>b))" = .ok tree) :
    negation.canvas.tree? 0 = some { tree with origin := ⟨100, 100⟩ } :=
  (Canvas.tree?_build reachable_negation.consistent.stored).mpr
    ⟨⟨"(not (a>b))", ⟨100, 100⟩⟩, tree, rfl, hTree, rfl⟩

theorem beginDrag_negation {tree piece edited : BlockTree ℚ} {e : Entry ℚ}
    (hTree : negation.style.layOutText "(not (a>b))" = .ok tree)
    (hPiece : negation.style.layOutText "(a>b)" = .ok piece)
    (hEdited : negation.style.layOutText "(not true)" = .ok edited) (hInner : 2 ≠ tree.rootId)
    (hEntry : tree.entry? 2 = some e) (hPath : tree.root.descend [0] = some e.block)
    (hText : e.block.frame.expression = "(a>b)") (hType : e.block.frame.type = .boolean) :
    negation.beginDrag (.canvas 0 2) ⟨340, 90⟩ =
      (.ok true, pulledNegation piece edited (negation.viewport.canvasToGlobal
        (BlockTree.originOf { tree with origin := ⟨100, 100⟩ } e))) := by
  have hConsistent := reachable_negation.consistent
  have hCanvas := tree?_negation hTree
  obtain ⟨p, n, hLocated⟩ := hConsistent.located_of_descend hCanvas hPath
  obtain rfl := Option.some.inj hLocated.placed
  obtain rfl := Except.ok.inj (read_negation.symm.trans hLocated.read)
  rw [← hText] at hPiece
  have hTrue : Node.read "true" = .ok (.literal (.truth true)) := by cbv
  have hRead : Node.read e.block.frame.type.placeholder = .ok (.literal (.truth true)) := by
    rw [hType]
    exact hTrue
  have hNext : (⟨[(1, ⟨"(not true)", ⟨100, 100⟩⟩)], 2⟩ : Collection ℚ) =
      (negation.placed.add ⟨(Node.operator .not [.literal (.truth true)]).canonical,
        ⟨100, 100⟩⟩).erase 0 := by
    rfl
  have hEdit : Canvas.build negation.style ⟨[(1, ⟨"(not true)", ⟨100, 100⟩⟩)], 2⟩ =
      ⟨[⟨1, { edited with origin := ⟨100, 100⟩ }⟩], []⟩ :=
    Canvas.go_cons_ok hEdited []
  rw [hConsistent.beginDrag_part rfl hCanvas hEntry hInner hLocated hRead hPiece hNext, hEdit]
  rfl

theorem Reachable.drag_steady_negation :
    ∃ (begun after : Session ℚ) (v : View ℚ) (x : Entry ℚ) (d : Drag ℚ) (t : BlockTree ℚ),
      negation.Reachable ∧ negation.beginDrag (.canvas 0 2) ⟨340, 90⟩ = (.ok true, begun) ∧
      negation.view? (.canvas 0 2) = some v ∧ v.tree.entry? v.block = some x ∧
      x.block.frame.expression = "(a>b)" ∧ v.place x = ⟨1664 / 5, 86⟩ ∧
      begun.drag = some d ∧ v.Moved negation d.tree begun .zero .zero ∧
      (begun.scrollCanvas ⟨0, 5⟩).release (.up ⟨500, -10⟩) = (.ok (.placed 2), after) ∧
      after.canvas.tree? 2 = some t ∧
      v.Moved negation t after after.viewport.canvasOffset ⟨160, -81⟩ := by
  obtain ⟨tree, piece, edited, hTree, hPiece, hEdited, hRootId, e, hEntry, hPath, hText, hType,
    hPlace, d, hDrag, hOutside, hProbe⟩ := exists_pulledNegation
  have hInner : 2 ≠ tree.rootId := by
    rw [hRootId]
    decide
  have hBegin := beginDrag_negation hTree hPiece hEdited hInner hEntry hPath hText hType
  obtain ⟨v, x, hSeen, hx, ⟨d', hDrag', hStart⟩, hLater⟩ := reachable_negation.drag_steady hBegin
  obtain rfl : ⟨{ tree with origin := ⟨100, 100⟩ }, negation.viewport.canvasOffset, 2⟩ = v := by
    rw [view?, tree?_negation hTree] at hSeen
    exact Option.some.inj hSeen
  obtain rfl := Option.some.inj (hEntry.symm.trans hx)
  have hBegun := reachable_negation.apply (.beginDrag (.canvas 0 2) ⟨340, 90⟩)
  rw [Session.apply, hBegin] at hBegun
  obtain ⟨outcome, next, hDrops, hRelease⟩ :=
    (hBegun.apply (.scrollCanvas ⟨0, 5⟩)).consistent.exists_release hDrag (.up ⟨500, -10⟩)
  obtain ⟨rfl, -⟩ := hDrops.of_no_agreement hOutside fun leaf b hFirst hBlock => by
    rw [probe_of_firstMet hOutside hFirst hBlock] at hProbe
    cases hProbe
  obtain ⟨-, hPlaced⟩ := hLater [.scrollCanvas ⟨0, 5⟩] (by simp [Operation.Holds])
  obtain ⟨t, ht, hMoved⟩ := hPlaced _ _ _ hRelease
  have hShift : (⟨714 / 5, 106⟩ : Point ℚ) + negation.viewport.canvasOffset = ⟨1664 / 5, 86⟩ :=
    Point.eq_of_coordinates (by decide +kernel) (by decide +kernel)
  have hShown :
      View.place ⟨{ tree with origin := ⟨100, 100⟩ }, negation.viewport.canvasOffset, 2⟩ e =
        ⟨1664 / 5, 86⟩ := by
    rw [View.place, hPlace]
    exact hShift
  refine ⟨_, _, _, _, _, t, reachable_negation, hBegin, hSeen, hx, hText, hShown, hDrag', hStart,
    hRelease, ht, ?_⟩
  rw [hShown] at hMoved
  have hWay : (160 : ℚ) = 500 - 340 := by norm_num
  have hDown : (-81 : ℚ) =
      -10 - 90 + max ((0 : Nat) : ℚ) ((10 : Nat) - (86 + (-10 - 90) + 5)) := by norm_num
  rw [hWay, hDown]
  exact hMoved

end Session

end Blockwork
