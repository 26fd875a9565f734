import Blockwork.Proofs.Board.Reachable

/-! # The release of a drag

Every drag can be released, by the pointer going up at a point or by being cancelled. What the
collection holds then is what it held before, without the owner and without the target of a merge,
and with at most one new entry on top.
-/

set_option autoImplicit false

namespace Blockwork

/-- How a drag comes to its end. -/
inductive Release (K : Type) where
  | up (point : Point K)
  | cancel

variable {K : Type}

namespace Drag

theorem leave_eq (d : Drag K) {c : Collection K} (h : c.Ordered) :
    d.leave c = ⟨c.others d.owner.toList, c.next⟩ := by
  rw [leave]
  cases d.owner with
  | none => rw [Option.toList_none, Collection.others_nil]
  | some id =>
    rw [Option.toList_some, ← h.entries_erase id]
    rfl

theorem next_notMem_owner {d : Drag K} {c : Collection K} (hFits : d.Fits c) (h : c.Ordered) :
    c.next ∉ d.owner.toList := by
  rw [Option.mem_toList]
  intro hOwner
  obtain ⟨p, hp, -⟩ := hFits.owner _ hOwner
  exact h.next_notMem (Collection.mem_ids_of_get? hp)

theorem leave_add {d : Drag K} {c : Collection K} (hFits : d.Fits c) (h : c.Ordered)
    (p : Placed K) :
    d.leave (c.add p) = ⟨c.others d.owner.toList ++ [(c.next, p)], c.next + 1⟩ := by
  rw [leave_eq d (h.add p), Collection.others_add (next_notMem_owner hFits h)]
  rfl

theorem leave_erase_add {d : Drag K} {c : Collection K} (hFits : d.Fits c) (h : c.Ordered)
    (p : Placed K) {id : Nat} (hid : id ∈ c.ids) :
    d.leave ((c.add p).erase id) =
      ⟨c.others (id :: d.owner.toList) ++ [(c.next, p)], c.next + 1⟩ := by
  have hNext : c.next ∉ id :: d.owner.toList := by
    rw [List.mem_cons, not_or]
    constructor
    · rintro rfl
      exact h.next_notMem hid
    · exact next_notMem_owner hFits h
  rw [leave_eq d ((h.add p).erase id), (h.add p).others_erase, Collection.others_add hNext]
  rfl

end Drag

variable [Scalar K]

theorem Viewport.isOverPalette_iff (v : Viewport K) (p : Point K) :
    v.isOverPalette p = true ↔ p.x < v.paletteWidth :=
  decide_eq_true_iff

namespace Drag

/-- What is dragged, where its release puts it. -/
def released (d : Drag K) : Release K → Drag K
  | .up point => (d.sampled point).settled
  | .cancel => d.settled

section

variable (d : Drag K) (release : Release K)

@[simp] theorem owner_released : (d.released release).owner = d.owner := by
  cases release with
  | up point => exact owner_settled
  | cancel => exact owner_settled

theorem root_released : (d.released release).tree.root = d.tree.root := by
  cases release with
  | up point => rfl
  | cancel =>
    rw [released, settled]
    split <;> rfl

theorem released_cancel {d : Drag K} (h : d.pending = none) : d.released .cancel = d := by
  rw [released, settled, h]

@[simp] theorem expression_released : (d.released release).expression = d.expression :=
  congrArg (·.frame.expression) (root_released d release)

end

end Drag

namespace Session

def release (s : Session K) : Release K → Except Fault Outcome × Session K
  | .up point => s.pointerUp point
  | .cancel => s.pointerCancel

section

variable {s : Session K} {d : Drag K}

theorem Drops.of_withDrag {e : Drag K} {outcome : Outcome} {next : Collection K}
    (h : Drops { s with drag := some e } d outcome next) : s.Drops d outcome next := by
  cases h with
  | deleted hOver => exact .deleted hOver
  | merged hOutside hFirst hBlock hType hLocated hRead =>
    obtain ⟨hPlaced, hText, hShown, hTree, hShows⟩ := hLocated
    exact .merged hOutside hFirst hBlock hType ⟨hPlaced, hText, hShown, hTree, hShows⟩ hRead
  | placed hOutside hApart => exact .placed hOutside hApart

theorem Drops.of_over {outcome : Outcome} {next : Collection K} (h : s.Drops d outcome next)
    (hOver : s.viewport.isOverPalette d.position = true) :
    outcome = .deleted d.owner ∧ next = s.placed := by
  cases h with
  | deleted => exact ⟨rfl, rfl⟩
  | merged hOutside | placed hOutside =>
    rw [hOver] at hOutside
    cases hOutside

theorem Drops.of_agreement {outcome : Outcome} {next : Collection K}
    (h : s.Drops d outcome next) (hOutside : s.viewport.isOverPalette d.position = false)
    {leaf : LeafRef} {b : Block K} (hFirst : s.FirstMet d leaf)
    (hBlock : s.leafBlock? leaf = some b) (hType : b.frame.type = d.tree.root.frame.type) :
    ∃ target n path r, s.Located leaf.placed b target n path ∧
      Node.read d.expression = .ok r ∧ outcome = .merged leaf.placed s.placed.next ∧
      next = (s.placed.add ⟨(n.ungroup.put path r).canonical, target.origin⟩).erase
        leaf.placed := by
  cases h with
  | deleted hOver =>
    rw [hOver] at hOutside
    cases hOutside
  | merged _ hOther hBlock' _ hLocated hRead =>
    obtain rfl := hOther.unique hFirst
    obtain rfl := Option.some.inj (hBlock'.symm.trans hBlock)
    exact ⟨_, _, _, _, hLocated, hRead, rfl, rfl⟩
  | placed _ hApart => exact absurd hType (hApart leaf b hFirst hBlock)

theorem Drops.of_no_agreement {outcome : Outcome} {next : Collection K}
    (h : s.Drops d outcome next) (hOutside : s.viewport.isOverPalette d.position = false)
    (hApart : ∀ leaf b, s.FirstMet d leaf → s.leafBlock? leaf = some b →
      b.frame.type ≠ d.tree.root.frame.type) :
    outcome = .placed s.placed.next ∧ next = s.placed.add ⟨d.expression, s.dropOrigin d⟩ := by
  cases h with
  | deleted hOver =>
    rw [hOver] at hOutside
    cases hOutside
  | merged _ hFirst hBlock hType => exact absurd hType (hApart _ _ hFirst hBlock)
  | placed => exact ⟨rfl, rfl⟩

theorem release_of_idle (hd : s.drag = none) (release : Release K) :
    s.release release = (.ok .aborted, s) := by
  cases release with
  | up point => rw [Session.release, Session.pointerUp, hd]
  | cancel => rw [Session.release, pointerCancel, Session.finishDrag, hd]

theorem Consistent.exists_release (h : s.Consistent) (hd : s.drag = some d)
    (release : Release K) :
    ∃ outcome next, s.Drops (d.released release) outcome next ∧
      s.release release = (.ok outcome,
        { s.freed with placed := d.leave next, canvas := .build s.style (d.leave next) }) := by
  cases release with
  | up point =>
    have hSampled := h.withDrag ((h.drag d hd).sampled point)
    obtain ⟨outcome, next, hDrops, -, -, hFinish⟩ := hSampled.exists_finishDrag rfl
    refine ⟨outcome, next, hDrops.of_withDrag, ?_⟩
    rw [Session.release, Session.pointerUp, hd]
    exact hFinish
  | cancel =>
    obtain ⟨outcome, next, hDrops, -, -, hFinish⟩ := h.exists_finishDrag hd
    exact ⟨outcome, next, hDrops, hFinish⟩

/-- What the outcome of a release is, and what the collection holds after it. -/
theorem Reachable.release_accounts (h : s.Reachable) (hd : s.drag = some d)
    (release : Release K) :
    let dropped := d.released release
    let id := s.placed.next
    ∃ outcome after, s.release release = (.ok outcome, after) ∧ after.drag = none ∧
      (∀ other ∈ s.placed.ids, other < id) ∧
      (dropped.position.x < s.viewport.paletteWidth →
        outcome = .deleted d.owner ∧ after.placed = ⟨s.placed.others d.owner.toList, id⟩) ∧
      (¬ dropped.position.x < s.viewport.paletteWidth →
        (∀ leaf b, s.FirstMet dropped leaf → s.leafBlock? leaf = some b →
          b.frame.type = dropped.tree.root.frame.type →
          ∃ target n path r, s.Located leaf.placed b target n path ∧
            (∀ other, s.Located leaf.placed b target n other → other = path) ∧
            Node.read d.expression = .ok r ∧ outcome = .merged leaf.placed id ∧
            after.placed = ⟨s.placed.others (leaf.placed :: d.owner.toList) ++
              [(id, ⟨(n.ungroup.put path r).canonical, target.origin⟩)], id + 1⟩) ∧
        ((∀ leaf b, s.FirstMet dropped leaf → s.leafBlock? leaf = some b →
          b.frame.type ≠ dropped.tree.root.frame.type) →
          outcome = .placed id ∧
            after.placed = ⟨s.placed.others d.owner.toList ++
              [(id, ⟨d.expression, s.dropOrigin dropped⟩)], id + 1⟩)) := by
  intro dropped id
  have hConsistent := h.consistent
  have hOrdered := hConsistent.ordered
  have hFits := hConsistent.drag d hd
  obtain ⟨outcome, next, hDrops, hRelease⟩ := hConsistent.exists_release hd release
  refine ⟨outcome, _, hRelease, rfl, hOrdered.below, ?_, ?_⟩
  · intro hOver
    obtain ⟨hOutcome, rfl⟩ := hDrops.of_over ((Viewport.isOverPalette_iff _ _).mpr hOver)
    rw [Drag.owner_released] at hOutcome
    exact ⟨hOutcome, Drag.leave_eq d hOrdered⟩
  · intro hNotOver
    have hOutside : s.viewport.isOverPalette dropped.position = false := by
      rwa [← Bool.not_eq_true, Viewport.isOverPalette_iff]
    constructor
    · intro leaf b hFirst hBlock hType
      obtain ⟨target, n, path, r, hLocated, hRead, hOutcome, rfl⟩ :=
        hDrops.of_agreement hOutside hFirst hBlock hType
      rw [Drag.expression_released] at hRead
      have hTarget := Collection.mem_ids_of_get? hLocated.placed
      exact ⟨target, n, path, r, hLocated, fun _ => hLocated.path_eq, hRead, hOutcome,
        Drag.leave_erase_add hFits hOrdered _ hTarget⟩
    · intro hApart
      obtain ⟨hOutcome, rfl⟩ := hDrops.of_no_agreement hOutside hApart
      rw [Drag.expression_released]
      exact ⟨hOutcome, Drag.leave_add hFits hOrdered _⟩

end

def sums : Collection Float :=
  ⟨[(0, ⟨"(x+y)", ⟨(20 : Nat), (200 : Nat)⟩⟩), (1, ⟨"(a+b)", ⟨(100 : Nat), (100 : Nat)⟩⟩)], 2⟩

def draggedSum (first second : BlockTree Float) : Session Float :=
  apply { bare with
    placed := sums
    canvas := ⟨[⟨0, { first with origin := ⟨(20 : Nat), (200 : Nat)⟩ }⟩,
      ⟨1, { second with origin := ⟨(100 : Nat), (100 : Nat)⟩ }⟩], []⟩ }
    (.beginDrag (.canvas 0 2) ⟨(220 : Nat), (200 : Nat)⟩)

theorem draggedSum_eq {first second : BlockTree Float}
    (hFirst : bare.style.layOutText "(x+y)" = .ok first)
    (hSecond : bare.style.layOutText "(a+b)" = .ok second) :
    draggedSum first second =
      ((bare.apply (.addExpression "x + y" ⟨(20 : Nat), (200 : Nat)⟩)).apply
        (.addExpression "a + b" ⟨(100 : Nat), (100 : Nat)⟩)).apply
          (.beginDrag (.canvas 0 2) ⟨(220 : Nat), (200 : Nat)⟩) := by
  have hx : Node.read "x + y" = .ok (.operator .add [.symbol "x", .symbol "y"]) := by cbv
  have ha : Node.read "a + b" = .ok (.operator .add [.symbol "a", .symbol "b"]) := by cbv
  have hOne := reachable_bare.consistent.addExpression_eq hx (shown_sum "x" "y")
    ⟨(20 : Nat), (200 : Nat)⟩
  have hReachable := reachable_bare.apply (.addExpression "x + y" ⟨(20 : Nat), (200 : Nat)⟩)
  rw [apply, hOne] at hReachable
  have hTwo := hReachable.consistent.addExpression_eq ha (shown_sum "a" "b")
    ⟨(100 : Nat), (100 : Nat)⟩
  have hCanvas : Canvas.build bare.style sums =
      ⟨[⟨0, { first with origin := ⟨(20 : Nat), (200 : Nat)⟩ }⟩,
        ⟨1, { second with origin := ⟨(100 : Nat), (100 : Nat)⟩ }⟩], []⟩ := by
    simp only [sums, Canvas.build, Canvas.build.go, hFirst, hSecond]
    rfl
  rw [draggedSum, ← hCanvas, apply.eq_1 bare, hOne, apply.eq_1, hTwo]
  rfl

theorem reachable_draggedSum {first second : BlockTree Float}
    (hFirst : bare.style.layOutText "(x+y)" = .ok first)
    (hSecond : bare.style.layOutText "(a+b)" = .ok second) :
    (draggedSum first second).Reachable := by
  rw [draggedSum_eq hFirst hSecond]
  exact ((reachable_bare.apply _).apply _).apply _

theorem exists_draggedSum :
    let up : Release Float := .up ⟨(316 : Nat), (100 : Nat)⟩
    ∃ first second, bare.style.layOutText "(x+y)" = .ok first ∧
      bare.style.layOutText "(a+b)" = .ok second ∧
      let s := draggedSum first second
      ∃ d b, s.placed = sums ∧ s.drag = some d ∧ d.owner = some 0 ∧ d.expression = "(x+y)" ∧
        ¬ (d.released up).position.x < s.viewport.paletteWidth ∧
        s.FirstMet (d.released up) ⟨1, 0⟩ ∧ s.leafBlock? ⟨1, 0⟩ = some b ∧
        b.frame.type = (d.released up).tree.root.frame.type ∧
        b.frame.address.steps.map (·.slot) = [none, some 0] := by
  intro up
  have hx : Node.read "(x+y)" = .ok (.group (.operator .add [.symbol "x", .symbol "y"])) := by cbv
  have ha : Node.read "(a+b)" = .ok (.group (.operator .add [.symbol "a", .symbol "b"])) := by cbv
  rw [Style.layOutText, hx, Style.layOutText, ha]
  refine ⟨_, _, rfl, rfl, ?_⟩
  refine ⟨_, _, rfl, rfl, rfl, rfl, ?_, ⟨⟨?_, _, _, rfl, rfl, ?_⟩, [⟨0, 0⟩, ⟨0, 1⟩], _, rfl, ?_⟩,
    rfl, rfl, rfl⟩
  · decide +kernel
  · have hApart : some 1 ≠ some 0 := by decide
    exact hApart
  · decide +kernel
  · rintro leaf hLeaf
    rcases List.mem_cons.mp hLeaf with rfl | hLeaf
    · exact not_meets_of_owner rfl
    · obtain rfl := List.mem_singleton.mp hLeaf
      exact not_meets_of_owner rfl

theorem Reachable.release_accounts_merged :
    ∃ s after : Session Float, s.Reachable ∧ s.placed = sums ∧
      s.release (.up ⟨(316 : Nat), (100 : Nat)⟩) = (.ok (.merged 1 2), after) ∧
      after.placed = ⟨[(2, ⟨"((x+y)+b)", ⟨(100 : Nat), (100 : Nat)⟩⟩)], 3⟩ := by
  have hx : Node.read "(x+y)" = .ok (.group (.operator .add [.symbol "x", .symbol "y"])) := by cbv
  have ha : Node.read "(a+b)" = .ok (.group (.operator .add [.symbol "a", .symbol "b"])) := by cbv
  obtain ⟨first, second, hFirst, hSecond, d, b, hPlaced, hDrag, hOwner, hText, hNotOver, hMet,
    hBlock, hType, hSlots⟩ := exists_draggedSum
  have hReachable := reachable_draggedSum hFirst hSecond
  obtain ⟨outcome, after, hRelease, -, -, -, hElse⟩ :=
    hReachable.release_accounts hDrag (.up ⟨(316 : Nat), (100 : Nat)⟩)
  obtain ⟨target, n, path, r, hLocated, -, hRead, rfl, hAfter⟩ :=
    (hElse hNotOver).1 ⟨1, 0⟩ b hMet hBlock hType
  obtain rfl := Option.some.inj ((congrArg (·.get? 1) hPlaced).symm.trans hLocated.placed)
  obtain rfl := Except.ok.inj (ha.symm.trans hLocated.read)
  rw [hText] at hRead
  obtain rfl := Except.ok.inj (hx.symm.trans hRead)
  obtain rfl : path = [0] := by
    obtain ⟨⟨sub, hSub, -⟩, hSteps⟩ := hLocated.shows
    rw [hSteps, List.map_append, Node.slots_steps hSub] at hSlots
    exact (List.map_inj_right fun _ _ => Option.some.inj).mp (List.cons.inj hSlots).2
  rw [hPlaced] at hRelease hAfter
  rw [hOwner] at hAfter
  exact ⟨_, after, hReachable, hPlaced, hRelease, hAfter⟩

end Session

end Blockwork
