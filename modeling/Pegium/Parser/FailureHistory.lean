/-
Pegium/Parser/FailureHistory.lean

The failure snapshot of a tracked parse.

The recorder keeps all visible leaves in one buffer, and of the furthest path only its
length.  `PathHistory` says what it is for: it keeps the path that leads to the cursor, and
a copy of it whenever the furthest offset is reached.  A branch tried after a rewind writes
into the same buffer, so the snapshot is the furthest path exactly when no such branch
records, short of the furthest offset, another leaf at a place that path still uses
(`snapshot_coherent_iff`).

The events of a run are those of any tracked context.  That a parse of literals, groups and
ordered choices is such a run is `TrackedParse.runs`.
-/
import Pegium.General.Machine
import Pegium.Parser.RecoverySearch
import Pegium.Parser.Strict

namespace Pegium

/-! ### The snapshot -/

theorem index_lt_length {around : FailureLeaf → Bool} {history : List FailureLeaf} {index : ℕ}
    (h : history.findIdx? around = some index) : index < history.length :=
  (List.findIdx?_eq_some_iff_getElem.mp h).1

/-- The place counted from the end. -/
theorem reverse_index_lt_length {before : FailureLeaf → Bool} {history : List FailureLeaf}
    {index : ℕ} (h : history.reverse.findIdx? before = some index) :
    history.length - 1 - index < history.length := by
  have hindex := index_lt_length h
  rw [List.length_reverse] at hindex
  omega

/-- The first leaf around the furthest cursor, or else the last one before it. -/
def finalize_failure_token_index (maxCursorOffset : ℕ) (history : List FailureLeaf) :
    FailureSnapshot :=
  let around := fun leaf : FailureLeaf =>
    leaf.beginOffset ≤ maxCursorOffset && maxCursorOffset < leaf.endOffset
  let before := fun leaf : FailureLeaf => leaf.endOffset ≤ maxCursorOffset
  match h : history.findIdx? around with
  | some index =>
    ⟨maxCursorOffset, history, index, true, fun _ => index_lt_length h⟩
  | none =>
    match h : history.reverse.findIdx? before with
    | some index =>
      ⟨maxCursorOffset, history, history.length - 1 - index, true,
        fun _ => reverse_index_lt_length h⟩
    | none => ⟨maxCursorOffset, history, 0, false, fun h => absurd h Bool.false_ne_true⟩

/-- The leaves at the furthest point, with the one at which parsing failed. -/
def FailureHistoryRecorder.snapshot (r : FailureHistoryRecorder) (maxCursorOffset : ℕ) :
    FailureSnapshot :=
  finalize_failure_token_index maxCursorOffset (r.visibleLeaves.take r.furthestVisibleLeafCount)

/-- The failure token is searched for, the leaves stay. -/
theorem snapshot_failureLeafHistory (r : FailureHistoryRecorder) (maxCursorOffset : ℕ) :
    (r.snapshot maxCursorOffset).failureLeafHistory =
      r.visibleLeaves.take r.furthestVisibleLeafCount := by
  simp only [FailureHistoryRecorder.snapshot, finalize_failure_token_index]
  split
  · rfl
  · split <;> rfl

/-! ### Paths -/

/-- The path to the cursor, and the path as it was when the furthest offset was last
reached. -/
structure PathHistory where
  path : List FailureLeaf
  furthestOffset : ℕ
  furthestPath : List FailureLeaf
  deriving DecidableEq

namespace PathHistory

/-- Nothing is recorded. -/
def initial : PathHistory := ⟨[], 0, []⟩

/-- The path becomes the furthest one where it reaches as far. -/
def reach (h : PathHistory) (offset : ℕ) : PathHistory :=
  if offset < h.furthestOffset then h
  else { h with furthestOffset := offset, furthestPath := h.path }

/-- Only a leaf that is visible and not empty is on the path. -/
def visit (h : PathHistory) (start stop : ℕ) (element : GrammarElement) (hidden : Bool) :
    PathHistory :=
  if hidden || stop ≤ start then h
  else reach { h with path := h.path ++ [⟨start, stop, element⟩] } stop

/-- Go back to an earlier path. -/
def rewind (h : PathHistory) (path : List FailureLeaf) : PathHistory := { h with path }

end PathHistory

/-- Leaves one after the other, none of them empty, up to an offset. -/
structure WellPlaced (path : List FailureLeaf) (offset : ℕ) : Prop where
  ordered : path.Pairwise fun a b => a.endOffset ≤ b.beginOffset
  bounded : ∀ leaf ∈ path, leaf.beginOffset < leaf.endOffset ∧ leaf.endOffset ≤ offset

namespace WellPlaced

variable {path : List FailureLeaf} {offset offset' : ℕ}

theorem nil : WellPlaced [] offset := ⟨.nil, by simp⟩

theorem mono (h : WellPlaced path offset) (hle : offset ≤ offset') : WellPlaced path offset' where
  ordered := h.ordered
  bounded leaf hmem := ⟨(h.bounded leaf hmem).1, Nat.le_trans (h.bounded leaf hmem).2 hle⟩

theorem concat (h : WellPlaced path offset) {leaf : FailureLeaf} (hle : offset ≤ leaf.beginOffset)
    (hlt : leaf.beginOffset < leaf.endOffset) :
    WellPlaced (path ++ [leaf]) leaf.endOffset where
  ordered := by
    refine List.pairwise_append.mpr ⟨h.ordered, List.pairwise_singleton _ _, ?_⟩
    intro a ha b hb
    rw [List.mem_singleton.mp hb]
    exact Nat.le_trans (h.bounded a ha).2 hle
  bounded := by
    intro a ha
    rcases List.mem_append.mp ha with ha | ha
    · exact ⟨(h.bounded a ha).1, by have := (h.bounded a ha).2; omega⟩
    · rw [List.mem_singleton.mp ha]
      exact ⟨hlt, Nat.le_refl _⟩

end WellPlaced

/-! ### The shared buffer -/

/-- A leaf is written over the one at the current count, or at the end. -/
def writeLeaf (leaves : List FailureLeaf) (count : ℕ) (leaf : FailureLeaf) : List FailureLeaf :=
  if count < leaves.length then leaves.set count leaf else leaves ++ [leaf]

section Buffer

variable {leaves : List FailureLeaf} {count n : ℕ} {leaf : FailureLeaf}

theorem length_writeLeaf : leaves.length ≤ (writeLeaf leaves count leaf).length := by
  rw [writeLeaf]
  split <;> simp

theorem take_writeLeaf_of_le (h : n ≤ count) (hle : n ≤ leaves.length) :
    (writeLeaf leaves count leaf).take n = leaves.take n := by
  rw [writeLeaf]
  split
  · rw [List.take_set_of_le h]
  · rw [List.take_append_of_le_length hle]

theorem take_writeLeaf (h : count ≤ leaves.length) :
    (writeLeaf leaves count leaf).take (count + 1) = leaves.take count ++ [leaf] := by
  rw [writeLeaf]
  split
  case isTrue hlt =>
    rw [List.take_succ_eq_append_getElem (by simpa using hlt), List.getElem_set_self,
      List.take_set_of_le (Nat.le_refl count)]
  case isFalse hge =>
    have hcount : count = leaves.length := by omega
    rw [hcount, List.take_length, List.take_of_length_le (by simp)]

/-- **What is kept beyond the current count survives a write exactly when the leaf written
is the one already there.** -/
theorem take_writeLeaf_iff (h : count < n) (hle : n ≤ leaves.length) :
    (writeLeaf leaves count leaf).take n = leaves.take n ↔ leaves[count]? = some leaf := by
  have hlt : count < leaves.length := by omega
  rw [writeLeaf, if_pos hlt]
  constructor
  · intro heq
    have hget : ((leaves.set count leaf).take n)[count]? = (leaves.take n)[count]? := by rw [heq]
    rw [List.getElem?_take_of_lt h, List.getElem?_take_of_lt h,
      List.getElem?_set_self hlt] at hget
    exact hget.symm
  · intro hget
    rw [List.getElem?_eq_getElem hlt, Option.some.injEq] at hget
    rw [← hget, List.set_getElem_self hlt]

end Buffer

/-! ### Runs -/

/-- A tracked context with the marks that are still held, the newest one first, each with
the path it was taken on. -/
structure HistoryState where
  context : TrackedParseContext
  history : PathHistory
  checkpoints : List (TrackedParseContext.Checkpoint × List FailureLeaf)

/-- What a parse does to its context. -/
inductive HistoryEvent where
  | skip (o : RecoveryOptions)
  | leaf (start stop : ℕ) (element : GrammarElement) (hidden recovered : Bool)
  /-- a node is opened, closed or renamed -/
  | node (builder : CstBuilder GrammarElement)
  | mark
  /-- the newest mark is not used any more -/
  | release
  /-- back to the mark with that many newer ones, which go -/
  | rewind (depth : ℕ)

/-- Leaves and skips do not go back behind the cursor, and a rewind needs a mark. -/
def historyStep (s : HistoryState) : HistoryEvent → Option HistoryState
  | .skip o =>
    if s.context.cursor ≤ (o.skip s.context.cursor).2 then
      some { s with
        context := s.context.skip o
        history := s.history.reach (o.skip s.context.cursor).2 }
    else none
  | .leaf start stop element hidden recovered =>
    if s.context.cursor ≤ start ∧ start ≤ stop then
      some { s with
        context := s.context.leaf start stop element hidden recovered
        history := s.history.visit start stop element hidden }
    else none
  | .node builder =>
    some { s with context.builder := builder }
  | .mark =>
    some { s with checkpoints := (s.context.mark, s.history.path) :: s.checkpoints }
  | .release => some { s with checkpoints := s.checkpoints.tail }
  | .rewind depth =>
    match s.checkpoints.drop depth with
    | [] => none
    | (checkpoint, path) :: rest =>
      some
        { context := s.context.rewind checkpoint
          history := s.history.rewind path
          checkpoints := (checkpoint, path) :: rest }

/-- Recorder and paths as one machine. -/
def historyMachine : Machine HistoryState HistoryEvent := ⟨historyStep⟩

/-- A tracked parse begins at the beginning of the text, without marks. -/
def HistoryState.initial : HistoryState :=
  ⟨RecoveryContext.initial.toTrackedParseContext, .initial, []⟩

namespace HistoryState

/-- The leaves that a snapshot reports are the furthest path. -/
def Snapshots (s : HistoryState) : Prop :=
  s.context.failureRecorder.visibleLeaves.take s.context.failureRecorder.furthestVisibleLeafCount =
    s.history.furthestPath

/-- **The snapshot is coherent**: its leaves are the path that led to the furthest offset
when it was last reached, one after the other and up to that offset. -/
def Coherent (s : HistoryState) : Prop :=
  ∀ maxCursorOffset,
    let leaves := (s.context.failureRecorder.snapshot maxCursorOffset).failureLeafHistory
    leaves = s.history.furthestPath ∧
      (leaves.Pairwise fun a b => a.endOffset ≤ b.beginOffset) ∧
      ∀ leaf ∈ leaves, leaf.endOffset ≤ s.context.failureRecorder.furthestOffset

/-- A leaf short of the furthest offset, at a place that the furthest path uses, is the one
already there. -/
def Safe (s : HistoryState) : HistoryEvent → Prop
  | .leaf start stop element hidden _ =>
    let r := s.context.failureRecorder
    hidden = false → start < stop → stop < r.furthestOffset →
      r.currentVisibleLeafCount < r.furthestVisibleLeafCount →
        r.visibleLeaves[r.currentVisibleLeafCount]? = some ⟨start, stop, element⟩
  | _ => True

/-! ### What every run keeps -/

/-- The marks still held: each one's path is well placed up to its cursor, and begins the
path of the next newer one. -/
def Held : List FailureLeaf → List (TrackedParseContext.Checkpoint × List FailureLeaf) → Prop
  | _, [] => True
  | path, (checkpoint, path') :: rest =>
    path' <+: path ∧ checkpoint.failureHistorySize = path'.length ∧
      checkpoint.recordFailureHistory = true ∧
      WellPlaced path' checkpoint.parseCheckpoint.cursor ∧ Held path' rest

/-- The recorder against the paths, short of the leaves of the furthest one. -/
structure Tracks (s : HistoryState) : Prop where
  recording : s.context.recordFailureHistory = true
  count : s.context.failureRecorder.currentVisibleLeafCount = s.history.path.length
  leaves : s.context.failureRecorder.visibleLeaves.take s.history.path.length = s.history.path
  placed : WellPlaced s.history.path s.context.cursor
  furthest : s.context.failureRecorder.furthestOffset = s.history.furthestOffset
  furthestCount :
    s.context.failureRecorder.furthestVisibleLeafCount = s.history.furthestPath.length
  furthestBound :
    s.history.furthestPath.length ≤ s.context.failureRecorder.visibleLeaves.length
  furthestPlaced : WellPlaced s.history.furthestPath s.history.furthestOffset
  held : Held s.history.path s.checkpoints

theorem Held.mono {path path' : List FailureLeaf}
    {checkpoints : List (TrackedParseContext.Checkpoint × List FailureLeaf)}
    (h : Held path checkpoints) (hle : path <+: path') : Held path' checkpoints := by
  rcases checkpoints with _ | ⟨⟨checkpoint, saved⟩, rest⟩
  · trivial
  · exact ⟨h.1.trans hle, h.2⟩

/-- Every mark still held begins the current path. -/
theorem Held.drop {path : List FailureLeaf}
    {checkpoints rest : List (TrackedParseContext.Checkpoint × List FailureLeaf)} {depth : ℕ}
    (h : Held path checkpoints) (hrest : checkpoints.drop depth = rest) : Held path rest := by
  subst hrest
  induction depth generalizing path checkpoints with
  | zero => exact h
  | succ depth ih =>
    rcases checkpoints with _ | ⟨⟨checkpoint, saved⟩, rest⟩
    · trivial
    · exact (ih h.2.2.2.2).mono h.1

theorem tracks_initial : Tracks initial where
  recording := rfl
  count := rfl
  leaves := rfl
  placed := .nil
  furthest := rfl
  furthestCount := rfl
  furthestBound := Nat.le_refl 0
  furthestPlaced := .nil
  held := trivial

namespace Tracks

variable {s s' : HistoryState}

theorem length_le (h : Tracks s) :
    s.history.path.length ≤ s.context.failureRecorder.visibleLeaves.length := by
  have hlength := congrArg List.length h.leaves
  rw [List.length_take] at hlength
  omega

/-- The furthest offset is reached again, or not. -/
theorem reach (h : Tracks s) {offset : ℕ} (context : TrackedParseContext)
    (hle : s.context.cursor ≤ offset) (hcursor : context.cursor = offset)
    (hrecording : context.recordFailureHistory = true)
    (hrecorder : context.failureRecorder = s.context.failureRecorder.updateFurthest offset) :
    Tracks { s with context, history := s.history.reach offset } ∧
      (Snapshots { s with context, history := s.history.reach offset } ↔
        (offset < s.context.failureRecorder.furthestOffset → s.Snapshots)) := by
  rw [FailureHistoryRecorder.updateFurthest] at hrecorder
  have hplaced : WellPlaced s.history.path context.cursor := h.placed.mono (hcursor ▸ hle)
  rw [PathHistory.reach, ← h.furthest]
  split
  case isTrue hlt =>
    rw [if_pos hlt] at hrecorder
    refine ⟨⟨hrecording, ?_, ?_, hplaced, ?_, ?_, ?_, h.furthestPlaced, h.held⟩, ?_⟩
    all_goals simp only [hrecorder, Snapshots]
    exacts [h.count, h.leaves, h.furthest, h.furthestCount, h.furthestBound,
      ⟨fun hs _ => hs, fun hs => hs hlt⟩]
  case isFalse hge =>
    rw [if_neg hge] at hrecorder
    refine ⟨⟨hrecording, ?_, ?_, hplaced, ?_, ?_, ?_, hcursor ▸ hplaced, h.held⟩, ?_⟩
    all_goals simp only [hrecorder, Snapshots]
    exacts [h.count, h.leaves, h.count, h.length_le,
      iff_of_true (h.count ▸ h.leaves) fun hlt => absurd hlt hge]

/-- A leaf is written at the current count. -/
theorem write (h : Tracks s) (leaf : FailureLeaf) (context : TrackedParseContext)
    (hle : s.context.cursor ≤ leaf.beginOffset) (hlt : leaf.beginOffset < leaf.endOffset)
    (hcursor : context.cursor = leaf.endOffset) (hrecording : context.recordFailureHistory = true)
    (hrecorder : context.failureRecorder =
      { s.context.failureRecorder with
        visibleLeaves := writeLeaf s.context.failureRecorder.visibleLeaves
          s.context.failureRecorder.currentVisibleLeafCount leaf
        currentVisibleLeafCount := s.context.failureRecorder.currentVisibleLeafCount + 1 }) :
    Tracks { s with context, history.path := s.history.path ++ [leaf] } ∧
      (s.Snapshots → (Snapshots { s with context, history.path := s.history.path ++ [leaf] } ↔
        (s.context.failureRecorder.currentVisibleLeafCount <
            s.context.failureRecorder.furthestVisibleLeafCount →
          s.context.failureRecorder.visibleLeaves[
            s.context.failureRecorder.currentVisibleLeafCount]? = some leaf))) := by
  have hcount : s.context.failureRecorder.currentVisibleLeafCount ≤
      s.context.failureRecorder.visibleLeaves.length := h.count ▸ h.length_le
  refine ⟨⟨hrecording, ?_, ?_, ?_, ?_, ?_, ?_, h.furthestPlaced, ?_⟩, fun hs => ?_⟩
  · simp only [hrecorder, List.length_append, List.length_singleton, h.count]
  · simp only [hrecorder, List.length_append, List.length_singleton, ← h.count]
    rw [take_writeLeaf hcount, h.count, h.leaves]
  · simp only [hcursor]
    exact h.placed.concat hle hlt
  · simp only [hrecorder, h.furthest]
  · simp only [hrecorder, h.furthestCount]
  · simp only [hrecorder]
    exact Nat.le_trans h.furthestBound length_writeLeaf
  · exact h.held.mono (List.prefix_append _ _)
  · have hbound := h.furthestCount ▸ h.furthestBound
    simp only [Snapshots, hrecorder] at hs ⊢
    rw [← hs]
    rcases Nat.lt_or_ge s.context.failureRecorder.currentVisibleLeafCount
      s.context.failureRecorder.furthestVisibleLeafCount with hlt | hge
    · rw [take_writeLeaf_iff hlt hbound]
      exact ⟨fun hget _ => hget, fun hget => hget hlt⟩
    · rw [take_writeLeaf_of_le hge hbound]
      exact iff_of_true rfl fun hlt => absurd hlt (Nat.not_lt.mpr hge)

/-- **One event keeps the account**, and it keeps the furthest path in the buffer exactly when
it is safe. -/
theorem step (h : Tracks s) {e : HistoryEvent} (hstep : historyMachine.step s e = some s') :
    Tracks s' ∧ (s.Snapshots → (s'.Snapshots ↔ s.Safe e)) := by
  cases e with
  | skip o =>
    simp only [historyMachine, historyStep, Option.ite_none_right_eq_some,
      Option.some.injEq] at hstep
    obtain ⟨hle, rfl⟩ := hstep
    obtain ⟨htracks, hiff⟩ := h.reach (s.context.skip o) hle rfl h.recording
      (if_pos h.recording)
    exact ⟨htracks, fun hs => iff_of_true (hiff.mpr fun _ => hs) trivial⟩
  | leaf start stop element hidden recovered =>
    simp only [historyMachine, historyStep, Option.ite_none_right_eq_some,
      Option.some.injEq] at hstep
    obtain ⟨⟨hle, hle'⟩, rfl⟩ := hstep
    by_cases hrecorded : (hidden || decide (stop ≤ start)) = true
    · -- a hidden or empty leaf is not recorded
      have hrecorder : (s.context.leaf start stop element hidden recovered).failureRecorder =
          s.context.failureRecorder := by
        simp only [TrackedParseContext.leaf, FailureHistoryRecorder.onLeaf, h.recording,
          hrecorded, if_true]
      have hplaced : WellPlaced s.history.path stop := h.placed.mono (Nat.le_trans hle hle')
      rw [PathHistory.visit, if_pos hrecorded]
      refine ⟨⟨h.recording, ?_, ?_, hplaced, ?_, ?_, ?_, h.furthestPlaced, h.held⟩,
        fun hs => ?_⟩
      all_goals simp only [hrecorder, Snapshots, Safe]
      · exact h.count
      · exact h.leaves
      · exact h.furthest
      · exact h.furthestCount
      · exact h.furthestBound
      · refine iff_of_true hs fun hvisible hlt => ?_
        rw [hvisible, Bool.false_or, decide_eq_true_eq] at hrecorded
        omega
    · have hvisible : hidden = false := by cases hidden <;> simp_all
      have hlt : start < stop := by
        rw [hvisible, Bool.false_or, decide_eq_true_eq] at hrecorded
        omega
      obtain ⟨hwrite, hwritten⟩ := h.write ⟨start, stop, element⟩
        { s.context with
          cursor := stop
          failureRecorder :=
            { s.context.failureRecorder with
              visibleLeaves := writeLeaf s.context.failureRecorder.visibleLeaves
                s.context.failureRecorder.currentVisibleLeafCount ⟨start, stop, element⟩
              currentVisibleLeafCount := s.context.failureRecorder.currentVisibleLeafCount + 1 } }
        hle hlt rfl h.recording rfl
      obtain ⟨hreach, hreached⟩ := hwrite.reach
        (s.context.leaf start stop element hidden recovered) (Nat.le_refl stop) rfl h.recording
        (by simp only [TrackedParseContext.leaf, FailureHistoryRecorder.onLeaf, h.recording,
              hrecorded, if_true]; rfl)
      rw [PathHistory.visit, if_neg hrecorded]
      refine ⟨hreach, fun hs => hreached.trans ?_⟩
      simp only [Safe]
      rw [hwritten hs]
      exact ⟨fun hsafe _ _ => hsafe, fun hsafe => hsafe hvisible hlt⟩
  | node builder =>
    cases hstep
    exact ⟨⟨h.recording, h.count, h.leaves, h.placed, h.furthest, h.furthestCount,
      h.furthestBound, h.furthestPlaced, h.held⟩, fun hs => iff_of_true hs trivial⟩
  | mark =>
    cases hstep
    refine ⟨⟨h.recording, h.count, h.leaves, h.placed, h.furthest, h.furthestCount,
      h.furthestBound, h.furthestPlaced, ?_⟩, fun hs => iff_of_true hs trivial⟩
    refine ⟨List.prefix_refl _, ?_, h.recording, h.placed, h.held⟩
    simp only [TrackedParseContext.mark, h.recording, if_true, h.count]
  | release =>
    cases hstep
    refine ⟨⟨h.recording, h.count, h.leaves, h.placed, h.furthest, h.furthestCount,
      h.furthestBound, h.furthestPlaced, ?_⟩, fun hs => iff_of_true hs trivial⟩
    exact h.held.drop List.drop_one
  | rewind depth =>
    simp only [historyMachine, historyStep] at hstep
    split at hstep
    case h_1 => cases hstep
    case h_2 checkpoint path rest hdrop =>
      cases hstep
      obtain ⟨hbegins, hsize, hrecording, hplaced, hrest⟩ := h.held.drop hdrop
      refine ⟨⟨hrecording, ?_, ?_, hplaced, ?_, ?_, ?_, h.furthestPlaced, ?_⟩,
        fun hs => iff_of_true ?_ trivial⟩
      all_goals simp only [TrackedParseContext.rewind, hrecording, if_true,
        FailureHistoryRecorder.rewind, PathHistory.rewind, Snapshots]
      · exact hsize
      · exact (List.prefix_iff_eq_take.mp
          (hbegins.trans (h.leaves ▸ List.take_prefix _ _))).symm
      · exact h.furthest
      · exact h.furthestCount
      · exact h.furthestBound
      · exact ⟨List.prefix_refl _, hsize, hrecording, hplaced, hrest⟩
      · exact hs

end Tracks

/-- In a state that keeps the account, the snapshot is coherent exactly when the buffer still
holds the furthest path. -/
theorem coherent_iff {s : HistoryState} (h : Tracks s) : s.Coherent ↔ s.Snapshots := by
  constructor
  · intro hcoherent
    rw [Snapshots, ← snapshot_failureLeafHistory _ 0]
    exact (hcoherent 0).1
  · intro hs maxCursorOffset
    simp only [snapshot_failureLeafHistory]
    rw [Snapshots] at hs
    rw [hs, h.furthest]
    exact ⟨rfl, h.furthestPlaced.ordered, fun leaf hmem => (h.furthestPlaced.bounded leaf hmem).2⟩

end HistoryState

open HistoryState

theorem tracks_of_run {s t : HistoryState} {es : List HistoryEvent} (h : Tracks s)
    (hrun : historyMachine.run s es = some t) : Tracks t :=
  (Machine.reaches_of_run hrun (Machine.allowedRun_any s es)).invariant h
    fun _ _ _ hs _ hstep => (hs.step hstep).1

/-- **The snapshot is coherent all along a run exactly when no event of it is unsafe.** -/
theorem snapshot_coherent_iff (es : List HistoryEvent) (t : HistoryState)
    (hrun : historyMachine.run .initial es = some t) :
    (∀ es₁ s₁, es₁ <+: es → historyMachine.run .initial es₁ = some s₁ → s₁.Coherent) ↔
      historyMachine.AllowedRun Safe .initial es := by
  have hsnapshots : (∀ es₁ s₁, es₁ <+: es → historyMachine.run .initial es₁ = some s₁ →
      s₁.Snapshots) ↔ historyMachine.AllowedRun Safe .initial es := by
    refine Machine.prefixes_iff_allowedRun (fun s e s' htracks hs hstep => ?_) tracks_initial rfl
      hrun
    obtain ⟨htracks', hiff⟩ := htracks.step hstep
    exact ⟨htracks', hiff hs⟩
  rw [← hsnapshots]
  constructor
  · intro h es₁ s₁ hes hs
    exact (coherent_iff (tracks_of_run tracks_initial hs)).mp (h es₁ s₁ hes hs)
  · intro h es₁ s₁ hes hs
    exact (coherent_iff (tracks_of_run tracks_initial hs)).mpr (h es₁ s₁ hes hs)

/-- A second branch that begins with the leaf of the first one. -/
theorem snapshot_coherent_iff_shared :
    (historyMachine.run .initial [.mark, .leaf 0 1 (.expression 0) false false,
        .leaf 1 3 (.expression 1) false false, .rewind 0,
        .leaf 0 1 (.expression 0) false false]).isSome = true ∧
    ∀ es₁ s₁, es₁ <+: [.mark, .leaf 0 1 (.expression 0) false false,
        .leaf 1 3 (.expression 1) false false, .rewind 0,
        .leaf 0 1 (.expression 0) false false] →
      historyMachine.run .initial es₁ = some s₁ → s₁.Coherent := by
  refine ⟨rfl, (snapshot_coherent_iff _ _ rfl).mpr ⟨trivial, fun s h => ?_⟩⟩
  cases h
  refine ⟨fun _ _ _ hlt => absurd hlt (by decide), fun s h => ?_⟩
  cases h
  refine ⟨fun _ _ _ hlt => absurd hlt (by decide), fun s h => ?_⟩
  cases h
  refine ⟨trivial, fun s h => ?_⟩
  cases h
  exact ⟨fun _ _ _ _ => rfl, fun s h => trivial⟩

/-! ### The parses behind the runs -/

section Parses

variable (Γ : Grammar) (text : List UInt8) (sk : Skipper)

/-- Where a skip goes, as the settings of a context have it. -/
def skipTo (skipped : List (GrammarElement × ℕ × ℕ) × ℕ) : RecoveryOptions where
  skip := fun _ => skipped
  skip_without_builder := fun _ => skipped.2

/-- A strict parse of literals, groups and ordered choices on a tracked context, and its
result.  The depth is that of `interp`. -/
inductive TrackedParse : ℕ → Expr → TrackedParseContext → Bool → TrackedParseContext → Prop
  | literal_match {n id value case_sensitive c stop} :
      literalMatch text value case_sensitive c.cursor = some stop →
      TrackedParse (n + 1) (.literal id value case_sensitive) c true
        (c.leaf c.cursor stop (.expression id) false false)
  | literal_fail {n id value case_sensitive c} :
      literalMatch text value case_sensitive c.cursor = none →
      TrackedParse (n + 1) (.literal id value case_sensitive) c false c
  | group_fail {n e es c c'} : TrackedParse n e c false c' →
      TrackedParse (n + 1) (.group (e :: es)) c false c'
  | group_end {n e c c'} : TrackedParse n e c true c' → TrackedParse (n + 1) (.group [e]) c true c'
  | group_next {n e e' es c c' skipped c'' result} : TrackedParse n e c true c' →
      skipFrom text (interp Γ text n).terminal sk c'.cursor = some skipped →
      TrackedParse (n + 1) (.group (e' :: es)) (c'.skip (skipTo skipped)) result c'' →
      TrackedParse (n + 1) (.group (e :: e' :: es)) c result c''
  | choice_none {n c} : TrackedParse (n + 1) (.orderedChoice []) c false c
  | choice_match {n e es c c'} : TrackedParse n e c true c' →
      TrackedParse (n + 1) (.orderedChoice (e :: es)) c true c'
  /-- a failed branch is undone unless it undoes itself -/
  | choice_next {n e es c c' c'' result} : TrackedParse n e c false c' →
      TrackedParse (n + 1) (.orderedChoice es) (if e.isFailureSafe then c' else c'.rewind c.mark)
        result c'' →
      TrackedParse (n + 1) (.orderedChoice (e :: es)) c result c''

variable {Γ text sk}

/-- **Without the tracking it is the strict parse.** -/
theorem TrackedParse.parse {n : ℕ} {e : Expr} {c c' : TrackedParseContext} {result : Bool}
    (h : TrackedParse Γ text sk n e c result c') :
    (interp Γ text n).parse true sk e c.toParseContext = some (result, c'.toParseContext) := by
  induction h with
  | literal_match hmatch =>
    simp only [interp, Interp.step, Interp.parseStep, hmatch, parseLeaf]
    rfl
  | literal_fail hmatch => simp only [interp, Interp.step, Interp.parseStep, hmatch, parseLeaf]
  | group_fail _ ih =>
    simp only [interp, Interp.step, Interp.parseStep, Interp.parseGroup, ih, andThen]
  | group_end _ ih =>
    simp only [interp, Interp.step, Interp.parseStep, Interp.parseGroup, ih, andThen,
      Interp.parseElements]
  | group_next _ hskip _ ih ih' =>
    simp only [interp, Interp.step, Interp.parseStep, Interp.parseGroup, ih, andThen,
      Interp.parseElements, Interp.skip, ParseContext.skip, hskip] at ih' ⊢
    exact ih'
  | choice_none => rfl
  | choice_match _ ih =>
    simp only [interp, Interp.step, Interp.parseStep, Interp.anyChoice,
      Interp.attempt_parse_strict, ih, orElse, ite_self]
  | @choice_next n e es c c' c'' result _ _ ih ih' =>
    simp only [interp, Interp.step, Interp.parseStep, Interp.anyChoice,
      Interp.attempt_parse_strict, ih, orElse] at ih' ⊢
    split at ih' <;> simp_all [TrackedParseContext.rewind, TrackedParseContext.mark]

/-- A run from any state with the one context to one with the other, with the marks that were
held before it. -/
def Runs (c c' : TrackedParseContext) : Prop :=
  ∀ s : HistoryState, s.context = c → ∃ es t, historyMachine.run s es = some t ∧
    t.context = c' ∧ t.checkpoints = s.checkpoints

namespace Runs

variable {c c' c'' : TrackedParseContext}

theorem refl : Runs c c := fun s hs => ⟨[], s, rfl, hs, rfl⟩

theorem trans (h : Runs c c') (h' : Runs c' c'') : Runs c c'' := by
  intro s hs
  obtain ⟨es, t, hrun, ht, hmarks⟩ := h s hs
  obtain ⟨es', t', hrun', ht', hmarks'⟩ := h' t ht
  refine ⟨es ++ es', t', ?_, ht', hmarks'.trans hmarks⟩
  rw [Machine.run_append, hrun, Option.bind_some, hrun']

theorem leaf {stop : ℕ} {element : GrammarElement} (hle : c.cursor ≤ stop) :
    Runs c (c.leaf c.cursor stop element false false) := by
  rintro s rfl
  refine ⟨[.leaf s.context.cursor stop element false false],
    { s with
      context := s.context.leaf s.context.cursor stop element false false
      history := s.history.visit s.context.cursor stop element false }, ?_, rfl, rfl⟩
  simp only [Machine.run, historyMachine, historyStep, Nat.le_refl, true_and, if_pos hle,
    Option.bind_some]

theorem skip {skipped : List (GrammarElement × ℕ × ℕ) × ℕ} (hle : c.cursor ≤ skipped.2) :
    Runs c (c.skip (skipTo skipped)) := by
  rintro s rfl
  refine ⟨[.skip (skipTo skipped)],
    { s with
      context := s.context.skip (skipTo skipped)
      history := s.history.reach skipped.2 }, ?_, rfl, rfl⟩
  simp only [Machine.run, historyMachine, historyStep, skipTo, if_pos hle, Option.bind_some]

/-- What is done between a mark and the rewind to it can be undone. -/
theorem undo (h : Runs c c') : Runs c (c'.rewind c.mark) := by
  rintro s rfl
  obtain ⟨es, t, hrun, rfl, hmarks⟩ :=
    h { s with checkpoints := (s.context.mark, s.history.path) :: s.checkpoints } rfl
  refine ⟨.mark :: (es ++ [.rewind 0, .release]), ⟨t.context.rewind s.context.mark,
    t.history.rewind s.history.path, s.checkpoints⟩, ?_, rfl, rfl⟩
  simp only [Machine.run, historyMachine, historyStep, Option.bind_some]
  have happend := Machine.run_append (M := historyMachine)
    { s with checkpoints := (s.context.mark, s.history.path) :: s.checkpoints } es
    [.rewind 0, .release]
  simp only [historyMachine] at happend hrun
  rw [happend, hrun, Option.bind_some]
  simp only [Machine.run, historyStep, List.drop_zero, hmarks, Option.bind_some, List.tail_cons]

end Runs

theorem literalMatch_le {value : List UInt8} {case_sensitive : Bool} {p q : ℕ}
    (h : literalMatch text value case_sensitive p = some q) : p ≤ q := by
  rw [literalMatch, Option.filter_eq_some_iff] at h
  replace h := h.1
  induction value generalizing p with
  | nil => exact Nat.le_of_eq (Option.some.inj h)
  | cons b value ih =>
    simp only [literalTerminal, Option.ite_none_right_eq_some] at h
    exact Nat.le_of_succ_le (ih h.2)

/-- **Such a parse is a run**: it starts anywhere, and releases the marks it takes. -/
theorem TrackedParse.runs (hskip : ∀ n p r, skipFrom text (interp Γ text n).terminal sk p = some r →
      p ≤ r.2) {n : ℕ} {e : Expr} {c c' : TrackedParseContext} {result : Bool}
    (h : TrackedParse Γ text sk n e c result c') : Runs c c' := by
  induction h with
  | literal_match hmatch => exact .leaf (literalMatch_le hmatch)
  | literal_fail _ => exact .refl
  | group_fail _ ih => exact ih
  | group_end _ ih => exact ih
  | group_next _ hskipped _ ih ih' => exact ih.trans ((Runs.skip (hskip _ _ _ hskipped)).trans ih')
  | choice_none => exact .refl
  | choice_match _ ih => exact ih
  | choice_next _ _ ih ih' =>
    refine Runs.trans ?_ ih'
    split
    · exact ih
    · exact ih.undo

end Parses

/-- The branch "+-" "y" writes its leaf over that of "+", and "-*" stays behind it. -/
theorem leaf_overwritten :
    ∃ (es : List HistoryEvent) (t : HistoryState),
      let e := Expr.orderedChoice
        [.group [.literal 0 [43] true, .literal 1 [45, 42] true, .literal 2 [120] true],
          .group [.literal 3 [43, 45] true, .literal 4 [121] true]]
      historyMachine.run .initial es = some t ∧
        TrackedParse (.sample e false) [43, 45, 42, 47] .noop 3 e HistoryState.initial.context false
          t.context ∧
        ¬ t.Coherent := by
  refine ⟨[.mark, .leaf 0 1 (.expression 0) false false, .skip (skipTo ([], 1)),
    .leaf 1 3 (.expression 1) false false, .skip (skipTo ([], 3)), .rewind 0, .release,
    .mark, .leaf 0 2 (.expression 3) false false, .skip (skipTo ([], 2)), .rewind 0, .release], _,
    rfl, ?_, fun h => absurd (h 0).1 (by decide)⟩
  refine .choice_next (.group_next (.literal_match rfl) rfl (.group_next (.literal_match rfl) rfl
    (.group_fail (.literal_fail rfl)))) ?_
  exact .choice_next (.group_next (.literal_match rfl) rfl (.group_fail (.literal_fail rfl)))
    .choice_none

end Pegium
