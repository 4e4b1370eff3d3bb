/-
Pegium/Parser/RecoveryContext.lean

The recovery parse context.

Over the strict context, `TrackedParseContext` keeps the furthest cursor and the
history of visible leaves, and `RecoveryContext` the edits of the attempt, their
budget, the edit window and its replay, and the bridge from a deletion to the
next one over hidden trivia.

What the RAII guards and the driver set around a call (permissions, budgets, the
skipper) does not change during the call and is a parameter of it:
`RecoveryOptions`.  The memo of the last skip without builder and the counters
that bound the descent of rules are left out: no operation modelled here reads
them.  Offsets are unbounded; counters that the source lets wrap are `UInt32`.
-/
import Mathlib.Data.List.ModifyLast
import Pegium.Parser.ParseContext
import Pegium.Parser.TextUtils

namespace Pegium

/-! ### Parameters -/

/-- Category of a syntax diagnostic. -/
inductive ParseDiagnosticKind where
  | inserted
  | deleted
  | replaced
  | incomplete
  | recovered
  | conversionError
  deriving DecidableEq

/-- `default_edit_cost`. -/
def ParseDiagnosticKind.default_edit_cost : ParseDiagnosticKind → UInt32
  | inserted => 1
  | replaced => 2
  | deleted => 4
  | recovered => 8
  | incomplete => 16
  | conversionError => 0

/-- Internal recovery-script entry. -/
structure SyntaxScriptEntry where
  kind : ParseDiagnosticKind
  offset : ℕ
  beginOffset : ℕ
  endOffset : ℕ
  element : Option GrammarElement
  message : String := ""
  deriving DecidableEq

/-- What a context reads besides its own state: the text, and which grammar
elements are literals, with their value and whether they are case sensitive. -/
structure RecoveryInput where
  text : List UInt8
  literal : GrammarElement → Option (List UInt8 × Bool)

/-- The settings of a call. -/
structure RecoveryOptions where
  /-- the hidden leaves from a position, and where they end -/
  skip : ℕ → List (GrammarElement × ℕ × ℕ) × ℕ
  skip_without_builder : ℕ → ℕ
  allowInsert : Bool := true
  allowDelete : Bool := true
  skipAfterDelete : Bool := true
  trackEditState : Bool := true
  maxConsecutiveCodepointDeletes : UInt32 := 8
  stabilityTokenCount : UInt32 := 2
  maxEditsPerAttempt : UInt32 := 4294967295
  maxEditCost : UInt32 := 4294967295
  forbidOutOfWindowFuzzyFold : Bool := false
  allowDestructiveWindowContinuation : Bool := false

/-- `elements_equivalent_for_replay`. -/
def elements_equivalent_for_replay (inp : RecoveryInput) (lhs rhs : Option GrammarElement) : Bool :=
  if lhs == rhs then true
  else
    match lhs.bind inp.literal, rhs.bind inp.literal with
    | some l, some r => l == r
    | _, _ => false

/-- `advanceOneCodepointLossy`. -/
def advanceOneCodepointLossy (text : List UInt8) (p : ℕ) : ℕ :=
  let leadByte := byteAt text p
  if leadByte == 0 then p
  else if leadByte < 0x80 then p + 1
  else
    match utf8_codepoint_length leadByte with
    | 2 => if byteAt text (p + 1) == 0 then p + 1 else p + 2
    | 3 => if byteAt text (p + 1) == 0 || byteAt text (p + 2) == 0 then p + 1 else p + 3
    | 4 =>
      if byteAt text (p + 1) == 0 || byteAt text (p + 2) == 0 || byteAt text (p + 3) == 0
      then p + 1 else p + 4
    | _ => p + 1

/-- `next_codepoint_cursor`. -/
def next_codepoint_cursor (text : List UInt8) (p : ℕ) : ℕ :=
  if byteAt text p < 0x80 then p + 1 else advanceOneCodepointLossy text p

/-! ### The failure history -/

/-- A visible leaf of the history. -/
structure FailureLeaf where
  beginOffset : ℕ
  endOffset : ℕ
  element : GrammarElement
  deriving DecidableEq

/-- The visible leaves on the way to the cursor, and the furthest point. -/
structure FailureHistoryRecorder where
  furthestOffset : ℕ
  currentVisibleLeafCount : ℕ
  furthestVisibleLeafCount : ℕ
  visibleLeaves : List FailureLeaf
  deriving DecidableEq

namespace FailureHistoryRecorder

/-- A cursor at or beyond the furthest point moves it there. -/
def updateFurthest (r : FailureHistoryRecorder) (cursor : ℕ) : FailureHistoryRecorder :=
  if cursor < r.furthestOffset then r
  else
    { r with furthestOffset := cursor, furthestVisibleLeafCount := r.currentVisibleLeafCount }

/-- A visible leaf is recorded behind the leaves on the way to the cursor; a
hidden or empty one is not. -/
def onLeaf (r : FailureHistoryRecorder) (start stop : ℕ) (element : GrammarElement)
    (hidden : Bool) : FailureHistoryRecorder :=
  if hidden || stop ≤ start then r
  else
    let leaf : FailureLeaf := ⟨start, stop, element⟩
    let visibleLeaves :=
      if r.currentVisibleLeafCount < r.visibleLeaves.length then
        r.visibleLeaves.set r.currentVisibleLeafCount leaf
      else r.visibleLeaves ++ [leaf]
    { r with
      visibleLeaves
      currentVisibleLeafCount := r.currentVisibleLeafCount + 1 }.updateFurthest stop

/-- A cursor that moved without a leaf. -/
def onCursor (r : FailureHistoryRecorder) (cursor : ℕ) : FailureHistoryRecorder :=
  r.updateFurthest cursor

/-- Leaves beyond the mark stay in the array and are overwritten later. -/
def rewind (r : FailureHistoryRecorder) (checkpoint : ℕ) : FailureHistoryRecorder :=
  { r with currentVisibleLeafCount := checkpoint }

/-- Raise the leaf count of the furthest point to at least `value`. -/
def bumpFurthestVisibleLeafCount (r : FailureHistoryRecorder) (value : ℕ) :
    FailureHistoryRecorder :=
  { r with furthestVisibleLeafCount := max r.furthestVisibleLeafCount value }

/-- Raise the furthest offset to at least `value`. -/
def bumpFurthestOffset (r : FailureHistoryRecorder) (value : ℕ) : FailureHistoryRecorder :=
  { r with furthestOffset := max r.furthestOffset value }

end FailureHistoryRecorder

/-! ### The context -/

/-- The strict context with failure-history tracking. -/
structure TrackedParseContext extends ParseContext where
  maxCursor : ℕ
  failureRecorder : FailureHistoryRecorder
  recordFailureHistory : Bool
  deriving DecidableEq

/-- A mark of the tracked context. -/
structure TrackedParseContext.Checkpoint where
  parseCheckpoint : ParseContext.Checkpoint
  failureHistorySize : ℕ
  recordFailureHistory : Bool

/-- The part of the text in which an attempt may edit, and how many tokens it has
to parse behind it. -/
structure EditWindow where
  beginOffset : ℕ := 0
  editFloorOffset : ℕ := 0
  maxCursorOffset : ℕ := 0
  forwardTokenCount : UInt32 := 0
  replayForwardTokenCount : UInt32 := 1
  deriving DecidableEq

/-- What the edits of the attempt have cost. -/
structure EditBudgetState where
  consecutiveDeletes : UInt32 := 0
  editCost : UInt32 := 0
  editCount : UInt32 := 0
  hadEdits : Bool := false
  allowBudgetOverflowEdits : Bool := false
  deriving DecidableEq

/-- Where the attempt is: before its window, in it, or parsing strictly behind it. -/
structure WindowReplayState where
  activeWindowEditCostBase : UInt32 := 0
  activeWindowEditCountBase : UInt32 := 0
  currentForwardVisibleLeafCount : UInt32 := 0
  strictVisibleLeafCountAfterRecovery : UInt32 := 0
  completedRecoveryWindows : UInt32 := 0
  inRecoveryPhase : Bool := true
  reachedRecoveryTarget : Bool := false
  stableAfterRecovery : Bool := false
  awaitingStrictStability : Bool := false
  recoveryBookkeepingEnabled : Bool := true
  activeEditWindowCompleted : Bool := false
  deriving DecidableEq

/-- The hidden trivia between the last deletion and the cursor. -/
structure DeleteBridgeState where
  pendingHiddenTriviaStart : Option ℕ := none
  pendingHiddenTriviaEnd : Option ℕ := none
  deriving DecidableEq

/-- What a mark saves and a rewind restores as a whole. -/
structure RecoveryState where
  editBudget : EditBudgetState := {}
  windowReplay : WindowReplayState := {}
  frontierBlocked : Bool := false
  deriving DecidableEq

/-- The context of a recovery attempt. -/
structure RecoveryContext extends TrackedParseContext where
  editFloorOffset : ℕ
  editWindow : Option EditWindow
  recoveryEdits : List SyntaxScriptEntry
  committedRecoveryEdits : List SyntaxScriptEntry
  committedRecoveryEditIndex : ℕ
  committedRecoveryResumeFloor : ℕ
  recoveryState : RecoveryState
  deleteBridge : DeleteBridgeState
  deriving DecidableEq

/-- A mark of the recovery context. -/
structure RecoveryContext.Checkpoint where
  parseCheckpoint : TrackedParseContext.Checkpoint
  recoveryState : RecoveryState
  recoveryEditCount : ℕ
  committedRecoveryEditIndex : ℕ
  editWindowReplayForwardTokenCount : UInt32
  deleteBridge : DeleteBridgeState

namespace TrackedParseContext

/-- The history is marked only while it is recorded. -/
def mark (c : TrackedParseContext) : Checkpoint where
  parseCheckpoint := c.toParseContext.mark
  failureHistorySize :=
    if c.recordFailureHistory then c.failureRecorder.currentVisibleLeafCount else 0
  recordFailureHistory := c.recordFailureHistory

/-- The furthest cursor is not restored, nor the furthest point of the history. -/
def rewind (c : TrackedParseContext) (checkpoint : Checkpoint) : TrackedParseContext where
  toParseContext := c.toParseContext.rewind checkpoint.parseCheckpoint
  maxCursor := c.maxCursor
  failureRecorder :=
    if checkpoint.recordFailureHistory then
      c.failureRecorder.rewind checkpoint.failureHistorySize
    else c.failureRecorder
  recordFailureHistory := checkpoint.recordFailureHistory

/-- The part of `skip` before the recovery bookkeeping. -/
def skip (o : RecoveryOptions) (c : TrackedParseContext) : TrackedParseContext :=
  let (leaves, stop) := o.skip c.cursor
  { c with
    cursor := stop
    builder := ParseContext.hiddenLeaves c.builder leaves
    maxCursor := max c.maxCursor stop
    failureRecorder :=
      if c.recordFailureHistory then c.failureRecorder.onCursor stop else c.failureRecorder }

/-- The part of `leaf` before the recovery bookkeeping.  The overload without a
begin is the one that begins at the cursor. -/
def leaf (c : TrackedParseContext) (start stop : ℕ) (element : GrammarElement)
    (hidden recovered : Bool) : TrackedParseContext :=
  { c with
    cursor := stop
    lastVisibleCursor := if hidden then c.lastVisibleCursor else stop
    builder := c.builder.leaf start stop element hidden recovered
    maxCursor := max c.maxCursor stop
    failureRecorder :=
      if c.recordFailureHistory then c.failureRecorder.onLeaf start stop element hidden
      else c.failureRecorder }

end TrackedParseContext

namespace RecoveryContext

variable (inp : RecoveryInput) (o : RecoveryOptions)

/-- The context at the beginning of a text. -/
def initial : RecoveryContext where
  toParseContext := .initial
  maxCursor := 0
  failureRecorder := ⟨0, 0, 0, []⟩
  recordFailureHistory := true
  editFloorOffset := 0
  editWindow := none
  recoveryEdits := []
  committedRecoveryEdits := []
  committedRecoveryEditIndex := 0
  committedRecoveryResumeFloor := 0
  recoveryState := {}
  deleteBridge := {}

/-- A new window starts the attempt's bookkeeping over. -/
def setEditWindow (c : RecoveryContext) (window : Option EditWindow) : RecoveryContext :=
  { c with
    editWindow := window
    recoveryState.windowReplay :=
      { activeWindowEditCostBase := c.recoveryState.editBudget.editCost
        activeWindowEditCountBase := c.recoveryState.editBudget.editCount
        inRecoveryPhase := false
        recoveryBookkeepingEnabled := window.isSome }
    recordFailureHistory := window.isSome
    editFloorOffset := (window.map EditWindow.editFloorOffset).getD 0
    deleteBridge := {} }

/-- The edits of earlier attempts, which this one replays first. -/
def setCommittedRecoveryPrefix (c : RecoveryContext) (edits : List SyntaxScriptEntry)
    (resumeFloor : ℕ) : RecoveryContext :=
  { c with
    committedRecoveryEdits := edits
    committedRecoveryEditIndex := 0
    committedRecoveryResumeFloor := resumeFloor }

/-! ### Marks -/

/-- The entries are marked by their number. -/
def mark (c : RecoveryContext) : Checkpoint where
  parseCheckpoint := c.toTrackedParseContext.mark
  recoveryState := c.recoveryState
  recoveryEditCount := c.recoveryEdits.length
  committedRecoveryEditIndex := c.committedRecoveryEditIndex
  editWindowReplayForwardTokenCount :=
    (c.editWindow.map EditWindow.replayForwardTokenCount).getD 0
  deleteBridge := c.deleteBridge

/-- Entries recorded after the mark are dropped; those before it are left as they
stand. -/
def rewind (c : RecoveryContext) (checkpoint : Checkpoint) : RecoveryContext :=
  { c with
    toTrackedParseContext := c.toTrackedParseContext.rewind checkpoint.parseCheckpoint
    deleteBridge := checkpoint.deleteBridge
    committedRecoveryEditIndex := checkpoint.committedRecoveryEditIndex
    editWindow := c.editWindow.map fun w =>
      { w with replayForwardTokenCount := checkpoint.editWindowReplayForwardTokenCount }
    recoveryState := checkpoint.recoveryState
    recoveryEdits :=
      if c.recoveryEdits.length ≠ checkpoint.recoveryEditCount then
        c.recoveryEdits.take checkpoint.recoveryEditCount
      else c.recoveryEdits }

/-! ### Queries -/

/-- The window is not completed yet. -/
def hasPendingRecoveryWindows (c : RecoveryContext) : Bool :=
  c.editWindow.isSome && !c.recoveryState.windowReplay.activeEditWindowCompleted

/-- The window, until it is completed. -/
def currentEditWindow (c : RecoveryContext) : Option EditWindow :=
  if c.hasPendingRecoveryWindows then c.editWindow else none

/-- Where the pending window begins, not before the committed edits end. -/
def pendingRecoveryWindowBeginOffset (c : RecoveryContext) : ℕ :=
  match c.currentEditWindow with
  | some w => max w.beginOffset c.committedRecoveryResumeFloor
  | none => 0

/-- Some committed edit is not replayed yet. -/
def hasPendingCommittedRecoveryEdits (c : RecoveryContext) : Bool :=
  c.committedRecoveryEditIndex < c.committedRecoveryEdits.length

/-- The committed edit to replay next. -/
def nextCommittedRecoveryEdit (c : RecoveryContext) : Option SyntaxScriptEntry :=
  c.committedRecoveryEdits[c.committedRecoveryEditIndex]?

/-- Whether edits may go on behind a completed window. -/
def allowsCompletedWindowContinuationRecovery (c : RecoveryContext) : Bool :=
  c.editWindow.isSome && o.allowDestructiveWindowContinuation &&
    c.recoveryState.editBudget.hadEdits &&
    c.recoveryState.windowReplay.activeEditWindowCompleted &&
    !c.hasPendingCommittedRecoveryEdits

/-- The last entry is empty and stands at the cursor. -/
def continues_local_edit_cluster_at_cursor (c : RecoveryContext) : Bool :=
  match c.recoveryEdits.getLast? with
  | none => false
  | some lastEdit => lastEdit.beginOffset == c.cursor && lastEdit.endOffset == c.cursor

/-- Whether an insertion may follow another one at the place where the window was
completed. -/
def allowsCompletedWindowInsertionClusterAtCursor (c : RecoveryContext) : Bool :=
  match c.editWindow with
  | none => false
  | some w =>
    c.recoveryState.editBudget.hadEdits &&
      c.recoveryState.windowReplay.activeEditWindowCompleted &&
      !c.hasPendingCommittedRecoveryEdits &&
      w.editFloorOffset ≤ c.cursor && c.continues_local_edit_cluster_at_cursor

/-- The upper bound of a replacement is inclusive: its end is checked too. -/
def canReplayCommittedEditAtOffset (c : RecoveryContext) (offset : ℕ) : Bool :=
  match c.nextCommittedRecoveryEdit with
  | none => false
  | some entry =>
    match entry.kind with
    | .inserted => entry.beginOffset == offset && entry.endOffset == offset
    | .deleted => offset < entry.endOffset
    | .replaced => entry.beginOffset ≤ offset && offset ≤ entry.endOffset
    | .incomplete | .recovered | .conversionError => false

/-- The next committed edit is this insertion. -/
def matches_committed_insert (c : RecoveryContext) (offset : ℕ) (element : Option GrammarElement)
    (message : String) : Bool :=
  match c.nextCommittedRecoveryEdit with
  | none => false
  | some entry =>
    entry.kind == .inserted && entry.beginOffset == offset && entry.endOffset == offset &&
      elements_equivalent_for_replay inp entry.element element && entry.message == message

/-- The next committed edit, if it deletes the codepoint at the offset. -/
def matching_committed_delete (c : RecoveryContext) (offset : ℕ) : Option SyntaxScriptEntry :=
  c.nextCommittedRecoveryEdit.filter fun entry =>
    entry.kind == .deleted && entry.beginOffset ≤ offset && offset < entry.endOffset

/-- The next committed edit is this replacement. -/
def matches_committed_replace (c : RecoveryContext) (beginOffset endOffset : ℕ)
    (element : Option GrammarElement) : Bool :=
  match c.nextCommittedRecoveryEdit with
  | none => false
  | some entry =>
    entry.kind == .replaced && entry.beginOffset == beginOffset &&
      entry.endOffset == endOffset && elements_equivalent_for_replay inp entry.element element

/-- While committed edits are pending only these may be replayed; then the window
decides. -/
def canEditAtOffset (c : RecoveryContext) (offset : ℕ) : Bool :=
  if c.hasPendingCommittedRecoveryEdits then c.canReplayCommittedEditAtOffset offset
  else
    match c.editWindow with
    | none => c.recoveryState.windowReplay.inRecoveryPhase && c.editFloorOffset ≤ offset
    | some w =>
      if !c.hasPendingRecoveryWindows then
        c.allowsCompletedWindowContinuationRecovery o && w.editFloorOffset ≤ offset
      else w.editFloorOffset ≤ offset

/-- Whether the cursor may be edited. -/
def canEdit (c : RecoveryContext) : Bool := c.canEditAtOffset o c.cursor

/-- Whether the cursor may take an insertion. -/
def canInsert (c : RecoveryContext) : Bool := o.allowInsert && c.canEdit o

/-- A deletion or a replacement at a cursor behind the window that no other edit
brought there. -/
def destructiveEditOutsideActiveWindow (c : RecoveryContext) (windowContinuationHatch : Bool) :
    Bool :=
  match c.currentEditWindow with
  | none => false
  | some w =>
    c.recoveryState.windowReplay.inRecoveryPhase && w.maxCursorOffset < c.cursor &&
      c.recoveryState.editBudget.hadEdits && !o.allowDestructiveWindowContinuation &&
      !c.continues_local_edit_cluster_at_cursor && windowContinuationHatch

/-- A committed deletion at the cursor can be replayed whatever the window says. -/
def canDelete (c : RecoveryContext) : Bool :=
  if inp.text.length ≤ c.cursor then false
  else if (c.matching_committed_delete c.cursor).isSome then true
  else
    o.allowDelete && c.canEdit o &&
      c.recoveryState.editBudget.consecutiveDeletes < o.maxConsecutiveCodepointDeletes &&
      byteAt inp.text c.cursor != 0

/-- `canAffordEdit`, for an edit of the given cost. -/
def canAffordEdit (c : RecoveryContext) (cost : UInt32) : Bool :=
  let { editCount, editCost, allowBudgetOverflowEdits, .. } := c.recoveryState.editBudget
  let replay := c.recoveryState.windowReplay
  if allowBudgetOverflowEdits then true
  else if replay.inRecoveryPhase && c.currentEditWindow.isSome then
    editCount - replay.activeWindowEditCountBase < o.maxEditsPerAttempt &&
      editCost - replay.activeWindowEditCostBase + cost ≤ o.maxEditCost
  else editCount < o.maxEditsPerAttempt && editCost + cost ≤ o.maxEditCost

/-! ### The recovery window -/

/-- `active_window_forward_token_budget`. -/
def forwardTokenBudget (w : EditWindow) : UInt32 :=
  max w.forwardTokenCount w.replayForwardTokenCount

/-- The bookkeeping ends with the last window. -/
def maybeDisableRecoveryBookkeeping (c : RecoveryContext) : RecoveryContext :=
  if c.recoveryState.windowReplay.inRecoveryPhase ||
      c.recoveryState.windowReplay.awaitingStrictStability || c.hasPendingRecoveryWindows then c
  else { c with recoveryState.windowReplay.recoveryBookkeepingEnabled := false }

/-- The cursor has reached the window: edits are allowed from here. -/
def beginActiveRecoveryWindow (c : RecoveryContext) (w : EditWindow) : RecoveryContext :=
  { c with
    recordFailureHistory := true
    recoveryState.windowReplay :=
      { c.recoveryState.windowReplay with
        recoveryBookkeepingEnabled := true
        inRecoveryPhase := true
        activeWindowEditCostBase := c.recoveryState.editBudget.editCost
        activeWindowEditCountBase := c.recoveryState.editBudget.editCount
        currentForwardVisibleLeafCount := 0
        strictVisibleLeafCountAfterRecovery := 0
        reachedRecoveryTarget := false
        stableAfterRecovery := false
        awaitingStrictStability := false }
    editFloorOffset := w.editFloorOffset }

/-- No caller hands a window off to a next one. -/
def completeActiveRecoveryWindow (c : RecoveryContext) (w : EditWindow) (reachedEof : Bool) :
    RecoveryContext :=
  let replay := c.recoveryState.windowReplay
  let reachedRecoveryTarget :=
    reachedEof || forwardTokenBudget w ≤ replay.currentForwardVisibleLeafCount
  { c with
    recoveryState.windowReplay :=
      { replay with
        completedRecoveryWindows := replay.completedRecoveryWindows + 1
        reachedRecoveryTarget
        stableAfterRecovery := reachedEof
        awaitingStrictStability := reachedRecoveryTarget && !reachedEof
        strictVisibleLeafCountAfterRecovery := 0
        currentForwardVisibleLeafCount := 0
        inRecoveryPhase := false
        activeEditWindowCompleted := true } }.maybeDisableRecoveryBookkeeping

/-- The stability wait is over. -/
def becomeStable (c : RecoveryContext) : RecoveryContext :=
  { c with
    recoveryState.windowReplay :=
      { c.recoveryState.windowReplay with
        stableAfterRecovery := true
        awaitingStrictStability := false } }.maybeDisableRecoveryBookkeeping

/-- Count a visible leaf: towards the target of the window while in it, towards
stability behind it. -/
def onVisibleLeaf (c : RecoveryContext) (beginOffset endOffset : ℕ) : RecoveryContext :=
  let replay := c.recoveryState.windowReplay
  if endOffset ≤ beginOffset then c
  else if replay.inRecoveryPhase then
    if !c.recoveryState.editBudget.hadEdits then c
    else if c.currentEditWindow.any (·.maxCursorOffset ≤ beginOffset) then
      { c with
        recoveryState.windowReplay.currentForwardVisibleLeafCount :=
          replay.currentForwardVisibleLeafCount + 1 }
    else c
  else if replay.awaitingStrictStability then
    let c := { c with
      recoveryState.windowReplay.strictVisibleLeafCountAfterRecovery :=
        replay.strictVisibleLeafCountAfterRecovery + 1 }
    if o.stabilityTokenCount ≤ replay.strictVisibleLeafCountAfterRecovery + 1 then c.becomeStable
    else c
  else c

/-- The loop of `refreshRecoveryPhase` outside the recovery phase: it returns. -/
def refreshOutside (c : RecoveryContext) (w : EditWindow) : RecoveryContext :=
  if c.recoveryState.windowReplay.activeEditWindowCompleted then c
  else if c.hasPendingCommittedRecoveryEdits || c.cursor < c.pendingRecoveryWindowBeginOffset then c
  else c.beginActiveRecoveryWindow w

/-- The loop of `refreshRecoveryPhase`: each way round it leaves the recovery
phase, so it goes round at most once. -/
def refreshLoop (c : RecoveryContext) (w : EditWindow) : RecoveryContext :=
  let replay := c.recoveryState.windowReplay
  if replay.inRecoveryPhase then
    if replay.activeEditWindowCompleted then
      { c with recoveryState.windowReplay.inRecoveryPhase := false }.refreshOutside w
    else if forwardTokenBudget w ≤ replay.currentForwardVisibleLeafCount then
      (c.completeActiveRecoveryWindow w false).refreshOutside w
    else c
  else c.refreshOutside w

/-- Enter or leave the window as the cursor and the counters ask. -/
def refreshRecoveryPhase (c : RecoveryContext) : RecoveryContext :=
  if !c.recoveryState.windowReplay.recoveryBookkeepingEnabled then c
  else
    let c :=
      if c.recoveryState.windowReplay.awaitingStrictStability && c.cursor == inp.text.length then
        c.becomeStable
      else c
    match c.editWindow with
    | none => c
    | some w => c.refreshLoop w

/-- The choices may go on at the frontier. -/
def clearFrontierBlock (c : RecoveryContext) : RecoveryContext :=
  { c with recoveryState.frontierBlocked := false }

/-- Nothing is tried behind the frontier. -/
def blockFrontier (c : RecoveryContext) : RecoveryContext :=
  { c with recoveryState.frontierBlocked := true }

/-- Edits are no longer bounded by the budget. -/
def allowBudgetOverflowEdits (c : RecoveryContext) : RecoveryContext :=
  { c with recoveryState.editBudget.allowBudgetOverflowEdits := true }

/-- Put the furthest cursor back. -/
def restoreMaxCursor (c : RecoveryContext) (cursor : ℕ) : RecoveryContext :=
  { c with maxCursor := cursor }

/-- Raise the furthest cursor to at least `cursor`. -/
def bumpMaxCursor (c : RecoveryContext) (cursor : ℕ) : RecoveryContext :=
  { c with maxCursor := max c.maxCursor cursor }

/-- Raise the leaf count of the furthest point of the history. -/
def bumpFurthestFailureHistorySize (c : RecoveryContext) (value : ℕ) : RecoveryContext :=
  { c with failureRecorder := c.failureRecorder.bumpFurthestVisibleLeafCount value }

/-- Raise the furthest offset of the history. -/
def bumpFurthestFailureOffset (c : RecoveryContext) (value : ℕ) : RecoveryContext :=
  { c with failureRecorder := c.failureRecorder.bumpFurthestOffset value }

/-- At the end of the text an active window is complete and strict parsing stable. -/
def finalizeRecoveryAtEof (c : RecoveryContext) : RecoveryContext :=
  if c.cursor ≠ inp.text.length then c
  else
    match c.recoveryState.windowReplay.inRecoveryPhase, c.currentEditWindow with
    | true, some w => c.completeActiveRecoveryWindow w true
    | _, _ =>
      if c.recoveryState.windowReplay.awaitingStrictStability then c.becomeStable else c

/-- An edit asks for more tokens before the window is complete. -/
def noteReplayForwardRequirementForCurrentWindow (c : RecoveryContext)
    (editKind : ParseDiagnosticKind) : RecoveryContext :=
  if !c.recoveryState.windowReplay.inRecoveryPhase then c
  else
    match c.currentEditWindow with
    | none => c
    | some w =>
      let replayExtensionBase :=
        if editKind = .inserted then o.stabilityTokenCount else w.forwardTokenCount
      let extended := c.recoveryState.windowReplay.currentForwardVisibleLeafCount.toNat +
        replayExtensionBase.toNat
      let next := UInt32.ofNat (min extended 4294967295)
      if next ≤ w.replayForwardTokenCount then c
      else { c with editWindow := some { w with replayForwardTokenCount := next } }

/-! ### The bridge of a deletion -/

/-- Forget the bridge. -/
def clearPendingDeleteHiddenTriviaBridge (c : RecoveryContext) : RecoveryContext :=
  { c with deleteBridge := {} }

/-- Whether the next deletion continues the last entry, a deletion that the
bridge ties to the cursor.  A bridge that does not fit is cleared. -/
def pendingHiddenTriviaDeleteEdit (c : RecoveryContext) : RecoveryContext × Bool :=
  match c.deleteBridge with
  | ⟨some start, some stop⟩ =>
    if stop ≠ c.cursor then (c.clearPendingDeleteHiddenTriviaBridge, false)
    else
      match c.recoveryEdits.getLast? with
      | none => (c.clearPendingDeleteHiddenTriviaBridge, false)
      | some lastEdit =>
        if lastEdit.kind ≠ .deleted ∨ lastEdit.endOffset ≠ start then
          (c.clearPendingDeleteHiddenTriviaBridge, false)
        else (c, true)
  | _ => (c, false)

/-- The next committed edit is replayed. -/
def consumeCommittedRecoveryEdit (c : RecoveryContext) : RecoveryContext :=
  if c.hasPendingCommittedRecoveryEdits then
    { c with committedRecoveryEditIndex := c.committedRecoveryEditIndex + 1 }
  else c

/-- A committed deletion is replayed once the cursor is past its end. -/
def advanceCommittedDeleteReplay (c : RecoveryContext) : RecoveryContext :=
  match c.nextCommittedRecoveryEdit with
  | none => c
  | some entry =>
    if entry.kind ≠ .deleted then c
    else if entry.endOffset ≤ c.cursor then c.consumeCommittedRecoveryEdit
    else c

/-! ### Operations of the parser -/

/-- Skip hidden text, and record its leaves. -/
def skip (c : RecoveryContext) : RecoveryContext :=
  { c with toTrackedParseContext := c.toTrackedParseContext.skip o }
    |>.clearPendingDeleteHiddenTriviaBridge |>.refreshRecoveryPhase inp

/-- The bookkeeping after a leaf: the bridge and the run of deletions end. -/
def afterTrackedLeaf (c : RecoveryContext) (beginOffset endOffset : ℕ) (hidden : Bool) :
    RecoveryContext :=
  let c := c.clearPendingDeleteHiddenTriviaBridge
  let c :=
    if c.recoveryState.windowReplay.recoveryBookkeepingEnabled && !hidden &&
        beginOffset < endOffset then
      c.onVisibleLeaf o beginOffset endOffset
    else c
  let c := c.refreshRecoveryPhase inp
  if o.trackEditState && c.recoveryState.editBudget.consecutiveDeletes != 0 then
    { c with recoveryState.editBudget.consecutiveDeletes := 0 }
  else c

/-- A leaf that begins at a given offset. -/
def leafFrom (c : RecoveryContext) (start stop : ℕ) (element : GrammarElement)
    (hidden recovered : Bool) : RecoveryContext :=
  { c with
    toTrackedParseContext :=
      c.toTrackedParseContext.leaf start stop element hidden recovered }.afterTrackedLeaf
    inp o start stop hidden

/-- A leaf that begins at the cursor. -/
def leaf (c : RecoveryContext) (stop : ℕ) (element : GrammarElement) (hidden recovered : Bool) :
    RecoveryContext :=
  c.leafFrom inp o c.cursor stop element hidden recovered

/-- Open a node. -/
def enter (c : RecoveryContext) : RecoveryContext :=
  { c with toParseContext := c.toParseContext.enter }

/-- Close the node opened at the checkpoint; the run of deletions ends. -/
def exit (c : RecoveryContext) (checkpoint : ℕ) (element : GrammarElement) : RecoveryContext :=
  let c := { c with toParseContext := c.toParseContext.exit checkpoint element }
  if o.trackEditState && c.recoveryState.editBudget.consecutiveDeletes != 0 then
    { c with recoveryState.editBudget.consecutiveDeletes := 0 }
  else c

/-- Let another grammar element stand for a node. -/
def override_grammar_element (c : RecoveryContext) (id : ℕ) (element : GrammarElement) :
    RecoveryContext :=
  { c with toParseContext := c.toParseContext.override_grammar_element id element }

/-- `apply_non_delete_edit_state`. -/
def applyNonDeleteEditState (c : RecoveryContext) (cost : UInt32) : RecoveryContext :=
  { c with
    recoveryState.editBudget :=
      { c.recoveryState.editBudget with
        editCost := c.recoveryState.editBudget.editCost + cost
        editCount := c.recoveryState.editBudget.editCount + 1
        hadEdits := true
        consecutiveDeletes := 0 } }

/-- `apply_delete_edit_state`: a run of deletions counts as one edit. -/
def applyDeleteEditState (c : RecoveryContext) (cost : UInt32) : RecoveryContext :=
  let budget := c.recoveryState.editBudget
  { c with
    recoveryState.editBudget :=
      { budget with
        editCost := budget.editCost + cost
        editCount :=
          if budget.consecutiveDeletes == 0 then budget.editCount + 1 else budget.editCount
        hadEdits := true
        consecutiveDeletes := budget.consecutiveDeletes + 1 } }

/-- Record an insertion and note what its replay needs. -/
def recordInsert (c : RecoveryContext) (entry : SyntaxScriptEntry)
    (replayingCommittedInsert : Bool) : RecoveryContext :=
  let c := { c with recoveryEdits := c.recoveryEdits ++ [entry] }.applyNonDeleteEditState
    ParseDiagnosticKind.inserted.default_edit_cost
  let c := if replayingCommittedInsert then c.consumeCommittedRecoveryEdit else c
  c.noteReplayForwardRequirementForCurrentWindow o .inserted

/-- Insert a missing element at the cursor. -/
def insertSynthetic (c : RecoveryContext) (element : Option GrammarElement) :
    RecoveryContext × Bool :=
  if !o.trackEditState then (c, false)
  else
    let replayingCommittedInsert := c.matches_committed_insert inp c.cursor element ""
    if c.hasPendingCommittedRecoveryEdits && !replayingCommittedInsert then (c, false)
    else
      let c := c.clearPendingDeleteHiddenTriviaBridge
      let canInsertAtCursor :=
        c.canInsert o || (o.allowInsert && c.allowsCompletedWindowInsertionClusterAtCursor)
      if !canInsertAtCursor ||
          !c.canAffordEdit o ParseDiagnosticKind.inserted.default_edit_cost then (c, false)
      else
        (c.recordInsert o ⟨.inserted, c.cursor, c.cursor, c.cursor, element, ""⟩
          replayingCommittedInsert, true)

/-- A null message is the empty one. -/
def insertSyntheticGapAt (c : RecoveryContext) (position : ℕ) (message : String) :
    RecoveryContext × Bool :=
  if !o.trackEditState || inp.text.length < position then (c, false)
  else
    let replayingCommittedInsert := c.matches_committed_insert inp position none message
    if c.hasPendingCommittedRecoveryEdits && !replayingCommittedInsert then (c, false)
    else
      let c := c.clearPendingDeleteHiddenTriviaBridge
      if !(o.allowInsert && c.canEditAtOffset o position) ||
          !c.canAffordEdit o ParseDiagnosticKind.inserted.default_edit_cost then (c, false)
      else
        (c.recordInsert o ⟨.inserted, position, position, position, none, message⟩
          replayingCommittedInsert, true)

/-- The guard of `deleteOneCodepoint`, after the committed edits had their say. -/
def admitsDelete (c : RecoveryContext) : Bool :=
  c.canDelete inp o &&
    !c.destructiveEditOutsideActiveWindow o
      (c.recoveryState.editBudget.consecutiveDeletes == 0) &&
    c.canAffordEdit o ParseDiagnosticKind.deleted.default_edit_cost

/-- A deletion up to `deletedEnd`: a bridged one moves the end of the last entry,
another one adds an entry. -/
def recordDelete (c : RecoveryContext) (merged : Bool) (deletedEnd : ℕ) : RecoveryContext :=
  if merged then
    { c with
      recoveryEdits := c.recoveryEdits.modifyLast ({ · with endOffset := deletedEnd })
      deleteBridge := {} }
  else
    { c with
      recoveryEdits := c.recoveryEdits ++ [⟨.deleted, c.cursor, c.cursor, deletedEnd, none, ""⟩] }

/-- Go past a recorded deletion. -/
def passDeleted (c : RecoveryContext) (deletedEnd : ℕ) (replaying : Bool) : RecoveryContext :=
  let c := { c with cursor := deletedEnd, maxCursor := max c.maxCursor deletedEnd }
  let c := if o.skipAfterDelete then c.skip inp o else c.refreshRecoveryPhase inp
  if replaying then c.advanceCommittedDeleteReplay else c

/-- Delete the codepoint at the cursor. -/
def deleteOneCodepoint (c : RecoveryContext) : RecoveryContext × Bool :=
  if !o.trackEditState then (c, false)
  else if inp.text.length ≤ c.cursor then (c.clearPendingDeleteHiddenTriviaBridge, false)
  else
    let committedDelete := c.matching_committed_delete c.cursor
    if c.hasPendingCommittedRecoveryEdits && committedDelete.isNone then
      (c.clearPendingDeleteHiddenTriviaBridge, false)
    else
      let (c, merged) := c.pendingHiddenTriviaDeleteEdit
      if !c.admitsDelete inp o then (c.clearPendingDeleteHiddenTriviaBridge, false)
      else
        let deletedEnd := next_codepoint_cursor inp.text c.cursor
        if deletedEnd ≤ c.cursor then (c.clearPendingDeleteHiddenTriviaBridge, false)
        else
          let c := (c.recordDelete merged deletedEnd).applyDeleteEditState
            ParseDiagnosticKind.deleted.default_edit_cost
          let c := c.noteReplayForwardRequirementForCurrentWindow o .deleted
          (c.passDeleted inp o deletedEnd committedDelete.isSome, true)

/-- Go over the hidden text behind the last deletion, so that the next one can
continue it. -/
def extendLastDeleteThroughHiddenTrivia (c : RecoveryContext) : RecoveryContext × Bool :=
  if !o.trackEditState || c.recoveryEdits.isEmpty || inp.text.length ≤ c.cursor then (c, false)
  else
    let committedDelete := c.matching_committed_delete c.cursor
    if c.hasPendingCommittedRecoveryEdits && committedDelete.isNone then (c, false)
    else
      let c := c.clearPendingDeleteHiddenTriviaBridge
      if c.recoveryEdits.getLast?.any fun lastEdit =>
          lastEdit.kind != .deleted || lastEdit.endOffset != c.cursor then (c, false)
      else
        let hiddenEnd := o.skip_without_builder c.cursor
        if hiddenEnd ≤ c.cursor || committedDelete.any (·.endOffset < hiddenEnd) ||
            inp.text.length ≤ hiddenEnd then (c, false)
        else
          let c := { c with
            deleteBridge := ⟨some c.cursor, some hiddenEnd⟩
            cursor := hiddenEnd
            maxCursor := max c.maxCursor hiddenEnd }.refreshRecoveryPhase inp
          (if committedDelete.isSome then c.advanceCommittedDeleteReplay else c, true)

/-- A single fuzzy edit of a keyword of at least three codepoints may go past the
window. -/
def singleEditFuzzyKeywordReplace (c : RecoveryContext) (stop : ℕ) (element : GrammarElement)
    (fuzzyOperationDistance : UInt32) : Bool :=
  !o.forbidOutOfWindowFuzzyFold && (inp.literal element).any (3 ≤ ·.1.length) &&
    fuzzyOperationDistance == 1 && c.cursor < stop

/-- Take the text up to `stop` for a leaf that does not match it. -/
def replaceLeaf (c : RecoveryContext) (stop : ℕ) (element : GrammarElement)
    (replacementCost : UInt32) (hidden : Bool) (fuzzyOperationDistance : UInt32) :
    RecoveryContext × Bool :=
  if !o.trackEditState then (c, false)
  else
    let c := c.clearPendingDeleteHiddenTriviaBridge
    if stop ≤ c.cursor || inp.text.length < stop then (c, false)
    else
      let replayingCommittedReplace := c.matches_committed_replace inp c.cursor stop element
      if c.hasPendingCommittedRecoveryEdits && !replayingCommittedReplace then (c, false)
      else if !c.canEdit o ||
          c.destructiveEditOutsideActiveWindow o
            (!c.singleEditFuzzyKeywordReplace inp o stop element fuzzyOperationDistance) ||
          !c.canEditAtOffset o stop || !c.canAffordEdit o replacementCost then (c, false)
      else
        let entry : SyntaxScriptEntry := ⟨.replaced, c.cursor, c.cursor, stop, element, ""⟩
        let c := { c with recoveryEdits := c.recoveryEdits ++ [entry] }.applyNonDeleteEditState
          replacementCost
        let c := if replayingCommittedReplace then c.consumeCommittedRecoveryEdit else c
        let c := c.noteReplayForwardRequirementForCurrentWindow o .replaced
        (c.leaf inp o stop element hidden true, true)

end RecoveryContext

end Pegium
