/-
Pegium/Parser/RecoverySearch.lean

The recovery search: which windows are tried, and which attempts are kept.

After a strict failure the search plans a window around the failure, runs
attempts in it, and keeps the attempt that passes `consider_window_attempt_candidate`.
What a kept attempt commits is replayed by the later ones; the search goes on from
the failure of the kept attempt until there is none, no attempt is kept, the
window does not move, or the budget of attempts is spent.

One attempt, `execute_recovery_parse`, is a parameter of the search: a function of
the options and of the specification of the attempt.  The choice cache only saves
work there; its counters, and those of the step trace, are left out.
Offsets and counts are natural numbers; costs are added up and wrap.
-/
import Pegium.Parser.RecoveryContext
import Pegium.SyntaxTree.CstNode

namespace Pegium

/-! ### Options, snapshots and windows -/

/-- The options of a parse that the search or an attempt reads. -/
structure ParseOptions where
  maxConsecutiveCodepointDeletes : ℕ := 8
  recoveryWindowTokenCount : ℕ := 16
  maxRecoveryWindowTokenCount : ℕ := 64
  maxRecoveryAttempts : ℕ := 64
  maxRecoveryEditsPerAttempt : ℕ := 64
  maxRecoveryEditCost : UInt32 := 256
  maxTotalRecoveryAttemptRuns : ℕ := 1024
  maxRecoveryRuleEntries : ℕ := 12000
  recoveryStabilityTokenCount : ℕ := 2
  maxResyncSkipCodepoints : ℕ := 4096
  recoveryEnabled : Bool := true
  deriving DecidableEq

/-- Where a parse derailed: the visible leaves on the way, and which of them the failure
is at. -/
structure FailureSnapshot where
  maxCursorOffset : ℕ
  failureLeafHistory : List FailureLeaf
  failureTokenIndex : ℕ
  hasFailureToken : Bool
  inHistory : hasFailureToken = true → failureTokenIndex < failureLeafHistory.length
  deriving DecidableEq

/-- A stretch of the text to recover in, with what was parsed before it. -/
structure RecoveryWindow where
  beginOffset : ℕ := 0
  editFloorOffset : ℕ := 0
  maxCursorOffset : ℕ := 0
  tokenCount : ℕ := 0
  forwardTokenCount : ℕ := 0
  visibleLeafBeginIndex : ℕ := 0
  stablePrefixOffset : ℕ := 0
  hasStablePrefix : Bool := false
  deriving DecidableEq

/-- `compute_recovery_window`. -/
def compute_recovery_window (snapshot : FailureSnapshot)
    (backwardTokenCount forwardTokenCount stablePrefixFloorOffset : ℕ) : RecoveryWindow :=
  let effectiveMaxCursorOffset :=
    match snapshot.failureLeafHistory.getLast? with
    | none => snapshot.maxCursorOffset
    | some leaf => max snapshot.maxCursorOffset leaf.endOffset
  let window : RecoveryWindow :=
    { beginOffset := effectiveMaxCursorOffset
      editFloorOffset := effectiveMaxCursorOffset
      maxCursorOffset := effectiveMaxCursorOffset
      tokenCount := backwardTokenCount
      forwardTokenCount := forwardTokenCount }
  if h : backwardTokenCount ≠ 0 ∧ snapshot.hasFailureToken = true then
    let beginIndex := snapshot.failureTokenIndex - backwardTokenCount
    have inHistory : beginIndex < snapshot.failureLeafHistory.length :=
      Nat.lt_of_le_of_lt (Nat.sub_le _ _) (snapshot.inHistory h.2)
    let clampedStablePrefixFloorOffset := min stablePrefixFloorOffset effectiveMaxCursorOffset
    let activationBeginOffset := snapshot.failureLeafHistory[beginIndex].beginOffset
    let replayBeginOffset :=
      if clampedStablePrefixFloorOffset = 0 then activationBeginOffset
      else min activationBeginOffset clampedStablePrefixFloorOffset
    { window with
      visibleLeafBeginIndex :=
        if replayBeginOffset < activationBeginOffset then
          ((snapshot.failureLeafHistory.take beginIndex).findIdx?
            fun leaf => replayBeginOffset < leaf.endOffset).getD beginIndex
        else beginIndex
      beginOffset := replayBeginOffset
      editFloorOffset := max activationBeginOffset clampedStablePrefixFloorOffset }
  else window

/-! ### Attempts -/

/-- How far an attempt is worth choosing. -/
inductive RecoveryAttemptStatus where
  | StrictFailure
  | RecoveredButNotCredible
  | Selectable
  deriving DecidableEq

/-- Which greedy shortcuts a sibling probe does without. -/
structure RecoveryProbeAxes where
  forbidWholeKeywordFuzzyReplace : Bool := false
  forbidOutOfWindowFuzzyFold : Bool := false
  deriving DecidableEq

/-- What an attempt is to do: its window, the edits it replays and its axes. -/
structure RecoveryAttemptSpec where
  window : RecoveryWindow := {}
  committedRecoveryEdits : List SyntaxScriptEntry := []
  committedRecoveryResumeFloor : ℕ := 0
  probeAxes : RecoveryProbeAxes := {}
  deriving DecidableEq

/-- What the edits of an attempt say about it. -/
structure AttemptFacts where
  lastEditOffset : ℕ := 0
  continuesAfterFirstEdit : Bool := false
  hasEdits : Bool := false
  hasDeleteOnlyRecovery : Bool := false
  hasCursorProgressPastLastEdit : Bool := false
  preservesStablePrefixBeforeFirstEdit : Bool := false
  hasEditPastReplayWindowHorizon : Bool := false
  deriving DecidableEq

/-- The outcome of an attempt. -/
structure RecoveryAttempt where
  cst : RootCstNode GrammarElement
  recoveryEdits : List SyntaxScriptEntry := []
  replayWindow : Option RecoveryWindow := none
  failureSnapshot : Option FailureSnapshot := none
  parsedLength : ℕ := 0
  lastVisibleCursorOffset : ℕ := 0
  maxCursorOffset : ℕ := 0
  stablePrefixOffset : ℕ := 0
  configuredMaxEditCost : UInt32 := 0
  editCost : UInt32 := 0
  editCount : UInt32 := 0
  completedRecoveryWindows : UInt32 := 0
  entryRuleMatched : Bool := false
  fullMatch : Bool := false
  reachedRecoveryTarget : Bool := false
  stableAfterRecovery : Bool := false
  hasStablePrefix : Bool := false
  status : RecoveryAttemptStatus := .StrictFailure
  facts : AttemptFacts := {}
  deriving DecidableEq

/-- `is_destructive_edit_kind`. -/
def is_destructive_edit_kind (kind : ParseDiagnosticKind) : Bool :=
  kind == .deleted || kind == .replaced

/-- The extent of the edits behind the first ones, and whether they delete. -/
structure EditSliceSummary where
  firstEditBeginOffset : ℕ := 0
  maxEndOffset : ℕ := 0
  hasDestructiveEdit : Bool := false
  allDeleted : Bool := false

/-- `summarize_edits_since`. -/
def summarize_edits_since (edits : List SyntaxScriptEntry) (baseEditCount : ℕ) :
    EditSliceSummary :=
  match edits.drop baseEditCount with
  | [] => {}
  | first :: rest =>
    { firstEditBeginOffset := first.beginOffset
      maxEndOffset := (first :: rest).foldl (fun offset edit => max offset edit.endOffset) 0
      hasDestructiveEdit := (first :: rest).any fun edit => is_destructive_edit_kind edit.kind
      allDeleted := (first :: rest).all fun edit => edit.kind == .deleted }

/-- `derive_attempt_facts`. -/
def derive_attempt_facts (attempt : RecoveryAttempt) : AttemptFacts :=
  if attempt.recoveryEdits.isEmpty then {}
  else
    let editSummary := summarize_edits_since attempt.recoveryEdits 0
    let lastEditOffset := editSummary.maxEndOffset
    { hasEdits := true
      lastEditOffset
      hasDeleteOnlyRecovery := editSummary.allDeleted
      continuesAfterFirstEdit := lastEditOffset < attempt.parsedLength
      hasCursorProgressPastLastEdit := lastEditOffset < attempt.maxCursorOffset
      preservesStablePrefixBeforeFirstEdit :=
        attempt.hasStablePrefix && attempt.stablePrefixOffset ≤ editSummary.firstEditBeginOffset
      hasEditPastReplayWindowHorizon :=
        match attempt.replayWindow with
        | some window => window.maxCursorOffset < lastEditOffset
        | none => false }

/-- The status that `classify_recovery_attempt` gives. -/
def attempt_status (attempt : RecoveryAttempt) (facts : AttemptFacts) : RecoveryAttemptStatus :=
  let singleInsert :=
    match attempt.recoveryEdits with
    | [edit] => edit.kind == .inserted
    | _ => false
  let allowsLocalGapRecoveryWithoutStablePrefix :=
    !attempt.hasStablePrefix && !attempt.stableAfterRecovery && attempt.reachedRecoveryTarget &&
      singleInsert
  let deleteOnlyWithoutContinuation :=
    facts.hasDeleteOnlyRecovery && !facts.continuesAfterFirstEdit
  if !attempt.entryRuleMatched then .StrictFailure
  else if attempt.configuredMaxEditCost < attempt.editCost && !attempt.fullMatch &&
      !facts.preservesStablePrefixBeforeFirstEdit && !allowsLocalGapRecoveryWithoutStablePrefix then
    if facts.hasEdits then .RecoveredButNotCredible else .StrictFailure
  else if attempt.fullMatch || attempt.stableAfterRecovery then
    if !attempt.fullMatch && facts.hasEditPastReplayWindowHorizon then .RecoveredButNotCredible
    else if deleteOnlyWithoutContinuation then .RecoveredButNotCredible
    else .Selectable
  else if attempt.reachedRecoveryTarget && facts.continuesAfterFirstEdit then .Selectable
  else if facts.hasEdits then .RecoveredButNotCredible
  else .StrictFailure

/-- `classify_recovery_attempt`. -/
def classify_recovery_attempt (attempt : RecoveryAttempt) : RecoveryAttempt :=
  let facts := derive_attempt_facts attempt
  { attempt with facts, status := attempt_status attempt facts }

/-- The attempt may be chosen. -/
def is_selectable_recovery_attempt (attempt : RecoveryAttempt) : Bool :=
  attempt.status == .Selectable

/-! ### Ranking -/

/-- What attempts are compared by. -/
structure RecoveryKey where
  fullMatch : Bool := false
  matched : Bool := false
  firstEditOffset : ℕ
  editCost : UInt32 := 0
  editCount : UInt32 := 0
  progressAfterEdits : ℕ := 0
  deriving DecidableEq

/-- The tax on an edit, and how much cost moves the first edit back by one byte. -/
def kFirstEditPenaltyStep : UInt32 := 4

/-- `faithfulness`: the edit cost with a tax on each operation. -/
def faithfulness (key : RecoveryKey) : UInt32 :=
  key.editCost + kFirstEditPenaltyStep * key.editCount

/-- `recovery_key_first_edit_score`. -/
def recovery_key_first_edit_score (key : RecoveryKey) : ℕ :=
  key.firstEditOffset -
    (key.editCost.toNat - kFirstEditPenaltyStep.toNat) / kFirstEditPenaltyStep.toNat

/-- `is_better_recovery_key`. -/
def is_better_recovery_key (lhs rhs : RecoveryKey) : Bool :=
  if lhs.fullMatch != rhs.fullMatch then lhs.fullMatch
  else if lhs.matched != rhs.matched then lhs.matched
  else if recovery_key_first_edit_score lhs != recovery_key_first_edit_score rhs then
    recovery_key_first_edit_score rhs < recovery_key_first_edit_score lhs
  else if faithfulness lhs != faithfulness rhs then faithfulness lhs < faithfulness rhs
  else rhs.progressAfterEdits < lhs.progressAfterEdits

/-- `effective_first_edit_offset`. -/
def effective_first_edit_offset (hadEdits : Bool) (firstEditOffset progressFallback : ℕ) : ℕ :=
  if hadEdits then firstEditOffset else progressFallback

/-- `recovery_attempt_key`. -/
def recovery_attempt_key (attempt : RecoveryAttempt) : RecoveryKey where
  fullMatch := attempt.fullMatch
  matched := attempt.status == .Selectable
  firstEditOffset :=
    effective_first_edit_offset (!attempt.recoveryEdits.isEmpty)
      ((attempt.recoveryEdits.head?.map (·.beginOffset)).getD 0) attempt.parsedLength
  editCost := attempt.editCost
  editCount := attempt.editCount
  progressAfterEdits := attempt.parsedLength

/-- Attempts are compared by their keys. -/
def is_better_recovery_attempt (lhs rhs : RecoveryAttempt) : Bool :=
  is_better_recovery_key (recovery_attempt_key lhs) (recovery_attempt_key rhs)

/-! ### What an attempt commits -/

/-- How many edits of an attempt the next window keeps, and where it resumes. -/
structure CommittedPrefixContract where
  resumeFloor : ℕ := 0
  preservedEditCount : ℕ := 0
  deriving DecidableEq

/-- `committed_replay_prefix_contract`. -/
def committed_replay_prefix_contract (selectedAttempt : RecoveryAttempt) :
    CommittedPrefixContract :=
  if selectedAttempt.recoveryEdits.isEmpty then {}
  else
    let resumeFloor := max selectedAttempt.parsedLength selectedAttempt.facts.lastEditOffset
    { resumeFloor
      preservedEditCount :=
        (selectedAttempt.recoveryEdits.takeWhile fun edit => edit.endOffset < resumeFloor).length }

section Input

variable (inp : RecoveryInput)

/-- `same_syntax_script_entry`. -/
def same_syntax_script_entry (lhs rhs : SyntaxScriptEntry) : Bool :=
  lhs.kind == rhs.kind && lhs.offset == rhs.offset && lhs.beginOffset == rhs.beginOffset &&
    lhs.endOffset == rhs.endOffset && elements_equivalent_for_replay inp lhs.element rhs.element &&
    lhs.message == rhs.message

/-- `preserves_committed_replay_prefix`. -/
def preserves_committed_replay_prefix (candidate selectedAttempt : RecoveryAttempt) : Bool :=
  let count := (committed_replay_prefix_contract selectedAttempt).preservedEditCount
  count ≤ candidate.recoveryEdits.length &&
    (List.zip (selectedAttempt.recoveryEdits.take count) candidate.recoveryEdits).all
      fun (selectedEntry, candidateEntry) =>
        same_syntax_script_entry inp selectedEntry candidateEntry

/-- `rewrites_committed_replay_boundary`. -/
def rewrites_committed_replay_boundary (candidate : RecoveryAttempt)
    (contract : CommittedPrefixContract) : Bool :=
  match candidate.recoveryEdits[contract.preservedEditCount]? with
  | some edit => edit.beginOffset < contract.resumeFloor
  | none => false

/-- `extends_current_recovery_site`. -/
def extends_current_recovery_site (candidate : RecoveryAttempt)
    (contract : CommittedPrefixContract) : Bool :=
  contract.preservedEditCount < candidate.recoveryEdits.length &&
    contract.resumeFloor < candidate.parsedLength

/-- `admits_non_credible_fallback`. -/
def admits_non_credible_fallback (attempt : RecoveryAttempt) : Bool :=
  if !attempt.entryRuleMatched || attempt.status != .RecoveredButNotCredible then false
  else
    match attempt.recoveryEdits with
    | [] => false
    | first :: _ =>
      if attempt.facts.preservesStablePrefixBeforeFirstEdit then true
      else
        let firstEditIsReplaceAtRoot := first.beginOffset == 0 && first.kind == .replaced
        if !attempt.hasStablePrefix && firstEditIsReplaceAtRoot &&
            first.endOffset < attempt.parsedLength then true
        else !attempt.hasStablePrefix && attempt.facts.hasDeleteOnlyRecovery

/-- `satisfies_non_credible_fallback_contract`. -/
def satisfies_non_credible_fallback_contract (candidate selectedAttempt : RecoveryAttempt) : Bool :=
  let contract := committed_replay_prefix_contract selectedAttempt
  if !admits_non_credible_fallback candidate ||
      ! preserves_committed_replay_prefix inp candidate selectedAttempt ||
      rewrites_committed_replay_boundary candidate contract then false
  else
    let committedSourceFloor :=
      max selectedAttempt.parsedLength selectedAttempt.facts.lastEditOffset
    let rewritesCommittedSource :=
      (candidate.recoveryEdits.drop contract.preservedEditCount).any fun entry =>
        committedSourceFloor ≤ entry.beginOffset && entry.kind != .inserted
    if selectedAttempt.facts.hasEdits && selectedAttempt.status == .RecoveredButNotCredible &&
        contract.preservedEditCount == selectedAttempt.recoveryEdits.length &&
        rewritesCommittedSource then false
    else if !candidate.facts.hasCursorProgressPastLastEdit ||
        candidate.maxCursorOffset ≤ contract.resumeFloor then false
    else if contract.preservedEditCount = 0 then
      !candidate.facts.hasDeleteOnlyRecovery || candidate.facts.continuesAfterFirstEdit
    else selectedAttempt.parsedLength < candidate.parsedLength

/-- `consider_window_attempt_candidate`: the attempt, if it is accepted. -/
def consider_window_attempt_candidate (attempt selectedAttempt : RecoveryAttempt)
    (continuingRecovery : Bool) : Option RecoveryAttempt :=
  let selectable := is_selectable_recovery_attempt attempt
  let fallbackEligible :=
    !selectable && attempt.entryRuleMatched &&
      (continuingRecovery || satisfies_non_credible_fallback_contract inp attempt selectedAttempt)
  let contract := committed_replay_prefix_contract selectedAttempt
  if !selectable && !fallbackEligible then none
  else if ! preserves_committed_replay_prefix inp attempt selectedAttempt ||
      rewrites_committed_replay_boundary attempt contract then none
  else
    let accept :=
      if continuingRecovery then extends_current_recovery_site attempt contract
      else if selectable then is_better_recovery_attempt attempt selectedAttempt
      else selectedAttempt.status != .RecoveredButNotCredible ||
        is_better_recovery_attempt attempt selectedAttempt
    if accept then some attempt else none

end Input

/-! ### One window -/

/-- `matches_out_of_window_fuzzy_fold_signature`. -/
def matches_out_of_window_fuzzy_fold_signature (windowMaxCursorOffset : ℕ)
    (recoveryEdits : List SyntaxScriptEntry) : Bool :=
  (List.zip recoveryEdits recoveryEdits.tail).any fun (prev, cur) =>
    prev.kind == .deleted && cur.kind == .replaced && cur.beginOffset == prev.endOffset &&
      windowMaxCursorOffset ≤ cur.beginOffset

/-- A replacement that is not empty. -/
def SyntaxScriptEntry.isNonEmptyReplace (entry : SyntaxScriptEntry) : Bool :=
  entry.kind == .replaced && entry.beginOffset < entry.endOffset

/-- The loop of `matches_whole_keyword_fuzzy_replace_with_continuation_signature`, from
the entry before and whether a replacement has been seen. -/
def whole_keyword_signature_from (prev : Option SyntaxScriptEntry) (sawNonEmptyReplace : Bool) :
    List SyntaxScriptEntry → Bool
  | [] => false
  | cur :: rest =>
    let saw := sawNonEmptyReplace || cur.isNonEmptyReplace
    let insertedAtItsEnd :=
      match prev with
      | some prev =>
        prev.isNonEmptyReplace && cur.kind == ParseDiagnosticKind.inserted &&
          cur.beginOffset == prev.endOffset
      | none => false
    if insertedAtItsEnd then true
    else if saw && cur.kind == ParseDiagnosticKind.deleted then true
    else whole_keyword_signature_from (some cur) saw rest

/-- A replacement is followed by an insertion at its end, or later by a deletion. -/
def matches_whole_keyword_fuzzy_replace_with_continuation_signature
    (recoveryEdits : List SyntaxScriptEntry) : Bool :=
  whole_keyword_signature_from none false recoveryEdits

section Execute

variable (inp : RecoveryInput) (execute : ParseOptions → RecoveryAttemptSpec → RecoveryAttempt)
  (options : ParseOptions)

/-- One attempt, classified. -/
def run_recovery_attempt (options : ParseOptions) (spec : RecoveryAttemptSpec) : RecoveryAttempt :=
  classify_recovery_attempt (execute options spec)

/-- `tryPrunedEditSet`: the attempt without one of its edits, if it still is a full match. -/
def tryPrunedEditSet (spec : RecoveryAttemptSpec) (attempt : RecoveryAttempt) (dropIndex : ℕ) :
    Option RecoveryAttempt :=
  let committedRecoveryEdits := attempt.recoveryEdits.eraseIdx dropIndex
  let prunedSpec : RecoveryAttemptSpec :=
    { window := spec.window
      committedRecoveryEdits
      committedRecoveryResumeFloor := spec.committedRecoveryResumeFloor }
  let prunedAttempt := run_recovery_attempt execute
    { options with maxRecoveryEditsPerAttempt := committedRecoveryEdits.length } prunedSpec
  let replayedOnlyCommittedEdits :=
    prunedAttempt.recoveryEdits.length == committedRecoveryEdits.length &&
      (List.zip prunedAttempt.recoveryEdits committedRecoveryEdits).all
        fun (pruned, committed) => same_syntax_script_entry inp pruned committed
  if attempt.recoveryEdits.length ≤ committedRecoveryEdits.length then none
  else if prunedAttempt.fullMatch && replayedOnlyCommittedEdits &&
      prunedAttempt.recoveryEdits.length < attempt.recoveryEdits.length then some prunedAttempt
  else none

/-- The loop of `minimize_recovery_edits`; each way round it drops an edit. -/
def pruneRecoveryEdits (spec : RecoveryAttemptSpec) : ℕ → RecoveryAttempt → RecoveryAttempt
  | 0, attempt => attempt
  | rounds + 1, attempt =>
    if 1 < attempt.recoveryEdits.length then
      match (List.range attempt.recoveryEdits.length).findSome?
          (tryPrunedEditSet inp execute options spec attempt) with
      | some prunedAttempt => pruneRecoveryEdits spec rounds prunedAttempt
      | none => attempt
    else attempt

/-- Scripts up to this length are pruned edit by edit. -/
def kMaxPostHocPruningEditCount : ℕ := 4

/-- `minimize_recovery_edits`. -/
def minimize_recovery_edits (spec : RecoveryAttemptSpec) (attempt : RecoveryAttempt) :
    RecoveryAttempt :=
  if !attempt.fullMatch || attempt.recoveryEdits.length ≤ 1 ||
      kMaxPostHocPruningEditCount < attempt.recoveryEdits.length then attempt
  else pruneRecoveryEdits inp execute options spec attempt.recoveryEdits.length attempt

/-- `runProbeAndKeepIfBetter`, if the probe is worth running. -/
def runProbeAndKeepIfBetter (worthRunning : Bool) (probeOptions : ParseOptions)
    (probeSpec : RecoveryAttemptSpec) (primaryAttempt : RecoveryAttempt) : RecoveryAttempt :=
  if worthRunning then
    let attempt := run_recovery_attempt execute probeOptions probeSpec
    if attempt.fullMatch && is_better_recovery_attempt attempt primaryAttempt then attempt
    else primaryAttempt
  else primaryAttempt

/-- Whether a run with fewer edits may do better. -/
def minimalProbeWorthRunning (primaryAttempt : RecoveryAttempt) : Bool :=
  (primaryAttempt.fullMatch || primaryAttempt.status == .RecoveredButNotCredible) &&
    1 < primaryAttempt.recoveryEdits.length && 1 < options.maxRecoveryEditsPerAttempt

/-- Whether a run without deletions may do better. -/
def alternativeProbeWorthRunning (primaryAttempt : RecoveryAttempt) : Bool :=
  !primaryAttempt.fullMatch &&
    (primaryAttempt.status == .RecoveredButNotCredible ||
      primaryAttempt.status == .StrictFailure) &&
    primaryAttempt.recoveryEdits.any (fun edit => edit.kind == .deleted) &&
    0 < options.maxConsecutiveCodepointDeletes

/-- Whether a run that folds nothing outside the window may do better. -/
def noFoldProbeWorthRunning (spec : RecoveryAttemptSpec)
    (primaryAttempt : RecoveryAttempt) : Bool :=
  primaryAttempt.fullMatch &&
    matches_out_of_window_fuzzy_fold_signature spec.window.maxCursorOffset
      primaryAttempt.recoveryEdits &&
    !spec.probeAxes.forbidOutOfWindowFuzzyFold

/-- Whether a run that replaces no keyword as a whole may do better. -/
def forbidReplaceProbeWorthRunning (spec : RecoveryAttemptSpec)
    (primaryAttempt : RecoveryAttempt) : Bool :=
  primaryAttempt.fullMatch &&
    matches_whole_keyword_fuzzy_replace_with_continuation_signature
      primaryAttempt.recoveryEdits &&
    !spec.probeAxes.forbidWholeKeywordFuzzyReplace

/-- The attempt of a window after the probes of `try_recovery_window`. -/
def primary_recovery_attempt (spec : RecoveryAttemptSpec) : RecoveryAttempt :=
  let primary := minimize_recovery_edits inp execute options spec
    (run_recovery_attempt execute options spec)
  let primary := runProbeAndKeepIfBetter execute (minimalProbeWorthRunning options primary)
    { options with maxRecoveryEditsPerAttempt := spec.committedRecoveryEdits.length + 1 } spec
    primary
  let primary := runProbeAndKeepIfBetter execute (alternativeProbeWorthRunning options primary)
    { options with maxConsecutiveCodepointDeletes := 0 } spec primary
  let primary := runProbeAndKeepIfBetter execute (noFoldProbeWorthRunning spec primary) options
    { spec with probeAxes.forbidOutOfWindowFuzzyFold := true } primary
  runProbeAndKeepIfBetter execute (forbidReplaceProbeWorthRunning spec primary) options
    { spec with probeAxes.forbidWholeKeywordFuzzyReplace := true } primary

/-- `try_recovery_window`. -/
def try_recovery_window (spec : RecoveryAttemptSpec) (selectedAttempt : RecoveryAttempt)
    (continuingRecovery : Bool) : Option RecoveryAttempt :=
  consider_window_attempt_candidate inp (primary_recovery_attempt inp execute options spec)
    selectedAttempt continuingRecovery

end Execute

/-! ### Planning -/

/-- `visible_leaf_stable_prefix_offset`. -/
def visible_leaf_stable_prefix_offset (snapshot : FailureSnapshot) : ℕ :=
  let stableLeafEnd :=
    if snapshot.hasFailureToken then snapshot.failureTokenIndex
    else snapshot.failureLeafHistory.length
  let stable := (snapshot.failureLeafHistory.take stableLeafEnd).takeWhile
    fun leaf => leaf.endOffset ≤ snapshot.maxCursorOffset
  (stable.getLast?.map (·.endOffset)).getD 0

/-- What the window takes over from the text before it. -/
structure RecoveryWindowPrefixContract where
  editFloorOffset : ℕ := 0
  stablePrefixOffset : ℕ := 0
  hasStablePrefix : Bool := false

/-- `recovery_window_prefix_contract`. -/
def recovery_window_prefix_contract (snapshot : FailureSnapshot)
    (selectedAttempt : RecoveryAttempt) : RecoveryWindowPrefixContract :=
  if selectedAttempt.parsedLength ≠ 0 then
    ⟨selectedAttempt.parsedLength, selectedAttempt.parsedLength, true⟩
  else
    let stablePrefixOffset := visible_leaf_stable_prefix_offset snapshot
    if stablePrefixOffset ≠ 0 then ⟨stablePrefixOffset, stablePrefixOffset, true⟩
    else if h : snapshot.hasFailureToken = true then
      have inHistory := snapshot.inHistory h
      ⟨snapshot.failureLeafHistory[snapshot.failureTokenIndex].beginOffset, 0, false⟩
    else {}

/-- `plan_recovery_window`. -/
def plan_recovery_window (failureSnapshot : FailureSnapshot) (selectedAttempt : RecoveryAttempt)
    (options : ParseOptions) (forwardTokenCount : ℕ) : RecoveryWindow :=
  let prefixContract := recovery_window_prefix_contract failureSnapshot selectedAttempt
  let backwardTokenCount := max 1 options.recoveryWindowTokenCount
  { compute_recovery_window failureSnapshot backwardTokenCount forwardTokenCount
      prefixContract.editFloorOffset with
    stablePrefixOffset := prefixContract.stablePrefixOffset
    hasStablePrefix := prefixContract.hasStablePrefix }

/-- `fill_committed_recovery_prefix`. -/
def fill_committed_recovery_prefix (selectedAttempt : RecoveryAttempt) : RecoveryAttemptSpec :=
  let contract := committed_replay_prefix_contract selectedAttempt
  { committedRecoveryResumeFloor := contract.resumeFloor
    committedRecoveryEdits := selectedAttempt.recoveryEdits.take contract.preservedEditCount }

/-! ### The search -/

/-- The attempt that was chosen, and what the search took. -/
structure RecoverySearchRunResult where
  selectedAttempt : RecoveryAttempt
  selectedWindows : List RecoveryWindow := []
  failureVisibleCursorOffset : ℕ := 0
  strictParseRuns : ℕ := 0
  recoveryWindowsTried : ℕ := 0
  recoveryAttemptRuns : ℕ := 0
  deriving DecidableEq

/-- `recovery_attempt_budget_exhausted`: the runs that are allowed. -/
def ParseOptions.attemptBudget (options : ParseOptions) : ℕ :=
  min options.maxRecoveryAttempts options.maxTotalRecoveryAttemptRuns

/-- No further attempt may be run. -/
def recovery_attempt_budget_exhausted (result : RecoverySearchRunResult) (options : ParseOptions) :
    Bool :=
  options.attemptBudget ≤ result.recoveryAttemptRuns

/-- The search at the top of its outer loop. -/
structure SearchState where
  result : RecoverySearchRunResult
  currentFailure : FailureSnapshot
  previousRecoveryEditFloor : ℕ := 0
  deriving DecidableEq

/-- What comes of a failure site: the search returns, or a window is committed. -/
inductive SiteOutcome where
  | finished (result : RecoverySearchRunResult)
  | committed (result : RecoverySearchRunResult) (window : RecoveryWindow)

/-- What comes of one width of a window: also, nothing is accepted. -/
inductive WindowOutcome where
  | finished (result : RecoverySearchRunResult)
  | committed (result : RecoverySearchRunResult) (window : RecoveryWindow)
  | rejected (result : RecoverySearchRunResult)

/-- The tokens of a window, at least one. -/
def ParseOptions.windowTokenCount (options : ParseOptions) : ℕ :=
  max 1 options.recoveryWindowTokenCount

/-- The tokens of a widened window. -/
def ParseOptions.widenedTokenCount (options : ParseOptions) : ℕ :=
  max options.maxRecoveryWindowTokenCount options.windowTokenCount

section Search

variable (inp : RecoveryInput) (execute : ParseOptions → RecoveryAttemptSpec → RecoveryAttempt)
  (options : ParseOptions)

/-- The body of the inner loop. -/
def searchWindow (s : SearchState) (result : RecoverySearchRunResult) (forwardTokenCount : ℕ) :
    WindowOutcome :=
  if recovery_attempt_budget_exhausted result options then .finished result
  else
    let window :=
      plan_recovery_window s.currentFailure result.selectedAttempt options forwardTokenCount
    if forwardTokenCount = options.windowTokenCount ∧ 0 < result.recoveryWindowsTried ∧
        window.editFloorOffset ≤ s.previousRecoveryEditFloor then .finished result
    else
      let spec := { fill_committed_recovery_prefix result.selectedAttempt with window }
      let tried := { result with
        recoveryWindowsTried := result.recoveryWindowsTried + 1
        recoveryAttemptRuns := result.recoveryAttemptRuns + 1 }
      match try_recovery_window inp execute options spec result.selectedAttempt
          (!result.selectedWindows.isEmpty) with
      | some acceptedAttempt =>
        let committedWindow := acceptedAttempt.replayWindow.getD window
        .committed { tried with
          selectedAttempt := acceptedAttempt
          selectedWindows := result.selectedWindows ++ [committedWindow] } committedWindow
      | none => .rejected tried

/-- The inner loop: the window is widened once. -/
def searchSite (s : SearchState) : SiteOutcome :=
  match searchWindow inp execute options s s.result options.windowTokenCount with
  | .finished result => .finished result
  | .committed result window => .committed result window
  | .rejected result =>
    if options.widenedTokenCount ≤ options.windowTokenCount then .finished result
    else
      match searchWindow inp execute options s result options.widenedTokenCount with
      | .finished result | .rejected result => .finished result
      | .committed result window => .committed result window

/-- Where the search goes on after a committed window. -/
def SearchState.next (result : RecoverySearchRunResult) (window : RecoveryWindow) :
    Option SearchState :=
  if result.selectedAttempt.fullMatch then none
  else result.selectedAttempt.failureSnapshot.map fun failure =>
    ⟨result, failure, window.editFloorOffset⟩

/-- The outer loop, for a number of sites; nothing is returned if they do not suffice. -/
def searchSites : ℕ → SearchState → Option RecoverySearchRunResult
  | 0, _ => none
  | sites + 1, s =>
    match searchSite inp execute options s with
    | .finished result => some result
    | .committed result window =>
      match SearchState.next result window with
      | none => some result
      | some s' => searchSites sites s'

end Search

/-- What the strict stage hands over. -/
structure StrictFailureStageResult where
  strictAttempt : RecoveryAttempt
  failureSnapshot : Option FailureSnapshot
  failureVisibleCursorOffset : ℕ

/-- The result before any window is tried. -/
def StrictFailureStageResult.start (stage : StrictFailureStageResult) : RecoverySearchRunResult :=
  { selectedAttempt := stage.strictAttempt
    failureVisibleCursorOffset := stage.failureVisibleCursorOffset
    strictParseRuns := 1 }

/-- `orchestrate_recovery_search`, after its strict stage; each site takes an attempt from
the budget. -/
def orchestrate_recovery_search (inp : RecoveryInput)
    (execute : ParseOptions → RecoveryAttemptSpec → RecoveryAttempt) (options : ParseOptions)
    (stage : StrictFailureStageResult) : Option RecoverySearchRunResult :=
  match stage.failureSnapshot with
  | none => some stage.start
  | some failure =>
    if stage.strictAttempt.fullMatch then some stage.start
    else searchSites inp execute options (options.attemptBudget + 1) ⟨stage.start, failure, 0⟩

end Pegium
