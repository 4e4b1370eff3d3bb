/-
Pegium/Parser/RecoveryMarks.lean

Backtracking in recovery mode.

A session is a recovery context in use, with its live marks.  As for the builder
(`SyntaxTree/Speculation.lean`) a mark is live until the node that was open when
it was taken is exited, until the context is rewound to an older mark, or until
the element of an older node is overridden.

A mark keeps two ghosts: the context it was taken in (`taken`), and whether a
deletion was merged since into an entry that the mark counts (`extended`).  A
rewind cuts the list of edits to the length it had; it does not restore the
entries before the cut.  A merged deletion moves the end of the last entry in
place, so a mark that counts this entry is extended.

Main result: `rewind_restores_iff`.  Rewinding to a live mark restores the whole
context, what it knows of the furthest point aside, exactly if the mark is not
extended.
-/
import Pegium.General.Machine
import Pegium.Parser.RecoveryContext
import Pegium.SyntaxTree.Speculation

namespace Pegium

/-! ### Sessions -/

/-- The operations of a recovery context. -/
inductive RecoveryOp where
  | skip
  | leaf (start stop : ℕ) (element : GrammarElement) (hidden recovered : Bool)
  | enter
  | exit (checkpoint : ℕ) (element : GrammarElement)
  | overrideGrammarElement (id : ℕ) (element : GrammarElement)
  | insertSynthetic (element : Option GrammarElement)
  | insertSyntheticGapAt (position : ℕ) (message : String)
  | deleteOneCodepoint
  | extendLastDeleteThroughHiddenTrivia
  | replaceLeaf (stop : ℕ) (element : GrammarElement) (replacementCost : UInt32) (hidden : Bool)
      (fuzzyOperationDistance : UInt32)
  | clearFrontierBlock
  | blockFrontier
  | allowBudgetOverflowEdits
  | restoreMaxCursor (cursor : ℕ)
  | bumpMaxCursor (cursor : ℕ)
  | bumpFurthestFailureHistorySize (value : ℕ)
  | bumpFurthestFailureOffset (value : ℕ)
  | finalizeRecoveryAtEof

/-- All calls; `rewind k` goes to the `k`-th live mark, youngest first.  Each
operation has the settings in force at its call. -/
inductive RecoveryCall where
  | run (o : RecoveryOptions) (op : RecoveryOp)
  | mark
  | rewind (k : ℕ)

namespace RecoveryContext

variable (inp : RecoveryInput) (o : RecoveryOptions)

/-- One operation. -/
def apply (c : RecoveryContext) : RecoveryOp → RecoveryContext
  | .skip => c.skip inp o
  | .leaf start stop element hidden recovered =>
    c.leafFrom inp o start stop element hidden recovered
  | .enter => c.enter
  | .exit checkpoint element => c.exit o checkpoint element
  | .overrideGrammarElement id element => c.override_grammar_element id element
  | .insertSynthetic element => (c.insertSynthetic inp o element).1
  | .insertSyntheticGapAt position message => (c.insertSyntheticGapAt inp o position message).1
  | .deleteOneCodepoint => (c.deleteOneCodepoint inp o).1
  | .extendLastDeleteThroughHiddenTrivia => (c.extendLastDeleteThroughHiddenTrivia inp o).1
  | .replaceLeaf stop element cost hidden distance =>
    (c.replaceLeaf inp o stop element cost hidden distance).1
  | .clearFrontierBlock => c.clearFrontierBlock
  | .blockFrontier => c.blockFrontier
  | .allowBudgetOverflowEdits => c.allowBudgetOverflowEdits
  | .restoreMaxCursor cursor => c.restoreMaxCursor cursor
  | .bumpMaxCursor cursor => c.bumpMaxCursor cursor
  | .bumpFurthestFailureHistorySize value => c.bumpFurthestFailureHistorySize value
  | .bumpFurthestFailureOffset value => c.bumpFurthestFailureOffset value
  | .finalizeRecoveryAtEof => c.finalizeRecoveryAtEof inp

/-- Whether the operation is a deletion that is merged into the last entry: the
bridge ties the entry to the cursor, and the deletion is admitted. -/
def merges (c : RecoveryContext) : RecoveryOp → Bool
  | .deleteOneCodepoint =>
    o.trackEditState && c.cursor < inp.text.length &&
      (!c.hasPendingCommittedRecoveryEdits || (c.matching_committed_delete c.cursor).isSome) &&
      c.pendingHiddenTriviaDeleteEdit.2 && c.admitsDelete inp o &&
      c.cursor < next_codepoint_cursor inp.text c.cursor
  | _ => false

/-- Whether the builder accepts the operation: an exit closes an open node and an
override names an allocated one. -/
def accepts (c : RecoveryContext) : RecoveryOp → Bool
  | .exit _ _ => 0 < c.builder.depth
  | .overrideGrammarElement id _ => id < c.builder.nodeCount
  | _ => true

/-- A context that is ready to parse: it was configured, in any order. -/
inductive Fresh : RecoveryContext → Prop
  | initial : Fresh initial
  | setEditWindow {c : RecoveryContext} (window : Option EditWindow) (h : Fresh c) :
      Fresh (c.setEditWindow window)
  | setCommittedRecoveryPrefix {c : RecoveryContext} (edits : List SyntaxScriptEntry)
      (resumeFloor : ℕ) (h : Fresh c) : Fresh (c.setCommittedRecoveryPrefix edits resumeFloor)

/-- The context without what it knows of the furthest point: the furthest cursor,
the furthest offset and leaf count, and the leaves of branches it left. -/
def forgetFurthest (c : RecoveryContext) : RecoveryContext :=
  { c with
    maxCursor := 0
    failureRecorder :=
      { furthestOffset := 0
        furthestVisibleLeafCount := 0
        currentVisibleLeafCount := c.failureRecorder.currentVisibleLeafCount
        visibleLeaves :=
          c.failureRecorder.visibleLeaves.take c.failureRecorder.currentVisibleLeafCount } }

end RecoveryContext

/-- A live mark, with the context it was taken in, and whether a deletion was
merged since into an entry it counts. -/
structure RecoveryMark where
  checkpoint : RecoveryContext.Checkpoint
  taken : RecoveryContext
  extended : Bool

namespace RecoveryMark

/-- Whether a mark outlives an operation. -/
def outlives (c : RecoveryContext) (m : RecoveryMark) : RecoveryOp → Bool
  | .exit _ _ => m.taken.builder.depth < c.builder.depth
  | .overrideGrammarElement id _ => m.taken.builder.nodeCount ≤ id
  | _ => true

/-- The mark after an operation in `c`, merged into the last entry or not. -/
def note (c : RecoveryContext) (merged : Bool) (m : RecoveryMark) : RecoveryMark :=
  { m with
    extended := m.extended || (merged && c.recoveryEdits.length == m.taken.recoveryEdits.length) }

end RecoveryMark

/-- A recovery context in use: its state, and the live marks, youngest first. -/
structure RecoverySession where
  context : RecoveryContext
  marks : List RecoveryMark

namespace RecoverySession

variable (inp : RecoveryInput)

/-- One call.  `none` when the builder's assertions forbid it or it rewinds to a
mark that is not live. -/
def call (s : RecoverySession) : RecoveryCall → Option RecoverySession
  | .run o op =>
    if s.context.accepts op then
      some
        { context := s.context.apply inp o op
          marks := (s.marks.filter (·.outlives s.context op)).map
            (·.note s.context (s.context.merges inp o op)) }
    else none
  | .mark => some { s with marks := ⟨s.context.mark, s.context, false⟩ :: s.marks }
  | .rewind k =>
    match s.marks[k]? with
    | some m => some ⟨s.context.rewind m.checkpoint, s.marks.drop k⟩
    | none => none

end RecoverySession

/-- The machine of a recovery context over a text. -/
def recoveryMachine (inp : RecoveryInput) : Machine RecoverySession RecoveryCall :=
  ⟨RecoverySession.call inp⟩

namespace RecoveryContext

variable {inp : RecoveryInput} {o : RecoveryOptions} {c c' c'' : RecoveryContext}

/-! ### What bookkeeping leaves alone -/

/-- What no operation of a parse changes: the configuration.  Of the window only
the replay count moves. -/
def config (c : RecoveryContext) :
    List SyntaxScriptEntry × ℕ × ℕ × Bool × Option EditWindow :=
  (c.committedRecoveryEdits, c.committedRecoveryResumeFloor, c.editFloorOffset,
    c.recordFailureHistory, c.editWindow.map fun w => { w with replayForwardTokenCount := 0 })

/-- What only the operations themselves change: the nodes, the edits, and the
visible leaves. -/
def record (c : RecoveryContext) :
    CstBuilder GrammarElement × List SyntaxScriptEntry × ℕ × List FailureLeaf :=
  (c.builder, c.recoveryEdits, c.failureRecorder.currentVisibleLeafCount,
    c.failureRecorder.visibleLeaves)

/-- A configured window has set the floor and turned the history on. -/
def Configured (c : RecoveryContext) : Prop :=
  ∀ w, c.editWindow = some w → c.editFloorOffset = w.editFloorOffset ∧ c.recordFailureHistory

/-- A bridge goes over some hidden trivia. -/
def Bridged (c : RecoveryContext) : Prop :=
  ∀ start stop, c.deleteBridge = ⟨some start, some stop⟩ → start < stop

/-- A step of the bookkeeping. -/
structure Quiet (c c' : RecoveryContext) : Prop where
  config : c'.config = c.config
  record : c'.record = c.record
  bridged : c.Bridged → c'.Bridged

theorem Quiet.refl : Quiet c c := ⟨rfl, rfl, id⟩

theorem Quiet.trans (h : Quiet c c') (h' : Quiet c' c'') : Quiet c c'' :=
  ⟨h'.config.trans h.config, h'.record.trans h.record, h'.bridged ∘ h.bridged⟩

theorem Configured.of_config (h : c.Configured) (hc : c'.config = c.config) : c'.Configured := by
  intro w' hw'
  simp only [RecoveryContext.config, Prod.mk.injEq] at hc
  obtain ⟨-, -, hfloor, hrecord, hwindow⟩ := hc
  rw [hw'] at hwindow
  obtain ⟨w, hw, heq⟩ := Option.map_eq_some_iff.mp hwindow.symm
  have hsame : w.editFloorOffset = w'.editFloorOffset :=
    (EditWindow.mk.injEq .. ▸ heq).2.1
  obtain ⟨h₁, h₂⟩ := h w hw
  exact ⟨by rw [hfloor, h₁, hsame], by rw [hrecord, h₂]⟩

theorem Quiet.configured (h : Quiet c c') (hc : c.Configured) : c'.Configured :=
  hc.of_config h.config

theorem quiet_ite {p : Prop} [Decidable p] {d : RecoveryContext} (h : Quiet c c')
    (h' : Quiet c d) : Quiet c (if p then c' else d) := by
  split
  · exact h
  · exact h'

theorem quiet_clear : Quiet c c.clearPendingDeleteHiddenTriviaBridge :=
  ⟨rfl, rfl, fun _ _ _ h => nomatch h⟩

theorem quiet_maybeDisable : Quiet c c.maybeDisableRecoveryBookkeeping :=
  quiet_ite .refl ⟨rfl, rfl, id⟩

theorem quiet_becomeStable : Quiet c c.becomeStable := by
  refine Quiet.trans ?_ quiet_maybeDisable
  exact ⟨rfl, rfl, id⟩

theorem quiet_complete (w : EditWindow) (reachedEof : Bool) :
    Quiet c (c.completeActiveRecoveryWindow w reachedEof) := by
  refine Quiet.trans ?_ quiet_maybeDisable
  exact ⟨rfl, rfl, id⟩

/-- The window's floor and history are those the configuration has set. -/
theorem quiet_begin {w : EditWindow} (hc : c.Configured) (hw : c.editWindow = some w) :
    Quiet c (c.beginActiveRecoveryWindow w) := by
  obtain ⟨hfloor, hrecord⟩ := hc w hw
  refine ⟨?_, rfl, id⟩
  simp [config, beginActiveRecoveryWindow, hfloor, hrecord]

theorem quiet_refreshOutside {w : EditWindow} (hc : c.Configured) (hw : c.editWindow = some w) :
    Quiet c (c.refreshOutside w) :=
  quiet_ite .refl (quiet_ite .refl (quiet_begin hc hw))

theorem editWindow_maybeDisable :
    c.maybeDisableRecoveryBookkeeping.editWindow = c.editWindow := by
  unfold maybeDisableRecoveryBookkeeping
  split
  · rfl
  · rfl

theorem editWindow_complete (w : EditWindow) (reachedEof : Bool) :
    (c.completeActiveRecoveryWindow w reachedEof).editWindow = c.editWindow :=
  editWindow_maybeDisable

theorem quiet_refreshLoop {w : EditWindow} (hc : c.Configured) (hw : c.editWindow = some w) :
    Quiet c (c.refreshLoop w) := by
  refine quiet_ite (quiet_ite ?_ (quiet_ite ?_ .refl)) (quiet_refreshOutside hc hw)
  · have hleave : Quiet c { c with recoveryState.windowReplay.inRecoveryPhase := false } :=
      ⟨rfl, rfl, id⟩
    exact hleave.trans (quiet_refreshOutside (hleave.configured hc) hw)
  · have hcomplete := quiet_complete (c := c) w false
    exact hcomplete.trans
      (quiet_refreshOutside (hcomplete.configured hc) ((editWindow_complete w false).trans hw))

theorem quiet_refresh (hc : c.Configured) : Quiet c (c.refreshRecoveryPhase inp) := by
  refine quiet_ite .refl ?_
  have hstable : Quiet c
      (if c.recoveryState.windowReplay.awaitingStrictStability && c.cursor == inp.text.length then
        c.becomeStable else c) := quiet_ite quiet_becomeStable .refl
  dsimp only
  split
  · exact hstable
  next w hw => exact hstable.trans (quiet_refreshLoop (hstable.configured hc) hw)

theorem quiet_onVisibleLeaf (b e : ℕ) : Quiet c (c.onVisibleLeaf o b e) := by
  unfold onVisibleLeaf
  refine quiet_ite .refl (quiet_ite (quiet_ite .refl (quiet_ite ⟨rfl, rfl, id⟩ .refl))
    (quiet_ite (quiet_ite ?_ ⟨rfl, rfl, id⟩) .refl))
  refine Quiet.trans ?_ quiet_becomeStable
  exact ⟨rfl, rfl, id⟩

theorem quiet_noteReplay (kind : ParseDiagnosticKind) :
    Quiet c (c.noteReplayForwardRequirementForCurrentWindow o kind) := by
  unfold noteReplayForwardRequirementForCurrentWindow
  refine quiet_ite .refl ?_
  split
  · exact .refl
  next w hw =>
    refine quiet_ite .refl ⟨?_, rfl, id⟩
    have hwindow : c.editWindow = some w := by
      unfold currentEditWindow at hw
      split at hw
      · exact hw
      · cases hw
    simp [config, hwindow]

theorem quiet_consume : Quiet c c.consumeCommittedRecoveryEdit := quiet_ite ⟨rfl, rfl, id⟩ .refl

theorem quiet_advance : Quiet c c.advanceCommittedDeleteReplay := by
  unfold advanceCommittedDeleteReplay
  split
  · exact .refl
  · exact quiet_ite .refl (quiet_ite quiet_consume .refl)

theorem quiet_nonDeleteEditState (cost : UInt32) : Quiet c (c.applyNonDeleteEditState cost) :=
  ⟨rfl, rfl, id⟩

theorem quiet_deleteEditState (cost : UInt32) : Quiet c (c.applyDeleteEditState cost) :=
  ⟨rfl, rfl, id⟩

theorem quiet_pending : Quiet c c.pendingHiddenTriviaDeleteEdit.1 := by
  fun_cases pendingHiddenTriviaDeleteEdit c with
  | case1 | case2 | case3 => exact quiet_clear
  | case4 | case5 => exact .refl

theorem quiet_afterTrackedLeaf (hc : c.Configured) (b e : ℕ) (hidden : Bool) :
    Quiet c (c.afterTrackedLeaf inp o b e hidden) := by
  unfold afterTrackedLeaf
  have hvisible : Quiet c.clearPendingDeleteHiddenTriviaBridge
    (if c.clearPendingDeleteHiddenTriviaBridge.recoveryState.windowReplay.recoveryBookkeepingEnabled
        && !hidden && b < e
      then c.clearPendingDeleteHiddenTriviaBridge.onVisibleLeaf o b e
      else c.clearPendingDeleteHiddenTriviaBridge) := quiet_ite (quiet_onVisibleLeaf b e) .refl
  have hseen := quiet_clear.trans hvisible
  have hrefresh := hseen.trans (@quiet_refresh inp _ (hseen.configured hc))
  exact quiet_ite (hrefresh.trans ⟨rfl, rfl, id⟩) hrefresh

theorem quiet_finalize : Quiet c (c.finalizeRecoveryAtEof inp) := by
  refine quiet_ite .refl ?_
  split
  · exact quiet_complete _ true
  · exact quiet_ite quiet_becomeStable .refl

/-! ### What operations do -/

/-- The counted leaves are in the array. -/
def Counted (c : RecoveryContext) : Prop :=
  c.failureRecorder.currentVisibleLeafCount ≤ c.failureRecorder.visibleLeaves.length

/-- The history of leaves goes on from where it is, if it is recorded. -/
structure LeavesGrow (c c' : RecoveryContext) : Prop where
  history : c'.recordFailureHistory = c.recordFailureHistory
  le : c.failureRecorder.currentVisibleLeafCount ≤ c'.failureRecorder.currentVisibleLeafCount
  counted : c.Counted → c'.Counted
  take : c.Counted →
    c'.failureRecorder.visibleLeaves.take c.failureRecorder.currentVisibleLeafCount
      = c.failureRecorder.visibleLeaves.take c.failureRecorder.currentVisibleLeafCount
  silent : c.recordFailureHistory = false →
    c'.failureRecorder.currentVisibleLeafCount = c.failureRecorder.currentVisibleLeafCount

/-- Finished nodes were appended under the open node. -/
def Appends (b b' : CstBuilder GrammarElement) : Prop :=
  ∀ tb : TreeBuilder GrammarElement, b = tb.toCstBuilder →
    ∃ f, b' = (tb.append f).toCstBuilder

/-- Entries were added, or the end of the last one was moved on. -/
inductive EditsGrow : Bool → List SyntaxScriptEntry → List SyntaxScriptEntry → Prop
  | add (edits new : List SyntaxScriptEntry) : EditsGrow false edits (edits ++ new)
  | merge (edits : List SyntaxScriptEntry) (lastEdit : SyntaxScriptEntry) {stop : ℕ}
      (h : lastEdit.endOffset < stop) :
      EditsGrow true (edits ++ [lastEdit]) (edits ++ [{ lastEdit with endOffset := stop }])

/-- A step over the text: no edit is recorded. -/
structure Parses (c c' : RecoveryContext) : Prop where
  config : c'.config = c.config
  edits : c'.recoveryEdits = c.recoveryEdits
  leaves : LeavesGrow c c'
  nodes : Appends c.builder c'.builder
  bridged : c.Bridged → c'.Bridged

/-- A step that records an edit, merged into the last one or not, and goes on. -/
structure Advances (merged : Bool) (c c' : RecoveryContext) : Prop where
  config : c'.config = c.config
  edits : EditsGrow merged c.recoveryEdits c'.recoveryEdits
  leaves : LeavesGrow c c'
  nodes : Appends c.builder c'.builder
  bridged : c.Bridged → c'.Bridged

theorem Appends.refl (b : CstBuilder GrammarElement) : Appends b b := fun tb hb =>
  ⟨.nil, by rw [TreeBuilder.append_nil, hb]⟩

theorem Appends.trans {b b' b'' : CstBuilder GrammarElement} (h : Appends b b')
    (h' : Appends b' b'') : Appends b b'' := by
  intro tb hb
  obtain ⟨f, hf⟩ := h tb hb
  obtain ⟨g, hg⟩ := h' _ hf
  exact ⟨f ++ g, by rw [hg, TreeBuilder.append_append]⟩

theorem appends_leaf (b : CstBuilder GrammarElement) (start stop : ℕ) (element : GrammarElement)
    (hidden recovered : Bool) : Appends b (b.leaf start stop element hidden recovered) := by
  intro tb hb
  refine ⟨.tree ⟨start, stop, element, hidden, recovered⟩ .nil, ?_⟩
  rw [hb, ← TreeBuilder.toCstBuilder_leaf]
  rfl

theorem appends_hiddenLeaves (leaves : List (GrammarElement × ℕ × ℕ))
    (b : CstBuilder GrammarElement) : Appends b (ParseContext.hiddenLeaves b leaves) := by
  induction leaves generalizing b with
  | nil => exact .refl b
  | cons leaf leaves ih =>
    obtain ⟨element, start, stop⟩ := leaf
    exact (appends_leaf b start stop element true false).trans (ih _)

theorem LeavesGrow.of_eq (hh : c'.recordFailureHistory = c.recordFailureHistory)
    (hn : c'.failureRecorder.currentVisibleLeafCount = c.failureRecorder.currentVisibleLeafCount)
    (hl : c'.failureRecorder.visibleLeaves = c.failureRecorder.visibleLeaves) :
    LeavesGrow c c' where
  history := hh
  le := Nat.le_of_eq hn.symm
  counted h := by rw [Counted, hn, hl]; exact h
  take _ := by rw [hl]
  silent _ := hn

theorem LeavesGrow.trans (h : LeavesGrow c c') (h' : LeavesGrow c' c'') : LeavesGrow c c'' where
  history := h'.history.trans h.history
  le := Nat.le_trans h.le h'.le
  counted hc := h'.counted (h.counted hc)
  take hc := by
    have hlater := congrArg (List.take c.failureRecorder.currentVisibleLeafCount)
      (h'.take (h.counted hc))
    rw [List.take_take, List.take_take, Nat.min_eq_left h.le] at hlater
    exact hlater.trans (h.take hc)
  silent hs := (h'.silent (h.history.trans hs)).trans (h.silent hs)

theorem Quiet.leaves (h : Quiet c c') : LeavesGrow c c' := by
  have hconfig := h.config
  have hrecord := h.record
  simp only [RecoveryContext.config, RecoveryContext.record, Prod.mk.injEq] at hconfig hrecord
  exact .of_eq hconfig.2.2.2.1 hrecord.2.2.1 hrecord.2.2.2

theorem Quiet.edits (h : Quiet c c') : c'.recoveryEdits = c.recoveryEdits :=
  congrArg (·.2.1) h.record

theorem Quiet.builder (h : Quiet c c') : c'.builder = c.builder := congrArg (·.1) h.record

theorem Quiet.parses (h : Quiet c c') : Parses c c' :=
  ⟨h.config, h.edits, h.leaves, h.builder ▸ .refl _, h.bridged⟩

theorem Parses.trans (h : Parses c c') (h' : Parses c' c'') : Parses c c'' :=
  ⟨h'.config.trans h.config, h'.edits.trans h.edits, h.leaves.trans h'.leaves,
    h.nodes.trans h'.nodes, h'.bridged ∘ h.bridged⟩

theorem Parses.advances (h : Parses c c') : Advances false c c' where
  config := h.config
  edits := by
    rw [h.edits]
    simpa using EditsGrow.add c.recoveryEdits []
  leaves := h.leaves
  nodes := h.nodes
  bridged := h.bridged

theorem Advances.parses {merged : Bool} (h : Advances merged c c') (h' : Parses c' c'') :
    Advances merged c c'' :=
  ⟨h'.config.trans h.config, h'.edits ▸ h.edits, h.leaves.trans h'.leaves,
    h.nodes.trans h'.nodes, h'.bridged ∘ h.bridged⟩

theorem Quiet.advances {merged : Bool} (h : Quiet c c') (h' : Advances merged c' c'') :
    Advances merged c c'' :=
  ⟨h'.config.trans h.config, h.edits ▸ h'.edits, h.leaves.trans h'.leaves,
    h.parses.nodes.trans h'.nodes, h'.bridged ∘ h.bridged⟩

theorem Advances.configured {merged : Bool} (h : Advances merged c c') (hc : c.Configured) :
    c'.Configured :=
  hc.of_config h.config

/-- An entry is added. -/
theorem advances_add (c : RecoveryContext) (entry : SyntaxScriptEntry) :
    Advances false c { c with recoveryEdits := c.recoveryEdits ++ [entry] } :=
  ⟨rfl, .add _ _, .of_eq rfl rfl rfl, .refl _, id⟩

theorem leavesGrow_skip : LeavesGrow c
    { c with toTrackedParseContext := c.toTrackedParseContext.skip o } := by
  have hsame : ∀ (r : FailureHistoryRecorder) (p : ℕ),
      (r.onCursor p).currentVisibleLeafCount = r.currentVisibleLeafCount ∧
        (r.onCursor p).visibleLeaves = r.visibleLeaves := by
    intro r p
    unfold FailureHistoryRecorder.onCursor FailureHistoryRecorder.updateFurthest
    split <;> exact ⟨rfl, rfl⟩
  refine .of_eq rfl ?_ ?_
  · show (if c.recordFailureHistory then c.failureRecorder.onCursor _
      else c.failureRecorder).currentVisibleLeafCount = _
    split
    · exact (hsame _ _).1
    · rfl
  · show (if c.recordFailureHistory then c.failureRecorder.onCursor _
      else c.failureRecorder).visibleLeaves = _
    split
    · exact (hsame _ _).2
    · rfl

/-- A visible leaf takes the slot after the counted ones. -/
theorem leavesGrow_leaf (start stop : ℕ) (element : GrammarElement) (hidden recovered : Bool) :
    LeavesGrow c { c with
      toTrackedParseContext :=
        c.toTrackedParseContext.leaf start stop element hidden recovered } := by
  rcases hrecord : c.recordFailureHistory with - | -
  · refine .of_eq rfl ?_ ?_ <;> simp [TrackedParseContext.leaf, hrecord]
  by_cases hseen : hidden || stop ≤ start
  · refine .of_eq rfl ?_ ?_ <;>
      simp [TrackedParseContext.leaf, hrecord, FailureHistoryRecorder.onLeaf, hseen]
  -- the furthest point does not matter for the leaves
  have hfurthest : ∀ (r : FailureHistoryRecorder) (p : ℕ),
      (r.updateFurthest p).currentVisibleLeafCount = r.currentVisibleLeafCount ∧
        (r.updateFurthest p).visibleLeaves = r.visibleLeaves := by
    intro r p
    unfold FailureHistoryRecorder.updateFurthest
    split <;> exact ⟨rfl, rfl⟩
  have hcount : (c.toTrackedParseContext.leaf start stop element hidden
      recovered).failureRecorder.currentVisibleLeafCount
        = c.failureRecorder.currentVisibleLeafCount + 1 := by
    simp [TrackedParseContext.leaf, hrecord, FailureHistoryRecorder.onLeaf, hseen, hfurthest]
  have hleaves : (c.toTrackedParseContext.leaf start stop element hidden
      recovered).failureRecorder.visibleLeaves
        = if c.failureRecorder.currentVisibleLeafCount < c.failureRecorder.visibleLeaves.length then
            c.failureRecorder.visibleLeaves.set c.failureRecorder.currentVisibleLeafCount
              ⟨start, stop, element⟩
          else c.failureRecorder.visibleLeaves ++ [⟨start, stop, element⟩] := by
    simp [TrackedParseContext.leaf, hrecord, FailureHistoryRecorder.onLeaf, hseen, hfurthest]
  refine ⟨rfl, ?_, ?_, ?_, ?_⟩
  · exact hcount ▸ Nat.le_succ _
  · intro hc
    simp only [Counted, hcount, hleaves] at hc ⊢
    split
    next hlt =>
      rw [List.length_set]
      exact hlt
    next hge => simpa using hc
  · intro hc
    simp only [Counted, hleaves] at hc ⊢
    split
    next hlt => rw [List.take_set_of_le (Nat.le_refl _)]
    next hge => rw [List.take_append_of_le_length hc]
  · exact fun hs => absurd (hs.symm.trans hrecord) Bool.false_ne_true

theorem parses_skip (hc : c.Configured) : Parses c (c.skip inp o) := by
  have hskip : Parses c { c with toTrackedParseContext := c.toTrackedParseContext.skip o } :=
    ⟨rfl, rfl, leavesGrow_skip, appends_hiddenLeaves _ _, id⟩
  have hclear := hskip.trans quiet_clear.parses
  exact hclear.trans (quiet_refresh (hc.of_config hclear.config)).parses

theorem parses_leafFrom (hc : c.Configured) (start stop : ℕ) (element : GrammarElement)
    (hidden recovered : Bool) :
    Parses c (c.leafFrom inp o start stop element hidden recovered) := by
  have hleaf : Parses c { c with
      toTrackedParseContext :=
        c.toTrackedParseContext.leaf start stop element hidden recovered } :=
    ⟨rfl, rfl, leavesGrow_leaf start stop element hidden recovered, appends_leaf _ _ _ _ _ _, id⟩
  exact hleaf.trans (quiet_afterTrackedLeaf (hc.of_config hleaf.config) _ _ _).parses

theorem advances_recordInsert (c : RecoveryContext) (entry : SyntaxScriptEntry)
    (replaying : Bool) : Advances false c (c.recordInsert o entry replaying) := by
  have hadd := advances_add c entry
  have hstate := hadd.parses
    (quiet_nonDeleteEditState ParseDiagnosticKind.inserted.default_edit_cost).parses
  have hconsume := hstate.parses
    (Quiet.parses (quiet_ite (p := replaying = true) quiet_consume .refl))
  exact hconsume.parses (quiet_noteReplay .inserted).parses

theorem advances_insertSynthetic (element : Option GrammarElement) :
    Advances false c (c.insertSynthetic inp o element).1 := by
  fun_cases insertSynthetic inp o c element with
  | case1 | case2 => exact Quiet.refl.parses.advances
  | case3 => exact quiet_clear.parses.advances
  | case4 => exact quiet_clear.advances (advances_recordInsert _ _ _)

theorem advances_insertSyntheticGapAt (position : ℕ) (message : String) :
    Advances false c (c.insertSyntheticGapAt inp o position message).1 := by
  fun_cases insertSyntheticGapAt inp o c position message with
  | case1 | case2 => exact Quiet.refl.parses.advances
  | case3 => exact quiet_clear.parses.advances
  | case4 => exact quiet_clear.advances (advances_recordInsert _ _ _)

theorem parses_extendLastDelete (hc : c.Configured) :
    Parses c (c.extendLastDeleteThroughHiddenTrivia inp o).1 := by
  fun_cases extendLastDeleteThroughHiddenTrivia inp o c with
  | case1 | case2 => exact Quiet.refl.parses
  | case3 | case4 => exact quiet_clear.parses
  | case5 _ committedDelete _ cleared _ hiddenEnd hgoes bridged =>
    have hbridge : Quiet c { cleared with
        deleteBridge := ⟨some cleared.cursor, some hiddenEnd⟩
        cursor := hiddenEnd
        maxCursor := max cleared.maxCursor hiddenEnd } := by
      refine ⟨rfl, rfl, fun _ => ?_⟩
      rintro start stop ⟨⟩
      simp only [Bool.or_eq_true, decide_eq_true_eq, not_or, Nat.not_le] at hgoes
      exact hgoes.1.1
    have hrefresh := hbridge.trans (@quiet_refresh inp _ (hbridge.configured hc))
    exact (hrefresh.trans (quiet_ite quiet_advance .refl)).parses

theorem advances_replaceLeaf (hc : c.Configured) (stop : ℕ) (element : GrammarElement)
    (replacementCost : UInt32) (hidden : Bool) (fuzzyOperationDistance : UInt32) :
    Advances false c
      (c.replaceLeaf inp o stop element replacementCost hidden fuzzyOperationDistance).1 := by
  fun_cases replaceLeaf inp o c stop element replacementCost hidden fuzzyOperationDistance with
  | case1 => exact Quiet.refl.parses.advances
  | case2 | case3 | case4 => exact quiet_clear.parses.advances
  | case5 _ cleared _ replaying _ _ entry =>
    have hadd := quiet_clear.advances (advances_add c.clearPendingDeleteHiddenTriviaBridge entry)
    have hstate := hadd.parses (quiet_nonDeleteEditState replacementCost).parses
    have hconsume := hstate.parses
      (Quiet.parses (quiet_ite (p := replaying = true) quiet_consume .refl))
    have hnote := hconsume.parses (quiet_noteReplay (o := o) .replaced).parses
    exact hnote.parses (parses_leafFrom (hnote.configured hc) _ _ _ _ _)

/-- What a bridge that fits says of the last entry. -/
theorem pending_spec (h : c.pendingHiddenTriviaDeleteEdit.2 = true) :
    c.pendingHiddenTriviaDeleteEdit.1 = c ∧ ∃ lastEdit,
      lastEdit.kind = .deleted ∧ c.recoveryEdits.getLast? = some lastEdit ∧
        c.deleteBridge = ⟨some lastEdit.endOffset, some c.cursor⟩ := by
  revert h
  fun_cases pendingHiddenTriviaDeleteEdit c with
  | case1 | case2 | case3 | case5 => exact nofun
  | case4 start stop hbridge hstop lastEdit hlast hends =>
    intro _
    simp only [not_or, ne_eq, not_not] at hends hstop
    exact ⟨rfl, lastEdit, hends.1, hlast, by rw [hbridge, hends.2, hstop]⟩

theorem advances_recordDelete_false (stop : ℕ) : Advances false c (c.recordDelete false stop) :=
  advances_add c _

/-- A bridged deletion moves the end of the last entry on. -/
theorem advances_recordDelete_true {lastEdit : SyntaxScriptEntry} {stop : ℕ}
    (hlast : c.recoveryEdits.getLast? = some lastEdit) (hstop : lastEdit.endOffset < stop) :
    Advances true c (c.recordDelete true stop) := by
  refine ⟨rfl, ?_, .of_eq rfl rfl rfl, .refl _, (fun _ _ _ h => nomatch h)⟩
  obtain ⟨edits, hedits⟩ := List.getLast?_eq_some_iff.mp hlast
  show EditsGrow true c.recoveryEdits (c.recoveryEdits.modifyLast _)
  rw [hedits, List.modifyLast_concat]
  exact .merge edits lastEdit hstop

/-- After the entry is recorded the context goes past the deletion. -/
theorem parses_passDeleted (hc : c.Configured) (stop : ℕ) (replaying : Bool) :
    Parses c (c.passDeleted inp o stop replaying) := by
  unfold passDeleted
  have hmove : Quiet c { c with cursor := stop, maxCursor := max c.maxCursor stop } :=
    ⟨rfl, rfl, id⟩
  have hmoved := hmove.configured hc
  have hgo : Parses { c with cursor := stop, maxCursor := max c.maxCursor stop }
      (if o.skipAfterDelete then
        { c with cursor := stop, maxCursor := max c.maxCursor stop }.skip inp o
      else
        { c with cursor := stop, maxCursor := max c.maxCursor stop }.refreshRecoveryPhase inp) := by
    split
    · exact parses_skip hmoved
    · exact (quiet_refresh hmoved).parses
  exact (hmove.parses.trans hgo).trans (quiet_ite quiet_advance .refl).parses

/-- A deletion that is refused is not merged, and at most clears the bridge. -/
theorem advances_of_refused {op : RecoveryOp} (hno : c.merges inp o op = false)
    (h : Quiet c c') : Advances (c.merges inp o op) c c' :=
  hno ▸ h.parses.advances

theorem advances_deleteOneCodepoint (hc : c.Configured) (hb : c.Bridged) :
    Advances (c.merges inp o .deleteOneCodepoint) c (c.deleteOneCodepoint inp o).1 := by
  have hspec := c.pending_spec
  have hquiet := c.quiet_pending
  fun_cases deleteOneCodepoint inp o c with
  | case1 htrack =>
    refine advances_of_refused ?_ .refl
    simp_all [merges]
  | case2 htrack hend =>
    refine advances_of_refused ?_ quiet_clear
    simp [merges, Nat.not_lt.mpr hend]
  | case3 htrack hend committed hpending =>
    refine advances_of_refused ?_ quiet_clear
    simp_all [merges, committed]
  | case4 htrack hend committed hpending d merged hd hrefused =>
    rw [hd] at hspec hquiet
    refine advances_of_refused ?_ (hquiet.trans quiet_clear)
    rcases merged with - | -
    · simp [merges, hd]
    · have hsame : d = c := (hspec rfl).1
      simp_all [merges]
  | case5 htrack hend committed hpending d merged hd hadmits deletedEnd hstays =>
    rw [hd] at hspec hquiet
    refine advances_of_refused ?_ (hquiet.trans quiet_clear)
    rcases merged with - | -
    · simp [merges, hd]
    · have hsame : d = c := (hspec rfl).1
      simp_all [merges, deletedEnd]
  | case6 htrack hend committed hpending d merged hd hadmits deletedEnd hgoes recorded noted =>
    rw [hd] at hspec hquiet
    have hrecord : Advances (c.merges inp o .deleteOneCodepoint) c
        (d.recordDelete merged deletedEnd) := by
      rcases merged with - | -
      · rw [show c.merges inp o .deleteOneCodepoint = false by simp [merges, hd]]
        exact hquiet.advances (advances_recordDelete_false deletedEnd)
      · obtain ⟨hsame, lastEdit, -, hlast, hbridge⟩ := hspec rfl
        obtain rfl : d = c := hsame
        have hstart : lastEdit.endOffset < d.cursor := hb _ _ hbridge
        have hmerges : d.merges inp o .deleteOneCodepoint = true := by
          have hallowed : d.hasPendingCommittedRecoveryEdits = false ∨
              (d.matching_committed_delete d.cursor).isSome := by
            cases h : d.hasPendingCommittedRecoveryEdits with
            | false => exact .inl rfl
            | true => right; simpa [h, committed, Option.isSome_iff_ne_none] using hpending
          simp_all [merges, deletedEnd]
        rw [hmerges]
        exact advances_recordDelete_true hlast (Nat.lt_trans hstart (Nat.not_le.mp hgoes))
    have hnoted := (hrecord.parses (quiet_deleteEditState
      ParseDiagnosticKind.deleted.default_edit_cost).parses).parses
        (quiet_noteReplay (o := o) .deleted).parses
    exact hnoted.parses (parses_passDeleted (hnoted.configured hc) _ _)

/-! ### One operation -/

/-- What every operation does to the configuration, the edits and the leaves. -/
structure Grows (merged : Bool) (c c' : RecoveryContext) : Prop where
  config : c'.config = c.config
  edits : EditsGrow merged c.recoveryEdits c'.recoveryEdits
  leaves : LeavesGrow c c'
  bridged : c.Bridged → c'.Bridged

theorem Advances.grows {merged : Bool} (h : Advances merged c c') : Grows merged c c' :=
  ⟨h.config, h.edits, h.leaves, h.bridged⟩

/-- Opening, closing or renaming a node records nothing. -/
theorem Grows.of_node (hconfig : c'.config = c.config) (hedits : c'.recoveryEdits = c.recoveryEdits)
    (hleaves : c'.failureRecorder = c.failureRecorder)
    (hbridge : c'.deleteBridge = c.deleteBridge) :
    Grows false c c' where
  config := hconfig
  edits := by
    rw [hedits]
    simpa using EditsGrow.add c.recoveryEdits []
  leaves := .of_eq (congrArg (·.2.2.2.1) hconfig) (by rw [hleaves]) (by rw [hleaves])
  bridged h := by rwa [Bridged, hbridge]

/-- The step of the tree builder that an operation takes. -/
def TreeStep (op : RecoveryOp) (b b' : CstBuilder GrammarElement) : Prop :=
  match op with
  | .enter => b' = b.enter
  | .exit checkpoint element => ∃ stop, b' = b.exit checkpoint stop element
  | .overrideGrammarElement id element => b' = b.overrideGrammarElement id element
  | _ => Appends b b'

/-- **One operation**: it grows the record, and takes a step of the tree builder. -/
theorem apply_spec (hc : c.Configured) (hb : c.Bridged) (op : RecoveryOp) :
    Grows (c.merges inp o op) c (c.apply inp o op) ∧
      TreeStep op c.builder (c.apply inp o op).builder := by
  have advances {merged : Bool} {d : RecoveryContext} (h : Advances merged c d) :
      Grows merged c d ∧ Appends c.builder d.builder := ⟨h.grows, h.nodes⟩
  cases op with
  | skip => exact advances (parses_skip hc).advances
  | leaf start stop element hidden recovered =>
    exact advances (parses_leafFrom hc start stop element hidden recovered).advances
  | enter => exact ⟨.of_node rfl rfl rfl rfl, rfl⟩
  | exit checkpoint element =>
    show Grows false c (c.exit o checkpoint element) ∧
      ∃ stop, (c.exit o checkpoint element).builder = _
    unfold exit
    dsimp only
    split
    · exact ⟨.of_node rfl rfl rfl rfl, _, rfl⟩
    · exact ⟨.of_node rfl rfl rfl rfl, _, rfl⟩
  | overrideGrammarElement id element => exact ⟨.of_node rfl rfl rfl rfl, rfl⟩
  | insertSynthetic element => exact advances (advances_insertSynthetic element)
  | insertSyntheticGapAt position message =>
    exact advances (advances_insertSyntheticGapAt position message)
  | deleteOneCodepoint => exact advances (advances_deleteOneCodepoint hc hb)
  | extendLastDeleteThroughHiddenTrivia => exact advances (parses_extendLastDelete hc).advances
  | replaceLeaf stop element cost hidden distance =>
    exact advances (advances_replaceLeaf hc stop element cost hidden distance)
  | clearFrontierBlock | blockFrontier | allowBudgetOverflowEdits | restoreMaxCursor
  | bumpMaxCursor | bumpFurthestFailureHistorySize | bumpFurthestFailureOffset =>
    exact advances (Parses.advances (Quiet.parses ⟨rfl, rfl, id⟩))
  | finalizeRecoveryAtEof => exact advances quiet_finalize.parses.advances

end RecoveryContext

/-! ### The edits a mark counts -/

/-- The entries counted by a mark that kept `taken`: as they were, or, if one of
them was extended, with an end that has moved on. -/
structure EditsKept (extended : Bool) (taken edits : List SyntaxScriptEntry) : Prop where
  length : taken.length ≤ edits.length
  kept : extended = false → edits.take taken.length = taken
  moved : extended = true → ∃ (i : ℕ) (entry entry' : SyntaxScriptEntry),
    taken[i]? = some entry ∧ edits[i]? = some entry' ∧ entry.endOffset < entry'.endOffset

namespace EditsKept

variable {extended merged : Bool} {taken edits edits' : List SyntaxScriptEntry}

theorem refl (edits : List SyntaxScriptEntry) : EditsKept false edits edits :=
  ⟨Nat.le_refl _, fun _ => List.take_length, fun h => absurd h Bool.false_ne_true⟩

theorem restored_iff (h : EditsKept extended taken edits) :
    edits.take taken.length = taken ↔ extended = false := by
  refine ⟨fun heq => ?_, h.kept⟩
  rcases extended with - | -
  · rfl
  obtain ⟨i, entry, entry', htaken, hedits, hlt⟩ := h.moved rfl
  obtain ⟨hi, -⟩ := List.getElem?_eq_some_iff.mp htaken
  have hsame : edits[i]? = some entry := by
    rw [← List.getElem?_take_of_lt hi, heq, htaken]
  rw [hedits] at hsame
  cases hsame
  exact absurd hlt (Nat.lt_irrefl _)

/-- A rewind to a younger mark cuts behind the counted entries. -/
theorem cut (h : EditsKept extended taken edits) {n : ℕ} (hn : taken.length ≤ n) :
    EditsKept extended taken (edits.take n) where
  length := by
    rw [List.length_take]
    exact Nat.le_min.mpr ⟨hn, h.length⟩
  kept hext := by rw [List.take_take, Nat.min_eq_left hn, h.kept hext]
  moved hext := by
    obtain ⟨i, entry, entry', htaken, hedits, hlt⟩ := h.moved hext
    obtain ⟨hi, -⟩ := List.getElem?_eq_some_iff.mp htaken
    refine ⟨i, entry, entry', htaken, ?_, hlt⟩
    rw [List.getElem?_take_of_lt (Nat.lt_of_lt_of_le hi hn), hedits]

/-- New entries come after the counted ones. -/
theorem add (h : EditsKept extended taken edits) (new : List SyntaxScriptEntry) :
    EditsKept extended taken (edits ++ new) where
  length := by
    rw [List.length_append]
    exact Nat.le_trans h.length (Nat.le_add_right _ _)
  kept hext := by rw [List.take_append_of_le_length h.length, h.kept hext]
  moved hext := by
    obtain ⟨i, entry, entry', htaken, hedits, hlt⟩ := h.moved hext
    refine ⟨i, entry, entry', htaken, ?_, hlt⟩
    rw [List.getElem?_append_left (List.getElem?_eq_some_iff.mp hedits).1, hedits]

/-- The end of an entry that is not counted moves. -/
theorem merge_after {lastEdit lastEdit' : SyntaxScriptEntry}
    (h : EditsKept extended taken (edits ++ [lastEdit])) (hlt : taken.length ≤ edits.length) :
    EditsKept extended taken (edits ++ [lastEdit']) := by
  refine EditsKept.add ?_ [lastEdit']
  simpa [List.take_append_of_le_length] using h.cut hlt

/-- The end of the last counted entry moves. -/
theorem merge_last {lastEdit : SyntaxScriptEntry} {stop : ℕ}
    (h : EditsKept extended taken (edits ++ [lastEdit]))
    (hlength : taken.length = (edits ++ [lastEdit]).length) (hstop : lastEdit.endOffset < stop) :
    EditsKept true taken (edits ++ [{ lastEdit with endOffset := stop }]) where
  length := by
    rw [hlength]
    simp
  kept := nofun
  moved _ := by
    rcases extended with - | -
    · have htaken := h.kept rfl
      rw [hlength, List.take_length] at htaken
      exact ⟨edits.length, lastEdit, { lastEdit with endOffset := stop }, by simp [← htaken],
        by simp, hstop⟩
    · obtain ⟨i, entry, entry', htaken, hedits, hlt⟩ := h.moved rfl
      rcases Nat.lt_or_ge i edits.length with hi | hi
      · refine ⟨i, entry, entry', htaken, ?_, hlt⟩
        rw [List.getElem?_append_left hi] at hedits ⊢
        exact hedits
      · have hlast : i = edits.length := by
          have hbound := (List.getElem?_eq_some_iff.mp hedits).1
          simp only [List.length_append, List.length_singleton] at hbound
          exact Nat.le_antisymm (Nat.lt_succ_iff.mp hbound) hi
        subst hlast
        have hentry : lastEdit = entry' := by simpa using hedits
        exact ⟨edits.length, entry, { lastEdit with endOffset := stop }, htaken, by simp,
          Nat.lt_trans (hentry ▸ hlt) hstop⟩

theorem grow (h : EditsKept extended taken edits)
    (hg : RecoveryContext.EditsGrow merged edits edits') :
    EditsKept (extended || (merged && edits.length == taken.length)) taken edits' := by
  cases hg with
  | add _ new => simpa using h.add new
  | merge front lastEdit hstop =>
    by_cases hlength : taken.length = (front ++ [lastEdit]).length
    · have hflag : (extended || (true && (front ++ [lastEdit]).length == taken.length)) = true := by
        simp [hlength]
      rw [hflag]
      exact h.merge_last hlength hstop
    · have hshort : taken.length ≤ front.length := by
        have hle := h.length
        rw [List.length_append, List.length_singleton] at hle hlength
        exact Nat.lt_succ_iff.mp (Nat.lt_of_le_of_ne hle hlength)
      have hflag : (extended || (true && (front ++ [lastEdit]).length == taken.length))
        = extended := by
        simp
        omega
      rw [hflag]
      exact h.merge_after hshort

end EditsKept

/-! ### The invariant of a session -/

namespace RecoveryMark

/-- What a live mark can rely on, the nodes aside. -/
structure Keeps (c : RecoveryContext) (m : RecoveryMark) : Prop where
  checkpoint : m.checkpoint = m.taken.mark
  bridged : m.taken.Bridged
  config : c.config = m.taken.config
  edits : EditsKept m.extended m.taken.recoveryEdits c.recoveryEdits
  le : m.taken.failureRecorder.currentVisibleLeafCount
    ≤ c.failureRecorder.currentVisibleLeafCount
  leaves : c.failureRecorder.visibleLeaves.take m.taken.failureRecorder.currentVisibleLeafCount
    = m.taken.failureRecorder.visibleLeaves.take m.taken.failureRecorder.currentVisibleLeafCount
  silent : m.taken.recordFailureHistory = false →
    c.failureRecorder.currentVisibleLeafCount = m.taken.failureRecorder.currentVisibleLeafCount

variable {c c' : RecoveryContext} {m : RecoveryMark}

theorem Keeps.history (h : m.Keeps c) : c.recordFailureHistory = m.taken.recordFailureHistory :=
  congrArg (·.2.2.2.1) h.config

theorem Keeps.grow (h : m.Keeps c) {merged : Bool} (hc : c.Counted)
    (hg : RecoveryContext.Grows merged c c') : (m.note c merged).Keeps c' where
  checkpoint := h.checkpoint
  bridged := h.bridged
  config := hg.config.trans h.config
  edits := h.edits.grow hg.edits
  le := Nat.le_trans h.le hg.leaves.le
  leaves := by
    have hlater := congrArg (List.take m.taken.failureRecorder.currentVisibleLeafCount)
      (hg.leaves.take hc)
    rw [List.take_take, List.take_take, Nat.min_eq_left h.le] at hlater
    exact hlater.trans h.leaves
  silent hs := (hg.leaves.silent (h.history.trans hs)).trans (h.silent hs)

/-- The array of leaves is not cut by a rewind. -/
theorem visibleLeaves_rewind (c : RecoveryContext) (checkpoint : RecoveryContext.Checkpoint) :
    (c.rewind checkpoint).failureRecorder.visibleLeaves = c.failureRecorder.visibleLeaves := by
  show (if checkpoint.parseCheckpoint.recordFailureHistory then
    c.failureRecorder.rewind checkpoint.parseCheckpoint.failureHistorySize
    else c.failureRecorder).visibleLeaves = _
  split
  · rfl
  · rfl

/-- **A rewind restores everything but the counted edits**: these are left as
they stand. -/
theorem Keeps.forgetFurthest_rewind (h : m.Keeps c)
    (hnodes : c.builder.rewind m.taken.builder.mark = m.taken.builder) :
    (c.rewind m.checkpoint).forgetFurthest
      = { m.taken.forgetFurthest with
          recoveryEdits := c.recoveryEdits.take m.taken.recoveryEdits.length } := by
  have hconfig := h.config
  simp only [RecoveryContext.config, Prod.mk.injEq] at hconfig
  obtain ⟨hcommitted, hresume, hfloor, hhistory, hwindow⟩ := hconfig
  have hreplay : (c.editWindow.map fun w => { w with replayForwardTokenCount :=
      (m.taken.editWindow.map EditWindow.replayForwardTokenCount).getD 0 })
        = m.taken.editWindow := by
    rcases hc : c.editWindow with - | w <;> rcases ht : m.taken.editWindow with - | w' <;>
      simp_all
  have hedits : (c.rewind m.taken.mark).recoveryEdits
      = c.recoveryEdits.take m.taken.recoveryEdits.length := by
    unfold RecoveryContext.rewind RecoveryContext.mark
    dsimp only
    split
    · rfl
    next heq => rw [← not_not.mp heq, List.take_length]
  have hcount : (c.rewind m.taken.mark).failureRecorder.currentVisibleLeafCount
      = m.taken.failureRecorder.currentVisibleLeafCount := by
    rcases hrecord : m.taken.recordFailureHistory with - | -
    · simpa [RecoveryContext.rewind, RecoveryContext.mark, TrackedParseContext.rewind,
        TrackedParseContext.mark, hrecord] using h.silent hrecord
    · simp [RecoveryContext.rewind, RecoveryContext.mark, TrackedParseContext.rewind,
        TrackedParseContext.mark, hrecord, FailureHistoryRecorder.rewind]
  rw [h.checkpoint]
  unfold RecoveryContext.forgetFurthest
  rw [hedits, hcount, visibleLeaves_rewind, h.leaves]
  simp only [RecoveryContext.rewind, RecoveryContext.mark, TrackedParseContext.rewind,
    TrackedParseContext.mark, ParseContext.rewind, ParseContext.mark, hcommitted, hresume, hfloor,
    hreplay, hnodes]

/-- An older mark outlives the rewind to a younger one. -/
theorem Keeps.rewind {old : RecoveryMark} (h : m.Keeps c) (hold : old.Keeps c)
    (hnodes : c.builder.rewind m.taken.builder.mark = m.taken.builder)
    (hedits : old.taken.recoveryEdits.length ≤ m.taken.recoveryEdits.length)
    (hcount : old.taken.failureRecorder.currentVisibleLeafCount
      ≤ m.taken.failureRecorder.currentVisibleLeafCount) :
    old.Keeps (c.rewind m.checkpoint) := by
  have hrestored := h.forgetFurthest_rewind hnodes
  have hback : (c.rewind m.checkpoint).failureRecorder.currentVisibleLeafCount
      = m.taken.failureRecorder.currentVisibleLeafCount :=
    congrArg (·.failureRecorder.currentVisibleLeafCount) hrestored
  have hsilent : old.taken.recordFailureHistory = false →
      m.taken.failureRecorder.currentVisibleLeafCount
        = old.taken.failureRecorder.currentVisibleLeafCount := fun hs => by
    rw [← h.silent (h.history.symm.trans (hold.history.trans hs)), hold.silent hs]
  refine ⟨hold.checkpoint, hold.bridged, ?_, ?_, hback ▸ hcount, ?_, fun hs => hback ▸ hsilent hs⟩
  · have hconfig : (c.rewind m.checkpoint).config = m.taken.config :=
      congrArg (·.config) hrestored
    rw [hconfig, ← h.config, hold.config]
  · have hcut : (c.rewind m.checkpoint).recoveryEdits
        = c.recoveryEdits.take m.taken.recoveryEdits.length :=
      congrArg (·.recoveryEdits) hrestored
    exact hcut ▸ hold.edits.cut hedits
  · rw [visibleLeaves_rewind, hold.leaves]

end RecoveryMark

namespace RecoverySession

/-- The builder has grown since each mark, and the marks are nested. -/
def Nested : TreeBuilder GrammarElement → List RecoveryMark → Prop
  | _, [] => True
  | tb, m :: marks =>
    ∃ mtb : TreeBuilder GrammarElement, m.taken.builder = mtb.toCstBuilder ∧ mtb.Extends tb ∧
      Nested mtb marks

variable {tb tb' : TreeBuilder GrammarElement} {marks : List RecoveryMark}

theorem Nested.mono (h : Nested tb marks) (ht : tb.Extends tb') : Nested tb' marks := by
  cases marks with
  | nil => trivial
  | cons m marks =>
    obtain ⟨mtb, hm, hext, hrest⟩ := h
    exact ⟨mtb, hm, hext.trans ht, hrest⟩

/-- The marks that outlive a step are nested in the builder after it. -/
theorem Nested.filter {p : RecoveryMark → Bool} (h : Nested tb marks)
    (step : ∀ m (mtb : TreeBuilder GrammarElement), p m → m.taken.builder = mtb.toCstBuilder →
      mtb.Extends tb → mtb.Extends tb') : Nested tb' (marks.filter p) := by
  induction marks generalizing tb tb' with
  | nil => trivial
  | cons m marks ih =>
    obtain ⟨mtb, hm, hext, hrest⟩ := h
    rw [List.filter_cons]
    split
    next hp => exact ⟨mtb, hm, step m mtb hp hm hext, ih hrest fun _ _ _ _ h => h⟩
    next => exact ih (hrest.mono hext) step

theorem Nested.map {f : RecoveryMark → RecoveryMark} (hf : ∀ m, (f m).taken = m.taken)
    (h : Nested tb marks) : Nested tb (marks.map f) := by
  induction marks generalizing tb with
  | nil => trivial
  | cons m marks ih =>
    obtain ⟨mtb, hm, hext, hrest⟩ := h
    exact ⟨mtb, (congrArg (·.builder) (hf m)).trans hm, hext, ih hrest⟩

theorem Nested.drop {k : ℕ} {m : RecoveryMark} (h : Nested tb marks) (hk : marks[k]? = some m) :
    ∃ mtb : TreeBuilder GrammarElement, m.taken.builder = mtb.toCstBuilder ∧ mtb.Extends tb ∧
      Nested mtb (marks.drop k) := by
  induction k generalizing tb marks with
  | zero =>
    cases marks with
    | nil => cases hk
    | cons m' marks =>
      cases hk
      obtain ⟨mtb, hm, hext, hrest⟩ := h
      exact ⟨mtb, hm, hext, mtb, hm, .refl _, hrest⟩
  | succ k ih =>
    cases marks with
    | nil => cases hk
    | cons m' marks =>
      obtain ⟨mtb, -, hext, hrest⟩ := h
      exact ih (hrest.mono hext) hk

variable {inp : RecoveryInput} {o : RecoveryOptions} {c : RecoveryContext}

/-- The tree builder steps along, under every mark that outlives the operation. -/
theorem exists_treeStep {op : RecoveryOp} {b' : CstBuilder GrammarElement}
    (hb : c.builder = tb.toCstBuilder) (h : RecoveryContext.TreeStep op c.builder b') :
    ∃ tb' : TreeBuilder GrammarElement, b' = tb'.toCstBuilder ∧
      ∀ m (mtb : TreeBuilder GrammarElement), RecoveryMark.outlives c m op →
        m.taken.builder = mtb.toCstBuilder → mtb.Extends tb → mtb.Extends tb' := by
  have appends : RecoveryContext.Appends c.builder b' → ∃ tb' : TreeBuilder GrammarElement,
      b' = tb'.toCstBuilder ∧ ∀ mtb : TreeBuilder GrammarElement,
        mtb.Extends tb → mtb.Extends tb' := by
    intro happ
    obtain ⟨f, hf⟩ := happ tb hb
    exact ⟨_, hf, fun _ hext => hext.append f⟩
  cases op with
  | enter =>
    refine ⟨tb.enter, ?_, fun _ _ _ _ hext => hext.enter⟩
    rw [show b' = c.builder.enter from h, hb, TreeBuilder.toCstBuilder_enter]
  | exit checkpoint element =>
    obtain ⟨stop, rfl⟩ := h
    refine ⟨tb.exit checkpoint stop element, ?_, fun m mtb hlive hm hext => ?_⟩
    · rw [hb, TreeBuilder.toCstBuilder_exit]
    · refine hext.exit ?_ _ _ _
      simpa [RecoveryMark.outlives, hm, hb] using hlive
  | overrideGrammarElement id element =>
    refine ⟨tb.overrideGrammarElement id element, ?_, fun m mtb hlive hm hext => ?_⟩
    · rw [show b' = c.builder.overrideGrammarElement id element from h, hb,
        TreeBuilder.toCstBuilder_override]
    · refine hext.override ?_ _
      simpa [RecoveryMark.outlives, hm] using hlive
  | _ =>
    obtain ⟨tb', hb', hext⟩ := appends h
    exact ⟨tb', hb', fun _ mtb _ _ => hext mtb⟩

/-- **The invariant of a session.** -/
structure Tracks (s : RecoverySession) : Prop where
  configured : s.context.Configured
  bridged : s.context.Bridged
  counted : s.context.Counted
  keeps : ∀ m ∈ s.marks, m.Keeps s.context
  ordered : s.marks.Pairwise fun young old =>
    old.taken.recoveryEdits.length ≤ young.taken.recoveryEdits.length ∧
      old.taken.failureRecorder.currentVisibleLeafCount
        ≤ young.taken.failureRecorder.currentVisibleLeafCount
  nested : ∃ tb : TreeBuilder GrammarElement, s.context.builder = tb.toCstBuilder ∧
    Nested tb s.marks

variable {s s' : RecoverySession}

theorem Tracks.run (h : s.Tracks) (o : RecoveryOptions) (op : RecoveryOp) :
    Tracks
      { context := s.context.apply inp o op
        marks := (s.marks.filter (·.outlives s.context op)).map
          (·.note s.context (s.context.merges inp o op)) } := by
  obtain ⟨hgrows, htree⟩ :=
    @RecoveryContext.apply_spec inp o _ h.configured h.bridged op
  obtain ⟨tb, hb, hnested⟩ := h.nested
  obtain ⟨tb', hb', hstep⟩ := exists_treeStep hb htree
  refine ⟨h.configured.of_config hgrows.config, hgrows.bridged h.bridged,
    hgrows.leaves.counted h.counted, ?_, ?_, tb', hb', ?_⟩
  · intro m hm
    obtain ⟨m₀, hm₀, rfl⟩ := List.mem_map.mp hm
    exact (h.keeps m₀ (List.mem_filter.mp hm₀).1).grow h.counted hgrows
  · exact List.pairwise_map.mpr (h.ordered.filter _)
  · exact (hnested.filter hstep).map fun _ => rfl

theorem Tracks.mark (h : s.Tracks) :
    Tracks { s with marks := ⟨s.context.mark, s.context, false⟩ :: s.marks } := by
  obtain ⟨tb, hb, hnested⟩ := h.nested
  refine ⟨h.configured, h.bridged, h.counted, ?_, ?_, tb, hb, tb, hb, .refl tb, hnested⟩
  · rintro m (- | ⟨-, hm⟩)
    · exact ⟨rfl, h.bridged, rfl, .refl _, Nat.le_refl _, rfl, fun _ => rfl⟩
    · exact h.keeps m hm
  · exact List.pairwise_cons.mpr ⟨fun m hm => ⟨(h.keeps m hm).edits.length, (h.keeps m hm).le⟩,
      h.ordered⟩

theorem Tracks.rewind_builder (h : s.Tracks) {k : ℕ} {m : RecoveryMark}
    (hk : s.marks[k]? = some m) :
    s.context.builder.rewind m.taken.builder.mark = m.taken.builder := by
  obtain ⟨tb, hb, hnested⟩ := h.nested
  obtain ⟨mtb, hm, hext, -⟩ := hnested.drop hk
  rw [hb, hm, TreeBuilder.rewind_toCstBuilder hext]

theorem Tracks.rewind (h : s.Tracks) {k : ℕ} {m : RecoveryMark} (hk : s.marks[k]? = some m) :
    Tracks ⟨s.context.rewind m.checkpoint, s.marks.drop k⟩ := by
  have hmem : m ∈ s.marks := List.mem_of_getElem? hk
  have hkeeps := h.keeps m hmem
  have hnodes := h.rewind_builder hk
  have hrestored := hkeeps.forgetFurthest_rewind hnodes
  have hdrop : s.marks.drop k = m :: s.marks.drop (k + 1) := by
    obtain ⟨hlt, rfl⟩ := List.getElem?_eq_some_iff.mp hk
    exact List.drop_eq_getElem_cons hlt
  have hordered := h.ordered.drop (i := k)
  have holder := hordered
  rw [hdrop, List.pairwise_cons] at holder
  obtain ⟨tb, hb, hnested⟩ := h.nested
  obtain ⟨mtb, hm, hext, hrest⟩ := hnested.drop hk
  refine ⟨?_, ?_, ?_, ?_, hordered, mtb, ?_, hrest⟩
  · have hconfig : (s.context.rewind m.checkpoint).config = m.taken.config :=
      congrArg (·.config) hrestored
    exact h.configured.of_config (hconfig.trans hkeeps.config.symm)
  · have hbridge : (s.context.rewind m.checkpoint).deleteBridge = m.taken.deleteBridge :=
      congrArg (·.deleteBridge) hrestored
    intro start stop hpending
    exact hkeeps.bridged start stop (hbridge ▸ hpending)
  · have hback : (s.context.rewind m.checkpoint).failureRecorder.currentVisibleLeafCount
        = m.taken.failureRecorder.currentVisibleLeafCount :=
      congrArg (·.failureRecorder.currentVisibleLeafCount) hrestored
    unfold RecoveryContext.Counted
    rw [hback, RecoveryMark.visibleLeaves_rewind]
    exact Nat.le_trans hkeeps.le h.counted
  · intro old hold
    have hold' := h.keeps old (List.mem_of_mem_drop hold)
    rw [hdrop] at hold
    rcases List.mem_cons.mp hold with rfl | hold
    · exact hkeeps.rewind hold' hnodes (Nat.le_refl _) (Nat.le_refl _)
    · exact hkeeps.rewind hold' hnodes (holder.1 old hold).1 (holder.1 old hold).2
  · exact (congrArg (·.builder) hrestored).trans hm

theorem Tracks.call (h : s.Tracks) {e : RecoveryCall} (hs : s.call inp e = some s') :
    s'.Tracks := by
  cases e with
  | run o op =>
    simp only [RecoverySession.call, Option.ite_none_right_eq_some, Option.some.injEq] at hs
    obtain ⟨-, rfl⟩ := hs
    exact h.run o op
  | mark =>
    cases hs
    exact h.mark
  | rewind k =>
    simp only [RecoverySession.call] at hs
    split at hs
    next m hk =>
      cases hs
      exact h.rewind hk
    next => cases hs

theorem configured_of_fresh (h : c.Fresh) : c.Configured := by
  induction h with
  | initial => exact fun _ h => nomatch h
  | @setEditWindow c window h ih =>
    intro w hw
    have hwindow : window = some w := hw
    simp [RecoveryContext.setEditWindow, hwindow]
  | setCommittedRecoveryPrefix edits resumeFloor h ih => exact ih

theorem bridged_of_fresh (h : c.Fresh) : c.Bridged := by
  induction h with
  | initial => exact fun _ _ h => nomatch h
  | setEditWindow window h ih => exact fun _ _ h => nomatch h
  | setCommittedRecoveryPrefix edits resumeFloor h ih => exact ih

/-- Configuring a context parses nothing. -/
theorem parsed_of_fresh (h : c.Fresh) :
    c.builder = .empty ∧ c.failureRecorder.currentVisibleLeafCount = 0 := by
  induction h with
  | initial => exact ⟨rfl, rfl⟩
  | setEditWindow window h ih => exact ih
  | setCommittedRecoveryPrefix edits resumeFloor h ih => exact ih

theorem tracks_of_fresh (h : c.Fresh) : Tracks ⟨c, []⟩ where
  configured := configured_of_fresh h
  bridged := bridged_of_fresh h
  counted := by
    rw [RecoveryContext.Counted, (parsed_of_fresh h).2]
    exact Nat.zero_le _
  keeps _ hm := absurd hm List.not_mem_nil
  ordered := .nil
  nested := ⟨.empty, (parsed_of_fresh h).1.trans TreeBuilder.toCstBuilder_empty.symm, trivial⟩

theorem tracks_of_reaches (h : c.Fresh)
    (hs : (recoveryMachine inp).Reaches (fun _ _ => True) ⟨c, []⟩ s) : s.Tracks :=
  hs.invariant (tracks_of_fresh h) fun _ _ _ ht _ hcall => ht.call hcall

/-- **Backtracking is exact up to extended deletions**: in every session, a rewind
to a live mark restores the whole context, what it knows of the furthest point
aside, if and only if no deletion was merged since into an entry that the mark
counts. -/
theorem rewind_restores_iff (h : c.Fresh)
    (hs : (recoveryMachine inp).Reaches (fun _ _ => True) ⟨c, []⟩ s) {m : RecoveryMark}
    (hm : m ∈ s.marks) :
    (s.context.rewind m.checkpoint).forgetFurthest = m.taken.forgetFurthest
      ↔ m.extended = false := by
  have ht := tracks_of_reaches h hs
  have hkeeps := ht.keeps m hm
  obtain ⟨k, hk⟩ := List.mem_iff_getElem?.mp hm
  have hrestored := hkeeps.forgetFurthest_rewind (ht.rewind_builder hk)
  rw [← hkeeps.edits.restored_iff, hrestored]
  constructor
  · exact fun heq => congrArg (·.recoveryEdits) heq
  · intro heq
    rw [heq]
    rfl

/-! ### A deletion that reaches back over a mark -/

/-- A text whose blanks are skipped, without literals. -/
def blankInput : RecoveryInput := ⟨"a b".toUTF8.toList, fun _ => none⟩

/-- The settings of a scan that does not skip after a deletion: the skipper goes
over one blank, without a leaf. -/
def scanOptions : RecoveryOptions where
  skip p := ([], if byteAt blankInput.text p == 32 then p + 1 else p)
  skip_without_builder p := if byteAt blankInput.text p == 32 then p + 1 else p
  skipAfterDelete := false

/-- Delete `a`, go on over the blank, mark, and delete `b`. -/
def scanCalls : List RecoveryCall :=
  [.run scanOptions .deleteOneCodepoint, .run scanOptions .extendLastDeleteThroughHiddenTrivia,
    .mark, .run scanOptions .deleteOneCodepoint]

/-- The deletion of `b` is merged into the entry of `a`, which the mark counts:
the entry ended at 1 when the mark was taken, and ends at 3 after the rewind. -/
theorem exists_scan :
    ∃ (s : RecoverySession) (m : RecoveryMark),
      (recoveryMachine blankInput).Reaches (fun _ _ => True) ⟨.initial, []⟩ s ∧ m ∈ s.marks ∧
        m.extended = true ∧ m.taken.recoveryEdits.map SyntaxScriptEntry.endOffset = [1] ∧
        (s.context.rewind m.checkpoint).recoveryEdits.map SyntaxScriptEntry.endOffset = [3] := by
  have hmarks : ((recoveryMachine blankInput).run ⟨.initial, []⟩ scanCalls).map (fun s =>
      s.marks.map fun m => (m.extended, m.taken.recoveryEdits.map SyntaxScriptEntry.endOffset,
        (s.context.rewind m.checkpoint).recoveryEdits.map SyntaxScriptEntry.endOffset))
      = some [(true, [1], [3])] := by decide +kernel
  obtain ⟨s, hrun, hs⟩ := Option.map_eq_some_iff.mp hmarks
  obtain ⟨m, hmarks, hm⟩ := List.map_eq_singleton_iff.mp hs
  simp only [Prod.mk.injEq] at hm
  exact ⟨s, m, Machine.reaches_of_run hrun (Machine.allowedRun_any _ _), by simp [hmarks], hm⟩

/-- After the scan the mark is extended, and a rewind to it does not restore. -/
theorem rewind_restores_iff_scan :
    ∃ (s : RecoverySession) (m : RecoveryMark), m ∈ s.marks ∧ m.extended = true ∧
      (s.context.rewind m.checkpoint).forgetFurthest ≠ m.taken.forgetFurthest := by
  obtain ⟨s, m, hs, hm, hext, -⟩ := exists_scan
  refine ⟨s, m, hm, hext, fun heq => ?_⟩
  have hno := (rewind_restores_iff .initial hs hm).mp heq
  exact absurd (hext.symm.trans hno) nofun

/-- **A rewind does not restore a deletion that was extended.** -/
theorem not_rewind_restores :
    ¬ ∀ (inp : RecoveryInput) (c : RecoveryContext) (s : RecoverySession) (m : RecoveryMark),
      c.Fresh → (recoveryMachine inp).Reaches (fun _ _ => True) ⟨c, []⟩ s → m ∈ s.marks →
        (s.context.rewind m.checkpoint).forgetFurthest = m.taken.forgetFurthest := by
  intro h
  obtain ⟨s, m, hs, hm, -, htaken, hback⟩ := exists_scan
  have hedits : (s.context.rewind m.checkpoint).recoveryEdits = m.taken.recoveryEdits :=
    congrArg (·.recoveryEdits) (h _ _ _ _ .initial hs hm)
  rw [hedits, htaken] at hback
  exact absurd hback (by decide)

end RecoverySession

end Pegium
