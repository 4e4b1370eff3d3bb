/-
Pegium/Parser/DeleteScan.lean

The guarded delete scans of recovery: delete one codepoint after the other, and at each
place ask a callback whether to go on, to stop, or to accept.

A scan that is not accepted rewinds to where it began, and the guards of the budgets and
of the skipping after a deletion put the settings back on every way out.  The rewind
restores the context unless the first deletion is merged into an entry recorded before
the scan, which takes a bridge that is pending there (`Kept.step`).

The deletions of an accepted scan follow one another up to hidden trivia: what the
skipper or a bridge goes over is not deleted, unless the next deletion is merged over
the bridge (`DeletedRun`).  `guarded_delete_scans` puts both together.
-/
import Pegium.Parser.RecoveryAccounting

namespace Pegium

/-! ### Guards -/

/-- `std::numeric_limits<std::uint32_t>::max()`. -/
def noLimit : UInt32 := 4294967295

/-- A recovery context with its settings, which a scan overrides. -/
structure ScanContext where
  settings : RecoveryOptions
  context : RecoveryContext

/-- The settings to restore behind a scan that may exceed the budget. -/
structure ExtendedDeleteScanBudgetScope where
  savedMaxConsecutiveDeletes : UInt32
  savedMaxEditsPerAttempt : UInt32
  savedMaxEditCost : UInt32
  enabled : Bool := false

/-- A scan at work: the guard of its budgets, the context, and the deletions so far. -/
structure DeleteScan where
  scope : ExtendedDeleteScanBudgetScope
  ctx : ScanContext
  deleteCount : ℕ := 0

/-- The scope over the budgets that are set. -/
def RecoveryOptions.budgetScope (o : RecoveryOptions) : ExtendedDeleteScanBudgetScope where
  savedMaxConsecutiveDeletes := o.maxConsecutiveCodepointDeletes
  savedMaxEditsPerAttempt := o.maxEditsPerAttempt
  savedMaxEditCost := o.maxEditCost

namespace DeleteScan

/-- `none` when the scope is enabled already. -/
def tryEnable (p : DeleteScan) : Option DeleteScan :=
  if p.scope.enabled then none
  else
    some { p with
      ctx.settings.maxConsecutiveCodepointDeletes := noLimit
      ctx.settings.maxEditsPerAttempt := noLimit
      ctx.settings.maxEditCost := noLimit
      scope.enabled := true }

/-- Put the settings back, once. -/
def restore (p : DeleteScan) : DeleteScan :=
  if !p.scope.enabled then p
  else
    { p with
      ctx.settings.maxConsecutiveCodepointDeletes := p.scope.savedMaxConsecutiveDeletes
      ctx.settings.maxEditsPerAttempt := p.scope.savedMaxEditsPerAttempt
      ctx.settings.maxEditCost := p.scope.savedMaxEditCost
      scope.enabled := false }

/-- Keep the edits of the scan although they exceed the budget. -/
def commitOverflowEdits (p : DeleteScan) : DeleteScan :=
  if !p.scope.enabled then p
  else
    let p := p.restore
    { p with ctx.context := p.ctx.context.allowBudgetOverflowEdits }

end DeleteScan

/-! ### Callbacks and options -/

/-- What a visit asks of the scan. -/
inductive DeleteScanVisitResult where
  | Continue
  | Stop
  | Accept
  deriving DecidableEq

/-- How far a scan goes. -/
structure DeleteScanOptions where
  maxDeletes : ℕ := 4294967295
  allowOverflow : Bool := true

/-- How a scan goes over hidden text. -/
structure DeleteScanVisitOptions where
  scan : DeleteScanOptions := {}
  extendThroughHiddenTrivia : Bool := false
  stopAtHiddenTriviaBoundary : Bool := false
  visitAfterHiddenTriviaExtension : Bool := false

/-- How a retry scans. -/
structure DeleteRetryOptions where
  scan : DeleteScanOptions := {}
  extendThroughHiddenTrivia : Bool := true
  stopOverflowAtStructuredVisibleSource : Bool := false

/-- What a visit is told. -/
structure DeleteScanVisitState where
  overflowBudget : Bool
  hiddenTriviaBoundary : Bool
  hiddenTriviaExtended : Bool
  deleteCount : ℕ

/-- A callback: what it makes of the context, and its answer. -/
abbrev DeleteScanVisit := DeleteScanVisitState → ScanContext → ScanContext × DeleteScanVisitResult

variable (inp : RecoveryInput)

/-- The just deleted codepoint abuts hidden trivia. -/
def detect_hidden_trivia_boundary (ctx : ScanContext) : Bool :=
  ctx.context.cursor < ctx.settings.skip_without_builder ctx.context.cursor

/-- A visible character of an identifier stands at the position. -/
def position_starts_structured_visible_source (ctx : ScanContext) (position : ℕ) : Bool :=
  if inp.text.length ≤ position then false
  else if ctx.settings.skip_without_builder position ≠ position then false
  else is_identifier_like_codepoint_at inp.text position inp.text.length

/-! ### The walk -/

namespace DeleteScan

/-- Visit the cursor; what is accepted over the budget is kept. -/
def try_visit_at_current_position (visit : DeleteScanVisit) (state : DeleteScanVisitState)
    (p : DeleteScan) : DeleteScan × DeleteScanVisitResult :=
  let visited := visit state p.ctx
  let p := { p with ctx := visited.1 }
  if visited.2 = .Accept ∧ state.overflowBudget = true then (p.commitOverflowEdits, visited.2)
  else (p, visited.2)

/-- `ctx.deleteOneCodepoint()`, counted. -/
def deleteOne (p : DeleteScan) : DeleteScan × Bool :=
  let deleted := p.ctx.context.deleteOneCodepoint inp p.ctx.settings
  ({ p with
    ctx.context := deleted.1
    deleteCount := if deleted.2 then p.deleteCount + 1 else p.deleteCount }, deleted.2)

/-- Let the last deletion reach over hidden text. -/
def extendLastDelete (p : DeleteScan) : DeleteScan × Bool :=
  let extended := p.ctx.context.extendLastDeleteThroughHiddenTrivia inp p.ctx.settings
  ({ p with ctx.context := extended.1 }, extended.2)

/-- The walk goes on unless the answer ends it. -/
def answer (visited : DeleteScan × DeleteScanVisitResult) :
    DeleteScan × Option DeleteScanVisitResult :=
  (visited.1, if visited.2 = .Continue then none else some visited.2)

/-- The end of a round at a boundary: the deletion is extended through the trivia, or
the walk may stop. -/
def boundaryRound (visit : DeleteScanVisit) (options : DeleteScanVisitOptions)
    (overflowBudget : Bool) (p : DeleteScan) : DeleteScan × Option DeleteScanVisitResult :=
  let stopped : Option DeleteScanVisitResult :=
    if options.stopAtHiddenTriviaBoundary then some .Stop else none
  if options.extendThroughHiddenTrivia then
    let extended := p.extendLastDelete inp
    if extended.2 then
      if options.visitAfterHiddenTriviaExtension then
        answer (extended.1.try_visit_at_current_position visit
          ⟨overflowBudget, false, true, extended.1.deleteCount⟩)
      else (extended.1, none)
    else (extended.1, stopped)
  else (p, stopped)

/-- One round of the loop, from a deletion that is allowed: `none` when the loop goes
round again. -/
def round (visit : DeleteScanVisit) (options : DeleteScanVisitOptions) (overflowBudget : Bool)
    (p : DeleteScan) : DeleteScan × Option DeleteScanVisitResult :=
  let deleted := p.deleteOne inp
  if !deleted.2 then (deleted.1, some .Continue)
  else
    let hiddenTriviaBoundary := detect_hidden_trivia_boundary deleted.1.ctx
    let visited := answer (deleted.1.try_visit_at_current_position visit
      ⟨overflowBudget, hiddenTriviaBoundary, false, deleted.1.deleteCount⟩)
    if visited.2.isSome || !hiddenTriviaBoundary then visited
    else boundaryRound inp visit options overflowBudget visited.1

/-- `try_visit_pass`, with the number of deletions that are left. -/
def try_pass (mayDelete : Bool → DeleteScan → Bool) (visit : DeleteScanVisit)
    (options : DeleteScanVisitOptions) (overflowBudget : Bool) :
    ℕ → DeleteScan → DeleteScan × DeleteScanVisitResult
  | 0, p => (p, .Continue)
  | remaining + 1, p =>
    if !mayDelete overflowBudget p then (p, .Continue)
    else
      let next := round inp visit options overflowBudget p
      match next.2 with
      | some result => (next.1, result)
      | none => try_pass mayDelete visit options overflowBudget remaining next.1

/-- The checkpoint is rewound unless the result is Accept. -/
def settle (checkpoint : RecoveryContext.Checkpoint)
    (ended : DeleteScan × DeleteScanVisitResult) : DeleteScan × DeleteScanVisitResult :=
  if ended.2 = .Accept then ended
  else ({ ended.1 with ctx.context := ended.1.ctx.context.rewind checkpoint }, ended.2)

/-- The two passes.  The second one goes on where the first one has ended. -/
def passes (mayDelete : Bool → DeleteScan → Bool) (visit : DeleteScanVisit)
    (options : DeleteScanVisitOptions) (checkpoint : RecoveryContext.Checkpoint)
    (p : DeleteScan) : DeleteScan × DeleteScanVisitResult :=
  let first := try_pass inp mayDelete visit options false
    (options.scan.maxDeletes - p.deleteCount) p
  if first.2 ≠ .Continue then settle checkpoint first
  else
    match if options.scan.allowOverflow then first.1.tryEnable else none with
    | none => settle checkpoint (first.1, .Stop)
    | some enabled =>
      let second := try_pass inp mayDelete visit options true
        (options.scan.maxDeletes - enabled.deleteCount) enabled
      if second.2 ≠ .Continue then settle checkpoint second
      else settle checkpoint (second.1, .Stop)

end DeleteScan

/-- The scan; its budget scope is left at the end. -/
def visit_guarded_delete_scan_positions (canDeleteStep : ScanContext → Bool)
    (visit : DeleteScanVisit) (options : DeleteScanVisitOptions) (ctx : ScanContext) :
    ScanContext × DeleteScanVisitResult :=
  if !ctx.context.canDelete inp ctx.settings then (ctx, .Stop)
  else
    let ended := DeleteScan.passes inp (fun _ p => canDeleteStep p.ctx) visit options
      ctx.context.mark { scope := ctx.settings.budgetScope, ctx }
    (ended.1.restore.ctx, ended.2)

/-- `try_retry_at_current_position`, the permission aside. -/
def gated (shouldRetry : DeleteScanVisitState → ScanContext → Bool) (retry : DeleteScanVisit) :
    DeleteScanVisit :=
  fun state ctx => if shouldRetry state ctx then retry state ctx else (ctx, .Continue)

/-- The retry: the same walk, each place gated by `shouldRetry`, without skipping after a
deletion, and without overflow deletions into structured source. -/
def visit_guarded_delete_retry_positions
    (shouldRetry : DeleteScanVisitState → ScanContext → Bool) (retry : DeleteScanVisit)
    (options : DeleteRetryOptions) (ctx : ScanContext) : ScanContext × DeleteScanVisitResult :=
  if !ctx.context.canDelete inp ctx.settings then (ctx, .Stop)
  else
    let replay : ScanContext := { ctx with settings.skipAfterDelete := false }
    let ended := DeleteScan.passes inp
      (fun overflowBudget p =>
        !(overflowBudget && options.stopOverflowAtStructuredVisibleSource &&
          p.deleteCount != 0 &&
          position_starts_structured_visible_source inp p.ctx p.ctx.context.cursor))
      (gated shouldRetry retry)
      { scan := options.scan
        extendThroughHiddenTrivia := options.extendThroughHiddenTrivia
        visitAfterHiddenTriviaExtension := true }
      ctx.context.mark { scope := replay.settings.budgetScope, ctx := replay }
    ({ ended.1.restore.ctx with
      settings.skipAfterDelete := ctx.settings.skipAfterDelete }, ended.2)

/-! ### What the operations of a walk do -/

namespace RecoveryContext

variable {inp} {o : RecoveryOptions} {c : RecoveryContext}

theorem place_quietPending :
    c.pendingHiddenTriviaDeleteEdit.1.cursor = c.cursor ∧
      c.pendingHiddenTriviaDeleteEdit.1.recoveryEdits = c.recoveryEdits := by
  fun_cases pendingHiddenTriviaDeleteEdit c with
  | case1 | case2 | case3 | case4 | case5 => exact ⟨rfl, rfl⟩

/-- A refused deletion at most clears the bridge. -/
structure Refuses (c c' : RecoveryContext) : Prop where
  cursor : c'.cursor = c.cursor
  edits : c'.recoveryEdits = c.recoveryEdits
  bridge : c' = c ∨ c'.deleteBridge = {}

theorem Refuses.pending {c' : RecoveryContext} (h : Refuses c c')
    (hpending : c.pendingHiddenTriviaDeleteEdit.2 = false) :
    c'.pendingHiddenTriviaDeleteEdit.2 = false := by
  rcases h.bridge with rfl | hbridge
  · exact hpending
  · rw [pendingHiddenTriviaDeleteEdit, hbridge]

/-- A deletion is refused, or it goes behind the codepoint at the cursor and is recorded
as an entry of its own or merged into the last one. -/
theorem deleteOneCodepoint_spec :
    ((c.deleteOneCodepoint inp o).2 = false ∧ Refuses c (c.deleteOneCodepoint inp o).1) ∨
      ((c.deleteOneCodepoint inp o).2 = true ∧
        (c.deleteOneCodepoint inp o).1.recoveryEdits
          = (c.recordDelete c.pendingHiddenTriviaDeleteEdit.2
              (next_codepoint_cursor inp.text c.cursor)).recoveryEdits ∧
        (c.deleteOneCodepoint inp o).1.cursor
          = if o.skipAfterDelete then (o.skip (next_codepoint_cursor inp.text c.cursor)).2
            else next_codepoint_cursor inp.text c.cursor) := by
  have hpending := @place_quietPending c
  fun_cases deleteOneCodepoint inp o c with
  | case1 => exact .inl ⟨rfl, rfl, rfl, .inl rfl⟩
  | case2 | case3 => exact .inl ⟨rfl, rfl, rfl, .inr rfl⟩
  | case4 _ _ _ _ d merged hd | case5 _ _ _ _ d merged hd =>
    rw [hd] at hpending
    exact .inl ⟨rfl, hpending.1, hpending.2, .inr rfl⟩
  | case6 _ _ committed _ d merged hd _ deletedEnd _ recorded noted =>
    rw [hd] at hpending ⊢
    dsimp only at hpending ⊢
    have hnoted : noted.ledger = (d.recordDelete merged deletedEnd).ledger :=
      ledger_eq (place_noteReplay _)
    have hledger := @ledger_passDeleted inp o noted deletedEnd committed.isSome
    right
    have hedits : (noted.passDeleted inp o deletedEnd committed.isSome).recoveryEdits
        = noted.recoveryEdits := by
      have h := congrArg Ledger.edits hledger
      split at h <;> exact h
    have hcursor : (noted.passDeleted inp o deletedEnd committed.isSome).cursor
        = if o.skipAfterDelete then (o.skip deletedEnd).2 else deletedEnd := by
      have h := congrArg Ledger.cursor hledger
      split at h
      next hskip => exact h.trans (if_pos hskip).symm
      next hskip => exact h.trans (if_neg hskip).symm
    refine ⟨rfl, ?_, ?_⟩
    · rw [hedits, show noted.recoveryEdits = _ from congrArg Ledger.edits hnoted]
      show (d.recordDelete merged deletedEnd).recoveryEdits = _
      cases merged with
      | true =>
        show d.recoveryEdits.modifyLast _ = c.recoveryEdits.modifyLast _
        rw [hpending.2]
        show _ = _
        rw [← hpending.1]
      | false =>
        show d.recoveryEdits ++ _ = c.recoveryEdits ++ _
        rw [hpending.2, hpending.1, ← hpending.1]
    · rw [hcursor, ← hpending.1]

/-- A refused extension at most clears the bridge; another one goes over the trivia that
follows the last entry. -/
theorem extendLastDelete_spec :
    ((c.extendLastDeleteThroughHiddenTrivia inp o).2 = false ∧
        Refuses c (c.extendLastDeleteThroughHiddenTrivia inp o).1) ∨
      ((c.extendLastDeleteThroughHiddenTrivia inp o).2 = true ∧
        (c.extendLastDeleteThroughHiddenTrivia inp o).1.recoveryEdits = c.recoveryEdits ∧
        (c.extendLastDeleteThroughHiddenTrivia inp o).1.cursor
          = o.skip_without_builder c.cursor ∧
        ∀ lastEdit ∈ c.recoveryEdits.getLast?, lastEdit.endOffset = c.cursor) := by
  fun_cases extendLastDeleteThroughHiddenTrivia inp o c with
  | case1 | case2 => exact .inl ⟨rfl, rfl, rfl, .inl rfl⟩
  | case3 | case4 => exact .inl ⟨rfl, rfl, rfl, .inr rfl⟩
  | case5 _ committed _ cleared hlast hiddenEnd _ bridged =>
    have hplace : (if committed.isSome then bridged.advanceCommittedDeleteReplay
        else bridged).place = bridged.place := place_ite place_advance rfl
    have hbridged : bridged.place = RecoveryContext.place { cleared with
        deleteBridge := ⟨some cleared.cursor, some hiddenEnd⟩
        cursor := hiddenEnd
        maxCursor := max cleared.maxCursor hiddenEnd } := place_refresh
    have hsame := hplace.trans hbridged
    refine .inr ⟨rfl, congrArg (·.2.2.1) hsame, congrArg (·.1) hsame, ?_⟩
    intro lastEdit hmem
    have hlast' : ¬ (c.recoveryEdits.getLast?.any fun lastEdit =>
        lastEdit.kind != .deleted || lastEdit.endOffset != c.cursor) = true := hlast
    rw [Option.mem_def.mp hmem, Option.any_some, Bool.or_eq_true, not_or, bne_iff_ne,
      bne_iff_ne, not_not, not_not] at hlast'
    exact hlast'.2

end RecoveryContext

/-! ### Callbacks -/

/-- The call leaves the nodes alone that were there when the callback began. -/
def Undisturbed (c : RecoveryContext) (s : RecoverySession) (e : RecoveryCall) : Prop :=
  ∀ o op, e = .run o op → (RecoveryMark.mk c.mark c false).outlives s.context op = true

/-- A callback works on the context through its operations, with marks of its own, does
not close what was open, and puts the settings back. -/
structure DeleteScanVisit.Disciplined (visit : DeleteScanVisit) : Prop where
  settings : ∀ state ctx, (visit state ctx).1.settings = ctx.settings
  calls : ∀ state ctx, ∃ own, (recoveryMachine inp).Reaches (Undisturbed ctx.context)
    ⟨ctx.context, []⟩ ⟨(visit state ctx).1.context, own⟩

namespace RecoverySession

variable {inp} {c c' : RecoveryContext} {m : RecoveryMark} {own older : List RecoveryMark}

theorem Nested.suffix {tb : TreeBuilder GrammarElement} (h : Nested tb (own ++ older)) :
    Nested tb older := by
  induction own generalizing tb with
  | nil => exact h
  | cons m own ih =>
    obtain ⟨mtb, -, hext, hrest⟩ := h
    exact (ih hrest).mono hext

/-- The younger marks may be forgotten. -/
theorem Tracks.suffix (h : Tracks ⟨c, own ++ older⟩) : Tracks ⟨c, older⟩ := by
  obtain ⟨tb, hb, hnested⟩ := h.nested
  exact ⟨h.configured, h.bridged, h.counted,
    fun m hm => h.keeps m (List.mem_append_right own hm),
    (List.pairwise_append.mp h.ordered).2.1, tb, hb, hnested.suffix⟩

/-- What a younger mark outlives, an older one does. -/
theorem Tracks.outlives (h : Tracks ⟨c, [m]⟩) {c₁ : RecoveryContext} {op : RecoveryOp}
    (hop : (RecoveryMark.mk c.mark c false).outlives c₁ op = true) :
    m.outlives c₁ op = true := by
  obtain ⟨tb, hb, mtb, hm, hext, -⟩ := h.nested
  cases op with
  | exit checkpoint element =>
    have hlt : c.builder.depth < c₁.builder.depth := of_decide_eq_true hop
    have hle := hext.depth_le
    apply decide_eq_true
    rw [hm]
    rw [show c.builder = tb.toCstBuilder from hb] at hlt
    simp only [TreeBuilder.toCstBuilder_depth] at hlt ⊢
    omega
  | overrideGrammarElement id element =>
    have hle' : c.builder.nodeCount ≤ id := of_decide_eq_true hop
    have hle := hext.nodeCount_le
    apply decide_eq_true
    rw [hm]
    rw [show c.builder = tb.toCstBuilder from hb] at hle'
    simp only [TreeBuilder.toCstBuilder_nodeCount] at hle' ⊢
    omega
  | _ => rfl

/-- An entry that the mark does not count is between it and any merged deletion. -/
theorem note_eq {merged : Bool} (h : m.taken.recoveryEdits.length < c.recoveryEdits.length) :
    m.note c merged = m := by
  have hne : (c.recoveryEdits.length == m.taken.recoveryEdits.length) = false :=
    beq_eq_false_iff_ne.mpr (Nat.ne_of_gt h)
  rw [RecoveryMark.note, hne, Bool.and_false, Bool.or_false]

/-- The sessions of a callback, over the mark `m` from before it: a further mark, taken
where the callback began, stays between the two. -/
def Over (c : RecoveryContext) (m : RecoveryMark) (s : RecoverySession) : Prop :=
  ∃ extended, Tracks ⟨s.context, s.marks ++ [⟨c.mark, c, extended⟩, m]⟩

theorem Over.length_le {s : RecoverySession} (h : Over c m s) :
    c.recoveryEdits.length ≤ s.context.recoveryEdits.length := by
  obtain ⟨extended, htracks⟩ := h
  exact (htracks.keeps ⟨c.mark, c, extended⟩ (by simp)).edits.length

/-- One call of a callback. -/
theorem Over.call (hm : Tracks ⟨c, [m]⟩)
    (hlt : m.taken.recoveryEdits.length < c.recoveryEdits.length) {s s' : RecoverySession}
    {e : RecoveryCall} (h : Over c m s) (hallowed : Undisturbed c s e)
    (hcall : s.call inp e = some s') : Over c m s' := by
  have hlength := h.length_le
  obtain ⟨extended, htracks⟩ := h
  cases e with
  | run o op =>
    simp only [RecoverySession.call, Option.ite_none_right_eq_some, Option.some.injEq] at hcall
    obtain ⟨-, rfl⟩ := hcall
    have hown := hallowed o op rfl
    -- both marks outlive the operation, and the older one stays as it is
    have hboth : ∀ mark ∈ [⟨c.mark, c, extended⟩, m],
        RecoveryMark.outlives s.context mark op = true := by
      simp only [List.forall_mem_cons]
      exact ⟨hown, hm.outlives hown, List.forall_mem_nil _⟩
    have hkeep : ([⟨c.mark, c, extended⟩, m].filter (·.outlives s.context op)).map
        (·.note s.context (s.context.merges inp o op))
          = [RecoveryMark.note s.context (s.context.merges inp o op) ⟨c.mark, c, extended⟩, m] := by
      rw [List.filter_eq_self.mpr hboth, List.map_cons, List.map_singleton,
        @note_eq s.context m _ (Nat.lt_of_lt_of_le hlt hlength)]
    have hstep := @Tracks.run inp _ htracks o op
    dsimp only at hstep
    rw [List.filter_append, List.map_append, hkeep] at hstep
    exact ⟨_, hstep⟩
  | mark =>
    cases hcall
    exact ⟨extended, htracks.mark⟩
  | rewind k =>
    simp only [RecoverySession.call] at hcall
    split at hcall
    next mk hk =>
      cases hcall
      obtain ⟨hlen, -⟩ := List.getElem?_eq_some_iff.mp hk
      have hback := htracks.rewind (k := k) (m := mk)
        (by rw [List.getElem?_append_left hlen, hk])
      rw [List.drop_append_of_le_length (Nat.le_of_lt hlen)] at hback
      exact ⟨extended, hback⟩
    next => cases hcall

/-- **A callback keeps the marks from before it**, once an entry has been added since. -/
theorem Tracks.callback (hm : Tracks ⟨c, [m]⟩)
    (hlt : m.taken.recoveryEdits.length < c.recoveryEdits.length)
    (hrun : (recoveryMachine inp).Reaches (Undisturbed c) ⟨c, []⟩ ⟨c', own⟩) :
    Tracks ⟨c', [m]⟩ ∧ c.recoveryEdits.length ≤ c'.recoveryEdits.length := by
  have hover : Over c m ⟨c', own⟩ :=
    @Machine.Reaches.invariant _ _ _ _ _ _ (Over c m) hrun ⟨false, hm.mark⟩
      fun _ _ _ hs hallowed hcall => hs.call hm hlt hallowed hcall
  obtain ⟨extended, htracks⟩ := hover
  refine ⟨?_, Over.length_le ⟨extended, htracks⟩⟩
  rw [List.append_cons] at htracks
  exact htracks.suffix

end RecoverySession

/-! ### What a rewind restores -/

section Restoring

variable {inp} {o : RecoveryOptions} {entry c c' : RecoveryContext}

/-- The mark taken in `entry` is live and counts no entry that was extended, and no
deletion will extend one: an entry has been added, or no bridge is pending. -/
structure Kept (entry c : RecoveryContext) : Prop where
  tracks : RecoverySession.Tracks ⟨c, [⟨entry.mark, entry, false⟩]⟩
  ready : c.pendingHiddenTriviaDeleteEdit.2 = false ∨
    entry.recoveryEdits.length < c.recoveryEdits.length

/-- An entry has been added since. -/
structure Ahead (entry c : RecoveryContext) : Prop where
  tracks : RecoverySession.Tracks ⟨c, [⟨entry.mark, entry, false⟩]⟩
  lt : entry.recoveryEdits.length < c.recoveryEdits.length

theorem Ahead.kept (h : Ahead entry c) : Kept entry c := ⟨h.tracks, .inr h.lt⟩

/-- An operation that is not merged into an entry the mark counts. -/
theorem Kept.run (h : Kept entry c) {op : RecoveryOp}
    (hop : (RecoveryMark.mk entry.mark entry false).outlives c op = true)
    (hmerge : c.merges inp o op = true → entry.recoveryEdits.length < c.recoveryEdits.length) :
    RecoverySession.Tracks ⟨c.apply inp o op, [⟨entry.mark, entry, false⟩]⟩ := by
  have hstep := @RecoverySession.Tracks.run inp _ h.tracks o op
  dsimp only at hstep
  have hlive : [RecoveryMark.mk entry.mark entry false].filter (·.outlives c op)
      = [⟨entry.mark, entry, false⟩] := by
    refine List.filter_eq_self.mpr fun mark hmark => ?_
    rw [List.mem_singleton.mp hmark]
    exact hop
  rw [hlive, List.map_singleton] at hstep
  have hnote : RecoveryMark.note c (c.merges inp o op) ⟨entry.mark, entry, false⟩
      = ⟨entry.mark, entry, false⟩ := by
    cases hmerges : c.merges inp o op with
    | true => exact RecoverySession.note_eq (hmerge hmerges)
    | false => rfl
  rwa [hnote] at hstep

theorem Kept.length_le (h : Kept entry c) :
    entry.recoveryEdits.length ≤ c.recoveryEdits.length :=
  (h.tracks.keeps _ List.mem_cons_self).edits.length

/-- **A deletion**: after one that is made, an entry has been added. -/
theorem Kept.deleteOne (h : Kept entry c) :
    ((c.deleteOneCodepoint inp o).2 = false → Kept entry (c.deleteOneCodepoint inp o).1) ∧
      ((c.deleteOneCodepoint inp o).2 = true → Ahead entry (c.deleteOneCodepoint inp o).1) := by
  have htracks : RecoverySession.Tracks
      ⟨(c.deleteOneCodepoint inp o).1, [⟨entry.mark, entry, false⟩]⟩ := by
    refine @Kept.run inp o entry c h .deleteOneCodepoint rfl fun hmerges => ?_
    rcases h.ready with hpending | hlt
    · -- nothing is merged without a bridge
      simp [RecoveryContext.merges, hpending] at hmerges
    · exact hlt
  have hlength := h.length_le
  rcases @RecoveryContext.deleteOneCodepoint_spec inp o c with
    ⟨hno, hrefuses⟩ | ⟨hyes, hedits, -⟩
  · refine ⟨fun _ => ⟨htracks, ?_⟩, fun hyes => absurd (hno.symm.trans hyes) Bool.noConfusion⟩
    rw [hrefuses.edits]
    exact h.ready.imp_left hrefuses.pending
  · refine ⟨fun hno => absurd (hno.symm.trans hyes) Bool.noConfusion, fun _ => ⟨htracks, ?_⟩⟩
    rw [hedits]
    cases hmerged : c.pendingHiddenTriviaDeleteEdit.2 with
    | true =>
      rcases h.ready with hpending | hlt
      · exact absurd (hpending.symm.trans hmerged) Bool.noConfusion
      · obtain ⟨-, lastEdit, -, hlast, -⟩ := c.pending_spec hmerged
        obtain ⟨front, hfront⟩ := List.getLast?_eq_some_iff.mp hlast
        show entry.recoveryEdits.length < (c.recoveryEdits.modifyLast _).length
        rw [hfront, List.length_append] at hlt
        rwa [hfront, List.modifyLast_concat, List.length_append]
    | false =>
      show entry.recoveryEdits.length < (c.recoveryEdits ++ [_]).length
      rw [List.length_append, List.length_singleton]
      omega

theorem Ahead.extend (h : Ahead entry c) :
    Ahead entry (c.extendLastDeleteThroughHiddenTrivia inp o).1 := by
  refine ⟨@Kept.run inp o entry c h.kept .extendLastDeleteThroughHiddenTrivia rfl fun _ => h.lt, ?_⟩
  rcases @RecoveryContext.extendLastDelete_spec inp o c with ⟨-, hrefuses⟩ | ⟨-, hedits, -⟩
  · rw [hrefuses.edits]
    exact h.lt
  · rw [hedits]
    exact h.lt

theorem Ahead.visit (h : Ahead entry c) {own : List RecoveryMark}
    (hrun : (recoveryMachine inp).Reaches (Undisturbed c) ⟨c, []⟩ ⟨c', own⟩) : Ahead entry c' := by
  obtain ⟨htracks, hle⟩ := h.tracks.callback h.lt hrun
  exact ⟨htracks, Nat.lt_of_lt_of_le h.lt hle⟩

/-- **A rewind to the mark restores the context.** -/
theorem Kept.rewind (h : Kept entry c) :
    (c.rewind entry.mark).forgetFurthest = entry.forgetFurthest := by
  have hkeeps := h.tracks.keeps _ List.mem_cons_self
  have hnodes : c.builder.rewind entry.builder.mark = entry.builder :=
    h.tracks.rewind_builder (k := 0) rfl
  refine (hkeeps.forgetFurthest_rewind hnodes).trans ?_
  show { entry.forgetFurthest with
    recoveryEdits := c.recoveryEdits.take entry.recoveryEdits.length } = _
  rw [hkeeps.edits.kept rfl]
  rfl

/-- The mark of a context in use. -/
theorem Kept.start {marks : List RecoveryMark} (h : RecoverySession.Tracks ⟨entry, marks⟩)
    (hpending : entry.pendingHiddenTriviaDeleteEdit.2 = false) : Kept entry entry := by
  have hnone : RecoverySession.Tracks ⟨entry, []⟩ := by
    rw [← List.append_nil marks] at h
    exact h.suffix
  exact ⟨hnone.mark, .inl hpending⟩

/-! ### The deleted text -/

/-- From the end of a deletion the walk goes on right there, or behind hidden trivia. -/
def RecoveryOptions.Hops (o : RecoveryOptions) (p q : ℕ) : Prop :=
  q = p ∨ q = o.skip_without_builder p ∨ q = (o.skip p).2

/-- The entry of a deletion at `p`. -/
def deletionAt (text : List UInt8) (p : ℕ) : SyntaxScriptEntry :=
  ⟨.deleted, p, p, next_codepoint_cursor text p, none, ""⟩

/-- The entries of `n` deletions from `start` up to `stop`: each one begins where the one
before it has ended, or behind hidden trivia, or is merged into it over the trivia. -/
inductive DeletedRun (text : List UInt8) (Hops : ℕ → ℕ → Prop) (start : ℕ) :
    List SyntaxScriptEntry → ℕ → ℕ → Prop
  | first :
      DeletedRun text Hops start [deletionAt text start] (next_codepoint_cursor text start) 1
  | add {run : List SyntaxScriptEntry} {stop n p : ℕ} (h : DeletedRun text Hops start run stop n)
      (hop : Hops stop p) :
      DeletedRun text Hops start (run ++ [deletionAt text p]) (next_codepoint_cursor text p) (n + 1)
  | merge {run : List SyntaxScriptEntry} {lastEdit : SyntaxScriptEntry} {stop n p : ℕ}
      (h : DeletedRun text Hops start (run ++ [lastEdit]) stop n) (hop : Hops stop p) :
      DeletedRun text Hops start
        (run ++ [{ lastEdit with endOffset := next_codepoint_cursor text p }])
        (next_codepoint_cursor text p) (n + 1)

/-- The last entry ends where the deletions do. -/
theorem DeletedRun.exists_last {text : List UInt8} {Hops : ℕ → ℕ → Prop} {start stop n : ℕ}
    {run : List SyntaxScriptEntry} (h : DeletedRun text Hops start run stop n) :
    ∃ front lastEdit, run = front ++ [lastEdit] ∧ lastEdit.endOffset = stop := by
  cases h with
  | first => exact ⟨[], _, rfl, rfl⟩
  | add h hop => exact ⟨_, _, rfl, rfl⟩
  | merge h hop => exact ⟨_, _, rfl, rfl⟩

/-- The context after `n` deletions, the first of which is at the cursor of `entry`. -/
def DeletedFrom (inp : RecoveryInput) (o : RecoveryOptions) (entry c : RecoveryContext) (n : ℕ) :
    Prop :=
  ∃ run stop, c.recoveryEdits = entry.recoveryEdits ++ run ∧
    DeletedRun inp.text o.Hops entry.cursor run stop n ∧ o.Hops stop c.cursor

/-- Nothing deleted so far, and nothing to be merged. -/
structure Untouched (entry c : RecoveryContext) : Prop where
  edits : c.recoveryEdits = entry.recoveryEdits
  cursor : c.cursor = entry.cursor
  pending : c.pendingHiddenTriviaDeleteEdit.2 = false

/-- After `n` deletions, none of which has to have been made. -/
def DeletedSince (inp : RecoveryInput) (o : RecoveryOptions) (entry c : RecoveryContext) (n : ℕ) :
    Prop :=
  n = 0 ∧ Untouched entry c ∨ DeletedFrom inp o entry c n

variable {n : ℕ}

theorem DeletedFrom.congr (h : DeletedFrom inp o entry c n)
    (hedits : c'.recoveryEdits = c.recoveryEdits) (hcursor : c'.cursor = c.cursor) :
    DeletedFrom inp o entry c' n := by
  obtain ⟨run, stop, heq, hrun, hop⟩ := h
  exact ⟨run, stop, hedits.trans heq, hrun, hcursor ▸ hop⟩

theorem DeletedSince.refuses (h : DeletedSince inp o entry c n)
    (hrefuses : RecoveryContext.Refuses c c') : DeletedSince inp o entry c' n := by
  rcases h with ⟨hn, huntouched⟩ | hdeleted
  · exact .inl ⟨hn, hrefuses.edits.trans huntouched.edits,
      hrefuses.cursor.trans huntouched.cursor, hrefuses.pending huntouched.pending⟩
  · exact .inr (hdeleted.congr hrefuses.edits hrefuses.cursor)

/-- **One more deletion**, under settings with the same skipper. -/
theorem DeletedSince.deleteOne {o' : RecoveryOptions} (hskip : o'.skip = o.skip)
    (h : DeletedSince inp o entry c n) (hyes : (c.deleteOneCodepoint inp o').2 = true) :
    DeletedFrom inp o entry (c.deleteOneCodepoint inp o').1 (n + 1) := by
  rcases @RecoveryContext.deleteOneCodepoint_spec inp o' c with
    ⟨hno, -⟩ | ⟨-, hedits, hcursor⟩
  · exact absurd (hno.symm.trans hyes) Bool.noConfusion
  have hop : o.Hops (next_codepoint_cursor inp.text c.cursor)
      (c.deleteOneCodepoint inp o').1.cursor := by
    rw [hcursor, hskip]
    split
    · exact .inr (.inr rfl)
    · exact .inl rfl
  rcases h with ⟨rfl, huntouched⟩ | ⟨run, stop, heq, hrun, hat⟩
  · refine ⟨_, _, ?_, .first, huntouched.cursor ▸ hop⟩
    rw [hedits, huntouched.pending]
    show c.recoveryEdits ++ _ = _
    rw [huntouched.edits, ← huntouched.cursor]
    rfl
  · cases hmerged : c.pendingHiddenTriviaDeleteEdit.2 with
    | false =>
      refine ⟨_, _, ?_, .add hrun hat, hop⟩
      rw [hedits, hmerged]
      show c.recoveryEdits ++ _ = _
      rw [heq, List.append_assoc]
      rfl
    | true =>
      obtain ⟨front, lastEdit, rfl, -⟩ := hrun.exists_last
      refine ⟨_, _, ?_, .merge hrun hat, hop⟩
      rw [hedits, hmerged]
      show c.recoveryEdits.modifyLast _ = _
      rw [heq, ← List.append_assoc, List.modifyLast_concat, List.append_assoc]

/-- The bridge begins where the deletions end. -/
theorem DeletedFrom.extend {o' : RecoveryOptions}
    (hskip : o'.skip_without_builder = o.skip_without_builder) (h : DeletedFrom inp o entry c n) :
    DeletedFrom inp o entry (c.extendLastDeleteThroughHiddenTrivia inp o').1 n := by
  rcases @RecoveryContext.extendLastDelete_spec inp o' c with
    ⟨-, hrefuses⟩ | ⟨-, hedits, hcursor, hlast⟩
  · exact h.congr hrefuses.edits hrefuses.cursor
  · obtain ⟨run, stop, heq, hrun, -⟩ := h
    refine ⟨run, stop, hedits.trans heq, hrun, ?_⟩
    obtain ⟨front, lastEdit, rfl, rfl⟩ := hrun.exists_last
    have hends := hlast lastEdit (by rw [heq, ← List.append_assoc, List.getLast?_concat]; rfl)
    rw [hcursor, hskip, ← hends]
    exact .inr (.inl rfl)

end Restoring

/-! ### The invariant of a scan -/

/-- A callback that leaves the context as it was when it lets the walk go on. -/
def DeleteScanVisit.Restores (visit : DeleteScanVisit) : Prop :=
  ∀ state ctx, (visit state ctx).2 = .Continue →
    (visit state ctx).1.context.forgetFurthest = ctx.context.forgetFurthest

/-- The settings while the budgets are extended. -/
def RecoveryOptions.overflow (o : RecoveryOptions) : RecoveryOptions :=
  { o with
    maxConsecutiveCodepointDeletes := noLimit
    maxEditsPerAttempt := noLimit
    maxEditCost := noLimit }

namespace DeleteScan

/-- The scope has saved the budgets of `o`, which are those in force unless it is
enabled. -/
structure Guarded (o : RecoveryOptions) (p : DeleteScan) : Prop where
  scope : p.scope = { o.budgetScope with enabled := p.scope.enabled }
  settings : p.ctx.settings = if p.scope.enabled then o.overflow else o

section Walk

variable (visit : DeleteScanVisit) (o : RecoveryOptions) (entry : RecoveryContext)
  (maxDeletes : ℕ)

/-- A scan between two rounds. -/
structure Sound (p : DeleteScan) : Prop where
  guarded : p.Guarded o
  bounded : p.deleteCount ≤ maxDeletes
  kept : Kept entry p.ctx.context
  deleted : visit.Restores → DeletedSince inp o entry p.ctx.context p.deleteCount

/-- A scan that has just deleted. -/
structure Landed (p : DeleteScan) : Prop where
  guarded : p.Guarded o
  pos : 0 < p.deleteCount
  bounded : p.deleteCount ≤ maxDeletes
  ahead : Ahead entry p.ctx.context
  deleted : visit.Restores → DeletedFrom inp o entry p.ctx.context p.deleteCount

/-- The context of an accepted scan: what the callback has made of it, and the permission
to overflow the budgets. -/
def Committed (state : DeleteScanVisitState) (visited context : RecoveryContext) : Prop :=
  context = visited ∨ state.overflowBudget = true ∧ context = visited.allowBudgetOverflowEdits

/-- What a walk has come to. -/
structure Ended (ended : DeleteScan × DeleteScanVisitResult) : Prop where
  guarded : ended.1.Guarded o
  kept : ended.2 ≠ .Accept → Kept entry ended.1.ctx.context
  continues : ended.2 = .Continue → ended.1.Sound inp visit o entry maxDeletes
  accepted : ended.2 = .Accept → ∃ (place : DeleteScan) (state : DeleteScanVisitState),
    place.Landed inp visit o entry maxDeletes ∧ state.deleteCount = place.deleteCount ∧
      (visit state place.ctx).2 = .Accept ∧
      Committed state (visit state place.ctx).1.context ended.1.ctx.context

end Walk

variable {inp} {visit : DeleteScanVisit} {o : RecoveryOptions} {entry : RecoveryContext}
  {maxDeletes : ℕ} {p : DeleteScan}

theorem Guarded.skip (h : p.Guarded o) :
    p.ctx.settings.skip = o.skip ∧
      p.ctx.settings.skip_without_builder = o.skip_without_builder := by
  rw [h.settings]
  split
  · exact ⟨rfl, rfl⟩
  · exact ⟨rfl, rfl⟩

/-- The guard does not look at the context or the count. -/
theorem Guarded.congr (h : p.Guarded o) {q : DeleteScan} (hscope : q.scope = p.scope)
    (hsettings : q.ctx.settings = p.ctx.settings) : q.Guarded o := by
  refine ⟨?_, ?_⟩
  · rw [hscope]
    exact h.scope
  · rw [hscope, hsettings]
    exact h.settings

theorem Guarded.restore_settings (h : p.Guarded o) : p.restore.ctx.settings = o := by
  rw [restore]
  split
  next hoff =>
    rw [h.settings, if_neg]
    simpa using hoff
  next hon =>
    rw [h.scope]
    dsimp only
    rw [h.settings, if_pos (by simpa using hon)]
    rfl

theorem Guarded.restore (h : p.Guarded o) : p.restore.Guarded o := by
  have hsettings := h.restore_settings
  rw [DeleteScan.restore] at hsettings ⊢
  split
  next hoff => exact h
  next hon =>
    rw [if_neg hon] at hsettings
    exact ⟨by rw [h.scope], hsettings⟩

theorem restore_context (p : DeleteScan) : p.restore.ctx.context = p.ctx.context := by
  rw [restore]
  split
  · rfl
  · rfl

theorem Guarded.commit (h : p.Guarded o) : p.commitOverflowEdits.Guarded o := by
  rw [commitOverflowEdits]
  split
  · exact h
  · exact h.restore.congr rfl rfl

theorem commit_context (p : DeleteScan) :
    p.commitOverflowEdits.ctx.context = p.ctx.context ∨
      p.commitOverflowEdits.ctx.context = p.ctx.context.allowBudgetOverflowEdits := by
  rw [commitOverflowEdits]
  split
  · exact .inl rfl
  · right
    show p.restore.ctx.context.allowBudgetOverflowEdits = _
    rw [restore_context]

/-- The budgets are extended, and nothing else. -/
theorem Sound.enable (h : p.Sound inp visit o entry maxDeletes) {q : DeleteScan}
    (hq : p.tryEnable = some q) : q.Sound inp visit o entry maxDeletes := by
  rw [tryEnable] at hq
  split at hq
  · cases hq
  next hoff =>
    cases hq
    have hsettings := h.guarded.settings
    rw [if_neg hoff] at hsettings
    refine ⟨⟨by rw [h.guarded.scope], ?_⟩, h.bounded, h.kept, h.deleted⟩
    show { p.ctx.settings with
      maxConsecutiveCodepointDeletes := noLimit
      maxEditsPerAttempt := noLimit
      maxEditCost := noLimit } = o.overflow
    rw [hsettings]
    rfl

theorem Landed.sound (h : p.Landed inp visit o entry maxDeletes) :
    p.Sound inp visit o entry maxDeletes :=
  ⟨h.guarded, h.bounded, h.ahead.kept, fun hvisit => .inr (h.deleted hvisit)⟩

/-! ### One round -/

theorem Sound.deleteOne (h : p.Sound inp visit o entry maxDeletes)
    (hlt : p.deleteCount < maxDeletes) :
    ((p.deleteOne inp).2 = false →
        (p.deleteOne inp).1.Sound inp visit o entry maxDeletes) ∧
      ((p.deleteOne inp).2 = true → (p.deleteOne inp).1.deleteCount = p.deleteCount + 1 ∧
        (p.deleteOne inp).1.Landed inp visit o entry maxDeletes) := by
  obtain ⟨hno, hyes⟩ := @Kept.deleteOne inp p.ctx.settings entry _ h.kept
  constructor
  · intro hrefused
    have hcount : (p.deleteOne inp).1.deleteCount = p.deleteCount :=
      if_neg (Bool.eq_false_iff.mp hrefused)
    refine ⟨h.guarded.congr rfl rfl, hcount ▸ h.bounded, hno hrefused, fun hvisit => ?_⟩
    rw [hcount]
    rcases @RecoveryContext.deleteOneCodepoint_spec inp p.ctx.settings p.ctx.context with
      ⟨-, hrefuses⟩ | ⟨hmade, -⟩
    · exact (h.deleted hvisit).refuses hrefuses
    · exact absurd (hmade.symm.trans hrefused) Bool.noConfusion
  · intro hmade
    have hcount : (p.deleteOne inp).1.deleteCount = p.deleteCount + 1 := if_pos hmade
    refine ⟨hcount, h.guarded.congr rfl rfl, hcount ▸ Nat.succ_pos _, hcount ▸ hlt, hyes hmade, ?_⟩
    intro hvisit
    rw [hcount]
    exact (h.deleted hvisit).deleteOne h.guarded.skip.1 hmade

theorem Landed.extendLastDelete (h : p.Landed inp visit o entry maxDeletes) :
    (p.extendLastDelete inp).1.Landed inp visit o entry maxDeletes :=
  ⟨h.guarded.congr rfl rfl, h.pos, h.bounded, h.ahead.extend,
    fun hvisit => (h.deleted hvisit).extend h.guarded.skip.2⟩

/-- **A visit** answers for the walk. -/
theorem Landed.visited (h : p.Landed inp visit o entry maxDeletes)
    (hvisit : visit.Disciplined inp) {state : DeleteScanVisitState}
    (hstate : state.deleteCount = p.deleteCount) :
    Ended inp visit o entry maxDeletes (p.try_visit_at_current_position visit state) ∧
      ((p.try_visit_at_current_position visit state).2 = .Continue →
        (p.try_visit_at_current_position visit state).1.deleteCount = p.deleteCount ∧
          (p.try_visit_at_current_position visit state).1.Landed inp visit o entry maxDeletes) := by
  obtain ⟨own, hrun⟩ := hvisit.calls state p.ctx
  have hahead : Ahead entry (visit state p.ctx).1.context := h.ahead.visit hrun
  have hguarded : Guarded o ⟨p.scope, (visit state p.ctx).1, p.deleteCount⟩ :=
    h.guarded.congr rfl (hvisit.settings state p.ctx)
  have hlanded : (visit state p.ctx).2 = .Continue →
      Landed inp visit o entry maxDeletes ⟨p.scope, (visit state p.ctx).1, p.deleteCount⟩ := by
    intro hcontinue
    refine ⟨hguarded, h.pos, h.bounded, hahead, fun hrestores => ?_⟩
    have hsame := hrestores state p.ctx hcontinue
    exact (h.deleted hrestores).congr (congrArg (·.recoveryEdits) hsame)
      (congrArg (·.cursor) hsame)
  rw [try_visit_at_current_position]
  split
  next haccept =>
    obtain ⟨haccept, hoverflow⟩ := haccept
    refine ⟨⟨hguarded.commit, fun hne => absurd haccept hne, fun hcontinue => ?_, fun _ => ?_⟩,
      fun hcontinue => ?_⟩
    · exact absurd (haccept.symm.trans hcontinue) (by decide)
    · refine ⟨p, state, h, hstate, haccept, ?_⟩
      exact (commit_context _).imp_right fun hallow => ⟨hoverflow, hallow⟩
    · exact absurd (haccept.symm.trans hcontinue) (by decide)
  next =>
    exact ⟨⟨hguarded, fun _ => hahead.kept, fun hcontinue => (hlanded hcontinue).sound,
      fun haccept => ⟨p, state, h, hstate, haccept, .inl rfl⟩⟩,
      fun hcontinue => ⟨rfl, hlanded hcontinue⟩⟩

/-- What a round has come to, after `n` deletions. -/
structure Rounded (inp : RecoveryInput) (visit : DeleteScanVisit) (o : RecoveryOptions)
    (entry : RecoveryContext) (maxDeletes n : ℕ)
    (next : DeleteScan × Option DeleteScanVisitResult) : Prop where
  again : next.2 = none → next.1.deleteCount = n ∧ next.1.Landed inp visit o entry maxDeletes
  ended : ∀ result, next.2 = some result → Ended inp visit o entry maxDeletes (next.1, result)

theorem Landed.answer (h : p.Landed inp visit o entry maxDeletes)
    (hvisit : visit.Disciplined inp) {state : DeleteScanVisitState}
    (hstate : state.deleteCount = p.deleteCount) :
    Rounded inp visit o entry maxDeletes p.deleteCount
      (DeleteScan.answer (p.try_visit_at_current_position visit state)) := by
  obtain ⟨hended, hcontinues⟩ := h.visited hvisit hstate
  rw [DeleteScan.answer]
  constructor
  · intro hnone
    apply hcontinues
    by_contra hne
    exact Option.some_ne_none _ ((if_neg hne).symm.trans hnone)
  · intro result hsome
    obtain ⟨-, hresult⟩ := Option.ite_none_left_eq_some.mp hsome
    cases hresult
    exact hended

theorem Landed.again (h : p.Landed inp visit o entry maxDeletes) :
    Rounded inp visit o entry maxDeletes p.deleteCount (p, none) :=
  ⟨fun _ => ⟨rfl, h⟩, fun _ hsome => (Option.some_ne_none _ hsome.symm).elim⟩

/-- A walk that stops or runs out without an answer. -/
theorem Sound.ended (h : p.Sound inp visit o entry maxDeletes) {result : DeleteScanVisitResult}
    (hresult : result ≠ .Accept) : Ended inp visit o entry maxDeletes (p, result) :=
  ⟨h.guarded, fun _ => h.kept, fun _ => h, fun haccept => absurd haccept hresult⟩

theorem Landed.stopped (h : p.Landed inp visit o entry maxDeletes) (stops : Bool) :
    Rounded inp visit o entry maxDeletes p.deleteCount
      (p, if stops then some .Stop else none) := by
  cases stops with
  | false => exact h.again
  | true =>
    refine ⟨fun hnone => (Option.some_ne_none _ hnone).elim, fun result hsome => ?_⟩
    cases hsome
    exact h.sound.ended (by decide)

theorem Landed.boundaryRound (h : p.Landed inp visit o entry maxDeletes)
    (hvisit : visit.Disciplined inp) (options : DeleteScanVisitOptions) (overflowBudget : Bool) :
    Rounded inp visit o entry maxDeletes p.deleteCount
      (p.boundaryRound inp visit options overflowBudget) := by
  rw [DeleteScan.boundaryRound]
  dsimp only
  split
  · split
    · split
      · exact h.extendLastDelete.answer hvisit rfl
      · exact h.extendLastDelete.again
    · exact h.extendLastDelete.stopped _
  · exact h.stopped _

/-- **One round of the loop** deletes a codepoint or ends the walk. -/
theorem Sound.round (h : p.Sound inp visit o entry maxDeletes) (hvisit : visit.Disciplined inp)
    (hlt : p.deleteCount < maxDeletes) (options : DeleteScanVisitOptions)
    (overflowBudget : Bool) :
    Rounded inp visit o entry maxDeletes (p.deleteCount + 1)
      (p.round inp visit options overflowBudget) := by
  obtain ⟨hno, hyes⟩ := h.deleteOne hlt
  rw [DeleteScan.round]
  dsimp only
  split
  next hrefused =>
    rw [Bool.not_eq_true'] at hrefused
    refine ⟨fun hnone => (Option.some_ne_none _ hnone).elim, fun result hsome => ?_⟩
    cases hsome
    exact (hno hrefused).ended (by decide)
  next hmade =>
    rw [Bool.not_eq_true', Bool.not_eq_false] at hmade
    obtain ⟨hcount, hlanded⟩ := hyes hmade
    rw [← hcount]
    have hanswer := @Landed.answer _ _ _ _ _ _ hlanded hvisit ⟨overflowBudget,
      detect_hidden_trivia_boundary (p.deleteOne inp).1.ctx, false,
      (p.deleteOne inp).1.deleteCount⟩ rfl
    split
    next => exact hanswer
    next hgoes =>
      simp only [Bool.or_eq_true, not_or, Option.isSome_iff_ne_none, ne_eq, not_not] at hgoes
      obtain ⟨hsame, hagain⟩ := hanswer.again hgoes.1
      have hboundary := hagain.boundaryRound hvisit options overflowBudget
      rwa [hsame] at hboundary

/-- **A pass** ends as its last round does, or between two rounds. -/
theorem Sound.try_pass (h : p.Sound inp visit o entry maxDeletes) (hvisit : visit.Disciplined inp)
    (mayDelete : Bool → DeleteScan → Bool) (options : DeleteScanVisitOptions)
    (overflowBudget : Bool) {remaining : ℕ} (hremaining : p.deleteCount + remaining ≤ maxDeletes) :
    Ended inp visit o entry maxDeletes
      (try_pass inp mayDelete visit options overflowBudget remaining p) := by
  induction remaining generalizing p with
  | zero => exact h.ended (by decide)
  | succ remaining ih =>
    have hround := h.round hvisit (by omega) options overflowBudget
    rw [DeleteScan.try_pass]
    split
    · exact h.ended (by decide)
    · dsimp only
      split
      next result hsome => exact hround.ended result hsome
      next hnone =>
        obtain ⟨hcount, hlanded⟩ := hround.again hnone
        exact ih hlanded.sound (by omega)

/-! ### The whole scan -/

/-- What a scan does, its guards included. -/
structure Settled (inp : RecoveryInput) (visit : DeleteScanVisit) (o : RecoveryOptions)
    (entry : RecoveryContext) (maxDeletes : ℕ)
    (ended : DeleteScan × DeleteScanVisitResult) : Prop where
  guarded : ended.1.Guarded o
  restored : ended.2 ≠ .Accept →
    ended.1.ctx.context.forgetFurthest = entry.forgetFurthest
  accepted : ended.2 = .Accept → ∃ (place : DeleteScan) (state : DeleteScanVisitState),
    place.Landed inp visit o entry maxDeletes ∧ state.deleteCount = place.deleteCount ∧
      (visit state place.ctx).2 = .Accept ∧
      Committed state (visit state place.ctx).1.context ended.1.ctx.context

theorem Ended.settle {ended : DeleteScan × DeleteScanVisitResult}
    (h : Ended inp visit o entry maxDeletes ended) :
    Settled inp visit o entry maxDeletes (settle entry.mark ended) := by
  rw [DeleteScan.settle]
  split
  next haccept => exact ⟨h.guarded, fun hne => absurd haccept hne, h.accepted⟩
  next hne =>
    exact ⟨h.guarded.congr rfl rfl, fun _ => (h.kept hne).rewind,
      fun haccept => absurd haccept hne⟩

/-- **The two passes.** -/
theorem Sound.passes (h : p.Sound inp visit o entry maxDeletes) (hvisit : visit.Disciplined inp)
    (mayDelete : Bool → DeleteScan → Bool) (options : DeleteScanVisitOptions)
    (hmax : options.scan.maxDeletes = maxDeletes) :
    Settled inp visit o entry maxDeletes
      (p.passes inp mayDelete visit options entry.mark) := by
  subst hmax
  have hfirst := h.try_pass hvisit mayDelete options false
    (Nat.le_of_eq (Nat.add_sub_cancel' h.bounded))
  rw [DeleteScan.passes]
  dsimp only
  split
  · exact hfirst.settle
  next hcontinue =>
    rw [ne_eq, not_not] at hcontinue
    have hsound := hfirst.continues hcontinue
    split
    · exact (hsound.ended (by decide)).settle
    next enabled henabled =>
      obtain ⟨-, henable⟩ := Option.ite_none_right_eq_some.mp henabled
      have hagain := hsound.enable henable
      have hsecond := hagain.try_pass hvisit mayDelete options true
        (Nat.le_of_eq (Nat.add_sub_cancel' hagain.bounded))
      split
      · exact hsecond.settle
      next hcontinue' =>
        rw [ne_eq, not_not] at hcontinue'
        exact ((hsecond.continues hcontinue').ended (by decide)).settle

end DeleteScan

/-! ### Main result -/

/-- What a guarded scan answers for, when it begins in `entry`. -/
structure ScanSpec (inp : RecoveryInput) (visit : DeleteScanVisit) (maxDeletes : ℕ)
    (entry : ScanContext) (ended : ScanContext × DeleteScanVisitResult) : Prop where
  settings : ended.1.settings = entry.settings
  restored : ended.2 ≠ .Accept →
    ended.1.context.forgetFurthest = entry.context.forgetFurthest
  accepted : ended.2 = .Accept → ∃ (place : ScanContext) (state : DeleteScanVisitState),
    0 < state.deleteCount ∧ state.deleteCount ≤ maxDeletes ∧
      (visit state place).2 = .Accept ∧
      DeleteScan.Committed state (visit state place).1.context ended.1.context ∧
      (visit.Restores →
        DeletedFrom inp entry.settings entry.context place.context state.deleteCount)

variable {inp} {visit : DeleteScanVisit}

theorem scanSpec_of_settled {maxDeletes : ℕ} {entry : ScanContext}
    {ended : DeleteScan × DeleteScanVisitResult}
    (h : DeleteScan.Settled inp visit entry.settings entry.context maxDeletes ended) :
    ScanSpec inp visit maxDeletes entry (ended.1.restore.ctx, ended.2) where
  settings := h.guarded.restore_settings
  restored hne := (congrArg _ (DeleteScan.restore_context _)).trans (h.restored hne)
  accepted haccept := by
    obtain ⟨place, state, hlanded, hstate, hvisit, hcommitted⟩ := h.accepted haccept
    refine ⟨place.ctx, state, hstate ▸ hlanded.pos, hstate ▸ hlanded.bounded, hvisit, ?_,
      fun hrestores => hstate ▸ hlanded.deleted hrestores⟩
    show DeleteScan.Committed _ _ ended.1.restore.ctx.context
    rwa [DeleteScan.restore_context]

/-- A scan that may not delete answers Stop and does nothing. -/
theorem scanSpec_stop {maxDeletes : ℕ} {entry : ScanContext} :
    ScanSpec inp visit maxDeletes entry (entry, .Stop) :=
  ⟨rfl, fun _ => rfl,
    fun haccept => absurd haccept (show DeleteScanVisitResult.Stop ≠ .Accept by decide)⟩

/-- A scan begins soundly in a context in use without a pending bridge. -/
theorem sound_start {o : RecoveryOptions} {entry : RecoveryContext} {marks : List RecoveryMark}
    {maxDeletes : ℕ} (htracks : RecoverySession.Tracks ⟨entry, marks⟩)
    (hpending : entry.pendingHiddenTriviaDeleteEdit.2 = false) :
    DeleteScan.Sound inp visit o entry maxDeletes { scope := o.budgetScope, ctx := ⟨o, entry⟩ } :=
  ⟨⟨rfl, rfl⟩, Nat.zero_le _, .start htracks hpending, fun _ => .inl ⟨rfl, rfl, rfl, hpending⟩⟩

theorem gated_eq_of_accept {shouldRetry : DeleteScanVisitState → ScanContext → Bool}
    {retry : DeleteScanVisit} {state : DeleteScanVisitState} {ctx : ScanContext}
    (h : (gated shouldRetry retry state ctx).2 = .Accept) :
    gated shouldRetry retry state ctx = retry state ctx := by
  rw [gated] at h ⊢
  split at h
  next hretry => exact if_pos hretry
  next => exact absurd h (show DeleteScanVisitResult.Continue ≠ .Accept by decide)

theorem disciplined_gated {retry : DeleteScanVisit} (h : retry.Disciplined inp)
    (shouldRetry : DeleteScanVisitState → ScanContext → Bool) :
    (gated shouldRetry retry).Disciplined inp where
  settings state ctx := by
    rw [gated]
    split
    · exact h.settings state ctx
    · rfl
  calls state ctx := by
    rw [gated]
    split
    · exact h.calls state ctx
    · exact ⟨[], .refl⟩

theorem restores_gated {retry : DeleteScanVisit} (h : retry.Restores)
    (shouldRetry : DeleteScanVisitState → ScanContext → Bool) :
    (gated shouldRetry retry).Restores := by
  intro state ctx hcontinue
  rw [gated] at hcontinue ⊢
  split
  next hretry =>
    rw [if_pos hretry] at hcontinue
    exact h state ctx hcontinue
  next => rfl

/-- The skipping after a deletion is put back, too. -/
theorem ScanSpec.retry {retry : DeleteScanVisit} {o : RecoveryOptions} {entry : RecoveryContext}
    {maxDeletes : ℕ} {shouldRetry : DeleteScanVisitState → ScanContext → Bool}
    {ended : ScanContext × DeleteScanVisitResult}
    (h : ScanSpec inp (gated shouldRetry retry) maxDeletes
      ⟨{ o with skipAfterDelete := false }, entry⟩ ended) :
    ScanSpec inp retry maxDeletes ⟨o, entry⟩
      ({ ended.1 with settings.skipAfterDelete := o.skipAfterDelete }, ended.2) where
  settings := by
    show { ended.1.settings with skipAfterDelete := o.skipAfterDelete } = o
    rw [h.settings]
  restored hne := h.restored hne
  accepted haccept := by
    obtain ⟨place, state, hpos, hle, hvisit, hcommitted, hdeleted⟩ := h.accepted haccept
    have hsame := gated_eq_of_accept hvisit
    rw [hsame] at hvisit hcommitted
    exact ⟨place, state, hpos, hle, hvisit, hcommitted,
      fun hrestores => hdeleted (restores_gated hrestores shouldRetry)⟩

/-- **Guarded delete scans.**  In every context in use without a pending bridge, for
every callback that works through the operations and settles its own marks: the settings
are put back; a scan that is not accepted leaves the context as it was; and an accepted
one has deleted at most the allowed number of codepoints, in one run from the cursor on
if the callback leaves alone what it does not accept. -/
theorem guarded_delete_scans {c₀ : RecoveryContext} {s : RecoverySession} (hfresh : c₀.Fresh)
    (hs : (recoveryMachine inp).Reaches (fun _ _ => True) ⟨c₀, []⟩ s)
    (hpending : s.context.pendingHiddenTriviaDeleteEdit.2 = false)
    (hvisit : visit.Disciplined inp) (settings : RecoveryOptions) :
    (∀ canDeleteStep options, ScanSpec inp visit options.scan.maxDeletes ⟨settings, s.context⟩
      (visit_guarded_delete_scan_positions inp canDeleteStep visit options
        ⟨settings, s.context⟩)) ∧
    ∀ shouldRetry options, ScanSpec inp visit options.scan.maxDeletes ⟨settings, s.context⟩
      (visit_guarded_delete_retry_positions inp shouldRetry visit options
        ⟨settings, s.context⟩) := by
  have htracks := RecoverySession.tracks_of_reaches hfresh hs
  constructor
  · intro canDeleteStep options
    rw [visit_guarded_delete_scan_positions]
    split
    · exact scanSpec_stop
    · exact scanSpec_of_settled ((sound_start htracks hpending).passes hvisit _ options rfl)
  · intro shouldRetry options
    rw [visit_guarded_delete_retry_positions]
    split
    · exact scanSpec_stop
    · have hsound := @sound_start inp (gated shouldRetry visit)
        { settings with skipAfterDelete := false } _ _ options.scan.maxDeletes htracks hpending
      exact (scanSpec_of_settled
        (hsound.passes (disciplined_gated hvisit shouldRetry) _ _ rfl)).retry

/-! ### Scans over a blank -/

/-- Accept the `n`-th deletion. -/
def acceptAt (n : ℕ) : DeleteScanVisit :=
  fun state ctx => (ctx, if state.deleteCount = n then .Accept else .Continue)

theorem disciplined_acceptAt (inp : RecoveryInput) (n : ℕ) : (acceptAt n).Disciplined inp :=
  ⟨fun _ _ => rfl, fun _ _ => ⟨[], .refl⟩⟩

open RecoverySession (blankInput scanOptions scanCalls)

/-- In `a b` two deletions are accepted, from the start on. -/
theorem guarded_delete_scans_blank :
    (visit_guarded_delete_scan_positions blankInput (fun _ => true) (acceptAt 2) {}
        ⟨scanOptions, .initial⟩).2 = .Accept ∧
      ∃ place : ScanContext, DeletedFrom blankInput scanOptions .initial place.context 2 := by
  have haccepts : (visit_guarded_delete_scan_positions blankInput (fun _ => true) (acceptAt 2) {}
      ⟨scanOptions, .initial⟩).2 = .Accept := by decide +kernel
  obtain ⟨-, -, haccepted⟩ := (guarded_delete_scans .initial .refl rfl
    (disciplined_acceptAt blankInput 2) scanOptions).1 (fun _ => true) {}
  obtain ⟨place, state, -, -, haccept, -, hdeleted⟩ := haccepted haccepts
  have htwo : state.deleteCount = 2 := by
    by_contra hne
    rw [acceptAt, if_neg hne] at haccept
    cases haccept
  have hrestores : (acceptAt 2).Restores := fun _ _ _ => rfl
  exact ⟨haccepts, place, htwo ▸ hdeleted hrestores⟩

/-- The ends of the recorded entries. -/
def RecoveryContext.editRanges (c : RecoveryContext) : List (ℕ × ℕ) :=
  c.recoveryEdits.map fun e => (e.beginOffset, e.endOffset)

/-- In `a b` a scan that skips after a deletion leaves the blank between its deletions;
and a refused scan behind a bridge over the blank moves the end of the entry before it. -/
theorem blank_between_deletions :
    (∃ c, visit_guarded_delete_scan_positions blankInput (fun _ => true) (acceptAt 2) {}
        ⟨{ scanOptions with skipAfterDelete := true }, .initial⟩ = (c, .Accept) ∧
      c.context.editRanges = [(0, 1), (2, 3)]) ∧
    ∃ s c, (recoveryMachine blankInput).Reaches (fun _ _ => True) ⟨.initial, []⟩ s ∧
      s.context.editRanges = [(0, 1)] ∧
      visit_guarded_delete_scan_positions blankInput (fun _ => true) (acceptAt 0) {}
        ⟨scanOptions, s.context⟩ = (c, .Stop) ∧ c.context.editRanges = [(0, 3)] := by
  constructor
  · refine ⟨_, Prod.ext rfl ?_, ?_⟩
    · decide +kernel
    · decide +kernel
  · have hrun : ((recoveryMachine blankInput).run ⟨.initial, []⟩ (scanCalls.take 2)).map
        (fun s => (s.context.editRanges,
          (visit_guarded_delete_scan_positions blankInput (fun _ => true) (acceptAt 0) {}
            ⟨scanOptions, s.context⟩).2,
          (visit_guarded_delete_scan_positions blankInput (fun _ => true) (acceptAt 0) {}
            ⟨scanOptions, s.context⟩).1.context.editRanges))
        = some ([(0, 1)], .Stop, [(0, 3)]) := by decide +kernel
    obtain ⟨s, hs, hend⟩ := Option.map_eq_some_iff.mp hrun
    simp only [Prod.mk.injEq] at hend
    exact ⟨s, _, Machine.reaches_of_run hs (Machine.allowedRun_any _ _), hend.1,
      Prod.ext rfl hend.2.1, hend.2.2⟩

end Pegium
