/-
Pegium/Parser/RecoveryDriver.lean

The recovery search over an arbitrary attempt.

`RespectsWindow` is what an attempt owes to its window: its edits come in the order of
their offsets, the window it reports is the one it was given up to the forward
count, and it is stable only after an edit or at the end of the text.

A kept attempt continues the one before it (`Continues`): it begins with what that
one committed, adds edits from its resume floor on, and gets further.  This is
transitive, so it relates any two attempts kept by a search.  Each window takes an
attempt from the budget, so the search ends; and the edit floors of the committed
windows increase.

Main result: `recovery_search`.
-/
import Mathlib.Data.List.Chain
import Mathlib.Data.List.Forall2
import Mathlib.Data.List.TakeWhile
import Pegium.Parser.RecoverySearch

namespace Pegium

variable {inp : RecoveryInput} {execute : ParseOptions → RecoveryAttemptSpec → RecoveryAttempt}
  {options : ParseOptions}

/-! ### Lists entry by entry -/

section Forall₂

variable {α β γ : Type*} {R : α → β → Prop}

theorem forall₂_append_left {l₁ l₂ : List α} {l : List β} (h : List.Forall₂ R (l₁ ++ l₂) l) :
    ∃ m₁ m₂, l = m₁ ++ m₂ ∧ List.Forall₂ R l₁ m₁ ∧ List.Forall₂ R l₂ m₂ := by
  induction l₁ generalizing l with
  | nil => exact ⟨[], l, rfl, .nil, h⟩
  | cons x l₁ ih =>
    cases h with
    | cons hx h =>
      obtain ⟨m₁, m₂, rfl, h₁, h₂⟩ := ih h
      exact ⟨_ :: m₁, m₂, rfl, .cons hx h₁, h₂⟩

theorem exists_of_mem_right {l : List α} {m : List β} (h : List.Forall₂ R l m) {y : β}
    (hy : y ∈ m) : ∃ x ∈ l, R x y := by
  induction h with
  | nil => cases hy
  | cons hx _ ih =>
    rcases List.mem_cons.mp hy with rfl | hy
    · exact ⟨_, List.mem_cons_self, hx⟩
    · obtain ⟨x, hmem, hR⟩ := ih hy
      exact ⟨x, List.mem_cons_of_mem _ hmem, hR⟩

theorem forall₂_trans {S : β → γ → Prop} {T : α → γ → Prop}
    (trans : ∀ {x} {y} {z}, R x y → S y z → T x z) {l : List α} {m : List β} {n : List γ}
    (h : List.Forall₂ R l m) (h' : List.Forall₂ S m n) : List.Forall₂ T l n := by
  induction h generalizing n with
  | nil =>
    cases h'
    exact .nil
  | cons hx _ ih =>
    cases h' with
    | cons hy h' => exact .cons (trans hx hy) (ih h')

theorem forall₂_of_all_zip {p : α × β → Bool} {l : List α} {m : List β}
    (hlength : l.length ≤ m.length) (h : (List.zip l m).all p = true) :
    List.Forall₂ (fun x y => p (x, y) = true) l (m.take l.length) := by
  induction l generalizing m with
  | nil => exact .nil
  | cons x l ih =>
    cases m with
    | nil => cases hlength
    | cons y m =>
      rw [List.zip_cons_cons, List.all_cons, Bool.and_eq_true] at h
      exact .cons h.1 (ih (Nat.le_of_succ_le_succ hlength) h.2)

end Forall₂

/-! ### Replayed entries -/

/-- Two entries of a script that count as the same for replay. -/
def SameEntry (inp : RecoveryInput) (lhs rhs : SyntaxScriptEntry) : Prop :=
  same_syntax_script_entry inp lhs rhs = true

theorem elements_equivalent_iff {lhs rhs : Option GrammarElement} :
    elements_equivalent_for_replay inp lhs rhs = true ↔
      lhs = rhs ∨ ∃ value, lhs.bind inp.literal = some value ∧
        rhs.bind inp.literal = some value := by
  unfold elements_equivalent_for_replay
  by_cases heq : lhs = rhs
  · simp [heq]
  · rw [if_neg (by simpa using heq)]
    cases lhs.bind inp.literal with
    | none => simp [heq]
    | some l =>
      cases rhs.bind inp.literal with
      | none => simp [heq]
      | some r =>
        show (l == r) = true ↔ _
        rw [beq_iff_eq]
        constructor
        · rintro rfl
          exact .inr ⟨l, rfl, rfl⟩
        · rintro (h | ⟨value, hl, hr⟩)
          · exact absurd h heq
          · exact (Option.some.inj hl).trans (Option.some.inj hr).symm

theorem elements_equivalent_trans {e₁ e₂ e₃ : Option GrammarElement}
    (h : elements_equivalent_for_replay inp e₁ e₂ = true)
    (h' : elements_equivalent_for_replay inp e₂ e₃ = true) :
    elements_equivalent_for_replay inp e₁ e₃ = true := by
  rw [elements_equivalent_iff] at h h' ⊢
  rcases h with rfl | ⟨value, h₁, h₂⟩
  · exact h'
  · rcases h' with rfl | ⟨value', h₂', h₃⟩
    · exact .inr ⟨value, h₁, h₂⟩
    · rw [h₂] at h₂'
      cases h₂'
      exact .inr ⟨value, h₁, h₃⟩

theorem sameEntry_iff {lhs rhs : SyntaxScriptEntry} :
    SameEntry inp lhs rhs ↔ lhs.kind = rhs.kind ∧ lhs.offset = rhs.offset ∧
      lhs.beginOffset = rhs.beginOffset ∧ lhs.endOffset = rhs.endOffset ∧
      elements_equivalent_for_replay inp lhs.element rhs.element = true ∧
      lhs.message = rhs.message := by
  unfold SameEntry same_syntax_script_entry
  simp [and_assoc]

theorem SameEntry.trans {e₁ e₂ e₃ : SyntaxScriptEntry} (h : SameEntry inp e₁ e₂)
    (h' : SameEntry inp e₂ e₃) : SameEntry inp e₁ e₃ := by
  rw [sameEntry_iff] at h h' ⊢
  obtain ⟨kind, offset, start, stop, element, message⟩ := h
  obtain ⟨kind', offset', start', stop', element', message'⟩ := h'
  exact ⟨kind.trans kind', offset.trans offset', start.trans start', stop.trans stop',
    elements_equivalent_trans element element', message.trans message'⟩

/-! ### What an attempt commits -/

namespace RecoveryAttempt

variable {a b c : RecoveryAttempt}

/-- From where on the next attempt may edit. -/
def resumeFloor (a : RecoveryAttempt) : ℕ := (committed_replay_prefix_contract a).resumeFloor

/-- The edits that the next attempt replays. -/
def committed (a : RecoveryAttempt) : List SyntaxScriptEntry :=
  a.recoveryEdits.take (committed_replay_prefix_contract a).preservedEditCount

theorem resumeFloor_of_ne_nil (h : a.recoveryEdits ≠ []) :
    a.resumeFloor = max a.parsedLength a.facts.lastEditOffset := by
  unfold resumeFloor committed_replay_prefix_contract
  rw [if_neg (by simpa using h)]

/-- **The committed edits are those that end before the resume floor**, up to the first that
does not. -/
theorem committed_eq_takeWhile :
    a.committed = a.recoveryEdits.takeWhile fun edit => edit.endOffset < a.resumeFloor := by
  by_cases h : a.recoveryEdits = []
  · rw [committed, h, List.take_nil]
    rfl
  · rw [committed, resumeFloor_of_ne_nil h, committed_replay_prefix_contract,
      if_neg (by simpa using h)]
    exact (List.prefix_iff_eq_take.mp (List.takeWhile_prefix _)).symm

theorem length_committed :
    a.committed.length = (committed_replay_prefix_contract a).preservedEditCount := by
  refine List.length_take_of_le ?_
  unfold committed_replay_prefix_contract
  split
  · exact Nat.zero_le _
  · exact (List.takeWhile_prefix _).length_le

theorem endOffset_lt_of_mem_committed {edit : SyntaxScriptEntry} (h : edit ∈ a.committed) :
    edit.endOffset < a.resumeFloor := by
  rw [committed_eq_takeWhile] at h
  simpa using List.mem_takeWhile_imp h

/-- An attempt gets on from another one: what that one committed is kept, what is new
begins at or above its resume floor, and more is parsed. -/
structure Continues (inp : RecoveryInput) (a b : RecoveryAttempt) : Prop where
  edits : ∃ kept added, b.recoveryEdits = kept ++ added ∧
    List.Forall₂ (SameEntry inp) a.committed kept ∧
    ∀ edit ∈ added, a.resumeFloor ≤ edit.beginOffset
  edited : b.recoveryEdits ≠ []
  beyond : a.resumeFloor < b.parsedLength
  further : a.parsedLength < b.parsedLength

theorem Continues.trans (h : Continues inp a b) (h' : Continues inp b c) : Continues inp a c := by
  obtain ⟨kept, added, hb, hkept, hadded⟩ := h.edits
  obtain ⟨kept', added', hc, hkept', hadded'⟩ := h'.edits
  have hfloor : a.resumeFloor ≤ b.resumeFloor := by
    rw [resumeFloor_of_ne_nil h.edited]
    exact Nat.le_trans (Nat.le_of_lt h.beyond) (Nat.le_max_left _ _)
  -- what `a` committed ends before the floor of `b`, so `b` commits it too
  have hcommitted : b.committed
      = kept ++ added.takeWhile fun edit => edit.endOffset < b.resumeFloor := by
    rw [committed_eq_takeWhile, hb]
    refine List.takeWhile_append_of_pos fun edit hedit => ?_
    obtain ⟨old, hold, hsame⟩ := exists_of_mem_right hkept hedit
    obtain ⟨-, -, -, hend, -⟩ := sameEntry_iff.mp hsame
    have hlt := endOffset_lt_of_mem_committed hold
    simp only [decide_eq_true_eq]
    omega
  rw [hcommitted] at hkept'
  obtain ⟨kept₁, kept₂, hsplit, hkept₁, hkept₂⟩ := forall₂_append_left hkept'
  refine ⟨⟨kept₁, kept₂ ++ added', ?_, ?_, fun edit hedit => ?_⟩, h'.edited, ?_, ?_⟩
  · rw [hc, hsplit, List.append_assoc]
  · exact forall₂_trans (fun h h' => h.trans h') hkept hkept₁
  · rcases List.mem_append.mp hedit with hedit | hedit
    · obtain ⟨old, hold, hsame⟩ := exists_of_mem_right hkept₂ hedit
      obtain ⟨-, -, hstart, -⟩ := sameEntry_iff.mp hsame
      rw [← hstart]
      exact hadded old (List.takeWhile_subset _ hold)
    · exact Nat.le_trans hfloor (hadded' edit hedit)
  · exact Nat.lt_trans h.beyond h'.further
  · exact Nat.lt_trans h.further h'.further

end RecoveryAttempt

/-! ### The attempts of a window -/

/-- What an attempt owes to its window. -/
structure RespectsWindow (window : RecoveryWindow) (attempt : RecoveryAttempt) : Prop where
  ordered : attempt.recoveryEdits.Pairwise fun edit edit' => edit.beginOffset ≤ edit'.beginOffset
  replayed : ∀ replay ∈ attempt.replayWindow,
    replay = { window with forwardTokenCount := replay.forwardTokenCount }
  stable : attempt.entryRuleMatched = true → attempt.stableAfterRecovery = true →
    attempt.fullMatch = true ∨ attempt.recoveryEdits ≠ []

/-- An attempt that was run in a window, under some options and committed edits. -/
def OfWindow (execute : ParseOptions → RecoveryAttemptSpec → RecoveryAttempt)
    (window : RecoveryWindow) (attempt : RecoveryAttempt) : Prop :=
  ∃ options spec, spec.window = window ∧ attempt = run_recovery_attempt execute options spec

section Window

variable {window : RecoveryWindow} {spec : RecoveryAttemptSpec} {attempt : RecoveryAttempt}

theorem ofWindow_run (options : ParseOptions) (spec : RecoveryAttemptSpec) :
    OfWindow execute spec.window (run_recovery_attempt execute options spec) :=
  ⟨options, spec, rfl, rfl⟩

theorem ofWindow_tryPruned {pruned : RecoveryAttempt} {dropIndex : ℕ}
    (h : tryPrunedEditSet inp execute options spec attempt dropIndex = some pruned) :
    OfWindow execute spec.window pruned := by
  unfold tryPrunedEditSet at h
  dsimp only at h
  split at h
  next => cases h
  next =>
    split at h
    next =>
      cases h
      refine ⟨_, _, ?_, rfl⟩
      rfl
    next => cases h

theorem ofWindow_prune (rounds : ℕ) (h : OfWindow execute spec.window attempt) :
    OfWindow execute spec.window (pruneRecoveryEdits inp execute options spec rounds attempt) := by
  induction rounds generalizing attempt with
  | zero => exact h
  | succ rounds ih =>
    unfold pruneRecoveryEdits
    split
    · split
      next pruned hpruned =>
        obtain ⟨dropIndex, -, hpruned⟩ := List.exists_of_findSome?_eq_some hpruned
        exact ih (ofWindow_tryPruned hpruned)
      · exact h
    · exact h

theorem ofWindow_minimize (h : OfWindow execute spec.window attempt) :
    OfWindow execute spec.window (minimize_recovery_edits inp execute options spec attempt) := by
  unfold minimize_recovery_edits
  split
  · exact h
  · exact ofWindow_prune _ h

theorem ofWindow_probe {worthRunning : Bool} {probeOptions : ParseOptions}
    {probeSpec : RecoveryAttemptSpec} (hwindow : probeSpec.window = window)
    (h : OfWindow execute window attempt) :
    OfWindow execute window
      (runProbeAndKeepIfBetter execute worthRunning probeOptions probeSpec attempt) := by
  unfold runProbeAndKeepIfBetter
  split
  · dsimp only
    split
    · exact ⟨probeOptions, probeSpec, hwindow, rfl⟩
    · exact h
  · exact h

/-- **Whatever the probes do, the attempt of a window is one of the window.** -/
theorem ofWindow_primary (hwindow : spec.window = window) :
    OfWindow execute window (primary_recovery_attempt inp execute options spec) := by
  subst hwindow
  unfold primary_recovery_attempt
  refine ofWindow_probe ?_ (ofWindow_probe ?_ (ofWindow_probe ?_ (ofWindow_probe ?_
    (ofWindow_minimize (ofWindow_run options spec)))))
  all_goals rfl

/-! ### Accepted attempts -/

theorem OfWindow.respects
    (contract : ∀ options spec, RespectsWindow spec.window (execute options spec))
    (h : OfWindow execute window attempt) : RespectsWindow window attempt := by
  obtain ⟨options, spec, rfl, rfl⟩ := h
  have hraw := contract options spec
  exact ⟨hraw.ordered, hraw.replayed, hraw.stable⟩

/-- An attempt of a window is classified. -/
theorem OfWindow.classified (h : OfWindow execute window attempt) :
    attempt.facts = derive_attempt_facts attempt ∧
      attempt.status = attempt_status attempt attempt.facts := by
  obtain ⟨options, spec, rfl, rfl⟩ := h
  exact ⟨rfl, rfl⟩

theorem continuesAfterFirstEdit_derive
    (h : (derive_attempt_facts attempt).continuesAfterFirstEdit = true) :
    attempt.recoveryEdits ≠ [] := by
  rintro hnil
  rw [derive_attempt_facts, hnil] at h
  cases h

/-- What makes an attempt selectable. -/
theorem selectable_cases {facts : AttemptFacts} (h : attempt_status attempt facts = .Selectable) :
    attempt.entryRuleMatched = true ∧ (attempt.fullMatch = true ∨
      attempt.stableAfterRecovery = true ∨ facts.continuesAfterFirstEdit = true) := by
  unfold attempt_status at h
  dsimp only at h
  split_ifs at h with hmatched hcost hedits hdone hhorizon hdelete hreached hedits'
  · -- a full match, or stable
    refine ⟨by simpa using hmatched, ?_⟩
    rcases Bool.or_eq_true_iff.mp hdone with hfull | hstable
    · exact .inl hfull
    · exact .inr (.inl hstable)
  · exact ⟨by simpa using hmatched, .inr (.inr (Bool.and_eq_true_iff.mp hreached).2)⟩

/-- A selectable attempt is a full match, or has an edit. -/
theorem edited_of_selectable
    (contract : ∀ options spec, RespectsWindow spec.window (execute options spec))
    (h : OfWindow execute window attempt)
    (hselectable : is_selectable_recovery_attempt attempt = true) :
    attempt.fullMatch = true ∨ attempt.recoveryEdits ≠ [] := by
  obtain ⟨hfacts, hstatus⟩ := h.classified
  rw [is_selectable_recovery_attempt, beq_iff_eq, hstatus] at hselectable
  obtain ⟨hmatched, hfull | hstable | hcontinues⟩ := selectable_cases hselectable
  · exact .inl hfull
  · exact (h.respects contract).stable hmatched hstable
  · rw [hfacts] at hcontinues
    exact .inr (continuesAfterFirstEdit_derive hcontinues)

theorem edited_of_fallback {selectedAttempt : RecoveryAttempt}
    (h : satisfies_non_credible_fallback_contract inp attempt selectedAttempt = true) :
    attempt.recoveryEdits ≠ [] := by
  rintro hnil
  have hnot : admits_non_credible_fallback attempt = false := by
    unfold admits_non_credible_fallback
    rw [hnil]
    split <;> rfl
  unfold satisfies_non_credible_fallback_contract at h
  simp [hnot] at h

/-- What acceptance checks. -/
structure Accepted (inp : RecoveryInput) (attempt selectedAttempt : RecoveryAttempt)
    (continuingRecovery : Bool) : Prop where
  preserves : preserves_committed_replay_prefix inp attempt selectedAttempt = true
  boundary : rewrites_committed_replay_boundary attempt
    (committed_replay_prefix_contract selectedAttempt) = false
  admitted : is_selectable_recovery_attempt attempt = true ∨ continuingRecovery = true ∨
    satisfies_non_credible_fallback_contract inp attempt selectedAttempt = true
  extends_site : continuingRecovery = true → extends_current_recovery_site attempt
    (committed_replay_prefix_contract selectedAttempt) = true

theorem accepted_of_consider {candidate selectedAttempt : RecoveryAttempt} {continuing : Bool}
    (h : consider_window_attempt_candidate inp candidate selectedAttempt continuing
      = some attempt) :
    attempt = candidate ∧ Accepted inp candidate selectedAttempt continuing := by
  unfold consider_window_attempt_candidate at h
  dsimp only at h
  split_ifs at h with hadmitted hkeeps hcontinuing hextends hselectable hbetter hfallback
  all_goals
    cases h
    rw [Bool.or_eq_true, not_or, Bool.not_eq_true', Bool.not_eq_false, Bool.not_eq_true] at hkeeps
    refine ⟨rfl, hkeeps.1, hkeeps.2, ?_, fun hcontinue => ?_⟩
  · exact .inr (.inl hcontinuing)
  · exact hextends
  · exact .inl hselectable
  · exact absurd hcontinue hcontinuing
  · simp only [hselectable, hcontinuing] at hadmitted
    simp at hadmitted
    exact .inr (.inr hadmitted.2)
  · exact absurd hcontinue hcontinuing

end Window

/-- The entries that follow what is kept begin at or above the resume floor. -/
theorem resumeFloor_le_of_mem_drop {attempt selectedAttempt : RecoveryAttempt}
    (ordered : attempt.recoveryEdits.Pairwise fun edit edit' =>
      edit.beginOffset ≤ edit'.beginOffset)
    (hboundary : rewrites_committed_replay_boundary attempt
      (committed_replay_prefix_contract selectedAttempt) = false) {edit : SyntaxScriptEntry}
    (hedit : edit ∈ attempt.recoveryEdits.drop selectedAttempt.committed.length) :
    selectedAttempt.resumeFloor ≤ edit.beginOffset := by
  rw [RecoveryAttempt.length_committed] at hedit
  unfold rewrites_committed_replay_boundary at hboundary
  split at hboundary
  next first hfirst =>
    obtain ⟨hlt, rfl⟩ := List.getElem?_eq_some_iff.mp hfirst
    have hfloor := of_decide_eq_false hboundary
    rw [List.drop_eq_getElem_cons hlt] at hedit
    rcases List.mem_cons.mp hedit with rfl | hedit
    · exact Nat.le_of_not_lt hfloor
    · have hsorted := ordered.drop (i := (committed_replay_prefix_contract
        selectedAttempt).preservedEditCount)
      rw [List.drop_eq_getElem_cons hlt] at hsorted
      exact Nat.le_trans (Nat.le_of_not_lt hfloor) (List.rel_of_pairwise_cons hsorted hedit)
  next hnone =>
    rw [List.drop_eq_nil_of_le (List.getElem?_eq_none_iff.mp hnone)] at hedit
    cases hedit

/-- **An accepted attempt continues the one before**, once that one has an edit. -/
theorem continues_of_accepted {attempt selectedAttempt : RecoveryAttempt}
    (hedited : selectedAttempt.recoveryEdits ≠ [])
    (ordered : attempt.recoveryEdits.Pairwise fun edit edit' =>
      edit.beginOffset ≤ edit'.beginOffset)
    (h : Accepted inp attempt selectedAttempt true) :
    selectedAttempt.Continues inp attempt := by
  have hextends := h.extends_site rfl
  rw [extends_current_recovery_site, Bool.and_eq_true, decide_eq_true_eq, decide_eq_true_eq]
    at hextends
  have hpreserves := h.preserves
  rw [ preserves_committed_replay_prefix, Bool.and_eq_true, decide_eq_true_eq] at hpreserves
  obtain ⟨hcount, hbeyond⟩ := hextends
  have hlength : selectedAttempt.committed.length ≤ attempt.recoveryEdits.length := by
    rw [RecoveryAttempt.length_committed]
    exact hpreserves.1
  refine ⟨⟨_, _, (List.take_append_drop selectedAttempt.committed.length _).symm,
    forall₂_of_all_zip hlength hpreserves.2,
    fun edit hedit => resumeFloor_le_of_mem_drop ordered h.boundary hedit⟩, ?_, hbeyond, ?_⟩
  · exact List.ne_nil_of_length_pos (Nat.zero_lt_of_lt hcount)
  · refine Nat.lt_of_le_of_lt ?_ hbeyond
    rw [show (committed_replay_prefix_contract selectedAttempt).resumeFloor
      = max selectedAttempt.parsedLength selectedAttempt.facts.lastEditOffset from
      RecoveryAttempt.resumeFloor_of_ne_nil hedited]
    exact Nat.le_max_left _ _

/-! ### One site -/

/-- The forward count does not move the edit floor. -/
theorem editFloorOffset_plan (snapshot : FailureSnapshot) (attempt : RecoveryAttempt)
    (options : ParseOptions) (count count' : ℕ) :
    (plan_recovery_window snapshot attempt options count).editFloorOffset
      = (plan_recovery_window snapshot attempt options count').editFloorOffset := by
  unfold plan_recovery_window compute_recovery_window
  dsimp only
  split <;> rfl

/-- A committed window: its attempt is accepted, it is counted, and its edit floor is above
that of the window committed before. -/
structure Commits (inp : RecoveryInput)
    (execute : ParseOptions → RecoveryAttemptSpec → RecoveryAttempt) (options : ParseOptions)
    (s : SearchState) (result : RecoverySearchRunResult) (window : RecoveryWindow) : Prop where
  attempt : ∃ planned, OfWindow execute planned result.selectedAttempt ∧
    window = result.selectedAttempt.replayWindow.getD planned ∧
    (0 < s.result.recoveryWindowsTried → s.previousRecoveryEditFloor < planned.editFloorOffset)
  accepted : Accepted inp result.selectedAttempt s.result.selectedAttempt
    (!s.result.selectedWindows.isEmpty)
  windows : result.selectedWindows = s.result.selectedWindows ++ [window]
  tried : s.result.recoveryWindowsTried < result.recoveryWindowsTried
  runs : s.result.recoveryAttemptRuns < result.recoveryAttemptRuns
  budget : result.recoveryAttemptRuns ≤ options.attemptBudget

/-- A result that differs in its counts only, which stay in the budget. -/
structure SameSelection (options : ParseOptions) (before after : RecoverySearchRunResult) :
    Prop where
  attempt : after.selectedAttempt = before.selectedAttempt
  windows : after.selectedWindows = before.selectedWindows
  tried : before.recoveryWindowsTried ≤ after.recoveryWindowsTried
  runs : before.recoveryAttemptRuns ≤ after.recoveryAttemptRuns
  budget : before.recoveryAttemptRuns ≤ options.attemptBudget →
    after.recoveryAttemptRuns ≤ options.attemptBudget

theorem SameSelection.refl (options : ParseOptions) (result : RecoverySearchRunResult) :
    SameSelection options result result :=
  ⟨rfl, rfl, Nat.le_refl _, Nat.le_refl _, id⟩

section Site

variable {s : SearchState} {result result' : RecoverySearchRunResult} {count : ℕ}

theorem searchWindow_finished
    (h : searchWindow inp execute options s result count = .finished result') :
    result' = result := by
  unfold searchWindow at h
  split at h
  · cases h
    rfl
  · dsimp only at h
    split at h
    · cases h
      rfl
    · split at h <;> cases h

/-- A width that is tried has not stalled, and takes an attempt from the budget. -/
theorem searchWindow_rejected
    (h : searchWindow inp execute options s result count = .rejected result') :
    SameSelection options result result' ∧
      (count = options.windowTokenCount → 0 < result.recoveryWindowsTried →
        s.previousRecoveryEditFloor < (plan_recovery_window s.currentFailure
          result.selectedAttempt options count).editFloorOffset) := by
  unfold searchWindow at h
  split at h
  · cases h
  next hbudget =>
    dsimp only at h
    split at h
    · cases h
    next hstall =>
      split at h
      · cases h
      · cases h
        have hlt : result.recoveryAttemptRuns < options.attemptBudget := by
          simpa [recovery_attempt_budget_exhausted] using hbudget
        exact ⟨⟨rfl, rfl, Nat.le_succ _, Nat.le_succ _, fun _ => hlt⟩,
          fun hcount htried => Nat.lt_of_not_le fun hle => hstall ⟨hcount, htried, hle⟩⟩

theorem searchWindow_committed {window : RecoveryWindow}
    (h : searchWindow inp execute options s result count = .committed result' window)
    (same : SameSelection options s.result result)
    (floor : count ≠ options.windowTokenCount → 0 < s.result.recoveryWindowsTried →
      s.previousRecoveryEditFloor < (plan_recovery_window s.currentFailure
        result.selectedAttempt options count).editFloorOffset) :
    Commits inp execute options s result' window := by
  unfold searchWindow at h
  split at h
  · cases h
  next hbudget =>
    dsimp only at h
    split at h
    · cases h
    next hstall =>
      split at h
      next accepted haccepted =>
        cases h
        have hlt : result.recoveryAttemptRuns < options.attemptBudget := by
          simpa [recovery_attempt_budget_exhausted] using hbudget
        rw [try_recovery_window] at haccepted
        obtain ⟨heq, hchecks⟩ := accepted_of_consider haccepted
        rw [← heq, same.attempt, same.windows] at hchecks
        refine ⟨⟨_, heq ▸ ofWindow_primary rfl, rfl, fun htried => ?_⟩, hchecks, ?_, ?_, ?_, hlt⟩
        · by_cases hcount : count = options.windowTokenCount
          · exact Nat.lt_of_not_le fun hle =>
              hstall ⟨hcount, Nat.lt_of_lt_of_le htried same.tried, hle⟩
          · exact floor hcount htried
        · rw [same.windows]
        · exact Nat.lt_succ_of_le same.tried
        · exact Nat.lt_succ_of_le same.runs
      next => cases h

/-- **What comes of a site.** -/
theorem searchSite_cases :
    (∃ result, searchSite inp execute options s = .finished result ∧
      SameSelection options s.result result) ∨
    ∃ result window, searchSite inp execute options s = .committed result window ∧
      Commits inp execute options s result window := by
  unfold searchSite
  cases hfirst : searchWindow inp execute options s s.result options.windowTokenCount with
  | finished result =>
    cases searchWindow_finished hfirst
    exact .inl ⟨_, rfl, .refl _ _⟩
  | committed result window =>
    exact .inr ⟨_, _, rfl, searchWindow_committed hfirst (.refl _ _) fun hne => absurd rfl hne⟩
  | rejected result =>
    obtain ⟨same, floor⟩ := searchWindow_rejected hfirst
    dsimp only
    split
    · exact .inl ⟨_, rfl, same⟩
    · cases hsecond : searchWindow inp execute options s result options.widenedTokenCount with
      | finished result' =>
        cases searchWindow_finished hsecond
        exact .inl ⟨_, rfl, same⟩
      | rejected result' =>
        obtain ⟨same', -⟩ := searchWindow_rejected hsecond
        exact .inl ⟨_, rfl, same'.attempt.trans same.attempt, same'.windows.trans same.windows,
          Nat.le_trans same.tried same'.tried, Nat.le_trans same.runs same'.runs,
          fun hle => same'.budget (same.budget hle)⟩
      | committed result' window =>
        refine .inr ⟨_, _, rfl, searchWindow_committed hsecond same fun _ htried => ?_⟩
        rw [same.attempt, editFloorOffset_plan _ _ _ _ options.windowTokenCount]
        exact floor rfl htried

end Site

/-! ### Whole searches -/

/-- The attempts that a search keeps, one after the other. -/
def keptAttempts (inp : RecoveryInput)
    (execute : ParseOptions → RecoveryAttemptSpec → RecoveryAttempt) (options : ParseOptions) :
    ℕ → SearchState → List RecoveryAttempt
  | 0, _ => []
  | sites + 1, s =>
    match searchSite inp execute options s with
    | .finished _ => []
    | .committed result window =>
      result.selectedAttempt ::
        match SearchState.next result window with
        | none => []
        | some s' => keptAttempts inp execute options sites s'

/-- The search goes on after a window: the kept attempt has an edit, and the committed
windows have increasing edit floors. -/
structure Resuming (s : SearchState) : Prop where
  edited : s.result.selectedAttempt.recoveryEdits ≠ []
  windows : s.result.selectedWindows ≠ []
  tried : 0 < s.result.recoveryWindowsTried
  floors : s.result.selectedWindows.Pairwise fun w w' => w.editFloorOffset < w'.editFloorOffset
  last : ∀ w ∈ s.result.selectedWindows, w.editFloorOffset ≤ s.previousRecoveryEditFloor

section Search

variable {s s' : SearchState} {result : RecoverySearchRunResult} {window : RecoveryWindow}

theorem Commits.floor (contract : ∀ options spec, RespectsWindow spec.window (execute options spec))
    (h : Commits inp execute options s result window) (htried : 0 < s.result.recoveryWindowsTried) :
    s.previousRecoveryEditFloor < window.editFloorOffset := by
  obtain ⟨planned, hattempt, rfl, hfloor⟩ := h.attempt
  cases hreplay : result.selectedAttempt.replayWindow with
  | none => exact hfloor htried
  | some replay =>
    rw [Option.getD_some, (hattempt.respects contract).replayed replay hreplay]
    exact hfloor htried

/-- A kept attempt that is not a full match has an edit. -/
theorem Commits.edited
    (contract : ∀ options spec, RespectsWindow spec.window (execute options spec))
    (h : Commits inp execute options s result window)
    (hfull : result.selectedAttempt.fullMatch = false) :
    result.selectedAttempt.recoveryEdits ≠ [] := by
  obtain ⟨planned, hattempt, -⟩ := h.attempt
  rcases h.accepted.admitted with hselectable | hcontinuing | hfallback
  · rcases edited_of_selectable contract hattempt hselectable with h | h
    · rw [hfull] at h
      cases h
    · exact h
  · have hextends := h.accepted.extends_site hcontinuing
    rw [extends_current_recovery_site, Bool.and_eq_true, decide_eq_true_eq] at hextends
    exact List.ne_nil_of_length_pos (Nat.zero_lt_of_lt hextends.1)
  · exact edited_of_fallback hfallback

/-- **One site, once a window is committed**: the new attempt continues the old one. -/
theorem Resuming.continues
    (contract : ∀ options spec, RespectsWindow spec.window (execute options spec)) (hs : Resuming s)
    (h : Commits inp execute options s result window) :
    s.result.selectedAttempt.Continues inp result.selectedAttempt := by
  obtain ⟨planned, hattempt, -⟩ := h.attempt
  have haccepted := h.accepted
  rw [show (!s.result.selectedWindows.isEmpty) = true by simpa using hs.windows] at haccepted
  exact continues_of_accepted hs.edited (hattempt.respects contract).ordered haccepted

/-- The windows after a commit. -/
theorem Commits.floors
    (contract : ∀ options spec, RespectsWindow spec.window (execute options spec))
    (hs : Resuming s ∨ s.result.selectedWindows = [])
    (h : Commits inp execute options s result window) :
    (result.selectedWindows.Pairwise fun w w' => w.editFloorOffset < w'.editFloorOffset) ∧
      ∀ w ∈ result.selectedWindows, w.editFloorOffset ≤ window.editFloorOffset := by
  rw [h.windows]
  rcases hs with hs | hnil
  · have hlt := h.floor contract hs.tried
    refine ⟨List.pairwise_append.mpr ⟨hs.floors, List.pairwise_singleton _ _, ?_⟩, ?_⟩
    · intro w hw w' hw'
      cases List.mem_singleton.mp hw'
      exact Nat.lt_of_le_of_lt (hs.last w hw) hlt
    · intro w hw
      rcases List.mem_append.mp hw with hw | hw
      · exact Nat.le_of_lt (Nat.lt_of_le_of_lt (hs.last w hw) hlt)
      · exact Nat.le_of_eq (congrArg _ (List.mem_singleton.mp hw))
  · rw [hnil, List.nil_append]
    exact ⟨List.pairwise_singleton _ _, fun w hw => Nat.le_of_eq
      (congrArg _ (List.mem_singleton.mp hw))⟩

/-- The search goes on in a state of that kind. -/
theorem Commits.resuming
    (contract : ∀ options spec, RespectsWindow spec.window (execute options spec))
    (hs : Resuming s ∨ s.result.selectedWindows = [])
    (h : Commits inp execute options s result window)
    (hnext : SearchState.next result window = some s') : Resuming s' ∧ s'.result = result := by
  unfold SearchState.next at hnext
  split at hnext
  · cases hnext
  next hfull =>
    obtain ⟨failure, -, rfl⟩ := Option.map_eq_some_iff.mp hnext
    obtain ⟨hfloors, hlast⟩ := h.floors contract hs
    refine ⟨⟨h.edited contract (by simpa using hfull), ?_, Nat.zero_lt_of_lt h.tried, hfloors,
      hlast⟩, rfl⟩
    show result.selectedWindows ≠ []
    rw [h.windows]
    exact List.append_ne_nil_of_right_ne_nil _ (List.cons_ne_nil _ _)

/-- What a search has come to when it returns. -/
structure Completes (inp : RecoveryInput) (options : ParseOptions) (s : SearchState)
    (kept : List RecoveryAttempt) (result : RecoverySearchRunResult) : Prop where
  attempt : result.selectedAttempt = kept.getLast?.getD s.result.selectedAttempt
  windows : result.selectedWindows.length = s.result.selectedWindows.length + kept.length
  floors : result.selectedWindows.Pairwise fun w w' => w.editFloorOffset < w'.editFloorOffset
  budget : result.recoveryAttemptRuns ≤ options.attemptBudget
  chain : kept.IsChain (RecoveryAttempt.Continues inp)
  first : Resuming s → ∀ attempt ∈ kept.head?, s.result.selectedAttempt.Continues inp attempt

theorem Completes.of_same (same : SameSelection options s.result result)
    (hs : Resuming s ∨ s.result.selectedWindows = [])
    (hbudget : s.result.recoveryAttemptRuns ≤ options.attemptBudget) :
    Completes inp options s [] result where
  attempt := same.attempt
  windows := by rw [same.windows]; rfl
  floors := by
    rw [same.windows]
    rcases hs with hs | hnil
    · exact hs.floors
    · rw [hnil]
      exact .nil
  budget := same.budget hbudget
  chain := .nil
  first _ attempt h := by cases h

/-- A window is committed, and the rest of the search completes. -/
theorem Completes.of_commits
    (contract : ∀ options spec, RespectsWindow spec.window (execute options spec))
    (hs : Resuming s ∨ s.result.selectedWindows = [])
    (h : Commits inp execute options s result window)
    (hnext : SearchState.next result window = some s') {kept : List RecoveryAttempt}
    {result' : RecoverySearchRunResult} (hrest : Completes inp options s' kept result') :
    Completes inp options s (result.selectedAttempt :: kept) result' := by
  obtain ⟨hresuming, hresult⟩ := h.resuming contract hs hnext
  refine ⟨?_, ?_, hrest.floors, hrest.budget, ?_, ?_⟩
  · rw [hrest.attempt, hresult, List.getLast?_cons, Option.getD_some]
  · rw [hrest.windows, hresult, h.windows, List.length_append, List.length_singleton,
      List.length_cons]
    omega
  · refine List.isChain_cons.mpr ⟨fun attempt hattempt => ?_, hrest.chain⟩
    rw [← hresult]
    exact hrest.first hresuming attempt hattempt
  · rintro hs' attempt hattempt
    cases hattempt
    exact hs'.continues contract h

/-- **A search with an attempt for each site left in its budget completes.** -/
theorem searchSites_completes
    (contract : ∀ options spec, RespectsWindow spec.window (execute options spec)) (sites : ℕ)
    (hs : Resuming s ∨ s.result.selectedWindows = [])
    (hbudget : s.result.recoveryAttemptRuns ≤ options.attemptBudget)
    (hsites : options.attemptBudget < s.result.recoveryAttemptRuns + sites) :
    ∃ result, searchSites inp execute options sites s = some result ∧
      Completes inp options s (keptAttempts inp execute options sites s) result := by
  induction sites generalizing s with
  | zero => omega
  | succ sites ih =>
    unfold searchSites keptAttempts
    rcases @searchSite_cases inp execute options s with
      ⟨result, hsite, same⟩ | ⟨result, window, hsite, hcommits⟩
    · rw [hsite]
      exact ⟨result, rfl, .of_same same hs hbudget⟩
    · rw [hsite]
      dsimp only
      cases hnext : SearchState.next result window with
      | none =>
        refine ⟨result, rfl, rfl, ?_, (hcommits.floors contract hs).1, hcommits.budget,
          List.isChain_singleton _, ?_⟩
        · rw [hcommits.windows, List.length_append]
          rfl
        · rintro hs' attempt hattempt
          cases hattempt
          exact hs'.continues contract hcommits
      | some s' =>
        obtain ⟨hresuming, hresult⟩ := hcommits.resuming contract hs hnext
        have hruns := hcommits.runs
        obtain ⟨result', hsearch, hrest⟩ := ih (.inl hresuming)
          (by rw [hresult]; exact hcommits.budget) (by rw [hresult]; omega)
        exact ⟨result', hsearch, .of_commits contract hs hcommits hnext hrest⟩

end Search

/-- The attempts that the search of a strict failure keeps. -/
def StrictFailureStageResult.keptAttempts (inp : RecoveryInput)
    (execute : ParseOptions → RecoveryAttemptSpec → RecoveryAttempt) (options : ParseOptions)
    (stage : StrictFailureStageResult) : List RecoveryAttempt :=
  match stage.failureSnapshot with
  | none => []
  | some failure =>
    if stage.strictAttempt.fullMatch then []
    else Pegium.keptAttempts inp execute options (options.attemptBudget + 1)
      ⟨stage.start, failure, 0⟩

instance : Trans (RecoveryAttempt.Continues inp) (RecoveryAttempt.Continues inp)
    (RecoveryAttempt.Continues inp) := ⟨RecoveryAttempt.Continues.trans⟩

/-- **The recovery search over any attempt that respects its window.**  The search returns
within its budget of attempts.  Of two attempts that it keeps, the later one begins with
the edits that the earlier one committed, adds edits at or above its resume floor only,
and parses more; and the committed windows have increasing edit floors. -/
theorem recovery_search
    (contract : ∀ options spec, RespectsWindow spec.window (execute options spec))
    (stage : StrictFailureStageResult) :
    ∃ result, orchestrate_recovery_search inp execute options stage = some result ∧
      result.recoveryAttemptRuns ≤ options.attemptBudget ∧
      result.selectedAttempt
        = (stage.keptAttempts inp execute options).getLast?.getD stage.strictAttempt ∧
      result.selectedWindows.length = (stage.keptAttempts inp execute options).length ∧
      (stage.keptAttempts inp execute options).Pairwise (RecoveryAttempt.Continues inp) ∧
      result.selectedWindows.Pairwise fun w w' => w.editFloorOffset < w'.editFloorOffset := by
  unfold orchestrate_recovery_search StrictFailureStageResult.keptAttempts
  cases stage.failureSnapshot with
  | none => exact ⟨_, rfl, Nat.zero_le _, rfl, rfl, .nil, .nil⟩
  | some failure =>
    cases stage.strictAttempt.fullMatch with
    | true => exact ⟨_, rfl, Nat.zero_le _, rfl, rfl, .nil, .nil⟩
    | false =>
      obtain ⟨result, hsearch, hcompletes⟩ := @searchSites_completes inp execute options
        ⟨stage.start, failure, 0⟩ contract (options.attemptBudget + 1) (.inr rfl) (Nat.zero_le _)
        (by show options.attemptBudget < 0 + _; omega)
      refine ⟨result, hsearch, hcompletes.budget, hcompletes.attempt, ?_,
        hcompletes.chain.pairwise, hcompletes.floors⟩
      rw [hcompletes.windows]
      exact Nat.zero_add _

/-! ### Two windows -/

namespace TwoWindows

/-- A text without literals. -/
def input : RecoveryInput := ⟨[], fun _ => none⟩

def insertAt (offset : ℕ) : SyntaxScriptEntry := ⟨.inserted, offset, offset, offset, none, ""⟩

/-- A failure past the last leaf. -/
def failureAt (offset : ℕ) : FailureSnapshot := ⟨offset, [], 0, false, nofun⟩

/-- The first attempt inserts something at 2 and gets stuck at 7; once that is committed,
another insertion there completes the parse. -/
def replayOrInsert (_ : ParseOptions) (spec : RecoveryAttemptSpec) : RecoveryAttempt :=
  if spec.committedRecoveryEdits.isEmpty then
    { cst := ⟨[], []⟩, recoveryEdits := [insertAt 2], failureSnapshot := some (failureAt 7)
      parsedLength := 5, maxCursorOffset := 7, editCost := 1, editCount := 1
      configuredMaxEditCost := 256, entryRuleMatched := true, stableAfterRecovery := true }
  else
    { cst := ⟨[], []⟩, recoveryEdits := [insertAt 2, insertAt 7], parsedLength := 10
      maxCursorOffset := 10, editCost := 2, editCount := 2, configuredMaxEditCost := 256
      entryRuleMatched := true, fullMatch := true, stableAfterRecovery := true }

theorem respects (options : ParseOptions) (spec : RecoveryAttemptSpec) :
    RespectsWindow spec.window (replayOrInsert options spec) := by
  unfold replayOrInsert
  split
  · exact ⟨by decide, nofun, fun _ _ => .inr (List.cons_ne_nil _ _)⟩
  · exact ⟨by decide, nofun, fun _ _ => .inl rfl⟩

/-- The strict parse stops at 2. -/
def stage : StrictFailureStageResult :=
  ⟨{ cst := ⟨[], []⟩, parsedLength := 2, maxCursorOffset := 2, entryRuleMatched := true },
    some (failureAt 2), 2⟩

end TwoWindows

open TwoWindows in
/-- Two windows are committed, and the second attempt continues the first. -/
theorem recovery_search_two_windows :
    ∃ result first second, orchestrate_recovery_search input replayOrInsert {} stage = some result ∧
      result.selectedWindows.length = 2 ∧ first.committed = [insertAt 2] ∧
      RecoveryAttempt.Continues input first second ∧ result.selectedAttempt = second := by
  obtain ⟨result, hsearch, -, hselected, hlength, hpairwise, -⟩ :=
    @recovery_search input replayOrInsert {} respects stage
  have hkept : (stage.keptAttempts input replayOrInsert {}).map RecoveryAttempt.committed
      = [[insertAt 2], [insertAt 2, insertAt 7]] := by decide +kernel
  match hattempts : stage.keptAttempts input replayOrInsert {} with
  | [first, second] =>
    rw [hattempts] at hkept hlength hpairwise hselected
    exact ⟨result, first, second, hsearch, hlength, (List.cons.inj hkept).1,
      List.rel_of_pairwise_cons hpairwise List.mem_cons_self, hselected⟩
  | [] | [_] | _ :: _ :: _ :: _ =>
    rw [hattempts] at hkept
    simp at hkept

end Pegium
