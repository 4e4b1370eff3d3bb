/-
Pegium/Parser/EditPruning.lean

The pruning of the edits of a recovery attempt.

A full match with a few edits is replayed without one of them.  When the replay is a
full match that carries exactly the other edits, it takes the place of the attempt, and
the search for an edit to drop starts again.  The parse behind a replay is any function
here.

Each round drops one edit, so the rounds end.  What remains is a full match whose edits
are, one for one, the same for replay as some of the edits at the beginning; and none of
them can be dropped, unless there is only one left (`minimize_recovery_edits_minimizes`).
The loop stops at one edit and does not try to do without it (`single_edit_kept`).
-/
import Mathlib.Data.List.Forall2
import Pegium.Parser.RecoveryDriver

namespace Pegium

/-! ### Rounds that make something smaller -/

/-- Rounds, as long as there is a next one. -/
def descend {σ : Type} (next : σ → Option σ) : ℕ → σ → σ
  | 0, s => s
  | rounds + 1, s =>
    match next s with
    | none => s
    | some s' => descend next rounds s'

section Descend

variable {σ : Type} {next : σ → Option σ} {size : σ → ℕ} {s : σ}

/-- The invariant rule. -/
theorem descend_invariant {Inv : σ → Prop} (step : ∀ s s', Inv s → next s = some s' → Inv s')
    (rounds : ℕ) (h : Inv s) : Inv (descend next rounds s) := by
  induction rounds generalizing s with
  | zero => exact h
  | succ rounds ih =>
    rw [descend]
    cases hnext : next s with
    | none => exact h
    | some s' => exact ih (step s s' h hnext)

/-- With enough rounds there is no next one. -/
theorem next_descend (smaller : ∀ s s', next s = some s' → size s' < size s) (rounds : ℕ)
    (h : size s ≤ rounds) (hzero : ∀ s, size s = 0 → next s = none) :
    next (descend next rounds s) = none := by
  induction rounds generalizing s with
  | zero => exact hzero s (Nat.le_zero.mp h)
  | succ rounds ih =>
    rw [descend]
    cases hnext : next s with
    | none => exact hnext
    | some s' =>
      have hlt := smaller s s' hnext
      exact ih (by omega)

/-- More rounds change nothing. -/
theorem descend_eq (smaller : ∀ s s', next s = some s' → size s' < size s)
    (hzero : ∀ s, size s = 0 → next s = none) {rounds rounds' : ℕ} (h : size s ≤ rounds)
    (h' : size s ≤ rounds') : descend next rounds s = descend next rounds' s := by
  induction rounds generalizing s rounds' with
  | zero =>
    have hnone := hzero s (Nat.le_zero.mp h)
    cases rounds' with
    | zero => rfl
    | succ rounds' => rw [descend, descend, hnone]
  | succ rounds ih =>
    cases hnext : next s with
    | none =>
      cases rounds' with
      | zero => rw [descend, descend, hnext]
      | succ rounds' => rw [descend, descend, hnext]
    | some s' =>
      have hlt := smaller s s' hnext
      cases rounds' with
      | zero => omega
      | succ rounds' =>
        rw [descend, descend, hnext]
        exact ih (by omega) (by omega)

end Descend

/-! ### Replays -/

section Execute

variable {inp : RecoveryInput} {execute : ParseOptions → RecoveryAttemptSpec → RecoveryAttempt}
  {options : ParseOptions} {spec : RecoveryAttemptSpec} {attempt pruned : RecoveryAttempt}

variable (inp execute options spec) in
/-- The replay of some edits in the window, without any edit of its own. -/
def replayEdits (edits : List SyntaxScriptEntry) : RecoveryAttempt :=
  run_recovery_attempt execute { options with maxRecoveryEditsPerAttempt := edits.length }
    { window := spec.window
      committedRecoveryEdits := edits
      committedRecoveryResumeFloor := spec.committedRecoveryResumeFloor }

variable (inp execute options spec) in
/-- The replay of some edits is a full match, and it carries these edits. -/
def FullReplay (edits : List SyntaxScriptEntry) : Prop :=
  (replayEdits execute options spec edits).fullMatch = true ∧
    List.Forall₂ (SameEntry inp) (replayEdits execute options spec edits).recoveryEdits edits

theorem SameEntry.refl (entry : SyntaxScriptEntry) : SameEntry inp entry entry :=
  sameEntry_iff.mpr ⟨rfl, rfl, rfl, rfl, elements_equivalent_iff.mpr (.inl rfl), rfl⟩

instance : Std.Refl (SameEntry inp) := ⟨SameEntry.refl⟩

instance : IsTrans SyntaxScriptEntry (SameEntry inp) := ⟨fun _ _ _ => SameEntry.trans⟩

/-- The test of the source for a replay that carries the edits it was given. -/
theorem replayedOnly_iff {edits committed : List SyntaxScriptEntry} :
    (edits.length == committed.length &&
        (List.zip edits committed).all fun (pruned, committed) =>
          same_syntax_script_entry inp pruned committed) = true ↔
      List.Forall₂ (SameEntry inp) edits committed := by
  rw [List.forall₂_iff_zip, Bool.and_eq_true, beq_iff_eq, List.all_eq_true]
  constructor
  · rintro ⟨hlength, hall⟩
    exact ⟨hlength, fun {a b} hmem => hall (a, b) hmem⟩
  · rintro ⟨hlength, hall⟩
    exact ⟨hlength, fun p hmem => hall hmem⟩

/-- **An edit is dropped exactly when the replay of the others is a full match that carries
them.** -/
theorem tryPrunedEditSet_eq_some {dropIndex : ℕ}
    (hdrop : dropIndex < attempt.recoveryEdits.length) :
    tryPrunedEditSet inp execute options spec attempt dropIndex = some pruned ↔
      pruned = replayEdits execute options spec (attempt.recoveryEdits.eraseIdx dropIndex) ∧
        FullReplay inp execute options spec (attempt.recoveryEdits.eraseIdx dropIndex) := by
  have hlength := List.length_eraseIdx_of_lt hdrop
  unfold tryPrunedEditSet
  rw [if_neg (by omega), Option.ite_none_right_eq_some, Option.some.injEq, Bool.and_eq_true,
    Bool.and_eq_true, replayedOnly_iff, decide_eq_true_iff]
  constructor
  · rintro ⟨⟨hfull, -⟩, rfl⟩
    exact ⟨rfl, hfull⟩
  · rintro ⟨rfl, hfull⟩
    -- a replay that carries the edits it was given has fewer of them
    have hsame := hfull.2.length_eq
    refine ⟨⟨hfull, ?_⟩, rfl⟩
    show (replayEdits execute options spec
      (attempt.recoveryEdits.eraseIdx dropIndex)).recoveryEdits.length < _
    omega

variable (inp execute options spec) in
/-- The attempt of the next round. -/
def nextPruned (attempt : RecoveryAttempt) : Option RecoveryAttempt :=
  if 1 < attempt.recoveryEdits.length then
    (List.range attempt.recoveryEdits.length).findSome?
      (tryPrunedEditSet inp execute options spec attempt)
  else none

theorem pruneRecoveryEdits_eq (rounds : ℕ) (attempt : RecoveryAttempt) :
    pruneRecoveryEdits inp execute options spec rounds attempt
      = descend (nextPruned inp execute options spec) rounds attempt := by
  induction rounds generalizing attempt with
  | zero => rfl
  | succ rounds ih =>
    rw [pruneRecoveryEdits, descend, nextPruned]
    split
    next =>
      cases (List.range attempt.recoveryEdits.length).findSome?
          (tryPrunedEditSet inp execute options spec attempt) with
      | none => rfl
      | some pruned => exact ih pruned
    next => rfl

/-- A round drops one edit, by a replay of the others. -/
theorem nextPruned_eq_some (h : nextPruned inp execute options spec attempt = some pruned) :
    ∃ dropIndex < attempt.recoveryEdits.length,
      pruned = replayEdits execute options spec (attempt.recoveryEdits.eraseIdx dropIndex) ∧
        FullReplay inp execute options spec (attempt.recoveryEdits.eraseIdx dropIndex) := by
  unfold nextPruned at h
  split at h
  next =>
    obtain ⟨dropIndex, hmem, hpruned⟩ := List.exists_of_findSome?_eq_some h
    have hdrop := List.mem_range.mp hmem
    exact ⟨dropIndex, hdrop, (tryPrunedEditSet_eq_some hdrop).mp hpruned⟩
  next => cases h

theorem length_nextPruned (attempt pruned : RecoveryAttempt)
    (h : nextPruned inp execute options spec attempt = some pruned) :
    pruned.recoveryEdits.length < attempt.recoveryEdits.length := by
  obtain ⟨dropIndex, hdrop, rfl, hfull⟩ := nextPruned_eq_some h
  rw [hfull.2.length_eq, List.length_eraseIdx_of_lt hdrop]
  omega

theorem nextPruned_nil (attempt : RecoveryAttempt) (h : attempt.recoveryEdits.length = 0) :
    nextPruned inp execute options spec attempt = none := by
  unfold nextPruned
  rw [if_neg (by omega)]

/-- There is no next round exactly when no edit can be dropped. -/
theorem nextPruned_eq_none (h : nextPruned inp execute options spec attempt = none)
    (hmore : 1 < attempt.recoveryEdits.length) {dropIndex : ℕ}
    (hdrop : dropIndex < attempt.recoveryEdits.length) :
    ¬ FullReplay inp execute options spec (attempt.recoveryEdits.eraseIdx dropIndex) := by
  intro hfull
  unfold nextPruned at h
  rw [if_pos hmore] at h
  have hnone := List.findSome?_eq_none_iff.mp h dropIndex (List.mem_range.mpr hdrop)
  rw [(tryPrunedEditSet_eq_some hdrop).mpr ⟨rfl, hfull⟩] at hnone
  cases hnone

/-! ### What the pruning keeps -/

variable (inp execute options spec) in
/-- A full match that carries some of the edits of another one: the other one itself, or a
replay of its own edits. -/
structure Prunes (attempt pruned : RecoveryAttempt) : Prop where
  fullMatch : pruned.fullMatch = true
  replayed : pruned = attempt ∨ ∃ edits,
    pruned = replayEdits execute options spec edits ∧
      FullReplay inp execute options spec edits
  sublist : List.SublistForall₂ (SameEntry inp) pruned.recoveryEdits attempt.recoveryEdits

theorem Prunes.refl (h : attempt.fullMatch = true) :
    Prunes inp execute options spec attempt attempt :=
  ⟨h, .inl rfl, Std.Refl.refl _⟩

/-- One round. -/
theorem Prunes.next {pruned' : RecoveryAttempt}
    (h : Prunes inp execute options spec attempt pruned)
    (hnext : nextPruned inp execute options spec pruned = some pruned') :
    Prunes inp execute options spec attempt pruned' := by
  obtain ⟨dropIndex, hdrop, rfl, hfull⟩ := nextPruned_eq_some hnext
  refine ⟨hfull.1, .inr ⟨_, rfl, hfull⟩, ?_⟩
  refine IsTrans.trans _ pruned.recoveryEdits _ ?_ h.sublist
  exact List.sublistForall₂_iff.mpr ⟨_, hfull.2, List.eraseIdx_sublist _ _⟩

variable (inp execute options spec) in
/-- **Pruned as far as possible**, if there are at most as many edits as are handled. -/
structure Minimizes (attempt pruned : RecoveryAttempt) : Prop
    extends Prunes inp execute options spec attempt pruned where
  minimal : attempt.recoveryEdits.length ≤ kMaxPostHocPruningEditCount →
    1 < pruned.recoveryEdits.length → ∀ dropIndex < pruned.recoveryEdits.length,
      ¬ FullReplay inp execute options spec (pruned.recoveryEdits.eraseIdx dropIndex)

/-- **The pruning is sound, ends, and is minimal down to one edit**, whatever a replay
does. -/
theorem minimize_recovery_edits_minimizes (h : attempt.fullMatch = true) :
    Minimizes inp execute options spec attempt
        (minimize_recovery_edits inp execute options spec attempt) ∧
      ∀ rounds, attempt.recoveryEdits.length ≤ rounds →
        pruneRecoveryEdits inp execute options spec rounds attempt
          = pruneRecoveryEdits inp execute options spec attempt.recoveryEdits.length attempt := by
  constructor
  · unfold minimize_recovery_edits
    split
    next hskipped =>
      refine ⟨.refl h, fun hhandled hmore => ?_⟩
      simp only [h, Bool.not_true, Bool.false_or, Bool.or_eq_true, decide_eq_true_iff] at hskipped
      omega
    next =>
      rw [pruneRecoveryEdits_eq]
      have hprunes : Prunes inp execute options spec attempt
          (descend (nextPruned inp execute options spec) attempt.recoveryEdits.length attempt) :=
        descend_invariant (fun _ _ hs hnext => hs.next hnext) _ (.refl h)
      refine ⟨hprunes, fun _ hmore dropIndex hdrop => nextPruned_eq_none ?_ hmore hdrop⟩
      exact next_descend length_nextPruned _ (Nat.le_refl _) nextPruned_nil
  · intro rounds hrounds
    rw [pruneRecoveryEdits_eq, pruneRecoveryEdits_eq]
    exact descend_eq length_nextPruned nextPruned_nil hrounds (Nat.le_refl _)

end Execute

/-! ### The last edit -/

namespace LastEdit

/-- Two literals, and both of them are `x`. -/
def input : RecoveryInput := ⟨[], fun _ => some ([120], true)⟩

def insertionOf (literal offset : ℕ) : SyntaxScriptEntry :=
  ⟨.inserted, offset, offset, offset, some (.expression literal), ""⟩

def attempt : RecoveryAttempt :=
  { cst := ⟨[], []⟩, recoveryEdits := [insertionOf 0 1, insertionOf 0 2], fullMatch := true }

/-- Every replay is a full match, and it names the other literal. -/
def alwaysMatches (_ : ParseOptions) (spec : RecoveryAttemptSpec) : RecoveryAttempt :=
  { cst := ⟨[], []⟩
    recoveryEdits := spec.committedRecoveryEdits.map fun edit => insertionOf 1 edit.offset
    fullMatch := true }

/-- A replay is a full match when it inserts at 2. -/
def needsSecond (_ : ParseOptions) (spec : RecoveryAttemptSpec) : RecoveryAttempt :=
  { cst := ⟨[], []⟩
    recoveryEdits := spec.committedRecoveryEdits
    fullMatch := spec.committedRecoveryEdits.any fun edit => edit.offset == 2 }

end LastEdit

open LastEdit

/-- The edit that is not needed is dropped. -/
theorem minimize_recovery_edits_minimizes_second :
    Minimizes input needsSecond {} {} attempt
        (minimize_recovery_edits input needsSecond {} {} attempt) ∧
      (minimize_recovery_edits input needsSecond {} {} attempt).recoveryEdits
        = [insertionOf 0 2] :=
  ⟨(minimize_recovery_edits_minimizes rfl).1, rfl⟩

/-- **The last edit is kept**, though the replay without it is a full match, too; and it
need not be one of the edits at the beginning, but only the same for replay. -/
theorem single_edit_kept :
    (¬ ∀ dropIndex <
        (minimize_recovery_edits input alwaysMatches {} {} attempt).recoveryEdits.length,
      ¬ FullReplay input alwaysMatches {} {}
        ((minimize_recovery_edits input alwaysMatches {} {} attempt).recoveryEdits.eraseIdx
          dropIndex)) ∧
      ¬ (minimize_recovery_edits input alwaysMatches {} {} attempt).recoveryEdits.Sublist
        attempt.recoveryEdits := by
  have hkept : (minimize_recovery_edits input alwaysMatches {} {} attempt).recoveryEdits
      = [insertionOf 1 2] := rfl
  rw [hkept]
  refine ⟨fun h => h 0 Nat.one_pos ?_, by decide⟩
  exact ⟨rfl, .nil⟩

end Pegium
