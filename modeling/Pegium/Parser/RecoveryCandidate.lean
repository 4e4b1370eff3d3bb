/-
Pegium/Parser/RecoveryCandidate.lean

Candidates of a recovery and the choice among them.

A branch of an ordered choice is tried without edits and with edits; each try
gives an attempt, and `consider_choice_attempt` keeps one of them.  A challenger
takes over when its key is better, which compares the keys by a linear order
(`rank`), or when it dominates the attempt kept so far as an extension of it.  The
dominance is looked up in one direction only, so a base that comes after its
extension takes the place back by its key.  The attempt kept is the same in every
order exactly when nothing dominates the attempt with the best key
(`choice_order_independent_iff`).
-/
import Mathlib.Data.Finset.Max
import Mathlib.Data.List.Pairwise
import Mathlib.Data.Prod.Lex
import Pegium.General.Contest
import Pegium.Parser.RecoverySearch

namespace Pegium

/-! ### Candidates -/

/-- Class of a candidate's replay prefix. -/
inductive ReplayPrefixClass where
  | Empty
  | SameCommittedPrefix
  | ExtendedCommittedPrefix
  | NewLocalPrefix
  deriving DecidableEq

/-- `classify_replay_prefix`. -/
def classify_replay_prefix (hadEdits hasDestructiveEdit : Bool) : ReplayPrefixClass :=
  if !hadEdits then .Empty
  else if hasDestructiveEdit then .ExtendedCommittedPrefix
  else .NewLocalPrefix

/-- `std::numeric_limits<TextOffset>::max()`. -/
def noEditOffset : ℕ := 4294967295

/-- What an attempt of a branch has come to. -/
structure EditableRecoveryCandidate where
  matched : Bool := false
  hasDestructiveEdit : Bool := false
  postSkipCursorOffset : ℕ := 0
  keyProgressOffset : ℕ := 0
  editCost : UInt32 := 0
  editCount : UInt32 := 0
  lastEditEndOffset : ℕ := 0
  firstEditOffset : ℕ := noEditOffset
  replayPrefix : ReplayPrefixClass := .Empty
  deriving DecidableEq

/-- `editable_recovery_key`: without edits, the first edit is taken to be where the
candidate got to. -/
def editable_recovery_key (candidate : EditableRecoveryCandidate) : RecoveryKey where
  matched := candidate.matched
  firstEditOffset :=
    effective_first_edit_offset (candidate.editCount != 0) candidate.firstEditOffset
      candidate.keyProgressOffset
  editCost := candidate.editCost
  editCount := candidate.editCount
  progressAfterEdits := candidate.keyProgressOffset

/-- What branches are compared by. -/
structure CandidateEnvelope where
  key : RecoveryKey := { firstEditOffset := noEditOffset }
  replayPrefix : ReplayPrefixClass := .Empty
  deriving DecidableEq

/-- `to_candidate_envelope`. -/
def to_candidate_envelope (candidate : EditableRecoveryCandidate) : CandidateEnvelope :=
  ⟨editable_recovery_key candidate, candidate.replayPrefix⟩

/-! ### Dominance -/

/-- When the gained progress has to pay for the extra cost. -/
inductive ExtensionDominanceGuard where
  | WhenCurrentProgressedPastAnchor
  | WhenCurrentIsExtended
  deriving DecidableEq

/-- `is_extending_anchor_pair`. -/
def is_extending_anchor_pair (next current : CandidateEnvelope) : Bool :=
  next.replayPrefix == .ExtendedCommittedPrefix && current.replayPrefix != .Empty &&
    next.key.firstEditOffset == current.key.firstEditOffset &&
    decide (current.key.editCost ≤ next.key.editCost) &&
    decide (current.key.progressAfterEdits < next.key.progressAfterEdits)

/-- `extension_dominates`. -/
def extension_dominates (next current : CandidateEnvelope) (guard : ExtensionDominanceGuard) :
    Bool :=
  if !is_extending_anchor_pair next current then false
  else
    let ratioGuardActive : Bool :=
      match guard with
      | .WhenCurrentProgressedPastAnchor =>
        decide (current.key.firstEditOffset < current.key.progressAfterEdits)
      | .WhenCurrentIsExtended => current.replayPrefix == .ExtendedCommittedPrefix
    if ratioGuardActive then
      decide (next.key.editCost.toNat - current.key.editCost.toNat ≤
        next.key.progressAfterEdits - current.key.progressAfterEdits)
    else true

/-! ### Attempts of an ordered choice -/

/-- How a branch was tried. -/
inductive ChoiceAttemptKind where
  | None
  | NoEditReplay
  | Editable
  deriving DecidableEq

/-- A branch with what its attempt left behind. -/
structure ChoiceAttempt where
  branchIndex : ℕ := 0
  kind : ChoiceAttemptKind := .None
  envelope : CandidateEnvelope := {}
  postEvalMaxCursorOffset : ℕ := 0
  postEvalFurthestFailureOffset : ℕ := 0
  postEvalFurthestVisibleLeafCount : ℕ := 0
  deriving DecidableEq

/-- `OrderedChoice::consider_choice_attempt`. -/
def consider_choice_attempt (bestAttempt candidate : ChoiceAttempt) : ChoiceAttempt :=
  if !candidate.envelope.key.matched then bestAttempt
  else if bestAttempt.envelope.key.matched &&
      extension_dominates candidate.envelope bestAttempt.envelope
        .WhenCurrentProgressedPastAnchor then
    candidate
  else if !bestAttempt.envelope.key.matched ||
      is_better_recovery_key candidate.envelope.key bestAttempt.envelope.key then
    candidate
  else bestAttempt

/-- The attempt that the enumeration of the attempts keeps. -/
def select_choice_attempt (attempts : List ChoiceAttempt) : ChoiceAttempt :=
  attempts.foldl consider_choice_attempt {}

/-! ### Keys are compared by a linear order -/

/-- What the comparison of keys looks at; greater is better. -/
def RecoveryKey.rank (key : RecoveryKey) : Bool ×ₗ Bool ×ₗ ℕ ×ₗ ℕᵒᵈ ×ₗ ℕ :=
  toLex (key.fullMatch, toLex (key.matched, toLex (recovery_key_first_edit_score key,
    toLex (OrderDual.toDual (faithfulness key).toNat, key.progressAfterEdits))))

theorem bool_lt_iff_of_ne {a b : Bool} (h : a ≠ b) : b < a ↔ a = true := by
  cases a <;> cases b <;> simp_all

/-- **A key is better than another exactly when its rank is greater.** -/
theorem is_better_recovery_key_iff {lhs rhs : RecoveryKey} :
    is_better_recovery_key lhs rhs = true ↔ rhs.rank < lhs.rank := by
  unfold is_better_recovery_key RecoveryKey.rank
  simp only [Prod.Lex.toLex_lt_toLex, OrderDual.toDual_lt_toDual, ← UInt32.lt_iff_toNat_lt,
    OrderDual.toDual_inj, UInt32.toNat_inj]
  split_ifs with hfull hmatched hscore hfaith
  all_goals simp only [bne_iff_ne, ne_eq, not_not] at *
  · simp [bool_lt_iff_of_ne hfull, Ne.symm hfull]
  · simp [hfull, bool_lt_iff_of_ne hmatched, Ne.symm hmatched]
  · simp [hfull, hmatched, Ne.symm hscore]
  · simp [hfull, hmatched, hscore, Ne.symm hfaith]
  · simp [hfull, hmatched, hscore, hfaith]

/-! ### The order of the attempts -/

namespace ChoiceAttempt

/-- The branch has matched. -/
def matched (attempt : ChoiceAttempt) : Bool := attempt.envelope.key.matched

/-- The rank of the attempt's key. -/
def rank (attempt : ChoiceAttempt) : Bool ×ₗ Bool ×ₗ ℕ ×ₗ ℕᵒᵈ ×ₗ ℕ := attempt.envelope.key.rank

/-- The attempt dominates another one as an extension of it. -/
def Dominates (next current : ChoiceAttempt) : Prop :=
  extension_dominates next.envelope current.envelope .WhenCurrentProgressedPastAnchor = true

instance : DecidableRel Dominates := fun _ _ => inferInstanceAs (Decidable (_ = true))

/-- The comparison of the choice: a challenger takes the place of the attempt kept. -/
def Outranks (next current : ChoiceAttempt) : Prop :=
  next.Dominates current ∨ current.rank < next.rank

instance : DecidableRel Outranks := fun next current =>
  decidable_of_iff (next.Dominates current ∨
    is_better_recovery_key next.envelope.key current.envelope.key = true)
    (or_congr_right is_better_recovery_key_iff)

theorem outranks_iff {next current : ChoiceAttempt} :
    next.Outranks current ↔
      extension_dominates next.envelope current.envelope .WhenCurrentProgressedPastAnchor = true ∨
        is_better_recovery_key next.envelope.key current.envelope.key = true :=
  or_congr_right is_better_recovery_key_iff.symm

/-- The attempt has the best key of some attempts. -/
def HasBestKey (attempts : List ChoiceAttempt) (best : ChoiceAttempt) : Prop :=
  ∀ x ∈ attempts, x ≠ best → x.rank < best.rank

end ChoiceAttempt

open ChoiceAttempt

/-- A challenger that dominates another attempt gets further, so no attempt dominates itself. -/
theorem progress_lt_of_dominates {next current : ChoiceAttempt} (h : next.Dominates current) :
    current.envelope.key.progressAfterEdits < next.envelope.key.progressAfterEdits := by
  unfold Dominates extension_dominates at h
  split_ifs at h with hpair
  all_goals
    rw [Bool.not_eq_true', Bool.not_eq_false] at hpair
    unfold is_extending_anchor_pair at hpair
    rw [Bool.and_eq_true, decide_eq_true_eq] at hpair
    exact hpair.2

theorem not_outranks_self (a : ChoiceAttempt) : ¬ a.Outranks a := by
  rintro (h | h)
  · exact Nat.lt_irrefl _ (progress_lt_of_dominates h)
  · exact lt_irrefl _ h

variable {attempts : List ChoiceAttempt} {best candidate : ChoiceAttempt}

/-- The matched attempts of an enumeration. -/
def matchedAttempts (attempts : List ChoiceAttempt) : List ChoiceAttempt :=
  attempts.filter ChoiceAttempt.matched

theorem consider_of_not_matched (h : candidate.matched = false) :
    consider_choice_attempt best candidate = best := by
  unfold consider_choice_attempt
  rw [if_pos]
  exact (Bool.not_eq_true' _).mpr h

theorem consider_of_matched (hbest : best.matched = true) (h : candidate.matched = true) :
    consider_choice_attempt best candidate =
      if candidate.Outranks best then candidate else best := by
  unfold ChoiceAttempt.matched at hbest h
  by_cases hout : candidate.Outranks best
  · rw [if_pos hout, consider_choice_attempt, h, hbest]
    rcases outranks_iff.mp hout with hdom | hbetter
    · simp [hdom]
    · simp [hbetter]
  · rw [if_neg hout, consider_choice_attempt, h, hbest]
    have hnot := mt outranks_iff.mpr hout
    simp [not_or.mp hnot]

theorem consider_default (h : candidate.matched = true) :
    consider_choice_attempt {} candidate = candidate := by
  unfold ChoiceAttempt.matched at h
  unfold consider_choice_attempt
  rw [h]
  rfl

/-- The enumeration keeps the champion of the matched attempts. -/
theorem select_choice_attempt_eq (attempts : List ChoiceAttempt) :
    select_choice_attempt attempts
      = (Contest.champion Outranks (matchedAttempts attempts)).getD {} := by
  have hrun : ∀ (l : List ChoiceAttempt) (kept : Option ChoiceAttempt),
      (∀ a ∈ kept, a.matched = true) →
      l.foldl consider_choice_attempt (kept.getD {})
        = ((matchedAttempts l).foldl (Contest.keep Outranks) kept).getD {} := by
    intro l
    induction l with
    | nil =>
      intro kept _
      rfl
    | cons x l ih =>
      intro kept hkept
      rw [matchedAttempts, List.filter_cons, List.foldl_cons]
      split_ifs with hx
      · rw [List.foldl_cons]
        cases kept with
        | none =>
          rw [Option.getD_none, consider_default hx]
          exact ih (some x) fun a ha => Option.some.inj ha ▸ hx
        | some best =>
          have hbest := hkept best rfl
          rw [Option.getD_some, consider_of_matched hbest hx, Contest.keep_some]
          split_ifs
          · exact ih (some x) fun a ha => Option.some.inj ha ▸ hx
          · exact ih (some best) hkept
      · rw [consider_of_not_matched (Bool.not_eq_true _ ▸ hx)]
        exact ih kept hkept
  exact hrun attempts none (by rintro _ ⟨⟩)

/-! ### The order of the attempts does not matter -/

/-- Two matched attempts have a different ranking. -/
def DifferentlyRanked (a b : ChoiceAttempt) : Prop :=
  a.matched = true → b.matched = true → a.rank ≠ b.rank

/-- The same attempt is kept in every order of the attempts. -/
def OrderIndependent (attempts : List ChoiceAttempt) : Prop :=
  ∀ attempts', attempts'.Perm attempts →
    select_choice_attempt attempts' = select_choice_attempt attempts

/-- The comparison of the choice is a strict weak order on the matched ones of some
attempts. -/
structure StrictWeakOrderOn (attempts : List ChoiceAttempt) : Prop where
  irrefl : ∀ a ∈ matchedAttempts attempts, ¬ a.Outranks a
  trans : ∀ a ∈ matchedAttempts attempts, ∀ b ∈ matchedAttempts attempts,
    ∀ c ∈ matchedAttempts attempts, a.Outranks b → b.Outranks c → a.Outranks c
  incomparable_trans : ∀ a ∈ matchedAttempts attempts, ∀ b ∈ matchedAttempts attempts,
    ∀ c ∈ matchedAttempts attempts, a.Outranks c → a.Outranks b ∨ b.Outranks c

/-- Nothing that matched dominates the matched attempt with the best key. -/
def BestUndominated (attempts : List ChoiceAttempt) : Prop :=
  ∀ best ∈ matchedAttempts attempts, HasBestKey (matchedAttempts attempts) best →
    ∀ x ∈ matchedAttempts attempts, ¬ x.Dominates best

/-- No matched attempt dominates one whose key is better. -/
def NoConflict (attempts : List ChoiceAttempt) : Prop :=
  ∀ a ∈ matchedAttempts attempts, ∀ b ∈ matchedAttempts attempts,
    a.Dominates b → ¬ a.rank < b.rank

instance : Std.Symm DifferentlyRanked := ⟨fun _ _ h hb ha => (h ha hb).symm⟩

theorem matched_of_mem {a : ChoiceAttempt} (h : a ∈ matchedAttempts attempts) :
    a.matched = true := (List.mem_filter.mp h).2

/-- The order of the unmatched attempts is of no account. -/
theorem orderIndependent_iff :
    OrderIndependent attempts ↔ ∀ l, l.Perm (matchedAttempts attempts) →
      Contest.champion Outranks l = Contest.champion Outranks (matchedAttempts attempts) := by
  constructor
  · intro same l hl
    have hmatched : ∀ a ∈ l, a.matched = true := fun a ha => matched_of_mem (hl.mem_iff.mp ha)
    have hperm : (l ++ attempts.filter fun a => !a.matched).Perm attempts :=
      (hl.append_right _).trans (List.filter_append_perm _ attempts)
    have hl' : matchedAttempts (l ++ attempts.filter fun a => !a.matched) = l := by
      rw [matchedAttempts, List.filter_append, List.filter_eq_self.mpr hmatched,
        List.filter_filter]
      simp
    have hsame := same _ hperm
    rw [select_choice_attempt_eq, select_choice_attempt_eq, hl'] at hsame
    by_cases hnil : l = []
    · subst hnil
      rw [hl.symm.eq_nil]
    · obtain ⟨a, -, ha⟩ := @Contest.exists_champion _ Outranks _ _ hnil
      obtain ⟨b, -, hb⟩ := @Contest.exists_champion _ Outranks _ (matchedAttempts attempts)
        fun h => hnil (h ▸ hl).eq_nil
      rw [ha, hb, Option.getD_some, Option.getD_some] at hsame
      rw [ha, hb, hsame]
  · intro same attempts' hperm
    rw [select_choice_attempt_eq, select_choice_attempt_eq,
      same (matchedAttempts attempts') (hperm.filter _)]

section Ranked

variable (h : attempts.Pairwise DifferentlyRanked)
include h

theorem rank_ne_of_ne {a b : ChoiceAttempt} (ha : a ∈ matchedAttempts attempts)
    (hb : b ∈ matchedAttempts attempts) (hne : a ≠ b) : a.rank ≠ b.rank :=
  h.forall (List.mem_of_mem_filter ha) (List.mem_of_mem_filter hb) hne (matched_of_mem ha)
    (matched_of_mem hb)

theorem nodup_matchedAttempts : (matchedAttempts attempts).Nodup := by
  have hpairwise : (matchedAttempts attempts).Pairwise DifferentlyRanked :=
    h.sublist List.filter_sublist
  refine hpairwise.imp_of_mem fun {a b} ha hb hranked heq => ?_
  exact hranked (matched_of_mem ha) (matched_of_mem hb) (congrArg _ heq)

theorem outranks_total {a b : ChoiceAttempt} (ha : a ∈ matchedAttempts attempts)
    (hb : b ∈ matchedAttempts attempts) (hne : a ≠ b) : a.Outranks b ∨ b.Outranks a :=
  (lt_or_gt_of_ne (rank_ne_of_ne h ha hb hne)).symm.imp .inr .inr

theorem exists_hasBestKey (hnil : matchedAttempts attempts ≠ []) :
    ∃ best ∈ matchedAttempts attempts, HasBestKey (matchedAttempts attempts) best := by
  obtain ⟨best, hbest, hmax⟩ := Finset.exists_max_image (matchedAttempts attempts).toFinset
    ChoiceAttempt.rank (List.toFinset_nonempty_iff _ |>.mpr hnil)
  rw [List.mem_toFinset] at hbest
  refine ⟨best, hbest, fun x hx hne => ?_⟩
  exact lt_of_le_of_ne (hmax x (List.mem_toFinset.mpr hx)) (rank_ne_of_ne h hx hbest hne)

/-- The best key undominated is to be outranked by nobody. -/
theorem bestUndominated_iff :
    BestUndominated attempts ↔ matchedAttempts attempts = [] ∨
      ∃ m ∈ matchedAttempts attempts, ∀ x ∈ matchedAttempts attempts, x ≠ m → ¬ x.Outranks m := by
  constructor
  · intro undominated
    by_cases hnil : matchedAttempts attempts = []
    · exact .inl hnil
    · obtain ⟨best, hbest, hkey⟩ := exists_hasBestKey h hnil
      refine .inr ⟨best, hbest, fun x hx hne hout => ?_⟩
      rcases hout with hdom | hrank
      · exact undominated best hbest hkey x hx hdom
      · exact lt_asymm hrank (hkey x hx hne)
  · rintro (hnil | ⟨m, hm, unbeaten⟩) best hbest hkey x hx hdom
    · rw [hnil] at hx
      cases hx
    · have heq : best = m := by
        by_contra hne
        exact unbeaten best hbest hne (.inr (hkey m hm fun heq => hne heq.symm))
      subst heq
      have hne : x ≠ best := by
        rintro rfl
        exact Nat.lt_irrefl _ (progress_lt_of_dominates hdom)
      exact unbeaten x hx hne (.inl hdom)

theorem outranks_iff_of_noConflict (hno : NoConflict attempts) {a b : ChoiceAttempt}
    (ha : a ∈ matchedAttempts attempts) (hb : b ∈ matchedAttempts attempts) :
    a.Outranks b ↔ b.rank < a.rank := by
  refine ⟨?_, .inr⟩
  rintro (hdom | hrank)
  · have hne : a ≠ b := by
      rintro rfl
      exact Nat.lt_irrefl _ (progress_lt_of_dominates hdom)
    exact (lt_or_gt_of_ne (rank_ne_of_ne h ha hb hne)).resolve_left (hno a ha b hb hdom)
  · exact hrank

theorem strictWeakOrderOn_iff : StrictWeakOrderOn attempts ↔ NoConflict attempts := by
  constructor
  · intro order a ha b hb hdom hrank
    exact not_outranks_self a (order.trans a ha b hb a ha (.inl hdom) (.inr hrank))
  · intro hno
    refine ⟨fun a _ => not_outranks_self a, ?_, ?_⟩
    · intro a ha b hb c hc hab hbc
      rw [outranks_iff_of_noConflict h hno ha hb] at hab
      rw [outranks_iff_of_noConflict h hno hb hc] at hbc
      exact .inr (hbc.trans hab)
    · intro a ha b hb c hc hac
      rw [outranks_iff_of_noConflict h hno ha hc] at hac
      rcases lt_or_ge b.rank a.rank with hba | hab
      · exact .inl (.inr hba)
      · exact .inr (.inr (lt_of_lt_of_le hac hab))

end Ranked

/-- **The choice does not depend on the order of the attempts exactly when nothing
dominates the attempt with the best key**, and its comparison is a strict weak order
exactly when nothing dominates an attempt with a better key. -/
theorem choice_order_independent_iff (attempts : List ChoiceAttempt)
    (h : attempts.Pairwise DifferentlyRanked) :
    (OrderIndependent attempts ↔ BestUndominated attempts) ∧
      (StrictWeakOrderOn attempts ↔ NoConflict attempts) := by
  refine ⟨?_, strictWeakOrderOn_iff h⟩
  rw [orderIndependent_iff, bestUndominated_iff h]
  exact Contest.champion_perm_iff (nodup_matchedAttempts h)
    fun a ha b hb hne => outranks_total h ha hb hne

/-! ### A base and its extension -/

namespace BaseAndExtension

/-- A branch that inserts something at 5 and goes on to 6. -/
def base : ChoiceAttempt where
  branchIndex := 0
  kind := .Editable
  envelope := to_candidate_envelope
    { matched := true, postSkipCursorOffset := 6, keyProgressOffset := 6, editCost := 1
      editCount := 1, lastEditEndOffset := 5, firstEditOffset := 5
      replayPrefix := classify_replay_prefix true false }

/-- A branch that deletes the codepoint at 5 and goes on to 10. -/
def extension : ChoiceAttempt where
  branchIndex := 1
  kind := .Editable
  envelope := to_candidate_envelope
    { matched := true, hasDestructiveEdit := true, postSkipCursorOffset := 10
      keyProgressOffset := 10, editCost := 4, editCount := 1, lastEditEndOffset := 6
      firstEditOffset := 5, replayPrefix := classify_replay_prefix true true }

theorem differentlyRanked : [base, extension].Pairwise DifferentlyRanked := by
  rw [List.pairwise_pair]
  intro _ _
  decide

end BaseAndExtension

open BaseAndExtension in
/-- The two have a different ranking, and whichever comes last is kept. -/
theorem choice_order_matters :
    [base, extension].Pairwise DifferentlyRanked ∧
      select_choice_attempt [base, extension] = extension ∧
      select_choice_attempt [extension, base] = base ∧
      ¬ (OrderIndependent [base, extension] ∧ StrictWeakOrderOn [base, extension]) := by
  refine ⟨differentlyRanked, by decide, by decide, fun h => ?_⟩
  have hsame := h.1 [extension, base] (.swap _ _ _)
  exact absurd hsame (by decide)

open BaseAndExtension in
/-- The base has the better key, and its extension dominates it. -/
theorem choice_order_independent_iff_base_extension :
    (OrderIndependent [base, extension] ↔ BestUndominated [base, extension]) ∧
      (StrictWeakOrderOn [base, extension] ↔ NoConflict [base, extension]) :=
  choice_order_independent_iff [base, extension] differentlyRanked

end Pegium
