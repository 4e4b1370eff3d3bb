/-
Pegium/Parser/SingleEdit.lean

The linear single-edit detector against the fuzzy matcher.

Both are compared with `OneEdit`: the detector accepts exactly when the literal is one edit
away from the first bytes of the input (`single_edit_iff`), the matcher offers a candidate of
distance 1 exactly when it is one edit away from the first codepoints and nothing is charged
after them (`admits_iff`).  The pruning plays no part: what dominates a candidate of distance 1
has distance 1 and consumes as much (`exists_mem_pruned`).

Main result: `single_edit_agrees_iff`.
-/
import Mathlib.Data.Nat.Bitwise
import Pegium.General.SingleEdit
import Pegium.Parser.FuzzyOptimality

namespace Pegium

/-! ### The detector -/

section Detector

variable {caseSensitive : Bool} {literal input : List UInt8} {K : ℕ}

theorem equal_codepoint_iff {lhs rhs : UInt8} : equal_codepoint caseSensitive lhs rhs = true ↔
    foldByte caseSensitive lhs = foldByte caseSensitive rhs := by
  cases caseSensitive <;> simp [equal_codepoint, foldByte]

theorem commonPrefix_eq_lcp (lhs rhs : List UInt8) : commonPrefix caseSensitive lhs rhs =
    lcp (lhs.map (foldByte caseSensitive)) (rhs.map (foldByte caseSensitive)) := by
  induction lhs generalizing rhs with
  | nil => rfl
  | cons a lhs ih =>
    rcases rhs with _ | ⟨b, rhs⟩
    · rfl
    · rw [commonPrefix, List.map_cons, List.map_cons, lcp, ih]
      simp only [equal_codepoint_iff]

theorem commonPrefix_le (lhs rhs : List UInt8) :
    commonPrefix caseSensitive lhs rhs ≤ lhs.length ∧
      commonPrefix caseSensitive lhs rhs ≤ rhs.length := by
  rw [commonPrefix_eq_lcp]
  simpa using lcp_le (lhs.map (foldByte caseSensitive)) (rhs.map (foldByte caseSensitive))

theorem map_byteAt {lit : List UInt8} {p : ℕ} (h : p < lit.length) :
    (lit.map (foldByte caseSensitive))[p]? = some (foldByte caseSensitive (byteAt lit p)) := by
  rw [List.getElem?_map, List.getElem?_eq_getElem h, byteAt, List.getD_eq_getElem _ _ h]
  rfl

/-- **One alignment is the test for one edit.** -/
theorem try_alignment_iff (hK : K ≤ input.length) :
    try_alignment caseSensitive literal input K ((K : ℤ) - literal.length) = true ↔
      OneEdit (literal.map (foldByte caseSensitive))
        ((input.take K).map (foldByte caseSensitive)) := by
  rw [oneEdit_iff_trim]
  have hlength : (input.take K).length = K := by rw [List.length_take, Nat.min_eq_left hK]
  have htrim : trim (literal.map (foldByte caseSensitive))
      ((input.take K).map (foldByte caseSensitive)) =
      (literal.length - commonPrefix caseSensitive literal (input.take K) -
          commonPrefix caseSensitive
            (literal.drop (commonPrefix caseSensitive literal (input.take K))).reverse
            ((input.take K).drop (commonPrefix caseSensitive literal (input.take K))).reverse,
        K - commonPrefix caseSensitive literal (input.take K) -
          commonPrefix caseSensitive
            (literal.drop (commonPrefix caseSensitive literal (input.take K))).reverse
            ((input.take K).drop (commonPrefix caseSensitive literal (input.take K))).reverse) := by
    simp only [trim, commonPrefix_eq_lcp, List.map_reverse, List.map_drop, List.length_map, hlength]
  rw [htrim, ← commonPrefix_eq_lcp, try_alignment, if_neg (Nat.not_lt.mpr hK)]
  simp only [List.length_drop, hlength]
  have hpre := @commonPrefix_le caseSensitive literal (input.take K)
  generalize commonPrefix caseSensitive literal (input.take K) = p at hpre ⊢
  have hsuf := @commonPrefix_le caseSensitive (literal.drop p).reverse
    ((input.take K).drop p).reverse
  generalize commonPrefix caseSensitive (literal.drop p).reverse
    ((input.take K).drop p).reverse = s at hsuf ⊢
  rw [hlength] at hpre
  rw [List.length_reverse, List.length_reverse, List.length_drop, List.length_drop,
    hlength] at hsuf
  -- the indices of the exchange are inside both texts
  have hcross : literal.length - p - s = 2 → K - p - s = 2 →
      ((literal.map (foldByte caseSensitive))[p]? =
          ((input.take K).map (foldByte caseSensitive))[p + 1]? ↔
        foldByte caseSensitive (byteAt literal p) =
          foldByte caseSensitive (byteAt input (p + 1))) ∧
      ((literal.map (foldByte caseSensitive))[p + 1]? =
          ((input.take K).map (foldByte caseSensitive))[p]? ↔
        foldByte caseSensitive (byteAt literal (p + 1)) =
          foldByte caseSensitive (byteAt input p)) := by
    intro hl hr
    have htake : ∀ i, i < K → byteAt (input.take K) i = byteAt input i := by
      intro i hi
      rw [byteAt, byteAt, List.getD_eq_getElem?_getD, List.getElem?_take_of_lt hi,
        List.getD_eq_getElem?_getD]
    rw [map_byteAt (by omega), map_byteAt (by omega), map_byteAt (by omega),
      map_byteAt (by omega), htake _ (by omega), htake _ (by omega), Option.some.injEq,
      Option.some.injEq]
    exact ⟨Iff.rfl, Iff.rfl⟩
  simp only [Bool.or_eq_true, Bool.and_eq_true, beq_iff_eq, equal_codepoint_iff, Prod.mk.injEq]
  constructor
  · rintro (((⟨⟨-, h⟩, h'⟩ | ⟨⟨-, h⟩, h'⟩) | ⟨⟨-, h⟩, h'⟩) | ⟨⟨⟨⟨-, h⟩, h'⟩, hxy⟩, hyx⟩)
    · exact .inl ⟨h, h'⟩
    · exact .inr (.inl ⟨h, h'⟩)
    · exact .inr (.inr (.inl ⟨h, h'⟩))
    · exact .inr (.inr (.inr ⟨⟨h, h'⟩, (hcross h h').1.mpr hxy, (hcross h h').2.mpr hyx⟩))
  · rintro (⟨h, h'⟩ | ⟨h, h'⟩ | ⟨h, h'⟩ | ⟨⟨h, h'⟩, hxy, hyx⟩)
    · exact .inl (.inl (.inl ⟨⟨by omega, h⟩, h'⟩))
    · exact .inl (.inl (.inr ⟨⟨by omega, h⟩, h'⟩))
    · exact .inl (.inr ⟨⟨by omega, h⟩, h'⟩)
    · exact .inr ⟨⟨⟨⟨by omega, h⟩, h'⟩, (hcross h h').1.mp hxy⟩, (hcross h h').2.mp hyx⟩

/-- The literal is one edit away from the first bytes of the input. -/
def EditedPrefix (literal input : List UInt8) (caseSensitive : Bool) : Prop :=
  literal ≠ [] ∧ ∃ K ≤ input.length, OneEdit (literal.map (foldByte caseSensitive))
    ((input.take K).map (foldByte caseSensitive))

/-- **The detector looks for one edit in the first bytes of the input.** -/
theorem single_edit_iff :
    literal_has_single_edit_strict_match literal input caseSensitive = true ↔
      EditedPrefix literal input caseSensitive := by
  have halign : ∀ (K : ℕ) (diff : ℤ), diff = K - literal.length →
      (try_alignment caseSensitive literal input K diff = true ↔ K ≤ input.length ∧
        OneEdit (literal.map (foldByte caseSensitive))
          ((input.take K).map (foldByte caseSensitive))) := by
    rintro K diff rfl
    rcases Nat.lt_or_ge input.length K with hlt | hle
    · rw [try_alignment, if_pos hlt]
      exact iff_of_false Bool.false_ne_true fun h => Nat.not_le.mpr hlt h.1
    · rw [try_alignment_iff hle]
      exact ⟨fun h => ⟨hle, h⟩, fun h => h.2⟩
  rw [literal_has_single_edit_strict_match, EditedPrefix]
  rcases literal with _ | ⟨b, literal⟩
  · simp
  simp only [List.length_cons, beq_iff_eq, Nat.succ_ne_zero, if_false, Bool.or_eq_true,
    Bool.and_eq_true, decide_eq_true_eq, ne_eq, reduceCtorEq, not_false_eq_true, true_and]
  rw [halign _ 0 (by simp), halign _ 1 (by simp), halign _ (-1) (by simp)]
  constructor
  · rintro ((h | h) | h)
    · exact ⟨_, h⟩
    · exact ⟨_, h.2⟩
    · exact ⟨_, h.2⟩
  · rintro ⟨K, hle, h⟩
    have hlength := h.length
    rw [List.length_map, List.length_map, List.length_take, Nat.min_eq_left hle,
      List.length_cons] at hlength
    rcases hlength with rfl | hlength | rfl
    · exact .inl (.inl ⟨hle, h⟩)
    · obtain rfl : K = literal.length := by omega
      exact .inr ⟨by omega, hle, h⟩
    · exact .inl (.inr ⟨hle, hle, h⟩)

end Detector

/-! ### One edit in the grid -/

section Grid

variable {caseSensitive : Bool} {literal input : List ℕ} {lane : DpLane} {K : ℕ} {cell : DpCell}

theorem edits_normalize {xs ys : List ℕ} {s : List EditOp} :
    Edits (fun lhs rhs => equal_decoded_codepoint caseSensitive lhs rhs = true) xs ys s ↔
      Edits Eq (xs.map (normalize_codepoint caseSensitive))
        (ys.map (normalize_codepoint caseSensitive)) s := by
  rw [← Edits.map_iff]
  simp only [equal_decoded_codepoint, beq_iff_eq]

theorem countP_ne_keep (s : List EditOp) : s.countP (· ≠ .keep) =
    s.count .insert + s.count .delete + s.count .substitute + s.count .transpose := by
  induction s with
  | nil => rfl
  | cons op s ih =>
    rw [List.countP_cons, ih]
    cases op <;> simp <;> omega

/-- A cell with one operation lies between texts that are one edit apart. -/
theorem oneEdit_of_operations (hK : K ≤ input.length)
    (h : cellAt lane caseSensitive literal input literal.length K = some cell)
    (hone : cell.operations = 1) :
    OneEdit (literal.map (normalize_codepoint caseSensitive))
      ((input.take K).map (normalize_codepoint caseSensitive)) := by
  obtain ⟨cell', hcell', hleast⟩ := @cellAt_isLeast lane caseSensitive _ _ _ _ (Nat.le_refl _) hK
  rw [h] at hcell'
  cases hcell'
  rw [prefixCosts, List.take_length] at hleast
  refine oneEdit_iff_edits.mpr ⟨fun heq => ?_, ?_⟩
  · -- between equal texts nothing would be cheaper
    have hkeep := Edits.keep_all (literal.map (normalize_codepoint caseSensitive))
    nth_rewrite 2 [heq] at hkeep
    have hle := hleast.2 ⟨_, edits_normalize.mpr hkeep, fun op hop => DpLane.allowed_of_ne
      (by rw [List.eq_of_mem_replicate hop]; decide), rfl⟩
    rw [sum_editWeight, DpCell.weight, Prod.Lex.toLex_le_toLex] at hle
    simp [List.count_replicate] at hle
    omega
  · obtain ⟨s, hs, -, hweight⟩ := hleast.1
    refine ⟨s, edits_normalize.mp hs, ?_⟩
    rw [sum_editWeight, DpCell.weight] at hweight
    rw [countP_ne_keep]
    exact (Prod.mk.inj (toLex.injective hweight)).2.symm.trans hone

/-- Between texts that are one edit apart, the cheapest script is that edit. -/
theorem operations_of_oneEdit (hK : K ≤ input.length)
    (h : cellAt .anyEdit caseSensitive literal input literal.length K = some cell)
    (hone : OneEdit (literal.map (normalize_codepoint caseSensitive))
      ((input.take K).map (normalize_codepoint caseSensitive))) :
    cell.operations = 1 := by
  obtain ⟨hne, s', hs', hcount'⟩ := oneEdit_iff_edits.mp hone
  obtain ⟨cell', hcell', hleast⟩ :=
    @cellAt_isLeast .anyEdit caseSensitive _ _ _ _ (Nat.le_refl _) hK
  rw [h] at hcell'
  cases hcell'
  rw [prefixCosts, List.take_length] at hleast
  have hle := hleast.2 ⟨s', edits_normalize.mpr hs', fun _ _ => trivial, rfl⟩
  obtain ⟨s, hs, -, hweight⟩ := hleast.1
  have hchanged : s.countP (· ≠ .keep) ≠ 0 := fun hzero =>
    hne ((edits_normalize.mp hs).eq_of_keep hzero)
  have hlength := hs.length_eq
  have hlength' := hs'.length_eq
  rw [List.length_map, List.length_map] at hlength'
  rw [hweight, sum_editWeight, sum_editWeight, Prod.Lex.toLex_le_toLex] at hle
  rw [sum_editWeight, DpCell.weight] at hweight
  have hoperations := (Prod.mk.inj (toLex.injective hweight)).2
  rw [countP_ne_keep] at hchanged hcount'
  have hcosts : kInsertionCost = 1 ∧ kDeletionCost = 4 ∧ kSubstitutionCost = 2 ∧
      kTranspositionCost = 2 := ⟨rfl, rfl, rfl, rfl⟩
  obtain ⟨hi, hd, hs, ht⟩ := hcosts
  rw [hi, hd, hs, ht] at hle
  simp only at hle
  omega

end Grid

/-! ### Offsets -/

theorem decodeFrom_offsets {text : List UInt8} {index fuel : ℕ} (h : text.length ≤ fuel) :
    ((decodeFrom text index fuel).map (·.2)).Pairwise (· < ·) ∧
      ∀ o ∈ (decodeFrom text index fuel).map (·.2), index ≤ o ∧ o < index + text.length := by
  induction fuel generalizing text index with
  | zero =>
    rw [List.length_eq_zero_iff.mp (Nat.le_zero.mp h), decodeFrom]
    exact ⟨.nil, by simp⟩
  | succ fuel ih =>
    rcases text with _ | ⟨c, cs⟩
    · exact ⟨.nil, by simp [decodeFrom]⟩
    -- what is decoded after `n` bytes lies behind them
    have hrest : ∀ n, 1 ≤ n → n ≤ (c :: cs).length → ∀ codepoint,
        ((((codepoint, index) :: decodeFrom ((c :: cs).drop n) (index + n) fuel).map
            (·.2)).Pairwise (· < ·)) ∧
        ∀ o ∈ ((codepoint, index) :: decodeFrom ((c :: cs).drop n) (index + n) fuel).map (·.2),
          index ≤ o ∧ o < index + (c :: cs).length := by
      intro n hn hle codepoint
      have hdrop : ((c :: cs).drop n).length ≤ fuel := by
        rw [List.length_drop]
        omega
      obtain ⟨hpair, hbound⟩ := @ih ((c :: cs).drop n) (index + n) hdrop
      have hstep : ∀ o ∈ (decodeFrom ((c :: cs).drop n) (index + n) fuel).map (·.2),
          index < o ∧ o < index + (c :: cs).length := by
        intro o ho
        obtain ⟨hlo, hhi⟩ := hbound o ho
        rw [List.length_drop] at hhi
        omega
      rw [List.map_cons]
      refine ⟨List.pairwise_cons.mpr ⟨fun o ho => (hstep o ho).1, hpair⟩, fun o ho => ?_⟩
      rcases List.mem_cons.mp ho with rfl | ho
      · exact ⟨Nat.le_refl _, by simp⟩
      · exact ⟨(hstep o ho).1.le, (hstep o ho).2⟩
    rw [decodeFrom]
    split
    case isTrue =>
      have hone := hrest 1 (Nat.le_refl 1) (by simp) c.toNat
      rwa [List.drop_succ_cons, List.drop_zero] at hone
    case isFalse hlength =>
      simp only [Bool.or_eq_true, beq_iff_eq, decide_eq_true_eq, not_or, Nat.not_lt] at hlength
      exact hrest _ (Nat.one_le_iff_ne_zero.mpr hlength.1) hlength.2 _

theorem length_byteOffset (text : List UInt8) :
    (decode_text text).byteOffset.length = (decode_text text).codepoints.length + 1 := by
  simp [decode_text]

/-- **Later codepoints begin later**, and the last offset is the size of the text. -/
theorem byteOffset_strictMono (text : List UInt8) :
    (decode_text text).byteOffset.Pairwise (· < ·) ∧
      ∀ o ∈ (decode_text text).byteOffset, o ≤ text.length := by
  obtain ⟨hpair, hbound⟩ := @decodeFrom_offsets text 0 _ (Nat.le_refl text.length)
  constructor
  · refine List.pairwise_append.mpr ⟨hpair, List.pairwise_singleton _ _, fun o ho o' ho' => ?_⟩
    rw [List.mem_singleton.mp ho']
    simpa using (hbound o ho).2
  · intro o ho
    rcases List.mem_append.mp ho with ho | ho
    · have hlt := (hbound o ho).2
      omega
    · exact (List.mem_singleton.mp ho).le

theorem byteOffset_lt (text : List UInt8) {K K' : ℕ} (h : K < K')
    (hK' : K' ≤ (decode_text text).codepoints.length) :
    (decode_text text).byteOffset.getD K 0 < (decode_text text).byteOffset.getD K' 0 := by
  have hlength := length_byteOffset text
  rw [List.getD_eq_getElem _ _ (by omega), List.getD_eq_getElem _ _ (by omega)]
  exact List.pairwise_iff_getElem.mp (byteOffset_strictMono text).1 _ _ _ _ h

theorem byteOffset_le (text : List UInt8) {K : ℕ}
    (hK : K ≤ (decode_text text).codepoints.length) :
    (decode_text text).byteOffset.getD K 0 ≤ text.length := by
  have hlength := length_byteOffset text
  rw [List.getD_eq_getElem _ _ (by omega)]
  exact (byteOffset_strictMono text).2 _ (List.getElem_mem _)

/-! ### Candidates of distance 1 -/

section Candidates

variable {literal input : List UInt8} {caseSensitive : Bool}
  {candidate other : LiteralFuzzyCandidate}

theorem IsCandidate.consumed_le (h : IsCandidate literal input caseSensitive candidate) :
    candidate.consumed ≤ input.length := by
  obtain ⟨lane, consumed, -, hle, hcandidate⟩ := h
  obtain ⟨cell, s, -, -, -, -, rfl⟩ := laneCandidate_eq hle hcandidate
  exact byteOffset_le input hle

/-- What dominates is smaller in this sum. -/
def dominationRank (bound : ℕ) (candidate : LiteralFuzzyCandidate) : ℕ :=
  candidate.cost.primaryRankCost + candidate.rawWeightedCost + candidate.distance +
    candidate.substitutionCount + (bound - candidate.consumed)

theorem dominates_le (h : dominates_candidate other candidate = true) :
    other.rawWeightedCost ≤ candidate.rawWeightedCost ∧ other.distance ≤ candidate.distance ∧
      candidate.consumed ≤ other.consumed := by
  simp only [dominates_candidate, Bool.and_eq_true, decide_eq_true_eq] at h
  exact ⟨h.1.1.1.1.2, h.1.1.1.2, h.1.2⟩

theorem dominationRank_lt {bound : ℕ} (h : dominates_candidate other candidate = true)
    (hbound : other.consumed ≤ bound) :
    dominationRank bound other < dominationRank bound candidate := by
  simp only [dominates_candidate, Bool.and_eq_true, Bool.or_eq_true, decide_eq_true_eq] at h
  simp only [dominationRank]
  omega

/-- **Every candidate is returned or dominated by one that is.** -/
theorem exists_mem_pruned (h : IsCandidate literal input caseSensitive candidate) :
    ∃ other ∈ compute_pruned_literal_fuzzy_candidates literal input caseSensitive,
      other = candidate ∨ (other.rawWeightedCost ≤ candidate.rawWeightedCost ∧
        other.distance ≤ candidate.distance ∧ candidate.consumed ≤ other.consumed) := by
  induction hn : dominationRank input.length candidate using Nat.strong_induction_on
    generalizing candidate with
  | _ n ih =>
    subst hn
    by_cases hdominated : ∃ other, IsCandidate literal input caseSensitive other ∧
        dominates_candidate other candidate = true
    · obtain ⟨other, hother, hdominates⟩ := hdominated
      obtain ⟨best, hbest, hle⟩ := ih _ (dominationRank_lt hdominates hother.consumed_le) hother rfl
      have hle' := dominates_le hdominates
      refine ⟨best, hbest, .inr ?_⟩
      rcases hle with rfl | hle
      · exact hle'
      · omega
    · refine ⟨candidate, ?_, .inl rfl⟩
      rw [compute_pruned_literal_fuzzy_candidates, mem_prune_dominated_candidates,
        mem_collectCandidates]
      refine ⟨h, fun other hother => ?_⟩
      rw [mem_collectCandidates] at hother
      exact Bool.eq_false_iff.mpr fun hdominates => hdominated ⟨other, hother, hdominates⟩

/-- The matcher offers a candidate of distance 1 that consumes about as much as the literal
has. -/
def AdmitsSingleEdit (literal input : List UInt8) (caseSensitive : Bool) : Prop :=
  ∃ candidate ∈ find_literal_fuzzy_candidates_view literal input caseSensitive,
    candidate.distance = 1 ∧ candidate.consumed ≤ literal.length + 1 ∧
      literal.length ≤ candidate.consumed + 1

/-- The literal is one edit away from the first `K` codepoints, nothing is charged after them,
and they end at most one byte from the literal's length. -/
structure EditedAt (literal input : List UInt8) (caseSensitive : Bool) (K : ℕ) : Prop where
  pos : 1 ≤ K
  le : K ≤ (decode_text input).codepoints.length
  edit : OneEdit ((decode_text literal).codepoints.map (normalize_codepoint caseSensitive))
    (((decode_text input).codepoints.take K).map (normalize_codepoint caseSensitive))
  charge : trailingCharge literal input K = 0
  bytes_le : (decode_text input).byteOffset.getD K 0 ≤ literal.length + 1
  le_bytes : literal.length ≤ (decode_text input).byteOffset.getD K 0 + 1

/-- The counts of a candidate of distance 1: one operation, and where it ends. -/
theorem distance_one (h : IsCandidate literal input caseSensitive candidate)
    (hone : candidate.distance ≤ 1) :
    candidate.distance = 1 ∧ trailingCharge literal input candidate.consumedCodepoints = 0 ∧
      1 ≤ candidate.consumedCodepoints ∧
      candidate.consumedCodepoints ≤ (decode_text input).codepoints.length ∧
      OneEdit ((decode_text literal).codepoints.map (normalize_codepoint caseSensitive))
        (((decode_text input).codepoints.take candidate.consumedCodepoints).map
          (normalize_codepoint caseSensitive)) := by
  obtain ⟨lane, consumed, hpos, hle, hcandidate⟩ := h
  obtain ⟨cell, s, hcell, hne, -, -, rfl⟩ := laneCandidate_eq hle hcandidate
  simp only [chargeTrailing] at hone ⊢
  have hcell1 : cell.operations = 1 := by omega
  exact ⟨by omega, by omega, hpos, hle, oneEdit_of_operations hle hcell hcell1⟩

/-- What dominates a candidate of distance 1 consumes the same. -/
theorem consumed_eq (h : IsCandidate literal input caseSensitive candidate)
    (hother : IsCandidate literal input caseSensitive other) (hone : candidate.distance = 1)
    (hdistance : other.distance ≤ candidate.distance)
    (hweight : other.rawWeightedCost ≤ candidate.rawWeightedCost)
    (hconsumed : candidate.consumed ≤ other.consumed) :
    other.consumed = candidate.consumed := by
  obtain ⟨-, hcharge, -, hle, -⟩ := distance_one h hone.le
  obtain ⟨hone', hcharge', -, hle', -⟩ := distance_one hother (hone ▸ hdistance)
  obtain ⟨lane, K, -, hK, hlane⟩ := h
  obtain ⟨lane', K', -, hK', hlane'⟩ := hother
  have hc := consistent_of_laneCandidate hK hlane
  have hc' := consistent_of_laneCandidate hK' hlane'
  have hcodepoints : candidate.consumedCodepoints ≤ other.consumedCodepoints := by
    refine Nat.not_lt.mp fun hlt => ?_
    have hbytes := byteOffset_lt input hlt hle
    rw [← hc.bytes, ← hc'.bytes] at hbytes
    omega
  have hcosts : kInsertionCost = 1 ∧ kDeletionCost = 4 ∧ kSubstitutionCost = 2 ∧
      kTranspositionCost = 2 := ⟨rfl, rfl, rfl, rfl⟩
  obtain ⟨hi, hd, hs, ht⟩ := hcosts
  have hsum := hc.distance
  have hsum' := hc'.distance
  have hlength := hc.length
  have hlength' := hc'.length
  have hcost := hc.weight
  have hcost' := hc'.weight
  rw [hi, hd, hs, ht] at hcost hcost'
  have heq : other.consumedCodepoints = candidate.consumedCodepoints := by omega
  rw [hc.bytes, hc'.bytes, heq]

/-- **The matcher admits an edit exactly when its guards pass and the literal is one edit away
from codepoints after which nothing is charged.** -/
theorem admits_iff : AdmitsSingleEdit literal input caseSensitive ↔
    literal ≠ [] ∧ input ≠ [] ∧ equals_text caseSensitive literal input = false ∧
      has_word_like_local_anchor literal input caseSensitive = true ∧
      ∃ K, EditedAt literal input caseSensitive K := by
  have hmem : ∀ candidate,
      candidate ∈ find_literal_fuzzy_candidates_view literal input caseSensitive ↔
      (literal ≠ [] ∧ input ≠ [] ∧ equals_text caseSensitive literal input = false ∧
        has_word_like_local_anchor literal input caseSensitive = true) ∧
      candidate ∈ compute_pruned_literal_fuzzy_candidates literal input caseSensitive := by
    intro candidate
    rw [find_literal_fuzzy_candidates_view]
    rcases literal with _ | ⟨b, literal⟩
    · simp
    rcases input with _ | ⟨c, input⟩
    · simp
    simp only [List.isEmpty_cons, Bool.or_self, Bool.false_eq_true, if_false, ne_eq, reduceCtorEq,
      not_false_eq_true, true_and]
    split
    case isTrue hguards =>
      simp only [Bool.and_eq_true, Bool.not_eq_true'] at hguards
      simp [hguards]
    case isFalse hguards =>
      simp only [Bool.and_eq_true, Bool.not_eq_true'] at hguards
      simp [hguards]
  constructor
  · rintro ⟨candidate, hcandidate, hone, hle, hge⟩
    obtain ⟨hguards, hpruned⟩ := (hmem candidate).mp hcandidate
    have his : IsCandidate literal input caseSensitive candidate := by
      rw [compute_pruned_literal_fuzzy_candidates, mem_prune_dominated_candidates,
        mem_collectCandidates] at hpruned
      exact hpruned.1
    obtain ⟨-, hcharge, hpos, hK, hedit⟩ := distance_one his hone.le
    obtain ⟨lane, K, -, hKle, hlane⟩ := his
    have hbytes := (consistent_of_laneCandidate hKle hlane).bytes
    exact ⟨hguards.1, hguards.2.1, hguards.2.2.1, hguards.2.2.2, candidate.consumedCodepoints,
      hpos, hK, hedit, hcharge, hbytes ▸ hle, hbytes ▸ hge⟩
  · rintro ⟨hliteral, hinput, hequals, hanchor, K, hK⟩
    obtain ⟨cell, hcell, -⟩ := @cellAt_isLeast .anyEdit caseSensitive
      (decode_text literal).codepoints (decode_text input).codepoints _ K (Nat.le_refl _) hK.le
    have hone := operations_of_oneEdit hK.le hcell hK.edit
    obtain ⟨candidate, hlane⟩ : ∃ candidate,
        laneCandidate literal input caseSensitive .anyEdit K = some candidate := by
      simp only [laneCandidate, hcell, hone, Nat.one_ne_zero, if_false]
      exact ⟨_, rfl⟩
    have his : IsCandidate literal input caseSensitive candidate := ⟨_, K, hK.pos, hK.le, hlane⟩
    have hdistance : candidate.distance = 1 ∧
        candidate.consumed = (decode_text input).byteOffset.getD K 0 := by
      obtain ⟨cell', s, hcell', -, -, -, rfl⟩ := laneCandidate_eq hK.le hlane
      rw [hcell] at hcell'
      cases hcell'
      simp only [chargeTrailing, hone, hK.charge, Nat.add_zero, and_self]
    obtain ⟨other, hother, hle⟩ := exists_mem_pruned his
    have hisOther : IsCandidate literal input caseSensitive other := by
      rw [compute_pruned_literal_fuzzy_candidates, mem_prune_dominated_candidates,
        mem_collectCandidates] at hother
      exact hother.1
    have hsame : other.distance = 1 ∧ other.consumed = candidate.consumed := by
      rcases hle with rfl | ⟨hweight, hdistance', hconsumed⟩
      · exact ⟨hdistance.1, rfl⟩
      · exact ⟨(distance_one hisOther (hdistance.1 ▸ hdistance')).1,
          consumed_eq his hisOther hdistance.1 hdistance' hweight hconsumed⟩
    refine ⟨other, (hmem other).mpr ⟨⟨hliteral, hinput, hequals, hanchor⟩, hother⟩, hsame.1, ?_⟩
    rw [hsame.2, hdistance.2]
    exact ⟨hK.bytes_le, hK.le_bytes⟩

end Candidates

/-! ### Texts of single bytes -/

section Ascii

variable {literal input : List UInt8} {caseSensitive : Bool} {K : ℕ}

/-- Every codepoint is one byte. -/
def IsAscii (text : List UInt8) : Prop := ∀ b ∈ text, b < 0x80

instance (text : List UInt8) : Decidable (IsAscii text) :=
  inferInstanceAs (Decidable (∀ b ∈ text, b < 0x80))

theorem normalize_codepoint_toNat {b : UInt8} (h : b < 0x80) :
    normalize_codepoint caseSensitive b.toNat = (foldByte caseSensitive b).toNat := by
  have hlt : b.toNat < 128 := h
  cases caseSensitive
  · simp only [normalize_codepoint, foldByte, Bool.false_or, decide_eq_true_eq,
      Nat.not_le.mpr hlt, if_false, Bool.false_eq_true, UInt8.ofNat_toNat]
  · rfl

theorem utf8_codepoint_length_ascii {b : UInt8} (h : b < 0x80) :
    utf8_codepoint_length b = 0 ∨ utf8_codepoint_length b = 1 := by
  have hand : b &&& 0x80 = 0 := by
    have hlt : b.toNat < 2 ^ 7 := h
    apply UInt8.toNat_inj.mp
    rw [UInt8.toNat_and, show (0x80 : UInt8).toNat = 2 ^ 7 from rfl, Nat.and_two_pow,
      Nat.testBit_lt_two_pow hlt]
    rfl
  rw [utf8_codepoint_length]
  split
  · exact .inl rfl
  · rw [hand]
    exact .inr rfl

theorem decodeFrom_ascii {text : List UInt8} (h : IsAscii text) {index fuel : ℕ}
    (hfuel : text.length ≤ fuel) :
    (decodeFrom text index fuel).map (·.1) = text.map UInt8.toNat ∧
      (decodeFrom text index fuel).map (·.2) = List.range' index text.length := by
  induction fuel generalizing text index with
  | zero =>
    rw [List.length_eq_zero_iff.mp (Nat.le_zero.mp hfuel), decodeFrom]
    exact ⟨rfl, rfl⟩
  | succ fuel ih =>
    rcases text with _ | ⟨c, cs⟩
    · exact ⟨rfl, rfl⟩
    have hc : c < 0x80 := h c List.mem_cons_self
    obtain ⟨hcodepoints, hoffsets⟩ := @ih cs (fun b hb => h b (List.mem_cons_of_mem c hb))
      (index + 1) (Nat.le_of_succ_le_succ hfuel)
    have hdecode : decode_utf8_codepoint (c :: cs) 0 = c.toNat := by
      rw [decode_utf8_codepoint]
      exact if_pos hc
    have hboth : decodeFrom (c :: cs) index (fuel + 1) =
        (c.toNat, index) :: decodeFrom cs (index + 1) fuel := by
      rw [decodeFrom]
      rcases utf8_codepoint_length_ascii hc with hlength | hlength <;> rw [hlength]
      · rfl
      · rw [hdecode]
        simp
    simp only [hboth, List.map_cons, hcodepoints, hoffsets, List.length_cons, List.range'_succ,
      and_self]

theorem codepoints_ascii {text : List UInt8} (h : IsAscii text) :
    (decode_text text).codepoints = text.map UInt8.toNat :=
  (decodeFrom_ascii h (Nat.le_refl _)).1

theorem byteOffset_ascii {text : List UInt8} (h : IsAscii text) (hK : K ≤ text.length) :
    (decode_text text).byteOffset.getD K 0 = K := by
  have hoffsets : (decode_text text).byteOffset = List.range' 0 (text.length + 1) := by
    rw [decode_text, (decodeFrom_ascii h (Nat.le_refl _)).2, List.range'_1_concat, Nat.zero_add]
  rw [hoffsets, List.getD_eq_getElem _ _ (by rw [List.length_range']; omega), List.getElem_range']
  omega

/-- Comparing codepoints is comparing bytes. -/
theorem oneEdit_ascii (hliteral : IsAscii literal) (hinput : IsAscii input) :
    OneEdit ((decode_text literal).codepoints.map (normalize_codepoint caseSensitive))
        (((decode_text input).codepoints.take K).map (normalize_codepoint caseSensitive)) ↔
      OneEdit (literal.map (foldByte caseSensitive))
        ((input.take K).map (foldByte caseSensitive)) := by
  have hmap : ∀ text : List UInt8, IsAscii text →
      (text.map UInt8.toNat).map (normalize_codepoint caseSensitive) =
        (text.map (foldByte caseSensitive)).map UInt8.toNat := by
    intro text htext
    rw [List.map_map, List.map_map]
    exact List.map_congr_left fun b hb => normalize_codepoint_toNat (htext b hb)
  rw [codepoints_ascii hliteral, codepoints_ascii hinput, ← List.map_take, hmap _ hliteral,
    hmap _ fun b hb => hinput b (List.mem_of_mem_take hb)]
  exact OneEdit.map_iff fun a b => UInt8.toNat_inj.mp

/-- Where both texts are of single bytes, the edit ends with the input when both are
word-like. -/
theorem editedAt_ascii (hliteral : IsAscii literal) (hinput : IsAscii input) :
    EditedAt literal input caseSensitive K ↔ 1 ≤ K ∧ K ≤ input.length ∧
      OneEdit (literal.map (foldByte caseSensitive))
        ((input.take K).map (foldByte caseSensitive)) ∧
      (is_word_like_terminal literal = true → is_word_like_terminal input = true →
        K = input.length) := by
  have hlength : (decode_text input).codepoints.length = input.length := by
    rw [codepoints_ascii hinput, List.length_map]
  have hcharge : K ≤ input.length → (trailingCharge literal input K = 0 ↔
      (is_word_like_terminal literal = true → is_word_like_terminal input = true →
        K = input.length)) := by
    intro hK
    rw [trailingCharge, hlength]
    cases is_word_like_terminal literal <;> cases is_word_like_terminal input <;> simp
    omega
  constructor
  · intro h
    have hK : K ≤ input.length := hlength ▸ h.le
    exact ⟨h.pos, hK, (oneEdit_ascii hliteral hinput).mp h.edit, (hcharge hK).mp h.charge⟩
  · rintro ⟨hpos, hK, hedit, hword⟩
    have hone := hedit.length
    rw [List.length_map, List.length_map, List.length_take, Nat.min_eq_left hK] at hone
    refine ⟨hpos, hlength.symm ▸ hK, (oneEdit_ascii hliteral hinput).mpr hedit,
      (hcharge hK).mpr hword, ?_, ?_⟩ <;> rw [byteOffset_ascii hinput hK] <;> omega

theorem equals_text_iff : equals_text caseSensitive literal input = true ↔
    literal.map (foldByte caseSensitive) = input.map (foldByte caseSensitive) := by
  rw [equals_text]
  induction literal generalizing input with
  | nil => cases input <;> simp
  | cons a literal ih =>
    rcases input with _ | ⟨b, input⟩
    · simp
    · have htail := @ih input
      simp only [Bool.and_eq_true, beq_iff_eq, List.length_cons, List.zip_cons_cons, List.all_cons,
        equal_codepoint_iff, List.map_cons, List.cons.injEq, Nat.add_right_cancel_iff] at htail ⊢
      rw [← htail]
      tauto

/-- One edit leaves an anchor. -/
theorem anchor_of_oneEdit (hpos : 1 ≤ K) (hK : K ≤ input.length)
    (h : OneEdit (literal.map (foldByte caseSensitive))
      ((input.take K).map (foldByte caseSensitive))) :
    has_word_like_local_anchor literal input caseSensitive = true := by
  simp only [has_word_like_local_anchor, Bool.or_eq_true, decide_eq_true_eq]
  by_cases hliteral : min literal.length 3 ≤ 1
  · exact .inl (.inl (.inl (.inr hliteral)))
  by_cases hinput : min input.length 3 ≤ 1
  · exact .inl (.inl (.inr hinput))
  right
  obtain ⟨i, hi, j, hj, a, hia, hja⟩ := h.anchor (by rw [List.length_map]; omega)
    (by rw [List.length_map, List.length_take]; omega)
  have hjK : j < K := by
    have hlt := (List.getElem?_eq_some_iff.mp hja).1
    rw [List.length_map, List.length_take] at hlt
    omega
  rw [map_byteAt (by omega), Option.some.injEq] at hia
  rw [List.getElem?_map, List.getElem?_take_of_lt hjK, ← List.getElem?_map, map_byteAt (by omega),
    Option.some.injEq] at hja
  rw [List.any_eq_true]
  refine ⟨i, List.mem_range.mpr (by omega), List.any_eq_true.mpr ⟨j, List.mem_range.mpr (by omega),
    ?_⟩⟩
  simp only [Bool.and_eq_true, decide_eq_true_eq, equal_codepoint_iff]
  exact ⟨⟨by omega, by omega⟩, hia.trans hja.symm⟩

/-- When detector and matcher agree on single bytes: whenever the literal is one edit away from
a beginning of the input, the input is neither empty nor the literal itself, and when both are
word-like it is one edit away from the whole input. -/
def DetectorAgrees (literal input : List UInt8) (caseSensitive : Bool) : Prop :=
  EditedPrefix literal input caseSensitive →
    input ≠ [] ∧ equals_text caseSensitive literal input = false ∧
      (is_word_like_terminal literal = true → is_word_like_terminal input = true →
        OneEdit (literal.map (foldByte caseSensitive)) (input.map (foldByte caseSensitive)))

/-- A literal of one byte that is not the input is one edit away from some of it. -/
theorem exists_oneEdit_pos {b : UInt8} (hinput : input ≠ [])
    (hequals : equals_text caseSensitive [b] input = false) :
    ∃ K, 1 ≤ K ∧ K ≤ input.length ∧ OneEdit ([b].map (foldByte caseSensitive))
      ((input.take K).map (foldByte caseSensitive)) := by
  rcases input with _ | ⟨c, input⟩
  · exact absurd rfl hinput
  by_cases hbc : foldByte caseSensitive b = foldByte caseSensitive c
  · rcases input with _ | ⟨d, input⟩
    · have hequal : equals_text caseSensitive [b] [c] = true := by
        rw [equals_text_iff, List.map_singleton, List.map_singleton, hbc]
      exact absurd (hequal.symm.trans hequals) (by decide)
    · refine ⟨2, by omega, by simp, ?_⟩
      simp only [List.map_cons, List.map_nil, List.take_succ_cons, List.take_zero, hbc]
      exact .delete (u := [_]) (v := [])
  · exact ⟨1, Nat.le_refl 1, by simp, .substitute (u := []) (v := []) hbc⟩

/-- **The linear detector and the matcher agree on single bytes exactly under
`DetectorAgrees`.** -/
theorem single_edit_agrees_iff (caseSensitive : Bool) (hliteral : IsAscii literal)
    (hinput : IsAscii input) :
    (literal_has_single_edit_strict_match literal input caseSensitive = true ↔
        AdmitsSingleEdit literal input caseSensitive) ↔
      DetectorAgrees literal input caseSensitive := by
  rw [single_edit_iff, admits_iff, DetectorAgrees]
  simp only [editedAt_ascii hliteral hinput]
  constructor
  · intro h hedited
    obtain ⟨-, hne, hequals, -, K, -, hK, hedit, hword⟩ := h.mp hedited
    refine ⟨hne, hequals, fun hl hi => ?_⟩
    rwa [hword hl hi, List.take_length] at hedit
  · intro h
    refine ⟨fun hedited => ?_, ?_⟩
    case refine_2 =>
      rintro ⟨hne, -, -, -, K, -, hK, hedit, -⟩
      exact ⟨hne, K, hK, hedit⟩
    obtain ⟨hne, hequals, hword⟩ := h hedited
    obtain ⟨hne', K, hK, hedit⟩ := hedited
    obtain ⟨K', hpos, hK', hedit', hend⟩ : ∃ K', 1 ≤ K' ∧ K' ≤ input.length ∧
        OneEdit (literal.map (foldByte caseSensitive))
          ((input.take K').map (foldByte caseSensitive)) ∧
        (is_word_like_terminal literal = true → is_word_like_terminal input = true →
          K' = input.length) := by
      by_cases hwords : is_word_like_terminal literal = true ∧ is_word_like_terminal input = true
      · refine ⟨input.length, List.length_pos_iff.mpr hne, Nat.le_refl _, ?_, fun _ _ => rfl⟩
        rw [List.take_length]
        exact hword hwords.1 hwords.2
      · rcases Nat.eq_zero_or_pos K with rfl | hpos
        · -- only a single byte is one edit away from nothing
          have hlength := hedit.length
          rw [List.length_map, List.length_map, List.take_zero, List.length_nil] at hlength
          obtain ⟨b, rfl⟩ : ∃ b, literal = [b] :=
            List.length_eq_one_iff.mp (by have := List.length_pos_iff.mpr hne'; omega)
          obtain ⟨K', hpos, hK', hedit'⟩ := exists_oneEdit_pos hne hequals
          exact ⟨K', hpos, hK', hedit', fun hl hi => absurd ⟨hl, hi⟩ hwords⟩
        · exact ⟨K, hpos, hK, hedit, fun hl hi => absurd ⟨hl, hi⟩ hwords⟩
    exact ⟨hne', hne, hequals, anchor_of_oneEdit hpos hK' hedit', K', hpos, hK', hedit', hend⟩

/-- A literal with one letter replaced, and nothing after it. -/
theorem single_edit_agrees_iff_abxd :
    literal_has_single_edit_strict_match [97, 98, 99, 100] [97, 98, 120, 100] true = true ↔
      AdmitsSingleEdit [97, 98, 99, 100] [97, 98, 120, 100] true := by
  refine (single_edit_agrees_iff true (by decide +kernel) (by decide +kernel)).mpr fun _ => ?_
  exact ⟨by decide, by decide, fun _ _ => oneEdit_iff_trim.mpr (by decide)⟩

/-- The input goes on with a letter: one substitution in the first four bytes, distance 2 in
all. -/
theorem single_edit_before_letter :
    literal_has_single_edit_strict_match [97, 98, 99, 100] [97, 98, 120, 100, 121] true = true ∧
      ¬ AdmitsSingleEdit [97, 98, 99, 100] [97, 98, 120, 100, 121] true := by
  refine ⟨by decide, fun h => ?_⟩
  obtain ⟨-, -, -, -, K, hK⟩ := admits_iff.mp h
  obtain ⟨-, -, hedit, hend⟩ := (editedAt_ascii (by decide +kernel) (by decide +kernel)).mp hK
  obtain rfl : K = 5 := hend (by decide) (by decide)
  exact absurd (oneEdit_iff_trim.mp hedit) (by decide)

end Ascii

end Pegium
