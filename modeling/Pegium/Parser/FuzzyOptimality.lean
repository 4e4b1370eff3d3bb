/-
Pegium/Parser/FuzzyOptimality.lean

What the fuzzy matcher computes.

Every cell of the grid is the least cost, and among those the least number of operations, of
the edit scripts between a beginning of the literal and one of the input
(`cellAt_isLeast`), by induction on the two lengths.  Its parents spell out such a script, so
a candidate counts the operations of one (`countParents_eq`).  What is returned are the
candidates that no other one dominates (`fuzzy_matching_optimal`).
-/
import Mathlib.Algebra.Order.Monoid.Prod
import Mathlib.Algebra.Order.Ring.Nat
import Mathlib.Data.List.GetD
import Mathlib.Data.List.Sort
import Mathlib.Tactic.Ring
import Pegium.General.EditScript
import Pegium.Parser.LiteralFuzzyMatcher

namespace Pegium

/-! ### The grid -/

section Rows

variable {lane : DpLane} {caseSensitive : Bool} {literal input : List ℕ}
  {prevPrevRow prevRow : List (Option DpCell)} {i j n : ℕ}

theorem length_dpRow :
    (dpRow lane caseSensitive literal input prevPrevRow prevRow i n).length = n := by
  induction n with
  | zero => rfl
  | succ n ih => rw [dpRow, List.length_append, ih, List.length_singleton]

theorem length_dpRows : (dpRows lane caseSensitive literal input n).length = n := by
  induction n with
  | zero => rfl
  | succ n ih => rw [dpRows, List.length_append, ih, List.length_singleton]

/-- A longer row begins with the shorter one. -/
theorem dpRow_getD_of_lt {m : ℕ} (h : j < n) (hle : n ≤ m) :
    (dpRow lane caseSensitive literal input prevPrevRow prevRow i m).getD j none =
      (dpRow lane caseSensitive literal input prevPrevRow prevRow i n).getD j none := by
  induction m, hle using Nat.le_induction with
  | base => rfl
  | succ m hle ih =>
    rw [dpRow, List.getD_append _ _ _ _ (by rw [length_dpRow]; omega), ih]

theorem dpRows_getD_of_lt {m : ℕ} (h : i < n) (hle : n ≤ m) :
    (dpRows lane caseSensitive literal input m).getD i [] =
      (dpRows lane caseSensitive literal input n).getD i [] := by
  induction m, hle using Nat.le_induction with
  | base => rfl
  | succ m hle ih =>
    rw [dpRows, List.getD_append _ _ _ _ (by rw [length_dpRows]; omega), ih]

/-- The first cell of a row has none to its left. -/
theorem dpCell_zero_right (left left' : Option DpCell) :
    dpCell lane caseSensitive literal input prevPrevRow prevRow left i 0 =
      dpCell lane caseSensitive literal input prevPrevRow prevRow left' i 0 := by
  cases i <;> rfl

/-- The first row has none above it. -/
theorem dpRow_zero_left (prevPrevRow' prevRow' : List (Option DpCell)) :
    dpRow lane caseSensitive literal input prevPrevRow prevRow 0 n =
      dpRow lane caseSensitive literal input prevPrevRow' prevRow' 0 n := by
  induction n with
  | zero => rfl
  | succ n ih =>
    rw [dpRow, dpRow, ih]
    cases n <;> rfl

/-- A cell of a row, from the one to its left. -/
theorem dpRow_getD (h : j < n) :
    (dpRow lane caseSensitive literal input prevPrevRow prevRow i n).getD j none =
      dpCell lane caseSensitive literal input prevPrevRow prevRow
        ((dpRow lane caseSensitive literal input prevPrevRow prevRow i n).getD (j - 1) none)
        i j := by
  rw [dpRow_getD_of_lt (Nat.lt_succ_self j) h, dpRow,
    List.getD_append_right _ _ _ _ (Nat.le_of_eq length_dpRow), length_dpRow, Nat.sub_self,
    List.getD_cons_zero]
  cases j with
  | zero => exact dpCell_zero_right _ _
  | succ j =>
    rw [Nat.add_sub_cancel, dpRow_getD_of_lt (Nat.lt_succ_self j) (Nat.le_of_succ_le h),
      List.getLastD_eq_getLast?, List.getLast?_eq_getElem?, length_dpRow,
      List.getD_eq_getElem?_getD]
    rfl

/-- Every row of the grid, from the two above it. -/
theorem dpRows_getD (h : i < n) :
    (dpRows lane caseSensitive literal input n).getD i [] =
      dpRow lane caseSensitive literal input
        ((dpRows lane caseSensitive literal input n).getD (i - 2) [])
        ((dpRows lane caseSensitive literal input n).getD (i - 1) []) i (input.length + 1) := by
  rw [dpRows_getD_of_lt (Nat.lt_succ_self i) h, dpRows,
    List.getD_append_right _ _ _ _ (Nat.le_of_eq length_dpRows), length_dpRows, Nat.sub_self,
    List.getD_cons_zero]
  cases i with
  | zero => exact dpRow_zero_left _ _
  | succ i =>
    rw [Nat.add_sub_cancel, dpRows_getD_of_lt (Nat.lt_succ_self i) (Nat.le_of_succ_le h),
      dpRows_getD_of_lt (Nat.lt_succ_of_le (Nat.sub_le_of_le_add (by omega) : i + 1 - 2 ≤ i))
        (Nat.le_of_succ_le h)]

/-- **Every cell comes from the cells around it.** -/
theorem cellAt_eq (hi : i ≤ literal.length) (hj : j ≤ input.length) :
    cellAt lane caseSensitive literal input i j =
      dpCell lane caseSensitive literal input
        ((dpRows lane caseSensitive literal input (literal.length + 1)).getD (i - 2) [])
        ((dpRows lane caseSensitive literal input (literal.length + 1)).getD (i - 1) [])
        (cellAt lane caseSensitive literal input i (j - 1)) i j := by
  rw [cellAt, cellAt, dpRows_getD (Nat.lt_succ_of_le hi)]
  exact dpRow_getD (Nat.lt_succ_of_le hj)

end Rows

/-! ### Scripts -/

/-- What an operation costs, and that it is one unless the codepoints agree. -/
def editWeight : EditOp → ℕ ×ₗ ℕ
  | .keep => toLex (0, 0)
  | .substitute => toLex (kSubstitutionCost, 1)
  | .insert => toLex (kInsertionCost, 1)
  | .delete => toLex (kDeletionCost, 1)
  | .transpose => toLex (kTranspositionCost, 1)

/-- The operations of the scripts behind a lane. -/
def DpLane.Allowed : DpLane → EditOp → Prop
  | .anyEdit, _ => True
  | .noSubstitution, op => op ≠ .substitute

def DpCell.weight (cell : DpCell) : ℕ ×ₗ ℕ := toLex (cell.weightedCost, cell.operations)

/-- What the scripts of a lane cost between two beginnings. -/
def prefixCosts (lane : DpLane) (caseSensitive : Bool) (literal input : List ℕ) (i j : ℕ) :
    Set (ℕ ×ₗ ℕ) :=
  EditOp.costs editWeight lane.Allowed
    (fun lhs rhs => equal_decoded_codepoint caseSensitive lhs rhs = true) (literal.take i)
    (input.take j)

/-- The weight of a script, from its counts. -/
theorem sum_editWeight (s : List EditOp) :
    (s.map editWeight).sum =
      toLex (s.count .insert * kInsertionCost + s.count .delete * kDeletionCost +
          s.count .substitute * kSubstitutionCost + s.count .transpose * kTranspositionCost,
        s.count .insert + s.count .delete + s.count .substitute + s.count .transpose) := by
  induction s with
  | nil => rfl
  | cons op s ih =>
    rw [List.map_cons, List.sum_cons, ih]
    cases op <;> simp only [editWeight, List.count_cons, ← toLex_add, Prod.mk_add_mk] <;>
      congr 2 <;> simp <;> ring

theorem is_better_cell_iff (lhs rhs : DpCell) :
    is_better_cell lhs rhs = true ↔ lhs.weight < rhs.weight := by
  simp only [is_better_cell, DpCell.weight, Prod.Lex.toLex_lt_toLex]
  split <;> simp <;> omega

theorem consider_transition_weight (best candidate : Option DpCell) (parent : ParentOp)
    (operationDelta weightDelta : ℕ) :
    (consider_transition best candidate parent operationDelta weightDelta).map DpCell.weight =
      IsBest.relax (best.map DpCell.weight)
        ((candidate.map DpCell.weight).map (· + toLex (weightDelta, operationDelta))) := by
  rcases candidate with _ | candidate
  · rfl
  · rcases best with _ | best
    · rfl
    · simp only [consider_transition, Option.map_some, IsBest.relax]
      split
      case isTrue hbetter =>
        rw [if_pos]
        · rfl
        · exact (is_better_cell_iff _ _).mp hbetter
      case isFalse hworse =>
        rw [if_neg]
        · rfl
        · exact fun hlt => hworse ((is_better_cell_iff _ _).mpr hlt)

/-- One more predecessor. -/
theorem isBest_consider {S T : Set (ℕ ×ₗ ℕ)} {Allowed : EditOp → Prop}
    {best candidate : Option DpCell} {op : EditOp} {operationDelta weightDelta : ℕ}
    (parent : ParentOp) (hS : IsBest S (best.map DpCell.weight))
    (hT : IsBest T (candidate.map DpCell.weight)) (hop : Allowed op)
    (hw : editWeight op = toLex (weightDelta, operationDelta)) :
    IsBest (S ∪ EditOp.after editWeight Allowed T op)
      ((consider_transition best candidate parent operationDelta weightDelta).map
        DpCell.weight) := by
  rw [consider_transition_weight, ← hw]
  exact hS.union (hT.after hop)

/-- The first predecessor. -/
theorem isBest_consider_none {T : Set (ℕ ×ₗ ℕ)} {Allowed : EditOp → Prop}
    {candidate : Option DpCell} {op : EditOp} {operationDelta weightDelta : ℕ}
    (parent : ParentOp) (hT : IsBest T (candidate.map DpCell.weight)) (hop : Allowed op)
    (hw : editWeight op = toLex (weightDelta, operationDelta)) :
    IsBest (EditOp.after editWeight Allowed T op)
      ((consider_transition none candidate parent operationDelta weightDelta).map
        DpCell.weight) := by
  have hempty : IsBest (∅ : Set (ℕ ×ₗ ℕ)) ((none : Option DpCell).map DpCell.weight) := rfl
  have hbest := isBest_consider parent hempty hT hop hw
  rwa [Set.empty_union] at hbest

section Optimal

variable {lane : DpLane} {caseSensitive : Bool} {literal input : List ℕ} {i j : ℕ}

theorem DpLane.allowed_of_ne {op : EditOp} (h : op ≠ .substitute) : lane.Allowed op := by
  cases lane
  · trivial
  · exact h

/-- What ends in an exchange. -/
theorem isBest_transpose (hi : i < literal.length) (hj : j < input.length)
    {S : Set (ℕ ×ₗ ℕ)} {best corner : Option DpCell} (hbest : IsBest S (best.map DpCell.weight))
    (hcorner : 1 ≤ i → 1 ≤ j → IsBest (prefixCosts lane caseSensitive literal input (i - 1) (j - 1))
      (corner.map DpCell.weight)) :
    IsBest (S ∪ {c | ∃ xs' x' ys' y', literal.take i = xs' ++ [x'] ∧ input.take j = ys' ++ [y'] ∧
        equal_decoded_codepoint caseSensitive literal[i] y' = true ∧
        equal_decoded_codepoint caseSensitive x' input[j] = true ∧
        c ∈ EditOp.after editWeight lane.Allowed (EditOp.costs editWeight lane.Allowed
          (fun lhs rhs => equal_decoded_codepoint caseSensitive lhs rhs = true) xs' ys')
          .transpose})
      ((if 1 ≤ i && 1 ≤ j &&
          equal_decoded_codepoint caseSensitive literal[i] (input.getD (j - 1) 0) &&
          equal_decoded_codepoint caseSensitive (literal.getD (i - 1) 0) input[j] then
        consider_transition best corner .transposeAdjacentCodepoints 1 kTranspositionCost
      else best).map DpCell.weight) := by
  rcases i with _ | i
  · -- nothing stands before the first codepoint
    have hempty : ∀ (xs' : List ℕ) x', literal.take 0 ≠ xs' ++ [x'] := by simp
    simpa [hempty] using hbest
  rcases j with _ | j
  · have hempty : ∀ (ys' : List ℕ) y', input.take 0 ≠ ys' ++ [y'] := by simp
    simpa [hempty] using hbest
  have hx : literal.getD i 0 = literal[i] := List.getD_eq_getElem _ _ (by omega)
  have hy : input.getD j 0 = input[j] := List.getD_eq_getElem _ _ (by omega)
  have hset : {c | ∃ xs' x' ys' y', literal.take (i + 1) = xs' ++ [x'] ∧
        input.take (j + 1) = ys' ++ [y'] ∧
        equal_decoded_codepoint caseSensitive literal[i + 1] y' = true ∧
        equal_decoded_codepoint caseSensitive x' input[j + 1] = true ∧
        c ∈ EditOp.after editWeight lane.Allowed (EditOp.costs editWeight lane.Allowed
          (fun lhs rhs => equal_decoded_codepoint caseSensitive lhs rhs = true) xs' ys')
          .transpose} =
      {c | (equal_decoded_codepoint caseSensitive literal[i + 1] input[j] = true ∧
          equal_decoded_codepoint caseSensitive literal[i] input[j + 1] = true) ∧
        c ∈ EditOp.after editWeight lane.Allowed
          (prefixCosts lane caseSensitive literal input i j) .transpose} := by
    ext c
    rw [List.take_succ_eq_append_getElem (by omega), List.take_succ_eq_append_getElem (by omega)]
    constructor
    · rintro ⟨xs', x', ys', y', hxs, hys, hxy, hyx, hc⟩
      obtain ⟨rfl, rfl⟩ := List.append_singleton_inj.mp hxs
      obtain ⟨rfl, rfl⟩ := List.append_singleton_inj.mp hys
      exact ⟨⟨hxy, hyx⟩, hc⟩
    · rintro ⟨⟨hxy, hyx⟩, hc⟩
      exact ⟨_, _, _, _, rfl, rfl, hxy, hyx, hc⟩
  rw [hset]
  simp only [Nat.add_sub_cancel, hx, hy, Nat.le_add_left, decide_true, Bool.true_and,
    Bool.and_eq_true]
  split
  case isTrue hequal =>
    simp only [hequal, and_self, true_and, Set.ofPred_mem_eq]
    exact isBest_consider _ hbest (hcorner (by omega) (by omega))
      (DpLane.allowed_of_ne (by decide)) rfl
  case isFalse hunequal =>
    simp only [hunequal, false_and, Set.ofPred_false, Set.union_empty]
    exact hbest

/-- A cell inside the grid, from the optima around it. -/
theorem dpCell_isBest {prevPrevRow prevRow : List (Option DpCell)} {left : Option DpCell}
    (hi : i < literal.length) (hj : j < input.length)
    (hdiagonal : IsBest (prefixCosts lane caseSensitive literal input i j)
      ((prevRow.getD j none).map DpCell.weight))
    (habove : IsBest (prefixCosts lane caseSensitive literal input i (j + 1))
      ((prevRow.getD (j + 1) none).map DpCell.weight))
    (hleft : IsBest (prefixCosts lane caseSensitive literal input (i + 1) j)
      (left.map DpCell.weight))
    (hcorner : 1 ≤ i → 1 ≤ j → IsBest (prefixCosts lane caseSensitive literal input (i - 1) (j - 1))
      ((prevPrevRow.getD (j - 1) none).map DpCell.weight)) :
    IsBest (prefixCosts lane caseSensitive literal input (i + 1) (j + 1))
      ((dpCell lane caseSensitive literal input prevPrevRow prevRow left (i + 1) (j + 1)).map
        DpCell.weight) := by
  rw [prefixCosts] at habove hleft ⊢
  rw [List.take_succ_eq_append_getElem hi] at hleft ⊢
  rw [List.take_succ_eq_append_getElem hj] at habove ⊢
  rw [EditOp.costs_snoc]
  have hx : literal.getD i 0 = literal[i] := List.getD_eq_getElem _ _ hi
  have hy : input.getD j 0 = input[j] := List.getD_eq_getElem _ _ hj
  simp only [dpCell, hx, hy]
  refine isBest_transpose hi hj ?_ hcorner
  refine isBest_consider _ ?_ hleft (DpLane.allowed_of_ne (by decide)) rfl
  refine isBest_consider _ ?_ habove (DpLane.allowed_of_ne (by decide)) rfl
  have hkeep : IsBest {c | equal_decoded_codepoint caseSensitive literal[i] input[j] = true ∧
        c ∈ EditOp.after editWeight lane.Allowed
          (prefixCosts lane caseSensitive literal input i j) .keep}
      ((if equal_decoded_codepoint caseSensitive literal[i] input[j] then
        consider_transition none (prevRow.getD j none) .match 0 0 else none).map
          DpCell.weight) := by
    split
    case isTrue hequal =>
      simp only [hequal, true_and, Set.ofPred_mem_eq]
      exact isBest_consider_none _ hdiagonal (DpLane.allowed_of_ne (by decide)) rfl
    case isFalse hunequal =>
      exact Set.eq_empty_of_forall_notMem fun c hc => hunequal hc.1
  cases lane with
  | anyEdit => exact isBest_consider _ hkeep hdiagonal trivial rfl
  | noSubstitution =>
    have hnone : EditOp.after editWeight DpLane.noSubstitution.Allowed
        (prefixCosts .noSubstitution caseSensitive literal input i j) .substitute = ∅ :=
      Set.eq_empty_of_forall_notMem fun c hc => hc.1 rfl
    rw [prefixCosts] at hnone
    rw [hnone, Set.union_empty]
    exact hkeep

/-- **Every cell is the optimum of its scripts.** -/
theorem cellAt_isBest (hi : i ≤ literal.length) (hj : j ≤ input.length) :
    IsBest (prefixCosts lane caseSensitive literal input i j)
      ((cellAt lane caseSensitive literal input i j).map DpCell.weight) := by
  induction hn : i + j using Nat.strong_induction_on generalizing i j with
  | _ n ih =>
    subst hn
    rw [cellAt_eq hi hj]
    rcases i with _ | i <;> rcases j with _ | j
    · rw [prefixCosts, List.take_zero, List.take_zero, EditOp.costs_nil_nil]
      exact isLeast_singleton
    · have hleft := ih (0 + j) (by omega) hi (Nat.le_of_succ_le hj) rfl
      rw [prefixCosts, List.take_zero, List.take_succ_eq_append_getElem (by omega),
        EditOp.costs_nil_snoc]
      exact isBest_consider_none _ hleft (DpLane.allowed_of_ne (by decide)) rfl
    · have habove := ih (i + 0) (by omega) (Nat.le_of_succ_le hi) hj rfl
      rw [prefixCosts, List.take_zero, List.take_succ_eq_append_getElem (by omega),
        EditOp.costs_snoc_nil]
      exact isBest_consider_none _ habove (DpLane.allowed_of_ne (by decide)) rfl
    · refine dpCell_isBest hi hj ?_ ?_ ?_ fun hi' hj' => ?_
      · exact ih (i + j) (by omega) (Nat.le_of_succ_le hi) (Nat.le_of_succ_le hj) rfl
      · exact ih (i + (j + 1)) (by omega) (Nat.le_of_succ_le hi) hj rfl
      · exact ih (i + 1 + j) (by omega) hi (Nat.le_of_succ_le hj) rfl
      · exact ih (i - 1 + (j - 1)) (by omega) (by omega) (by omega) rfl

/-- Everything can be inserted and deleted. -/
theorem indel_mem_prefixCosts (hi : i ≤ literal.length) (hj : j ≤ input.length) :
    toLex (i * kInsertionCost + j * kDeletionCost, i + j) ∈
      prefixCosts lane caseSensitive literal input i j := by
  have hinsert : ∀ xs : List ℕ, Edits (fun lhs rhs =>
      equal_decoded_codepoint caseSensitive lhs rhs = true) xs []
      (List.replicate xs.length .insert) := by
    intro xs
    induction xs with
    | nil => exact .nil
    | cons x xs ih => exact .insert ih
  have hdelete : ∀ ys : List ℕ, Edits (fun lhs rhs =>
      equal_decoded_codepoint caseSensitive lhs rhs = true) [] ys
      (List.replicate ys.length .delete) := by
    intro ys
    induction ys with
    | nil => exact .nil
    | cons y ys ih => exact .delete ih
  have happend := (hinsert (literal.take i)).append (hdelete (input.take j))
  rw [List.append_nil, List.nil_append, List.length_take, List.length_take, Nat.min_eq_left hi,
    Nat.min_eq_left hj] at happend
  refine ⟨_, happend, fun op hop => DpLane.allowed_of_ne ?_, ?_⟩
  · rcases List.mem_append.mp hop with hop | hop <;> rw [List.eq_of_mem_replicate hop] <;> decide
  · rw [sum_editWeight]
    simp [List.count_append, List.count_replicate]

/-- **Every cell is reached, and is the lexicographic minimum of its scripts.** -/
theorem cellAt_isLeast (hi : i ≤ literal.length) (hj : j ≤ input.length) :
    ∃ cell, cellAt lane caseSensitive literal input i j = some cell ∧
      IsLeast (prefixCosts lane caseSensitive literal input i j) cell.weight := by
  have hbest : IsBest (prefixCosts lane caseSensitive literal input i j) _ := cellAt_isBest hi hj
  rcases hcell : cellAt lane caseSensitive literal input i j with _ | cell
  · rw [hcell] at hbest
    exact absurd hbest (Set.nonempty_of_mem (indel_mem_prefixCosts hi hj)).ne_empty
  · rw [hcell] at hbest
    exact ⟨cell, rfl, hbest⟩

/-- The cost of a cell is bounded by the lengths, so the counters of the source do not wrap for
texts of this size: its `kNoMatch` is a quarter of the largest counter. -/
theorem weightedCost_lt (hi : i ≤ literal.length) (hj : j ≤ input.length)
    (hsize : literal.length + 4 * input.length < (2 ^ 32 - 1) / 4) {cell : DpCell}
    (h : cellAt lane caseSensitive literal input i j = some cell) :
    cell.weightedCost < (2 ^ 32 - 1) / 4 := by
  obtain ⟨cell', hcell', hleast⟩ := @cellAt_isLeast lane caseSensitive _ _ _ _ hi hj
  rw [h] at hcell'
  cases hcell'
  have hle := Prod.Lex.monotone_fst _ _ (hleast.2 (indel_mem_prefixCosts hi hj))
  have hinsertion : kInsertionCost = 1 := rfl
  have hdeletion : kDeletionCost = 4 := rfl
  simp only [DpCell.weight, ofLex_toLex, hinsertion, hdeletion] at hle
  omega

end Optimal

/-! ### Parents -/

/-- The operation behind a parent. -/
def ParentOp.op : ParentOp → Option EditOp
  | .none => Option.none
  | .match => some .keep
  | .substitute => some .substitute
  | .insertMissingInputCodepoint => some .insert
  | .deleteUnexpectedInputCodepoint => some .delete
  | .transposeAdjacentCodepoints => some .transpose

/-- A cell whose parent is an operation comes from the cell before that operation. -/
structure ComesBy (lane : DpLane) (caseSensitive : Bool) (literal input : List ℕ) (i j : ℕ)
    (cell : DpCell) (op : EditOp) : Prop where
  allowed : lane.Allowed op
  literal_le : op.takes.1 ≤ i
  input_le : op.takes.2 ≤ j
  edits : Edits (fun lhs rhs => equal_decoded_codepoint caseSensitive lhs rhs = true)
    ((literal.take i).drop (i - op.takes.1)) ((input.take j).drop (j - op.takes.2)) [op]
  before : ∃ cell', cellAt lane caseSensitive literal input (i - op.takes.1) (j - op.takes.2) =
    some cell' ∧ cell.weight = cell'.weight + editWeight op

/-- The parent of a cell explains it. -/
def Explained (lane : DpLane) (caseSensitive : Bool) (literal input : List ℕ) (i j : ℕ)
    (cell : DpCell) : Prop :=
  match cell.parent.op with
  | none => i = 0 ∧ j = 0 ∧ cell.weight = 0
  | some op => ComesBy lane caseSensitive literal input i j cell op

theorem consider_transition_cases {best candidate : Option DpCell} {parent : ParentOp}
    {operationDelta weightDelta : ℕ} {cell : DpCell}
    (h : consider_transition best candidate parent operationDelta weightDelta = some cell) :
    best = some cell ∨ ∃ cell', candidate = some cell' ∧
      cell = ⟨cell'.operations + operationDelta, cell'.weightedCost + weightDelta, parent⟩ := by
  rcases candidate with _ | candidate
  · exact .inl h
  · rcases best with _ | best
    · exact .inr ⟨candidate, rfl, (Option.some.inj h).symm⟩
    · simp only [consider_transition] at h
      split at h
      · exact .inr ⟨candidate, rfl, (Option.some.inj h).symm⟩
      · exact .inl h

section Parents

variable {lane : DpLane} {caseSensitive : Bool} {literal input : List ℕ} {i j : ℕ}

theorem explained_consider (op : EditOp) {parent : ParentOp} {operationDelta weightDelta : ℕ}
    (hop : parent.op = some op) (hw : editWeight op = toLex (weightDelta, operationDelta))
    (allowed : lane.Allowed op) (literal_le : op.takes.1 ≤ i) (input_le : op.takes.2 ≤ j)
    (edits : Edits (fun lhs rhs => equal_decoded_codepoint caseSensitive lhs rhs = true)
      ((literal.take i).drop (i - op.takes.1)) ((input.take j).drop (j - op.takes.2)) [op])
    {best : Option DpCell} (hbest : ∀ cell, best = some cell →
      Explained lane caseSensitive literal input i j cell)
    {cell : DpCell} (h : consider_transition best
      (cellAt lane caseSensitive literal input (i - op.takes.1) (j - op.takes.2)) parent
      operationDelta weightDelta = some cell) :
    Explained lane caseSensitive literal input i j cell := by
  rcases consider_transition_cases h with hcell | ⟨cell', hcell', rfl⟩
  · exact hbest cell hcell
  · rw [Explained, hop]
    refine ⟨allowed, literal_le, input_le, edits, cell', hcell', ?_⟩
    rw [hw]
    rfl

theorem drop_take_self {l : List ℕ} {n : ℕ} : (l.take n).drop n = [] :=
  List.drop_eq_nil_of_le (List.length_take_le n l)

theorem drop_take_succ {l : List ℕ} {n : ℕ} (h : n < l.length) :
    (l.take (n + 1)).drop n = [l.getD n 0] := by
  rw [List.take_succ_eq_append_getElem h, List.drop_append_of_le_length (by simp; omega),
    drop_take_self, List.nil_append, List.getD_eq_getElem _ _ h]

theorem drop_take_succ_succ {l : List ℕ} {n : ℕ} (h : n + 1 < l.length) :
    (l.take (n + 2)).drop n = [l.getD n 0, l.getD (n + 1) 0] := by
  rw [List.take_succ_eq_append_getElem h, List.drop_append_of_le_length (by simp; omega),
    drop_take_succ (by omega), List.getD_eq_getElem _ _ h, List.singleton_append]

/-- The transitions between two codepoints. -/
theorem explained_diagonal (hi : i < literal.length) (hj : j < input.length) {cell : DpCell}
    (h : (let best :=
        if equal_decoded_codepoint caseSensitive (literal.getD i 0) (input.getD j 0) then
          consider_transition none (cellAt lane caseSensitive literal input i j) .match 0 0
        else none
      match lane with
      | .anyEdit =>
        consider_transition best (cellAt lane caseSensitive literal input i j) .substitute 1
          kSubstitutionCost
      | .noSubstitution => best) = some cell) :
    Explained lane caseSensitive literal input (i + 1) (j + 1) cell := by
  have hx := drop_take_succ hi
  have hy := drop_take_succ hj
  have hkeep : ∀ cell, (if equal_decoded_codepoint caseSensitive (literal.getD i 0)
      (input.getD j 0) then consider_transition none (cellAt lane caseSensitive literal input i j)
        .match 0 0 else none) = some cell →
      Explained lane caseSensitive literal input (i + 1) (j + 1) cell := by
    intro cell hcell
    split at hcell
    case isTrue hequal =>
      refine explained_consider .keep rfl rfl (DpLane.allowed_of_ne (by decide))
        (Nat.le_add_left 1 i) (Nat.le_add_left 1 j) ?_ (fun _ => by simp) hcell
      simp only [EditOp.takes, Nat.add_sub_cancel, hx, hy]
      exact .keep hequal .nil
    case isFalse => cases hcell
  cases lane with
  | anyEdit =>
    have hallowed : DpLane.anyEdit.Allowed .substitute := trivial
    refine explained_consider .substitute rfl rfl hallowed (Nat.le_add_left 1 i)
      (Nat.le_add_left 1 j) ?_ hkeep h
    simp only [EditOp.takes, Nat.add_sub_cancel, hx, hy]
    exact .substitute .nil
  | noSubstitution => exact hkeep cell h

/-- The insertion and the deletion. -/
theorem explained_indel (hi : i < literal.length) (hj : j < input.length) {best : Option DpCell}
    (hbest : ∀ cell, best = some cell →
      Explained lane caseSensitive literal input (i + 1) (j + 1) cell) {cell : DpCell}
    (h : consider_transition (consider_transition best
        (cellAt lane caseSensitive literal input i (j + 1)) .insertMissingInputCodepoint 1
        kInsertionCost) (cellAt lane caseSensitive literal input (i + 1) j)
      .deleteUnexpectedInputCodepoint 1 kDeletionCost = some cell) :
    Explained lane caseSensitive literal input (i + 1) (j + 1) cell := by
  refine explained_consider .delete rfl rfl (DpLane.allowed_of_ne (by decide))
    (Nat.zero_le (i + 1)) (Nat.le_add_left 1 j) ?_ (fun cell hcell => ?_) h
  · simp only [EditOp.takes, Nat.add_sub_cancel, Nat.sub_zero, drop_take_succ hj, drop_take_self]
    exact .delete .nil
  · refine explained_consider .insert rfl rfl (DpLane.allowed_of_ne (by decide))
      (Nat.le_add_left 1 i) (Nat.zero_le (j + 1)) ?_ hbest hcell
    simp only [EditOp.takes, Nat.add_sub_cancel, Nat.sub_zero, drop_take_succ hi, drop_take_self]
    exact .insert .nil

/-- **The parent of every cell explains it.** -/
theorem cellAt_explained (hi : i ≤ literal.length) (hj : j ≤ input.length) {cell : DpCell}
    (h : cellAt lane caseSensitive literal input i j = some cell) :
    Explained lane caseSensitive literal input i j cell := by
  rw [cellAt_eq hi hj] at h
  rcases i with _ | i <;> rcases j with _ | j
  · cases h
    exact ⟨rfl, rfl, rfl⟩
  · refine explained_consider .delete rfl rfl (DpLane.allowed_of_ne (by decide))
      (Nat.zero_le _) (Nat.le_add_left 1 j) ?_ (fun _ => by simp) h
    rw [EditOp.takes, Nat.add_sub_cancel, drop_take_succ hj]
    exact .delete .nil
  · refine explained_consider .insert rfl rfl (DpLane.allowed_of_ne (by decide))
      (Nat.le_add_left 1 i) (Nat.zero_le _) ?_ (fun _ => by simp) h
    rw [EditOp.takes, Nat.add_sub_cancel, drop_take_succ hi]
    exact .insert .nil
  · simp only [dpCell] at h
    split at h
    case isTrue hexchange =>
      simp only [Bool.and_eq_true, decide_eq_true_eq] at hexchange
      obtain ⟨⟨⟨hi', hj'⟩, hxy⟩, hyx⟩ := hexchange
      obtain ⟨i, rfl⟩ := Nat.exists_eq_add_of_le' hi'
      obtain ⟨j, rfl⟩ := Nat.exists_eq_add_of_le' hj'
      refine explained_consider .transpose rfl rfl (DpLane.allowed_of_ne (by decide))
        (by simp [EditOp.takes]) (by simp [EditOp.takes]) ?_
        (fun cell hcell => explained_indel hi hj (fun cell => explained_diagonal hi hj) hcell) h
      show Edits _ ((literal.take (i + 2)).drop i) ((input.take (j + 2)).drop j) _
      rw [drop_take_succ_succ hi, drop_take_succ_succ hj]
      exact .transpose hyx hxy .nil
    case isFalse => exact explained_indel hi hj (fun cell => explained_diagonal hi hj) h

end Parents

/-! ### Candidates -/

/-- A candidate with the operations of a script counted. -/
def LiteralFuzzyCandidate.addCounts (s : List EditOp) (candidate : LiteralFuzzyCandidate) :
    LiteralFuzzyCandidate :=
  { candidate with
    insertionCount := candidate.insertionCount + s.count .insert
    deletionCount := candidate.deletionCount + s.count .delete
    substitutionCount := candidate.substitutionCount + s.count .substitute
    transpositionCount := candidate.transpositionCount + s.count .transpose }

theorem LiteralFuzzyCandidate.addCounts_append (s s' : List EditOp)
    (candidate : LiteralFuzzyCandidate) :
    (candidate.addCounts s').addCounts s = candidate.addCounts (s ++ s') := by
  simp only [addCounts, List.count_append]
  simp [Nat.add_comm, Nat.add_left_comm]

section Candidates

variable {lane : DpLane} {caseSensitive : Bool} {literal input : List ℕ} {i j : ℕ}

theorem countParents_succ {grid : ℕ → ℕ → Option DpCell} {fuel : ℕ} {cell : DpCell} {op : EditOp}
    (hcell : grid i j = some cell) (hop : cell.parent.op = some op) (hne : ¬ (i = 0 ∧ j = 0))
    (candidate : LiteralFuzzyCandidate) :
    countParents grid (fuel + 1) i j candidate =
      countParents grid fuel (i - op.takes.1) (j - op.takes.2) (candidate.addCounts [op]) := by
  rw [countParents, if_neg hne, hcell, Option.elim_some]
  rcases hparent : cell.parent <;> rw [hparent] at hop <;> cases hop <;> rfl

/-- What a script of a beginning and one more operation make. -/
theorem edits_of_comesBy {cell : DpCell} {op : EditOp}
    (h : ComesBy lane caseSensitive literal input i j cell op) {s : List EditOp}
    (hs : Edits (fun lhs rhs => equal_decoded_codepoint caseSensitive lhs rhs = true)
      (literal.take (i - op.takes.1)) (input.take (j - op.takes.2)) s) :
    Edits (fun lhs rhs => equal_decoded_codepoint caseSensitive lhs rhs = true)
      (literal.take i) (input.take j) (s ++ [op]) := by
  have hsplit : ∀ (l : List ℕ) (n m : ℕ), l.take (n - m) ++ (l.take n).drop (n - m) = l.take n := by
    intro l n m
    have htake : l.take (n - m) = (l.take n).take (n - m) := by
      rw [List.take_take, Nat.min_eq_left (Nat.sub_le n m)]
    rw [htake, List.take_append_drop]
  have happend := hs.append h.edits
  rwa [hsplit, hsplit] at happend

/-- **The parents of a cell spell out a script that costs what the cell says.** -/
theorem countParents_eq {fuel : ℕ} {cell : DpCell} (hi : i ≤ literal.length)
    (hj : j ≤ input.length) (hfuel : i + j ≤ fuel)
    (hcell : cellAt lane caseSensitive literal input i j = some cell)
    (candidate : LiteralFuzzyCandidate) :
    ∃ s, Edits (fun lhs rhs => equal_decoded_codepoint caseSensitive lhs rhs = true)
        (literal.take i) (input.take j) s ∧ (∀ op ∈ s, lane.Allowed op) ∧
      cell.weight = (s.map editWeight).sum ∧
      countParents (cellAt lane caseSensitive literal input) fuel i j candidate =
        candidate.addCounts s := by
  induction fuel generalizing i j cell candidate with
  | zero =>
    obtain ⟨rfl, rfl⟩ : i = 0 ∧ j = 0 := by omega
    rw [cellAt_eq hi hj] at hcell
    cases hcell
    exact ⟨[], .nil, by simp, rfl, rfl⟩
  | succ fuel ih =>
    have hexplained := cellAt_explained hi hj hcell
    rw [Explained] at hexplained
    split at hexplained
    case h_1 hparent =>
      obtain ⟨rfl, rfl, hweight⟩ := hexplained
      exact ⟨[], .nil, by simp, hweight, rfl⟩
    case h_2 op hop =>
      obtain ⟨cell', hcell', hweight⟩ := hexplained.before
      have hi' := hexplained.literal_le
      have hj' := hexplained.input_le
      have htakes : 1 ≤ op.takes.1 + op.takes.2 := by cases op <;> decide
      obtain ⟨s, hs, hallowed, hsum, hcounts⟩ := ih (by omega) (by omega) (by omega) hcell'
        (candidate.addCounts [op])
      refine ⟨s ++ [op], edits_of_comesBy hexplained hs, ?_, ?_, ?_⟩
      · intro op' hop'
        rcases List.mem_append.mp hop' with hmem | hmem
        · exact hallowed op' hmem
        · rw [List.mem_singleton.mp hmem]
          exact hexplained.allowed
      · rw [hweight, hsum, List.map_append, List.sum_append, List.map_singleton,
          List.sum_singleton]
      · rw [countParents_succ hcell hop (by omega), hcounts,
          LiteralFuzzyCandidate.addCounts_append]

end Candidates

section Collected

variable {literal input : List UInt8} {caseSensitive : Bool} {lane : DpLane} {consumed : ℕ}
  {candidate : LiteralFuzzyCandidate}

/-- The input codepoints that are charged although the candidate does not consume them. -/
def trailingCharge (literal input : List UInt8) (consumed : ℕ) : ℕ :=
  if is_word_like_terminal literal && is_word_like_terminal input then
    (decode_text input).codepoints.length - consumed
  else 0

/-- The counts of a candidate belong together. -/
structure Consistent (literal input : List UInt8) (candidate : LiteralFuzzyCandidate) : Prop where
  distance : candidate.insertionCount + candidate.deletionCount + candidate.substitutionCount +
    candidate.transpositionCount = candidate.distance
  operations : candidate.operationCount = candidate.distance
  weight : candidate.insertionCount * kInsertionCost + candidate.deletionCount * kDeletionCost +
      candidate.substitutionCount * kSubstitutionCost +
      candidate.transpositionCount * kTranspositionCost = candidate.rawWeightedCost
  length : candidate.consumedCodepoints +
      trailingCharge literal input candidate.consumedCodepoints + candidate.insertionCount =
    (decode_text literal).codepoints.length + candidate.deletionCount
  bytes : candidate.consumed = (decode_text input).byteOffset.getD candidate.consumedCodepoints 0
  cost : candidate.cost = make_fuzzy_recovery_cost (decode_text literal).codepoints.length
    candidate.rawWeightedCost

/-- A candidate is made of an optimal script and of what is charged after it. -/
theorem laneCandidate_eq (hconsumed : consumed ≤ (decode_text input).codepoints.length)
    (h : laneCandidate literal input caseSensitive lane consumed = some candidate) :
    ∃ cell s, cellAt lane caseSensitive (decode_text literal).codepoints
        (decode_text input).codepoints (decode_text literal).codepoints.length consumed =
          some cell ∧ cell.operations ≠ 0 ∧
      Edits (fun lhs rhs => equal_decoded_codepoint caseSensitive lhs rhs = true)
        (decode_text literal).codepoints ((decode_text input).codepoints.take consumed) s ∧
      cell.weight = (s.map editWeight).sum ∧
      candidate = chargeTrailing (decode_text literal).codepoints.length
        (trailingCharge literal input consumed)
        { consumed := (decode_text input).byteOffset.getD consumed 0
          consumedCodepoints := consumed
          distance := cell.operations
          operationCount :=
            s.count .insert + s.count .delete + s.count .substitute + s.count .transpose
          rawWeightedCost := cell.weightedCost
          cost := make_fuzzy_recovery_cost (decode_text literal).codepoints.length
            cell.weightedCost
          insertionCount := s.count .insert
          deletionCount := s.count .delete
          substitutionCount := s.count .substitute
          transpositionCount := s.count .transpose } := by
  simp only [laneCandidate] at h
  split at h
  case h_1 => cases h
  case h_2 cell hcell =>
    split at h
    case isTrue => cases h
    case isFalse hoperations =>
      obtain ⟨s, hs, -, hweight, hcounts⟩ := countParents_eq (Nat.le_refl _) hconsumed
        (Nat.le_refl _) hcell
        { consumed := (decode_text input).byteOffset.getD consumed 0
          consumedCodepoints := consumed
          distance := cell.operations
          rawWeightedCost := cell.weightedCost
          cost := make_fuzzy_recovery_cost (decode_text literal).codepoints.length
            cell.weightedCost }
      rw [List.take_length] at hs
      refine ⟨cell, s, hcell, hoperations, hs, hweight, ?_⟩
      rw [← Option.some.inj h, reconstruct_candidate, hcounts]
      simp only [LiteralFuzzyCandidate.addCounts, Nat.zero_add, trailingCharge]
      rcases hword : is_word_like_terminal literal && is_word_like_terminal input
      · rfl
      · rcases Nat.lt_or_eq_of_le hconsumed with hlt | rfl
        · simp only [Bool.true_and, decide_eq_true_eq, if_pos hlt, if_true]
        · simp only [Nat.lt_irrefl, decide_false, Bool.true_and, Bool.false_eq_true, if_false,
            if_true, Nat.sub_self]
          rfl

theorem consistent_of_laneCandidate (hconsumed : consumed ≤ (decode_text input).codepoints.length)
    (h : laneCandidate literal input caseSensitive lane consumed = some candidate) :
    Consistent literal input candidate := by
  obtain ⟨cell, s, -, -, hs, hweight, rfl⟩ := laneCandidate_eq hconsumed h
  rw [sum_editWeight, DpCell.weight] at hweight
  obtain ⟨hcost, hoperations⟩ := Prod.mk.inj (toLex.injective hweight)
  have hlength := hs.length_eq
  rw [List.length_take, Nat.min_eq_left hconsumed] at hlength
  refine ⟨?_, ?_, ?_, ?_, rfl, rfl⟩ <;> simp only [chargeTrailing]
  · omega
  · omega
  · rw [hcost]
    ring
  · omega

/-! ### What is returned -/

/-- A candidate of one of the lanes, for a part of the input that is not empty. -/
def IsCandidate (literal input : List UInt8) (caseSensitive : Bool)
    (candidate : LiteralFuzzyCandidate) : Prop :=
  ∃ lane, ∃ consumed, 1 ≤ consumed ∧ consumed ≤ (decode_text input).codepoints.length ∧
    laneCandidate literal input caseSensitive lane consumed = some candidate

theorem mem_push_candidate {candidates : List LiteralFuzzyCandidate}
    {other : LiteralFuzzyCandidate} :
    candidate ∈ push_candidate candidates other ↔ candidate ∈ candidates ∨ candidate = other := by
  rw [push_candidate]
  split
  case isTrue hmem =>
    exact ⟨.inl, fun h => h.elim id fun heq => heq ▸ hmem⟩
  case isFalse => rw [List.mem_append, List.mem_singleton]

theorem nodup_push_candidate {candidates : List LiteralFuzzyCandidate}
    {other : LiteralFuzzyCandidate} (h : candidates.Nodup) :
    (push_candidate candidates other).Nodup := by
  rw [push_candidate]
  split
  case isTrue => exact h
  case isFalse hmem =>
    refine List.nodup_append.mpr ⟨h, List.nodup_singleton _, fun a ha b hb => ?_⟩
    rw [List.mem_singleton.mp hb]
    exact fun heq => hmem (heq ▸ ha)

theorem mem_collect_candidate {candidates : List LiteralFuzzyCandidate} :
    candidate ∈ collect_candidate literal input caseSensitive lane candidates consumed ↔
      candidate ∈ candidates ∨
        laneCandidate literal input caseSensitive lane consumed = some candidate := by
  rw [collect_candidate]
  rcases laneCandidate literal input caseSensitive lane consumed with _ | other
  · simp
  · rw [Option.elim_some, mem_push_candidate, Option.some.injEq, eq_comm (a := other)]

theorem nodup_collect_candidate {candidates : List LiteralFuzzyCandidate} (h : candidates.Nodup) :
    (collect_candidate literal input caseSensitive lane candidates consumed).Nodup := by
  rw [collect_candidate]
  rcases laneCandidate literal input caseSensitive lane consumed with _ | other
  · exact h
  · exact nodup_push_candidate h

/-- **The candidates are collected, each once.** -/
theorem mem_collectCandidates :
    candidate ∈ collectCandidates literal input caseSensitive ↔
      IsCandidate literal input caseSensitive candidate := by
  have hfold : ∀ (indices : List ℕ) (candidates : List LiteralFuzzyCandidate),
      candidate ∈ indices.foldl (fun candidates index =>
        collect_candidate literal input caseSensitive .noSubstitution
          (collect_candidate literal input caseSensitive .anyEdit candidates (index + 1))
          (index + 1)) candidates ↔
      candidate ∈ candidates ∨ ∃ index ∈ indices, ∃ lane,
        laneCandidate literal input caseSensitive lane (index + 1) = some candidate := by
    intro indices
    induction indices with
    | nil => simp
    | cons index indices ih =>
      intro candidates
      rw [List.foldl_cons, ih, mem_collect_candidate, mem_collect_candidate]
      have hlanes : (∃ lane, laneCandidate literal input caseSensitive lane (index + 1) =
          some candidate) ↔
          laneCandidate literal input caseSensitive .anyEdit (index + 1) = some candidate ∨
            laneCandidate literal input caseSensitive .noSubstitution (index + 1) =
              some candidate := by
        constructor
        · rintro ⟨lane, h⟩
          cases lane
          · exact .inl h
          · exact .inr h
        · rintro (h | h)
          · exact ⟨.anyEdit, h⟩
          · exact ⟨.noSubstitution, h⟩
      simp only [List.mem_cons, exists_eq_or_imp, hlanes]
      tauto
  rw [collectCandidates, hfold]
  simp only [List.not_mem_nil, false_or, List.mem_range]
  constructor
  · rintro ⟨index, hlt, lane, h⟩
    exact ⟨lane, index + 1, Nat.le_add_left 1 index, hlt, h⟩
  · rintro ⟨lane, consumed, hpos, hle, h⟩
    obtain ⟨index, rfl⟩ := Nat.exists_eq_add_of_le' hpos
    exact ⟨index, hle, lane, h⟩

theorem nodup_collectCandidates : (collectCandidates literal input caseSensitive).Nodup := by
  have hfold : ∀ (indices : List ℕ) (candidates : List LiteralFuzzyCandidate),
      candidates.Nodup → (indices.foldl (fun candidates index =>
        collect_candidate literal input caseSensitive .noSubstitution
          (collect_candidate literal input caseSensitive .anyEdit candidates (index + 1))
          (index + 1)) candidates).Nodup := by
    intro indices
    induction indices with
    | nil => exact fun _ h => h
    | cons index indices ih =>
      exact fun _ h => ih _ (nodup_collect_candidate (nodup_collect_candidate h))
  exact hfold _ _ List.nodup_nil

theorem mem_prune_dominated_candidates {candidates : List LiteralFuzzyCandidate} :
    candidate ∈ prune_dominated_candidates candidates ↔ candidate ∈ candidates ∧
      ∀ other ∈ candidates, dominates_candidate other candidate = false := by
  rw [prune_dominated_candidates, List.mem_mergeSort, List.mem_filter]
  simp only [Bool.not_eq_true', List.any_eq_false, Bool.not_eq_true]

/-- **Fuzzy matching is optimal.**  Every cell of both lanes is the lexicographic minimum of
cost and number of operations over the scripts between the two beginnings; the counts of every
returned candidate belong together; and what is returned, each once, are the candidates that no
candidate dominates. -/
theorem fuzzy_matching_optimal (literal input : List UInt8) (caseSensitive : Bool) :
    (∀ lane, ∀ i ≤ (decode_text literal).codepoints.length,
      ∀ j ≤ (decode_text input).codepoints.length,
        ∃ cell, cellAt lane caseSensitive (decode_text literal).codepoints
            (decode_text input).codepoints i j = some cell ∧
          IsLeast (EditOp.costs editWeight lane.Allowed
              (fun lhs rhs => equal_decoded_codepoint caseSensitive lhs rhs = true)
              ((decode_text literal).codepoints.take i) ((decode_text input).codepoints.take j))
            (toLex (cell.weightedCost, cell.operations))) ∧
    (∀ candidate ∈ compute_pruned_literal_fuzzy_candidates literal input caseSensitive,
      Consistent literal input candidate) ∧
    (∀ candidate, candidate ∈ compute_pruned_literal_fuzzy_candidates literal input caseSensitive ↔
      IsCandidate literal input caseSensitive candidate ∧
        ∀ other, IsCandidate literal input caseSensitive other →
          dominates_candidate other candidate = false) ∧
    (compute_pruned_literal_fuzzy_candidates literal input caseSensitive).Nodup := by
  have hmem : ∀ candidate,
      candidate ∈ compute_pruned_literal_fuzzy_candidates literal input caseSensitive ↔
      IsCandidate literal input caseSensitive candidate ∧
        ∀ other, IsCandidate literal input caseSensitive other →
          dominates_candidate other candidate = false := by
    intro candidate
    simp only [compute_pruned_literal_fuzzy_candidates, mem_prune_dominated_candidates,
      mem_collectCandidates]
  refine ⟨fun lane i hi j hj => cellAt_isLeast hi hj, fun candidate h => ?_, hmem, ?_⟩
  · obtain ⟨⟨lane, consumed, -, hle, hcandidate⟩, -⟩ := (hmem candidate).mp h
    exact consistent_of_laneCandidate hle hcandidate
  · refine (List.mergeSort_perm _ _).nodup_iff.mpr ?_
    exact nodup_collectCandidates.filter _

end Collected

end Pegium
