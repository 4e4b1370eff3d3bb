/-
Pegium/Parser/LiteralFuzzyMatcher.lean

The fuzzy matcher of literals.

The matcher fills a grid: row `i` stands for the first `i` codepoints of the literal,
column `j` for the first `j` of the input.  The source fills two grids at once, `DpLane`
telling which one; they do not read each other, so the fill is one function of the lane.
It keeps three rows of cells and all parents; the model keeps all rows.

A cell without a match is `none`.  Counts and costs are natural numbers: callers hand over
an input of at most four codepoints more than the literal has.  The cache of results, keyed
by addresses, is left out.  `std::ranges::sort` promises nothing about equal ranks; the model
keeps their order.
-/
import Pegium.Parser.RecoveryContext

namespace Pegium

/-! ### Codepoints -/

/-- A text as codepoints with their places. -/
structure DecodedText where
  codepoints : List ℕ
  /-- where each codepoint begins, and the size of the text -/
  byteOffset : List ℕ
  deriving DecidableEq

/-- The codepoints of `text` with their offsets; a truncated or invalid sequence gives its
first byte. -/
def decodeFrom : List UInt8 → ℕ → ℕ → List (ℕ × ℕ)
  | [], _, _ => []
  | _ :: _, _, 0 => []
  | c :: cs, index, fuel + 1 =>
    let length := utf8_codepoint_length c
    if length == 0 || (c :: cs).length < length then
      (c.toNat, index) :: decodeFrom cs (index + 1) fuel
    else
      (decode_utf8_codepoint (c :: cs) 0, index) ::
        decodeFrom ((c :: cs).drop length) (index + length) fuel

/-- The codepoints of a whole text. -/
def decode_text (text : List UInt8) : DecodedText :=
  let decoded := decodeFrom text 0 text.length
  ⟨decoded.map (·.1), decoded.map (·.2) ++ [text.length]⟩

/-- Only ASCII letters are folded. -/
def normalize_codepoint (caseSensitive : Bool) (value : ℕ) : ℕ :=
  if caseSensitive || 0x80 ≤ value then value else (tolower (UInt8.ofNat value)).toNat

/-- Two codepoints agree, up to case where case does not matter. -/
def equal_decoded_codepoint (caseSensitive : Bool) (lhs rhs : ℕ) : Bool :=
  normalize_codepoint caseSensitive lhs == normalize_codepoint caseSensitive rhs

/-! ### Costs -/

/-- The weight of an insertion. -/
def kInsertionCost : ℕ := (ParseDiagnosticKind.default_edit_cost .inserted).toNat

/-- The weight of a deletion. -/
def kDeletionCost : ℕ := (ParseDiagnosticKind.default_edit_cost .deleted).toNat

/-- The weight of a substitution. -/
def kSubstitutionCost : ℕ := (ParseDiagnosticKind.default_edit_cost .replaced).toNat

/-- A transposition weighs as much as a substitution. -/
def kTranspositionCost : ℕ := kSubstitutionCost

/-- The literal length at which a weight is its rank. -/
def kReferenceLiteralLength : ℕ := 5

/-- What a candidate costs the budget, and what it is ranked by. -/
structure RecoveryCost where
  budgetCost : ℕ
  primaryRankCost : ℕ
  deriving DecidableEq

/-- The quotient rounded up. -/
def ceil_div (numerator denominator : ℕ) : ℕ :=
  if denominator = 0 then numerator else (numerator + denominator - 1) / denominator

/-- The rank is the cost for each five codepoints of the literal. -/
def make_fuzzy_recovery_cost (literalCodepointCount rawWeightedCost : ℕ) : RecoveryCost where
  budgetCost := rawWeightedCost
  primaryRankCost :=
    ceil_div (rawWeightedCost * kReferenceLiteralLength) (max literalCodepointCount 1)

/-! ### The grid -/

/-- The operation by which a cell was reached. -/
inductive ParentOp where
  | none
  | match
  | substitute
  | insertMissingInputCodepoint
  | deleteUnexpectedInputCodepoint
  | transposeAdjacentCodepoints
  deriving DecidableEq

/-- The best way to a cell: its edits, their weight, and the last one. -/
structure DpCell where
  operations : ℕ
  weightedCost : ℕ
  parent : ParentOp
  deriving DecidableEq

/-- The two tables: with substitutions and without. -/
inductive DpLane where
  | anyEdit
  | noSubstitution
  deriving DecidableEq

/-- Less weight first, then fewer edits. -/
def is_better_cell (lhs rhs : DpCell) : Bool :=
  if lhs.weightedCost ≠ rhs.weightedCost then lhs.weightedCost < rhs.weightedCost
  else lhs.operations < rhs.operations

/-- The better of the best way so far and a way over a neighbour. -/
def consider_transition (best candidate : Option DpCell) (parent : ParentOp)
    (operationDelta weightDelta : ℕ) : Option DpCell :=
  match candidate with
  | none => best
  | some candidate =>
    let next : DpCell :=
      ⟨candidate.operations + operationDelta, candidate.weightedCost + weightDelta, parent⟩
    match best with
    | none => some next
    | some best => if is_better_cell next best then some next else some best

section Grid

variable (lane : DpLane) (caseSensitive : Bool) (literal input : List ℕ)

/-- One cell, from the two rows above it and the cell to its left. -/
def dpCell (prevPrevRow prevRow : List (Option DpCell)) (left : Option DpCell) :
    ℕ → ℕ → Option DpCell
  | 0, 0 => some ⟨0, 0, .none⟩
  | 0, _ + 1 => consider_transition none left .deleteUnexpectedInputCodepoint 1 kDeletionCost
  | _ + 1, 0 =>
    consider_transition none (prevRow.getD 0 none) .insertMissingInputCodepoint 1 kInsertionCost
  | i + 1, j + 1 =>
    let equal := fun i j =>
      equal_decoded_codepoint caseSensitive (literal.getD i 0) (input.getD j 0)
    let best :=
      if equal i j then consider_transition none (prevRow.getD j none) .match 0 0 else none
    let best :=
      match lane with
      | .anyEdit =>
        consider_transition best (prevRow.getD j none) .substitute 1 kSubstitutionCost
      | .noSubstitution => best
    let best :=
      consider_transition best (prevRow.getD (j + 1) none) .insertMissingInputCodepoint 1
        kInsertionCost
    let best :=
      consider_transition best left .deleteUnexpectedInputCodepoint 1 kDeletionCost
    if 1 ≤ i && 1 ≤ j && equal i (j - 1) && equal (i - 1) j then
      consider_transition best (prevPrevRow.getD (j - 1) none) .transposeAdjacentCodepoints 1
        kTranspositionCost
    else best

/-- The first `n` cells of row `i`, from left to right. -/
def dpRow (prevPrevRow prevRow : List (Option DpCell)) (i : ℕ) : ℕ → List (Option DpCell)
  | 0 => []
  | n + 1 =>
    let row := dpRow prevPrevRow prevRow i n
    row ++ [dpCell lane caseSensitive literal input prevPrevRow prevRow (row.getLastD none) i n]

/-- The first `n` rows. -/
def dpRows : ℕ → List (List (Option DpCell))
  | 0 => []
  | n + 1 =>
    let rows := dpRows n
    rows ++ [dpRow lane caseSensitive literal input (rows.getD (n - 2) []) (rows.getD (n - 1) [])
      n (input.length + 1)]

/-- The filled grid. -/
def cellAt (i j : ℕ) : Option DpCell :=
  ((dpRows lane caseSensitive literal input (literal.length + 1)).getD i []).getD j none

end Grid

/-! ### Candidates -/

/-- A match of the literal with a prefix of the input, with the edits it takes. -/
structure LiteralFuzzyCandidate where
  /-- bytes of the input -/
  consumed : ℕ
  consumedCodepoints : ℕ
  distance : ℕ
  operationCount : ℕ := 0
  rawWeightedCost : ℕ
  cost : RecoveryCost
  insertionCount : ℕ := 0
  deletionCount : ℕ := 0
  substitutionCount : ℕ := 0
  transpositionCount : ℕ := 0
  deriving DecidableEq

/-- The operations along the parents of a cell, counted.  Every step goes to a smaller
cell. -/
def countParents (grid : ℕ → ℕ → Option DpCell) :
    ℕ → ℕ → ℕ → LiteralFuzzyCandidate → LiteralFuzzyCandidate
  | 0, _, _, candidate => candidate
  | fuel + 1, literalIndex, consumedIndex, candidate =>
    if literalIndex = 0 ∧ consumedIndex = 0 then candidate
    else
      match (grid literalIndex consumedIndex).elim .none DpCell.parent with
      | .none => candidate
      | .match => countParents grid fuel (literalIndex - 1) (consumedIndex - 1) candidate
      | .substitute =>
        countParents grid fuel (literalIndex - 1) (consumedIndex - 1)
          { candidate with substitutionCount := candidate.substitutionCount + 1 }
      | .insertMissingInputCodepoint =>
        countParents grid fuel (literalIndex - 1) consumedIndex
          { candidate with insertionCount := candidate.insertionCount + 1 }
      | .deleteUnexpectedInputCodepoint =>
        countParents grid fuel literalIndex (consumedIndex - 1)
          { candidate with deletionCount := candidate.deletionCount + 1 }
      | .transposeAdjacentCodepoints =>
        countParents grid fuel (literalIndex - 2) (consumedIndex - 2)
          { candidate with transpositionCount := candidate.transpositionCount + 1 }

/-- The candidate of a cell, with its edits counted along the parents. -/
def reconstruct_candidate (grid : ℕ → ℕ → Option DpCell) (literal input : DecodedText)
    (consumedCodepoints : ℕ) (cell : DpCell) : LiteralFuzzyCandidate :=
  let candidate :=
    countParents grid (literal.codepoints.length + consumedCodepoints) literal.codepoints.length
      consumedCodepoints
      { consumed := input.byteOffset.getD consumedCodepoints 0
        consumedCodepoints
        distance := cell.operations
        rawWeightedCost := cell.weightedCost
        cost := make_fuzzy_recovery_cost literal.codepoints.length cell.weightedCost }
  { candidate with
    operationCount := candidate.insertionCount + candidate.deletionCount +
      candidate.substitutionCount + candidate.transpositionCount }

/-- The input codepoints after the candidate, charged as deletions. -/
def chargeTrailing (literalCodepointCount trailing : ℕ) (candidate : LiteralFuzzyCandidate) :
    LiteralFuzzyCandidate :=
  { candidate with
    distance := candidate.distance + trailing
    deletionCount := candidate.deletionCount + trailing
    rawWeightedCost := candidate.rawWeightedCost + trailing * kDeletionCost
    operationCount := candidate.operationCount + trailing
    cost := make_fuzzy_recovery_cost literalCodepointCount
      (candidate.rawWeightedCost + trailing * kDeletionCost) }

/-- A candidate is listed once. -/
def push_candidate (candidates : List LiteralFuzzyCandidate) (candidate : LiteralFuzzyCandidate) :
    List LiteralFuzzyCandidate :=
  if candidate ∈ candidates then candidates else candidates ++ [candidate]

/-- At least as good in everything, and better in something. -/
def dominates_candidate (lhs rhs : LiteralFuzzyCandidate) : Bool :=
  (lhs.cost.primaryRankCost ≤ rhs.cost.primaryRankCost &&
    lhs.rawWeightedCost ≤ rhs.rawWeightedCost && lhs.distance ≤ rhs.distance &&
    lhs.substitutionCount ≤ rhs.substitutionCount && rhs.consumed ≤ lhs.consumed) &&
  (lhs.cost.primaryRankCost < rhs.cost.primaryRankCost ||
    lhs.rawWeightedCost < rhs.rawWeightedCost || lhs.distance < rhs.distance ||
    lhs.substitutionCount < rhs.substitutionCount || rhs.consumed < lhs.consumed)

/-- No candidate is compared with itself, but none dominates itself either. -/
def prune_dominated_candidates (candidates : List LiteralFuzzyCandidate) :
    List LiteralFuzzyCandidate :=
  (candidates.filter fun candidate => !candidates.any (dominates_candidate · candidate)).mergeSort
    fun lhs rhs => lhs.cost.primaryRankCost ≤ rhs.cost.primaryRankCost

section Compute

variable (literal input : List UInt8) (caseSensitive : Bool)

/-- The candidate of a cell of the last row, unless it is an exact match. -/
def laneCandidate (lane : DpLane) (consumed : ℕ) : Option LiteralFuzzyCandidate :=
  let literalDecoded := decode_text literal
  let inputDecoded := decode_text input
  let grid := cellAt lane caseSensitive literalDecoded.codepoints inputDecoded.codepoints
  match grid literalDecoded.codepoints.length consumed with
  | none => none
  | some cell =>
    if cell.operations = 0 then none
    else
      let candidate := reconstruct_candidate grid literalDecoded inputDecoded consumed cell
      let wordLikeCandidateSpace := is_word_like_terminal literal && is_word_like_terminal input
      some
        (if wordLikeCandidateSpace && consumed < inputDecoded.codepoints.length then
          chargeTrailing literalDecoded.codepoints.length
            (inputDecoded.codepoints.length - consumed) candidate
        else candidate)

/-- The candidate of one lane at one prefix, where there is one. -/
def collect_candidate (lane : DpLane) (candidates : List LiteralFuzzyCandidate) (consumed : ℕ) :
    List LiteralFuzzyCandidate :=
  (laneCandidate literal input caseSensitive lane consumed).elim candidates
    (push_candidate candidates)

/-- The candidates of both lanes, for every part of the input that is not empty. -/
def collectCandidates : List LiteralFuzzyCandidate :=
  (List.range (decode_text input).codepoints.length).foldl
    (fun candidates index =>
      collect_candidate literal input caseSensitive .noSubstitution
        (collect_candidate literal input caseSensitive .anyEdit candidates (index + 1))
        (index + 1)) []

/-- The candidates of all prefixes that no other one dominates. -/
def compute_pruned_literal_fuzzy_candidates : List LiteralFuzzyCandidate :=
  prune_dominated_candidates (collectCandidates literal input caseSensitive)

/-! ### The guards -/

/-- A truncated or invalid sequence counts as part of an identifier. -/
def hasNonIdentifierCodepoint : List UInt8 → ℕ → Bool
  | [], _ => false
  | _ :: _, 0 => false
  | c :: cs, fuel + 1 =>
    let length := utf8_codepoint_length c
    if length == 0 || (c :: cs).length < length then false
    else if !is_identifier_like_codepoint (decode_utf8_codepoint (c :: cs) 0) then true
    else hasNonIdentifierCodepoint ((c :: cs).drop length) fuel

/-- Some codepoint of the window cannot stand in an identifier. -/
def input_window_has_non_identifier_codepoint (input : List UInt8) (windowBytes : ℕ) : Bool :=
  hasNonIdentifierCodepoint (input.take windowBytes) windowBytes

/-- One of the first three bytes of a word-like literal stands at most one place away among
the first three of the input.  Nothing is asked for when either is a single byte, or when the
input has a codepoint there that is no part of an identifier. -/
def has_word_like_local_anchor : Bool :=
  let literalWindow := min literal.length 3
  let inputWindow := min input.length 3
  !is_word_like_terminal literal || literalWindow ≤ 1 || inputWindow ≤ 1 ||
    input_window_has_non_identifier_codepoint input 3 ||
    (List.range literalWindow).any fun literalIndex =>
      (List.range inputWindow).any fun inputIndex =>
        literalIndex ≤ inputIndex + 1 && inputIndex ≤ literalIndex + 1 &&
          equal_codepoint caseSensitive (byteAt literal literalIndex) (byteAt input inputIndex)

/-- The two texts agree byte by byte. -/
def equals_text (lhs rhs : List UInt8) : Bool :=
  lhs.length == rhs.length && (lhs.zip rhs).all fun c => equal_codepoint caseSensitive c.1 c.2

/-- The candidates, where the input is not the literal itself and shares an anchor with it. -/
def find_literal_fuzzy_candidates_view : List LiteralFuzzyCandidate :=
  if literal.isEmpty || input.isEmpty then []
  else if !equals_text caseSensitive literal input &&
      has_word_like_local_anchor literal input caseSensitive then
    compute_pruned_literal_fuzzy_candidates literal input caseSensitive
  else []

end Compute

end Pegium
