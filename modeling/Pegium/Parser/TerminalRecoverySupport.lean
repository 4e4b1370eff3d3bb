/-
Pegium/Parser/TerminalRecoverySupport.lean

The fuzzy candidates a literal offers to recovery.

A literal of at most two codepoints is compared byte by byte with a window of the input
before the matcher runs.  What the matcher then offers and the admission gate lets through
has cost no more than one inserted codepoint or one exchange (`admitted_counts`): a deletion
ranks above the limit of a short literal.  So the first codepoint of the window is one of the
literal's up to ASCII case, and where it is a whole UTF-8 sequence its first byte is the byte
the filter looks for (`short_literal_filter_neutral`).

The matcher reads a truncated sequence as its first byte.  There the bytes differ although
the codepoints agree (`truncated_letter_missed`).
-/
import Pegium.Parser.SingleEdit

namespace Pegium

/-! ### The shape of a literal -/

namespace TerminalRecovery

/-- What recovery knows about the text of a terminal. -/
structure TerminalShape where
  hasCanonicalText : Bool := false
  canonicalTextLength : ℕ := 0
  singleCodepoint : Bool := false
  deriving DecidableEq

/-- A single character is not replaced. -/
def TerminalShape.allowsReplace (shape : TerminalShape) : Bool :=
  shape.hasCanonicalText && !shape.singleCodepoint

/-- The number of codepoints; a byte that begins none counts as one. -/
def codepointCount : List UInt8 → ℕ → ℕ
  | [], _ => 0
  | _ :: _, 0 => 0
  | c :: cs, fuel + 1 =>
    let length := utf8_codepoint_length c
    if length == 0 || (c :: cs).length < length then codepointCount cs fuel + 1
    else codepointCount ((c :: cs).drop length) fuel + 1

/-- A truncated or invalid sequence counts as its first byte. -/
def utf8_codepoint_count (text : List UInt8) : ℕ := codepointCount text text.length

/-- The shape of a literal. -/
def make_terminal_shape_from_literal (canonicalText : List UInt8) : TerminalShape :=
  if canonicalText.isEmpty then {}
  else
    { hasCanonicalText := true
      canonicalTextLength := utf8_codepoint_count canonicalText
      singleCodepoint := utf8_codepoint_length (byteAt canonicalText 0) == canonicalText.length }

/-- How many codepoints a fuzzy match looks ahead. -/
def compute_terminal_max_lookahead (shape : TerminalShape) (affordableDeleteSpan : ℕ) : ℕ :=
  if shape.hasCanonicalText then shape.canonicalTextLength + affordableDeleteSpan else 0

/-! ### The window of the input -/

/-- That many codepoints on, at most to the limit. -/
def advanceBounded (text : List UInt8) (limit : ℕ) : ℕ → ℕ → ℕ
  | 0, cursor => cursor
  | steps + 1, cursor =>
    if cursor < limit then
      advanceBounded text limit steps (min (advanceOneCodepointLossy text cursor) limit)
    else cursor

/-- The first of the next `n` positions from which something is skipped, or the one behind
them. -/
def firstSkipped (skip_without_builder : ℕ → ℕ) : ℕ → ℕ → ℕ
  | 0, it => it
  | n + 1, it =>
    if it < skip_without_builder it then it else firstSkipped skip_without_builder n (it + 1)

/-- Where the input of a fuzzy match ends: at hidden text, or where the lookahead
does. -/
def literal_fuzzy_input_end (text : List UInt8) (skip_without_builder : ℕ → ℕ)
    (cursor limit : ℕ) (shape : TerminalShape) : ℕ :=
  let kAffordableDeleteSpan := 4
  if limit ≤ cursor then cursor
  else
    let maxLookahead := compute_terminal_max_lookahead shape kAffordableDeleteSpan
    let boundedLimit := advanceBounded text limit maxLookahead cursor
    firstSkipped skip_without_builder (boundedLimit - cursor) cursor

/-- The input of a fuzzy match. -/
def literal_fuzzy_input_view (text : List UInt8) (skip_without_builder : ℕ → ℕ)
    (cursor limit : ℕ) (shape : TerminalShape) : List UInt8 :=
  (text.drop cursor).take
    (literal_fuzzy_input_end text skip_without_builder cursor limit shape - cursor)

/-! ### Collecting the candidates -/

/-- The byte the filter compares; only the bit of ASCII case is set. -/
def fold (caseSensitive : Bool) (c : UInt8) : UInt8 :=
  if caseSensitive || 0x80 ≤ c then c else c ||| 0x20

/-- The literal shares a character with the input near the cursor. -/
def short_literal_fuzzy_candidate_possible (literalValue input : List UInt8)
    (caseSensitive : Bool) : Bool :=
  if literalValue.isEmpty || input.isEmpty then false
  else
    let inspectedInputLength := min input.length (literalValue.length + 1)
    (input.take inspectedInputLength).any fun inputByte =>
      literalValue.any fun literalChar =>
        fold caseSensitive inputByte == fold caseSensitive literalChar

/-- Whether hidden text stands before the cursor. -/
structure TriviaGapProfile where
  hasHiddenGap : Bool := false
  deriving DecidableEq

/-- What is known at the cursor. -/
structure TerminalRecoveryFacts where
  triviaGap : TriviaGapProfile := {}
  deriving DecidableEq

/-- A candidate may not rank behind this. -/
def literal_fuzzy_primary_rank_limit (shape : TerminalShape) : ℕ :=
  min 5 (shape.canonicalTextLength + 3)

/-- Whether a candidate may replace the text at the cursor. -/
def allows_literal_fuzzy_candidate (candidate : LiteralFuzzyCandidate) (shape : TerminalShape)
    (facts : TerminalRecoveryFacts) (cursorStartsStructuredVisibleSource : Bool) : Bool :=
  if !shape.allowsReplace ||
      literal_fuzzy_primary_rank_limit shape < candidate.cost.primaryRankCost then false
  else if shape.canonicalTextLength ≤ 2 then
    candidate.distance == 1 && candidate.operationCount == 1 && candidate.substitutionCount == 0
  else if !cursorStartsStructuredVisibleSource then false
  else if facts.triviaGap.hasHiddenGap && candidate.substitutionCount != 0 then false
  else !(5 ≤ shape.canonicalTextLength &&
    candidate.consumedCodepoints < shape.canonicalTextLength / 2)

section Collect

variable (text : List UInt8) (skip_without_builder : ℕ → ℕ) (cursorStart limit : ℕ)
  (literalValue : List UInt8) (caseSensitive : Bool) (shape : TerminalShape)
  (facts : TerminalRecoveryFacts) (cursorStartsStructuredVisibleSource : Bool)

/-- What the gate lets through of what the matcher offers for a window. -/
def admittedCandidates (inputView : List UInt8) : List LiteralFuzzyCandidate :=
  (find_literal_fuzzy_candidates_view literalValue inputView caseSensitive).filter
    (allows_literal_fuzzy_candidate · shape facts cursorStartsStructuredVisibleSource)

/-- The context says where the input ends, what is skipped and whether the cursor starts
structured visible source.  The cache keeps what the matcher returned and is left out. -/
def collect_literal_replace_candidates : List LiteralFuzzyCandidate :=
  if !shape.allowsReplace then []
  else
    let inputView := literal_fuzzy_input_view text skip_without_builder cursorStart limit shape
    if shape.canonicalTextLength ≤ 2 &&
        !short_literal_fuzzy_candidate_possible literalValue inputView caseSensitive then []
    else
      admittedCandidates literalValue caseSensitive shape facts
        cursorStartsStructuredVisibleSource inputView

/-- The same without the filter for short literals. -/
def collectWithoutFilter : List LiteralFuzzyCandidate :=
  if !shape.allowsReplace then []
  else
    admittedCandidates literalValue caseSensitive shape facts cursorStartsStructuredVisibleSource
      (literal_fuzzy_input_view text skip_without_builder cursorStart limit shape)

end Collect

end TerminalRecovery

/-! ### Encoded texts -/

theorem toNat_ofNat_byte {v : ℕ} (h : v < 256) : (UInt8.ofNat v).toNat = v := by
  rw [UInt8.toNat_ofNat', Nat.mod_eq_of_lt h]

/-- The length a lead byte announces, by its value. -/
theorem utf8_codepoint_length_lead (b : UInt8) :
    (1 ≤ b.toNat → b.toNat < 0x80 → utf8_codepoint_length b = 1) ∧
      (0xC0 ≤ b.toNat → b.toNat < 0xE0 → utf8_codepoint_length b = 2) ∧
      (0xE0 ≤ b.toNat → b.toNat < 0xF0 → utf8_codepoint_length b = 3) ∧
      (0xF0 ≤ b.toNat → b.toNat < 0xF8 → utf8_codepoint_length b = 4) := by
  revert b
  apply byte_cases
  decide +kernel

/-- The low bits of a byte are a remainder. -/
theorem and_low (v : ℕ) : v &&& 0x3F = v % 64 ∧ v &&& 0x1F = v % 32 ∧ v &&& 0x0F = v % 16 ∧
    v &&& 0x07 = v % 8 :=
  ⟨Nat.and_two_pow_sub_one_eq_mod v 6, Nat.and_two_pow_sub_one_eq_mod v 5,
    Nat.and_two_pow_sub_one_eq_mod v 4, Nat.and_two_pow_sub_one_eq_mod v 3⟩

/-- Bits side by side are a sum. -/
theorem shift_or (a : ℕ) {b i : ℕ} (h : b < 2 ^ i) : a <<< i ||| b = a * 2 ^ i + b := by
  rw [← Nat.shiftLeft_add_eq_or_of_lt h, Nat.shiftLeft_eq]

/-- Six bits more behind the bits of the lead byte. -/
theorem shift_or_next (a : ℕ) {b : ℕ} (hb : b < 64) (i : ℕ) :
    a <<< (i + 6) ||| b <<< i = (a * 64 + b) <<< i := by
  have hlt : b <<< i < 2 ^ (i + 6) := by
    rw [Nat.shiftLeft_eq, Nat.pow_add, Nat.mul_comm b]
    exact Nat.mul_lt_mul_of_pos_left hb (Nat.two_pow_pos i)
  rw [shift_or a hlt, Nat.shiftLeft_eq, Nat.shiftLeft_eq, Nat.pow_add]
  ring

section Sequences

variable {a b c d : ℕ} (more : List UInt8)

theorem toNat_continuation (hb : b < 64) : (UInt8.ofNat (b + 0x80)).toNat = b + 0x80 :=
  toNat_ofNat_byte (by omega)

theorem decode_two (ha : a < 32) (hb : b < 64) :
    decode_utf8_codepoint (UInt8.ofNat (a + 0xC0) :: UInt8.ofNat (b + 0x80) :: more) 0
      = a * 64 + b := by
  have hlead : (UInt8.ofNat (a + 0xC0)).toNat = a + 0xC0 := toNat_ofNat_byte (by omega)
  have hlength := (utf8_codepoint_length_lead (UInt8.ofNat (a + 0xC0))).2.1 (by omega) (by omega)
  simp only [decode_utf8_codepoint, byteAt, List.getD_cons_zero, List.getD_cons_succ, hlength,
    hlead, toNat_continuation hb, Nat.zero_add, and_low]
  rw [if_neg (by omega), shift_or _ (by omega)]
  omega

theorem decode_three (ha : a < 16) (hb : b < 64) (hc : c < 64) :
    decode_utf8_codepoint (UInt8.ofNat (a + 0xE0) :: UInt8.ofNat (b + 0x80) ::
      UInt8.ofNat (c + 0x80) :: more) 0 = (a * 64 + b) * 64 + c := by
  have hlead : (UInt8.ofNat (a + 0xE0)).toNat = a + 0xE0 := toNat_ofNat_byte (by omega)
  have hlength := (utf8_codepoint_length_lead (UInt8.ofNat (a + 0xE0))).2.2.1 (by omega) (by omega)
  simp only [decode_utf8_codepoint, byteAt, List.getD_cons_zero, List.getD_cons_succ, hlength,
    hlead, toNat_continuation hb, toNat_continuation hc, Nat.zero_add, and_low]
  rw [if_neg (by omega), shift_or_next _ (by omega) 6, shift_or _ (by omega)]
  omega

theorem decode_four (ha : a < 8) (hb : b < 64) (hc : c < 64) (hd : d < 64) :
    decode_utf8_codepoint (UInt8.ofNat (a + 0xF0) :: UInt8.ofNat (b + 0x80) ::
      UInt8.ofNat (c + 0x80) :: UInt8.ofNat (d + 0x80) :: more) 0
      = ((a * 64 + b) * 64 + c) * 64 + d := by
  have hlead : (UInt8.ofNat (a + 0xF0)).toNat = a + 0xF0 := toNat_ofNat_byte (by omega)
  have hlength := (utf8_codepoint_length_lead (UInt8.ofNat (a + 0xF0))).2.2.2 (by omega) (by omega)
  simp only [decode_utf8_codepoint, byteAt, List.getD_cons_zero, List.getD_cons_succ, hlength,
    hlead, toNat_continuation hb, toNat_continuation hc, toNat_continuation hd, Nat.zero_add,
    and_low]
  rw [if_neg (by omega), shift_or_next _ (by omega) 12, shift_or_next _ (by omega) 6,
    shift_or _ (by omega)]
  omega

end Sequences

section Encoded

variable {c d : Char}

/-- A lead byte, the continuation bytes it announces (NUL stands alone), and the value they
are decoded to. -/
structure EncodedAs (c : Char) (lead : UInt8) (continued : List UInt8) : Prop where
  bytes : String.utf8EncodeChar c = lead :: continued
  length : utf8_codepoint_length lead = continued.length + 1 ∨
    utf8_codepoint_length lead = 0 ∧ continued = [] ∧ c.toNat = lead.toNat
  value : ∀ more, decode_utf8_codepoint (lead :: (continued ++ more)) 0 = c.toNat

/-- A codepoint of one byte is that byte. -/
theorem encodedAs_ascii (h : c.toNat < 0x80) : EncodedAs c (UInt8.ofNat c.toNat) [] := by
  have hlead : (UInt8.ofNat c.toNat).toNat = c.toNat := toNat_ofNat_byte (by omega)
  refine ⟨?_, ?_, fun more => ?_⟩
  · exact if_pos (show c.val.toNat ≤ 0x7F from Nat.le_of_lt_succ h)
  · rcases Nat.eq_zero_or_pos c.toNat with hzero | hpos
    · refine .inr ⟨?_, rfl, hlead.symm⟩
      rw [hzero]
      rfl
    · exact .inl ((utf8_codepoint_length_lead _).1 (by omega) (by omega))
  · simp only [decode_utf8_codepoint, byteAt, List.getD_cons_zero, hlead]
    exact if_pos h

theorem exists_encodedAs (c : Char) : ∃ lead continued, EncodedAs c lead continued := by
  have hbound : c.val.toNat < 0x110000 := by
    rcases c.valid with h | h
    · exact Nat.lt_trans h (by decide)
    · exact h.2
  have hlead : ∀ v < 256, (UInt8.ofNat v).toNat = v := fun v hv => toNat_ofNat_byte hv
  by_cases h1 : c.val.toNat ≤ 0x7F
  · exact ⟨_, _, encodedAs_ascii (Nat.lt_succ_of_le h1)⟩
  by_cases h2 : c.val.toNat ≤ 0x7FF
  · refine ⟨_, _, (if_neg h1).trans (if_pos h2), .inl ?_, fun more => ?_⟩
    · exact (utf8_codepoint_length_lead _).2.1 (by rw [hlead] <;> omega) (by rw [hlead] <;> omega)
    · exact (decode_two more (by omega) (by omega)).trans (by rw [Char.toNat]; omega)
  by_cases h3 : c.val.toNat ≤ 0xFFFF
  · refine ⟨_, _, (if_neg h1).trans ((if_neg h2).trans (if_pos h3)), .inl ?_, fun more => ?_⟩
    · exact (utf8_codepoint_length_lead _).2.2.1 (by rw [hlead] <;> omega)
        (by rw [hlead] <;> omega)
    · exact (decode_three more (by omega) (by omega) (by omega)).trans
        (by rw [Char.toNat]; omega)
  · refine ⟨_, _, (if_neg h1).trans ((if_neg h2).trans (if_neg h3)), .inl ?_, fun more => ?_⟩
    · exact (utf8_codepoint_length_lead _).2.2.2 (by rw [hlead] <;> omega)
        (by rw [hlead] <;> omega)
    · exact (decode_four more (by omega) (by omega) (by omega) (by omega)).trans
        (by rw [Char.toNat]; omega)

/-- The bytes of a codepoint are read as that codepoint. -/
theorem decodeFrom_encoded (c : Char) (more : List UInt8) (index fuel : ℕ) :
    decodeFrom (String.utf8EncodeChar c ++ more) index (fuel + 1) =
      (c.toNat, index) ::
        decodeFrom more (index + (String.utf8EncodeChar c).length) fuel := by
  obtain ⟨lead, continued, hbytes, hlength, hvalue⟩ := exists_encodedAs c
  rw [hbytes, List.cons_append, decodeFrom]
  rcases hlength with hlength | ⟨hzero, rfl, hvalue'⟩
  · have hguard : (utf8_codepoint_length lead == 0 ||
        decide ((lead :: (continued ++ more)).length < utf8_codepoint_length lead)) = false := by
      rw [hlength, List.length_cons, List.length_append]
      simp
    simp only [hguard, Bool.false_eq_true, if_false]
    rw [hvalue, hlength, List.drop_succ_cons, List.drop_left, List.length_cons]
  · rw [hvalue']
    simp only [hzero, beq_self_eq_true, Bool.true_or, if_true, List.nil_append,
      List.length_singleton]

/-- The codepoints of an encoded text. -/
theorem codepoints_encoded (text : List Char) :
    (decode_text (text.flatMap String.utf8EncodeChar)).codepoints = text.map Char.toNat := by
  have hrun : ∀ (text : List Char) (index fuel : ℕ),
      (text.flatMap String.utf8EncodeChar).length ≤ fuel →
      (decodeFrom (text.flatMap String.utf8EncodeChar) index fuel).map (·.1)
        = text.map Char.toNat := by
    intro text
    induction text with
    | nil =>
      intro index fuel _
      rw [List.flatMap_nil, decodeFrom]
      rfl
    | cons c text ih =>
      intro index fuel hfuel
      obtain ⟨lead, continued, hbytes, -, -⟩ := exists_encodedAs c
      rw [List.flatMap_cons, List.length_append, hbytes, List.length_cons] at hfuel
      obtain ⟨fuel, rfl⟩ : ∃ n, fuel = n + 1 := ⟨fuel - 1, by omega⟩
      rw [List.flatMap_cons, decodeFrom_encoded, List.map_cons, List.map_cons, ih _ _ (by omega)]
  exact hrun text 0 _ (Nat.le_refl _)

/-- The first codepoint of a text that begins with its bytes. -/
theorem codepoints_head (c : Char) (more : List UInt8) :
    ∃ codepoints, (decode_text (String.utf8EncodeChar c ++ more)).codepoints
      = c.toNat :: codepoints := by
  obtain ⟨lead, continued, hbytes, -, -⟩ := exists_encodedAs c
  obtain ⟨fuel, hfuel⟩ : ∃ n, (String.utf8EncodeChar c ++ more).length = n + 1 :=
    ⟨(continued ++ more).length, by rw [hbytes]; rfl⟩
  refine ⟨(decodeFrom more (0 + (String.utf8EncodeChar c).length) fuel).map (·.1), ?_⟩
  simp only [decode_text, hfuel, decodeFrom_encoded, List.map_cons]

end Encoded

namespace TerminalRecovery

/-! ### Counting codepoints -/

theorem codepointCount_eq (text : List UInt8) (index fuel : ℕ) :
    codepointCount text fuel = (decodeFrom text index fuel).length := by
  induction fuel generalizing text index with
  | zero => cases text <;> rfl
  | succ fuel ih =>
    rcases text with _ | ⟨c, cs⟩
    · rfl
    rw [codepointCount, decodeFrom]
    split
    · rw [List.length_cons, ih cs (index + 1)]
    · rw [List.length_cons, ih _ (index + utf8_codepoint_length c)]

theorem utf8_codepoint_count_eq (text : List UInt8) :
    utf8_codepoint_count text = (decode_text text).codepoints.length := by
  rw [utf8_codepoint_count, codepointCount_eq text 0, decode_text, List.length_map]

/-- The bytes of a literal. -/
def encoded (literal : List Char) : List UInt8 := literal.flatMap String.utf8EncodeChar

/-- A literal of at most two codepoints has a short shape. -/
theorem canonicalTextLength_le {literal : List Char} (h : literal.length ≤ 2) :
    (make_terminal_shape_from_literal (encoded literal)).canonicalTextLength ≤ 2 := by
  rw [make_terminal_shape_from_literal]
  split
  · exact Nat.zero_le 2
  · show utf8_codepoint_count (encoded literal) ≤ 2
    rw [utf8_codepoint_count_eq, encoded, codepoints_encoded, List.length_map]
    exact h

/-! ### What the gate lets through -/

section Admitted

variable {literal input : List UInt8} {caseSensitive : Bool} {candidate : LiteralFuzzyCandidate}
  {shape : TerminalShape} {facts : TerminalRecoveryFacts}
  {cursorStartsStructuredVisibleSource : Bool}

theorem isCandidate_of_mem
    (h : candidate ∈ find_literal_fuzzy_candidates_view literal input caseSensitive) :
    IsCandidate literal input caseSensitive candidate := by
  rw [find_literal_fuzzy_candidates_view] at h
  split at h
  · exact absurd h List.not_mem_nil
  split at h
  · rw [compute_pruned_literal_fuzzy_candidates, mem_prune_dominated_candidates,
      mem_collectCandidates] at h
    exact h.1
  · exact absurd h List.not_mem_nil

/-- A deletion alone ranks above the limit of a short literal. -/
theorem rank_of_deletion {count : ℕ} (h : count ≤ 2) :
    5 < (make_fuzzy_recovery_cost count kDeletionCost).primaryRankCost := by
  obtain rfl | rfl | rfl : count = 0 ∨ count = 1 ∨ count = 2 := by omega
  · decide
  · decide
  · decide

/-- **What passes the gate of a short literal is one insertion or one exchange.** -/
theorem admitted_counts (hcandidate : IsCandidate literal input caseSensitive candidate)
    (hcount : (decode_text literal).codepoints.length ≤ 2)
    (hshort : shape.canonicalTextLength ≤ 2)
    (h : allows_literal_fuzzy_candidate candidate shape facts cursorStartsStructuredVisibleSource
      = true) :
    candidate.distance = 1 ∧ candidate.deletionCount = 0 ∧ candidate.substitutionCount = 0 := by
  obtain ⟨lane, consumed, -, hle, hlane⟩ := hcandidate
  have hc := consistent_of_laneCandidate hle hlane
  rw [allows_literal_fuzzy_candidate, if_pos hshort] at h
  split at h
  · exact (Bool.false_ne_true h).elim
  next hgate =>
    simp only [Bool.and_eq_true, beq_iff_eq] at h
    rw [Bool.or_eq_true, not_or, decide_eq_true_eq, Nat.not_lt] at hgate
    have hlimit : candidate.cost.primaryRankCost ≤ 5 := hgate.2.trans (Nat.min_le_left _ _)
    refine ⟨h.1.1, Nat.eq_zero_of_not_pos fun hpos => ?_, h.2⟩
    -- the only operation is a deletion
    have hsum := hc.distance
    have hweight : candidate.rawWeightedCost = kDeletionCost := by
      have hw := hc.weight
      obtain ⟨hi, hd, hs, ht⟩ : candidate.insertionCount = 0 ∧ candidate.deletionCount = 1 ∧
          candidate.substitutionCount = 0 ∧ candidate.transpositionCount = 0 := by omega
      rw [hi, hd, hs, ht] at hw
      omega
    have hrank := rank_of_deletion hcount
    rw [← hweight, ← hc.cost] at hrank
    omega

/-- Then the first codepoint of the window is one of the literal's. -/
theorem exists_equal_head (hcandidate : IsCandidate literal input caseSensitive candidate)
    (hone : candidate.distance = 1) (hdelete : candidate.deletionCount = 0)
    (hsubstitute : candidate.substitutionCount = 0) {i : ℕ} {rest : List ℕ}
    (hinput : (decode_text input).codepoints = i :: rest) :
    ∃ l ∈ (decode_text literal).codepoints, equal_decoded_codepoint caseSensitive l i = true := by
  obtain ⟨lane, consumed, hpos, hle, hlane⟩ := hcandidate
  obtain ⟨cell, s, -, -, hs, -, rfl⟩ := laneCandidate_eq hle hlane
  simp only [chargeTrailing] at hdelete hsubstitute
  obtain ⟨n, rfl⟩ : ∃ n, consumed = n + 1 := ⟨consumed - 1, by omega⟩
  rw [hinput, List.take_succ_cons] at hs
  exact hs.exists_same (List.count_eq_zero.mp (by omega)) (List.count_eq_zero.mp (by omega)) i
    List.mem_cons_self

end Admitted

/-! ### Codepoints and their first bytes -/

section FirstByte

variable {c d : Char} {lead lead' : UInt8} {continued continued' : List UInt8}
  {caseSensitive : Bool}

/-- Letters that agree up to case agree when the bit is set. -/
theorem fold_tolower (b : UInt8) : tolower b ||| 0x20 = b ||| 0x20 := by
  revert b
  apply byte_cases
  decide +kernel

theorem tolower_lt (b : UInt8) : b.toNat < 0x80 → (tolower b).toNat < 0x80 := by
  revert b
  apply byte_cases
  decide +kernel

/-- A codepoint below 0x80 is folded as the byte it is. -/
theorem normalize_ascii (h : c.toNat < 0x80) :
    normalize_codepoint caseSensitive c.toNat =
      (foldByte caseSensitive (UInt8.ofNat c.toNat)).toNat := by
  rw [normalize_codepoint, foldByte]
  cases caseSensitive with
  | true =>
    show c.toNat = _
    exact (toNat_ofNat_byte (by omega)).symm
  | false => simp [Nat.not_le.mpr h]

theorem normalize_wide (h : ¬ c.toNat < 0x80) :
    normalize_codepoint caseSensitive c.toNat = c.toNat := by
  rw [normalize_codepoint, if_pos]
  simp [Nat.not_lt.mp h]

theorem normalize_ascii_lt (h : c.toNat < 0x80) :
    normalize_codepoint caseSensitive c.toNat < 0x80 := by
  have hbyte : (UInt8.ofNat c.toNat).toNat = c.toNat := toNat_ofNat_byte (by omega)
  rw [normalize_ascii h, foldByte]
  split
  · omega
  · exact tolower_lt _ (by omega)

/-- **Codepoints that the matcher takes for equal begin with bytes the filter takes for
equal.** -/
theorem fold_lead_eq (hc : EncodedAs c lead continued) (hd : EncodedAs d lead' continued')
    (h : equal_decoded_codepoint caseSensitive c.toNat d.toNat = true) :
    fold caseSensitive lead = fold caseSensitive lead' := by
  rw [equal_decoded_codepoint, beq_iff_eq] at h
  by_cases hascii : c.toNat < 0x80
  · by_cases hascii' : d.toNat < 0x80
    · obtain ⟨rfl, -⟩ := List.cons.inj (hc.bytes.symm.trans (encodedAs_ascii hascii).bytes)
      obtain ⟨rfl, -⟩ := List.cons.inj (hd.bytes.symm.trans (encodedAs_ascii hascii').bytes)
      rw [normalize_ascii hascii, normalize_ascii hascii', UInt8.toNat_inj] at h
      cases caseSensitive with
      | true => rw [show UInt8.ofNat c.toNat = UInt8.ofNat d.toNat from h]
      | false =>
        have hbit : ∀ v < 0x80, fold false (UInt8.ofNat v) = UInt8.ofNat v ||| 0x20 := by
          intro v hv
          refine if_neg ?_
          have hbyte := toNat_ofNat_byte (show v < 256 by omega)
          simp only [Bool.false_or, decide_eq_true_eq, UInt8.le_iff_toNat_le, hbyte]
          exact Nat.not_le.mpr hv
        rw [hbit _ hascii, hbit _ hascii', ← fold_tolower,
          show tolower (UInt8.ofNat c.toNat) = tolower (UInt8.ofNat d.toNat) from h,
          fold_tolower]
    · have hlt := @normalize_ascii_lt _ caseSensitive hascii
      rw [h, normalize_wide hascii'] at hlt
      exact absurd hlt hascii'
  · have hsame : c.toNat = d.toNat := by
      rw [normalize_wide hascii] at h
      by_cases hascii' : d.toNat < 0x80
      · have hlt := @normalize_ascii_lt _ caseSensitive hascii'
        omega
      · rw [h, normalize_wide hascii']
    obtain rfl : c = d := Char.ext (UInt32.toNat_inj.mp hsame)
    obtain ⟨rfl, -⟩ := List.cons.inj (hc.bytes.symm.trans hd.bytes)
    rfl

end FirstByte

/-! ### The filter is neutral -/

/-- The window is empty or begins with a whole UTF-8 sequence. -/
def BeginsWhole (window : List UInt8) : Prop :=
  window = [] ∨ ∃ first more, window = String.utf8EncodeChar first ++ more

section Neutral

variable {literal : List Char} {window : List UInt8} {caseSensitive : Bool}
  {candidate : LiteralFuzzyCandidate} {facts : TerminalRecoveryFacts}
  {cursorStartsStructuredVisibleSource : Bool}

/-- A first byte of the literal at the front of the window is seen. -/
theorem possible_of_fold_eq {lead lead' : UInt8} {value continued : List UInt8}
    (hmem : lead ∈ value) (h : fold caseSensitive lead = fold caseSensitive lead') :
    short_literal_fuzzy_candidate_possible value (lead' :: continued) caseSensitive = true := by
  obtain ⟨b, value, rfl⟩ := List.exists_cons_of_ne_nil (List.ne_nil_of_mem hmem)
  simp only [short_literal_fuzzy_candidate_possible, List.isEmpty_cons, Bool.or_self,
    Bool.false_eq_true, if_false, List.length_cons, Nat.succ_min_succ, List.take_succ_cons]
  rw [List.any_cons, Bool.or_eq_true]
  exact .inl (List.any_eq_true.mpr ⟨lead, hmem, beq_iff_eq.mpr h.symm⟩)

theorem possible_of_admitted (hshort : literal.length ≤ 2) (hwindow : BeginsWhole window)
    (hmem : candidate ∈ find_literal_fuzzy_candidates_view (encoded literal) window caseSensitive)
    (hallows : allows_literal_fuzzy_candidate candidate
      (make_terminal_shape_from_literal (encoded literal)) facts
      cursorStartsStructuredVisibleSource = true) :
    short_literal_fuzzy_candidate_possible (encoded literal) window caseSensitive = true := by
  have hcandidate := isCandidate_of_mem hmem
  have hcodepoints : (decode_text (encoded literal)).codepoints = literal.map Char.toNat :=
    codepoints_encoded literal
  obtain ⟨hone, hdelete, hsubstitute⟩ := admitted_counts hcandidate
    (by rw [hcodepoints, List.length_map]; exact hshort) (canonicalTextLength_le hshort) hallows
  rcases hwindow with rfl | ⟨first, more, rfl⟩
  · obtain ⟨lane, consumed, hpos, hle, -⟩ := hcandidate
    exact absurd (hpos.trans hle) (by decide)
  obtain ⟨rest, hrest⟩ := codepoints_head first more
  obtain ⟨l, hl, hequal⟩ := exists_equal_head hcandidate hone hdelete hsubstitute hrest
  rw [hcodepoints] at hl
  obtain ⟨c, hc, rfl⟩ := List.mem_map.mp hl
  obtain ⟨lead, continued, hlead⟩ := exists_encodedAs c
  obtain ⟨lead', continued', hlead'⟩ := exists_encodedAs first
  have hlead_mem : lead ∈ encoded literal :=
    List.mem_flatMap.mpr ⟨c, hc, by rw [hlead.bytes]; exact List.mem_cons_self⟩
  rw [hlead'.bytes, List.cons_append]
  exact possible_of_fold_eq hlead_mem (fold_lead_eq hlead hlead' hequal)

end Neutral

/-- **The filter for short literals changes nothing.**  For a literal of at most two
codepoints and a window that is empty or begins with a whole UTF-8 sequence, the filter is
passed whenever a candidate the matcher offers is let through, and the same candidates are
collected with it and without it. -/
theorem short_literal_filter_neutral (literal : List Char) (hshort : literal.length ≤ 2)
    (caseSensitive : Bool) (window : List UInt8) (hwindow : BeginsWhole window)
    (facts : TerminalRecoveryFacts) (cursorStartsStructuredVisibleSource : Bool) :
    (∀ candidate ∈ find_literal_fuzzy_candidates_view (encoded literal) window caseSensitive,
      0 < candidate.consumed →
      allows_literal_fuzzy_candidate candidate (make_terminal_shape_from_literal (encoded literal))
        facts cursorStartsStructuredVisibleSource = true →
      short_literal_fuzzy_candidate_possible (encoded literal) window caseSensitive = true) ∧
    ∀ text skip_without_builder cursorStart limit,
      literal_fuzzy_input_view text skip_without_builder cursorStart limit
        (make_terminal_shape_from_literal (encoded literal)) = window →
      collect_literal_replace_candidates text skip_without_builder cursorStart limit
          (encoded literal) caseSensitive (make_terminal_shape_from_literal (encoded literal)) facts
          cursorStartsStructuredVisibleSource =
        collectWithoutFilter text skip_without_builder cursorStart limit (encoded literal)
          caseSensitive (make_terminal_shape_from_literal (encoded literal)) facts
          cursorStartsStructuredVisibleSource := by
  refine ⟨fun candidate hmem _ hallows => possible_of_admitted hshort hwindow hmem hallows, ?_⟩
  rintro text skip_without_builder cursorStart limit rfl
  rw [collect_literal_replace_candidates, collectWithoutFilter]
  split
  · rfl
  simp only
  split
  next hstopped =>
    simp only [Bool.and_eq_true, Bool.not_eq_true'] at hstopped
    symm
    apply List.filter_eq_nil_iff.mpr
    intro candidate hmem hallows
    have hpossible := possible_of_admitted hshort hwindow hmem hallows
    exact Bool.false_ne_true (hstopped.2.symm.trans hpossible)
  · rfl

/-- The literal "=>" where the input has only ">". -/
theorem short_literal_filter_neutral_arrow :
    short_literal_fuzzy_candidate_possible (encoded ['=', '>']) [62] true = true := by
  have hallowed : ∃ candidate ∈ find_literal_fuzzy_candidates_view (encoded ['=', '>']) [62] true,
      0 < candidate.consumed ∧ allows_literal_fuzzy_candidate candidate
        (make_terminal_shape_from_literal (encoded ['=', '>'])) {} false = true := by
    decide +kernel
  obtain ⟨candidate, hmem, hpos, hallows⟩ := hallowed
  exact (short_literal_filter_neutral ['=', '>'] (by decide) true [62]
    (.inr ⟨'>', [], by decide⟩) {} false).1 candidate hmem hpos hallows

/-- The literal "éa" where the input ends with the first byte of a longer sequence: the byte
E9 is read as the codepoint of "é", and the filter looks for C3, A9 and 61. -/
theorem truncated_letter_missed :
    (∃ candidate ∈ find_literal_fuzzy_candidates_view (encoded ['é', 'a']) [0xE9] true,
      0 < candidate.consumed ∧ allows_literal_fuzzy_candidate candidate
        (make_terminal_shape_from_literal (encoded ['é', 'a'])) {} false = true) ∧
    short_literal_fuzzy_candidate_possible (encoded ['é', 'a']) [0xE9] true = false := by
  decide +kernel

end TerminalRecovery

end Pegium
