/-
Pegium/Workspace/TextPositions.lean

Offsets and positions are converted into each other.

The walk that counts the code units before an offset and the walk that looks for the
offset of a number of code units take the same steps, those of the decoder `utf16`; so
they are inverse on the boundaries of a line (`Decoder.reach_weigh`).  The first walk is
only shown the bytes before the offset, which changes nothing at a boundary.

The beginnings of lines found chunk by chunk are all of them (`ensureLineIndex_eq`), and
the line found in the window of a chunk is the number of newlines before the offset
(`positionAt_eq`).

Main result: `converts_iff`.  The only texts that fail are those of 2^32 - 1 newlines and
more: then the number of lines does not fit, and every offset of the first chunk is put
on the last line.
-/
import Mathlib.Data.Nat.Notation
import Pegium.General.Decoder
import Pegium.Workspace.TextDocument

namespace Pegium

variable {text : List UInt8}

/-! ### The two walks -/

theorem codePointOf_take {k length : ℕ} (hlength : length = 2 ∨ length = 3 ∨ length = 4)
    (h : length ≤ k) : codePointOf length (text.take k) = codePointOf length text := by
  have hbyte : ∀ i, i < length → byteAt (text.take k) i = byteAt text i :=
    fun i hi => byteAt_take (Nat.lt_of_lt_of_le hi h)
  unfold codePointOf
  rcases hlength with rfl | rfl | rfl
  · simp only [hbyte 0 (by decide), hbyte 1 (by decide)]
  · simp only [hbyte 0 (by decide), hbyte 1 (by decide), hbyte 2 (by decide)]
  · simp only [hbyte 0 (by decide), hbyte 1 (by decide), hbyte 2 (by decide),
      hbyte 3 (by decide)]

theorem expectedLength_cases {first : UInt8} (h : expectedLength first ≠ 1) :
    expectedLength first = 2 ∨ expectedLength first = 3 ∨ expectedLength first = 4 := by
  unfold expectedLength at *
  split_ifs at * with h1 h2 h3
  · exact .inl rfl
  · exact .inr (.inl rfl)
  · exact .inr (.inr rfl)
  · exact absurd rfl h

/-- What is decoded does not depend on the bytes after it. -/
theorem decodeOne_take {k : ℕ} (hk : 1 ≤ k) (h : (decodeOneUtf8ToUtf16Units text).1 ≤ k) :
    decodeOneUtf8ToUtf16Units (text.take k) = decodeOneUtf8ToUtf16Units text := by
  have hfirst : byteAt (text.take k) 0 = byteAt text 0 := byteAt_take hk
  unfold decodeOneUtf8ToUtf16Units at *
  dsimp only at *
  rw [hfirst]
  by_cases h1 : byteAt text 0 < 0x80
  · rw [if_pos h1, if_pos h1]
  rw [if_neg h1] at *
  rw [if_neg h1]
  generalize hlength : expectedLength (byteAt text 0) = length at *
  by_cases h2 : length = 1 ∨ text.length < length
  · rw [if_pos h2, if_pos]
    refine h2.imp_right fun hlt => ?_
    rw [List.length_take]
    omega
  rw [if_neg h2] at *
  obtain ⟨hne, hle⟩ := not_or.mp h2
  by_cases h3 : ((text.take length).tail.any fun nextByte => nextByte &&& 0xC0 != 0x80) = true
  · rw [if_pos h3]
    by_cases h4 : k < length
    · rw [if_pos]
      refine .inr ?_
      rw [List.length_take]
      omega
    · rw [if_neg, if_pos]
      · rw [List.take_take, Nat.min_eq_left (by omega)]
        exact h3
      · rintro (h5 | h5)
        · exact hne h5
        · rw [List.length_take] at h5
          omega
  · rw [if_neg h3] at h
    have hcases : length = 2 ∨ length = 3 ∨ length = 4 :=
      hlength ▸ expectedLength_cases (hlength ▸ hne)
    rw [if_neg h3, if_neg, if_neg, codePointOf_take hcases h]
    · rw [List.take_take, Nat.min_eq_left h]
      exact h3
    · rintro (h5 | h5)
      · exact hne h5
      · rw [List.length_take] at h5
        omega

/-- The decoder of UTF-8 into UTF-16 code units. -/
def utf16 : Decoder UInt8 where
  decode := decodeOneUtf8ToUtf16Units
  advance_pos _ _ := (decodeOne_bounds _).1
  advance_le _ _ := (decodeOne_bounds _).2.2 (List.cons_ne_nil _ _)
  weight_pos _ _ := (decodeOne_bounds _).2.1
  take_eq _ _ _ h := decodeOne_take (Nat.le_trans (decodeOne_bounds _).1 h) h

theorem decodeOne_ascii {byte : UInt8} (h : byte < 0x80) (rest : List UInt8) :
    decodeOneUtf8ToUtf16Units (byte :: rest) = (1, 1) :=
  if_pos h

/-- The short way over ASCII is a step of the decoder. -/
theorem utf16_column_eq (bytes : List UInt8) : utf16_column bytes = utf16.weigh bytes := by
  induction bytes using utf16_column.induct with
  | case1 => rw [utf16_column, Decoder.weigh_nil]
  | case2 byte rest h ih =>
    rw [utf16_column, if_pos h, Decoder.weigh_cons]
    show _ = (decodeOneUtf8ToUtf16Units (byte :: rest)).2 +
      utf16.weigh ((byte :: rest).drop (decodeOneUtf8ToUtf16Units (byte :: rest)).1)
    rw [decodeOne_ascii h, ih]
    rfl
  | case3 byte rest h decoded ih =>
    rw [utf16_column, if_neg h, Decoder.weigh_cons]
    exact congrArg (decoded.2 + ·) ih

theorem skipUnits_eq (bytes : List UInt8) (n : ℕ) : skipUnits bytes n = utf16.reach bytes n := by
  induction bytes, n using skipUnits.induct with
  | case1 n => rw [skipUnits, Decoder.reach]
  | case2 => rw [skipUnits, Decoder.reach]
  | case3 byte rest n h ih =>
    rw [skipUnits, if_pos h, Decoder.reach]
    show _ = (decodeOneUtf8ToUtf16Units (byte :: rest)).1 +
      utf16.reach ((byte :: rest).drop (decodeOneUtf8ToUtf16Units (byte :: rest)).1)
        (n + 1 - (decodeOneUtf8ToUtf16Units (byte :: rest)).2)
    rw [decodeOne_ascii h, ih]
    rfl
  | case4 byte rest n h decoded ih =>
    rw [skipUnits, if_neg h, Decoder.reach]
    exact congrArg (decoded.1 + ·) ih

/-! ### Lines -/

/-- The newlines before an offset. -/
def newlineOffsets (text : List UInt8) (k : ℕ) : List ℕ :=
  (List.range k).filter fun i => byteAt text i == 10

def newlinesBefore (text : List UInt8) (k : ℕ) : ℕ := (newlineOffsets text k).length

/-- The lines that begin up to an offset. -/
def lineStarts (text : List UInt8) (k : ℕ) : List ℕ := 0 :: (newlineOffsets text k).map (· + 1)

/-- A line: where it starts, and where it stops, at its newline or at the end of the text. -/
structure LineSpan (text : List UInt8) (line start stop : ℕ) : Prop where
  start_le : start ≤ stop
  stop_le : stop ≤ textSize text
  line_eq : newlinesBefore text start = line
  begins : start = 0 ∨ byteAt text (start - 1) = 10
  inside : ∀ i, start ≤ i → i < stop → byteAt text i ≠ 10
  ends : stop = textSize text ∨ byteAt text stop = 10

variable {k k' line : ℕ}

theorem newlineOffsets_succ (text : List UInt8) (k : ℕ) :
    newlineOffsets text (k + 1)
      = newlineOffsets text k ++ if byteAt text k == 10 then [k] else [] := by
  rw [newlineOffsets, List.range_succ, List.filter_append, List.filter_singleton,
    cond_eq_ite]
  rfl

theorem newlinesBefore_succ (text : List UInt8) (k : ℕ) :
    newlinesBefore text (k + 1)
      = newlinesBefore text k + if byteAt text k == 10 then 1 else 0 := by
  rw [newlinesBefore, newlineOffsets_succ, List.length_append]
  split_ifs <;> rfl

theorem newlineOffsets_append (text : List UInt8) (k m : ℕ) :
    newlineOffsets text (k + m)
      = newlineOffsets text k ++ (List.range' k m).filter fun i => byteAt text i == 10 := by
  unfold newlineOffsets
  rw [← List.filter_append, List.range_eq_range', List.range_eq_range',
    ← List.range'_append_1, Nat.zero_add]

theorem newlinesBefore_zero (text : List UInt8) : newlinesBefore text 0 = 0 := rfl

theorem newlinesBefore_le (text : List UInt8) (k : ℕ) : newlinesBefore text k ≤ k := by
  induction k with
  | zero => exact Nat.le_refl _
  | succ k ih =>
    rw [newlinesBefore_succ]
    split_ifs <;> omega

theorem newlinesBefore_mono (text : List UInt8) (h : k ≤ k') :
    newlinesBefore text k ≤ newlinesBefore text k' := by
  obtain ⟨m, rfl⟩ := Nat.exists_eq_add_of_le h
  rw [newlinesBefore, newlinesBefore, newlineOffsets_append, List.length_append]
  exact Nat.le_add_right _ _

theorem length_lineStarts (text : List UInt8) (k : ℕ) :
    (lineStarts text k).length = newlinesBefore text k + 1 := by
  rw [lineStarts, List.length_cons, List.length_map]
  rfl

theorem lineStarts_zero (text : List UInt8) (k : ℕ) : (lineStarts text k).getD 0 0 = 0 := rfl

theorem mem_newlineOffsets {i : ℕ} : i ∈ newlineOffsets text k ↔ i < k ∧ byteAt text i = 10 := by
  rw [newlineOffsets, List.mem_filter, List.mem_range, beq_iff_eq]

/-- The newlines after an offset come after those before it. -/
theorem lineStarts_append (text : List UInt8) (h : k ≤ k') :
    ∃ later : List ℕ, lineStarts text k' = lineStarts text k ++ later ∧
      ∀ start ∈ later, k < start := by
  obtain ⟨m, rfl⟩ := Nat.exists_eq_add_of_le h
  refine ⟨((List.range' k m).filter fun i => byteAt text i == 10).map (· + 1), ?_, ?_⟩
  · rw [lineStarts, newlineOffsets_append, List.map_append]
    rfl
  · intro start hstart
    obtain ⟨i, hi, rfl⟩ := List.mem_map.mp hstart
    have hrange := List.mem_range'_1.mp (List.mem_filter.mp hi).1
    omega

theorem le_of_mem_lineStarts {start : ℕ} (h : start ∈ lineStarts text k) : start ≤ k := by
  rcases List.mem_cons.mp h with rfl | h
  · exact Nat.zero_le _
  · obtain ⟨i, hi, rfl⟩ := List.mem_map.mp h
    exact (mem_newlineOffsets.mp hi).1

/-- The beginning of the line of an offset. -/
theorem line_start_spec (text : List UInt8) (k : ℕ) :
    ∃ start, (lineStarts text k).getD (newlinesBefore text k) 0 = start ∧ start ≤ k ∧
      newlinesBefore text start = newlinesBefore text k ∧
      (start = 0 ∨ byteAt text (start - 1) = 10) ∧
      ∀ i, start ≤ i → i < k → byteAt text i ≠ 10 := by
  induction k with
  | zero =>
    exact ⟨0, rfl, Nat.le_refl _, rfl, .inl rfl, fun i _ hi => absurd hi (Nat.not_lt_zero i)⟩
  | succ k ih =>
    obtain ⟨start, hget, hle, hline, hbegins, hinside⟩ := ih
    have hlist : lineStarts text (k + 1)
        = lineStarts text k ++ if byteAt text k == 10 then [k + 1] else [] := by
      rw [lineStarts, newlineOffsets_succ, List.map_append]
      split_ifs <;> rfl
    by_cases hnewline : byteAt text k = 10
    · have hbefore : newlinesBefore text (k + 1) = newlinesBefore text k + 1 := by
        rw [newlinesBefore_succ, hnewline]
        rfl
      refine ⟨k + 1, ?_, Nat.le_refl _, rfl, .inr hnewline, fun i hi hi' => absurd hi' (by omega)⟩
      rw [hlist, hnewline, hbefore, ← length_lineStarts]
      show (lineStarts text k ++ [k + 1]).getD _ 0 = _
      rw [List.getD_eq_getElem?_getD, List.getElem?_concat_length]
      rfl
    · have hbeq : (byteAt text k == 10) = false := beq_eq_false_iff_ne.mpr hnewline
      have hbefore : newlinesBefore text (k + 1) = newlinesBefore text k := by
        rw [newlinesBefore_succ, hbeq]
        rfl
      refine ⟨start, ?_, Nat.le_succ_of_le hle, hline.trans hbefore.symm, hbegins, ?_⟩
      · rw [hlist, hbeq, hbefore, ← hget]
        show (lineStarts text k ++ []).getD _ 0 = _
        rw [List.append_nil]
      · intro i hi hi'
        rcases Nat.lt_succ_iff_lt_or_eq.mp hi' with hi' | rfl
        · exact hinside i hi hi'
        · exact hnewline

/-- The first newline from an offset on, if there is one. -/
theorem next_newline (text : List UInt8) (k m : ℕ) :
    ((List.range' k m).filter (fun i => byteAt text i == 10) = [] ∧
      ∀ i, k ≤ i → i < k + m → byteAt text i ≠ 10) ∨
    ∃ stop later, (List.range' k m).filter (fun i => byteAt text i == 10) = stop :: later ∧
      k ≤ stop ∧ stop < k + m ∧ byteAt text stop = 10 ∧
      ∀ i, k ≤ i → i < stop → byteAt text i ≠ 10 := by
  induction m generalizing k with
  | zero => exact .inl ⟨rfl, fun i hi hi' => absurd hi (by omega)⟩
  | succ m ih =>
    rw [List.range'_succ, List.filter_cons]
    by_cases hnewline : byteAt text k = 10
    · rw [if_pos (beq_iff_eq.mpr hnewline)]
      exact .inr ⟨k, _, rfl, Nat.le_refl _, by omega, hnewline,
        fun i hi hi' => absurd hi (by omega)⟩
    · rw [if_neg (fun h => hnewline (beq_iff_eq.mp h))]
      have hfirst : ∀ i, k ≤ i → i < k + 1 → byteAt text i ≠ 10 := by
        intro i hi hi'
        rw [show i = k by omega]
        exact hnewline
      rcases ih (k + 1) with ⟨hnil, hnone⟩ | ⟨stop, later, hcons, hle, hlt, hstop, hbetween⟩
      · refine .inl ⟨hnil, fun i hi hi' => ?_⟩
        rcases Nat.lt_or_ge i (k + 1) with hik | hik
        · exact hfirst i hi hik
        · exact hnone i hik (by omega)
      · refine .inr ⟨stop, later, hcons, by omega, by omega, hstop, fun i hi hi' => ?_⟩
        rcases Nat.lt_or_ge i (k + 1) with hik | hik
        · exact hfirst i hi hik
        · exact hbetween i hik hi'

/-! ### The line index -/

theorem scanChunk_eq (text : List UInt8) (k m : ℕ) :
    scanChunk text k (k + m) (lineStarts text k) = lineStarts text (k + m) := by
  unfold scanChunk
  rw [Nat.add_sub_cancel_left]
  induction m with
  | zero => rfl
  | succ m ih =>
    rw [List.range'_1_concat, List.foldl_append, ih, ← Nat.add_assoc, lineStarts, lineStarts,
      newlineOffsets_succ, List.map_append]
    show (if byteAt text (k + m) == 10 then _ else _) = _
    split_ifs with h
    · rfl
    · rw [List.map_nil, List.append_nil]

theorem foldl_indexChunk (text : List UInt8) (c : ℕ)
    (h : c ≤ chunkCount text) :
    (List.range c).foldl (indexChunk text) ([0], [])
      = (lineStarts text (min (c * lineIndexChunkSize) (textSize text)),
        (List.range c).map fun c =>
          newlinesBefore text (min (c * lineIndexChunkSize) (textSize text)) % uint32Size) := by
  induction c with
  | zero =>
    rw [Nat.zero_mul, Nat.zero_min]
    rfl
  | succ c ih =>
    -- A chunk that there is begins within the text.
    have hstart : c * lineIndexChunkSize < textSize text := by
      unfold chunkCount lineIndexChunkSize at *
      omega
    have hmin : min (c * lineIndexChunkSize) (textSize text) = c * lineIndexChunkSize :=
      Nat.min_eq_left (Nat.le_of_lt hstart)
    obtain ⟨m, hm⟩ : ∃ m, min (textSize text) (c * lineIndexChunkSize + lineIndexChunkSize)
        = c * lineIndexChunkSize + m :=
      Nat.exists_eq_add_of_le (Nat.le_min.mpr ⟨Nat.le_of_lt hstart, Nat.le_add_right _ _⟩)
    rw [List.range_succ, List.foldl_append, ih (Nat.le_of_succ_le h), List.map_append, hmin]
    show indexChunk text _ c = _
    unfold indexChunk
    dsimp only
    rw [hm, scanChunk_eq, ← hm, Nat.succ_mul, Nat.min_comm (textSize text), length_lineStarts,
      Nat.add_sub_cancel]
    simp only [List.map_cons, List.map_nil, hmin]

theorem textSize_lt (text : List UInt8) : textSize text < uint32Size :=
  Nat.lt_of_le_of_lt (Nat.min_le_right _ _) (by decide)

theorem newlinesBefore_lt (text : List UInt8) (h : k ≤ textSize text) :
    newlinesBefore text k < uint32Size :=
  Nat.lt_of_le_of_lt (newlinesBefore_le text k) (Nat.lt_of_le_of_lt h (textSize_lt text))

theorem le_ceil_mul (n : ℕ) {c : ℕ} (hc : 0 < c) : n ≤ (n + c - 1) / c * c := by
  have hdiv := Nat.div_add_mod (n + c - 1) c
  have hmod := Nat.mod_lt (n + c - 1) hc
  rw [Nat.mul_comm] at hdiv
  omega

/-- The chunks cover the text. -/
theorem le_chunks (text : List UInt8) :
    textSize text ≤ chunkCount text * lineIndexChunkSize :=
  le_ceil_mul (textSize text) (by decide)

/-- The index after the loop, whatever the loop gave. -/
theorem LineIndex.ofLoop_getD {n c : ℕ} {index : List ℕ × List ℕ} (hn : index.2.length = n)
    (h : c ≤ n) : (LineIndex.ofLoop n index).chunkLineLowerBound.getD c 0
      = if c < n then index.2.getD c 0 else (index.1.length - 1) % uint32Size := by
  show (index.2 ++ [(index.1.length - 1) % uint32Size]).getD c 0 = _
  rw [List.getD_eq_getElem?_getD, List.getD_eq_getElem?_getD]
  split_ifs with hc
  · rw [List.getElem?_append_left (hn ▸ hc)]
  · rw [show c = index.2.length by omega, List.getElem?_concat_length]
    rfl

theorem LineIndex.ofLoop_lineStart (n : ℕ) (index : List ℕ × List ℕ) :
    (LineIndex.ofLoop n index).lineStart = index.1 := rfl

theorem LineIndex.ofLoop_numChunks (n : ℕ) (index : List ℕ × List ℕ) :
    (LineIndex.ofLoop n index).numChunks = n := rfl

theorem ensureLineIndex_numChunks (text : List UInt8) :
    (ensureLineIndex text).numChunks = chunkCount text := by
  rw [ensureLineIndex, LineIndex.ofLoop_numChunks]

/-- **The lines found chunk by chunk are all of them.** -/
theorem ensureLineIndex_lineStart (text : List UInt8) :
    (ensureLineIndex text).lineStart = lineStarts text (textSize text) := by
  rw [ensureLineIndex, LineIndex.ofLoop_lineStart, foldl_indexChunk text _ (Nat.le_refl _),
    Nat.min_eq_right (le_chunks text)]

/-- **A chunk remembers the number of lines that begin before it.** -/
theorem ensureLineIndex_bound (text : List UInt8) {c : ℕ} (h : c ≤ chunkCount text) :
    (ensureLineIndex text).chunkLineLowerBound.getD c 0
      = newlinesBefore text (min (c * lineIndexChunkSize) (textSize text)) := by
  have hlt : newlinesBefore text (min (c * lineIndexChunkSize) (textSize text)) < uint32Size :=
    newlinesBefore_lt text (Nat.min_le_right _ _)
  have hcover := le_chunks text
  rw [ensureLineIndex, foldl_indexChunk text _ (Nat.le_refl _)]
  generalize chunkCount text = n at *
  rw [LineIndex.ofLoop_getD (by rw [List.length_map, List.length_range]) h]
  split_ifs with hc
  · rw [List.getD_eq_getElem?_getD, List.getElem?_map, List.getElem?_range hc]
    exact Nat.mod_eq_of_lt hlt
  · rw [length_lineStarts, Nat.add_sub_cancel, show n = c by omega]
    exact Nat.mod_eq_of_lt hlt

/-- The number of lines fits into an `uint32_t`. -/
def LinesFit (text : List UInt8) : Prop := newlinesBefore text (textSize text) + 1 < uint32Size

/-- **The line of an offset**, as the index has it. -/
theorem lineSpan_of_le (h : k ≤ textSize text) :
    LineSpan text (newlinesBefore text k)
        ((lineStarts text (textSize text)).getD (newlinesBefore text k) 0)
        (line_end_offset (lineStarts text (textSize text)) (textSize text)
          (newlinesBefore text k)) ∧
      (lineStarts text (textSize text)).getD (newlinesBefore text k) 0 ≤ k ∧
      k ≤ line_end_offset (lineStarts text (textSize text)) (textSize text)
        (newlinesBefore text k) := by
  obtain ⟨start, hget, hle, hline, hbegins, hinside⟩ := line_start_spec text k
  obtain ⟨m, hm⟩ := Nat.exists_eq_add_of_le h
  have hlist : lineStarts text (textSize text) = lineStarts text k ++
      ((List.range' k m).filter fun i => byteAt text i == 10).map (· + 1) := by
    rw [hm, lineStarts, newlineOffsets_append, List.map_append]
    rfl
  have hstart : (lineStarts text (textSize text)).getD (newlinesBefore text k) 0 = start := by
    rw [hlist, ← hget, List.getD_eq_getElem?_getD, List.getD_eq_getElem?_getD,
      List.getElem?_append_left (by rw [length_lineStarts]; exact Nat.lt_succ_self _)]
  rw [hstart]
  rcases Nat.lt_or_ge (newlinesBefore text k + 1) uint32Size with hlt | hge
  case inr =>
    -- The line after the last one has number 0, which begins 2^32 - 1 after the end of the text.
    have hk := newlinesBefore_le text k
    have hsize := textSize_lt text
    have hlast : newlinesBefore text k + 1 = uint32Size := by omega
    have hall : k = textSize text := by omega
    have hstop : line_end_offset (lineStarts text (textSize text)) (textSize text)
        (newlinesBefore text k) = textSize text := by
      have hsize' : textSize text = uint32Size - 1 := by omega
      unfold line_end_offset
      rw [hlast, Nat.mod_self, if_pos (by rw [length_lineStarts]; exact Nat.succ_pos _),
        lineStarts_zero, Nat.zero_add, hsize']
      exact Nat.mod_eq_of_lt (by decide)
    rw [hstop]
    refine ⟨⟨Nat.le_trans hle h, Nat.le_refl _, hline, hbegins, ?_, .inl rfl⟩, hle, h⟩
    rw [← hall]
    exact hinside
  have hsmall : (newlinesBefore text k + 1) % uint32Size = newlinesBefore text k + 1 :=
    Nat.mod_eq_of_lt hlt
  unfold line_end_offset
  rw [hsmall]
  rcases next_newline text k m with ⟨hnil, hnone⟩ | ⟨stop, later, hcons, hks, hlt', hstop, hbetween⟩
  · rw [hlist, hnil, List.map_nil, List.append_nil, length_lineStarts, if_neg (Nat.lt_irrefl _)]
    refine ⟨⟨Nat.le_trans hle h, Nat.le_refl _, hline, hbegins, ?_, .inl rfl⟩, hle, h⟩
    intro i hi hi'
    rcases Nat.lt_or_ge i k with hik | hik
    · exact hinside i hi hik
    · exact hnone i hik (hm ▸ hi')
  · rw [hlist, hcons, List.map_cons, List.length_append, length_lineStarts, List.length_cons,
      if_pos (by omega), ← length_lineStarts, List.getD_eq_getElem?_getD,
      List.getElem?_append_right (Nat.le_refl _), Nat.sub_self]
    have hstopsize : stop < textSize text := hm ▸ hlt'
    have hstopval : ((some (stop + 1)).getD 0 + uint32Size - 1) % uint32Size = stop := by
      show (stop + 1 + uint32Size - 1) % uint32Size = stop
      rw [Nat.add_right_comm, Nat.add_sub_cancel, Nat.add_mod_right,
        Nat.mod_eq_of_lt (Nat.lt_trans hstopsize (textSize_lt text))]
    rw [List.getElem?_cons_zero, hstopval]
    refine ⟨⟨by omega, Nat.le_of_lt hstopsize, hline, hbegins, ?_, .inr hstop⟩, hle, hks⟩
    intro i hi hi'
    rcases Nat.lt_or_ge i k with hik | hik
    · exact hinside i hi hik
    · exact hbetween i hik hi'

/-- A line is where it is. -/
theorem LineSpan.unique {start stop start' stop' : ℕ} (h : LineSpan text line start stop)
    (h' : LineSpan text line start' stop') : start = start' ∧ stop = stop' := by
  -- A line cannot begin within another of the same number: there is a newline before it.
  have hnot : ∀ {a b c d : ℕ}, LineSpan text line a b → LineSpan text line c d → ¬ a < c := by
    intro a b c d hab hcd hlt
    have hc : byteAt text (c - 1) = 10 := hcd.begins.resolve_left (by omega)
    have hcount : newlinesBefore text (c - 1 + 1) = newlinesBefore text (c - 1) + 1 := by
      rw [newlinesBefore_succ, hc]
      rfl
    have hmono : newlinesBefore text a ≤ newlinesBefore text (c - 1) :=
      newlinesBefore_mono text (by omega)
    rw [Nat.sub_add_cancel (by omega), hcd.line_eq] at hcount
    rw [hab.line_eq] at hmono
    omega
  have hstart : start = start' :=
    Nat.le_antisymm (Nat.not_lt.mp (hnot h' h)) (Nat.not_lt.mp (hnot h h'))
  subst hstart
  refine ⟨rfl, ?_⟩
  rcases Nat.lt_trichotomy stop stop' with hlt | heq | hlt
  · have hstop : byteAt text stop = 10 :=
      h.ends.resolve_left (fun heq => by have := h'.stop_le; omega)
    exact absurd hstop (h'.inside stop h.start_le hlt)
  · exact heq
  · have hstop : byteAt text stop' = 10 :=
      h'.ends.resolve_left (fun heq => by have := h.stop_le; omega)
    exact absurd hstop (h.inside stop' h'.start_le hlt)

/-- The offsets of a line are those before which its number of newlines stand. -/
theorem LineSpan.newlinesBefore_eq {start stop : ℕ} (h : LineSpan text line start stop)
    (hk : start ≤ k) (hk' : k ≤ stop) : newlinesBefore text k = line := by
  obtain ⟨m, rfl⟩ := Nat.exists_eq_add_of_le hk
  rw [← h.line_eq]
  clear hk
  induction m with
  | zero => rfl
  | succ m ih =>
    have hbeq : (byteAt text (start + m) == 10) = false :=
      beq_eq_false_iff_ne.mpr (h.inside _ (Nat.le_add_right _ _) (by omega))
    rw [← Nat.add_assoc, newlinesBefore_succ, hbeq, ih (by omega)]
    rfl

/-- A number of newlines that is not too large is reached. -/
theorem exists_newlinesBefore {size : ℕ} (hline : line ≤ newlinesBefore text size) :
    ∃ k ≤ size, newlinesBefore text k = line := by
  induction size with
  | zero => exact ⟨0, Nat.le_refl _, (Nat.le_zero.mp hline).symm⟩
  | succ size ih =>
    rcases Nat.lt_or_ge (newlinesBefore text size) line with hlt | hge
    · refine ⟨size + 1, Nat.le_refl _, Nat.le_antisymm ?_ hline⟩
      rw [newlinesBefore_succ]
      split_ifs <;> omega
    · obtain ⟨k, hk, hkline⟩ := ih hge
      exact ⟨k, Nat.le_succ_of_le hk, hkline⟩

theorem exists_lineSpan (hline : line ≤ newlinesBefore text (textSize text)) :
    ∃ start stop, LineSpan text line start stop := by
  obtain ⟨k, hk, hkline⟩ := exists_newlinesBefore hline
  exact ⟨_, _, hkline ▸ (lineSpan_of_le hk).1⟩

/-! ### Conversion -/

variable {start stop : ℕ}

theorem length_slice (h : start ≤ stop) (hstop : stop ≤ textSize text) :
    (slice text start stop).length = stop - start := by
  have hsize : textSize text ≤ text.length := Nat.min_le_left _ _
  rw [slice, List.length_take, List.length_drop]
  omega

theorem slice_take (text : List UInt8) (h : k ≤ stop) :
    slice text start k = (slice text start stop).take (k - start) := by
  rw [slice, slice, List.take_take, Nat.min_eq_left (Nat.sub_le_sub_right h _)]

/-- `offsetAt` walks over the bytes of the line. -/
theorem offsetAt_eq (h : LineSpan text line start stop) (character : ℕ) :
    offsetAt text ⟨line, character⟩ = start + utf16.reach (slice text start stop) character := by
  have hsize : start ≤ textSize text := Nat.le_trans h.start_le h.stop_le
  have hspan := (lineSpan_of_le hsize).1
  rw [h.line_eq] at hspan
  obtain ⟨hstart, hstop⟩ := hspan.unique h
  have hline : ¬ (lineStarts text (textSize text)).length ≤ line := by
    rw [length_lineStarts, ← h.line_eq]
    exact Nat.not_le.mpr (Nat.lt_succ_of_le (newlinesBefore_mono text hsize))
  have hreach := Decoder.reach_le (D := utf16) (slice text start stop) character
  rw [length_slice h.start_le h.stop_le] at hreach
  unfold offsetAt
  dsimp only
  rw [ensureLineIndex_lineStart, if_neg hline, hstart, hstop, skipUnits_eq]
  have := h.start_le
  omega

/-- No position leads out of its line. -/
theorem offsetAt_within (h : LineSpan text line start stop) (character : ℕ) :
    start ≤ offsetAt text ⟨line, character⟩ ∧ offsetAt text ⟨line, character⟩ ≤ stop := by
  have hreach := Decoder.reach_le (D := utf16) (slice text start stop) character
  rw [length_slice h.start_le h.stop_le] at hreach
  have hle := h.start_le
  rw [offsetAt_eq h]
  omega

theorem offsetAt_beyond {p : TextPosition} (h : newlinesBefore text (textSize text) < p.line) :
    offsetAt text p = textSize text := by
  unfold offsetAt
  dsimp only
  rw [ensureLineIndex_lineStart, length_lineStarts, if_pos (Nat.succ_le_of_lt h)]

theorem textSize_le (text : List UInt8) : textSize text ≤ text.length := Nat.min_le_left _ _

/-- Every position has an offset within the text. -/
theorem offsetAt_le_length (text : List UInt8) (p : TextPosition) :
    offsetAt text p ≤ text.length := by
  rcases Nat.lt_or_ge (newlinesBefore text (textSize text)) p.line with hlt | hge
  · rw [offsetAt_beyond hlt]
    exact textSize_le text
  · obtain ⟨start, stop, hspan⟩ := exists_lineSpan hge
    exact Nat.le_trans (offsetAt_within hspan p.character).2
      (Nat.le_trans hspan.stop_le (textSize_le text))

/-- On a line offsets are in the order of the columns. -/
theorem offsetAt_mono (text : List UInt8) (line : ℕ) {m n : ℕ} (h : m ≤ n) :
    offsetAt text ⟨line, m⟩ ≤ offsetAt text ⟨line, n⟩ := by
  unfold offsetAt
  dsimp only
  split
  · exact Nat.le_refl _
  · rw [skipUnits_eq, skipUnits_eq]
    have hreach := Decoder.reach_mono (D := utf16) (slice text
      ((ensureLineIndex text).lineStart.getD line 0)
      (line_end_offset (ensureLineIndex text).lineStart (textSize text) line)) h
    omega

theorem upper_bound_nil (value : ℕ) : upper_bound [] value = 0 := rfl

/-- The window of a chunk holds the beginning of the line. -/
theorem upper_bound_window {lo hi : ℕ} (hk : k ≤ textSize text) (hlo : lo ≤ newlinesBefore text k)
    (hhi : newlinesBefore text k + 1 ≤ hi) :
    lo + upper_bound (((lineStarts text (textSize text)).take hi).drop lo) k
      = newlinesBefore text k + 1 := by
  obtain ⟨later, hlist, hlater⟩ := lineStarts_append text hk
  have hlength := length_lineStarts text k
  have hwindow : ((lineStarts text (textSize text)).take hi).drop lo
      = (lineStarts text k).drop lo ++ later.take (hi - (lineStarts text k).length) := by
    rw [hlist, List.take_append, List.take_of_length_le (by omega),
      List.drop_append_of_le_length (by omega)]
  have hbefore : ∀ start ∈ (lineStarts text k).drop lo, decide (start ≤ k) = true :=
    fun start hstart => decide_eq_true (le_of_mem_lineStarts (List.mem_of_mem_drop hstart))
  have hafter : (later.take (hi - (lineStarts text k).length)).takeWhile (fun start => start ≤ k)
      = [] := by
    cases hfirst : later.take (hi - (lineStarts text k).length) with
    | nil => rfl
    | cons first rest =>
      have hmem : first ∈ later := List.mem_of_mem_take (hfirst ▸ List.mem_cons_self)
      have hlt : k < first := hlater first hmem
      exact List.takeWhile_cons_of_neg (by
        rw [decide_eq_true_eq]
        exact Nat.not_le.mpr hlt)
  unfold upper_bound
  rw [hwindow, List.takeWhile_append_of_pos hbefore, hafter, List.append_nil, List.length_drop]
  omega

/-- **`positionAt` finds the line and counts the code units before the offset.** -/
theorem positionAt_eq (hfit : LinesFit text) (h : LineSpan text line start stop) (hk : start ≤ k)
    (hk' : k ≤ stop) : positionAt text k = ⟨line, utf16.weigh (slice text start k)⟩ := by
  have hsize : k ≤ textSize text := Nat.le_trans hk' h.stop_le
  have hline : newlinesBefore text k = line := h.newlinesBefore_eq hk hk'
  have hspan := lineSpan_of_le hsize
  rw [hline] at hspan
  obtain ⟨hstart, hstop⟩ := hspan.1.unique h
  have hcover := le_chunks text
  unfold positionAt
  dsimp only
  rw [Nat.min_eq_left hsize, ensureLineIndex_numChunks]
  split_ifs with hchunks
  · -- No chunk, no text.
    have hzero : k = 0 := by
      rw [hchunks, Nat.zero_mul] at hcover
      omega
    subst hzero
    rw [← hline, slice, Nat.zero_sub, List.take_zero, Decoder.weigh_nil]
    rfl
  generalize hc : min (k / lineIndexChunkSize) (chunkCount text - 1) = c
  have hclt : c + 1 ≤ chunkCount text := by omega
  have hck : c * lineIndexChunkSize ≤ k := by
    refine Nat.le_trans (Nat.mul_le_mul_right _ ?_) (Nat.div_mul_le_self k lineIndexChunkSize)
    rw [← hc]
    exact Nat.min_le_left _ _
  have hkc : k ≤ (c + 1) * lineIndexChunkSize := by
    rcases Nat.le_total (k / lineIndexChunkSize) (chunkCount text - 1) with hle | hle
    · rw [Nat.min_eq_left hle] at hc
      rw [← hc]
      exact Nat.le_of_lt (Nat.lt_mul_of_div_lt (Nat.lt_succ_self _) (by decide))
    · rw [Nat.min_eq_right hle] at hc
      rw [show c + 1 = chunkCount text by omega]
      exact Nat.le_trans hsize hcover
  have hlo : newlinesBefore text (min (c * lineIndexChunkSize) (textSize text))
      ≤ newlinesBefore text k :=
    newlinesBefore_mono text (Nat.le_trans (Nat.min_le_left _ _) hck)
  have hup : newlinesBefore text k
      ≤ newlinesBefore text (min ((c + 1) * lineIndexChunkSize) (textSize text)) :=
    newlinesBefore_mono text (Nat.le_min.mpr ⟨hkc, hsize⟩)
  have hall : newlinesBefore text (min ((c + 1) * lineIndexChunkSize) (textSize text))
      ≤ newlinesBefore text (textSize text) :=
    newlinesBefore_mono text (Nat.min_le_right _ _)
  have hfit' : newlinesBefore text (textSize text) + 1 < uint32Size := hfit
  have hlines := length_lineStarts text (textSize text)
  rw [ensureLineIndex_bound text (by omega), ensureLineIndex_bound text hclt,
    ensureLineIndex_lineStart, upper_bound_window hsize hlo, hline]
  · have hfound : (line + 1 + uint32Size - 1) % uint32Size = line := by
      rw [Nat.add_right_comm, Nat.add_sub_cancel, Nat.add_mod_right]
      exact Nat.mod_eq_of_lt (by omega)
    rw [hfound, hstart, hstop, Nat.max_eq_left hk, Nat.min_eq_left hk', utf16_column_eq]
  · rw [Nat.mod_eq_of_lt (by omega), Nat.mod_eq_of_lt (by omega)]
    exact Nat.le_min.mpr ⟨by omega, by omega⟩

/-! ### Round trips -/

/-- An offset at which a code point of its line begins or the line stops. -/
def DecodeBoundary (text : List UInt8) (line offset : ℕ) : Prop :=
  ∃ start stop, LineSpan text line start stop ∧ start ≤ offset ∧ offset ≤ stop ∧
    utf16.Boundary (slice text start stop) (offset - start)

/-- A code point of the text begins at the offset, or a line stops there. -/
def AtBoundary (text : List UInt8) (offset : ℕ) : Prop := ∃ line, DecodeBoundary text line offset

/-- A position that counts the code units before such an offset. -/
def OnBoundary (text : List UInt8) (p : TextPosition) : Prop :=
  ∃ start stop offset, LineSpan text p.line start stop ∧ start ≤ offset ∧ offset ≤ stop ∧
    utf16.Boundary (slice text start stop) (offset - start) ∧
    utf16.weigh (slice text start offset) = p.character

def TextPosition.Before (p q : TextPosition) : Prop :=
  p.line < q.line ∨ p.line = q.line ∧ p.character < q.character

/-- Offsets and positions of a text are converted into each other. -/
structure Converts (text : List UInt8) : Prop where
  offset_position : ∀ line offset, DecodeBoundary text line offset →
    offsetAt text (positionAt text offset) = offset
  increasing : ∀ line offset line' offset', DecodeBoundary text line offset →
    DecodeBoundary text line' offset' → offset < offset' →
    (positionAt text offset).Before (positionAt text offset')
  line_eq : ∀ offset ≤ textSize text, (positionAt text offset).line = newlinesBefore text offset
  within : ∀ line start stop, LineSpan text line start stop → ∀ character,
    start ≤ offsetAt text ⟨line, character⟩ ∧ offsetAt text ⟨line, character⟩ ≤ stop
  beyond : ∀ p : TextPosition, newlinesBefore text (textSize text) < p.line →
    offsetAt text p = textSize text
  position_offset : ∀ p, positionAt text (offsetAt text p) = p ↔ OnBoundary text p

/-- The walk back from a boundary. -/
theorem offsetAt_weigh (h : LineSpan text line start stop) (hk : start ≤ k) (hk' : k ≤ stop)
    (hb : utf16.Boundary (slice text start stop) (k - start)) :
    offsetAt text ⟨line, utf16.weigh (slice text start k)⟩ = k := by
  rw [offsetAt_eq h, slice_take text hk', Decoder.reach_weigh hb]
  exact Nat.add_sub_cancel' hk

theorem increasing_of_fit (hfit : LinesFit text) {line' : ℕ} (hk : DecodeBoundary text line k)
    (hk' : DecodeBoundary text line' k') (hlt : k < k') :
    (positionAt text k).Before (positionAt text k') := by
  obtain ⟨start, stop, hspan, hle, hstop, hb⟩ := hk
  obtain ⟨start', stop', hspan', hle', hstop', hb'⟩ := hk'
  rw [positionAt_eq hfit hspan hle hstop, positionAt_eq hfit hspan' hle' hstop']
  have hlines : line ≤ line' := by
    rw [← hspan.newlinesBefore_eq hle hstop, ← hspan'.newlinesBefore_eq hle' hstop']
    exact newlinesBefore_mono text (Nat.le_of_lt hlt)
  rcases Nat.lt_or_eq_of_le hlines with hline | rfl
  · exact .inl hline
  · obtain ⟨rfl, rfl⟩ := hspan.unique hspan'
    refine .inr ⟨rfl, ?_⟩
    rw [slice_take text hstop, slice_take text hstop']
    exact Decoder.weigh_lt hb hb' (by omega)

/-- A position comes back exactly when it is on a boundary. -/
theorem position_offset_of_fit (hfit : LinesFit text) (p : TextPosition) :
    positionAt text (offsetAt text p) = p ↔ OnBoundary text p := by
  constructor
  · intro h
    -- A line that is not there would come back as the last one.
    have hline : p.line ≤ newlinesBefore text (textSize text) := by
      refine Nat.not_lt.mp fun hlt => ?_
      have hspan := (lineSpan_of_le (Nat.le_refl (textSize text)))
      rw [offsetAt_beyond hlt, positionAt_eq hfit hspan.1 hspan.2.1 hspan.2.2] at h
      rw [← h] at hlt
      exact Nat.lt_irrefl _ hlt
    obtain ⟨start, stop, hspan⟩ := exists_lineSpan hline
    have hboundary := Decoder.boundary_reach (D := utf16) (slice text start stop) p.character
    have hreach := hboundary.le_length
    rw [length_slice hspan.start_le hspan.stop_le] at hreach
    have hstart := hspan.start_le
    have hoffset := offsetAt_eq hspan p.character
    refine ⟨start, stop, start + utf16.reach (slice text start stop) p.character, hspan,
      Nat.le_add_right _ _, by omega, ?_, ?_⟩
    · rwa [Nat.add_sub_cancel_left]
    · rw [show p = ⟨p.line, p.character⟩ from rfl, hoffset,
        positionAt_eq hfit hspan (Nat.le_add_right _ _) (by omega)] at h
      exact congrArg TextPosition.character h
  · rintro ⟨start, stop, k, hspan, hle, hstop, hb, hcharacter⟩
    have hoffset := offsetAt_weigh hspan hle hstop hb
    rw [hcharacter] at hoffset
    rw [show p = ⟨p.line, p.character⟩ from rfl, hoffset, positionAt_eq hfit hspan hle hstop,
      hcharacter]

theorem converts_of_fit (hfit : LinesFit text) : Converts text where
  offset_position := by
    rintro line k ⟨start, stop, hspan, hle, hstop, hb⟩
    rw [positionAt_eq hfit hspan hle hstop, offsetAt_weigh hspan hle hstop hb]
  increasing := fun _ _ _ _ hk hk' hlt => increasing_of_fit hfit hk hk' hlt
  line_eq := by
    intro k hk
    have hspan := lineSpan_of_le hk
    rw [positionAt_eq hfit hspan.1 hspan.2.1 hspan.2.2]
  within := fun _ _ _ hspan character => offsetAt_within hspan character
  beyond := fun _ h => offsetAt_beyond h
  position_offset := position_offset_of_fit hfit

/-! ### Boundaries -/

theorem AtBoundary.le {offset : ℕ} (h : AtBoundary text offset) : offset ≤ textSize text :=
  let ⟨_, _, _, hspan, _, hle, _⟩ := h
  Nat.le_trans hle hspan.stop_le

theorem AtBoundary.offset_position {offset : ℕ} (h : AtBoundary text offset)
    (hfit : LinesFit text) : offsetAt text (positionAt text offset) = offset :=
  let ⟨line, hb⟩ := h
  (converts_of_fit hfit).offset_position line offset hb

theorem atBoundary_zero (text : List UInt8) : AtBoundary text 0 := by
  obtain ⟨hspan, hstart, hstop⟩ := @lineSpan_of_le text 0 (Nat.zero_le _)
  refine ⟨_, _, _, hspan, hstart, hstop, ?_⟩
  rw [Nat.zero_sub]
  exact .start _

/-- In a text of one byte a character, no offset cuts one. -/
theorem atBoundary_of_ascii (h : ∀ byte ∈ text, byte < 0x80) {offset : ℕ}
    (hle : offset ≤ textSize text) : AtBoundary text offset := by
  obtain ⟨hspan, hstart, hstop⟩ := lineSpan_of_le hle
  refine ⟨_, _, _, hspan, hstart, hstop, ?_⟩
  have hlength := length_slice hspan.start_le hspan.stop_le
  have hbytes : ∀ byte ∈ slice text
      ((lineStarts text (textSize text)).getD (newlinesBefore text offset) 0)
      (line_end_offset (lineStarts text (textSize text)) (textSize text)
        (newlinesBefore text offset)), byte < 0x80 :=
    fun byte hbyte => h byte (List.mem_of_mem_drop (List.mem_of_mem_take hbyte))
  generalize slice text _ _ = bytes at hlength hbytes ⊢
  have hk : offset - (lineStarts text (textSize text)).getD (newlinesBefore text offset) 0
      ≤ bytes.length := by omega
  generalize offset - _ = k at hk ⊢
  clear hlength
  induction k generalizing bytes with
  | zero => exact .start _
  | succ k ih =>
    cases bytes with
    | nil => cases hk
    | cons byte bytes =>
      have hdecode : (utf16.decode (byte :: bytes)).1 = 1 := by
        show (decodeOneUtf8ToUtf16Units (byte :: bytes)).1 = 1
        rw [decodeOne_ascii (hbytes byte List.mem_cons_self)]
      have hstep := @Decoder.Boundary.step _ utf16 byte bytes k
      rw [hdecode, Nat.add_comm] at hstep
      exact hstep (ih bytes (fun b hb => hbytes b (List.mem_cons_of_mem _ hb))
        (Nat.le_of_succ_le_succ hk))

/-! ### Texts with too many lines -/

/-- As many newlines as bytes. -/
theorem newlinesBefore_eq_iff : newlinesBefore text k = k ↔ ∀ i < k, byteAt text i = 10 := by
  induction k with
  | zero => exact ⟨fun _ i hi => absurd hi (Nat.not_lt_zero i), fun _ => rfl⟩
  | succ k ih =>
    have hle := newlinesBefore_le text k
    rw [newlinesBefore_succ]
    constructor
    · intro h
      split_ifs at h with hk
      · intro i hi
        rcases Nat.lt_succ_iff_lt_or_eq.mp hi with hi | rfl
        · exact ih.mp (by omega) i hi
        · exact beq_iff_eq.mp hk
      · omega
    · intro h
      rw [if_pos (beq_iff_eq.mpr (h k (Nat.lt_succ_self k))),
        ih.mpr fun i hi => h i (Nat.lt_succ_of_lt hi)]

/-- A text begins with as many newlines as offsets can be told apart. -/
def OnlyNewlines (text : List UInt8) : Prop :=
  uint32Size - 1 ≤ text.length ∧ ∀ i < uint32Size - 1, byteAt text i = 10

theorem not_onlyNewlines_iff : ¬ OnlyNewlines text ↔ LinesFit text := by
  have hle := newlinesBefore_le text (textSize text)
  have hsize := textSize_lt text
  rw [LinesFit, not_iff_comm, Nat.not_lt]
  constructor
  · intro h
    have hsize' : textSize text = uint32Size - 1 := by omega
    refine ⟨?_, newlinesBefore_eq_iff.mp ?_⟩
    · rw [← hsize']
      exact Nat.min_le_left _ _
    · rw [hsize'] at h hle
      omega
  · rintro ⟨hlength, hall⟩
    have hsize' : textSize text = uint32Size - 1 := Nat.min_eq_right hlength
    rw [hsize', newlinesBefore_eq_iff.mpr hall]
    exact Nat.le_of_eq rfl

/-- With too many lines, the first offset is put on the last line. -/
theorem positionAt_zero_of_not_fit (h : ¬ LinesFit text) :
    ∃ character, positionAt text 0 = ⟨uint32Size - 1, character⟩ := by
  obtain ⟨hlength, hall⟩ := not_not.mp (mt not_onlyNewlines_iff.mp h)
  have hsize : textSize text = uint32Size - 1 := Nat.min_eq_right hlength
  have hlines : (lineStarts text (textSize text)).length % uint32Size = 0 := by
    rw [length_lineStarts, hsize, newlinesBefore_eq_iff.mpr hall]
    rfl
  have hlast : (0 + 0 + uint32Size - 1) % uint32Size = uint32Size - 1 := by decide
  have hchunks : chunkCount text ≠ 0 := by
    intro hzero
    have hcover := le_chunks text
    rw [hzero, Nat.zero_mul, hsize] at hcover
    exact absurd hcover (by decide)
  apply Exists.intro
  unfold positionAt
  dsimp only
  rw [ensureLineIndex_numChunks, if_neg hchunks, Nat.zero_min, Nat.zero_div, Nat.zero_min,
    ensureLineIndex_bound text (Nat.zero_le _), ensureLineIndex_lineStart, hlines, Nat.min_zero,
    List.take_zero, List.drop_nil, Nat.zero_mul, Nat.zero_min, newlinesBefore_zero,
    upper_bound_nil, hlast]

/-- **Offsets and positions are converted into each other, unless the text begins with
2^32 - 1 newlines.** -/
theorem converts_iff (text : List UInt8) : Converts text ↔ ¬ OnlyNewlines text := by
  rw [not_onlyNewlines_iff]
  constructor
  · intro hconverts
    by_contra hfit
    obtain ⟨character, hposition⟩ := positionAt_zero_of_not_fit hfit
    have hline := hconverts.line_eq 0 (Nat.zero_le _)
    rw [hposition, newlinesBefore_zero] at hline
    exact absurd hline (show uint32Size - 1 ≠ 0 by decide)
  · exact converts_of_fit

/-- **The first offset of 2^32 - 1 newlines is not on the first line.** -/
theorem too_many_lines : ¬ Converts (List.replicate (uint32Size - 1) 10) := by
  intro hconverts
  have honly : OnlyNewlines (List.replicate (uint32Size - 1) 10) := by
    constructor
    · exact Nat.le_of_eq List.length_replicate.symm
    · intro i hi
      rw [byteAt, List.getD_eq_getElem?_getD, List.getElem?_replicate, if_pos hi]
      rfl
  obtain ⟨character, hposition⟩ :=
    positionAt_zero_of_not_fit (mt not_onlyNewlines_iff.mpr (not_not_intro honly))
  have hline := hconverts.line_eq 0 (Nat.zero_le _)
  rw [hposition, newlinesBefore_zero] at hline
  exact absurd hline (show uint32Size - 1 ≠ 0 by decide)

end Pegium
