/-
Pegium/Parser/TextUtils.lean

Byte-level text helpers.

A text is the list of its bytes.  The source reads it through pointers into a
NUL-terminated buffer; reading position `p` is `byteAt text p`, which is the
terminating NUL at and after the end.  A matcher returns the position after the
match, `none` standing for the null pointer.
-/
import Mathlib.Algebra.GroupWithZero.Nat
import Mathlib.Data.List.Basic

namespace Pegium

/-- The byte at position `p`, NUL at and after the end. -/
def byteAt (text : List UInt8) (p : ℕ) : UInt8 := text.getD p 0

theorem byteAt_take {text : List UInt8} {k i : ℕ} (h : i < k) :
    byteAt (text.take k) i = byteAt text i := by
  unfold byteAt
  rw [List.getD_eq_getElem?_getD, List.getD_eq_getElem?_getD, List.getElem?_take_of_lt h]

/-- `isLetter`: the range `a-zA-Z`. -/
def isLetter (c : UInt8) : Bool :=
  (97 ≤ c && c ≤ 122) || (65 ≤ c && c ≤ 90)

/-- `isWord`: the range `a-zA-Z0-9_`. -/
def isWord (c : UInt8) : Bool :=
  isLetter c || (48 ≤ c && c ≤ 57) || c == 95

/-- ASCII lower case; bytes outside `A-Z` are unchanged. -/
def tolower (c : UInt8) : UInt8 :=
  if 65 ≤ c && c ≤ 90 then c + 32 else c

/-- The length of the UTF-8 sequence a lead byte announces: 0 for NUL, the
largest `size_t` for a byte that cannot lead. -/
def utf8_codepoint_length (leadByte : UInt8) : ℕ :=
  if leadByte == 0 then 0
  else if leadByte &&& 0x80 == 0 then 1
  else if leadByte &&& 0xE0 == 0xC0 then 2
  else if leadByte &&& 0xF0 == 0xE0 then 3
  else if leadByte &&& 0xF8 == 0xF0 then 4
  else 2 ^ 64 - 1

/-- The value of the UTF-8 sequence at `p`; malformed input gives the lead byte. -/
def decode_utf8_codepoint (text : List UInt8) (p : ℕ) : ℕ :=
  let lead := (byteAt text p).toNat
  let cont := fun i => (byteAt text (p + i)).toNat &&& 0x3F
  if lead < 0x80 then lead
  else
    match utf8_codepoint_length (byteAt text p) with
    | 2 => (lead &&& 0x1F) <<< 6 ||| cont 1
    | 3 => (lead &&& 0x0F) <<< 12 ||| cont 1 <<< 6 ||| cont 2
    | 4 => (lead &&& 0x07) <<< 18 ||| cont 1 <<< 12 ||| cont 2 <<< 6 ||| cont 3
    | _ => lead

/-- A codepoint that may be part of an identifier. -/
def is_identifier_like_codepoint (codepoint : ℕ) : Bool :=
  0x80 ≤ codepoint || isWord (UInt8.ofNat codepoint)

/-- A complete identifier-like codepoint starts at `p`, before `stop`. -/
def is_identifier_like_codepoint_at (text : List UInt8) (p stop : ℕ) : Bool :=
  if stop ≤ p then false
  else
    let length := utf8_codepoint_length (byteAt text p)
    if length == 0 || stop - p < length then false
    else is_identifier_like_codepoint (decode_utf8_codepoint text p)

/-- A continuation byte, `0b10xxxxxx`. -/
def isContinuation (c : UInt8) : Bool := c &&& 0xC0 == 0x80

/-- The position where the codepoint before `pos` starts, 0 at the start of the
text. -/
def previous_codepoint_start (text : List UInt8) (pos : ℕ) : ℕ :=
  if pos = 0 then 0 else loop (pos - 1)
where
  /-- The walk back over continuation bytes. -/
  loop : ℕ → ℕ
    | 0 => 0
    | index + 1 => if isContinuation (byteAt text (index + 1)) then loop index else index + 1

/-- The position after the UTF-8 sequence at `p`, when it is complete. -/
def consume_utf8_codepoint_if_complete (text : List UInt8) (p : ℕ) : Option ℕ :=
  let leadByte := byteAt text p
  if leadByte == 0 then none
  else if leadByte < 0x80 then some (p + 1)
  else
    match utf8_codepoint_length leadByte with
    | 2 => if byteAt text (p + 1) == 0 then none else some (p + 2)
    | 3 =>
      if byteAt text (p + 1) == 0 || byteAt text (p + 2) == 0 then none else some (p + 3)
    | 4 =>
      if byteAt text (p + 1) == 0 || byteAt text (p + 2) == 0 || byteAt text (p + 3) == 0
      then none else some (p + 4)
    | _ => none

/-- Every codepoint of `value` is identifier-like, and there is one. -/
def is_word_like_terminal (value : List UInt8) : Bool :=
  value != [] && loop value value.length
where
  /-- The scan over the rest of the value; every step consumes a byte. -/
  loop : List UInt8 → ℕ → Bool
    | [], _ => true
    | _ :: _, 0 => false
    | c :: cs, fuel + 1 =>
      let length := utf8_codepoint_length c
      if length == 0 || (c :: cs).length < length then false
      else if is_identifier_like_codepoint (decode_utf8_codepoint (c :: cs) 0) then
        loop ((c :: cs).drop length) fuel
      else false

/-! ### Single-edit literal match -/

/-- Byte equality up to ASCII case when the literal is case-insensitive. -/
def equal_codepoint (caseSensitive : Bool) (lhs rhs : UInt8) : Bool :=
  if caseSensitive then lhs == rhs else tolower lhs == tolower rhs

/-- What two bytes are compared by. -/
def foldByte (caseSensitive : Bool) (b : UInt8) : UInt8 := if caseSensitive then b else tolower b

/-- The length of the longest common prefix under `equal_codepoint`. -/
def commonPrefix (caseSensitive : Bool) : List UInt8 → List UInt8 → ℕ
  | a :: as, b :: bs =>
    if equal_codepoint caseSensitive a b then commonPrefix caseSensitive as bs + 1 else 0
  | _, _ => 0

/-- The alignment test of the single-edit detector: the window is cut to `K`
bytes, its common prefix and suffix with the literal are dropped, and what is
left must be one substitution, insertion, deletion or adjacent transposition. -/
def try_alignment (caseSensitive : Bool) (lit window : List UInt8) (K : ℕ) (diff : Int) : Bool :=
  if window.length < K then false
  else
    let p := commonPrefix caseSensitive lit (window.take K)
    let litRest := lit.drop p
    let winRest := (window.take K).drop p
    let s := commonPrefix caseSensitive litRest.reverse winRest.reverse
    let litRemain := litRest.length - s
    let winRemain := winRest.length - s
    (diff == 0 && litRemain == 1 && winRemain == 1) ||
      (diff == 1 && litRemain == 0 && winRemain == 1) ||
      (diff == -1 && litRemain == 1 && winRemain == 0) ||
      (diff == 0 && litRemain == 2 && winRemain == 2 &&
        equal_codepoint caseSensitive (byteAt lit p) (byteAt window (p + 1)) &&
        equal_codepoint caseSensitive (byteAt lit (p + 1)) (byteAt window p))

/-- The window is the literal up to one edit (and not the literal itself). -/
def literal_has_single_edit_strict_match (lit window : List UInt8) (caseSensitive : Bool) :
    Bool :=
  let N := lit.length
  let W := window.length
  if N == 0 then false
  else
    try_alignment caseSensitive lit window N 0 ||
      (N + 1 ≤ W && try_alignment caseSensitive lit window (N + 1) 1) ||
      (N ≤ W + 1 && try_alignment caseSensitive lit window (N - 1) (-1))

/-! ### Bytes -/

/-- A property of bytes that holds of all 256 of them. -/
theorem byte_cases {p : UInt8 → Prop} (h : ∀ n : Fin 256, p (UInt8.ofFin n)) (b : UInt8) : p b :=
  h b.toFin

/-- A codepoint is decoded from its own bytes. -/
theorem decode_utf8_codepoint_congr {text text' : List UInt8} {p p' : ℕ}
    (hlead : byteAt text p = byteAt text' p')
    (h : ∀ i < utf8_codepoint_length (byteAt text p), byteAt text (p + i) = byteAt text' (p' + i)) :
    decode_utf8_codepoint text p = decode_utf8_codepoint text' p' := by
  rw [decode_utf8_codepoint, decode_utf8_codepoint, ← hlead]
  dsimp only
  split
  · rfl
  · generalize utf8_codepoint_length (byteAt text p) = length at h
    split
    · rw [h 1 (by omega)]
    · rw [h 1 (by omega), h 2 (by omega)]
    · rw [h 1 (by omega), h 2 (by omega), h 3 (by omega)]
    · rfl

/-! ### Positions -/

theorem byteAt_of_length_le {text : List UInt8} {p : ℕ} (h : text.length ≤ p) :
    byteAt text p = 0 := by
  simp [byteAt, List.getD_eq_getElem?_getD, List.getElem?_eq_none h]

theorem lt_length_of_byteAt_ne {text : List UInt8} {p : ℕ} (h : byteAt text p ≠ 0) :
    p < text.length := by
  by_contra hle
  exact h (byteAt_of_length_le (Nat.le_of_not_lt hle))

/-- **A complete codepoint advances the cursor and stays before the end**, also
on malformed and truncated sequences: every byte it steps over is not NUL. -/
theorem consume_utf8_codepoint_bounds {text : List UInt8} {p q : ℕ}
    (h : consume_utf8_codepoint_if_complete text p = some q) :
    p < q ∧ q ≤ text.length := by
  have step : ∀ i, byteAt text (p + i) ≠ 0 → p + i + 1 ≤ text.length :=
    fun i hi => lt_length_of_byteAt_ne hi
  simp only [consume_utf8_codepoint_if_complete, beq_iff_eq] at h
  split at h
  · cases h
  next hlead =>
    split at h
    · have := step 0 hlead
      simp only [Option.some.injEq] at h
      omega
    · split at h
      · split at h
        · cases h
        next h1 =>
          have := step 1 h1
          simp only [Option.some.injEq] at h
          omega
      · split at h
        · cases h
        next h1 =>
          simp only [Bool.or_eq_true, beq_iff_eq, not_or] at h1
          have := step 2 h1.2
          simp only [Option.some.injEq] at h
          omega
      · split at h
        · cases h
        next h1 =>
          simp only [Bool.or_eq_true, beq_iff_eq, not_or] at h1
          have := step 3 h1.2
          simp only [Option.some.injEq] at h
          omega
      · cases h

theorem previous_codepoint_start_loop_le (text : List UInt8) (index : ℕ) :
    previous_codepoint_start.loop text index ≤ index := by
  induction index with
  | zero => exact Nat.le_refl 0
  | succ index ih =>
    rw [previous_codepoint_start.loop]
    split
    · exact Nat.le_succ_of_le ih
    · exact Nat.le_refl _

theorem previous_codepoint_start_lt {text : List UInt8} {pos : ℕ} (h : 0 < pos) :
    previous_codepoint_start text pos < pos := by
  rw [previous_codepoint_start, if_neg (by omega)]
  have hle := previous_codepoint_start_loop_le text (pos - 1)
  omega

/-- The walk back stops at the first byte that is not a continuation byte. -/
theorem le_previous_codepoint_start_loop {text : List UInt8} {p index : ℕ} (hp : p ≤ index)
    (hstart : isContinuation (byteAt text p) = false) :
    p ≤ previous_codepoint_start.loop text index := by
  induction index with
  | zero => exact hp
  | succ index ih =>
    rw [previous_codepoint_start.loop]
    split
    next hcont =>
      have hne : p ≠ index + 1 := by
        rintro rfl
        exact absurd (hstart.symm.trans hcont) Bool.false_ne_true
      exact ih (by omega)
    next => exact hp

theorem le_previous_codepoint_start {text : List UInt8} {p pos : ℕ} (hp : p < pos)
    (hstart : isContinuation (byteAt text p) = false) :
    p ≤ previous_codepoint_start text pos := by
  rw [previous_codepoint_start, if_neg (by omega)]
  exact le_previous_codepoint_start_loop (by omega) hstart

end Pegium
