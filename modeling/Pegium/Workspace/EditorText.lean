/-
Pegium/Workspace/EditorText.lean

The text of an editor, and where the server finds its places.

An editor has a text of characters, and tells places in it by a line and a number of
UTF-16 code units; lines end as the protocol says, at a line feed, at a carriage return, or
at both together.  The server has the same text as UTF-8, and breaks lines at line feeds.

The two agree on every place of a text without a carriage return on its own
(`offsetAt_position`): the server finds it where the characters before it end.
-/
import Mathlib.Data.List.GetD
import Mathlib.Data.List.TakeWhile
import Pegium.General.EncodedText
import Pegium.Workspace.TextEdits

namespace Pegium

/-! ### UTF-8 -/

/-- The UTF-16 code units of a character. -/
def utf16Length (c : Char) : ℕ := if c.val.toNat < 0x10000 then 1 else 2

def utf8 (text : List Char) : List UInt8 := text.flatMap String.utf8EncodeChar

theorem utf8_append (text text' : List Char) : utf8 (text ++ text') = utf8 text ++ utf8 text' :=
  List.flatMap_append

/-- A byte that goes on a character. -/
def continuation (n : ℕ) : UInt8 := UInt8.ofNat (n % 64 + 128)

theorem continuation_and (n : ℕ) : continuation n &&& 0xC0 = 0x80 := by
  have hall : ∀ m < 64, UInt8.ofNat (m + 128) &&& 0xC0 = 0x80 := by decide
  exact hall _ (Nat.mod_lt _ (by decide))

/-- The step over a character of several bytes. -/
theorem decodeOne_several {first : UInt8} {tail rest : List UInt8} (hfirst : 0x80 ≤ first)
    (hlength : expectedLength first = tail.length + 1) (hne : tail ≠ [])
    (hcontinues : ∀ byte ∈ tail, byte &&& 0xC0 = 0x80) :
    decodeOneUtf8ToUtf16Units (first :: tail ++ rest)
      = (tail.length + 1,
        if 0x10000 ≤ codePointOf (tail.length + 1) (first :: tail ++ rest) then 2 else 1) := by
  have hpos := List.length_pos_of_ne_nil hne
  have hbyte : byteAt (first :: tail ++ rest) 0 = first := rfl
  unfold decodeOneUtf8ToUtf16Units
  dsimp only
  rw [hbyte, if_neg (UInt8.not_lt.mpr hfirst), hlength, if_neg, if_neg]
  · have htake : (first :: tail ++ rest).take (tail.length + 1) = first :: tail := by
      simp
    rw [htake, List.tail_cons, List.any_eq_true]
    rintro ⟨byte, hmem, hbad⟩
    rw [hcontinues byte hmem] at hbad
    exact absurd hbad (by decide)
  · rw [List.length_append, List.length_cons]
    omega

theorem utf8EncodeChar_ne_nil (c : Char) : String.utf8EncodeChar c ≠ [] := by
  refine List.ne_nil_of_length_pos ?_
  rw [String.length_utf8EncodeChar]
  exact c.utf8Size_pos

/-- The same, by what the lead byte announces. -/
theorem decodeOne_lead {lead length : ℕ} (tail : List ℕ) (rest : List UInt8) (hlead : 0x80 ≤ lead)
    (hsmall : lead < 0xF8) (hlength : tail.length + 1 = length)
    (hannounced : length = if lead < 0xE0 then 2 else if lead < 0xF0 then 3 else 4) :
    decodeOneUtf8ToUtf16Units (UInt8.ofNat lead :: tail.map continuation ++ rest)
      = (length, if 0x10000 ≤ codePointOf length (UInt8.ofNat lead :: tail.map continuation ++ rest)
        then 2 else 1) := by
  have hlt : ∀ n < 256, UInt8.ofNat lead < UInt8.ofNat n ↔ lead < n := by
    intro n hn
    rw [UInt8.lt_iff_toNat_lt, UInt8.toNat_ofNat', UInt8.toNat_ofNat',
      Nat.mod_eq_of_lt (by omega), Nat.mod_eq_of_lt hn]
  have hexpected : expectedLength (UInt8.ofNat lead) = length := by
    unfold expectedLength
    have h1 := hlt 0xE0 (by decide)
    have h2 := hlt 0xF0 (by decide)
    have h3 := hlt 0xF8 (by decide)
    simp only [UInt8.reduceOfNat] at h1 h2 h3
    rw [hannounced]
    simp only [h1, h2, h3, hsmall, if_true]
  have hnot : ¬ UInt8.ofNat lead < 0x80 := by
    have h := hlt 0x80 (by decide)
    simp only [UInt8.reduceOfNat] at h
    rw [h]
    omega
  have hne : tail.map continuation ≠ [] := by
    rintro hnil
    rw [List.map_eq_nil_iff.mp hnil, List.length_nil] at hlength
    split_ifs at hannounced <;> omega
  have hcontinues : ∀ byte ∈ tail.map continuation, byte &&& 0xC0 = 0x80 := by
    intro byte hbyte
    obtain ⟨n, -, rfl⟩ := List.mem_map.mp hbyte
    exact continuation_and n
  rw [← List.length_map continuation] at hlength
  rw [decodeOne_several (UInt8.not_lt.mp hnot) (hexpected.trans hlength.symm) hne hcontinues,
    hlength]

theorem codePointOf_two_lt (bytes : List UInt8) : codePointOf 2 bytes < 0x10000 := by
  have hlead : ((byteAt bytes 0).toNat &&& 0x1F) <<< 6 < 2 ^ 11 := by
    have := @Nat.and_lt_two_pow (byteAt bytes 0).toNat 0x1F 5 (by decide)
    rw [Nat.shiftLeft_eq]
    omega
  have hcont : (byteAt bytes 1).toNat &&& 0x3F < 2 ^ 11 := by
    have := @Nat.and_lt_two_pow (byteAt bytes 1).toNat 0x3F 6 (by decide)
    omega
  exact Nat.lt_trans (Nat.or_lt_two_pow hlead hcont) (by decide)

theorem codePointOf_three_lt (bytes : List UInt8) : codePointOf 3 bytes < 0x10000 := by
  have hlead : ((byteAt bytes 0).toNat &&& 0x0F) <<< 12 < 2 ^ 16 := by
    have := @Nat.and_lt_two_pow (byteAt bytes 0).toNat 0x0F 4 (by decide)
    rw [Nat.shiftLeft_eq]
    omega
  have hcont : ((byteAt bytes 1).toNat &&& 0x3F) <<< 6 < 2 ^ 16 := by
    have := @Nat.and_lt_two_pow (byteAt bytes 1).toNat 0x3F 6 (by decide)
    rw [Nat.shiftLeft_eq]
    omega
  have hlast : (byteAt bytes 2).toNat &&& 0x3F < 2 ^ 16 := by
    have := @Nat.and_lt_two_pow (byteAt bytes 2).toNat 0x3F 6 (by decide)
    omega
  exact Nat.or_lt_two_pow (Nat.or_lt_two_pow hlead hcont) hlast

/-- Four bytes make a code point behind the first 2^16, as they are used for none before. -/
theorem le_codePointOf_four {v : ℕ} (hv : 0x10000 ≤ v) (hvalid : v < 0x110000)
    (rest : List UInt8) :
    0x10000 ≤ codePointOf 4 (UInt8.ofNat (v / 262144 % 8 + 240) ::
      UInt8.ofNat (v / 4096 % 64 + 128) :: rest) := by
  have hlead : ∀ n < 8, (UInt8.ofNat (n + 240)).toNat &&& 0x07 = n := by decide
  have hcont : ∀ n < 64, (UInt8.ofNat (n + 128)).toNat &&& 0x3F = n := by decide
  show 0x10000 ≤ ((UInt8.ofNat (v / 262144 % 8 + 240)).toNat &&& 0x07) <<< 18 |||
    ((UInt8.ofNat (v / 4096 % 64 + 128)).toNat &&& 0x3F) <<< 12 ||| _ ||| _
  rw [hlead _ (Nat.mod_lt _ (by decide)), hcont _ (Nat.mod_lt _ (by decide)), Nat.shiftLeft_eq,
    Nat.shiftLeft_eq]
  refine Nat.le_trans ?_ Nat.left_le_or
  refine Nat.le_trans ?_ Nat.left_le_or
  rcases Nat.lt_or_ge v 0x40000 with hlt | hge
  · exact Nat.le_trans (by omega) Nat.right_le_or
  · exact Nat.le_trans (by omega) Nat.left_le_or

/-- **The decoder reads UTF-8.** -/
theorem reads_utf8 : utf16.Reads String.utf8EncodeChar utf16Length where
  ne_nil := utf8EncodeChar_ne_nil
  decode_append c rest := by
    show decodeOneUtf8ToUtf16Units _ = _
    have hvalid : c.val.toNat < 0x110000 := by
      rcases c.valid with hlt | hlt
      · exact Nat.lt_trans hlt (by decide)
      · exact hlt.2
    unfold String.utf8EncodeChar utf16Length
    generalize c.val.toNat = v at hvalid
    dsimp only
    by_cases h1 : v ≤ 0x7f
    · have hascii : UInt8.ofNat v < 0x80 := by
        rw [UInt8.lt_iff_toNat_lt, UInt8.toNat_ofNat', Nat.mod_eq_of_lt (by omega)]
        show v < 128
        omega
      rw [if_pos h1, if_pos (by omega)]
      exact decodeOne_ascii hascii rest
    rw [if_neg h1]
    by_cases h2 : v ≤ 0x7ff
    · rw [if_pos h2, if_pos (by omega)]
      have hlead : v / 64 % 32 + 192 < 0xE0 := by omega
      have hdecode := @decodeOne_lead (v / 64 % 32 + 192) 2 [v] rest (by omega) (by omega)
        rfl (by rw [if_pos hlead])
      rw [if_neg (Nat.not_le.mpr (codePointOf_two_lt _))] at hdecode
      exact hdecode
    rw [if_neg h2]
    by_cases h3 : v ≤ 0xffff
    · rw [if_pos h3, if_pos (by omega)]
      have hlead : ¬ v / 4096 % 16 + 224 < 0xE0 := by omega
      have hlead' : v / 4096 % 16 + 224 < 0xF0 := by omega
      have hdecode := @decodeOne_lead (v / 4096 % 16 + 224) 3 [v / 64, v] rest (by omega)
        (by omega) rfl (by rw [if_neg hlead, if_pos hlead'])
      rw [if_neg (Nat.not_le.mpr (codePointOf_three_lt _))] at hdecode
      exact hdecode
    · rw [if_neg h3, if_neg (by omega)]
      have hlead : ¬ v / 262144 % 8 + 240 < 0xE0 := by omega
      have hlead' : ¬ v / 262144 % 8 + 240 < 0xF0 := by omega
      have hdecode := @decodeOne_lead (v / 262144 % 8 + 240) 4 [v / 4096, v / 64, v] rest
        (by omega) (by omega) rfl (by rw [if_neg hlead, if_neg hlead'])
      exact hdecode.trans (congrArg _ (if_pos (le_codePointOf_four (by omega) hvalid _)))

/-! ### Line feeds -/

theorem mem_utf8EncodeChar {c : Char} : 10 ∈ String.utf8EncodeChar c ↔ c = '\n' := by
  have hbyte : ∀ n < 256, 10 = UInt8.ofNat n ↔ n = 10 := by
    intro n hn
    rw [← UInt8.toNat_inj, UInt8.toNat_ofNat', Nat.mod_eq_of_lt hn]
    exact eq_comm
  have hlarge : ∀ n < 256, 128 ≤ n → 10 ≠ UInt8.ofNat n := by
    intro n hn hle heq
    have := (hbyte n hn).mp heq
    omega
  constructor
  · intro hmem
    have hval : c.val.toNat = 10 := by
      unfold String.utf8EncodeChar at hmem
      generalize c.val.toNat = v at hmem ⊢
      dsimp only at hmem
      split_ifs at hmem
      all_goals simp only [List.mem_cons, List.not_mem_nil, or_false] at hmem
      · exact (hbyte v (by omega)).mp hmem
      · rcases hmem with h | h <;> exact absurd h (hlarge _ (by omega) (by omega))
      · rcases hmem with h | h | h <;> exact absurd h (hlarge _ (by omega) (by omega))
      · rcases hmem with h | h | h | h <;> exact absurd h (hlarge _ (by omega) (by omega))
    exact Char.ext (UInt32.toNat_inj.mp hval)
  · rintro rfl
    decide

theorem count_utf8EncodeChar (c : Char) :
    (String.utf8EncodeChar c).count 10 = if c = '\n' then 1 else 0 := by
  split
  next h =>
    subst h
    decide
  next h => exact List.count_eq_zero.mpr fun hmem => h (mem_utf8EncodeChar.mp hmem)

theorem count_utf8 (text : List Char) : (utf8 text).count 10 = text.count '\n' := by
  induction text with
  | nil => rfl
  | cons c text ih =>
    show (String.utf8EncodeChar c ++ utf8 text).count 10 = _
    rw [List.count_append, count_utf8EncodeChar, ih, List.count_cons, Nat.add_comm]
    simp

theorem mem_utf8 {text : List Char} : 10 ∈ utf8 text ↔ '\n' ∈ text := by
  rw [← List.count_pos_iff, count_utf8, List.count_pos_iff]

theorem newlinesBefore_eq_count (bytes : List UInt8) {k : ℕ} (hk : k ≤ bytes.length) :
    newlinesBefore bytes k = (bytes.take k).count 10 := by
  induction k with
  | zero => rw [newlinesBefore_zero, List.take_zero, List.count_nil]
  | succ k ih =>
    have hlt : k < bytes.length := hk
    have hbyte : byteAt bytes k = bytes[k] := by
      rw [byteAt, List.getD_eq_getElem?_getD, List.getElem?_eq_getElem hlt]
      rfl
    rw [newlinesBefore_succ, ih (Nat.le_of_lt hlt), List.take_add_one,
      List.getElem?_eq_getElem hlt, Option.toList_some, List.count_append,
      List.count_singleton, hbyte]

/-! ### Places -/

/-- The place after a character, when it is known which one comes next. -/
def TextPosition.advance (p : TextPosition) (c : Char) (next : Option Char) : TextPosition :=
  if c = '\n' ∨ (c = '\r' ∧ next ≠ some '\n') then ⟨p.line + 1, 0⟩
  else ⟨p.line, p.character + utf16Length c⟩

/-- The place behind so many characters, as the protocol tells it. -/
def editorPosition (p : TextPosition) : List Char → ℕ → TextPosition
  | [], _ => p
  | _ :: _, 0 => p
  | c :: cs, i + 1 => editorPosition (p.advance c cs.head?) cs i

/-- No carriage return stands on its own. -/
def NoLoneReturn : List Char → Prop
  | [] => True
  | c :: cs => (c = '\r' → cs.head? = some '\n') ∧ NoLoneReturn cs

instance : DecidablePred NoLoneReturn := go
where
  go : (text : List Char) → Decidable (NoLoneReturn text)
  | [] => inferInstanceAs (Decidable True)
  | _ :: cs =>
    have := go cs
    inferInstanceAs (Decidable (_ ∧ _))

/-- The UTF-16 code units of a text. -/
def utf16Units (text : List Char) : ℕ := (text.map utf16Length).sum

/-- The characters before a place are those of the lines above it and those before it on its
line. -/
theorem exists_lines {text : List Char} {i : ℕ} (h : NoLoneReturn text) (hi : i ≤ text.length)
    (p : TextPosition) :
    ('\n' ∉ text.take i ∧
        editorPosition p text i = ⟨p.line, p.character + utf16Units (text.take i)⟩) ∨
      ∃ above tail, text.take i = above ++ '\n' :: tail ∧ '\n' ∉ tail ∧
        editorPosition p text i = ⟨p.line + above.count '\n' + 1, utf16Units tail⟩ := by
  induction text generalizing i p with
  | nil =>
    refine .inl ⟨by simp, ?_⟩
    simp [editorPosition, utf16Units]
  | cons c cs ih =>
    cases i with
    | zero => exact .inl ⟨by simp, rfl⟩
    | succ i =>
      obtain ⟨hc, hcs⟩ := h
      rw [editorPosition, List.take_succ_cons]
      by_cases hfeed : c = '\n'
      · -- The first line feed: what comes next begins a line.
        subst hfeed
        rw [TextPosition.advance, if_pos (.inl rfl)]
        rcases ih hcs (Nat.le_of_succ_le_succ hi) ⟨p.line + 1, 0⟩ with
          ⟨hnone, heq⟩ | ⟨above, tail, htake, hnone, heq⟩
        · exact .inr ⟨[], cs.take i, rfl, hnone, by rw [heq]; simp⟩
        · refine .inr ⟨'\n' :: above, tail, by rw [htake]; rfl, hnone, ?_⟩
          rw [heq, List.count_cons_self]
          simp only [TextPosition.mk.injEq, and_true]
          omega
      · have hadvance : p.advance c cs.head? = ⟨p.line, p.character + utf16Length c⟩ := by
          rw [TextPosition.advance, if_neg]
          rintro (heq | ⟨heq, hnext⟩)
          · exact hfeed heq
          · exact hnext (hc heq)
        rw [hadvance]
        rcases ih hcs (Nat.le_of_succ_le_succ hi) ⟨p.line, p.character + utf16Length c⟩ with
          ⟨hnone, heq⟩ | ⟨above, tail, htake, hnone, heq⟩
        · refine .inl ⟨?_, ?_⟩
          · rw [List.mem_cons, not_or]
            exact ⟨fun h => hfeed h.symm, hnone⟩
          · rw [heq, utf16Units, utf16Units, List.map_cons, List.sum_cons, Nat.add_assoc]
        · refine .inr ⟨c :: above, tail, by rw [htake]; rfl, hnone, ?_⟩
          rw [heq, List.count_cons_of_ne hfeed]

/-- The place behind so many characters of a text. -/
def positionIn (text : List Char) (i : ℕ) : TextPosition := editorPosition ⟨0, 0⟩ text i

theorem exists_line {text : List Char} {i : ℕ} (h : NoLoneReturn text) (hi : i ≤ text.length) :
    ∃ above tail, text.take i = above ++ tail ∧ '\n' ∉ tail ∧
      (above = [] ∨ ∃ init, above = init ++ ['\n']) ∧
      positionIn text i = ⟨above.count '\n', utf16Units tail⟩ := by
  rcases exists_lines h hi ⟨0, 0⟩ with ⟨hnone, heq⟩ | ⟨above, tail, htake, hnone, heq⟩
  · exact ⟨[], _, rfl, hnone, .inl rfl, by rw [positionIn, heq]; simp⟩
  · refine ⟨above ++ ['\n'], tail, by rw [htake]; simp, hnone, .inr ⟨above, rfl⟩, ?_⟩
    rw [positionIn, heq, List.count_append]
    simp

/-- A text that the server can hold and that breaks its lines as the server does. -/
structure Plain (text : List Char) : Prop where
  size : (utf8 text).length < uint32Size
  noLoneReturn : NoLoneReturn text

theorem byteAt_append_of_le {bytes rest : List UInt8} {i : ℕ} (h : bytes.length ≤ i) :
    byteAt (bytes ++ rest) i = byteAt rest (i - bytes.length) :=
  List.getD_append_right _ _ _ _ h

theorem byteAt_mem {bytes : List UInt8} {i : ℕ} (h : i < bytes.length) :
    byteAt bytes i ∈ bytes := by
  rw [byteAt, List.getD_eq_getElem?_getD, List.getElem?_eq_getElem h]
  exact List.getElem_mem h

/-- The line between two line feeds. -/
theorem lineSpan_utf8 {above line below : List Char}
    (hsize : (utf8 (above ++ (line ++ below))).length < uint32Size) (hline : '\n' ∉ line)
    (habove : above = [] ∨ ∃ init, above = init ++ ['\n'])
    (hbelow : below = [] ∨ ∃ rest, below = '\n' :: rest) :
    LineSpan (utf8 (above ++ (line ++ below))) (above.count '\n') (utf8 above).length
      ((utf8 above).length + (utf8 line).length) := by
  have hlength : (utf8 (above ++ (line ++ below))).length
      = (utf8 above).length + ((utf8 line).length + (utf8 below).length) := by
    rw [utf8_append, utf8_append, List.length_append, List.length_append]
  have htext : textSize (utf8 (above ++ (line ++ below)))
      = (utf8 above).length + ((utf8 line).length + (utf8 below).length) := by
    rw [textSize, hlength, Nat.min_eq_left (by omega)]
  refine ⟨by omega, by omega, ?_, ?_, fun i hi hi' => ?_, ?_⟩
  · rw [newlinesBefore_eq_count _ (by omega), utf8_append, List.take_left, count_utf8]
  · rcases habove with rfl | ⟨init, rfl⟩
    · exact .inl rfl
    · have hfeed : utf8 (init ++ ['\n']) = utf8 init ++ [10] := utf8_append init ['\n']
      refine .inr ?_
      rw [utf8_append, hfeed, List.length_append, List.length_singleton, Nat.add_sub_cancel,
        List.append_assoc, byteAt_append_of_le (Nat.le_refl _), Nat.sub_self]
      rfl
  · rw [utf8_append, utf8_append, byteAt_append_of_le hi, byteAt,
      List.getD_append _ _ _ _ (by omega)]
    intro hbyte
    have hmem := @byteAt_mem (utf8 line) (i - (utf8 above).length) (by omega)
    rw [byteAt, hbyte] at hmem
    exact hline (mem_utf8.mp hmem)
  · rcases hbelow with rfl | ⟨rest, rfl⟩
    · refine .inl ?_
      rw [htext]
      rfl
    · refine .inr ?_
      have hfeed : utf8 ('\n' :: rest) = 10 :: utf8 rest := rfl
      rw [utf8_append, utf8_append, byteAt_append_of_le (by omega), Nat.add_sub_cancel_left,
        byteAt_append_of_le (Nat.le_refl _), Nat.sub_self, hfeed]
      rfl

/-- **The server finds the places of an editor**: the offset of a place is where the characters
before it end. -/
theorem offsetAt_position {text : List Char} {i : ℕ} (h : Plain text) (hi : i ≤ text.length) :
    offsetAt (utf8 text) (positionIn text i) = (utf8 (text.take i)).length := by
  obtain ⟨above, tail, htake, hnone, habove, heq⟩ := exists_line h.noLoneReturn hi
  -- The rest of the line goes up to the next line feed.
  let rest := (text.drop i).takeWhile (· ≠ '\n')
  let below := (text.drop i).dropWhile (· ≠ '\n')
  have hdrop : text.drop i = rest ++ below := List.takeWhile_append_dropWhile.symm
  have htext : text = above ++ ((tail ++ rest) ++ below) := by
    rw [List.append_assoc, ← List.append_assoc, ← htake, ← hdrop, List.take_append_drop]
  have hrest : '\n' ∉ rest := by
    intro hmem
    simpa using List.mem_takeWhile_imp hmem
  have hbelow : below = [] ∨ ∃ after, below = '\n' :: after := by
    rcases hcases : below with - | ⟨c, after⟩
    · exact .inl rfl
    · have hhead := List.head?_dropWhile_not (fun c => decide (c ≠ '\n')) (text.drop i)
      rw [show (text.drop i).dropWhile (fun c => decide (c ≠ '\n')) = c :: after from hcases]
        at hhead
      exact .inr ⟨after, by simpa using hhead⟩
  have hline : '\n' ∉ tail ++ rest := by
    rw [List.mem_append, not_or]
    exact ⟨hnone, hrest⟩
  have hspan := @lineSpan_utf8 above (tail ++ rest) below (htext ▸ h.size) hline habove hbelow
  rw [← htext] at hspan
  have hbytes : utf8 text = utf8 above ++ (utf8 tail ++ (utf8 rest ++ utf8 below)) := by
    conv_lhs => rw [htext]
    rw [utf8_append, utf8_append, utf8_append, List.append_assoc]
  have hlength : (utf8 (text.take i)).length = (utf8 above).length + (utf8 tail).length := by
    rw [htake, utf8_append, List.length_append]
  have hlineLength : (utf8 (tail ++ rest)).length = (utf8 tail).length + (utf8 rest).length := by
    rw [utf8_append, List.length_append]
  have hboundary : utf16.Boundary
      (slice (utf8 text) (utf8 above).length ((utf8 above).length + (utf8 (tail ++ rest)).length))
      ((utf8 (text.take i)).length - (utf8 above).length) := by
    rw [hlength, hlineLength, Nat.add_sub_cancel_left, slice, Nat.add_sub_cancel_left, hbytes,
      List.drop_left, ← List.append_assoc (utf8 tail), ← List.length_append, List.take_left]
    exact reads_utf8.boundary tail (utf8 rest)
  have hweigh := offsetAt_weigh hspan (k := (utf8 (text.take i)).length) (by omega) (by omega)
    hboundary
  have hunits : utf16.weigh (slice (utf8 text) (utf8 above).length (utf8 (text.take i)).length)
      = utf16Units tail := by
    rw [hlength, slice, Nat.add_sub_cancel_left, hbytes, List.drop_left, List.take_left]
    exact reads_utf8.weigh_eq tail
  rw [hunits] at hweigh
  rw [heq]
  exact hweigh

end Pegium
