/-
Pegium/Lsp/TokenSegments.lean

Tokens of several lines.

Where the client takes no tokens of several lines, a token becomes one token for its
part of each line.  A client finds the bytes of these tokens by their positions, and
they are the bytes of the token without the line terminators: a line feed, or a carriage
return before one.  Only a carriage return that is the last byte of the token is kept.

Main result: `append_accepted_token_covers`.
-/
import Mathlib.Tactic.IntervalCases
import Pegium.Lsp.SemanticTokens

namespace Pegium.SemanticTokens

variable {text : List UInt8} {k line start stop : ℕ}

/-! ### Boundaries -/

/-- The bytes after the first of a code point are not ASCII. -/
theorem decodeOne_continued {bytes : List UInt8} (hpos : 0 < k)
    (hk : k < (decodeOneUtf8ToUtf16Units bytes).1) : ¬ byteAt bytes k < 0x80 := by
  unfold decodeOneUtf8ToUtf16Units at hk
  dsimp only at hk
  split_ifs at hk with h1 h2 h3
  · omega
  · omega
  · omega
  all_goals
    intro hlt
    have hlength : ¬ bytes.length < expectedLength (byteAt bytes 0) := fun h => h2 (.inr h)
    have hmem : byteAt bytes k ∈ (bytes.take (expectedLength (byteAt bytes 0))).tail := by
      have hlt : k < bytes.length := by omega
      have hget : byteAt bytes k = bytes[k] := by
        rw [byteAt, List.getD_eq_getElem?_getD, List.getElem?_eq_getElem hlt, Option.getD_some]
      rw [hget, List.mem_iff_getElem]
      refine ⟨k - 1, ?_, ?_⟩
      · rw [List.length_tail, List.length_take]
        omega
      · rw [List.getElem_tail, List.getElem_take]
        congr 1
        omega
    rw [Bool.not_eq_true, List.any_eq_false] at h3
    have hcontinued := h3 _ hmem
    rw [bne_iff_ne, ne_eq, not_not] at hcontinued
    have hle : (byteAt bytes k &&& 0xC0).toNat ≤ (byteAt bytes k).toNat := by
      rw [UInt8.toNat_and]
      exact Nat.and_le_left
    rw [hcontinued] at hle
    exact absurd (UInt8.lt_iff_toNat_lt.mp hlt) (Nat.not_lt.mpr hle)

/-- **A boundary is before each ASCII character.** -/
theorem boundary_ascii {bytes : List UInt8} (hk : k < bytes.length)
    (hbyte : byteAt bytes k < 0x80) : utf16.Boundary bytes k := by
  induction bytes using Decoder.weigh.induct utf16 generalizing k with
  | case1 => exact absurd hk (Nat.not_lt_zero k)
  | case2 b bs ih =>
    have hadvance : (utf16.decode (b :: bs)).1 = (decodeOneUtf8ToUtf16Units (b :: bs)).1 := rfl
    rcases Nat.lt_or_ge k (utf16.decode (b :: bs)).1 with hlt | hge
    · rcases Nat.eq_zero_or_pos k with rfl | hpos
      · exact .start _
      · exact absurd hbyte (decodeOne_continued hpos (hadvance ▸ hlt))
    · obtain ⟨m, rfl⟩ := Nat.exists_eq_add_of_le hge
      refine .step (ih ?_ ?_)
      · rw [List.length_drop]
        omega
      · rwa [byteAt, List.getD_eq_getElem?_getD, List.getElem?_drop, ← List.getD_eq_getElem?_getD]

theorem byteAt_slice (h : start + k < stop) :
    byteAt (slice text start stop) k = byteAt text (start + k) := by
  have hk : k < stop - start := by omega
  rw [slice, byteAt_take hk, byteAt, byteAt, List.getD_eq_getElem?_getD, List.getD_eq_getElem?_getD,
    List.getElem?_drop]

/-! ### The content of a line -/

/-- Where the content of a line ends. -/
def contentStop (text : List UInt8) (stop : ℕ) : ℕ :=
  if 0 < stop ∧ byteAt text (stop - 1) = 13 then stop - 1 else stop

/-- A line that a line feed ends: the next line begins behind it. -/
theorem next_line (h : LineSpan text line start stop) (hstop : stop < textSize text) :
    ∃ stop', LineSpan text (line + 1) (stop + 1) stop' := by
  have hfeed : byteAt text stop = 10 := h.ends.resolve_left (Nat.ne_of_lt hstop)
  have hline : newlinesBefore text (stop + 1) = line + 1 := by
    rw [newlinesBefore_succ, hfeed, h.newlinesBefore_eq h.start_le (Nat.le_refl _)]
    rfl
  obtain ⟨hspan, hle, hstop'⟩ := lineSpan_of_le (Nat.succ_le_of_lt hstop)
  rw [hline] at hspan hle hstop'
  generalize (lineStarts text (textSize text)).getD (line + 1) 0 = first at *
  -- the line feed is no part of the next line
  have hfirst : first = stop + 1 := by
    rcases Nat.eq_or_lt_of_le hle with heq | hlt
    · exact heq
    · exact absurd hfeed (hspan.inside stop (Nat.le_of_lt_succ hlt) (by omega))
  rw [hfirst] at hspan
  exact ⟨_, hspan⟩

theorem offsetAt_line (h : LineSpan text line start stop) : offsetAt text ⟨line, 0⟩ = start := by
  rw [offsetAt_eq h, Decoder.reach_zero, Nat.add_zero]

theorem next_line_start (hfit : LinesFit text) (h : LineSpan text line start stop)
    (hstop : stop < textSize text) :
    (line + 1) % uint32Size = line + 1 ∧ offsetAt text ⟨(line + 1) % uint32Size, 0⟩ = stop + 1 := by
  obtain ⟨stop', hnext⟩ := next_line h hstop
  have hmono := newlinesBefore_mono text (Nat.le_trans hnext.start_le hnext.stop_le)
  rw [hnext.line_eq] at hmono
  have hmod : (line + 1) % uint32Size = line + 1 := by
    refine Nat.mod_eq_of_lt ?_
    unfold LinesFit at hfit
    omega
  rw [hmod]
  exact ⟨rfl, offsetAt_line hnext⟩

/-- **The content of a line** ends before its terminator. -/
theorem line_content_end_offset_eq (hfit : LinesFit text) (h : LineSpan text line start stop)
    (hstop : stop < textSize text) : line_content_end_offset text line = contentStop text stop := by
  have hfeed : byteAt text stop = 10 := h.ends.resolve_left (Nat.ne_of_lt hstop)
  have hsize : textSize text ≤ text.length := Nat.min_le_left _ _
  unfold line_content_end_offset contentStop
  rw [(next_line_start hfit h hstop).2]
  dsimp only
  rw [if_neg (Nat.succ_ne_zero stop), Nat.add_sub_cancel,
    @if_pos (stop + 1 ≤ text.length ∧ byteAt text stop = 10) _ ⟨by omega, hfeed⟩]
  have hle : stop ≤ text.length := by omega
  by_cases hreturn : 0 < stop ∧ byteAt text (stop - 1) = 13
  · rw [if_pos hreturn, if_pos ⟨hreturn.1, hle, hreturn.2⟩]
  · rw [if_neg hreturn, if_neg]
    exact fun hcase => hreturn ⟨hcase.1, hcase.2.2⟩

theorem contentStop_bounds (h : LineSpan text line start stop) :
    start ≤ contentStop text stop ∧ contentStop text stop ≤ stop := by
  have hle := h.start_le
  unfold contentStop
  split_ifs with hreturn
  · refine ⟨?_, Nat.sub_le _ _⟩
    -- the carriage return is on the line
    rcases Nat.eq_or_lt_of_le hle with heq | hlt
    · rcases h.begins with hzero | hfeed
      · omega
      · rw [heq, hreturn.2] at hfeed
        exact absurd hfeed (by decide)
    · omega
  · exact ⟨hle, Nat.le_refl _⟩

/-! ### The bytes of a token -/

/-- A byte that a client finds in the tokens. -/
def Covers (text : List UInt8) (tokens : List EncodedSemanticToken) (k : ℕ) : Prop :=
  ∃ token ∈ tokens, offsetAt text token.position ≤ k ∧
    k < offsetAt text ⟨token.line, token.character + token.length⟩

/-- A line feed, or a carriage return before one that is in the token as well. -/
def Terminator (text : List UInt8) (endOffset k : ℕ) : Prop :=
  byteAt text k = 10 ∨ byteAt text k = 13 ∧ k + 1 < endOffset ∧ byteAt text (k + 1) = 10

theorem covers_append (tokens tokens' : List EncodedSemanticToken) :
    Covers text (tokens ++ tokens') k ↔ Covers text tokens k ∨ Covers text tokens' k := by
  unfold Covers
  constructor
  · rintro ⟨token, hmem, hcover⟩
    exact (List.mem_append.mp hmem).imp (fun h => ⟨token, h, hcover⟩) fun h => ⟨token, h, hcover⟩
  · rintro (⟨token, hmem, hcover⟩ | ⟨token, hmem, hcover⟩)
    · exact ⟨token, List.mem_append_left _ hmem, hcover⟩
    · exact ⟨token, List.mem_append_right _ hmem, hcover⟩

/-- The columns up to two places of a line differ by what is between them. -/
theorem weigh_slice_add {s t : ℕ} (hs : start ≤ s) (hst : s ≤ t) (ht : t ≤ stop)
    (hboundary : utf16.Boundary (slice text start stop) (s - start)) :
    utf16.weigh (slice text start t)
      = utf16.weigh (slice text start s) + utf16_length (slice text s t) := by
  have hadd := Decoder.weigh_take_add hboundary (Nat.sub_le_sub_right hst start)
  have hdrop : ((slice text start stop).drop (s - start)).take (t - start - (s - start))
      = slice text s t := by
    rw [slice, slice, List.drop_take, List.drop_drop, List.take_take, Nat.add_sub_cancel' hs]
    congr 1
    omega
  rwa [← slice_take text ht, ← slice_take text (Nat.le_trans hst ht), hdrop] at hadd

/-- **The part of a token on a line** is the bytes from one boundary to another. -/
theorem covers_part (h : LineSpan text line start stop) {s t type modifiers : ℕ} (hs : start ≤ s)
    (hst : s ≤ stop) (ht : t ≤ stop)
    (hboundary : utf16.Boundary (slice text start stop) (s - start))
    (hboundary' : start ≤ t → utf16.Boundary (slice text start stop) (t - start)) :
    Covers text (append_encoded_token line (utf16.weigh (slice text start s))
      (utf16_length_between_offsets text s t) type modifiers) k ↔ s ≤ k ∧ k < t := by
  have hstart := offsetAt_weigh h hs hst hboundary
  unfold utf16_length_between_offsets
  split
  next hle =>
    rw [append_encoded_token, if_pos rfl]
    refine iff_of_false ?_ (by omega)
    rintro ⟨token, hmem, -⟩
    exact nomatch hmem
  next hlt =>
    have hparts := weigh_slice_add hs (by omega) ht hboundary
    have hstop := offsetAt_weigh h (by omega) ht (hboundary' (by omega))
    rw [hparts] at hstop
    have hlength : utf16_length (slice text s t) ≠ 0 := by
      intro hzero
      rw [hzero, Nat.add_zero, hstart] at hstop
      omega
    rw [append_encoded_token, if_neg hlength]
    constructor
    · rintro ⟨token, hmem, hcover⟩
      rw [List.mem_singleton.mp hmem] at hcover
      exact ⟨hstart ▸ hcover.1, hstop ▸ hcover.2⟩
    · rintro ⟨hle, hlt⟩
      refine ⟨_, List.mem_singleton_self _, ?_, ?_⟩
      · exact Nat.le_trans (Nat.le_of_eq hstart) hle
      · exact Nat.lt_of_lt_of_le hlt (Nat.le_of_eq hstop.symm)

/-- The content of a line ends at a boundary. -/
theorem boundary_contentStop (h : LineSpan text line start stop) :
    utf16.Boundary (slice text start stop) (contentStop text stop - start) := by
  have hlength := length_slice h.start_le h.stop_le
  obtain ⟨hle, hle'⟩ := contentStop_bounds h
  unfold contentStop at hle ⊢
  split_ifs at hle ⊢ with hreturn
  · have hbyte : byteAt (slice text start stop) (stop - 1 - start) = 13 := by
      rw [byteAt_slice (by omega), Nat.add_sub_cancel' hle]
      exact hreturn.2
    exact boundary_ascii (by omega) (by rw [hbyte]; decide)
  · rw [← hlength]
    exact Decoder.boundary_length _

/-- The bytes of a line that are in the content of a token that goes on. -/
theorem content_iff (h : LineSpan text line start stop) {endOffset : ℕ}
    (hend : stop + 1 ≤ endOffset) (hstop : byteAt text stop = 10) (hk : start ≤ k)
    (hk' : k ≤ stop) : k < contentStop text stop ↔ ¬ Terminator text endOffset k := by
  obtain ⟨hle, hle'⟩ := contentStop_bounds h
  unfold Terminator
  rcases Nat.lt_or_eq_of_le hk' with hlt | rfl
  · have hinside := h.inside k hk hlt
    have hnext : byteAt text (k + 1) = 10 ↔ k + 1 = stop := by
      constructor
      · intro hfeed
        by_contra hne
        exact h.inside (k + 1) (by omega) (by omega) hfeed
      · rintro rfl
        exact hstop
    rw [hnext]
    unfold contentStop at hle hle' ⊢
    split_ifs at hle hle' ⊢ with hreturn
    · constructor
      · rintro hbefore (hfeed | ⟨-, -, hlast⟩)
        · exact hinside hfeed
        · omega
      · intro hnot
        by_contra hge
        have hlast : k = stop - 1 := by omega
        exact hnot (.inr ⟨hlast ▸ hreturn.2, by omega, by omega⟩)
    · refine iff_of_true hlt ?_
      rintro (hfeed | ⟨hcr, -, hlast⟩)
      · exact hinside hfeed
      · refine hreturn ⟨by omega, ?_⟩
        rw [← hlast, Nat.add_sub_cancel]
        exact hcr
  · exact iff_of_false (by omega) fun hnot => hnot (.inl hstop)

/-! ### The loop over the lines -/

theorem line_of_mem_append_segments {endLine endOffset type modifiers n s line character : ℕ}
    {encoded : EncodedSemanticToken} (hfit : line + n < uint32Size) (hend : endLine = line + n)
    (h : encoded ∈ append_segments text endLine endOffset type modifiers n s line character) :
    line ≤ encoded.line := by
  induction n generalizing s line character with
  | zero =>
    obtain ⟨rfl, -⟩ := mem_append_encoded_token h
    exact Nat.le_of_eq hend.symm
  | succ n ih =>
    rw [append_segments, Nat.mod_eq_of_lt (by omega), List.mem_append] at h
    rcases h with h | h
    · obtain ⟨rfl, -⟩ := mem_append_encoded_token h
      exact Nat.le_refl line
    · exact Nat.le_of_succ_le (ih (by omega) (by omega) h)

/-- One token a line. -/
theorem append_segments_lines {endLine endOffset type modifiers n s line character : ℕ}
    (hfit : line + n < uint32Size) (hend : endLine = line + n) :
    (append_segments text endLine endOffset type modifiers n s line character).Pairwise
      fun a b => a.line < b.line := by
  induction n generalizing s line character with
  | zero =>
    rw [append_segments, append_encoded_token]
    split <;> simp
  | succ n ih =>
    have hmod : (line + 1) % uint32Size = line + 1 := Nat.mod_eq_of_lt (by omega)
    rw [append_segments, hmod, List.pairwise_append]
    refine ⟨?_, ih (by omega) (by omega), fun a ha b hb => ?_⟩
    · rw [append_encoded_token]
      split <;> simp
    · obtain ⟨rfl, -⟩ := mem_append_encoded_token ha
      have hle : line + 1 ≤ b.line := line_of_mem_append_segments (by omega) (by omega) hb
      exact hle

/-- **The loop covers the bytes of the token** from where it is on. -/
theorem append_segments_covers (hfit : LinesFit text) {endLine endOffset type modifiers : ℕ}
    (hend : DecodeBoundary text endLine endOffset) {n s line start stop : ℕ}
    (hline : endLine = line + n) (h : LineSpan text line start stop) (hs : start ≤ s)
    (hst : s ≤ stop) (hboundary : utf16.Boundary (slice text start stop) (s - start))
    (hlast : n = 0 → s = start) :
    Covers text (append_segments text endLine endOffset type modifiers n s line
        (utf16.weigh (slice text start s))) k ↔
      s ≤ k ∧ k < endOffset ∧ ¬ Terminator text endOffset k := by
  obtain ⟨endStart, endStop, hendSpan, hendStart, hendStop, hendBoundary⟩ := hend
  induction n generalizing s line start stop with
  | zero =>
    obtain rfl : s = start := hlast rfl
    subst hline
    obtain ⟨rfl, rfl⟩ := h.unique hendSpan
    have hzero : utf16.weigh (slice text s s) = 0 := by
      rw [slice, Nat.sub_self, List.take_zero, Decoder.weigh_nil]
    have hpart := @covers_part text k _ _ _ h s endOffset type modifiers hs hst hendStop hboundary
      fun _ => hendBoundary
    rw [hzero] at hpart
    rw [append_segments, hpart]
    refine ⟨fun hk => ⟨hk.1, hk.2, ?_⟩, fun hk => ⟨hk.1, hk.2.1⟩⟩
    -- no line feed is before the end of the token on this line
    rintro (hfeed | ⟨-, hlt, hfeed⟩)
    · exact h.inside k hk.1 (by omega) hfeed
    · exact h.inside (k + 1) (by omega) (by omega) hfeed
  | succ n ih =>
    have hbefore : stop + 1 ≤ endOffset := by
      by_contra hlt
      have hsame : newlinesBefore text endOffset ≤ newlinesBefore text stop :=
        newlinesBefore_mono text (by omega)
      rw [h.newlinesBefore_eq h.start_le (Nat.le_refl stop),
        hendSpan.newlinesBefore_eq hendStart hendStop] at hsame
      omega
    have hstop : stop < textSize text := by
      have hle := hendSpan.stop_le
      omega
    have hfeed : byteAt text stop = 10 := h.ends.resolve_left (Nat.ne_of_lt hstop)
    obtain ⟨hmod, hstart⟩ := next_line_start hfit h hstop
    obtain ⟨stop', hnext⟩ := next_line h hstop
    have hzero : utf16.weigh (slice text (stop + 1) (stop + 1)) = 0 := by
      rw [slice, Nat.sub_self, List.take_zero, Decoder.weigh_nil]
    have hrest := ih (by omega) hnext (Nat.le_refl _) hnext.start_le
      (by rw [Nat.sub_self]; exact .start _) fun _ => rfl
    rw [hzero] at hrest
    obtain ⟨hle, hle'⟩ := contentStop_bounds h
    rw [append_segments, hstart, hmod, line_content_end_offset_eq hfit h hstop, covers_append,
      covers_part h hs hst hle' hboundary fun _ => boundary_contentStop h, hrest]
    rcases Nat.lt_or_ge stop k with hlt | hge
    · constructor
      · rintro (hk | hk)
        · omega
        · exact ⟨by omega, hk.2⟩
      · exact fun hk => .inr ⟨hlt, hk.2⟩
    · constructor
      · rintro (hk | hk)
        · exact ⟨hk.1, by omega, (content_iff h hbefore hfeed (by omega) hge).mp hk.2⟩
        · omega
      · rintro ⟨hsk, -, hnot⟩
        exact .inl ⟨hsk, (content_iff h hbefore hfeed (by omega) hge).mpr hnot⟩

theorem exists_findIdx? {type : String} (h : type ∈ semanticTokenTypes) :
    ∃ index, semanticTokenTypes.findIdx? (· == type) = some index := by
  rw [← Option.isSome_iff_exists, List.findIdx?_isSome, List.any_eq_true]
  exact ⟨type, h, beq_self_eq_true _⟩

section Stretch

variable (hfit : LinesFit text) {lineBegin lineEnd b e : ℕ} (hb : DecodeBoundary text lineBegin b)
  (he : DecodeBoundary text lineEnd e) (hlt : b < e) {token : SemanticTokenInfo}
  (htype : token.type ∈ semanticTokenTypes) (hrange : token.range = to_lsp_range text (b, e))

include hb he hlt in
/-- The lines of a stretch. -/
theorem stretch_lines : lineBegin ≤ lineEnd ∧ (LinesFit text → lineEnd < uint32Size) := by
  obtain ⟨start, stop, hspan, hle, hstop, -⟩ := hb
  obtain ⟨start', stop', hspan', hle', hstop', -⟩ := he
  constructor
  · rw [← hspan.newlinesBefore_eq hle hstop, ← hspan'.newlinesBefore_eq hle' hstop']
    exact newlinesBefore_mono text (Nat.le_of_lt hlt)
  · intro hfit
    have hmono := newlinesBefore_mono text hspan'.stop_le
    rw [hspan'.newlinesBefore_eq hspan'.start_le (Nat.le_refl _)] at hmono
    unfold LinesFit at hfit
    omega

include hfit hb he hlt htype hrange

/-- What is appended for a stretch of the text, with the column where it begins. -/
theorem append_accepted_token_eq :
    ∃ start stop type modifiers, LineSpan text lineBegin start stop ∧ start ≤ b ∧ b ≤ stop ∧
      utf16.Boundary (slice text start stop) (b - start) ∧
      append_accepted_token text false token =
        if lineBegin = lineEnd then
          append_encoded_token lineBegin (utf16.weigh (slice text start b))
            (utf16_length_between_offsets text b e) type modifiers
        else
          append_segments text lineEnd e type modifiers (lineEnd - lineBegin) b lineBegin
            (utf16.weigh (slice text start b)) := by
  have hbegin := (converts_of_fit hfit).offset_position _ _ hb
  have hend := (converts_of_fit hfit).offset_position _ _ he
  obtain ⟨start, stop, hspan, hle, hstop, hboundary⟩ := hb
  have hpos := positionAt_eq hfit hspan hle hstop
  obtain ⟨start', stop', hspan', hle', hstop', -⟩ := he
  have hpos' := positionAt_eq hfit hspan' hle' hstop'
  obtain ⟨type, hindex⟩ := exists_findIdx? htype
  refine ⟨start, stop, type, modifierBits token.modifiers, hspan, hle, hstop, hboundary, ?_⟩
  unfold append_accepted_token
  rw [hindex, hrange]
  dsimp only [to_lsp_range]
  rw [hbegin, hend, if_neg (Nat.not_le.mpr hlt), hpos, hpos']
  dsimp only
  split
  next hsame =>
    -- on one line the columns are those of the two ends
    subst hsame
    obtain ⟨rfl, rfl⟩ := hspan.unique hspan'
    have hcolumn := weigh_slice_add hle (Nat.le_of_lt hlt) hstop' hboundary
    have hbound : utf16.weigh (slice text start e) < uint32Size :=
      weigh_lt_size hle' (Nat.le_trans hstop' hspan.stop_le)
    rw [sub32_eq (by omega) hbound, hcolumn, Nat.add_sub_cancel_left,
      utf16_length_between_offsets, if_neg (Nat.not_le.mpr hlt)]
  next hne => rw [if_neg Bool.false_ne_true]

/-- One piece of a stretch a line. -/
theorem accepted_lines :
    (append_accepted_token text false token).Pairwise fun a b => a.line < b.line := by
  obtain ⟨hlines, hlast⟩ := stretch_lines hb he hlt
  obtain ⟨start, stop, type, modifiers, -, -, -, -, heq⟩ :=
    append_accepted_token_eq hfit hb he hlt htype hrange
  rw [heq]
  split
  · rw [append_encoded_token]
    split <;> simp
  · have hcount := hlast hfit
    exact append_segments_lines (by omega) (by omega)

/-- The bytes of the pieces of a stretch. -/
theorem accepted_covers :
    Covers text (append_accepted_token text false token) k ↔
      b ≤ k ∧ k < e ∧ (lineBegin ≠ lineEnd → ¬ Terminator text e k) := by
  obtain ⟨hlines, -⟩ := stretch_lines hb he hlt
  obtain ⟨start, stop, type, modifiers, hspan, hle, hstop, hboundary, heq⟩ :=
    append_accepted_token_eq hfit hb he hlt htype hrange
  rw [heq]
  split
  next hsame =>
    subst hsame
    obtain ⟨start', stop', hspan', hle', hstop', hboundary'⟩ := he
    obtain ⟨rfl, rfl⟩ := hspan.unique hspan'
    rw [covers_part hspan hle hstop hstop' hboundary fun _ => hboundary']
    simp
  next hne =>
    have hcount : lineEnd = lineBegin + (lineEnd - lineBegin) := by omega
    rw [append_segments_covers hfit he hcount hspan hle hstop hboundary (by omega)]
    simp [hne]

end Stretch

/-- **The bytes of a token** are found by a client that takes no tokens of several lines, but
for the line terminators, with one token a line. -/
theorem append_accepted_token_covers (hfit : LinesFit text) {lineBegin lineEnd b e : ℕ}
    (hb : DecodeBoundary text lineBegin b) (he : DecodeBoundary text lineEnd e) (hlt : b < e)
    {token : SemanticTokenInfo} (htype : token.type ∈ semanticTokenTypes)
    (hrange : token.range = to_lsp_range text (b, e)) :
    (append_accepted_token text false token).Pairwise (fun a b => a.line < b.line) ∧
      ∀ k, Covers text (append_accepted_token text false token) k ↔
        b ≤ k ∧ k < e ∧ (lineBegin ≠ lineEnd → ¬ Terminator text e k) :=
  ⟨accepted_lines hfit hb he hlt htype hrange,
    fun _ => accepted_covers hfit hb he hlt htype hrange⟩

/-- Two letters on two lines: the terminator between them is not highlighted. -/
theorem append_accepted_token_covers_crlf :
    {k | Covers [97, 13, 10, 98] (append_accepted_token [97, 13, 10, 98] false
      ⟨to_lsp_range [97, 13, 10, 98] (0, 4), "keyword", []⟩) k} = {0, 3} := by
  ext k
  have hfirst : LineSpan [97, 13, 10, 98] 0 0 2 := by
    refine ⟨by decide, by decide, by decide, .inl rfl, fun i _ hi => ?_, .inr (by decide)⟩
    interval_cases i <;> decide
  have hsecond : LineSpan [97, 13, 10, 98] 1 3 4 := by
    refine ⟨by decide, by decide, by decide, .inr (by decide), fun i hi hi' => ?_, .inl (by decide)⟩
    interval_cases i
    decide
  have hend : utf16.Boundary (slice [97, 13, 10, 98] 3 4) (4 - 3) :=
    Decoder.boundary_length (D := utf16) (slice [97, 13, 10, 98] 3 4)
  have hfit : LinesFit [97, 13, 10, 98] := by
    unfold LinesFit
    decide
  have hcovers := @append_accepted_token_covers [97, 13, 10, 98] hfit 0 1 0 4
    ⟨0, 2, hfirst, by decide, by decide, .start _⟩ ⟨3, 4, hsecond, by decide, by decide, hend⟩
    (by decide) ⟨to_lsp_range [97, 13, 10, 98] (0, 4), "keyword", []⟩
    (by simp [semanticTokenTypes]) rfl
  show Covers _ _ k ↔ k = 0 ∨ k = 3
  rw [hcovers.2 k]
  constructor
  · rintro ⟨-, hlt, hnot⟩
    have hterminator := hnot (by decide)
    interval_cases k
    · exact .inl rfl
    · exact absurd (.inr ⟨by decide, by decide, by decide⟩) hterminator
    · exact absurd (.inl (by decide)) hterminator
    · exact .inr rfl
  · rintro (rfl | rfl)
    · exact ⟨by decide, by decide, fun _ => by unfold Terminator; decide⟩
    · exact ⟨by decide, by decide, fun _ => by unfold Terminator; decide⟩

end Pegium.SemanticTokens
