/-
Pegium/Lsp/FormattedComments.lean

The lines of a formatted comment.

Behind the prefix of a line is its text, or for a continuation the prefix of
continuations and the text (`exists_written`).  The loop over the lines keeps their
words (`words_formatLines`), and it finds its lines again in their texts: with blank
lines always, and without them if no text was set apart from a tag before it.

Main results: `formatLines_again` and `formatLines_again_iff`.
-/
import Pegium.Lsp.AbstractFormatter

namespace Pegium.Formatting

open Documentation (get_lines rawLines dropReturn)
open Words (words Tight)

variable {options : MultilineCommentFormatOptions} {line text body : List UInt8}
  {lines : List (List UInt8)} {formatted : FormattedCommentLine}
  {previousWasTag seen : Bool} {blankRun : ℕ}

/-! ### What is written for a line -/

/-- What is appended for a line behind the line feed. -/
def written (options : MultilineCommentFormatOptions) (line : FormattedCommentLine) : List UInt8 :=
  match line.kind with
  | .blank => options.newLineStart
  | .tagContinuation =>
    append_prefixed_comment_line [] (options.newLineStart ++ options.tagContinuation) line.text
  | .tag | .text => append_prefixed_comment_line [] options.newLineStart line.text

theorem append_prefixed_comment_line_eq (result lead text : List UInt8) :
    append_prefixed_comment_line result lead text
      = result ++ append_prefixed_comment_line [] lead text := by
  unfold append_prefixed_comment_line
  split
  · rfl
  · rw [List.nil_append, List.append_assoc]

theorem appendLine_eq (result : List UInt8) (line : FormattedCommentLine) :
    appendLine options result line = result ++ 10 :: written options line := by
  unfold appendLine written
  cases line.kind with
  | blank => exact List.append_assoc _ _ _
  | tagContinuation =>
    show append_prefixed_comment_line _ _ _ = _
    rw [append_prefixed_comment_line_eq, List.append_assoc]
    rfl
  | tag =>
    show append_prefixed_comment_line _ _ _ = _
    rw [append_prefixed_comment_line_eq, List.append_assoc]
    rfl
  | text =>
    show append_prefixed_comment_line _ _ _ = _
    rw [append_prefixed_comment_line_eq, List.append_assoc]
    rfl

theorem foldl_appendLine (result : List UInt8) (lines : List FormattedCommentLine) :
    lines.foldl (appendLine options) result
      = result ++ lines.flatMap fun line => 10 :: written options line := by
  induction lines generalizing result with
  | nil => simp
  | cons line lines ih =>
    rw [List.foldl_cons, ih, appendLine_eq, List.flatMap_cons, List.append_assoc]

/-- The prefix gets a space behind it unless there is a blank, or no prefix at all. -/
theorem leadOf_cases (lead : List UInt8) :
    leadOf lead = lead ++ [32] ∨ leadOf lead = lead ∧
      (lead = [] ∨ ∃ before ch, lead = before ++ [ch] ∧ is_horizontal_whitespace ch = true) := by
  unfold leadOf
  split
  next h =>
    refine .inr ⟨rfl, ?_⟩
    rcases List.eq_nil_or_concat lead with rfl | ⟨before, ch, rfl⟩
    · exact .inl rfl
    · rw [List.concat_eq_append] at h ⊢
      refine .inr ⟨before, ch, rfl, ?_⟩
      simpa using h
  next => exact .inl rfl

/-- What is behind the prefix of a line: its words, after those of the prefix for a
continuation, and its text alone if that prefix is blank. -/
structure Behind (options : MultilineCommentFormatOptions) (formatted : FormattedCommentLine)
    (rest : List UInt8) : Prop where
  words : words is_horizontal_whitespace rest
    = (if formatted.kind = .tagContinuation then
        words is_horizontal_whitespace options.tagContinuation else [])
      ++ words is_horizontal_whitespace formatted.text
  trim : (formatted.kind = .tagContinuation →
      ∀ ch ∈ options.tagContinuation, is_horizontal_whitespace ch = true) →
    trim_horizontal rest = trim_horizontal formatted.text

theorem spaces_blank : ∀ ch ∈ [32], is_horizontal_whitespace ch = true := by
  simp [space_blank]

theorem behind_plain (hkind : formatted.kind ≠ .tagContinuation) :
    ∃ rest, append_prefixed_comment_line [] options.newLineStart formatted.text
      = options.newLineStart ++ rest ∧ Behind options formatted rest := by
  have hwords : ∀ rest, words is_horizontal_whitespace rest
        = words is_horizontal_whitespace formatted.text →
      trim_horizontal rest = trim_horizontal formatted.text → Behind options formatted rest := by
    intro rest hwords htrim
    exact ⟨by rw [hwords, if_neg hkind, List.nil_append], fun _ => htrim⟩
  rw [append_prefixed_comment_line]
  split
  next hempty =>
    refine ⟨[], by simp, hwords [] ?_ ?_⟩
    · rw [List.isEmpty_iff.mp hempty]
    · rw [List.isEmpty_iff.mp hempty]
  next =>
    rcases leadOf_cases options.newLineStart with hlead | ⟨hlead, -⟩
    · refine ⟨[32] ++ formatted.text, by rw [hlead]; simp, hwords _ ?_ ?_⟩
      · exact Words.words_blank_append spaces_blank _
      · exact Words.trim_blank_append spaces_blank _
    · exact ⟨formatted.text, by rw [hlead]; rfl, hwords _ rfl rfl⟩

theorem behind_continuation (hkind : formatted.kind = .tagContinuation) :
    ∃ rest, append_prefixed_comment_line [] (options.newLineStart ++ options.tagContinuation)
      formatted.text = options.newLineStart ++ rest ∧ Behind options formatted rest := by
  rw [append_prefixed_comment_line]
  split
  next hempty =>
    refine ⟨options.tagContinuation, by simp, ?_, fun hall => ?_⟩
    · rw [if_pos hkind, List.isEmpty_iff.mp hempty, Words.words_nil, List.append_nil]
    · rw [List.isEmpty_iff.mp hempty]
      exact Words.trim_eq_nil (hall hkind)
  next =>
    rcases leadOf_cases (options.newLineStart ++ options.tagContinuation) with
      hlead | ⟨hlead, hcase⟩
    · refine ⟨options.tagContinuation ++ ([32] ++ formatted.text), by rw [hlead]; simp, ?_, ?_⟩
      · rw [if_pos hkind]
        exact Words.words_append_cons space_blank _ _
      · intro hall
        have hspace : trim_horizontal ([32] ++ formatted.text) = trim_horizontal formatted.text :=
          Words.trim_blank_append spaces_blank _
        exact (Words.trim_blank_append (hall hkind) _).trans hspace
    · refine ⟨options.tagContinuation ++ formatted.text, by rw [hlead]; simp, ?_, ?_⟩
      · -- the prefix of the continuation is empty or ends with a blank
        rw [if_pos hkind]
        rcases List.eq_nil_or_concat options.tagContinuation with hnil | ⟨before, ch, hlast⟩
        · rw [hnil, Words.words_nil]
          rfl
        · rw [List.concat_eq_append] at hlast
          have hch : is_horizontal_whitespace ch = true := by
            rw [hlast] at hcase
            rcases hcase with hnil | ⟨before', ch', heq, hch⟩
            · simp at hnil
            · rw [← List.append_assoc] at heq
              have hsame := (List.append_inj' heq rfl).2
              rw [List.singleton_inj] at hsame
              rwa [hsame]
          rw [hlast, List.append_assoc, List.singleton_append, Words.words_append_cons hch,
            Words.words_append_cons hch, Words.words_nil, List.append_nil]
      · exact fun hall => Words.trim_blank_append (hall hkind) _

/-- **What is written** is the prefix of the options and what is behind it. -/
theorem exists_written (hblank : formatted.kind = .blank → formatted.text = []) :
    ∃ rest, written options formatted = options.newLineStart ++ rest ∧
      Behind options formatted rest := by
  unfold written
  split
  next hkind =>
    refine ⟨[], by simp, ?_, fun _ => ?_⟩
    · rw [hkind, if_neg (by simp), hblank hkind]
      rfl
    · rw [hblank hkind]
  next hkind => exact behind_continuation hkind
  next hkind => exact behind_plain (by simp [hkind])
  next hkind => exact behind_plain (by simp [hkind])

/-! ### The loop over the lines -/

/-- A line and what the loop makes of it. -/
structure Formats (options : MultilineCommentFormatOptions) (line : List UInt8)
    (formatted : FormattedCommentLine) : Prop where
  text : formatted.text = lineText options line
  tag : formatted.kind = .tag ↔ tagLine options line = true
  visible : formatted.kind ≠ .blank

/-- A continuation, in the lines behind a tag and up to the next blank line. -/
def continues (options : MultilineCommentFormatOptions) : Bool → List (List UInt8) → Bool
  | _, [] => false
  | previousWasTag, line :: rest =>
    if line.isEmpty then continues options false rest
    else if tagLine options line then continues options true rest
    else previousWasTag || continues options previousWasTag rest

/-- Text that was set apart from a tag before it by blank lines. -/
def loosens (options : MultilineCommentFormatOptions) : Bool → Bool → List (List UInt8) → Bool
  | _, _, [] => false
  | seen, previousWasTag, line :: rest =>
    if line.isEmpty then loosens options seen false rest
    else if tagLine options line then loosens options true true rest
    else (seen && !previousWasTag) || loosens options seen previousWasTag rest

theorem formatLines_nil (rest : List (List UInt8)) :
    formatLines options blankRun previousWasTag ([] :: rest)
      = (if blankRun < options.maxBlankLines then [⟨.blank, []⟩] else []) ++
        formatLines options (blankRun + 1) false rest := by
  rw [formatLines, if_pos (by rfl)]

theorem formatLines_tag (hne : line ≠ []) (htag : tagLine options line = true)
    (rest : List (List UInt8)) :
    formatLines options blankRun previousWasTag (line :: rest)
      = ⟨.tag, lineText options line⟩ :: formatLines options 0 true rest := by
  have htext : lineText options line = normalize_tag_line line options := if_pos htag
  unfold tagLine at htag
  rw [formatLines, if_neg (by simpa using hne), htext]
  exact if_pos htag

theorem formatLines_text (hne : line ≠ []) (htag : tagLine options line = false)
    (rest : List (List UInt8)) :
    formatLines options blankRun previousWasTag (line :: rest)
      = ⟨if previousWasTag then .tagContinuation else .text, lineText options line⟩ ::
        formatLines options 0 previousWasTag rest := by
  have htext : lineText options line = normalize_line_text line options :=
    if_neg (Bool.eq_false_iff.mp htag)
  unfold tagLine at htag
  rw [formatLines, if_neg (by simpa using hne), htext]
  exact if_neg (Bool.eq_false_iff.mp htag)

theorem formats_tag (htag : tagLine options line = true) :
    Formats options line ⟨.tag, lineText options line⟩ :=
  ⟨rfl, by simp [htag], by simp⟩

theorem formats_text (htag : tagLine options line = false) :
    Formats options line
      ⟨if previousWasTag then .tagContinuation else .text, lineText options line⟩ := by
  refine ⟨rfl, ?_, ?_⟩
  · rw [htag]
    cases previousWasTag <;> simp
  · cases previousWasTag <;> simp

/-- What one line adds, and how the loop goes on. -/
theorem formatLines_cons (hne : line ≠ []) (rest : List (List UInt8)) :
    ∃ formatted next, formatLines options blankRun previousWasTag (line :: rest)
      = formatted :: formatLines options 0 next rest ∧ Formats options line formatted := by
  cases htag : tagLine options line with
  | true => exact ⟨_, _, formatLines_tag hne htag rest, formats_tag htag⟩
  | false => exact ⟨_, _, formatLines_text hne htag rest, formats_text htag⟩

theorem mem_formatLines (h : formatted ∈ formatLines options blankRun previousWasTag lines) :
    formatted = ⟨.blank, []⟩ ∨ ∃ line ∈ lines, line ≠ [] ∧ Formats options line formatted := by
  induction lines generalizing blankRun previousWasTag with
  | nil => exact nomatch h
  | cons line rest ih =>
    have hrest : (formatted = ⟨.blank, []⟩ ∨
          ∃ line ∈ rest, line ≠ [] ∧ Formats options line formatted) →
        formatted = ⟨.blank, []⟩ ∨
          ∃ next ∈ line :: rest, next ≠ [] ∧ Formats options next formatted := by
      rintro (hblank | ⟨next, hmem, hnext⟩)
      · exact .inl hblank
      · exact .inr ⟨next, List.mem_cons_of_mem _ hmem, hnext⟩
    by_cases hne : line = []
    · subst hne
      rw [formatLines_nil, List.mem_append] at h
      rcases h with h | h
      · split at h
        · exact .inl (List.mem_singleton.mp h)
        · exact nomatch h
      · exact hrest (ih h)
    · obtain ⟨head, next, heq, hformats⟩ := @formatLines_cons options line previousWasTag blankRun
        hne rest
      rw [heq] at h
      rcases List.mem_cons.mp h with rfl | h
      · exact .inr ⟨line, List.mem_cons_self, hne, hformats⟩
      · exact hrest (ih h)

theorem exists_formatted (hline : line ∈ lines) (hne : line ≠ []) :
    ∃ formatted ∈ formatLines options blankRun previousWasTag lines,
      Formats options line formatted := by
  induction lines generalizing blankRun previousWasTag with
  | nil => exact nomatch hline
  | cons head rest ih =>
    by_cases hhead : head = []
    · subst hhead
      rw [formatLines_nil]
      rcases List.mem_cons.mp hline with rfl | hline
      · exact absurd rfl hne
      · obtain ⟨formatted, hmem, hformats⟩ := ih hline
        exact ⟨formatted, List.mem_append_right _ hmem, hformats⟩
    · obtain ⟨formatted, next, heq, hformats⟩ :=
        @formatLines_cons options head previousWasTag blankRun hhead rest
      rw [heq]
      rcases List.mem_cons.mp hline with rfl | hline
      · exact ⟨formatted, List.mem_cons_self, hformats⟩
      · obtain ⟨other, hmem, hother⟩ := ih hline
        exact ⟨other, List.mem_cons_of_mem _ hmem, hother⟩

/-- **The loop keeps the words.** -/
theorem words_formatLines :
    ((formatLines options blankRun previousWasTag lines).flatMap fun formatted =>
        words is_horizontal_whitespace formatted.text)
      = lines.flatMap (words is_horizontal_whitespace) := by
  induction lines generalizing blankRun previousWasTag with
  | nil => rfl
  | cons line rest ih =>
    by_cases hne : line = []
    · subst hne
      rw [formatLines_nil, List.flatMap_append, ih, List.flatMap_cons, Words.words_nil]
      split <;> simp
    · obtain ⟨formatted, next, heq, hformats⟩ :=
        @formatLines_cons options line previousWasTag blankRun hne rest
      rw [heq, List.flatMap_cons, List.flatMap_cons, ih, hformats.text, words_lineText]

/-- With as many lines as it was given, the loop dropped none. -/
theorem formatLines_full
    (h : lines.length ≤ (formatLines options blankRun previousWasTag lines).length) :
    List.Forall₂ (fun line formatted => line = [] ∧ formatted = ⟨.blank, []⟩ ∨
        line ≠ [] ∧ Formats options line formatted)
      lines (formatLines options blankRun previousWasTag lines) := by
  have hle : ∀ (lines : List (List UInt8)) blankRun previousWasTag,
      (formatLines options blankRun previousWasTag lines).length ≤ lines.length := by
    intro lines
    induction lines with
    | nil => exact fun _ _ => Nat.le_refl 0
    | cons line rest ih =>
      intro blankRun previousWasTag
      by_cases hne : line = []
      · subst hne
        rw [formatLines_nil, List.length_append, List.length_cons]
        have hrest := ih (blankRun + 1) false
        split
        · rw [List.length_singleton]
          omega
        · rw [List.length_nil]
          omega
      · obtain ⟨formatted, next, heq, -⟩ :=
          @formatLines_cons options line previousWasTag blankRun hne rest
        rw [heq, List.length_cons, List.length_cons]
        exact Nat.succ_le_succ (ih 0 next)
  induction lines generalizing blankRun previousWasTag with
  | nil => exact .nil
  | cons line rest ih =>
    by_cases hne : line = []
    · subst hne
      rw [formatLines_nil, List.length_append, List.length_cons] at h
      rw [formatLines_nil]
      have hrest := hle rest (blankRun + 1) false
      split
      next =>
        rw [if_pos ‹_›, List.length_singleton] at h
        exact .cons (.inl ⟨rfl, rfl⟩) (ih (by omega))
      next =>
        rw [if_neg ‹_›, List.length_nil] at h
        omega
    · obtain ⟨formatted, next, heq, hformats⟩ :=
        @formatLines_cons options line previousWasTag blankRun hne rest
      rw [heq, List.length_cons, List.length_cons] at h
      rw [heq]
      exact .cons (.inr ⟨hne, hformats⟩) (ih (Nat.le_of_succ_le_succ h))

theorem continues_iff : (∃ formatted ∈ formatLines options blankRun previousWasTag lines,
    formatted.kind = .tagContinuation) ↔ continues options previousWasTag lines = true := by
  induction lines generalizing blankRun previousWasTag with
  | nil => simp [formatLines, continues]
  | cons line rest ih =>
    by_cases hne : line = []
    · subst hne
      have hnext : continues options previousWasTag ([] :: rest)
          = continues options false rest := by
        rw [continues, if_pos (by rfl)]
      rw [formatLines_nil, hnext, ← @ih false (blankRun + 1)]
      split <;> simp
    · rw [continues, if_neg (by simpa using hne)]
      cases htag : tagLine options line with
      | true =>
        rw [formatLines_tag hne htag, if_pos rfl, ← @ih true 0]
        simp
      | false =>
        rw [formatLines_text hne htag, if_neg Bool.false_ne_true, Bool.or_eq_true,
          ← @ih previousWasTag 0]
        cases previousWasTag <;> simp

/-! ### The loop once more -/

/-- Lines that are left alone once they were normalized. -/
def AllPlain (options : MultilineCommentFormatOptions) (lines : List (List UInt8)) : Prop :=
  ∀ line ∈ lines, line ≠ [] → Plain options line

theorem AllPlain.tail (h : AllPlain options (line :: lines)) : AllPlain options lines :=
  fun next hmem => h next (List.mem_cons_of_mem _ hmem)

/-- The text of a line is formatted as it was. -/
theorem formatLines_lineText (hplain : Plain options line) (hne : line ≠ [])
    (rest : List (List UInt8)) :
    formatLines options blankRun previousWasTag (lineText options line :: rest)
      = if tagLine options line then
          ⟨.tag, lineText options line⟩ :: formatLines options 0 true rest
        else ⟨if previousWasTag then .tagContinuation else .text, lineText options line⟩ ::
          formatLines options 0 previousWasTag rest := by
  obtain ⟨htext, htag⟩ := hplain.lineText_lineText
  have hsome := hplain.lineText_ne hne
  split
  next h => rw [formatLines_tag hsome (htag.trans h), htext]
  next h => rw [formatLines_text hsome (htag.trans (Bool.eq_false_iff.mpr h)), htext]

/-- **With blank lines**, the loop finds its lines again. -/
theorem formatLines_again (hblank : options.maxBlankLines ≠ 0) (hplain : AllPlain options lines)
    (hrun : 0 < blankRun → previousWasTag = false) :
    formatLines options (min blankRun options.maxBlankLines) previousWasTag
        ((formatLines options blankRun previousWasTag lines).map FormattedCommentLine.text)
      = formatLines options blankRun previousWasTag lines := by
  induction lines generalizing blankRun previousWasTag with
  | nil => rfl
  | cons line rest ih =>
    by_cases hne : line = []
    · subst hne
      have hnext := @ih false (blankRun + 1) hplain.tail fun _ => rfl
      rw [formatLines_nil]
      split
      next hroom =>
        have hmin : min (blankRun + 1) options.maxBlankLines
            = min blankRun options.maxBlankLines + 1 := by omega
        rw [List.singleton_append, List.map_cons, formatLines_nil, if_pos (by omega), ← hmin, hnext,
          List.singleton_append]
      next hfull =>
        have hmin : min (blankRun + 1) options.maxBlankLines
            = min blankRun options.maxBlankLines := by omega
        rw [List.nil_append, hrun (by omega), ← hmin, hnext]
    · have hline := hplain line List.mem_cons_self hne
      cases htag : tagLine options line with
      | true =>
        have hnext := @ih true 0 hplain.tail (fun h => absurd h (Nat.lt_irrefl 0))
        rw [Nat.zero_min] at hnext
        rw [formatLines_tag hne htag, List.map_cons, formatLines_lineText hline hne, if_pos htag,
          hnext]
      | false =>
        have hnext := @ih previousWasTag 0 hplain.tail (fun h => absurd h (Nat.lt_irrefl 0))
        rw [Nat.zero_min] at hnext
        rw [formatLines_text hne htag, List.map_cons, formatLines_lineText hline hne,
          if_neg (by simp [htag]), hnext]

/-- **Without blank lines**, what is written is the same if no text was set apart from a
tag, or if that does not show. -/
theorem formatLines_again_iff (hblank : options.maxBlankLines = 0)
    (hplain : AllPlain options lines) (hseen : previousWasTag = true → seen = true) (run : ℕ) :
    (formatLines options run seen ((formatLines options blankRun previousWasTag lines).map
          FormattedCommentLine.text)).map (written options)
        = (formatLines options blankRun previousWasTag lines).map (written options) ↔
      leadOf (options.newLineStart ++ options.tagContinuation) = leadOf options.newLineStart ∨
        loosens options seen previousWasTag lines = false := by
  induction lines generalizing blankRun previousWasTag seen run with
  | nil => exact ⟨fun _ => .inr rfl, fun _ => rfl⟩
  | cons line rest ih =>
    by_cases hne : line = []
    · subst hne
      rw [formatLines_nil, if_neg (by omega), List.nil_append, loosens, if_pos (by rfl)]
      exact @ih false seen (blankRun + 1) hplain.tail (fun h => absurd h Bool.false_ne_true) run
    · have hline := hplain line List.mem_cons_self hne
      have hsome := hline.lineText_ne hne
      rw [loosens, if_neg (by simpa using hne)]
      cases htag : tagLine options line with
      | true =>
        rw [formatLines_tag hne htag, List.map_cons, formatLines_lineText hline hne, if_pos htag,
          if_pos rfl, List.map_cons, List.map_cons, List.cons.injEq, eq_self, true_and]
        exact @ih true true 0 hplain.tail (fun _ => rfl) 0
      | false =>
        have hnext := @ih previousWasTag seen 0 hplain.tail hseen 0
        rw [formatLines_text hne htag, List.map_cons, formatLines_lineText hline hne,
          if_neg (by simp [htag]), if_neg Bool.false_ne_true, List.map_cons, List.map_cons,
          List.cons.injEq, hnext]
        have hwritten : ∀ kind lead, kind ≠ CommentLineKind.blank →
            written options ⟨kind, lineText options line⟩
              = append_prefixed_comment_line [] lead (lineText options line) →
            written options ⟨kind, lineText options line⟩
              = leadOf lead ++ lineText options line := by
          intro kind lead _ heq
          rw [heq, append_prefixed_comment_line, if_neg (by simpa using hsome), List.nil_append]
        have hcontinuation := hwritten .tagContinuation _ (by simp) rfl
        have htext := hwritten .text _ (by simp) rfl
        cases seen with
        | false =>
          have hprevious : previousWasTag = false := by
            cases previousWasTag with
            | true => exact absurd (hseen rfl) Bool.false_ne_true
            | false => rfl
          subst hprevious
          simp
        | true =>
          cases previousWasTag with
          | true => simp
          | false =>
            rw [if_pos rfl, if_neg Bool.false_ne_true, hcontinuation, htext,
              List.append_cancel_right_eq]
            constructor
            · exact fun h => .inl h.1
            · rintro (hlead | hloosens)
              · exact ⟨hlead, .inl hlead⟩
              · exact absurd hloosens (by simp)

end Pegium.Formatting
