/-
Pegium/Lsp/SteadyComments.lean

When formatting a comment again changes nothing.

A formatted comment is read as the lines that were written, each without its prefix
(`contentLines_bodyOf`).  It stays as it is if each line is found again as it was, and
gets the same prefix.  Four things get in the way: the first line of a comment is not
trimmed, a carriage return at the end of a line is taken for a line break, the prefix of
a continuation is not stripped unless it is blank, and without blank lines the text
behind them goes on with the tag before them.  A comment on one line stays as it is
unless its text begins with the prefix once more.

Main result: `formatMultilineComment_iff`; `formatMultilineComment_tagged` is a comment that
stays as it is once it is formatted, and `blank_first_line_moves` one that does not.
-/
import Mathlib.Algebra.Order.BigOperators.Group.List
import Mathlib.Algebra.Order.Group.Nat
import Pegium.Lsp.FormattedComments

namespace Pegium.Formatting

open Documentation (get_lines rawLines dropReturn)
open Words (words Tight)

variable {options : MultilineCommentFormatOptions} {line text body : List UInt8}
  {formatted : FormattedCommentLine} {L : List FormattedCommentLine} {c : UInt8}

/-! ### Bodies -/

/-- The body that is written for some lines. -/
def bodyOf (options : MultilineCommentFormatOptions) (lines : List FormattedCommentLine) :
    List UInt8 :=
  (lines.map (written options)).flatMap (10 :: ·) ++
    10 :: derive_comment_end_prefix options.newLineStart

/-- The lines that are written for a body. -/
def linesOf (options : MultilineCommentFormatOptions) (body : List UInt8) :
    List FormattedCommentLine :=
  formatLines options 0 false (contentLines options body)

/-- The text of a comment on one line. -/
def contentOf (options : MultilineCommentFormatOptions) (body : List UInt8) : List UInt8 :=
  normalize_tag_line ( strip_comment_line_prefix body options) options

def formatBody (options : MultilineCommentFormatOptions) (body : List UInt8) : List UInt8 :=
  if isSingleLine options body then
    32 :: (contentOf options body ++ if (contentOf options body).isEmpty then [] else [32])
  else if (linesOf options body).isEmpty then [32]
  else bodyOf options (linesOf options body)

def bodyWords (options : MultilineCommentFormatOptions) (body : List UInt8) :
    List (List UInt8) :=
  if isSingleLine options body then
    words is_horizontal_whitespace ( strip_comment_line_prefix body options)
  else (normalizedLines options body).flatMap (words is_horizontal_whitespace)

theorem unwrap_append (options : MultilineCommentFormatOptions) (body : List UInt8) :
    unwrap_comment_body (options.start ++ (body ++ options.end)) options = some body := by
  have hsuffix : options.end.isSuffixOf (options.start ++ (body ++ options.end)) = true := by
    rw [List.isSuffixOf_iff_suffix, ← List.append_assoc]
    exact List.suffix_append _ _
  unfold unwrap_comment_body
  rw [List.isPrefixOf_iff_prefix.mpr (List.prefix_append _ _), hsuffix, if_neg (by simp)]
  simp

/-- **A comment is formatted** by formatting its body. -/
theorem formatMultilineComment_eq (h : unwrap_comment_body text options = some body) :
    formatMultilineComment text options
      = options.start ++ (formatBody options body ++ options.end) := by
  unfold formatMultilineComment formatBody
  rw [h]
  dsimp only
  split
  · simp [contentOf]
  · show (if (linesOf options body).isEmpty then _ else _) = _
    split
    · simp
    · rw [foldl_appendLine, bodyOf, List.flatMap_map]
      simp [linesOf]

theorem commentWords_eq (h : unwrap_comment_body text options = some body) :
    commentWords text options = bodyWords options body := by
  unfold commentWords
  rw [h]
  rfl

/-- Formatting twice is formatting the body twice. -/
theorem formatMultilineComment_twice_iff (h : unwrap_comment_body text options = some body) :
    (formatMultilineComment (formatMultilineComment text options) options
          = formatMultilineComment text options ∧
        commentWords (formatMultilineComment text options) options = commentWords text options) ↔
      formatBody options (formatBody options body) = formatBody options body ∧
        bodyWords options (formatBody options body) = bodyWords options body := by
  have hagain := unwrap_append options (formatBody options body)
  rw [formatMultilineComment_eq h, formatMultilineComment_eq hagain, commentWords_eq hagain,
    commentWords_eq h, List.append_cancel_left_eq, List.append_cancel_right_eq]

/-! ### Reading a body again -/

/-- The prefix before the end of a comment is blank. -/
theorem derive_comment_end_prefix_blank (start : List UInt8) :
    ∀ ch ∈ derive_comment_end_prefix start, is_horizontal_whitespace ch = true := by
  have hall := @List.rdropWhile_append_rtakeWhile _ is_horizontal_whitespace start
  have htail : ∀ ch ∈ start.rtakeWhile is_horizontal_whitespace,
      is_horizontal_whitespace ch = true := fun ch hch => List.mem_rtakeWhile_imp hch
  unfold derive_comment_end_prefix
  dsimp only
  split
  next hempty =>
    have hwords := Words.trim_eq_nil_iff.mp (List.isEmpty_iff.mp hempty)
    intro ch hch
    rw [← hall, List.mem_append] at hch
    rcases hch with hch | hch
    · exact Words.words_eq_nil_iff.mp hwords ch hch
    · exact htail ch hch
  next hsome =>
    -- no blank is behind what is left of the prefix
    obtain ⟨a, b, hx, ha, hb⟩ := @Words.exists_trim _ is_horizontal_whitespace
      (start.rdropWhile is_horizontal_whitespace)
    have hnil : b = [] := by
      rcases List.eq_nil_or_concat b with hnil | ⟨before, ch, hlast⟩
      · exact hnil
      · rw [List.concat_eq_append] at hlast
        have hne : start.rdropWhile is_horizontal_whitespace ≠ [] := by
          intro hnil
          rw [hnil] at hsome
          exact hsome rfl
        have hvisible := List.rdropWhile_last_not is_horizontal_whitespace start hne
        have hch : (start.rdropWhile is_horizontal_whitespace).getLast hne = ch := by
          refine Option.some.inj ?_
          rw [← List.getLast?_eq_getLast_of_ne_nil hne, hx, hlast]
          simp
        rw [hch] at hvisible
        exact absurd (hb ch (by rw [hlast]; simp)) hvisible
    rw [hnil, List.append_nil] at hx
    have hsuffix : (trim_horizontal (start.rdropWhile is_horizontal_whitespace)).isSuffixOf
        (start.rdropWhile is_horizontal_whitespace) = true := by
      rw [List.isSuffixOf_iff_suffix]
      exact ⟨a, hx.symm⟩
    have hlength : (start.rdropWhile is_horizontal_whitespace).length = a.length
        + (trim_horizontal (start.rdropWhile is_horizontal_whitespace)).length := by
      rw [← List.length_append]
      exact congrArg List.length hx
    rw [if_pos hsuffix]
    have htake : (start.rdropWhile is_horizontal_whitespace).take
        ((start.rdropWhile is_horizontal_whitespace).length
          - (trim_horizontal (start.rdropWhile is_horizontal_whitespace)).length) = a := by
      have hcount : (start.rdropWhile is_horizontal_whitespace).length
          - (trim_horizontal (start.rdropWhile is_horizontal_whitespace)).length = a.length := by
        omega
      rw [hcount]
      conv_lhs => rw [hx]
      exact List.take_left
    rw [htake]
    exact ha

theorem strip_blank (h : ∀ ch ∈ line, is_horizontal_whitespace ch = true) :
    strip_comment_line_prefix line options = [] := by
  rw [← (tight_strip options line).trim_eq]
  exact Words.trim_eq_nil fun ch hch => h ch ((strip_sublist options line).subset hch)

theorem splitOn_lines {ws : List (List UInt8)} {last : List UInt8} (hws : ∀ w ∈ ws, 10 ∉ w)
    (hlast : 10 ∉ last) :
    (ws.flatMap (10 :: ·) ++ 10 :: last).splitOn 10 = [] :: (ws ++ [last]) := by
  have hsplit : ∀ first : List UInt8, 10 ∉ first →
      (first ++ (ws.flatMap (10 :: ·) ++ 10 :: last)).splitOn 10 = first :: (ws ++ [last]) := by
    induction ws with
    | nil =>
      intro first hfirst
      rw [List.flatMap_nil, List.nil_append, List.splitOn_append_cons_self_of_not_mem hfirst,
        List.splitOn_eq_singleton hlast]
      rfl
    | cons w ws ih =>
      intro first hfirst
      rw [List.flatMap_cons, List.cons_append, List.cons_append,
        List.splitOn_append_cons_self_of_not_mem hfirst, List.append_assoc,
        ih (fun v hv => hws v (List.mem_cons_of_mem _ hv)) w (hws w List.mem_cons_self)]
      rfl
  exact hsplit [] (fun h => nomatch h)

/-- Prefixes that stand on one line. -/
structure OneLine (options : MultilineCommentFormatOptions) : Prop where
  start : ∀ ch ∈ options.newLineStart, ch ≠ 10 ∧ ch ≠ 13
  continuation : ∀ ch ∈ options.tagContinuation, ch ≠ 10 ∧ ch ≠ 13

/-- A character that is neither blank nor in a prefix is only in the text. -/
theorem count_written (hc : is_horizontal_whitespace c = false) (hstart : c ∉ options.newLineStart)
    (hcontinuation : c ∉ options.tagContinuation)
    (hblank : formatted.kind = .blank → formatted.text = []) :
    (written options formatted).count c = formatted.text.count c := by
  have hspace : c ≠ 32 := by
    rintro rfl
    exact absurd hc (by simp [space_blank])
  have happend : ∀ lead : List UInt8, c ∉ lead →
      (append_prefixed_comment_line [] lead formatted.text).count c = formatted.text.count c := by
    intro lead hlead
    have hzero : lead.count c = 0 := List.count_eq_zero.mpr hlead
    unfold append_prefixed_comment_line
    split
    next hempty => rw [List.isEmpty_iff.mp hempty, List.nil_append, hzero, List.count_nil]
    next =>
      rcases leadOf_cases lead with hcase | ⟨hcase, -⟩
      · rw [hcase]
        simp [hzero, Ne.symm hspace]
      · rw [hcase]
        simp [hzero]
  unfold written
  split
  next hkind => rw [hblank hkind, List.count_nil, List.count_eq_zero.mpr hstart]
  next => exact happend _ (by simp [hstart, hcontinuation])
  next => exact happend _ hstart
  next => exact happend _ hstart

/-- The line break and the carriage return are in no prefix. -/
structure Foreign (options : MultilineCommentFormatOptions) (c : UInt8) : Prop where
  visible : is_horizontal_whitespace c = false
  start : c ∉ options.newLineStart
  continuation : c ∉ options.tagContinuation

theorem OneLine.lineFeed (h : OneLine options) : Foreign options 10 :=
  ⟨rfl, fun hch => (h.start 10 hch).1 rfl, fun hch => (h.continuation 10 hch).1 rfl⟩

theorem OneLine.carriageReturn (h : OneLine options) : Foreign options 13 :=
  ⟨rfl, fun hch => (h.start 13 hch).2 rfl, fun hch => (h.continuation 13 hch).2 rfl⟩

theorem kind_blank_of_mem (h : formatted ∈ linesOf options body) :
    formatted.kind = .blank → formatted.text = [] := by
  intro hkind
  rcases mem_formatLines h with rfl | ⟨line, -, -, hformats⟩
  · rfl
  · exact absurd hkind hformats.visible

theorem count_lineText (hc : is_horizontal_whitespace c = false) (line : List UInt8) :
    (lineText options line).count c = line.count c :=
  Words.count_of_words (words_lineText options line) hc

/-- What is written has as many of such a character as the lines. -/
theorem Foreign.count_linesOf (h : Foreign options c) (body : List UInt8) :
    ((linesOf options body).map fun formatted => (written options formatted).count c).sum
      = ((contentLines options body).map (List.count c)).sum := by
  have hwritten : (linesOf options body).map (fun formatted => (written options formatted).count c)
      = (linesOf options body).map fun formatted => formatted.text.count c :=
    List.map_congr_left fun formatted hmem =>
      count_written h.visible h.start h.continuation (kind_blank_of_mem hmem)
  have hloop : ∀ (lines : List (List UInt8)) blankRun previousWasTag,
      ((formatLines options blankRun previousWasTag lines).map fun formatted =>
        formatted.text.count c).sum = (lines.map (List.count c)).sum := by
    intro lines
    induction lines with
    | nil => exact fun _ _ => rfl
    | cons line rest ih =>
      intro blankRun previousWasTag
      by_cases hne : line = []
      · subst hne
        rw [formatLines_nil, List.map_append, List.sum_append, ih, List.map_cons, List.sum_cons]
        split <;> simp
      · obtain ⟨formatted, next, heq, hformats⟩ :=
          @formatLines_cons options line previousWasTag blankRun hne rest
        rw [heq, List.map_cons, List.map_cons, List.sum_cons, List.sum_cons, ih, hformats.text,
          count_lineText h.visible]
  rw [hwritten]
  exact hloop _ 0 false

/-! ### The lines of a body -/

/-- The lines of a body are parts of it without its line breaks. -/
theorem mem_normalizedLines (h : line ∈ normalizedLines options body) :
    ∃ raw ∈ rawLines body, line.Sublist raw := by
  have hdrop : ∀ raw : List UInt8, (dropReturn raw).Sublist raw := by
    intro raw
    unfold dropReturn
    split
    · exact List.dropLast_sublist raw
    · exact List.Sublist.refl raw
  unfold normalizedLines get_lines at h
  cases hraw : rawLines body with
  | nil =>
    rw [hraw] at h
    exact nomatch h
  | cons first rest =>
    rw [hraw, List.map_cons] at h
    rcases List.mem_cons.mp h with rfl | h
    · exact ⟨first, List.mem_cons_self, hdrop first⟩
    · rw [List.map_map] at h
      obtain ⟨raw, hmem, rfl⟩ := List.mem_map.mp h
      exact ⟨raw, List.mem_cons_of_mem _ hmem, (strip_sublist options _).trans (hdrop raw)⟩

/-- The lines with content, between lines that are empty. -/
theorem exists_contentLines (options : MultilineCommentFormatOptions) (body : List UInt8) :
    ∃ a b, normalizedLines options body = a ++ (contentLines options body ++ b) ∧
      (∀ line ∈ a, line = []) ∧ ∀ line ∈ b, line = [] := by
  obtain ⟨a, b, hlines, ha, hb⟩ :=
    @Words.exists_trim _ List.isEmpty (normalizedLines options body)
  exact ⟨a, b, hlines, fun line hline => List.isEmpty_iff.mp (ha line hline),
    fun line hline => List.isEmpty_iff.mp (hb line hline)⟩

theorem lineFeed_not_mem (h : line ∈ contentLines options body) : 10 ∉ line := by
  obtain ⟨a, b, hlines, -, -⟩ := exists_contentLines options body
  have hline : line ∈ normalizedLines options body := by
    rw [hlines]
    exact List.mem_append_right _ (List.mem_append_left _ h)
  obtain ⟨raw, hraw, hsub⟩ := mem_normalizedLines hline
  intro hmem
  have hchar := Words.mem_splitOnP hraw 10 (hsub.subset hmem)
  exact absurd hchar (by decide)

/-- Only the first line of a body can have blanks at its ends. -/
theorem tight_contentLines (h : line ∈ (contentLines options body).tail) :
    Tight is_horizontal_whitespace line := by
  have htail : ∀ line ∈ (normalizedLines options body).tail,
      Tight is_horizontal_whitespace line := by
    intro line hline
    unfold normalizedLines at hline
    cases hget : get_lines body with
    | nil =>
      rw [hget] at hline
      exact nomatch hline
    | cons first rest =>
      rw [hget] at hline
      obtain ⟨raw, -, rfl⟩ := List.mem_map.mp hline
      exact tight_strip options raw
  obtain ⟨a, b, hlines, -, -⟩ := exists_contentLines options body
  refine htail line ?_
  cases hcontent : contentLines options body with
  | nil =>
    rw [hcontent] at h
    exact nomatch h
  | cons first rest =>
    rw [hcontent] at h hlines
    rw [hlines]
    cases a with
    | nil => exact List.mem_append_left _ h
    | cons blank a =>
      exact List.mem_append_right _ (List.mem_append_left _ (List.mem_cons_of_mem _ h))

theorem words_contentLines (options : MultilineCommentFormatOptions) (body : List UInt8) :
    (normalizedLines options body).flatMap (words is_horizontal_whitespace)
      = (contentLines options body).flatMap (words is_horizontal_whitespace) := by
  have hempty : ∀ lines : List (List UInt8), (∀ line ∈ lines, line = []) →
      lines.flatMap (words is_horizontal_whitespace) = [] := by
    intro lines hlines
    rw [List.flatMap_eq_nil_iff]
    intro line hline
    rw [hlines line hline, Words.words_nil]
  obtain ⟨a, b, hlines, ha, hb⟩ := exists_contentLines options body
  rw [hlines, List.flatMap_append, List.flatMap_append, hempty a ha, hempty b hb,
    List.nil_append, List.append_nil]

/-- The first and the last of the lines are not empty. -/
theorem content_ends (options : MultilineCommentFormatOptions) (body : List UInt8) :
    Tight List.isEmpty (contentLines options body) :=
  Words.tight_trim _

/-! ### Reading what was written -/

/-- What is read of a line that was written. -/
def reread (options : MultilineCommentFormatOptions) (formatted : FormattedCommentLine) :
    List UInt8 :=
  strip_comment_line_prefix (dropReturn (written options formatted)) options

theorem isSingleLine_bodyOf (options : MultilineCommentFormatOptions)
    (L : List FormattedCommentLine) : isSingleLine options (bodyOf options L) = false := by
  simp [isSingleLine, bodyOf]

theorem end_prefix_visible (hc : is_horizontal_whitespace c = false) :
    c ∉ derive_comment_end_prefix options.newLineStart := by
  intro hmem
  have hblank := derive_comment_end_prefix_blank _ c hmem
  rw [hc] at hblank
  exact Bool.false_ne_true hblank

theorem rawLines_bodyOf (hL : ∀ formatted ∈ L, 10 ∉ written options formatted) :
    rawLines (bodyOf options L)
      = [] :: (L.map (written options) ++ [ derive_comment_end_prefix options.newLineStart]) := by
  refine splitOn_lines (fun w hw => ?_) (end_prefix_visible rfl)
  obtain ⟨formatted, hmem, rfl⟩ := List.mem_map.mp hw
  exact hL formatted hmem

/-- **The lines of a formatted comment** are those that were written. -/
theorem normalizedLines_bodyOf (hL : ∀ formatted ∈ L, 10 ∉ written options formatted) :
    normalizedLines options (bodyOf options L) = [] :: (L.map (reread options) ++ [[]]) := by
  have hblank := derive_comment_end_prefix_blank options.newLineStart
  have hreturn : dropReturn ( derive_comment_end_prefix options.newLineStart)
      = derive_comment_end_prefix options.newLineStart := by
    refine if_neg fun hlast => ?_
    exact absurd (List.mem_of_getLast? hlast) (end_prefix_visible rfl)
  unfold normalizedLines get_lines
  rw [rawLines_bodyOf hL, List.map_cons, List.map_append, List.map_map, List.map_singleton, hreturn]
  dsimp only
  rw [List.map_append, List.map_map, List.map_singleton, strip_blank hblank]
  rfl

theorem contentLines_bodyOf (hL : ∀ formatted ∈ L, 10 ∉ written options formatted) :
    contentLines options (bodyOf options L) = Words.trim List.isEmpty (L.map (reread options)) := by
  have hempty : ∀ line ∈ [([] : List UInt8)], line.isEmpty = true := by simp
  have hfront := Words.trim_blank_append hempty (L.map (reread options) ++ [[]])
  have hback := Words.trim_append_blank hempty (L.map (reread options))
  unfold contentLines
  rw [normalizedLines_bodyOf hL]
  exact hfront.trans hback

theorem bodyWords_bodyOf (hL : ∀ formatted ∈ L, 10 ∉ written options formatted) :
    bodyWords options (bodyOf options L)
      = (L.map (reread options)).flatMap (words is_horizontal_whitespace) := by
  unfold bodyWords
  rw [isSingleLine_bodyOf, if_neg Bool.false_ne_true, normalizedLines_bodyOf hL, List.flatMap_cons,
    List.flatMap_append]
  simp

theorem bodyOf_injective {L' : List FormattedCommentLine}
    (hL : ∀ formatted ∈ L, 10 ∉ written options formatted)
    (hL' : ∀ formatted ∈ L', 10 ∉ written options formatted)
    (h : bodyOf options L = bodyOf options L') :
    L.map (written options) = L'.map (written options) := by
  have hraw := congrArg rawLines h
  rw [rawLines_bodyOf hL, rawLines_bodyOf hL', List.cons.injEq] at hraw
  exact List.append_cancel_right hraw.2

theorem lineFeed_not_written (h : OneLine options) (hmem : formatted ∈ linesOf options body) :
    10 ∉ written options formatted := by
  obtain ⟨hvisible, hstart, hcontinuation⟩ := h.lineFeed
  rw [← List.count_eq_zero, count_written hvisible hstart hcontinuation (kind_blank_of_mem hmem)]
  rcases mem_formatLines hmem with rfl | ⟨line, hline, -, hformats⟩
  · rfl
  · rw [hformats.text, count_lineText hvisible]
    exact List.count_eq_zero.mpr (lineFeed_not_mem hline)

/-- A line is read without its prefix, if it does not seem to end with a line break. -/
theorem reread_spec (hblank : formatted.kind = .blank → formatted.text = [])
    (hreturn : (written options formatted).getLast? ≠ some 13) :
    words is_horizontal_whitespace (reread options formatted)
        = (if formatted.kind = .tagContinuation then
            words is_horizontal_whitespace options.tagContinuation else [])
          ++ words is_horizontal_whitespace formatted.text ∧
      ((formatted.kind = .tagContinuation →
          ∀ ch ∈ options.tagContinuation, is_horizontal_whitespace ch = true) →
        reread options formatted = trim_horizontal formatted.text) := by
  obtain ⟨rest, hwritten, hbehind⟩ := @exists_written options formatted hblank
  have hread : reread options formatted = trim_horizontal rest := by
    unfold reread dropReturn
    rw [if_neg hreturn, hwritten, strip_newLineStart]
  rw [hread]
  refine ⟨?_, hbehind.trim⟩
  rw [← hbehind.words]
  exact Words.words_trim rest

theorem count_reread_le (options : MultilineCommentFormatOptions)
    (formatted : FormattedCommentLine) :
    (reread options formatted).count 13 ≤ (written options formatted).count 13 ∧
      ((written options formatted).getLast? = some 13 →
        (reread options formatted).count 13 < (written options formatted).count 13) := by
  have hstrip : (reread options formatted).count 13
      ≤ (dropReturn (written options formatted)).count 13 :=
    (strip_sublist options _).count_le 13
  by_cases hlast : (written options formatted).getLast? = some 13
  · have hdrop : (written options formatted).count 13
        = (dropReturn (written options formatted)).count 13 + 1 := by
      obtain ⟨before, hbefore⟩ := List.getLast?_eq_some_iff.mp hlast
      unfold dropReturn
      rw [if_pos hlast, hbefore, List.dropLast_concat, List.count_append]
      rfl
    exact ⟨by omega, fun _ => by omega⟩
  · have hdrop : dropReturn (written options formatted) = written options formatted := if_neg hlast
    rw [hdrop] at hstrip
    exact ⟨hstrip, fun h => absurd h hlast⟩

/-- The last character of a line is in its text. -/
theorem Foreign.getLast?_text (h : Foreign options c)
    (hlast : (written options formatted).getLast? = some c) :
    formatted.text.getLast? = some c := by
  have happend : ∀ lead : List UInt8, c ∉ lead →
      (append_prefixed_comment_line [] lead formatted.text).getLast? = some c →
        formatted.text.getLast? = some c := by
    intro lead hlead hchar
    unfold append_prefixed_comment_line at hchar
    split at hchar
    · exact absurd (List.mem_of_getLast? hchar) (by simpa using hlead)
    next hsome =>
      rwa [List.getLast?_append_of_ne_nil _ (by simpa using hsome)] at hchar
  have hboth : c ∉ options.newLineStart ++ options.tagContinuation := by
    simp [h.start, h.continuation]
  unfold written at hlast
  split at hlast
  · exact absurd (List.mem_of_getLast? hlast) h.start
  · exact happend _ hboth hlast
  · exact happend _ h.start hlast
  · exact happend _ h.start hlast

/-! ### What gets in the way -/

/-- The lines of a comment are found again, and get the same prefixes. -/
structure SteadyLines (options : MultilineCommentFormatOptions) (body : List UInt8) : Prop where
  plain : AllPlain options (contentLines options body)
  returns : ∀ line ∈ contentLines options body, (trim_horizontal line).getLast? ≠ some 13
  content : options.forceMultiline = true → contentLines options body ≠ []
  continuation : (∀ ch ∈ options.tagContinuation, is_horizontal_whitespace ch = true) ∨
    continues options false (contentLines options body) = false
  groups : options.maxBlankLines = 0 →
    leadOf (options.newLineStart ++ options.tagContinuation) = leadOf options.newLineStart ∨
      loosens options false false (contentLines options body) = false

/-- A comment that stays as it is once it is formatted. -/
def Steady (options : MultilineCommentFormatOptions) (body : List UInt8) : Prop :=
  if isSingleLine options body then
    trim_horizontal options.newLineStart = [] ∨
      ¬ trim_horizontal options.newLineStart <+: contentOf options body
  else SteadyLines options body

theorem trim_tagLine (line : List UInt8) :
    tagLine options (trim_horizontal line) = tagLine options line := by
  have htrim : trim_horizontal (trim_horizontal line) = trim_horizontal line :=
    Words.trim_trim line
  unfold tagLine normalize_tag_line
  simp only [htrim]

section Lines

variable (hlines : OneLine options)

theorem linesOf_eq_nil_iff : linesOf options body = [] ↔ contentLines options body = [] := by
  unfold linesOf
  constructor
  · intro h
    cases hcontent : contentLines options body with
    | nil => rfl
    | cons first rest =>
      have hfirst : first ≠ [] := by
        have hhead := (content_ends options body).head first (by rw [hcontent]; rfl)
        simpa using hhead
      obtain ⟨formatted, next, heq, -⟩ := @formatLines_cons options first false 0 hfirst rest
      rw [hcontent, heq] at h
      exact absurd h (List.cons_ne_nil _ _)
  · intro h
    rw [h]
    rfl

include hlines

/-- A line that is not found again makes the text shorter. -/
theorem no_return
    (h : (linesOf options (bodyOf options (linesOf options body))).map (written options)
      = (linesOf options body).map (written options)) :
    ∀ formatted ∈ linesOf options body, (written options formatted).getLast? ≠ some 13 := by
  intro formatted hmem hlast
  have hsum := hlines.carriageReturn.count_linesOf (bodyOf options (linesOf options body))
  obtain ⟨a, b, hcontent, -, -⟩ := @Words.exists_trim _ List.isEmpty
    ((linesOf options body).map (reread options))
  rw [← contentLines_bodyOf fun _ => lineFeed_not_written hlines] at hcontent
  have hle : ((contentLines options (bodyOf options (linesOf options body))).map
      (List.count 13)).sum
      ≤ ((linesOf options body).map fun formatted => (reread options formatted).count 13).sum := by
    have hsplit := congrArg (fun lines => (lines.map (List.count 13)).sum) hcontent
    simp only [List.map_map, List.map_append, List.sum_append, Function.comp_def] at hsplit
    omega
  have hlt : ((linesOf options body).map fun formatted => (reread options formatted).count 13).sum
      < ((linesOf options body).map fun formatted => (written options formatted).count 13).sum :=
    List.sum_lt_sum _ _ (fun other _ => (count_reread_le options other).1)
      ⟨formatted, hmem, (count_reread_le options formatted).2 hlast⟩
  have hsame : (linesOf options (bodyOf options (linesOf options body))).map
        (fun formatted => (written options formatted).count 13)
      = (linesOf options body).map fun formatted => (written options formatted).count 13 := by
    have hcount := congrArg (List.map (List.count 13)) h
    rwa [List.map_map, List.map_map] at hcount
  rw [hsame] at hsum
  omega

/-- With as many lines as before, each was read again, and formatted as what was read. -/
theorem content_reread
    (h : (linesOf options (bodyOf options (linesOf options body))).map (written options)
      = (linesOf options body).map (written options)) :
    contentLines options (bodyOf options (linesOf options body))
        = (linesOf options body).map (reread options) := by
  have hlength := congrArg List.length h
  rw [List.length_map, List.length_map] at hlength
  obtain ⟨a, b, hcontent, -, -⟩ := @Words.exists_trim _ List.isEmpty
    ((linesOf options body).map (reread options))
  rw [← contentLines_bodyOf fun _ => lineFeed_not_written hlines] at hcontent
  have hcount := congrArg List.length hcontent
  rw [List.length_map, List.length_append, List.length_append] at hcount
  have hfull : (contentLines options (bodyOf options (linesOf options body))).length
      = (linesOf options (bodyOf options (linesOf options body))).length := by
    refine (formatLines_full ?_).length_eq
    show _ ≤ (linesOf options (bodyOf options (linesOf options body))).length
    omega
  have ha : a = [] := List.eq_nil_of_length_eq_zero (by omega)
  have hb : b = [] := List.eq_nil_of_length_eq_zero (by omega)
  rw [hcontent, ha, hb, List.append_nil, List.nil_append]

/-- The first line is found again only if it is plain. -/
theorem plain_of_same
    (h : (linesOf options (bodyOf options (linesOf options body))).map (written options)
      = (linesOf options body).map (written options)) :
    AllPlain options (contentLines options body) := by
  have hreturn := no_return hlines h
  have hcontent := content_reread hlines h
  have hends := (content_ends options (bodyOf options (linesOf options body))).head
  intro line hline hne
  cases hlist : contentLines options body with
  | nil =>
    rw [hlist] at hline
    exact nomatch hline
  | cons first rest =>
    rw [hlist] at hline
    rcases List.mem_cons.mp hline with rfl | hrest
    · by_contra hnot
      have htag : tagLine options line = false :=
        Bool.eq_false_iff.mpr fun htag => hnot (.inl htag)
      have hL : linesOf options body = ⟨.text, lineText options line⟩ ::
          formatLines options 0 false rest := by
        unfold linesOf
        rw [hlist, formatLines_text hne htag]
        rfl
      have hread : reread options ⟨.text, lineText options line⟩
          = trim_horizontal (lineText options line) := by
        refine (reread_spec (by simp) ?_).2 (by simp)
        exact hreturn _ (by rw [hL]; exact List.mem_cons_self)
      rw [hL, List.map_cons, hread] at hcontent
      have hsome : trim_horizontal (lineText options line) ≠ [] := by
        have hhead := hends (trim_horizontal (lineText options line)) (by rw [hL, hcontent]; rfl)
        simpa using hhead
      have hshape : ¬ if options.normalizeWhitespace then
          words is_horizontal_whitespace line ≠ [] else trim_horizontal line = line :=
        fun hshape => hnot (.inr hshape)
      split at hshape
      next =>
        -- a blank line is dropped
        refine hsome (Words.trim_eq_nil_iff.mpr ?_)
        rw [words_lineText]
        exact not_not.mp hshape
      next hraw =>
        -- a line with blanks at its ends is trimmed
        have htext : ∀ line, tagLine options line = false → lineText options line = line := by
          intro line htag
          rw [lineText, if_neg (by simp [htag]), normalize_line_text, if_neg hraw]
        rw [htext line htag] at hL hcontent hsome
        have hagain : linesOf options (bodyOf options (linesOf options body))
            = ⟨.text, trim_horizontal line⟩ ::
              formatLines options 0 false ((formatLines options 0 false rest).map
                (reread options)) := by
          have htrim : tagLine options (trim_horizontal line) = false :=
            (trim_tagLine line).trans htag
          rw [hL, linesOf, hcontent, formatLines_text hsome htrim, htext _ htrim]
          rfl
        rw [hagain, hL, List.map_cons, List.map_cons, List.cons.injEq] at h
        have hwritten : append_prefixed_comment_line [] options.newLineStart (trim_horizontal line)
            = append_prefixed_comment_line [] options.newLineStart line := h.1
        rw [append_prefixed_comment_line, if_neg (by simpa using hsome),
          append_prefixed_comment_line, if_neg (by simpa using hne),
          List.append_cancel_left_eq] at hwritten
        exact hshape hwritten
    · have htail := tight_contentLines (by rw [hlist]; exact hrest)
      exact plain_of_tight options htail hne

/-- In lines that are steady each line is found again. -/
theorem SteadyLines.reread_eq (h : SteadyLines options body)
    (hmem : formatted ∈ linesOf options body) : reread options formatted = formatted.text := by
  have hvisible : formatted.kind = .tagContinuation →
      ∀ ch ∈ options.tagContinuation, is_horizontal_whitespace ch = true := by
    intro hkind
    refine h.continuation.resolve_right fun hnone => ?_
    have hsome := continues_iff.mp ⟨formatted, hmem, hkind⟩
    rw [hnone] at hsome
    exact Bool.false_ne_true hsome
  rcases mem_formatLines hmem with rfl | ⟨line, hline, hne, hformats⟩
  · refine (reread_spec (fun _ => rfl) fun hlast => ?_).2 hvisible
    exact nomatch hlines.carriageReturn.getLast?_text hlast
  · have hplain := h.plain line hline hne
    refine ((reread_spec (kind_blank_of_mem hmem) fun hlast => ?_).2 hvisible).trans ?_
    · refine h.returns line hline ?_
      rw [← hplain.getLast?_lineText, ← hformats.text]
      exact hlines.carriageReturn.getLast?_text hlast
    · rw [hformats.text]
      exact hplain.tight.trim_eq

omit hlines in
theorem getLast?_formatLines {lines : List (List UInt8)} {blankRun : ℕ} {previousWasTag : Bool}
    (h : lines.getLast? = some line) (hne : line ≠ []) :
    ∃ formatted, (formatLines options blankRun previousWasTag lines).getLast? = some formatted ∧
      Formats options line formatted := by
  induction lines generalizing blankRun previousWasTag with
  | nil => exact nomatch h
  | cons first rest ih =>
    by_cases hrest : rest = []
    · subst hrest
      obtain rfl : first = line := Option.some.inj h
      obtain ⟨formatted, next, heq, hformats⟩ :=
        @formatLines_cons options first previousWasTag blankRun hne []
      exact ⟨formatted, by rw [heq]; rfl, hformats⟩
    · rw [List.getLast?_cons_of_ne_nil hrest] at h
      have hlast : ∀ (front : List FormattedCommentLine) blankRun previousWasTag,
          ∃ formatted, (front ++ formatLines options blankRun previousWasTag rest).getLast?
            = some formatted ∧ Formats options line formatted := by
        intro front blankRun previousWasTag
        obtain ⟨formatted, hlast, hformats⟩ := @ih blankRun previousWasTag h
        refine ⟨formatted, ?_, hformats⟩
        rw [List.getLast?_append, hlast]
        rfl
      by_cases hfirst : first = []
      · subst hfirst
        rw [formatLines_nil]
        exact hlast _ _ _
      · obtain ⟨formatted, next, heq, -⟩ :=
          @formatLines_cons options first previousWasTag blankRun hfirst rest
        rw [heq]
        exact hlast [formatted] 0 next

omit hlines in
/-- The lines that are written begin and end with text. -/
theorem tight_linesOf (hplain : AllPlain options (contentLines options body)) :
    Tight List.isEmpty ((linesOf options body).map FormattedCommentLine.text) := by
  obtain ⟨hfirst, hlast⟩ := content_ends options body
  have htext : ∀ line ∈ contentLines options body, line.isEmpty = false → ∀ formatted,
      Formats options line formatted → formatted.text.isEmpty = false := by
    intro line hline hsome formatted hformats
    have hne : line ≠ [] := by simpa using hsome
    rw [hformats.text]
    simpa using (hplain line hline hne).lineText_ne hne
  constructor
  · intro text htail
    cases hcontent : contentLines options body with
    | nil =>
      rw [linesOf_eq_nil_iff.mpr hcontent] at htail
      exact nomatch htail
    | cons first rest =>
      rw [hcontent] at hfirst htext
      have hsome := hfirst first rfl
      obtain ⟨formatted, next, heq, hformats⟩ :=
        @formatLines_cons options first false 0 (by simpa using hsome) rest
      rw [linesOf, hcontent, heq] at htail
      obtain rfl : formatted.text = text := Option.some.inj htail
      exact htext first List.mem_cons_self hsome formatted hformats
  · intro text htail
    rw [List.getLast?_map] at htail
    cases hcontent : (contentLines options body).getLast? with
    | none =>
      rw [linesOf_eq_nil_iff.mpr (List.getLast?_eq_none_iff.mp hcontent)] at htail
      exact nomatch htail
    | some line =>
      have hsome := hlast line hcontent
      obtain ⟨formatted, heq, hformats⟩ := @getLast?_formatLines options line _ 0 false hcontent
        (by simpa using hsome)
      rw [linesOf, heq] at htail
      obtain rfl : formatted.text = text := Option.some.inj htail
      exact htext line (List.mem_of_getLast? hcontent) hsome formatted hformats

omit hlines in
theorem words_linesOf (options : MultilineCommentFormatOptions) (body : List UInt8) :
    ((linesOf options body).map FormattedCommentLine.text).flatMap (words is_horizontal_whitespace)
      = (normalizedLines options body).flatMap (words is_horizontal_whitespace) := by
  rw [List.flatMap_map, words_contentLines]
  exact words_formatLines

/-- **Steady lines** are written again as they were, with their words. -/
theorem SteadyLines.same (h : SteadyLines options body) :
    (linesOf options (bodyOf options (linesOf options body))).map (written options)
        = (linesOf options body).map (written options) ∧
      ((linesOf options body).map (reread options)).flatMap (words is_horizontal_whitespace)
        = (normalizedLines options body).flatMap (words is_horizontal_whitespace) := by
  have hread : (linesOf options body).map (reread options)
      = (linesOf options body).map FormattedCommentLine.text :=
    List.map_congr_left fun formatted hmem => h.reread_eq hlines hmem
  constructor
  · have hcontent : contentLines options (bodyOf options (linesOf options body))
        = (linesOf options body).map FormattedCommentLine.text := by
      rw [contentLines_bodyOf fun _ => lineFeed_not_written hlines, hread]
      exact (tight_linesOf h.plain).trim_eq
    have hagain : linesOf options (bodyOf options (linesOf options body))
        = formatLines options 0 false ((linesOf options body).map FormattedCommentLine.text) := by
      rw [← hcontent]
      rfl
    rw [hagain]
    by_cases hblank : options.maxBlankLines = 0
    · exact (formatLines_again_iff hblank h.plain id 0).mpr (h.groups hblank)
    · have hloop := @formatLines_again options _ false 0 hblank h.plain
        fun hrun => absurd hrun (Nat.lt_irrefl 0)
      rw [Nat.zero_min] at hloop
      exact congrArg (List.map (written options)) hloop
  · rw [hread]
    exact words_linesOf options body

/-- **Lines that are written again as they were, with their words, are steady.** -/
theorem steadyLines_of_same (hne : linesOf options body ≠ [])
    (hsame : (linesOf options (bodyOf options (linesOf options body))).map (written options)
      = (linesOf options body).map (written options))
    (hwords : ((linesOf options body).map (reread options)).flatMap
        (words is_horizontal_whitespace)
      = (normalizedLines options body).flatMap (words is_horizontal_whitespace)) :
    SteadyLines options body := by
  have hplain := plain_of_same hlines hsame
  have hreturn := no_return hlines hsame
  have hspec := fun formatted (hmem : formatted ∈ linesOf options body) =>
    reread_spec (kind_blank_of_mem hmem) (hreturn formatted hmem)
  -- a continuation has the words of its prefix more than before
  have hcontinuation : (∀ ch ∈ options.tagContinuation, is_horizontal_whitespace ch = true) ∨
      continues options false (contentLines options body) = false := by
    rw [or_iff_not_imp_right, Bool.not_eq_false]
    intro hsome
    obtain ⟨formatted, hmem, hkind⟩ := continues_iff.mpr hsome
    by_contra hvisible
    rw [← words_linesOf, List.flatMap_map, List.flatMap_map] at hwords
    have hcount := congrArg List.length hwords
    rw [List.length_flatMap, List.length_flatMap] at hcount
    refine absurd hcount (Nat.ne_of_gt (List.sum_lt_sum _ _ ?_ ⟨formatted, hmem, ?_⟩))
    · intro other hother
      rw [(hspec other hother).1, List.length_append]
      exact Nat.le_add_left _ _
    · rw [(hspec formatted hmem).1, if_pos hkind, List.length_append]
      have hpos := List.length_pos_of_ne_nil fun hnil => hvisible (Words.words_eq_nil_iff.mp hnil)
      omega
  have hread : (linesOf options body).map (reread options)
      = (linesOf options body).map FormattedCommentLine.text := by
    refine List.map_congr_left fun formatted hmem => ?_
    refine ((hspec formatted hmem).2 fun hkind => ?_).trans ?_
    · refine hcontinuation.resolve_right fun hnone => ?_
      have hsome := continues_iff.mp ⟨formatted, hmem, hkind⟩
      rw [hnone] at hsome
      exact Bool.false_ne_true hsome
    · rcases mem_formatLines hmem with rfl | ⟨line, hline, hsome, hformats⟩
      · rfl
      · rw [hformats.text]
        exact (hplain line hline hsome).tight.trim_eq
  refine ⟨hplain, fun line hline hlast => ?_, fun _ hnil => hne (linesOf_eq_nil_iff.mpr hnil),
    hcontinuation, fun hblank => ?_⟩
  · have hsome : line ≠ [] := by
      rintro rfl
      exact nomatch hlast
    obtain ⟨formatted, hmem, hformats⟩ :=
      @exists_formatted options line _ false 0 hline hsome
    have hline := hplain line hline hsome
    rw [← hline.getLast?_lineText, ← hformats.text] at hlast
    have htext : formatted.text ≠ [] := by
      intro hnil
      rw [hnil] at hlast
      exact nomatch hlast
    have happend : ∀ lead : List UInt8,
        (append_prefixed_comment_line [] lead formatted.text).getLast? = some 13 := by
      intro lead
      rw [append_prefixed_comment_line, if_neg (by simpa using htext),
        List.getLast?_append_of_ne_nil _ htext]
      exact hlast
    refine hreturn formatted hmem ?_
    unfold written
    split
    next hkind => exact absurd hkind hformats.visible
    next => exact happend _
    next => exact happend _
    next => exact happend _
  · refine (@formatLines_again_iff options _ false false 0 hblank hplain id 0).mp ?_
    refine Eq.trans ?_ hsame
    have hcontent := (content_reread hlines hsame).trans hread
    conv_rhs => rw [linesOf, hcontent]
    rfl

end Lines

/-! ### Comments on one line -/

theorem contentOf_padded (options : MultilineCommentFormatOptions) (body : List UInt8) :
    trim_horizontal (32 :: (contentOf options body ++ [32])) = contentOf options body := by
  have hfront := Words.trim_blank_append spaces_blank (contentOf options body ++ [32])
  have hback := Words.trim_append_blank spaces_blank (contentOf options body)
  have htrim : trim_horizontal (contentOf options body) = contentOf options body :=
    (tight_normalize_tag_line options _).trim_eq
  exact (hfront.trans hback).trans htrim

/-- The words of a comment on one line. -/
theorem words_contentOf (options : MultilineCommentFormatOptions) (body : List UInt8) :
    words is_horizontal_whitespace (contentOf options body)
      = words is_horizontal_whitespace ( strip_comment_line_prefix body options) :=
  words_normalize_tag_line options _

theorem isSingleLine_padded (h : isSingleLine options body = true) (tail : List UInt8)
    (htail : ∀ ch ∈ tail, ch = 32) :
    isSingleLine options (32 :: (contentOf options body ++ tail)) = true := by
  unfold isSingleLine at h ⊢
  rw [Bool.and_eq_true, Bool.not_eq_true'] at h
  rw [Bool.and_eq_true, Bool.not_eq_true']
  refine ⟨h.1, ?_⟩
  rw [Bool.not_eq_true', List.any_eq_false] at h ⊢
  have hbreak : ∀ ch : UInt8, is_horizontal_whitespace ch = false → ch ∈ contentOf options body →
      ch ∈ body := by
    intro ch hvisible hch
    exact (strip_sublist options body).subset
      (Words.mem_of_words (words_contentOf options body) hvisible hch)
  intro ch hch hmatch
  rcases List.mem_cons.mp hch with rfl | hch
  · exact absurd hmatch (by decide)
  rcases List.mem_append.mp hch with hch | hch
  · have hvisible : is_horizontal_whitespace ch = false := by
      rw [Bool.or_eq_true, beq_iff_eq, beq_iff_eq] at hmatch
      rcases hmatch with rfl | rfl <;> rfl
    exact h.2 ch (hbreak ch hvisible hch) hmatch
  · rw [htail ch hch] at hmatch
    exact absurd hmatch (by decide)

/-- A text is stripped of the prefix if it begins with it, and then it has less. -/
theorem strip_of_tight (h : Tight is_horizontal_whitespace text)
    (htrim : trim_horizontal line = text) :
    if trim_horizontal options.newLineStart ≠ [] ∧
        trim_horizontal options.newLineStart <+: text then
      ∃ c, is_horizontal_whitespace c = false ∧
        ( strip_comment_line_prefix line options).count c < text.count c
    else strip_comment_line_prefix line options = text := by
  have hself : trim_horizontal text = text := h.trim_eq
  unfold strip_comment_line_prefix
  simp only [htrim]
  split
  next hstart =>
    obtain ⟨hne, rest, hrest⟩ := hstart
    have htest : (!(trim_horizontal options.newLineStart).isEmpty &&
        (trim_horizontal options.newLineStart).isPrefixOf text) = true := by
      rw [Bool.and_eq_true, List.isPrefixOf_iff_prefix]
      exact ⟨by simpa using hne, rest, hrest⟩
    rw [if_pos htest]
    obtain ⟨c, behind, hprefix⟩ := List.exists_cons_of_ne_nil hne
    have hvisible : is_horizontal_whitespace c = false := by
      have htight : Tight is_horizontal_whitespace (trim_horizontal options.newLineStart) :=
        Words.tight_trim _
      exact htight.head c (by rw [ hprefix]; rfl)
    refine ⟨c, hvisible, ?_⟩
    -- what is left is within what is behind the prefix
    have hdrop : text.drop (trim_horizontal options.newLineStart).length = rest := by
      rw [← hrest, List.drop_left]
    have hle : ∀ behind : List UInt8, behind.Sublist rest →
        (trim_horizontal behind).count c < text.count c := by
      intro behind hsub
      have hcount := ((trim_sublist behind).trans hsub).count_le c
      rw [← hrest, List.count_append, hprefix, List.count_cons_self]
      omega
    rw [hdrop]
    split
    · exact hle _ (List.drop_sublist 1 rest)
    · exact hle _ (List.Sublist.refl rest)
  next hstart =>
    have htest : (!(trim_horizontal options.newLineStart).isEmpty &&
        (trim_horizontal options.newLineStart).isPrefixOf text) = false := by
      rw [Bool.eq_false_iff]
      intro htest
      rw [Bool.and_eq_true, List.isPrefixOf_iff_prefix] at htest
      exact hstart ⟨by simpa using htest.1, htest.2⟩
    rw [htest, if_neg Bool.false_ne_true]
    exact hself

/-- **A comment on one line** stays as it is unless its text begins with the prefix. -/
theorem single_line_iff (h : isSingleLine options body = true) :
    (formatBody options (formatBody options body) = formatBody options body ∧
        bodyWords options (formatBody options body) = bodyWords options body) ↔
      trim_horizontal options.newLineStart = [] ∨
        ¬ trim_horizontal options.newLineStart <+: contentOf options body := by
  have hbody : formatBody options body
      = 32 :: (contentOf options body ++
        if (contentOf options body).isEmpty then [] else [32]) := by
    rw [formatBody, if_pos h]
  have hspaces : ∀ ch ∈ (if (contentOf options body).isEmpty then ([] : List UInt8) else [32]),
      ch = 32 := by
    split <;> simp
  have hsingle := isSingleLine_padded h _ hspaces
  rw [← hbody] at hsingle
  have htrim : trim_horizontal (formatBody options body) = contentOf options body := by
    rw [hbody]
    split
    next hempty =>
      rw [List.isEmpty_iff.mp hempty]
      exact Words.trim_eq_nil spaces_blank
    next => exact contentOf_padded options body
  have hstrip := @strip_of_tight options _ _ (tight_normalize_tag_line options _) htrim
  have hwords : bodyWords options (formatBody options body) = words is_horizontal_whitespace
      ( strip_comment_line_prefix (formatBody options body) options) := by
    rw [bodyWords, if_pos hsingle]
  have hbefore : bodyWords options body
      = words is_horizontal_whitespace (contentOf options body) := by
    rw [bodyWords, if_pos h, words_contentOf]
  rw [hwords, hbefore]
  split at hstrip
  next hstart =>
    obtain ⟨c, hvisible, hlt⟩ := hstrip
    constructor
    · rintro ⟨-, hsame⟩
      exact absurd (Words.count_of_words hsame hvisible) (Nat.ne_of_lt hlt)
    · rintro (hnil | hnot)
      · exact absurd hnil hstart.1
      · exact absurd hstart.2 hnot
  next hstart =>
    have hagain : contentOf options (formatBody options body) = contentOf options body := by
      show normalize_tag_line _ options = _
      rw [hstrip]
      exact normalize_tag_line_twice options _
    refine iff_of_true ⟨?_, by rw [hstrip]; rfl⟩ ?_
    · conv_lhs => rw [formatBody, if_pos hsingle, hagain]
      exact hbody.symm
    · by_contra hnot
      rw [not_or, not_not] at hnot
      exact hstart hnot

/-! ### Formatting again -/

theorem blank_body_moves (h : options.forceMultiline = true) :
    formatBody options [32] ≠ [32] := by
  have hsingle : isSingleLine options [32] = false := by simp [isSingleLine, h]
  have hcontent : contentLines options [32] = [[32]] := rfl
  have hL : linesOf options [32] ≠ [] := by
    rw [ne_eq, linesOf_eq_nil_iff, hcontent]
    exact List.cons_ne_nil _ _
  rw [formatBody, if_neg (by simp [hsingle]), if_neg (by simpa using hL), bodyOf]
  obtain ⟨first, rest, hcons⟩ := List.exists_cons_of_ne_nil hL
  rw [hcons]
  intro hbody
  exact absurd (List.cons.inj hbody).1 (by decide)

theorem body_steady_iff (hlines : OneLine options) :
    (formatBody options (formatBody options body) = formatBody options body ∧
        bodyWords options (formatBody options body) = bodyWords options body) ↔
      Steady options body := by
  unfold Steady
  split
  next h => exact single_line_iff h
  next hmulti =>
    have hwords : bodyWords options body
        = (normalizedLines options body).flatMap (words is_horizontal_whitespace) := if_neg hmulti
    rw [hwords]
    by_cases hL : linesOf options body = []
    · -- nothing is left of the comment
      have hcontent := linesOf_eq_nil_iff.mp hL
      have hbody : formatBody options body = [32] := by
        rw [formatBody, if_neg hmulti, hL]
        rfl
      have hnone : (normalizedLines options body).flatMap (words is_horizontal_whitespace)
          = [] := by
        rw [words_contentLines, hcontent]
        rfl
      rw [hbody, hnone]
      cases hforce : options.forceMultiline with
      | true =>
        refine iff_of_false (fun h => blank_body_moves hforce h.1) fun h => ?_
        exact h.content hforce hcontent
      | false =>
        have hsingle : isSingleLine options [32] = true := by
          simp [isSingleLine, hforce]
        have hstrip : strip_comment_line_prefix [32] options = [] := strip_blank spaces_blank
        have hempty : contentOf options [32] = [] := by
          have hsub := words_contentOf options [32]
          rw [hstrip, Words.words_nil] at hsub
          have htight : Tight is_horizontal_whitespace (contentOf options [32]) :=
            tight_normalize_tag_line options _
          rw [← htight.trim_eq]
          exact Words.trim_eq_nil_iff.mpr hsub
        refine iff_of_true ⟨?_, ?_⟩ ⟨?_, ?_, ?_, .inr ?_, fun _ => .inr ?_⟩
        · rw [formatBody, if_pos hsingle, hempty]
          rfl
        · rw [bodyWords, if_pos hsingle, hstrip, Words.words_nil]
        · rw [hcontent]
          exact fun line hline => nomatch hline
        · rw [hcontent]
          exact fun line hline => nomatch hline
        · rw [hforce]
          exact fun h => absurd h Bool.false_ne_true
        · rw [hcontent]
          rfl
        · rw [hcontent]
          rfl
    · have hbody : formatBody options body = bodyOf options (linesOf options body) := by
        rw [formatBody, if_neg hmulti, if_neg (by simpa using hL)]
      have hwritten : ∀ formatted ∈ linesOf options body, 10 ∉ written options formatted :=
        fun _ => lineFeed_not_written hlines
      rw [hbody, bodyWords_bodyOf hwritten]
      have hagain : formatBody options (bodyOf options (linesOf options body))
            = bodyOf options (linesOf options body) ↔
          (linesOf options (bodyOf options (linesOf options body))).map (written options)
            = (linesOf options body).map (written options) := by
        rw [formatBody, isSingleLine_bodyOf, if_neg Bool.false_ne_true]
        constructor
        · intro heq
          split at heq
          · -- the body begins with a line feed
            obtain ⟨first, rest, hcons⟩ := List.exists_cons_of_ne_nil hL
            rw [hcons] at heq
            exact absurd (List.cons.inj heq).1 (by decide)
          · exact bodyOf_injective (fun _ => lineFeed_not_written hlines) hwritten heq
        · intro heq
          have hsome : linesOf options (bodyOf options (linesOf options body)) ≠ [] := by
            intro hnil
            rw [hnil, List.map_nil] at heq
            exact hL (List.map_eq_nil_iff.mp heq.symm)
          rw [if_neg (by simpa using hsome), bodyOf, heq]
          rfl
      rw [hagain]
      exact ⟨fun h => steadyLines_of_same hlines hL h.1 h.2, fun h => h.same hlines⟩

/-- **Formatting a comment again** changes nothing and keeps its words if and only if the
comment is steady. -/
theorem formatMultilineComment_iff (hlines : OneLine options)
    (hbody : unwrap_comment_body text options = some body) :
    (formatMultilineComment (formatMultilineComment text options) options
          = formatMultilineComment text options ∧
        commentWords (formatMultilineComment text options) options = commentWords text options) ↔
      Steady options body :=
  (formatMultilineComment_twice_iff hbody).trans (body_steady_iff hlines)

/-- The options of a formatter that sets none. -/
def defaultOptions : MultilineCommentFormatOptions where
  start := [47, 42, 42]
  «end» := [42, 47]
  newLineStart := [32, 42]
  tagContinuation := [32, 32]
  tagStart := some [64]
  normalizeWhitespace := true
  forceMultiline := false
  maxBlankLines := 1

theorem oneLine_defaultOptions : OneLine defaultOptions :=
  ⟨by simp [defaultOptions], by simp [defaultOptions]⟩

/-- A comment with two lines of text, the first with a tag and the second without a prefix. -/
def taggedComment : List UInt8 :=
  [47, 42, 42, 10, 32, 42, 64, 97, 32, 32, 98, 10, 99, 10, 42, 47]

/-- Formatting it again changes nothing. -/
theorem formatMultilineComment_tagged :
    formatMultilineComment (formatMultilineComment taggedComment defaultOptions) defaultOptions
        = formatMultilineComment taggedComment defaultOptions ∧
      commentWords (formatMultilineComment taggedComment defaultOptions) defaultOptions
        = commentWords taggedComment defaultOptions := by
  have hbody : unwrap_comment_body taggedComment defaultOptions
      = some [10, 32, 42, 64, 97, 32, 32, 98, 10, 99, 10] := by decide
  refine (formatMultilineComment_iff oneLine_defaultOptions hbody).mpr ?_
  show SteadyLines defaultOptions _
  have hlines : contentLines defaultOptions [10, 32, 42, 64, 97, 32, 32, 98, 10, 99, 10]
      = [[64, 97, 32, 32, 98], [99]] := by decide
  have hblank : ∀ ch ∈ defaultOptions.tagContinuation, is_horizontal_whitespace ch = true :=
    List.all_eq_true.mp rfl
  refine ⟨?_, ?_, fun h => absurd h (by decide), .inl hblank, fun h => absurd h (by decide)⟩
  · rw [hlines]
    intro line hline _
    rcases List.mem_pair.mp hline with rfl | rfl
    · exact .inl (by decide)
    · exact .inr (by decide)
  · rw [hlines]
    decide

/-- A blank behind the start of a comment becomes a line of its own, which is dropped the
next time. -/
theorem blank_first_line_moves :
    ¬ (formatMultilineComment (formatMultilineComment
          [47, 42, 42, 32, 10, 32, 42, 32, 97, 10, 32, 42, 47] defaultOptions) defaultOptions
        = formatMultilineComment
          [47, 42, 42, 32, 10, 32, 42, 32, 97, 10, 32, 42, 47] defaultOptions ∧
      commentWords (formatMultilineComment
          [47, 42, 42, 32, 10, 32, 42, 32, 97, 10, 32, 42, 47] defaultOptions) defaultOptions
        = commentWords [47, 42, 42, 32, 10, 32, 42, 32, 97, 10, 32, 42, 47] defaultOptions) := by
  have hbody : unwrap_comment_body [47, 42, 42, 32, 10, 32, 42, 32, 97, 10, 32, 42, 47]
      defaultOptions = some [32, 10, 32, 42, 32, 97, 10, 32] := by decide
  rw [formatMultilineComment_twice_iff hbody, body_steady_iff oneLine_defaultOptions]
  intro hsteady
  have hlines : SteadyLines defaultOptions [32, 10, 32, 42, 32, 97, 10, 32] := hsteady
  have hfirst : [32] ∈ contentLines defaultOptions [32, 10, 32, 42, 32, 97, 10, 32] := by decide
  rcases hlines.plain [32] hfirst (by decide) with htag | hwords
  · exact absurd htag (by decide)
  · exact absurd hwords (by decide)

end Pegium.Formatting
