/-
Pegium/Lsp/AbstractFormatter.lean

The layout of multiline comments.

The body of a comment is read as lines: the prefix of each line but the first is
stripped, and blank lines at the ends are dropped.  A line becomes a tag, the
continuation of a tag, text or a blank line, its white space is normalized, and the
lines are written again with the prefix of the options.

Main results: what is done to the text of a line keeps its words (`words_lineText`) and
leaves alone what it made (`Plain.lineText_lineText`), and a line is found again behind
its prefix (`strip_newLineStart`).
-/
import Pegium.Documentation.DocComment
import Pegium.General.Words

namespace Pegium.Formatting

open Documentation (get_lines rawLines dropReturn)
open Words (words Tight)

/-! ### Lines of a comment -/

/-- How a comment begins, ends and begins its lines, and what is tidied inside. -/
structure MultilineCommentFormatOptions where
  start : List UInt8
  «end» : List UInt8
  newLineStart : List UInt8
  tagContinuation : List UInt8
  tagStart : Option (List UInt8)
  normalizeWhitespace : Bool
  forceMultiline : Bool
  maxBlankLines : ℕ

/-- A blank or a tab. -/
def is_horizontal_whitespace (ch : UInt8) : Bool := ch == 32 || ch == 9

/-- The text without white space at its ends. -/
abbrev trim_horizontal (text : List UInt8) : List UInt8 :=
  Words.trim is_horizontal_whitespace text

/-- The loop over the text: whether something was written, and whether a space waits. -/
def compactFrom (started pendingSpace : Bool) : List UInt8 → List UInt8
  | [] => []
  | ch :: rest =>
    if is_horizontal_whitespace ch then compactFrom started started rest
    else (if pendingSpace then [32] else []) ++ ch :: compactFrom true false rest

/-- Every stretch of white space becomes one blank. -/
def compact_whitespace (text : List UInt8) : List UInt8 := compactFrom false false text

/-- A line without the prefix of comment lines and one blank behind it. -/
def strip_comment_line_prefix (line : List UInt8) (options : MultilineCommentFormatOptions) :
    List UInt8 :=
  let line := trim_horizontal line
  let linePrefix := trim_horizontal options.newLineStart
  let line :=
    if !linePrefix.isEmpty && linePrefix.isPrefixOf line then
      let line := line.drop linePrefix.length
      if line.head?.any is_horizontal_whitespace then line.drop 1 else line
    else line
  trim_horizontal line

/-- White space is compacted where the options say so. -/
def normalize_line_text (line : List UInt8) (options : MultilineCommentFormatOptions) :
    List UInt8 :=
  if options.normalizeWhitespace then compact_whitespace line else line

/-- The line begins with the mark of a tag. -/
def is_tag_line (line : List UInt8) (options : MultilineCommentFormatOptions) : Bool :=
  options.tagStart.any fun tagStart => !tagStart.isEmpty && tagStart.isPrefixOf line

/-- One blank between the tag and its text. -/
def normalize_tag_line (line : List UInt8) (options : MultilineCommentFormatOptions) :
    List UInt8 :=
  let line := trim_horizontal line
  if !is_tag_line line options then normalize_line_text line options
  else if !line.any is_horizontal_whitespace then line
  else
    let tag := line.takeWhile fun ch => !is_horizontal_whitespace ch
    let rest := (line.dropWhile fun ch => !is_horizontal_whitespace ch).drop 1
    let rest := normalize_line_text rest options
    if rest.isEmpty then tag else tag ++ 32 :: rest

/-- What stands before the end of a comment: the prefix of a line without its
mark. -/
def derive_comment_end_prefix (newLineStart : List UInt8) : List UInt8 :=
  let leading := newLineStart.rdropWhile is_horizontal_whitespace
  let linePrefix := trim_horizontal leading
  if linePrefix.isEmpty then newLineStart
  else if linePrefix.isSuffixOf leading then leading.take (leading.length - linePrefix.length)
  else leading

/-- What stands between the start and the end of a comment. -/
def unwrap_comment_body (text : List UInt8) (options : MultilineCommentFormatOptions) :
    Option (List UInt8) :=
  if !options.start.isPrefixOf text || !options.end.isSuffixOf text
      || text.length < options.start.length + options.end.length then none
  else
    let text := text.drop options.start.length
    some (text.take (text.length - options.end.length))

/-- The prefix, and a space behind it if it has none. -/
def leadOf (linePrefix : List UInt8) : List UInt8 :=
  if linePrefix.isEmpty || linePrefix.getLast?.any is_horizontal_whitespace then linePrefix
  else linePrefix ++ [32]

/-- A line behind its prefix; an empty one is the prefix alone. -/
def append_prefixed_comment_line (result linePrefix text : List UInt8) : List UInt8 :=
  if text.isEmpty then result ++ linePrefix else result ++ leadOf linePrefix ++ text

/-! ### Formatting -/

/-- What a line of a comment is. -/
inductive CommentLineKind where
  | blank
  | text
  | tag
  | tagContinuation
  deriving DecidableEq

/-- A line to be written. -/
structure FormattedCommentLine where
  kind : CommentLineKind
  text : List UInt8
  deriving DecidableEq

/-- The lines of a body: the prefix of each but the first is stripped. -/
def normalizedLines (options : MultilineCommentFormatOptions) (body : List UInt8) :
    List (List UInt8) :=
  match get_lines body with
  | [] => []
  | first :: rest => first :: rest.map fun line => strip_comment_line_prefix line options

/-- The lines from the first that is not empty to the last. -/
def contentLines (options : MultilineCommentFormatOptions) (body : List UInt8) :
    List (List UInt8) :=
  Words.trim List.isEmpty (normalizedLines options body)

/-- The loop over the lines: how many blank lines there were, and whether a tag goes on. -/
def formatLines (options : MultilineCommentFormatOptions) :
    ℕ → Bool → List (List UInt8) → List FormattedCommentLine
  | _, _, [] => []
  | blankRun, previousWasTag, line :: rest =>
    if line.isEmpty then
      (if blankRun < options.maxBlankLines then [⟨.blank, []⟩] else []) ++
        formatLines options (blankRun + 1) false rest
    else
      let normalized := normalize_tag_line line options
      if is_tag_line normalized options then
        ⟨.tag, normalized⟩ :: formatLines options 0 true rest
      else
        ⟨if previousWasTag then .tagContinuation else .text, normalize_line_text line options⟩ ::
          formatLines options 0 previousWasTag rest

/-- One line of the result. -/
def appendLine (options : MultilineCommentFormatOptions) (result : List UInt8)
    (line : FormattedCommentLine) : List UInt8 :=
  let result := result ++ [10]
  match line.kind with
  | .blank => result ++ options.newLineStart
  | .tagContinuation =>
    append_prefixed_comment_line result (options.newLineStart ++ options.tagContinuation) line.text
  | .tag | .text => append_prefixed_comment_line result options.newLineStart line.text

/-- Whether the layout has one line. -/
def isSingleLine (options : MultilineCommentFormatOptions) (body : List UInt8) : Bool :=
  !options.forceMultiline && !body.any fun ch => ch == 10 || ch == 13

/-- A comment with its lines cut out, tidied and put together again. -/
def formatMultilineComment (text : List UInt8) (options : MultilineCommentFormatOptions) :
    List UInt8 :=
  match unwrap_comment_body text options with
  | none => text
  | some body =>
    if isSingleLine options body then
      let content := normalize_tag_line ( strip_comment_line_prefix body options) options
      options.start ++ [32] ++ content ++ (if content.isEmpty then [] else [32]) ++ options.end
    else
      let lines := formatLines options 0 false (contentLines options body)
      if lines.isEmpty then options.start ++ [32] ++ options.end
      else
        lines.foldl (appendLine options) options.start ++ [10] ++
          derive_comment_end_prefix options.newLineStart ++ options.end

/-- The words of a comment, without the prefixes of its lines. -/
def commentWords (text : List UInt8) (options : MultilineCommentFormatOptions) :
    List (List UInt8) :=
  match unwrap_comment_body text options with
  | none => []
  | some body =>
    if isSingleLine options body then
      Words.words is_horizontal_whitespace ( strip_comment_line_prefix body options)
    else (normalizedLines options body).flatMap (Words.words is_horizontal_whitespace)

/-! ### The text of a line -/

variable {options : MultilineCommentFormatOptions} {line text : List UInt8}

theorem space_blank : is_horizontal_whitespace 32 = true := rfl

/-- Behind a word, the rest of the text begins with a space if it has a word. -/
theorem compactFrom_started (text : List UInt8) :
    compactFrom true true text = (words is_horizontal_whitespace text).flatMap (32 :: ·) ∧
      compactFrom true false text = (text.takeWhile fun ch => !is_horizontal_whitespace ch) ++
        (words is_horizontal_whitespace
          (text.dropWhile fun ch => !is_horizontal_whitespace ch)).flatMap (32 :: ·) := by
  induction text with
  | nil => exact ⟨rfl, rfl⟩
  | cons ch rest ih =>
    cases hch : is_horizontal_whitespace ch with
    | true =>
      have hstep : ∀ pending, compactFrom true pending (ch :: rest) = compactFrom true true rest :=
        fun pending => if_pos hch
      rw [hstep, hstep, ih.1, List.takeWhile_cons_of_neg (by simp [hch]),
        List.dropWhile_cons_of_neg (by simp [hch]), Words.words_cons hch]
      exact ⟨rfl, rfl⟩
    | false =>
      have hstep : ∀ pending, compactFrom true pending (ch :: rest)
          = (if pending then [32] else []) ++ ch :: compactFrom true false rest :=
        fun pending => if_neg (by simp [hch])
      rw [hstep, hstep, ih.2, List.takeWhile_cons_of_pos (by simp [hch]),
        List.dropWhile_cons_of_pos (by simp [hch]), Words.words_cons_of_not hch,
        List.flatMap_cons]
      exact ⟨rfl, rfl⟩

/-- **White space is compacted** by putting the words together again. -/
theorem compact_whitespace_eq (text : List UInt8) :
    compact_whitespace text = Words.compact is_horizontal_whitespace 32 text := by
  have hjoin : ∀ w (ws : List (List UInt8)),
      [32].intercalate (w :: ws) = w ++ ws.flatMap (32 :: ·) := by
    intro w ws
    induction ws generalizing w with
    | nil => rw [List.intercalate_singleton, List.flatMap_nil, List.append_nil]
    | cons v ws ih => rw [List.intercalate_cons_cons, ih, List.append_assoc]; rfl
  unfold compact_whitespace
  induction text with
  | nil => rfl
  | cons ch rest ih =>
    cases hch : is_horizontal_whitespace ch with
    | true =>
      rw [compactFrom, if_pos hch, ih, Words.compact, Words.compact, Words.words_cons hch]
    | false =>
      rw [compactFrom, if_neg (by simp [hch]), (compactFrom_started rest).2, Words.compact,
        Words.words_cons_of_not hch, hjoin]
      rfl

theorem words_normalize_line_text (line : List UInt8) (options : MultilineCommentFormatOptions) :
    words is_horizontal_whitespace (normalize_line_text line options)
      = words is_horizontal_whitespace line := by
  unfold normalize_line_text
  split
  · rw [compact_whitespace_eq]
    exact Words.words_compact space_blank line
  · rfl

/-- A tag and what is behind it, apart by one space. -/
def spaced (line : List UInt8) : List UInt8 :=
  if !line.any is_horizontal_whitespace then line
  else (line.takeWhile fun ch => !is_horizontal_whitespace ch) ++
    32 :: (line.dropWhile fun ch => !is_horizontal_whitespace ch).drop 1

/-- A text with a blank: the tag, the blank and the rest. -/
theorem exists_blank (h : line.any is_horizontal_whitespace = true) : ∃ tag ch rest,
    line = tag ++ ch :: rest ∧ is_horizontal_whitespace ch = true ∧
      (line.takeWhile fun ch => !is_horizontal_whitespace ch) = tag ∧
      (line.dropWhile fun ch => !is_horizontal_whitespace ch) = ch :: rest ∧
      ∀ ch ∈ tag, is_horizontal_whitespace ch = false := by
  have hall := List.takeWhile_append_dropWhile (p := fun ch => !is_horizontal_whitespace ch)
    (l := line)
  have htag : ∀ ch ∈ line.takeWhile fun ch => !is_horizontal_whitespace ch,
      is_horizontal_whitespace ch = false := fun ch hch => by
    simpa using List.mem_takeWhile_imp hch
  cases hrest : line.dropWhile fun ch => !is_horizontal_whitespace ch with
  | nil =>
    obtain ⟨ch, hmem, hch⟩ := List.any_eq_true.mp h
    rw [hrest, List.append_nil] at hall
    rw [← hall] at hmem
    rw [htag ch hmem] at hch
    exact absurd hch Bool.false_ne_true
  | cons ch rest =>
    have hhead := List.head?_dropWhile_not (fun ch => !is_horizontal_whitespace ch) line
    rw [hrest] at hhead hall
    exact ⟨_, ch, rest, hall.symm, by simpa using hhead, rfl, rfl, htag⟩

theorem words_spaced (line : List UInt8) :
    words is_horizontal_whitespace (spaced line) = words is_horizontal_whitespace line := by
  unfold spaced
  split
  · rfl
  next h =>
    obtain ⟨tag, ch, rest, hline, hch, htake, hdrop, -⟩ := exists_blank (by simpa using h)
    rw [htake, hdrop, List.drop_one, List.tail_cons, hline]
    rw [Words.words_append_cons space_blank, Words.words_append_cons hch]

theorem spaced_spaced (line : List UInt8) : spaced (spaced line) = spaced line := by
  by_cases h : (line.any is_horizontal_whitespace) = true
  · obtain ⟨tag, ch, rest, hline, hch, htake, hdrop, htag⟩ := exists_blank h
    have heq : spaced line = tag ++ 32 :: rest := by
      rw [spaced, h, htake, hdrop]
      rfl
    have hsome : (tag ++ 32 :: rest).any is_horizontal_whitespace = true := by
      simp [space_blank]
    have htake' : ((tag ++ 32 :: rest).takeWhile fun ch => !is_horizontal_whitespace ch) = tag := by
      rw [List.takeWhile_append_of_pos fun ch hch => by simp [htag ch hch]]
      simp [space_blank]
    have hdrop' : ((tag ++ 32 :: rest).dropWhile fun ch => !is_horizontal_whitespace ch)
        = 32 :: rest := by
      rw [List.dropWhile_append_of_pos fun ch hch => by simp [htag ch hch]]
      simp [space_blank]
    rw [heq, spaced, hsome, htake', hdrop']
    rfl
  · have heq : spaced line = line := by
      rw [spaced, Bool.eq_false_iff.mpr h]
      rfl
    rw [heq, heq]

theorem tight_spaced (h : Tight is_horizontal_whitespace line) :
    Tight is_horizontal_whitespace (spaced line) := by
  unfold spaced
  split
  · exact h
  next hany =>
    obtain ⟨tag, ch, rest, hline, hch, htake, hdrop, htag⟩ := exists_blank (by simpa using hany)
    rw [htake, hdrop, List.drop_one, List.tail_cons]
    -- the first character is in the tag, the last one behind it
    have hne : tag ≠ [] := by
      rintro rfl
      have hhead := h.head ch (by rw [hline]; rfl)
      rw [hch] at hhead
      exact absurd hhead.symm Bool.false_ne_true
    have hrest : rest ≠ [] := by
      rintro rfl
      have hlast := h.last ch (by rw [hline]; simp)
      rw [hch] at hlast
      exact absurd hlast.symm Bool.false_ne_true
    constructor
    · intro d hd
      rw [List.head?_append_of_ne_nil _ hne] at hd
      exact htag d (List.mem_of_mem_head? hd)
    · intro d hd
      refine h.last d ?_
      rw [List.getLast?_append_of_ne_nil _ (List.cons_ne_nil _ _),
        List.getLast?_cons_of_ne_nil hrest] at hd
      rw [hline, List.getLast?_append_of_ne_nil _ (List.cons_ne_nil _ _),
        List.getLast?_cons_of_ne_nil hrest]
      exact hd

/-- With white space normalized, a tag line is its words. -/
theorem normalize_tag_line_compact (h : options.normalizeWhitespace = true) (line : List UInt8) :
    normalize_tag_line line options = Words.compact is_horizontal_whitespace 32 line := by
  have htight : Tight is_horizontal_whitespace (trim_horizontal line) := Words.tight_trim line
  have htrim : Words.compact is_horizontal_whitespace 32 (trim_horizontal line)
      = Words.compact is_horizontal_whitespace 32 line :=
    Words.compact_congr (Words.words_trim line)
  have hcompact : ∀ text, normalize_line_text text options
      = Words.compact is_horizontal_whitespace 32 text := by
    intro text
    rw [normalize_line_text, if_pos h, compact_whitespace_eq]
  unfold normalize_tag_line
  simp only [hcompact]
  split
  · exact htrim
  split
  next hany =>
    -- without a blank, the line is a word
    rw [← htrim, Words.compact]
    by_cases hne : trim_horizontal line = []
    · rw [hne, Words.words_nil]
      rfl
    · rw [Words.words_of_forall hne, List.intercalate_singleton]
      intro ch hch
      have hnone : ∀ ch ∈ trim_horizontal line, is_horizontal_whitespace ch = false := by
        simpa using hany
      exact hnone ch hch
  next hany =>
    obtain ⟨tag, ch, rest, hline, hch, htake, hdrop, htag⟩ := exists_blank (by simpa using hany)
    have hne : tag ≠ [] := by
      rintro rfl
      have hhead := htight.head ch (by rw [hline]; rfl)
      rw [hch] at hhead
      exact absurd hhead.symm Bool.false_ne_true
    rw [htake, hdrop, List.drop_one, List.tail_cons, ← htrim, Words.compact, Words.compact, hline,
      Words.words_append_cons hch, Words.words_of_forall hne htag, List.singleton_append]
    cases hwords : words is_horizontal_whitespace rest with
    | nil => rw [List.intercalate_singleton]; rfl
    | cons w ws =>
      have hsome : [32].intercalate (w :: ws) ≠ [] := by
        obtain ⟨hw, -⟩ := Words.mem_words (hwords ▸ List.mem_cons_self)
        cases ws with
        | nil => rwa [List.intercalate_singleton]
        | cons v ws => simp [List.intercalate_cons_cons, hw]
      rw [if_neg (by simpa using hsome), List.intercalate_cons_of_ne_nil (List.cons_ne_nil _ _),
        List.append_assoc]
      rfl

/-- Without, it is trimmed, and one space is behind its tag. -/
theorem normalize_tag_line_raw (h : options.normalizeWhitespace = false) (line : List UInt8) :
    normalize_tag_line line options
      = if is_tag_line (trim_horizontal line) options then spaced (trim_horizontal line)
        else trim_horizontal line := by
  have htight : Tight is_horizontal_whitespace (trim_horizontal line) := Words.tight_trim line
  have hraw : ∀ text, normalize_line_text text options = text := fun text => by
    simp [normalize_line_text, h]
  unfold normalize_tag_line
  simp only [hraw]
  by_cases htag : is_tag_line (trim_horizontal line) options = true
  · rw [htag, if_neg (by simp), if_pos rfl, spaced]
    split
    · rfl
    next hany =>
      obtain ⟨tag, ch, rest, hline, hch, htake, hdrop, -⟩ := exists_blank (by simpa using hany)
      rw [htake, hdrop, List.drop_one, List.tail_cons, if_neg]
      rw [List.isEmpty_iff]
      rintro rfl
      have hlast := htight.last ch (by rw [hline]; simp)
      rw [hch] at hlast
      exact absurd hlast.symm Bool.false_ne_true
  · rw [Bool.eq_false_iff.mpr htag, if_pos (by rfl), if_neg Bool.false_ne_true]

/-- Whether a line is a tag line once it is normalized. -/
def tagLine (options : MultilineCommentFormatOptions) (line : List UInt8) : Bool :=
  is_tag_line (normalize_tag_line line options) options

/-- The text a line gets. -/
def lineText (options : MultilineCommentFormatOptions) (line : List UInt8) : List UInt8 :=
  if tagLine options line then normalize_tag_line line options
  else normalize_line_text line options

theorem words_normalize_tag_line (options : MultilineCommentFormatOptions) (line : List UInt8) :
    words is_horizontal_whitespace (normalize_tag_line line options)
      = words is_horizontal_whitespace line := by
  cases h : options.normalizeWhitespace with
  | true =>
    rw [normalize_tag_line_compact h]
    exact Words.words_compact space_blank line
  | false =>
    rw [normalize_tag_line_raw h]
    split
    · rw [words_spaced]
      exact Words.words_trim line
    · exact Words.words_trim line

theorem tight_normalize_tag_line (options : MultilineCommentFormatOptions) (line : List UInt8) :
    Tight is_horizontal_whitespace (normalize_tag_line line options) := by
  cases h : options.normalizeWhitespace with
  | true =>
    rw [normalize_tag_line_compact h]
    exact Words.tight_compact line
  | false =>
    rw [normalize_tag_line_raw h]
    split
    · exact tight_spaced (Words.tight_trim line)
    · exact Words.tight_trim line

theorem normalize_tag_line_twice (options : MultilineCommentFormatOptions) (line : List UInt8) :
    normalize_tag_line (normalize_tag_line line options) options
      = normalize_tag_line line options := by
  have htrim : trim_horizontal (normalize_tag_line line options)
      = normalize_tag_line line options :=
    (tight_normalize_tag_line options line).trim_eq
  cases h : options.normalizeWhitespace with
  | true =>
    rw [normalize_tag_line_compact h, normalize_tag_line_compact h]
    exact Words.compact_compact space_blank line
  | false =>
    rw [normalize_tag_line_raw h (normalize_tag_line line options), htrim,
      normalize_tag_line_raw h]
    by_cases htag : is_tag_line (trim_horizontal line) options = true
    · rw [if_pos htag, spaced_spaced, ite_self]
    · rw [if_neg htag, if_neg htag]

/-- **The text of a line has its words.** -/
theorem words_lineText (options : MultilineCommentFormatOptions) (line : List UInt8) :
    words is_horizontal_whitespace (lineText options line)
      = words is_horizontal_whitespace line := by
  unfold lineText
  split
  · exact words_normalize_tag_line options line
  · exact words_normalize_line_text line options

/-- A line that is left alone once it was normalized: a tag line, a line with a word, or
a line without blanks at its ends where white space is kept. -/
def Plain (options : MultilineCommentFormatOptions) (line : List UInt8) : Prop :=
  tagLine options line = true ∨
    if options.normalizeWhitespace then words is_horizontal_whitespace line ≠ []
    else trim_horizontal line = line

theorem words_ne_nil (h : Tight is_horizontal_whitespace line) (hne : line ≠ []) :
    words is_horizontal_whitespace line ≠ [] := by
  intro hnil
  have htrim := Words.trim_eq_nil_iff.mpr hnil
  rw [h.trim_eq] at htrim
  exact hne htrim

theorem plain_of_tight (options : MultilineCommentFormatOptions)
    (h : Tight is_horizontal_whitespace line) (hne : line ≠ []) : Plain options line := by
  unfold Plain
  cases options.normalizeWhitespace with
  | true => exact .inr (words_ne_nil h hne)
  | false => exact .inr h.trim_eq

theorem Plain.tight (h : Plain options line) :
    Tight is_horizontal_whitespace (lineText options line) := by
  unfold lineText
  split
  · exact tight_normalize_tag_line options line
  next htag =>
    rcases h with h | h
    · exact absurd h htag
    · unfold normalize_line_text
      cases hw : options.normalizeWhitespace with
      | true =>
        rw [if_pos rfl, compact_whitespace_eq]
        exact Words.tight_compact line
      | false =>
        rw [hw, if_neg Bool.false_ne_true] at h
        rw [if_neg Bool.false_ne_true, ← h]
        exact Words.tight_trim line

theorem ne_nil_of_is_tag_line (h : is_tag_line line options = true) : line ≠ [] := by
  rintro rfl
  cases htag : options.tagStart with
  | none => simp [is_tag_line, htag] at h
  | some tagStart =>
    rw [is_tag_line, htag, Option.any_some, Bool.and_eq_true] at h
    cases tagStart with
    | nil => exact absurd h.1 (by simp)
    | cons ch rest => exact absurd h.2 (by simp [List.isPrefixOf])

/-- A line that is not empty and stays alone has a word. -/
theorem Plain.words_ne (h : Plain options line) (hne : line ≠ []) :
    words is_horizontal_whitespace line ≠ [] := by
  rcases h with htag | h
  · rw [← words_normalize_tag_line options]
    exact words_ne_nil (tight_normalize_tag_line options line) (ne_nil_of_is_tag_line htag)
  · split at h
    · exact h
    · rw [← h] at hne ⊢
      exact words_ne_nil (Words.tight_trim line) hne

theorem Plain.lineText_ne (h : Plain options line) (hne : line ≠ []) :
    lineText options line ≠ [] := by
  intro hnil
  have hwords := words_lineText options line
  rw [hnil, Words.words_nil] at hwords
  exact h.words_ne hne hwords.symm

/-- **The text of a line stays as it is**, and so does whether it is a tag. -/
theorem Plain.lineText_lineText (h : Plain options line) :
    lineText options (lineText options line) = lineText options line ∧
      tagLine options (lineText options line) = tagLine options line := by
  by_cases htag : tagLine options line = true
  · have htext : lineText options line = normalize_tag_line line options := if_pos htag
    have hagain : tagLine options (normalize_tag_line line options) = true := by
      unfold tagLine
      rw [normalize_tag_line_twice]
      exact htag
    rw [htext, htag, lineText, if_pos hagain, normalize_tag_line_twice]
    exact ⟨rfl, hagain⟩
  · have htext : lineText options line = normalize_line_text line options := if_neg htag
    rcases h with h | h
    · exact absurd h htag
    cases hw : options.normalizeWhitespace with
    | true =>
      have hcompact : ∀ text, normalize_line_text text options
          = normalize_tag_line text options := by
        intro text
        rw [normalize_line_text, hw, if_pos rfl, compact_whitespace_eq,
          normalize_tag_line_compact hw]
      have hagain : tagLine options (normalize_tag_line line options) = tagLine options line := by
        unfold tagLine
        rw [normalize_tag_line_twice]
      rw [htext, hcompact, lineText, hagain, if_neg htag, hcompact, normalize_tag_line_twice]
      exact ⟨rfl, rfl⟩
    | false =>
      have hraw : normalize_line_text line options = line := by simp [normalize_line_text, hw]
      rw [htext, hraw, htext, hraw]
      exact ⟨rfl, rfl⟩

/-- The text of a line ends with its last character that is no blank. -/
theorem Plain.getLast?_lineText (h : Plain options line) :
    (lineText options line).getLast? = (trim_horizontal line).getLast? :=
  Words.getLast?_of_words h.tight (Words.tight_trim line)
    ((words_lineText options line).trans (Words.words_trim line).symm)

/-! ### The prefix of a line -/

/-- **A line is found again behind its prefix.** -/
theorem strip_newLineStart (options : MultilineCommentFormatOptions) (text : List UInt8) :
    strip_comment_line_prefix (options.newLineStart ++ text) options = trim_horizontal text := by
  obtain ⟨a, b, hstart, ha, hb⟩ :=
    @Words.exists_trim _ is_horizontal_whitespace options.newLineStart
  have hrest : trim_horizontal (b ++ text) = trim_horizontal text :=
    Words.trim_blank_append hb text
  have htrim : trim_horizontal (options.newLineStart ++ text)
      = trim_horizontal (trim_horizontal options.newLineStart ++ (b ++ text)) := by
    conv_lhs => rw [hstart, List.append_assoc, List.append_assoc]
    exact Words.trim_blank_append ha _
  unfold strip_comment_line_prefix
  dsimp only
  rw [htrim]
  by_cases hempty : trim_horizontal options.newLineStart = []
  · rw [hempty, if_neg (by simp), List.nil_append, hrest]
    exact Words.trim_trim text
  · have htight : Tight is_horizontal_whitespace (trim_horizontal options.newLineStart) :=
      Words.tight_trim _
    have happend : trim_horizontal (trim_horizontal options.newLineStart ++ (b ++ text))
        = trim_horizontal options.newLineStart ++
          (b ++ text).rdropWhile is_horizontal_whitespace := Words.trim_append htight hempty _
    have hbehind : trim_horizontal ((b ++ text).rdropWhile is_horizontal_whitespace)
        = trim_horizontal text := (Words.trim_rdropWhile _).trans hrest
    rw [happend, if_pos (by simp [hempty]), List.drop_left]
    split
    next hblank =>
      -- the blank behind the prefix
      cases hchars : (b ++ text).rdropWhile is_horizontal_whitespace with
      | nil => rw [hchars] at hblank; exact absurd hblank Bool.false_ne_true
      | cons ch rest =>
        rw [hchars] at hblank hbehind
        rw [List.drop_one, List.tail_cons, ← hbehind]
        have hch : ∀ c ∈ [ch], is_horizontal_whitespace c = true := by simpa using hblank
        exact (Words.trim_blank_append hch rest).symm
    next => exact hbehind

theorem tight_strip (options : MultilineCommentFormatOptions) (line : List UInt8) :
    Tight is_horizontal_whitespace ( strip_comment_line_prefix line options) :=
  Words.tight_trim _

theorem trim_sublist (text : List UInt8) : (trim_horizontal text).Sublist text :=
  (List.rdropWhile_prefix _ _).sublist.trans (List.dropWhile_sublist _)

theorem strip_sublist (options : MultilineCommentFormatOptions) (line : List UInt8) :
    ( strip_comment_line_prefix line options).Sublist line := by
  unfold strip_comment_line_prefix
  dsimp only
  refine (trim_sublist _).trans ?_
  split
  · split
    · exact ((List.drop_sublist _ _).trans (List.drop_sublist _ _)).trans (trim_sublist line)
    · exact (List.drop_sublist _ _).trans (trim_sublist line)
  · exact trim_sublist line

end Pegium.Formatting
