/-
Pegium/Documentation/DocComment.lean

Documentation comments.

A comment is cut into lines, the markers at their ends are stripped, and what is left
becomes tokens: a block tag at the start of a line, text, inline tags with their
content, and breaks for blank lines.  The tokens are read into paragraphs and tags,
whose lines and inline tags are their children.  Positions have 32 bits.

A line is tiled by its tokens (`Tiles`): each of them is a slice of the line where its
range says, and between them stand blanks and the braces of inline tags.

Main results: `tiles_build_inline_tokens` and `lineTokens_spec`, a line is read
without loss.
-/
import Mathlib.Data.List.GetD
import Pegium.Parser.TextUtils
import Pegium.Workspace.TextDocument

namespace Pegium.Documentation

/-! ### Text -/

/-- `std::isspace`. -/
def is_space (c : UInt8) : Bool := (9 ≤ c && c ≤ 13) || c == 32

/-- `std::isalpha`. -/
def is_alpha (c : UInt8) : Bool := (65 ≤ c && c ≤ 90) || (97 ≤ c && c ≤ 122)

/-- `std::isalnum`. -/
def is_alnum (c : UInt8) : Bool := is_alpha c || (48 ≤ c && c ≤ 57)

/-- A walk over the characters of a kind, from an index. -/
def skipWhile (p : UInt8 → Bool) (line : List UInt8) (index : ℕ) : ℕ :=
  index + ((line.drop index).takeWhile p).length

/-- The first place from `index` on that holds no white space. -/
def skip_whitespace (line : List UInt8) (index : ℕ) : ℕ := skipWhile is_space line index

/-- The end of the line without the white space behind it. -/
def last_character (line : List UInt8) : ℕ :=
  line.length - (line.reverse.takeWhile is_space).length

/-- The lines of a comment, with what else ends them than the line feed. -/
def rawLines (content : List UInt8) : List (List UInt8) := content.splitOn 10

/-- A carriage return at the end belongs to the line break. -/
def dropReturn (line : List UInt8) : List UInt8 :=
  if line.getLast? = some 13 then line.dropLast else line

/-- The lines of the comment without their breaks. -/
def get_lines (content : List UInt8) : List (List UInt8) := (rawLines content).map dropReturn

/-- Where the line goes on behind the marker, if it begins with it. -/
def match_prefix_marker (line marker : List UInt8) : Option ℕ :=
  let b := skip_whitespace line 0
  if slice line b (b + marker.length) = marker then some (b + marker.length) else none

/-- The blanks before the marker go with it. -/
def match_suffix_marker (line marker : List UInt8) : Option ℕ :=
  let e := last_character line
  if e < marker.length ∨ slice line (e - marker.length) e ≠ marker then none
  else some (last_character (line.take (e - marker.length)))

/-! ### Tokens -/

/-- A line and a character in it. -/
structure DocCommentPosition where
  line : ℕ
  character : ℕ
  deriving DecidableEq

/-- Where something stands in the comment. -/
structure DocCommentRange where
  start : DocCommentPosition
  «end» : DocCommentPosition
  deriving DecidableEq

/-- The markers of a comment: at its start, before its lines and at its end. -/
structure DocCommentParseOptions where
  start : List UInt8
  line : List UInt8
  «end» : List UInt8

/-- The kinds of tokens. -/
inductive TokenType where
  | text
  | tag
  | inlineTag
  | break
  deriving DecidableEq

/-- A token with the text it stands for. -/
structure Token where
  type : TokenType
  content : List UInt8
  range : DocCommentRange
  deriving DecidableEq

/-- A column is cast to 32 bits. -/
def position (line character : ℕ) : DocCommentPosition := ⟨line, character % 2 ^ 32⟩

/-- A block tag at a place of a line: its name and how far it reaches. -/
structure BlockTagMatch where
  fullLength : ℕ
  value : List UInt8

/-- The end of the name of a tag behind its `@`: a letter, then letters and digits. -/
def nameEnd (line : List UInt8) (cursor : ℕ) : ℕ :=
  if cursor < line.length && is_alpha (byteAt line cursor) then
    skipWhile is_alnum line (cursor + 1)
  else cursor

/-- The block tag at `index`, behind white space. -/
def match_block_tag (line : List UInt8) (index : ℕ) : Option BlockTagMatch :=
  let cursor := skip_whitespace line index
  if cursor ≥ line.length || byteAt line cursor ≠ 64 then none
  else
    let stop := nameEnd line (cursor + 1)
    some ⟨stop - index, slice line cursor stop⟩

/-- An inline tag with its parts. -/
structure InlineTagMatch where
  begin : ℕ
  fullLength : ℕ
  whitespace : ℕ
  name : List UInt8
  content : List UInt8
  hasContent : Bool

/-- The search within a tag stops at the brace or at the end of the line. -/
def inContent (c : UInt8) : Bool := c ≠ 125 && c ≠ 10 && c ≠ 13

/-- The inline tag at a position, if there is a whole one. -/
def inlineTagAt (fragment : List UInt8) (pos : ℕ) : Option InlineTagMatch :=
  if byteAt fragment pos ≠ 123 then none
  else if pos + 1 ≥ fragment.length || byteAt fragment (pos + 1) ≠ 64 then none
  else if pos + 2 ≥ fragment.length || !is_alpha (byteAt fragment (pos + 2)) then none
  else
    let nameStop := skipWhile is_alnum fragment (pos + 3)
    let contentStart := skip_whitespace fragment nameStop
    let cursor := skipWhile inContent fragment contentStart
    if cursor ≥ fragment.length || byteAt fragment cursor ≠ 125 then none
    else
      some {
        begin := pos
        fullLength := cursor + 1 - pos
        whitespace := contentStart - nameStop
        name := slice fragment (pos + 1) nameStop
        content := slice fragment contentStart cursor
        hasContent := cursor > contentStart }

/-- The loop over the positions. -/
def findInlineTagsFrom (fragment : List UInt8) : ℕ → ℕ → List InlineTagMatch
  | 0, _ => []
  | fuel + 1, pos =>
    if pos < fragment.length then
      match inlineTagAt fragment pos with
      | some found => found :: findInlineTagsFrom fragment fuel (pos + found.fullLength)
      | none => findInlineTagsFrom fragment fuel (pos + 1)
    else []

/-- The inline tags of a fragment, from left to right. -/
def find_inline_tags (fragment : List UInt8) : List InlineTagMatch :=
  findInlineTagsFrom fragment fragment.length 0

/-- The tokens of one inline tag. -/
def inlineTokens (lineIndex characterBase : ℕ) (found : InlineTagMatch) : List Token :=
  let offset := found.begin + 1
  let tag : Token := ⟨.inlineTag, found.name,
    ⟨position lineIndex (characterBase + offset),
      position lineIndex (characterBase + offset + found.name.length)⟩⟩
  let offset := offset + found.name.length
  if found.hasContent then
    let offset := offset + found.whitespace
    [tag, ⟨.text, found.content,
      ⟨position lineIndex (characterBase + offset),
        position lineIndex (characterBase + offset + found.content.length)⟩⟩]
  else
    [tag, ⟨.text, [],
      ⟨position lineIndex (characterBase + offset), position lineIndex (characterBase + offset)⟩⟩]

/-- The text between two inline tags. -/
def textToken (fragment : List UInt8) (lineIndex characterBase b e : ℕ) : Token :=
  ⟨.text, slice fragment b e,
    ⟨position lineIndex (characterBase + b), position lineIndex (characterBase + e)⟩⟩

/-- The loop over the inline tags. -/
def inlineTokensFrom (fragment : List UInt8) (lineIndex characterBase : ℕ) :
    ℕ → List InlineTagMatch → List Token
  | lastIndex, [] =>
    if lastIndex < fragment.length then
      [textToken fragment lineIndex characterBase lastIndex fragment.length]
    else []
  | lastIndex, found :: rest =>
    (if found.begin > lastIndex then
      [textToken fragment lineIndex characterBase lastIndex found.begin]
    else []) ++ inlineTokens lineIndex characterBase found ++
      inlineTokensFrom fragment lineIndex characterBase (found.begin + found.fullLength) rest

/-- The inline tags of a fragment and the text between them. -/
def build_inline_tokens (fragment : List UInt8) (lineIndex characterBase : ℕ) : List Token :=
  let found := find_inline_tags fragment
  if found.isEmpty then [textToken fragment lineIndex characterBase 0 fragment.length]
  else inlineTokensFrom fragment lineIndex characterBase 0 found

/-- The tokens of what is left of a line behind its markers: a block tag, and the
rest of the line. -/
def contentTokens (line : List UInt8) (index currentLine currentCharacter : ℕ) : List Token :=
  match match_block_tag line index with
  | some tag =>
    let token : Token := ⟨.tag, tag.value,
      ⟨position currentLine (currentCharacter + skip_whitespace line index),
        position currentLine (currentCharacter + index + tag.fullLength)⟩⟩
    let index := skip_whitespace line (index + tag.fullLength)
    token :: if index < line.length then
      build_inline_tokens (line.drop index) currentLine (currentCharacter + index)
    else []
  | none =>
    if index < line.length then
      build_inline_tokens (line.drop index) currentLine (currentCharacter + index)
    else []

/-- Where the line goes on behind its marker. -/
def contentStart (options : DocCommentParseOptions) (first : Bool) (line : List UInt8) : ℕ :=
  if first && !options.start.isEmpty then (match_prefix_marker line options.start).getD 0
  else if !options.line.isEmpty then (match_prefix_marker line options.line).getD 0
  else 0

/-- The line without the end marker and without blanks at its end. -/
def contentLine (options : DocCommentParseOptions) (last : Bool) (line : List UInt8) :
    List UInt8 :=
  let line :=
    if last && !options.end.isEmpty then
      match match_suffix_marker line options.end with
      | some truncate => line.take truncate
      | none => line
    else line
  line.take (last_character line)

/-- What one line adds to the tokens. -/
def lineTokens (options : DocCommentParseOptions) (first last : Bool) (started : Bool)
    (line : List UInt8) (currentLine currentCharacter : ℕ) : List Token :=
  let index := contentStart options first line
  let line := contentLine options last line
  if skip_whitespace line index ≥ line.length then
    if started then
      [⟨.break, [], ⟨position currentLine currentCharacter, position currentLine currentCharacter⟩⟩]
    else []
  else contentTokens line index currentLine currentCharacter

/-- The loop over the lines; the number of the line has 32 bits. -/
def tokenizeFrom (options : DocCommentParseOptions) :
    Bool → List Token → List (List UInt8) → ℕ → ℕ → List Token
  | _, tokens, [], _, _ => tokens
  | first, tokens, line :: rest, currentLine, currentCharacter =>
    tokenizeFrom options false
      (tokens ++ lineTokens options first rest.isEmpty (!tokens.isEmpty) line currentLine
        currentCharacter)
      rest ((currentLine + 1) % 2 ^ 32) 0

/-- The tokens of all lines; a break at the end is dropped. -/
def tokenize (lines : List (List UInt8)) (start : DocCommentPosition)
    (options : DocCommentParseOptions) : List Token :=
  let tokens := tokenizeFrom options true [] lines start.line start.character
  if tokens.getLast?.any fun token => token.type = .break then tokens.dropLast else tokens

/-! ### Walks -/

/-- Only blanks stand between two columns. -/
def Blank (line : List UInt8) (a b : ℕ) : Prop :=
  ∀ j, a ≤ j → j < b → is_space (byteAt line j) = true

variable {line fragment : List UInt8} {a b c e i j k index pos base stop : ℕ} {p : UInt8 → Bool}

theorem byteAt_drop (line : List UInt8) (k j : ℕ) :
    byteAt (line.drop k) j = byteAt line (k + j) := by
  simp [byteAt, List.getD_eq_getElem?_getD]

theorem le_skipWhile : index ≤ skipWhile p line index := Nat.le_add_right _ _

theorem skipWhile_le (h : index ≤ line.length) : skipWhile p line index ≤ line.length := by
  have hle := (List.takeWhile_prefix (l := line.drop index) p).length_le
  rw [List.length_drop] at hle
  unfold skipWhile
  omega

theorem of_lt_takeWhile {l : List UInt8} (h : k < (l.takeWhile p).length) :
    p (l.getD k 0) = true := by
  induction l generalizing k with
  | nil => exact absurd h (Nat.not_lt_zero k)
  | cons x l ih =>
    rw [List.takeWhile_cons] at h
    split at h
    next hx =>
      cases k with
      | zero => exact hx
      | succ k => exact ih (Nat.lt_of_succ_lt_succ h)
    next => exact absurd h (Nat.not_lt_zero k)

/-- What is walked over is of the kind. -/
theorem of_lt_skipWhile (hj : index ≤ j) (hlt : j < skipWhile p line index) :
    p (byteAt line j) = true := by
  have hk : j - index < ((line.drop index).takeWhile p).length := by
    unfold skipWhile at hlt
    omega
  have hbyte : byteAt line j = byteAt (line.drop index) (j - index) := by
    rw [byteAt_drop, Nat.add_sub_cancel' hj]
  rw [hbyte]
  exact of_lt_takeWhile hk

theorem blank_skip_whitespace (line : List UInt8) (index : ℕ) :
    Blank line index (skip_whitespace line index) :=
  fun _ hj hlt => of_lt_skipWhile hj hlt

theorem last_character_le (line : List UInt8) : last_character line ≤ line.length :=
  Nat.sub_le _ _

/-- Behind the last character stand blanks. -/
theorem blank_last_character (line : List UInt8) :
    Blank line (last_character line) line.length := by
  intro j hj hlt
  unfold last_character at hj
  have hk : line.length - 1 - j < (line.reverse.takeWhile is_space).length := by omega
  have hbyte : byteAt line j = line.reverse.getD (line.length - 1 - j) 0 := by
    rw [List.getD_reverse _ (by omega), byteAt]
    congr 1
    omega
  rw [hbyte]
  exact of_lt_takeWhile hk

theorem visible_of_blank (h : Blank line a b) (hj : a ≤ j)
    (hchar : is_space (byteAt line j) = false) : b ≤ j := by
  by_contra hlow
  have hspace := h j hj (Nat.lt_of_not_le hlow)
  rw [hchar] at hspace
  exact Bool.false_ne_true hspace

/-! ### Markers -/

/-- The marker at the start of a line. -/
def leadingMarker (options : DocCommentParseOptions) (first : Bool) : List UInt8 :=
  if first && !options.start.isEmpty then options.start else options.line

/-- A column of one of the markers that are stripped from a line. -/
inductive Stripped (options : DocCommentParseOptions) (first last : Bool) (line : List UInt8)
    (j : ℕ) : Prop where
  | leading {b : ℕ} : Blank line 0 b →
      slice line b (b + (leadingMarker options first).length) = leadingMarker options first →
      b ≤ j → j < b + (leadingMarker options first).length → Stripped options first last line j
  | trailing {b : ℕ} : last = true → slice line b (b + options.end.length) = options.end →
      Blank line (b + options.end.length) line.length →
      b ≤ j → j < b + options.end.length → Stripped options first last line j

variable {options : DocCommentParseOptions} {first last : Bool}

theorem match_prefix_marker_spec {marker : List UInt8}
    (h : match_prefix_marker line marker = some index) :
    ∃ b, index = b + marker.length ∧ Blank line 0 b ∧
      slice line b (b + marker.length) = marker := by
  unfold match_prefix_marker at h
  dsimp only at h
  split at h
  next hmarker =>
    obtain rfl := Option.some.inj h
    exact ⟨_, rfl, blank_skip_whitespace line 0, hmarker⟩
  next => exact nomatch h

/-- Before the content of a line stand blanks and its marker. -/
theorem contentStart_spec (hj : j < contentStart options first line)
    (hchar : is_space (byteAt line j) = false) : Stripped options first last line j := by
  have hmatched : ∀ marker, leadingMarker options first = marker →
      j < (match_prefix_marker line marker).getD 0 → Stripped options first last line j := by
    intro marker hmarker hlt
    cases hfound : match_prefix_marker line marker with
    | none =>
      rw [hfound] at hlt
      exact absurd hlt (Nat.not_lt_zero j)
    | some index =>
      rw [hfound, Option.getD_some] at hlt
      obtain ⟨b, rfl, hblank, hslice⟩ := match_prefix_marker_spec hfound
      subst hmarker
      exact .leading hblank hslice (visible_of_blank hblank (Nat.zero_le j) hchar) hlt
  unfold contentStart at hj
  unfold leadingMarker at hmatched
  split at hj
  next hfirst => exact hmatched options.start (if_pos hfirst) hj
  next hfirst =>
    split at hj
    · exact hmatched options.line (if_neg hfirst) hj
    · exact absurd hj (Nat.not_lt_zero j)

/-- In the part of a line up to a column, blanks end at its last character. -/
theorem blank_take (htruncate : stop ≤ line.length) :
    last_character (line.take stop) ≤ stop ∧
      Blank line (last_character (line.take stop)) stop := by
  have hlength : (line.take stop).length = stop := List.length_take_of_le htruncate
  constructor
  · have hle := last_character_le (line.take stop)
    rwa [hlength] at hle
  · intro j hj hlt
    rw [← byteAt_take hlt]
    exact blank_last_character (line.take stop) j hj (by rwa [hlength])

/-- Behind the cut stand blanks, the marker and blanks. -/
theorem match_suffix_marker_spec {marker : List UInt8}
    (h : match_suffix_marker line marker = some stop) :
    stop ≤ line.length ∧ ∀ j, stop ≤ j → j < line.length → is_space (byteAt line j) = false →
      ∃ b, slice line b (b + marker.length) = marker ∧
        Blank line (b + marker.length) line.length ∧ b ≤ j ∧ j < b + marker.length := by
  unfold match_suffix_marker at h
  dsimp only at h
  split at h
  next => exact nomatch h
  next hmarker =>
    rw [not_or, not_not, Nat.not_lt] at hmarker
    obtain ⟨hfits, hslice⟩ := hmarker
    obtain rfl := Option.some.inj h
    have hend := last_character_le line
    have hsum := Nat.sub_add_cancel hfits
    obtain ⟨hcut, hblank⟩ :=
      @blank_take line _ (Nat.le_trans (Nat.sub_le (last_character line) marker.length) hend)
    refine ⟨by omega, fun j hj hlt hchar => ⟨last_character line - marker.length, ?_⟩⟩
    rw [hsum]
    refine ⟨hslice, blank_last_character line, visible_of_blank hblank hj hchar, ?_⟩
    by_contra hhigh
    have hend := visible_of_blank (blank_last_character line) (Nat.le_of_not_lt hhigh) hchar
    omega

/-- The end of the content of a line, and what is behind it. -/
theorem contentLine_spec (options : DocCommentParseOptions) (first last : Bool)
    (line : List UInt8) :
    ∃ stop ≤ line.length, contentLine options last line = line.take stop ∧
      ∀ j, stop ≤ j → j < line.length → is_space (byteAt line j) = false →
        Stripped options first last line j := by
  have hnone : contentLine options last line = line.take (last_character line) →
      ∃ stop ≤ line.length, contentLine options last line = line.take stop ∧
        ∀ j, stop ≤ j → j < line.length → is_space (byteAt line j) = false →
          Stripped options first last line j := by
    intro heq
    refine ⟨_, last_character_le line, heq, fun j hj hlt hchar => ?_⟩
    exact absurd hlt (Nat.not_lt.mpr (visible_of_blank (blank_last_character line) hj hchar))
  by_cases hlast : (last && !options.end.isEmpty) = true
  · cases hfound : match_suffix_marker line options.end with
    | none =>
      refine hnone ?_
      unfold contentLine
      rw [if_pos hlast, hfound]
    | some truncate =>
      obtain ⟨htruncate, hmarker⟩ := match_suffix_marker_spec hfound
      obtain ⟨hcut, hblank⟩ := blank_take htruncate
      refine ⟨_, Nat.le_trans hcut htruncate, ?_, fun j hj hlt hchar => ?_⟩
      · unfold contentLine
        rw [if_pos hlast, hfound, List.take_take, Nat.min_eq_left hcut]
      · obtain ⟨b, hslice, hbehind, hb, hjb⟩ :=
          hmarker j (visible_of_blank hblank hj hchar) hlt hchar
        exact .trailing (Bool.and_eq_true_iff.mp hlast).1 hslice hbehind hb hjb
  · refine hnone ?_
    unfold contentLine
    rw [if_neg hlast]

/-! ### Tiles of a line -/

/-- The token of a slice of a line, on the line `i` from the column `base` on. -/
def tokenAt (i base : ℕ) (line : List UInt8) (type : TokenType) (b e : ℕ) : Token :=
  ⟨type, slice line b e, ⟨position i (base + b), position i (base + e)⟩⟩

/-- The tokens of a line between two columns, one after the other.  An inline tag has
its content, or nothing right behind its name if there is none, and its braces. -/
inductive Tiles (i base : ℕ) (line : List UInt8) : ℕ → ℕ → List Token → Prop
  | nil (a : ℕ) : Tiles i base line a a []
  | blank {a b c : ℕ} {tokens : List Token} : a ≤ c → Blank line a c →
      Tiles i base line c b tokens → Tiles i base line a b tokens
  | text {a b e : ℕ} {tokens : List Token} : a ≤ e → Tiles i base line e b tokens →
      Tiles i base line a b (tokenAt i base line .text a e :: tokens)
  | tag {a b e : ℕ} {tokens : List Token} : byteAt line a = 64 → a < e →
      Tiles i base line e b tokens →
      Tiles i base line a b (tokenAt i base line .tag a e :: tokens)
  | inlineTag {a b c e stop : ℕ} {tokens : List Token} : byteAt line a = 123 →
      byteAt line (a + 1) = 64 → a + 1 < stop → stop ≤ c → Blank line stop c → c ≤ e →
      byteAt line e = 125 → Tiles i base line (e + 1) b tokens →
      Tiles i base line a b (tokenAt i base line .inlineTag (a + 1) stop ::
        (if c < e then tokenAt i base line .text c e else tokenAt i base line .text stop stop) ::
        tokens)

theorem Tiles.le {tokens : List Token} (h : Tiles i base line a b tokens) : a ≤ b := by
  induction h with
  | nil => exact Nat.le_refl _
  | blank hle _ _ ih => exact Nat.le_trans hle ih
  | text hle _ ih => exact Nat.le_trans hle ih
  | tag _ hlt _ ih => exact Nat.le_trans (Nat.le_of_lt hlt) ih
  | inlineTag _ _ hname hc _ he _ _ ih => omega

/-- The tiles of a part are tiles of the whole. -/
theorem Tiles.shift {part : List UInt8} {tokens : List Token}
    (hbyte : ∀ j < part.length, byteAt part j = byteAt line (k + j))
    (hslice : ∀ b e, e ≤ part.length → slice part b e = slice line (k + b) (k + e))
    (h : Tiles i (base + k) part a b tokens) (hb : b ≤ part.length) :
    Tiles i base line (k + a) (k + b) tokens := by
  have htoken : ∀ type b e, e ≤ part.length →
      tokenAt i (base + k) part type b e = tokenAt i base line type (k + b) (k + e) := by
    intro type b e he
    unfold tokenAt
    rw [hslice b e he, Nat.add_assoc, Nat.add_assoc]
  have hblank : ∀ {a c}, c ≤ part.length → Blank part a c → Blank line (k + a) (k + c) := by
    intro a c hc hblank j hj hlt
    have hspace := hblank (j - k) (by omega) (by omega)
    rwa [hbyte _ (by omega), Nat.add_sub_cancel' (by omega)] at hspace
  induction h with
  | nil => exact .nil _
  | blank hle hspaces hrest ih =>
    exact .blank (by omega) (hblank (Nat.le_trans hrest.le hb) hspaces) (ih hb)
  | text hle hrest ih =>
    rw [htoken _ _ _ (Nat.le_trans hrest.le hb)]
    exact .text (by omega) (ih hb)
  | tag hat hlt hrest ih =>
    have hle := hrest.le
    rw [htoken _ _ _ (Nat.le_trans hle hb)]
    refine .tag ?_ (by omega) (ih hb)
    rw [← hbyte _ (by omega)]
    exact hat
  | @inlineTag a b c e stop tokens hopen hat hname hc hspaces he hclose hrest ih =>
    have hle := hrest.le
    rw [htoken _ _ _ (by omega), htoken _ _ _ (by omega), htoken _ _ _ (by omega)]
    have hif : (if c < e then tokenAt i base line .text (k + c) (k + e)
          else tokenAt i base line .text (k + stop) (k + stop))
        = if k + c < k + e then tokenAt i base line .text (k + c) (k + e)
          else tokenAt i base line .text (k + stop) (k + stop) := by
      simp only [Nat.add_lt_add_iff_left]
    rw [hif]
    refine .inlineTag ?_ ?_ (by omega) (by omega) (hblank (by omega) hspaces) (by omega) ?_
      (ih hb)
    · rw [← hbyte _ (by omega)]
      exact hopen
    · rw [Nat.add_assoc, ← hbyte _ (by omega)]
      exact hat
    · rw [← hbyte _ (by omega)]
      exact hclose

/-! ### Inline tags -/

/-- A whole inline tag: where its name, its content and its braces are. -/
theorem inlineTagAt_spec {found : InlineTagMatch} (h : inlineTagAt fragment pos = some found) :
    ∃ stop c e, found = ⟨pos, e + 1 - pos, c - stop, slice fragment (pos + 1) stop,
        slice fragment c e, decide (c < e)⟩ ∧
      byteAt fragment pos = 123 ∧ byteAt fragment (pos + 1) = 64 ∧ pos + 1 < stop ∧ stop ≤ c ∧
      Blank fragment stop c ∧ c ≤ e ∧ e < fragment.length ∧ byteAt fragment e = 125 := by
  unfold inlineTagAt at h
  split at h
  next => exact nomatch h
  next hopen =>
    split at h
    next => exact nomatch h
    next hat =>
      split at h
      next => exact nomatch h
      next halpha =>
        dsimp only at h
        split at h
        next => exact nomatch h
        next hclose =>
          obtain rfl := Option.some.inj h
          rw [Bool.or_eq_true, not_or] at hat hclose
          simp only [decide_eq_true_eq, not_not] at hopen hat hclose
          have hname : pos + 3 ≤ skipWhile is_alnum fragment (pos + 3) := le_skipWhile
          have hblanks : skipWhile is_alnum fragment (pos + 3)
              ≤ skip_whitespace fragment (skipWhile is_alnum fragment (pos + 3)) := le_skipWhile
          exact ⟨_, _, _, rfl, hopen, hat.2, by omega, hblanks, blank_skip_whitespace _ _,
            le_skipWhile, by omega, hclose.2⟩

theorem length_slice_of_le (he : e ≤ line.length) : (slice line b e).length = e - b := by
  rw [slice, List.length_take, List.length_drop]
  omega

/-- The tokens of an inline tag are two tiles. -/
theorem inlineTokens_eq {c e : ℕ} (hname : pos + 1 < stop) (hc : stop ≤ c)
    (hce : c ≤ e) (he : e < fragment.length) :
    inlineTokens i base ⟨pos, e + 1 - pos, c - stop, slice fragment (pos + 1) stop,
        slice fragment c e, decide (c < e)⟩
      = [tokenAt i base fragment .inlineTag (pos + 1) stop,
        if c < e then tokenAt i base fragment .text c e
        else tokenAt i base fragment .text stop stop] := by
  have hlength : (slice fragment (pos + 1) stop).length = stop - (pos + 1) :=
    length_slice_of_le (by omega)
  have hcontent : (slice fragment c e).length = e - c := length_slice_of_le (by omega)
  have hstop : base + (pos + 1) + (stop - (pos + 1)) = base + stop := by omega
  have hstop' : base + (pos + 1 + (stop - (pos + 1))) = base + stop := by omega
  have hempty : slice fragment stop stop = [] := by simp [slice]
  unfold inlineTokens
  dsimp only
  rw [hlength, hstop]
  by_cases hcase : c < e
  · have hbegin : base + (pos + 1 + (stop - (pos + 1)) + (c - stop)) = base + c := by omega
    have hend : base + c + (e - c) = base + e := by omega
    rw [if_pos (decide_eq_true hcase), if_pos hcase, hcontent, hbegin, hend]
    rfl
  · rw [if_neg (by simpa using hcase), if_neg hcase, hstop', tokenAt, tokenAt, hempty]

theorem tiles_end (hlast : a ≤ fragment.length) :
    Tiles i base fragment a fragment.length (inlineTokensFrom fragment i base a []) := by
  unfold inlineTokensFrom
  split
  next => exact .text hlast (.nil _)
  next hend =>
    obtain rfl : a = fragment.length := by omega
    exact .nil _

/-- The loop over the positions of a fragment tiles it. -/
theorem tiles_inlineTokensFrom (fuel : ℕ) (hlast : a ≤ pos) (ha : a ≤ fragment.length) :
    Tiles i base fragment a fragment.length
      (inlineTokensFrom fragment i base a (findInlineTagsFrom fragment fuel pos)) := by
  induction fuel generalizing a pos with
  | zero => exact tiles_end ha
  | succ fuel ih =>
    unfold findInlineTagsFrom
    split
    next hpos =>
      split
      next found hfound =>
        obtain ⟨stop, c, e, rfl, hopen, hat, hname, hc, hspaces, hce, he, hclose⟩ :=
          inlineTagAt_spec hfound
        have hnext : pos + (e + 1 - pos) = e + 1 := by omega
        unfold inlineTokensFrom
        dsimp only
        rw [inlineTokens_eq hname hc hce he, hnext, List.append_assoc]
        have htag : Tiles i base fragment pos fragment.length _ :=
          .inlineTag hopen hat hname hc hspaces hce hclose (ih (Nat.le_refl _) he)
        -- the text before the tag, if there is some
        split
        next => exact .text hlast htag
        next hnone =>
          obtain rfl : a = pos := by omega
          exact htag
      next => exact ih (by omega) ha
    next => exact tiles_end ha

/-- **A fragment is read without loss.** -/
theorem tiles_build_inline_tokens (fragment : List UInt8) (i base : ℕ) :
    Tiles i base fragment 0 fragment.length (build_inline_tokens fragment i base) := by
  unfold build_inline_tokens
  dsimp only
  split
  next => exact .text (Nat.zero_le _) (.nil _)
  next => exact tiles_inlineTokensFrom _ (Nat.le_refl 0) (Nat.zero_le _)

/-! ### Whole lines -/

theorem le_nameEnd (line : List UInt8) (c : ℕ) : c ≤ nameEnd line c := by
  unfold nameEnd
  split
  · exact Nat.le_trans (Nat.le_succ c) le_skipWhile
  · exact Nat.le_refl c

theorem nameEnd_le (hc : c ≤ line.length) : nameEnd line c ≤ line.length := by
  unfold nameEnd
  split
  next h =>
    rw [Bool.and_eq_true, decide_eq_true_eq] at h
    exact skipWhile_le h.1
  next => exact hc

/-- A block tag: behind blanks, its `@` and its name. -/
theorem match_block_tag_spec {found : BlockTagMatch}
    (h : match_block_tag line index = some found) :
    ∃ stop, found = ⟨stop - index, slice line (skip_whitespace line index) stop⟩ ∧
      byteAt line (skip_whitespace line index) = 64 ∧ skip_whitespace line index < stop ∧
      stop ≤ line.length := by
  unfold match_block_tag at h
  dsimp only at h
  split at h
  next => exact nomatch h
  next hat =>
    obtain rfl := Option.some.inj h
    rw [Bool.or_eq_true, not_or] at hat
    simp only [ge_iff_le, decide_eq_true_eq, not_not, Nat.not_le] at hat
    exact ⟨_, rfl, hat.2, le_nameEnd line _, nameEnd_le hat.1⟩

/-- What is left of a line behind its tag. -/
theorem tiles_rest (hindex : index ≤ line.length) :
    Tiles i base line index line.length
      (if index < line.length then
        build_inline_tokens (line.drop index) i (base + index)
      else []) := by
  split
  next =>
    have hrest := Tiles.shift (fun j _ => byteAt_drop line index j)
      (fun b e _ => by rw [slice, slice, List.drop_drop, Nat.add_sub_add_left])
      (tiles_build_inline_tokens (line.drop index) i (base + index)) (Nat.le_refl _)
    rw [List.length_drop, Nat.add_sub_cancel' hindex] at hrest
    exact hrest
  next hend =>
    obtain rfl : index = line.length := by omega
    exact .nil _

/-- **The content of a line is read without loss.** -/
theorem tiles_contentTokens (hindex : index ≤ line.length) :
    Tiles i base line index line.length (contentTokens line index i base) := by
  unfold contentTokens
  split
  next found hfound =>
    obtain ⟨stop, rfl, hat, hlt, hstop⟩ := match_block_tag_spec hfound
    have hle : index ≤ skip_whitespace line index := le_skipWhile
    have hsum : index + (stop - index) = stop := by omega
    dsimp only
    rw [Nat.add_assoc, hsum]
    refine .blank hle (blank_skip_whitespace line index) (.tag hat hlt ?_)
    exact .blank le_skipWhile (blank_skip_whitespace line stop) (tiles_rest (skipWhile_le hstop))
  next => exact tiles_rest hindex

/-- What a line adds to the tokens: a break if it has no content, or its tiles.  What
is outside of the content was stripped. -/
inductive LineRead (options : DocCommentParseOptions) (first last started : Bool)
    (line : List UInt8) (i base : ℕ) : List Token → Prop where
  | blank : (∀ j < line.length, is_space (byteAt line j) = false →
      Stripped options first last line j) →
      LineRead options first last started line i base
        (if started then [⟨.break, [], ⟨position i base, position i base⟩⟩] else [])
  | tiles {a b : ℕ} {tokens : List Token} : a < b → b ≤ line.length →
      Tiles i base line a b tokens →
      (∀ j < line.length, j < a ∨ b ≤ j → is_space (byteAt line j) = false →
        Stripped options first last line j) →
      LineRead options first last started line i base tokens

/-- **A line is read without loss.** -/
theorem lineTokens_spec (options : DocCommentParseOptions) (first last started : Bool)
    (line : List UInt8) (i base : ℕ) :
    LineRead options first last started line i base
      (lineTokens options first last started line i base) := by
  obtain ⟨stop, hstop, hline, hbehind⟩ := contentLine_spec options first last line
  have hlength : (line.take stop).length = stop := List.length_take_of_le hstop
  unfold lineTokens
  dsimp only
  rw [hline]
  split
  next hblank =>
    rw [hlength] at hblank
    refine .blank fun j hj hchar => ?_
    by_cases hlow : j < contentStart options first line
    · exact contentStart_spec hlow hchar
    · refine hbehind j ?_ hj hchar
      by_contra hin
      rw [← byteAt_take (Nat.lt_of_not_le hin)] at hchar
      have hvisible := visible_of_blank
        (blank_skip_whitespace (line.take stop) (contentStart options first line))
        (Nat.le_of_not_lt hlow) hchar
      omega
  next hcontent =>
    rw [hlength] at hcontent
    have hindex : contentStart options first line < stop := by
      have hle : contentStart options first line
          ≤ skip_whitespace (line.take stop) (contentStart options first line) := le_skipWhile
      omega
    refine .tiles hindex hstop ?_ fun j hj hout hchar => ?_
    · have hstart : contentStart options first line ≤ (line.take stop).length := by
        rw [hlength]
        exact Nat.le_of_lt hindex
      have htiles := @tiles_contentTokens (line.take stop) i _ (base + 0) hstart
      have hwhole := @Tiles.shift line _ _ i 0 base _ _ (fun j hj => ?_) (fun b e he => ?_) htiles
        (Nat.le_refl _)
      · rw [Nat.zero_add, Nat.zero_add, hlength] at hwhole
        exact hwhole
      · rw [Nat.zero_add]
        exact byteAt_take (by rwa [hlength] at hj)
      · rw [hlength] at he
        rw [Nat.zero_add, Nat.zero_add, slice, slice, List.drop_take, List.take_take]
        congr 1
        omega
    · rcases hout with hlow | hhigh
      · exact contentStart_spec hlow hchar
      · exact hbehind j hhigh hj hchar

end Pegium.Documentation
