/-
Pegium/Lsp/SemanticTokens.lean

Semantic tokens, and how they are encoded.

The nodes of a document are visited in preorder, and what is highlighted at each becomes
one token, or one token a line where the client does not take tokens of several lines.
The tokens are sorted by their positions and encoded by what the next one is further on.
A request for a range leaves out the tokens that do not overlap it, and does not visit
the nodes that do not.  So it misses none if what is highlighted at a node lies within the
node, and a node within its parent (`Nested`); an AST whose children reach out of their
parents may lose tokens there.

`std::ranges::sort` promises no order of tokens at one position, so it is any sort.

Main result: `decode_buildSemanticTokens`.
-/
import Mathlib.Data.List.Sort
import Pegium.General.OrderedForest
import Pegium.Workspace.TextPositions

namespace Pegium.SemanticTokens

/-! ### Tokens -/

/-- `kSemanticTokenTypes`. -/
def semanticTokenTypes : List String :=
  ["class", "comment", "enum", "enumMember", "event", "function", "interface", "keyword",
    "macro", "method", "modifier", "namespace", "number", "operator", "parameter", "property",
    "regexp", "string", "struct", "type", "typeParameter", "variable", "decorator"]

/-- `kSemanticTokenModifiers`. -/
def semanticTokenModifiers : List String :=
  ["abstract", "async", "declaration", "defaultLibrary", "definition", "deprecated",
    "documentation", "modification", "readonly", "static"]

/-- A token as a provider reports it. -/
structure SemanticTokenInfo where
  range : TextRange
  type : String
  modifiers : List String
  deriving DecidableEq

/-- A token on one line, its type and modifiers as numbers. -/
structure EncodedSemanticToken where
  line : ℕ
  character : ℕ
  length : ℕ
  type : ℕ
  modifiers : ℕ
  deriving DecidableEq

/-- The bits of the known modifiers. -/
def modifierBits (modifiers : List String) : ℕ :=
  modifiers.foldl (fun bits modifier =>
    match semanticTokenModifiers.findIdx? (· == modifier) with
    | some index => bits ||| 1 <<< index
    | none => bits) 0

/-- The range of a span of offsets. -/
def to_lsp_range (text : List UInt8) (span : ℕ × ℕ) : TextRange :=
  ⟨positionAt text span.1, positionAt text span.2⟩

/-- Two ranges share a byte. -/
def ranges_overlap (text : List UInt8) (left right : TextRange) : Bool :=
  offsetAt text left.start < offsetAt text right.stop &&
    offsetAt text right.start < offsetAt text left.stop

/-- Whether a range is asked for. -/
def isRequested (text : List UInt8) (filterRange : Option TextRange) (range : TextRange) : Bool :=
  match filterRange with
  | none => true
  | some filterRange => ranges_overlap text range filterRange

/-- A difference of two `uint32_t`. -/
def sub32 (a b : ℕ) : ℕ := (a + uint32Size - b) % uint32Size

/-- The UTF-16 length of a text. -/
def utf16_length (text : List UInt8) : ℕ := utf16.weigh text

/-- The UTF-16 length of a stretch of the text. -/
def utf16_length_between_offsets (text : List UInt8) (begin stop : ℕ) : ℕ :=
  if stop ≤ begin then 0 else utf16_length (slice text begin stop)

/-- Where the content of a line ends, before its line feed and a carriage return. -/
def line_content_end_offset (text : List UInt8) (line : ℕ) : ℕ :=
  let stop := offsetAt text ⟨(line + 1) % uint32Size, 0⟩
  if stop = 0 then 0
  else
    let stop := if stop ≤ text.length ∧ byteAt text (stop - 1) = 10 then stop - 1 else stop
    if 0 < stop ∧ stop ≤ text.length ∧ byteAt text (stop - 1) = 13 then stop - 1 else stop

/-- A token without length is not encoded. -/
def append_encoded_token (line character length type modifiers : ℕ) :
    List EncodedSemanticToken :=
  if length = 0 then [] else [⟨line, character, length, type, modifiers⟩]

/-- The loop over the lines before the last, of which so many are left. -/
def append_segments (text : List UInt8) (endLine endOffset type modifiers : ℕ) :
    ℕ → ℕ → ℕ → ℕ → List EncodedSemanticToken
  | 0, segmentStart, _, _ =>
    append_encoded_token endLine 0 (utf16_length_between_offsets text segmentStart endOffset)
      type modifiers
  | n + 1, segmentStart, line, character =>
    append_encoded_token line character
        (utf16_length_between_offsets text segmentStart (line_content_end_offset text line))
        type modifiers ++
      append_segments text endLine endOffset type modifiers n
        (offsetAt text ⟨(line + 1) % uint32Size, 0⟩) ((line + 1) % uint32Size) 0

/-- What is appended for a token that is not filtered out. -/
def append_accepted_token (text : List UInt8) (supportsMultilineTokens : Bool)
    (token : SemanticTokenInfo) : List EncodedSemanticToken :=
  match semanticTokenTypes.findIdx? (· == token.type) with
  | none => []
  | some type =>
    let modifiers := modifierBits token.modifiers
    let start := token.range.start
    let stop := token.range.stop
    let startOffset := offsetAt text start
    let endOffset := offsetAt text stop
    if endOffset ≤ startOffset then []
    else if start.line = stop.line then
      append_encoded_token start.line start.character (sub32 stop.character start.character)
        type modifiers
    else if supportsMultilineTokens then
      append_encoded_token start.line start.character
        (utf16_length_between_offsets text startOffset endOffset) type modifiers
    else
      append_segments text stop.line endOffset type modifiers (stop.line - start.line)
        startOffset start.line start.character

/-- The encoded pieces of a token, if the request asks for it. -/
def append_semantic_token (text : List UInt8) (filterRange : Option TextRange)
    (supportsMultilineTokens : Bool) (token : SemanticTokenInfo) : List EncodedSemanticToken :=
  if !isRequested text filterRange token.range then []
  else append_accepted_token text supportsMultilineTokens token

/-! ### The tokens of a document -/

/-- A node: its range if it has one, and what is highlighted at it. -/
structure HighlightedNode where
  cstNode : Option (ℕ × ℕ)
  highlightElement : List SemanticTokenInfo

/-- Whether a node is visited, and its children after it. -/
def isVisited (text : List UInt8) (range : Option TextRange) (node : HighlightedNode) : Bool :=
  match node.cstNode with
  | none => false
  | some span => isRequested text range (to_lsp_range text span)

/-- What is passed to the acceptor. -/
def visit (text : List UInt8) (range : Option TextRange) :
    Forest HighlightedNode → List SemanticTokenInfo
  | .nil => []
  | .cons node children rest =>
    (if isVisited text range node then node.highlightElement ++ visit text range children
      else []) ++ visit text range rest

/-- The differences between the tokens, five numbers for each. -/
def encodeFrom : ℕ → ℕ → List EncodedSemanticToken → List ℕ
  | _, _, [] => []
  | previousLine, previousCharacter, token :: tokens =>
    let deltaLine := sub32 token.line previousLine
    let deltaCharacter :=
      if deltaLine = 0 then sub32 token.character previousCharacter else token.character
    deltaLine :: deltaCharacter :: token.length :: token.type :: token.modifiers ::
      encodeFrom token.line token.character tokens

/-- The tokens before they are sorted. -/
def collectTokens (text : List UInt8) (range : Option TextRange) (supportsMultilineTokens : Bool)
    (ast : Forest HighlightedNode) : List EncodedSemanticToken :=
  (visit text range ast).flatMap (append_semantic_token text range supportsMultilineTokens)

/-- The data of a response.  A document without an AST has no nodes. -/
def buildSemanticTokens (sort : List EncodedSemanticToken → List EncodedSemanticToken)
    (text : List UInt8) (range : Option TextRange) (supportsMultilineTokens : Bool)
    (ast : Forest HighlightedNode) : List ℕ :=
  encodeFrom 0 0 (sort (collectTokens text range supportsMultilineTokens ast))

/-- What a client makes of the data, without bounds on its numbers. -/
def decodeFrom : ℕ → ℕ → List ℕ → List EncodedSemanticToken
  | previousLine, previousCharacter,
      deltaLine :: deltaCharacter :: length :: type :: modifiers :: data =>
    let line := previousLine + deltaLine
    let character :=
      if deltaLine = 0 then previousCharacter + deltaCharacter else deltaCharacter
    ⟨line, character, length, type, modifiers⟩ :: decodeFrom line character data
  | _, _, _ => []

/-- The tokens of an answer, read from the start of the text. -/
def decode (data : List ℕ) : List EncodedSemanticToken := decodeFrom 0 0 data

/-! ### Decoding -/

variable {text : List UInt8} {range : Option TextRange} {supportsMultilineTokens : Bool}
  {token : SemanticTokenInfo} {encoded : EncodedSemanticToken}

/-- Where a token starts. -/
def EncodedSemanticToken.position (token : EncodedSemanticToken) : TextPosition :=
  ⟨token.line, token.character⟩

/-- What `std::ranges::sort` promises. -/
structure Sorts (sort : List EncodedSemanticToken → List EncodedSemanticToken)
    (tokens : List EncodedSemanticToken) : Prop where
  perm : (sort tokens).Perm tokens
  sorted : (sort tokens).Pairwise fun a b => ¬ b.position.Before a.position

theorem sub32_eq {a b : ℕ} (h : b ≤ a) (ha : a < uint32Size) : sub32 a b = a - b := by
  rw [sub32, Nat.sub_add_comm h, Nat.add_mod_right, Nat.mod_eq_of_lt (by omega)]

/-- **Decoding inverts encoding** from a position that no token is before. -/
theorem decodeFrom_encodeFrom {tokens : List EncodedSemanticToken} {line character : ℕ}
    (hfirst : ∀ token ∈ tokens, ¬ token.position.Before ⟨line, character⟩)
    (hsorted : tokens.Pairwise fun a b => ¬ b.position.Before a.position)
    (hfits : ∀ token ∈ tokens, token.line < uint32Size ∧ token.character < uint32Size) :
    decodeFrom line character (encodeFrom line character tokens) = tokens := by
  induction tokens generalizing line character with
  | nil => rfl
  | cons token tokens ih =>
    obtain ⟨hline, hcharacter⟩ := hfits token List.mem_cons_self
    have hbefore := hfirst token List.mem_cons_self
    have hrest := ih (List.pairwise_cons.mp hsorted).1 (List.pairwise_cons.mp hsorted).2
      fun other hother => hfits other (List.mem_cons_of_mem _ hother)
    have hle : line ≤ token.line := by
      by_contra hlt
      exact hbefore (.inl (Nat.not_le.mp hlt))
    rw [encodeFrom, sub32_eq hle hline]
    rcases Nat.eq_or_lt_of_le hle with rfl | hlt
    · -- on the line of the token before it
      have hcolumn : character ≤ token.character := by
        by_contra hlt
        exact hbefore (.inr ⟨rfl, Nat.not_le.mp hlt⟩)
      rw [Nat.sub_self, if_pos rfl, sub32_eq hcolumn hcharacter, decodeFrom, if_pos rfl,
        Nat.add_sub_of_le hcolumn, Nat.add_zero, hrest]
    · have hne : ¬ token.line - line = 0 := by omega
      rw [if_neg hne, decodeFrom, if_neg hne, Nat.add_sub_of_le hle, hrest]

/-- Nothing is before the start of a text. -/
theorem not_before_start (p : TextPosition) : ¬ p.Before ⟨0, 0⟩ := by
  rintro (hlt | ⟨-, hlt⟩)
  · exact Nat.not_lt_zero _ hlt
  · exact Nat.not_lt_zero _ hlt

/-- What is encoded from the start of a text is decoded as the tokens in their order. -/
theorem decode_sort {sort : List EncodedSemanticToken → List EncodedSemanticToken}
    {tokens : List EncodedSemanticToken} (hsort : Sorts sort tokens)
    (hfits : ∀ token ∈ tokens, token.line < uint32Size ∧ token.character < uint32Size) :
    decode (encodeFrom 0 0 (sort tokens)) = sort tokens :=
  decodeFrom_encodeFrom (fun token _ => not_before_start token.position) hsort.sorted
    fun token hmem => hfits token (hsort.perm.mem_iff.mp hmem)

/-! ### Requests for a range -/

/-- A range within another, by its offsets. -/
def Inside (text : List UInt8) (inner outer : TextRange) : Prop :=
  offsetAt text outer.start ≤ offsetAt text inner.start ∧
    offsetAt text inner.stop ≤ offsetAt text outer.stop

/-- What is highlighted at a node is within the range of the node, and so are the ranges
of the nodes below it. -/
def Nested (text : List UInt8) (outer : Option TextRange) : Forest HighlightedNode → Prop
  | .nil => True
  | .cons node children rest =>
    (∀ span ∈ node.cstNode,
      (∀ range ∈ outer, Inside text (to_lsp_range text span) range) ∧
        (∀ token ∈ node.highlightElement, Inside text token.range (to_lsp_range text span)) ∧
          Nested text (some (to_lsp_range text span)) children) ∧
      Nested text outer rest

theorem Inside.overlaps {inner outer range : TextRange} (h : Inside text inner outer)
    (hover : ranges_overlap text inner range = true) : ranges_overlap text outer range = true := by
  obtain ⟨hstart, hstop⟩ := h
  simp only [ranges_overlap, Bool.and_eq_true, decide_eq_true_iff] at hover ⊢
  omega

/-- All that is highlighted below a node is within it. -/
theorem Nested.inside {f : Forest HighlightedNode} {outer : TextRange}
    (h : Nested text (some outer) f) :
    ∀ token ∈ visit text none f, Inside text token.range outer := by
  have htrans : ∀ {a b c : TextRange}, Inside text a b → Inside text b c → Inside text a c := by
    rintro a b c ⟨h₁, h₂⟩ ⟨h₃, h₄⟩
    exact ⟨Nat.le_trans h₃ h₁, Nat.le_trans h₂ h₄⟩
  induction f generalizing outer with
  | nil => exact fun token htoken => nomatch htoken
  | cons node children rest ihc ihr =>
    intro token htoken
    rw [Nested] at h
    rw [visit, List.mem_append] at htoken
    rcases htoken with htoken | htoken
    · split at htoken
      next hvisited =>
        cases hcst : node.cstNode with
        | none =>
          rw [isVisited, hcst] at hvisited
          exact absurd hvisited Bool.false_ne_true
        | some span =>
          obtain ⟨hnode, htokens, hchildren⟩ := h.1 span hcst
          have hspan := hnode outer rfl
          rcases List.mem_append.mp htoken with hmem | hmem
          · exact htrans (htokens token hmem) hspan
          · exact htrans (ihc hchildren token hmem) hspan
      next => exact nomatch htoken
    · exact ihr h.2 token htoken

/-- **The nodes that are not visited** highlight nothing that overlaps the range. -/
theorem visit_range {f : Forest HighlightedNode} {outer : Option TextRange} (r : TextRange)
    (h : Nested text outer f) :
    (visit text (some r) f).filter (fun token => ranges_overlap text token.range r)
      = (visit text none f).filter fun token => ranges_overlap text token.range r := by
  induction f generalizing outer with
  | nil => rfl
  | cons node children rest ihc ihr =>
    rw [Nested] at h
    rw [visit, visit, List.filter_append, List.filter_append, ihr h.2,
      List.append_cancel_right_eq]
    cases hcst : node.cstNode with
    | none =>
      have hnone : ∀ range, isVisited text range node = false := by
        intro range
        rw [isVisited, hcst]
      rw [hnone, hnone, if_neg Bool.false_ne_true, if_neg Bool.false_ne_true]
    | some span =>
      obtain ⟨-, htokens, hchildren⟩ := h.1 span hcst
      have hfull : isVisited text none node = true := by
        rw [isVisited, hcst]
        rfl
      rw [hfull, if_pos rfl, List.filter_append]
      by_cases hover : ranges_overlap text (to_lsp_range text span) r = true
      · have hvisited : isVisited text (some r) node = true := by
          rw [isVisited, hcst]
          exact hover
        rw [hvisited, if_pos rfl, List.filter_append, ihc hchildren]
      · -- nothing below the node overlaps the range
        have hvisited : isVisited text (some r) node = false := by
          rw [isVisited, hcst]
          exact Bool.eq_false_iff.mpr hover
        have hnone : ∀ tokens : List SemanticTokenInfo,
            (∀ token ∈ tokens, Inside text token.range (to_lsp_range text span)) →
            tokens.filter (fun token => ranges_overlap text token.range r) = [] := by
          intro tokens hinside
          rw [List.filter_eq_nil_iff]
          exact fun token htoken hmatch => hover ((hinside token htoken).overlaps hmatch)
        rw [hvisited, if_neg Bool.false_ne_true, hnone _ htokens, hnone _ hchildren.inside]
        rfl

/-- The tokens that a request asks for. -/
def requested (text : List UInt8) (range : Option TextRange) (ast : Forest HighlightedNode) :
    List SemanticTokenInfo :=
  (visit text none ast).filter fun token => isRequested text range token.range

theorem requested_eq {ast : Forest HighlightedNode}
    (h : range.isSome = true → Nested text none ast) :
    (visit text range ast).filter (fun token => isRequested text range token.range)
      = requested text range ast := by
  cases range with
  | none => rfl
  | some r => exact visit_range r (h rfl)

theorem collectTokens_eq {ast : Forest HighlightedNode}
    (h : range.isSome = true → Nested text none ast) :
    collectTokens text range supportsMultilineTokens ast
      = (requested text range ast).flatMap
          (append_accepted_token text supportsMultilineTokens) := by
  rw [collectTokens, ← requested_eq h]
  induction visit text range ast with
  | nil => rfl
  | cons token tokens ih =>
    rw [List.flatMap_cons, ih, List.filter_cons, append_semantic_token]
    cases isRequested text range token.range with
    | true => rw [if_neg (by simp), if_pos rfl, List.flatMap_cons]
    | false => rw [if_pos (by simp), if_neg Bool.false_ne_true, List.nil_append]

/-! ### Responses -/

/-- The numbers of a range are `uint32_t`. -/
structure Fits (range : TextRange) : Prop where
  startLine : range.start.line < uint32Size
  startCharacter : range.start.character < uint32Size
  stopLine : range.stop.line < uint32Size

/-- A code point has no more code units than bytes. -/
theorem weigh_le_length (bytes : List UInt8) : utf16.weigh bytes ≤ bytes.length := by
  induction bytes using Decoder.weigh.induct utf16 with
  | case1 => rw [Decoder.weigh_nil]; exact Nat.le_refl 0
  | case2 b bs ih =>
    have hunits : (utf16.decode (b :: bs)).2 ≤ (utf16.decode (b :: bs)).1 := by
      show (decodeOneUtf8ToUtf16Units (b :: bs)).2 ≤ (decodeOneUtf8ToUtf16Units (b :: bs)).1
      unfold decodeOneUtf8ToUtf16Units
      dsimp only
      split_ifs with h1 h2
      · exact Nat.le_refl 1
      · exact Nat.le_refl 1
      · exact Nat.le_refl 1
      all_goals
        have hlength := expectedLength_cases fun hone => h2 (.inl hone)
        omega
    have hle := utf16.advance_le b bs
    rw [Decoder.weigh_cons]
    rw [List.length_drop] at ih
    omega

theorem weigh_lt_size {start stop : ℕ} (hle : start ≤ stop) (hstop : stop ≤ textSize text) :
    utf16.weigh (slice text start stop) < uint32Size := by
  have hweigh := weigh_le_length (slice text start stop)
  rw [length_slice hle hstop] at hweigh
  have hsize := textSize_lt text
  omega

/-- **The range of a node fits**, and so does what is highlighted by such ranges. -/
theorem fits_to_lsp_range (hfit : LinesFit text) {span : ℕ × ℕ} (hbegin : span.1 ≤ textSize text)
    (hend : span.2 ≤ textSize text) : Fits (to_lsp_range text span) := by
  have hposition : ∀ k ≤ textSize text, (positionAt text k).line < uint32Size ∧
      (positionAt text k).character < uint32Size := by
    intro k hk
    obtain ⟨hspan, hle, hstop⟩ := lineSpan_of_le hk
    rw [positionAt_eq hfit hspan hle hstop]
    have hmono := newlinesBefore_mono text hk
    unfold LinesFit at hfit
    exact ⟨by dsimp only; omega, weigh_lt_size hle hk⟩
  exact ⟨(hposition _ hbegin).1, (hposition _ hbegin).2, (hposition _ hend).1⟩

theorem mem_append_encoded_token {line character length type modifiers : ℕ}
    (h : encoded ∈ append_encoded_token line character length type modifiers) :
    encoded = ⟨line, character, length, type, modifiers⟩ ∧ length ≠ 0 := by
  unfold append_encoded_token at h
  split at h
  · exact nomatch h
  next hlength => exact ⟨List.mem_singleton.mp h, hlength⟩

theorem append_segments_fit {endLine endOffset type modifiers n segmentStart line character : ℕ}
    (hend : endLine < uint32Size) (hline : line < uint32Size) (hcharacter : character < uint32Size)
    (h : encoded ∈ append_segments text endLine endOffset type modifiers n segmentStart line
      character) : encoded.line < uint32Size ∧ encoded.character < uint32Size := by
  have hpos : 0 < uint32Size := by decide
  induction n generalizing segmentStart line character with
  | zero =>
    obtain ⟨rfl, -⟩ := mem_append_encoded_token h
    exact ⟨hend, hpos⟩
  | succ n ih =>
    rw [append_segments, List.mem_append] at h
    rcases h with h | h
    · obtain ⟨rfl, -⟩ := mem_append_encoded_token h
      exact ⟨hline, hcharacter⟩
    · exact ih (Nat.mod_lt _ hpos) hpos h

theorem append_accepted_token_fit (hfits : Fits token.range)
    (h : encoded ∈ append_accepted_token text supportsMultilineTokens token) :
    encoded.line < uint32Size ∧ encoded.character < uint32Size := by
  obtain ⟨hline, hcharacter, hend⟩ := hfits
  unfold append_accepted_token at h
  split at h
  · exact nomatch h
  dsimp only at h
  split at h
  · exact nomatch h
  split at h
  · obtain ⟨rfl, -⟩ := mem_append_encoded_token h
    exact ⟨hline, hcharacter⟩
  split at h
  · obtain ⟨rfl, -⟩ := mem_append_encoded_token h
    exact ⟨hline, hcharacter⟩
  · exact append_segments_fit hend hline hcharacter h

/-- **Decoding a response** gives the tokens that were requested, sorted, whatever sort is
used: no difference is below zero.  A request for a range needs a nested AST. -/
theorem decode_buildSemanticTokens
    {sort : List EncodedSemanticToken → List EncodedSemanticToken} {ast : Forest HighlightedNode}
    (hsort : Sorts sort (collectTokens text range supportsMultilineTokens ast))
    (hnested : range.isSome = true → Nested text none ast)
    (hfits : ∀ token ∈ visit text none ast, Fits token.range) :
    (decode (buildSemanticTokens sort text range supportsMultilineTokens ast)).Perm
        ((requested text range ast).flatMap
          (append_accepted_token text supportsMultilineTokens)) ∧
      (decode (buildSemanticTokens sort text range supportsMultilineTokens ast)).Pairwise
        fun a b => ¬ b.position.Before a.position := by
  have hbounds : ∀ token ∈ collectTokens text range supportsMultilineTokens ast,
      token.line < uint32Size ∧ token.character < uint32Size := by
    intro encoded hencoded
    rw [collectTokens_eq hnested] at hencoded
    obtain ⟨token, htoken, hencoded⟩ := List.mem_flatMap.mp hencoded
    exact append_accepted_token_fit (hfits token (List.mem_filter.mp htoken).1) hencoded
  rw [buildSemanticTokens, decode_sort hsort hbounds, ← collectTokens_eq hnested]
  exact ⟨hsort.perm, hsort.sorted⟩

/-- A sort that can be run. -/
def insertionSort (tokens : List EncodedSemanticToken) : List EncodedSemanticToken :=
  tokens.insertionSort fun a b =>
    a.line < b.line ∨ a.line = b.line ∧ a.character ≤ b.character

theorem sorts_insertionSort (tokens : List EncodedSemanticToken) :
    Sorts insertionSort tokens := by
  let r : EncodedSemanticToken → EncodedSemanticToken → Prop := fun a b =>
    a.line < b.line ∨ a.line = b.line ∧ a.character ≤ b.character
  have htotal : Std.Total r := ⟨fun a b => by dsimp only [r]; omega⟩
  have htrans : IsTrans EncodedSemanticToken r := ⟨fun a b c => by dsimp only [r]; omega⟩
  refine ⟨List.perm_insertionSort r tokens, (List.pairwise_insertionSort r tokens).imp ?_⟩
  rintro a b hle (hlt | ⟨heq, hlt⟩)
  · dsimp only [r, EncodedSemanticToken.position] at hle hlt
    omega
  · dsimp only [r, EncodedSemanticToken.position] at hle heq hlt
    omega

/-- `ab cd`, and its first word. -/
def phraseText : List UInt8 := [97, 98, 32, 99, 100]

/-- The first word of the phrase. -/
def phraseRange : TextRange := to_lsp_range phraseText (0, 2)

/-- A node over two words, with a node for each; below the second one there is another. -/
def phrase : Forest HighlightedNode :=
  .cons ⟨some (0, 5), [⟨to_lsp_range phraseText (0, 2), "type", ["static"]⟩]⟩
    (.cons ⟨some (0, 2), [⟨to_lsp_range phraseText (0, 2), "keyword", []⟩]⟩ .nil
      (.cons ⟨some (3, 5), [⟨to_lsp_range phraseText (3, 5), "variable", []⟩]⟩
        (.cons ⟨some (4, 5), [⟨to_lsp_range phraseText (4, 5), "number", []⟩]⟩ .nil .nil) .nil))
    .nil

/-- A request for the first word does not visit the nodes of the second one. -/
theorem decode_buildSemanticTokens_firstWord :
    (visit phraseText (some phraseRange) phrase).map (·.type) = ["type", "keyword"] ∧
      (decode (buildSemanticTokens insertionSort phraseText (some phraseRange) true phrase)).Perm
        ((requested phraseText (some phraseRange) phrase).flatMap
          (append_accepted_token phraseText true)) ∧
      (decode (buildSemanticTokens insertionSort phraseText (some phraseRange) true
        phrase)).Pairwise fun a b => ¬ b.position.Before a.position := by
  have hfit : LinesFit phraseText := by
    unfold LinesFit
    decide
  have hoffset : ∀ k ≤ 5, offsetAt phraseText (positionAt phraseText k) = k := by
    intro k hk
    exact (atBoundary_of_ascii (by simp [phraseText]) hk).offset_position hfit
  have hinside : ∀ inner outer : ℕ × ℕ, inner.2 ≤ outer.2 → outer.2 ≤ 5 → outer.1 ≤ inner.1 →
      inner.1 ≤ inner.2 →
      Inside phraseText (to_lsp_range phraseText inner) (to_lsp_range phraseText outer) := by
    intro inner outer hstop hle hstart horder
    unfold Inside to_lsp_range
    rw [hoffset _ (by omega), hoffset _ (by omega), hoffset _ (by omega), hoffset _ (by omega)]
    exact ⟨hstart, hstop⟩
  have hnested : Nested phraseText none phrase := by
    simp [phrase, Nested, hinside]
  have hfits : ∀ token ∈ visit phraseText none phrase, Fits token.range := by
    have hrange : ∀ begin stop : ℕ, begin ≤ 5 → stop ≤ 5 →
        Fits (to_lsp_range phraseText (begin, stop)) :=
      fun _ _ hbegin hstop => fits_to_lsp_range hfit hbegin hstop
    simp [phrase, visit, isVisited, isRequested, hrange]
  have hvisited : (visit phraseText (some phraseRange) phrase).map (·.type)
      = ["type", "keyword"] := by
    simp [phrase, phraseRange, visit, isVisited, isRequested, ranges_overlap, to_lsp_range, hoffset]
  exact ⟨hvisited,
    decode_buildSemanticTokens (sorts_insertionSort _) (fun _ => hnested) hfits⟩

end Pegium.SemanticTokens
