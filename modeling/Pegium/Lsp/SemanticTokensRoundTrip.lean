/-
Pegium/Lsp/SemanticTokensRoundTrip.lean

What a client reads from the semantic tokens of a document.

An accepted token becomes its pieces (`Renders`): none if its type is not known or there is
nothing between its ends, itself if it is on one line, and otherwise either one token for all
of it or one for its part of each line.  The pieces of all tokens are sorted and encoded by
what each is further on, which is never less than nothing (`Climbs`), and decoding the
numbers gives them back, with the types and the modifiers of the tokens.  What the client
holds of a document is what the request computed that was delivered to it last, so it is
these numbers that the client decodes.

Main result: `accepted_round_trip`.
-/
import Pegium.Lsp.SemanticTokensDelta
import Pegium.Lsp.TokenSegments

namespace Pegium.SemanticTokens

variable {text : List UInt8} {multiline : Bool} {token : SemanticTokenInfo}
  {encoded : EncodedSemanticToken}

/-! ### Types and modifiers -/

/-- The place of a name in a list without repetition. -/
theorem findIdx?_beq_iff {names : List String} (h : names.Nodup) {name : String} {i : ℕ} :
    names.findIdx? (· == name) = some i ↔ names[i]? = some name := by
  rw [List.findIdx?_eq_some_iff_getElem, List.getElem?_eq_some_iff]
  constructor
  · rintro ⟨hlt, hname, -⟩
    exact ⟨hlt, eq_of_beq hname⟩
  · rintro ⟨hlt, hname⟩
    refine ⟨hlt, beq_iff_eq.mpr hname, fun j hj heq => ?_⟩
    have hsame := (h.getElem_inj_iff).mp ((eq_of_beq heq).trans hname.symm)
    omega

/-- A bit that single steps of a fold set. -/
theorem testBit_foldl {add : ℕ → String → ℕ} {sets : String → Prop} {i : ℕ}
    (h : ∀ bits name, (add bits name).testBit i = true ↔ bits.testBit i = true ∨ sets name)
    (names : List String) (bits : ℕ) :
    (names.foldl add bits).testBit i = true ↔
      bits.testBit i = true ∨ ∃ name ∈ names, sets name := by
  induction names generalizing bits with
  | nil => simp
  | cons name names ih => rw [List.foldl_cons, ih, h, List.exists_mem_cons_iff, or_assoc]

/-- **The bits of a token are its known modifiers.** -/
theorem testBit_modifierBits (modifiers : List String) (i : ℕ) :
    (modifierBits modifiers).testBit i = true ↔
      ∃ modifier ∈ modifiers, semanticTokenModifiers[i]? = some modifier := by
  have hnodup : semanticTokenModifiers.Nodup := by decide
  have hzero : (0 : ℕ).testBit i = true ↔ False := by simp
  rw [modifierBits, testBit_foldl (fun bits modifier => ?_) modifiers 0, hzero, false_or]
  rw [← findIdx?_beq_iff hnodup]
  cases semanticTokenModifiers.findIdx? (· == modifier) with
  | none => simp
  | some index => simp [Nat.testBit_or, Nat.one_shiftLeft, Nat.testBit_two_pow]

/-- The type and the modifiers of the token are read from the numbers. -/
structure Names (token : SemanticTokenInfo) (piece : EncodedSemanticToken) : Prop where
  type : semanticTokenTypes[piece.type]? = some token.type
  modifiers : ∀ i, piece.modifiers.testBit i = true ↔
    ∃ modifier ∈ token.modifiers, semanticTokenModifiers[i]? = some modifier

theorem mem_append_segments {endLine endOffset type modifiers n s line character : ℕ}
    (h : encoded ∈ append_segments text endLine endOffset type modifiers n s line character) :
    encoded.type = type ∧ encoded.modifiers = modifiers := by
  induction n generalizing s line character with
  | zero =>
    obtain ⟨rfl, -⟩ := mem_append_encoded_token h
    exact ⟨rfl, rfl⟩
  | succ n ih =>
    rw [append_segments, List.mem_append] at h
    rcases h with h | h
    · obtain ⟨rfl, -⟩ := mem_append_encoded_token h
      exact ⟨rfl, rfl⟩
    · exact ih h

theorem names_of_mem (h : encoded ∈ append_accepted_token text multiline token) :
    Names token encoded := by
  have hnodup : semanticTokenTypes.Nodup := by decide
  unfold append_accepted_token at h
  split at h
  · exact nomatch h
  next type htype =>
    have htype := (findIdx?_beq_iff hnodup).mp htype
    have hnames : encoded.type = type ∧ encoded.modifiers = modifierBits token.modifiers →
        Names token encoded := by
      rintro ⟨rfl, hmodifiers⟩
      exact ⟨htype, fun i => hmodifiers ▸ testBit_modifierBits token.modifiers i⟩
    dsimp only at h
    split at h
    · exact nomatch h
    split at h
    · obtain ⟨rfl, -⟩ := mem_append_encoded_token h
      exact hnames ⟨rfl, rfl⟩
    split at h
    · obtain ⟨rfl, -⟩ := mem_append_encoded_token h
      exact hnames ⟨rfl, rfl⟩
    · exact hnames (mem_append_segments h)

/-! ### Differences -/

/-- No difference that is encoded from a position on is below zero. -/
def Climbs : ℕ → ℕ → List EncodedSemanticToken → Prop
  | _, _, [] => True
  | previousLine, previousCharacter, token :: tokens =>
    previousLine ≤ token.line ∧
      (token.line = previousLine → previousCharacter ≤ token.character) ∧
        Climbs token.line token.character tokens

theorem climbs_of_sorted {tokens : List EncodedSemanticToken} {line character : ℕ}
    (hfirst : ∀ token ∈ tokens, ¬ token.position.Before ⟨line, character⟩)
    (hsorted : tokens.Pairwise fun a b => ¬ b.position.Before a.position) :
    Climbs line character tokens := by
  induction tokens generalizing line character with
  | nil => trivial
  | cons token tokens ih =>
    have hbefore := hfirst token List.mem_cons_self
    refine ⟨?_, fun heq => ?_, ih (List.pairwise_cons.mp hsorted).1
      (List.pairwise_cons.mp hsorted).2⟩
    · by_contra hlt
      exact hbefore (.inl (Nat.not_le.mp hlt))
    · by_contra hlt
      exact hbefore (.inr ⟨heq, Nat.not_le.mp hlt⟩)

/-- On one line the columns are in the order of the offsets. -/
theorem character_lt {p q : TextPosition} (hline : p.line = q.line)
    (h : offsetAt text p < offsetAt text q) : p.character < q.character := by
  by_contra hle
  have hmono := offsetAt_mono text p.line (Nat.not_lt.mp hle)
  rw [hline] at hmono
  obtain ⟨line, character⟩ := p
  obtain rfl : line = q.line := hline
  exact absurd hmono (Nat.not_le.mpr h)

/-! ### The pieces of a token -/

/-- What the pieces of an accepted token are. -/
structure Renders (text : List UInt8) (multiline : Bool) (token : SemanticTokenInfo)
    (pieces : List EncodedSemanticToken) : Prop where
  named : ∀ piece ∈ pieces, Names token piece
  dropped : token.type ∉ semanticTokenTypes ∨
    offsetAt text token.range.stop ≤ offsetAt text token.range.start → pieces = []
  oneLine : token.type ∈ semanticTokenTypes →
    offsetAt text token.range.start < offsetAt text token.range.stop →
    token.range.start.line = token.range.stop.line →
    ∃ piece, pieces = [piece] ∧ piece.position = token.range.start ∧
      piece.character + piece.length = token.range.stop.character
  whole : token.type ∈ semanticTokenTypes → multiline = true →
    offsetAt text token.range.start < offsetAt text token.range.stop →
    token.range.start.line ≠ token.range.stop.line →
    ∃ piece, pieces = [piece] ∧ piece.position = token.range.start ∧
      piece.length = utf16_length (slice text (offsetAt text token.range.start)
        (offsetAt text token.range.stop))
  lines : token.type ∈ semanticTokenTypes → multiline = false → ∀ {lineBegin lineEnd b e : ℕ},
    DecodeBoundary text lineBegin b → DecodeBoundary text lineEnd e → b < e →
    token.range = to_lsp_range text (b, e) →
    pieces.Pairwise (fun a b => a.line < b.line) ∧
      ∀ k, Covers text pieces k ↔ b ≤ k ∧ k < e ∧ (lineBegin ≠ lineEnd → ¬ Terminator text e k)

/-- A token of a known type that has something between its ends. -/
theorem append_accepted_token_known (htype : token.type ∈ semanticTokenTypes)
    (hlt : offsetAt text token.range.start < offsetAt text token.range.stop) :
    ∃ type, append_accepted_token text multiline token =
      if token.range.start.line = token.range.stop.line then
        append_encoded_token token.range.start.line token.range.start.character
          (sub32 token.range.stop.character token.range.start.character) type
          (modifierBits token.modifiers)
      else if multiline then
        append_encoded_token token.range.start.line token.range.start.character
          (utf16_length_between_offsets text (offsetAt text token.range.start)
            (offsetAt text token.range.stop)) type (modifierBits token.modifiers)
      else
        append_segments text token.range.stop.line (offsetAt text token.range.stop) type
          (modifierBits token.modifiers) (token.range.stop.line - token.range.start.line)
          (offsetAt text token.range.start) token.range.start.line token.range.start.character := by
  obtain ⟨type, hindex⟩ := exists_findIdx? htype
  refine ⟨type, ?_⟩
  unfold append_accepted_token
  rw [hindex]
  dsimp only
  rw [if_neg (Nat.not_le.mpr hlt)]

/-- A token with a length is appended. -/
theorem append_encoded_token_of_ne {line character length type modifiers : ℕ} (h : length ≠ 0) :
    append_encoded_token line character length type modifiers
      = [⟨line, character, length, type, modifiers⟩] := by
  rw [append_encoded_token, if_neg h]

/-- **What an accepted token becomes.** -/
theorem renders (hfit : LinesFit text) (hstop : token.range.stop.character < uint32Size) :
    Renders text multiline token (append_accepted_token text multiline token) where
  named piece hmem := names_of_mem hmem
  dropped h := by
    unfold append_accepted_token
    split
    · rfl
    next type htype =>
      have hknown : token.type ∈ semanticTokenTypes := by
        obtain ⟨hlt, hname, -⟩ := List.findIdx?_eq_some_iff_getElem.mp htype
        exact eq_of_beq hname ▸ List.getElem_mem hlt
      dsimp only
      rw [if_pos (h.resolve_left (not_not_intro hknown))]
  oneLine htype hlt hline := by
    obtain ⟨type, heq⟩ := @append_accepted_token_known text multiline token htype hlt
    have hcharacter := character_lt hline hlt
    rw [heq, if_pos hline, sub32_eq (Nat.le_of_lt hcharacter) hstop,
      append_encoded_token_of_ne (by omega)]
    exact ⟨_, rfl, rfl, Nat.add_sub_cancel' (Nat.le_of_lt hcharacter)⟩
  whole htype hmultiline hlt hline := by
    obtain ⟨type, heq⟩ := @append_accepted_token_known text multiline token htype hlt
    have hlength : utf16_length (slice text (offsetAt text token.range.start)
        (offsetAt text token.range.stop)) ≠ 0 := by
      have hlength := offsetAt_le_length text token.range.stop
      refine Nat.pos_iff_ne_zero.mp (Decoder.weigh_pos fun hnil => ?_)
      rw [slice, List.take_eq_nil_iff, List.drop_eq_nil_iff] at hnil
      omega
    rw [heq, if_neg hline, if_pos hmultiline, utf16_length_between_offsets,
      if_neg (Nat.not_le.mpr hlt), append_encoded_token_of_ne hlength]
    exact ⟨_, rfl, rfl, rfl⟩
  lines htype hmultiline {lineBegin lineEnd b e} hb he hlt hrange := by
    subst hmultiline
    exact ⟨accepted_lines hfit hb he hlt htype hrange, fun _ =>
      accepted_covers hfit hb he hlt htype hrange⟩

/-! ### The round trip -/

/-- The pieces of tokens, in the order in which the tokens are accepted. -/
def pieces (text : List UInt8) (multiline : Bool) (accepted : List SemanticTokenInfo) :
    List EncodedSemanticToken :=
  accepted.flatMap (append_accepted_token text multiline)

theorem collectTokens_none (ast : Forest HighlightedNode) :
    collectTokens text none multiline ast = pieces text multiline (visit text none ast) := by
  have hrequested : requested text none ast = visit text none ast :=
    List.filter_eq_self.mpr fun _ _ => rfl
  have hnested : (none : Option TextRange).isSome = true → Nested text none ast :=
    fun h => absurd h Bool.false_ne_true
  rw [collectTokens_eq hnested, hrequested, pieces]

/-- **The tokens come back from the numbers that a client holds.**  Each accepted token becomes
what `Renders` says; no difference between their pieces is below zero; the numbers of a response
are decoded to the pieces, sorted; and in every run of requests, side by side and with the cache
they share, the client holds the numbers of the request that was delivered to it last. -/
theorem accepted_round_trip {ast : Forest HighlightedNode}
    {sort : List EncodedSemanticToken → List EncodedSemanticToken} (hfit : LinesFit text)
    (hfits : ∀ token ∈ visit text none ast,
      Fits token.range ∧ token.range.stop.character < uint32Size)
    (hsort : Sorts sort (pieces text multiline (visit text none ast))) :
    (∀ token ∈ visit text none ast,
        Renders text multiline token (append_accepted_token text multiline token)) ∧
      Climbs 0 0 (sort (pieces text multiline (visit text none ast))) ∧
      (decode (buildSemanticTokens sort text none multiline ast)).Perm
        (pieces text multiline (visit text none ast)) ∧
      (decode (buildSemanticTokens sort text none multiline ast)).Pairwise
        (fun a b => ¬ b.position.Before a.position) ∧
      ∀ {s : ProviderState} {uri : String} {i : ℕ},
        ProviderState.machine.Reaches ProviderState.Fits .initial s → s.delivered uri = some i →
        ∃ request tokens, s.requests[i]? = some request ∧ request.uri = uri ∧
          request.stage.tokens = some tokens ∧ s.held uri = some tokens := by
  have hbounds : ∀ piece ∈ pieces text multiline (visit text none ast),
      piece.line < uint32Size ∧ piece.character < uint32Size := by
    intro piece hpiece
    obtain ⟨token, htoken, hpiece⟩ := List.mem_flatMap.mp hpiece
    exact append_accepted_token_fit (hfits token htoken).1 hpiece
  have hdecode : decode (buildSemanticTokens sort text none multiline ast)
      = sort (pieces text multiline (visit text none ast)) := by
    rw [buildSemanticTokens, collectTokens_none, decode_sort hsort hbounds]
  rw [hdecode]
  refine ⟨fun token htoken => renders hfit (hfits token htoken).2, ?_, hsort.perm, hsort.sorted, ?_⟩
  · exact climbs_of_sorted (fun token _ => not_before_start token.position) hsort.sorted
  · exact fun hreaches => (ProviderState.invariant_of_reaches hreaches).delivered _ _

/-- Two lines that a carriage return and a line feed end. -/
def linesText : List UInt8 := [97, 13, 10, 98, 13, 10]

/-- A node over both lines: the second word is accepted first. -/
def linesNode : HighlightedNode :=
  ⟨some (0, 4), [⟨to_lsp_range linesText (3, 4), "variable", ["static"]⟩,
    ⟨to_lsp_range linesText (0, 4), "keyword", []⟩]⟩

/-- A token of a type that is not in the legend, and one that ends at the carriage return of
its last line. -/
def strayNode : HighlightedNode :=
  ⟨some (0, 5), [⟨to_lsp_range linesText (0, 1), "label", []⟩,
    ⟨to_lsp_range linesText (0, 5), "keyword", []⟩]⟩

/-- What a client holds after one request for the two lines. -/
theorem accepted_round_trip_lines :
    (decode (buildSemanticTokens insertionSort linesText none false (.tree linesNode .nil))).Perm
        (pieces linesText false linesNode.highlightElement) ∧
      ∃ s, ProviderState.machine.run .initial [.full "a",
          .build 0 (buildSemanticTokens insertionSort linesText none false (.tree linesNode .nil)),
          .access 0, .access 0, .deliver 0] = some s ∧
        ∃ request tokens, s.requests[0]? = some request ∧ request.uri = "a" ∧
          request.stage.tokens = some tokens ∧ s.held "a" = some tokens := by
  have hfit : LinesFit linesText := by
    unfold LinesFit
    decide
  have hfits : ∀ token ∈ visit linesText none (.tree linesNode .nil),
      Fits token.range ∧ token.range.stop.character < uint32Size := by
    have hvisit : visit linesText none (.tree linesNode .nil) = linesNode.highlightElement := rfl
    rw [hvisit]
    refine List.forall_mem_cons.mpr ⟨⟨?_, by decide +kernel⟩,
      List.forall_mem_singleton.mpr ⟨?_, by decide +kernel⟩⟩
    · exact fits_to_lsp_range hfit (by decide) (by decide)
    · exact fits_to_lsp_range hfit (by decide) (by decide)
  obtain ⟨-, -, hperm, -, hruns⟩ := @accepted_round_trip linesText false (.tree linesNode .nil)
    insertionSort hfit hfits (sorts_insertionSort _)
  have hdata : buildSemanticTokens insertionSort linesText none false (.tree linesNode .nil)
      = [0, 0, 1, 7, 0, 1, 0, 1, 21, 512, 0, 0, 1, 7, 0] := by decide +kernel
  rw [hdata] at hperm ⊢
  refine ⟨hperm, ?_⟩
  generalize hevents : [ProviderEvent.full "a",
    .build 0 [0, 0, 1, 7, 0, 1, 0, 1, 21, 512, 0, 0, 1, 7, 0], .access 0, .access 0, .deliver 0]
      = events
  have hrun : ((ProviderState.machine.run .initial events).bind (·.delivered "a")) = some 0 := by
    rw [← hevents]
    decide
  obtain ⟨s, hs, hdelivered⟩ := Option.bind_eq_some_iff.mp hrun
  have hallowed : ProviderState.machine.AllowedRun ProviderState.Fits .initial events := by
    rw [← hevents]
    decide
  exact ⟨s, hs, hruns (Machine.reaches_of_run hs hallowed) hdelivered⟩

/-- The token of the unknown type is lost, and the carriage return at the end of the other one is
highlighted. -/
theorem accepted_token_lost :
    (visit linesText none (.tree strayNode .nil)).length = 2 ∧
      (decode (buildSemanticTokens insertionSort linesText none true
        (.tree strayNode .nil))).length = 1 ∧
      Covers linesText (decode (buildSemanticTokens insertionSort linesText none false
        (.tree strayNode .nil))) 4 ∧ byteAt linesText 4 = 13 ∧ byteAt linesText 5 = 10 := by
  unfold Covers
  decide +kernel

end Pegium.SemanticTokens
