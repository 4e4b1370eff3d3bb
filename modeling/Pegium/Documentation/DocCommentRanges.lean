/-
Pegium/Documentation/DocCommentRanges.lean

Where the nodes of a documentation comment are.

The lines of the comment are read one after the other (`LinesRead`), and on each of
them the tokens are tiles: so the ranges are in order (`Tiles.spread`), the text of a
mark is the slice of the line where its range says (`Tiles.located`), and what is not a
blank is covered by a mark (`Tiles.covered`).  What the lines have, the tokens of the
whole comment have.

Positions wrap around at 32 bits: the ranges only say where things are if the lines
and the columns of the comment fit in there (`Fits`).

Main result: `parse_doc_comment_locates`.
-/
import Pegium.Documentation.DocCommentNodes

namespace Pegium.Documentation

variable {line : List UInt8} {a b i j k n base : ℕ} {tokens rest : List Token}
  {token next : Token} {mark : Mark} {options : DocCommentParseOptions}
  {first last started : Bool} {lines : List (List UInt8)}

/-! ### Marks on a line -/

/-- A range and the text of the line there. -/
def Denotes (i base : ℕ) (line : List UInt8) (range : DocCommentRange) (text : List UInt8) :
    Prop :=
  ∃ b e, range = ⟨⟨i, base + b⟩, ⟨i, base + e⟩⟩ ∧ b ≤ e ∧ e ≤ line.length ∧ text = slice line b e

/-- A mark is where it says, a tag with its `@`. -/
def Mark.Located (i base : ℕ) (line : List UInt8) : Mark → Prop
  | .line text range => Denotes i base line range text
  | .tag name start => ∃ stop, Denotes i base line ⟨start, stop⟩ (64 :: name)
  | .inlineTag name range => ∃ stop, Denotes i base line ⟨range.start, stop⟩ (64 :: name)

/-- A column of a line, in the text of a mark, in a name or its `@`, or a brace of an
inline tag. -/
inductive Mark.Covers (i base : ℕ) (line : List UInt8) (j : ℕ) : Mark → Prop
  | line {text : List UInt8} {range : DocCommentRange} {b : ℕ} :
      range.start = ⟨i, base + b⟩ → b ≤ j → j < b + text.length →
      Covers i base line j (.line text range)
  | tag {name : List UInt8} {start : DocCommentPosition} {b : ℕ} :
      start = ⟨i, base + b⟩ → b ≤ j → j ≤ b + name.length → Covers i base line j (.tag name start)
  | inlineTag {name : List UInt8} {range : DocCommentRange} {b : ℕ} :
      range.start = ⟨i, base + b⟩ → b ≤ j → j ≤ b + name.length →
      Covers i base line j (.inlineTag name range)
  | openBrace {name : List UInt8} {range : DocCommentRange} :
      range.start = ⟨i, base + (j + 1)⟩ → byteAt line j = 123 →
      Covers i base line j (.inlineTag name range)
  | closeBrace {name : List UInt8} {range : DocCommentRange} {e : ℕ} :
      range.end = ⟨i, base + e⟩ → e ≤ j → Blank line e j → byteAt line j = 125 →
      Covers i base line j (.inlineTag name range)

/-! ### Tiles -/

theorem position_eq (h : base + line.length < 2 ^ 32) (hb : b ≤ line.length) :
    position i (base + b) = ⟨i, base + b⟩ := by
  rw [position, Nat.mod_eq_of_lt (by omega)]

/-- On its line, the token is between two columns. -/
structure Token.Within (i lower upper : ℕ) (token : Token) : Prop where
  startLine : token.range.start.line = i
  endLine : token.range.end.line = i
  lower : lower ≤ token.range.start.character
  forward : token.range.start.character ≤ token.range.end.character
  upper : token.range.end.character ≤ upper

theorem within_tokenAt {type : TokenType} {e c : ℕ} (h : base + line.length < 2 ^ 32)
    (ha : a ≤ c) (hc : c ≤ e) (he : e ≤ b) (hb : b ≤ line.length) :
    (tokenAt i base line type c e).Within i (base + a) (base + b) := by
  have hstart : position i (base + c) = ⟨i, base + c⟩ := position_eq h (by omega)
  have hend : position i (base + e) = ⟨i, base + e⟩ := position_eq h (by omega)
  unfold tokenAt
  rw [hstart, hend]
  exact ⟨rfl, rfl, Nat.add_le_add_left ha _, Nat.add_le_add_left hc _, Nat.add_le_add_left he _⟩

theorem Token.Within.mono {lower lower' upper upper' : ℕ} (h : token.Within i lower upper)
    (hlower : lower' ≤ lower) (hupper : upper ≤ upper') : token.Within i lower' upper' :=
  ⟨h.startLine, h.endLine, Nat.le_trans hlower h.lower, h.forward, Nat.le_trans h.upper hupper⟩

/-- **Tiles are in order.** -/
theorem Tiles.spread (h : Tiles i base line a b tokens) (hfits : base + line.length < 2 ^ 32)
    (hb : b ≤ line.length) :
    (∀ token ∈ tokens, token.Within i (base + a) (base + b)) ∧
      tokens.Pairwise fun token next => token.range.end.character ≤ next.range.start.character := by
  induction h with
  | nil => exact ⟨by simp, .nil⟩
  | blank hle hspaces hrest ih =>
    obtain ⟨hwithin, hapart⟩ := ih hb
    exact ⟨fun token hmem => (hwithin token hmem).mono (by omega) (Nat.le_refl _), hapart⟩
  | @text a b e rest hle hrest ih =>
    have hend := hrest.le
    obtain ⟨hwithin, hapart⟩ := ih hb
    have htoken : (tokenAt i base line .text a e).Within i (base + a) (base + e) :=
      within_tokenAt hfits (Nat.le_refl a) hle (Nat.le_refl e) (by omega)
    constructor
    · rintro token (- | hmem)
      · exact htoken.mono (Nat.le_refl _) (by omega)
      · exact (hwithin token ‹_›).mono (by omega) (Nat.le_refl _)
    · exact .cons (fun next hmem => Nat.le_trans htoken.upper (hwithin next hmem).lower) hapart
  | @tag a b e rest hat hlt hrest ih =>
    have hend := hrest.le
    obtain ⟨hwithin, hapart⟩ := ih hb
    have htoken : (tokenAt i base line .tag a e).Within i (base + a) (base + e) :=
      within_tokenAt hfits (Nat.le_refl a) (Nat.le_of_lt hlt) (Nat.le_refl e) (by omega)
    constructor
    · rintro token (- | hmem)
      · exact htoken.mono (Nat.le_refl _) (by omega)
      · exact (hwithin token ‹_›).mono (by omega) (Nat.le_refl _)
    · exact .cons (fun next hmem => Nat.le_trans htoken.upper (hwithin next hmem).lower) hapart
  | @inlineTag a b c e stop rest hopen hat hname hc hspaces he hclose hrest ih =>
    have hend := hrest.le
    obtain ⟨hwithin, hapart⟩ := ih hb
    have htag : (tokenAt i base line .inlineTag (a + 1) stop).Within i (base + a) (base + stop) :=
      within_tokenAt hfits (by omega) (Nat.le_of_lt hname) (Nat.le_refl stop) (by omega)
    have htext : (if c < e then tokenAt i base line .text c e
        else tokenAt i base line .text stop stop).Within i (base + stop) (base + e) := by
      split
      · exact within_tokenAt hfits hc he (Nat.le_refl e) (by omega)
      · exact within_tokenAt hfits (Nat.le_refl _) (Nat.le_refl _) (by omega) (by omega)
    constructor
    · intro token hmem
      rcases List.mem_cons.mp hmem with rfl | hmem
      · exact htag.mono (Nat.le_refl _) (by omega)
      · rcases List.mem_cons.mp hmem with rfl | hmem
        · exact htext.mono (by omega) (by omega)
        · exact (hwithin token hmem).mono (by omega) (Nat.le_refl _)
    · refine .cons (fun next hmem => ?_) (.cons (fun next hmem => ?_) hapart)
      · rcases List.mem_cons.mp hmem with rfl | hmem
        · exact Nat.le_trans htag.upper htext.lower
        · exact Nat.le_trans htag.upper (Nat.le_trans (by omega) (hwithin next hmem).lower)
      · exact Nat.le_trans htext.upper (Nat.le_trans (by omega) (hwithin next hmem).lower)

/-- An inline tag has its content among the tiles, so what comes behind tiles does not
change their marks. -/
theorem Tiles.marks_append (h : Tiles i base line a b tokens) (rest : List Token) :
    tokenMarks (tokens ++ rest) = tokenMarks tokens ++ tokenMarks rest := by
  induction h with
  | nil => rfl
  | blank _ _ _ ih => exact ih
  | text _ _ ih => exact congrArg (_ :: ·) ih
  | tag _ _ _ ih => exact congrArg (_ :: ·) ih
  | inlineTag _ _ _ _ _ _ _ _ ih =>
    -- the text behind the name is there, whether it is empty or not
    split
    · simp [tokenMarks, Token.mark, tokenAt, ih]
    · simp [tokenMarks, Token.mark, tokenAt, ih]

theorem slice_eq_cons {e : ℕ} (hlt : a < e) (he : e ≤ line.length) :
    slice line a e = byteAt line a :: (slice line a e).drop 1 := by
  have hlength : a < line.length := Nat.lt_of_lt_of_le hlt he
  obtain ⟨m, hm⟩ : ∃ m, e - a = m + 1 := ⟨e - a - 1, by omega⟩
  rw [slice, List.drop_eq_getElem_cons hlength, hm, List.take_succ_cons, List.drop_one,
    List.tail_cons, byteAt, List.getD_eq_getElem _ _ hlength]

theorem denotes_tokenAt {type : TokenType} {c e : ℕ} (h : base + line.length < 2 ^ 32)
    (hc : c ≤ e) (he : e ≤ line.length) :
    Denotes i base line (tokenAt i base line type c e).range
      (tokenAt i base line type c e).content := by
  refine ⟨c, e, ?_, hc, he, rfl⟩
  unfold tokenAt
  rw [position_eq h (Nat.le_trans hc he), position_eq h he]

/-- A name with its `@`. -/
theorem denotes_name {type : TokenType} {c e : ℕ} (h : base + line.length < 2 ^ 32)
    (hat : byteAt line c = 64) (hc : c < e) (he : e ≤ line.length) :
    Denotes i base line (tokenAt i base line type c e).range
      (64 :: (tokenAt i base line type c e).content.drop 1) := by
  have hslice := slice_eq_cons hc he
  rw [hat] at hslice
  have htext := @denotes_tokenAt line i base type c e h (Nat.le_of_lt hc) he
  unfold tokenAt at htext ⊢
  rw [hslice] at htext
  exact htext

/-- **The marks of tiles are where they say.** -/
theorem Tiles.located (h : Tiles i base line a b tokens) (hfits : base + line.length < 2 ^ 32)
    (hb : b ≤ line.length) : ∀ mark ∈ tokenMarks tokens, mark.Located i base line := by
  induction h with
  | nil => exact fun mark hmem => nomatch hmem
  | blank _ _ _ ih => exact ih hb
  | @text a b e rest hle hrest ih =>
    have hend := hrest.le
    intro mark hmem
    rcases List.mem_cons.mp hmem with rfl | hmem
    · exact denotes_tokenAt hfits hle (by omega)
    · exact ih hb mark hmem
  | @tag a b e rest hat hlt hrest ih =>
    have hend := hrest.le
    intro mark hmem
    rcases List.mem_cons.mp hmem with rfl | hmem
    · exact ⟨_, denotes_name hfits hat hlt (by omega)⟩
    · exact ih hb mark hmem
  | @inlineTag a b c e stop rest hopen hat hname hc hspaces he hclose hrest ih =>
    have hend := hrest.le
    intro mark hmem
    rcases List.mem_cons.mp hmem with rfl | hmem
    · exact ⟨_, denotes_name hfits hat hname (by omega)⟩
    · rcases List.mem_cons.mp hmem with rfl | hmem
      · split
        · exact denotes_tokenAt hfits he (by omega)
        · exact denotes_tokenAt hfits (Nat.le_refl _) (by omega)
      · exact ih hb mark hmem

/-- **What is not a blank is covered by tiles.** -/
theorem Tiles.covered (h : Tiles i base line a b tokens) (hfits : base + line.length < 2 ^ 32)
    (hb : b ≤ line.length) (ha : a ≤ j) (hj : j < b) (hchar : is_space (byteAt line j) = false) :
    ∃ mark ∈ tokenMarks tokens, mark.Covers i base line j := by
  induction h with
  | nil => exact absurd hj (Nat.not_lt.mpr ha)
  | blank hle hspaces hrest ih => exact ih hb (visible_of_blank hspaces ha hchar) hj
  | @text a b e rest hle hrest ih =>
    have hend := hrest.le
    by_cases hin : j < e
    · refine ⟨_, List.mem_cons_self, .line (position_eq hfits (by omega)) ha ?_⟩
      have hlength : (slice line a e).length = e - a := length_slice_of_le (by omega)
      rw [tokenAt, hlength]
      omega
    · obtain ⟨mark, hmem, hcovers⟩ := ih hb (Nat.le_of_not_lt hin) hj
      exact ⟨mark, List.mem_cons_of_mem _ hmem, hcovers⟩
  | @tag a b e rest hat hlt hrest ih =>
    have hend := hrest.le
    by_cases hin : j < e
    · refine ⟨_, List.mem_cons_self, .tag (position_eq hfits (by omega)) ha ?_⟩
      have hlength : (slice line a e).length = e - a := length_slice_of_le (by omega)
      rw [tokenAt, List.length_drop, hlength]
      omega
    · obtain ⟨mark, hmem, hcovers⟩ := ih hb (Nat.le_of_not_lt hin) hj
      exact ⟨mark, List.mem_cons_of_mem _ hmem, hcovers⟩
  | @inlineTag a b c e stop rest hopen hat hname hc hspaces he hclose hrest ih =>
    have hend := hrest.le
    have hstart : position i (base + (a + 1)) = ⟨i, base + (a + 1)⟩ :=
      position_eq hfits (by omega)
    by_cases hbrace : j = a
    · subst hbrace
      exact ⟨_, List.mem_cons_self, .openBrace hstart hopen⟩
    by_cases hin : j < stop
    · refine ⟨_, List.mem_cons_self, .inlineTag hstart (by omega) ?_⟩
      have hlength : (slice line (a + 1) stop).length = stop - (a + 1) :=
        length_slice_of_le (by omega)
      rw [tokenAt, List.length_drop, hlength]
      omega
    have hcontent := visible_of_blank hspaces (Nat.le_of_not_lt hin) hchar
    by_cases htext : j < e
    · refine ⟨_, List.mem_cons_of_mem _ List.mem_cons_self, ?_⟩
      rw [if_pos (Nat.lt_of_le_of_lt hcontent htext)]
      refine .line (position_eq hfits (by omega)) hcontent ?_
      have hlength : (slice line c e).length = e - c := length_slice_of_le (by omega)
      rw [tokenAt, hlength]
      omega
    by_cases hlast : j = e
    · subst hlast
      refine ⟨_, List.mem_cons_self, ?_⟩
      by_cases hsome : c < j
      · refine .closeBrace (e := j) ?_ (Nat.le_refl j) (fun k hk hlt => ?_) hclose
        · rw [if_pos hsome]
          exact position_eq hfits (by omega)
        · exact absurd hlt (Nat.not_lt.mpr hk)
      · -- without content, only blanks are between the name and the brace
        obtain rfl : c = j := by omega
        refine .closeBrace (e := stop) ?_ hc hspaces hclose
        rw [if_neg hsome]
        exact position_eq hfits (by omega)
    · obtain ⟨mark, hmem, hcovers⟩ := ih hb (by omega) hj
      exact ⟨mark, List.mem_cons_of_mem _ (List.mem_cons_of_mem _ hmem), hcovers⟩

/-! ### Lines -/

/-- The column at which a line of the comment begins. -/
def columnOf (base i : ℕ) : ℕ := if i = 0 then base else 0

/-- The numbers of the lines and the columns have 32 bits. -/
structure Fits (n base : ℕ) (lines : List (List UInt8)) : Prop where
  numbers : n + lines.length ≤ 2 ^ 32
  columns : ∀ i line, lines[i]? = some line → columnOf base i + line.length < 2 ^ 32

theorem Fits.behind (h : Fits n base (line :: lines)) : Fits (n + 1) 0 lines := by
  constructor
  · have hlines := h.numbers
    rw [List.length_cons] at hlines
    omega
  · intro i next hnext
    have hcolumn := h.columns (i + 1) next hnext
    unfold columnOf at hcolumn ⊢
    rw [if_neg (Nat.succ_ne_zero i)] at hcolumn
    rwa [ite_self]

theorem Fits.front (h : Fits n base (line :: lines)) : base + line.length < 2 ^ 32 :=
  h.columns 0 line rfl

/-- The tokens of lines, one line after the other. -/
inductive LinesRead (options : DocCommentParseOptions) :
    Bool → Bool → List (List UInt8) → ℕ → ℕ → List Token → Prop
  | nil {first started : Bool} {n base : ℕ} : LinesRead options first started [] n base []
  | cons {first started : Bool} {line : List UInt8} {rest : List (List UInt8)} {n base : ℕ}
      {tokens more : List Token} :
      LineRead options first rest.isEmpty started line n base tokens →
      LinesRead options false (started || !tokens.isEmpty) rest (n + 1) 0 more →
      LinesRead options first started (line :: rest) n base (tokens ++ more)

/-- The loop over the lines reads them all. -/
theorem tokenizeFrom_spec (hlines : n + lines.length ≤ 2 ^ 32) :
    ∃ new, tokenizeFrom options first tokens lines n base = tokens ++ new ∧
      LinesRead options first (!tokens.isEmpty) lines n base new := by
  induction lines generalizing first tokens n base with
  | nil => exact ⟨[], (List.append_nil tokens).symm, .nil⟩
  | cons line rest ih =>
    rw [List.length_cons] at hlines
    unfold tokenizeFrom
    have hread := lineTokens_spec options first rest.isEmpty (!tokens.isEmpty) line n base
    generalize lineTokens options first rest.isEmpty (!tokens.isEmpty) line n base = new
      at hread ⊢
    have hstarted : (!(tokens ++ new).isEmpty) = (!tokens.isEmpty || !new.isEmpty) := by
      cases tokens <;> rfl
    cases rest with
    | nil =>
      refine ⟨new, rfl, ?_⟩
      have hwhole : LinesRead options first (!tokens.isEmpty) [line] n base (new ++ []) :=
        .cons hread .nil
      rwa [List.append_nil] at hwhole
    | cons next rest =>
      rw [List.length_cons] at hlines
      have hnext : n + 1 + (next :: rest).length ≤ 2 ^ 32 := by
        rw [List.length_cons]
        omega
      obtain ⟨more, heq, hmore⟩ := @ih (n + 1) 0 (tokens ++ new) false hnext
      rw [hstarted] at hmore
      refine ⟨new ++ more, ?_, .cons hread hmore⟩
      rw [Nat.mod_eq_of_lt (by omega), heq, List.append_assoc]

/-- On a line, tokens are in order, their marks are where they say, and what is not a
blank is covered or was stripped. -/
structure LineMarked (options : DocCommentParseOptions) (first last : Bool) (line : List UInt8)
    (i base : ℕ) (tokens : List Token) : Prop where
  onLine : ∀ token ∈ tokens, token.range.start.line = i ∧ token.range.end.line = i
  order : InOrder tokens
  append : ∀ rest, tokenMarks (tokens ++ rest) = tokenMarks tokens ++ tokenMarks rest
  located : ∀ mark ∈ tokenMarks tokens, mark.Located i base line
  covered : ∀ j < line.length, is_space (byteAt line j) = false →
    (∃ mark ∈ tokenMarks tokens, mark.Covers i base line j) ∨ Stripped options first last line j

theorem LineRead.marked (h : LineRead options first last started line i base tokens)
    (hfits : base + line.length < 2 ^ 32) :
    LineMarked options first last line i base tokens := by
  cases h with
  | blank hstripped =>
    cases started with
    | false =>
      refine ⟨by simp, ⟨by simp, .nil⟩, fun _ => rfl, ?_, fun j hj hchar => .inr ?_⟩
      · exact fun mark hmem => nomatch hmem
      · exact hstripped j hj hchar
    | true =>
      have hposition : position i base = ⟨i, base⟩ := by
        rw [position, Nat.mod_eq_of_lt (by omega)]
      rw [if_pos rfl, hposition]
      refine ⟨?_, ⟨?_, List.pairwise_singleton _ _⟩, fun _ => rfl, ?_,
        fun j hj hchar => .inr (hstripped j hj hchar)⟩
      · intro token hmem
        obtain rfl := List.mem_singleton.mp hmem
        exact ⟨rfl, rfl⟩
      · intro token hmem
        obtain rfl := List.mem_singleton.mp hmem
        exact .inr ⟨rfl, Nat.le_refl _⟩
      · intro mark hmem
        obtain rfl := List.mem_singleton.mp hmem
        exact ⟨0, 0, rfl, Nat.le_refl 0, Nat.zero_le _, by simp [slice]⟩
  | @tiles a b _ hlt hb htiles hout =>
    obtain ⟨hwithin, hapart⟩ := htiles.spread hfits hb
    refine ⟨fun token hmem => ?_, ⟨fun token hmem => ?_, ?_⟩, htiles.marks_append,
      htiles.located hfits hb, fun j hj hchar => ?_⟩
    · exact ⟨(hwithin token hmem).startLine, (hwithin token hmem).endLine⟩
    · have htoken := hwithin token hmem
      exact .inr ⟨htoken.startLine.trans htoken.endLine.symm, htoken.forward⟩
    · refine hapart.imp_of_mem fun htoken hnext hle => .inr ⟨?_, hle⟩
      exact (hwithin _ htoken).endLine.trans (hwithin _ hnext).startLine.symm
    · by_cases hin : a ≤ j ∧ j < b
      · exact .inl (htiles.covered hfits hb hin.1 hin.2 hchar)
      · exact .inr (hout j hj (by omega) hchar)

/-- What the lines have, one after the other. -/
structure LinesMarked (options : DocCommentParseOptions) (first : Bool)
    (lines : List (List UInt8)) (n base : ℕ) (tokens : List Token) : Prop where
  later : ∀ token ∈ tokens, n ≤ token.range.start.line
  order : InOrder tokens
  located : ∀ mark ∈ tokenMarks tokens, ∃ i line, lines[i]? = some line ∧
    mark.Located (n + i) (columnOf base i) line
  covered : ∀ i line j, lines[i]? = some line → j < line.length →
    is_space (byteAt line j) = false →
    (∃ mark ∈ tokenMarks tokens, mark.Covers (n + i) (columnOf base i) line j) ∨
      Stripped options (first && i = 0) (i + 1 = lines.length) line j

/-- **The lines are read without loss.** -/
theorem LinesRead.marked (h : LinesRead options first started lines n base tokens)
    (hfits : Fits n base lines) : LinesMarked options first lines n base tokens := by
  induction h with
  | nil =>
    refine ⟨by simp, ⟨by simp, .nil⟩, ?_, ?_⟩
    · intro mark hmem
      cases hmem
    · intro i line j hline
      cases hline
  | @cons first started line rest n base tokens more hread hrest ih =>
    obtain ⟨hlines, horder, happend, hlocated, hcovered⟩ := hread.marked hfits.front
    obtain ⟨hlines', horder', hlocated', hcovered'⟩ := ih hfits.behind
    have hcolumn : ∀ i, columnOf base (i + 1) = columnOf 0 i := by
      intro i
      rw [columnOf, columnOf, if_neg (Nat.succ_ne_zero i), ite_self]
    have hnumber : ∀ i, n + (i + 1) = n + 1 + i := fun i => by omega
    refine ⟨?_, ⟨?_, ?_⟩, ?_, ?_⟩
    · intro token hmem
      rcases List.mem_append.mp hmem with hmem | hmem
      · exact Nat.le_of_eq (hlines token hmem).1.symm
      · exact Nat.le_of_succ_le (hlines' token hmem)
    · intro token hmem
      rcases List.mem_append.mp hmem with hmem | hmem
      · exact horder.forward token hmem
      · exact horder'.forward token hmem
    · refine List.pairwise_append.mpr ⟨horder.apart, horder'.apart, fun token hmem next hnext => ?_⟩
      have hend := (hlines token hmem).2
      have hstart := hlines' next hnext
      exact .inl (by omega)
    · intro mark hmem
      rw [happend] at hmem
      rcases List.mem_append.mp hmem with hmem | hmem
      · exact ⟨0, line, rfl, hlocated mark hmem⟩
      · obtain ⟨i, next, hnext, hmark⟩ := hlocated' mark hmem
        refine ⟨i + 1, next, hnext, ?_⟩
        rw [hnumber, hcolumn]
        exact hmark
    · intro i next j hnext hj hchar
      rw [happend]
      cases i with
      | zero =>
        obtain rfl := Option.some.inj hnext
        rcases hcovered j hj hchar with ⟨mark, hmem, hcovers⟩ | hstripped
        · exact .inl ⟨mark, List.mem_append_left _ hmem, hcovers⟩
        · refine .inr ?_
          have hlast : decide (0 + 1 = (line :: rest).length) = rest.isEmpty := by
            cases rest <;> simp
          rw [hlast]
          simpa using hstripped
      | succ i =>
        rw [hnumber, hcolumn]
        rcases hcovered' i next j hnext hj hchar with ⟨mark, hmem, hcovers⟩ | hstripped
        · exact .inl ⟨mark, List.mem_append_right _ hmem, hcovers⟩
        · refine .inr ?_
          simpa using hstripped

/-! ### The tokens of a comment -/

theorem Tiles.type_ne (h : Tiles i base line a b tokens) :
    ∀ token ∈ tokens, token.type ≠ .break := by
  induction h with
  | nil => simp
  | blank _ _ _ ih => exact ih
  | text _ _ ih => exact List.forall_mem_cons.mpr ⟨nofun, ih⟩
  | tag _ _ _ ih => exact List.forall_mem_cons.mpr ⟨nofun, ih⟩
  | inlineTag _ _ _ _ _ _ _ _ ih =>
    refine List.forall_mem_cons.mpr ⟨nofun, List.forall_mem_cons.mpr ⟨?_, ih⟩⟩
    split <;> nofun

/-- A comment does not start with a break. -/
theorem LinesRead.head_ne (h : LinesRead options first started lines n base tokens)
    (hstart : started = false) : ∀ token ∈ tokens.head?, token.type ≠ .break := by
  induction h with
  | nil => exact fun token hmem => nomatch hmem
  | @cons first started line rest n base tokens more hread hrest ih =>
    subst hstart
    intro token hmem
    cases tokens with
    | nil => exact ih rfl token hmem
    | cons head tokens =>
      obtain rfl := Option.some.inj hmem
      generalize hnew : head :: tokens = new at hread
      cases hread with
      | blank => exact nomatch hnew
      | tiles _ _ htiles =>
        subst hnew
        exact htiles.type_ne head List.mem_cons_self

/-- A break does not change the marks before it. -/
theorem tokenMarks_concat (tokens : List Token) (h : token.type = .break) :
    tokenMarks (tokens ++ [token]) = tokenMarks tokens ++ [.line [] token.range] := by
  induction tokens with
  | nil => simp [tokenMarks, Token.mark, h]
  | cons next tokens ih =>
    rw [List.cons_append, tokenMarks, ih, tokenMarks, List.cons_append]
    congr 1
    cases tokens with
    | nil => simp [Token.mark, h]
    | cons => rfl

/-- Without the break at the end, nothing is lost. -/
theorem LinesMarked.dropLast (h : LinesMarked options first lines n base (tokens ++ [token]))
    (hbreak : token.type = .break) : LinesMarked options first lines n base tokens := by
  obtain ⟨hlater, horder, hlocated, hcovered⟩ := h
  rw [tokenMarks_concat tokens hbreak] at hlocated hcovered
  refine ⟨fun t hmem => hlater t (List.mem_append_left _ hmem),
    ⟨fun t hmem => horder.forward t (List.mem_append_left _ hmem),
      (List.pairwise_append.mp horder.apart).1⟩,
    fun mark hmem => hlocated mark (List.mem_append_left _ hmem), ?_⟩
  intro i line j hline hj hchar
  rcases hcovered i line j hline hj hchar with ⟨mark, hmem, hcovers⟩ | hstripped
  · rcases List.mem_append.mp hmem with hmem | hmem
    · exact .inl ⟨mark, hmem, hcovers⟩
    · -- the text of a break is empty
      obtain rfl := List.mem_singleton.mp hmem
      cases hcovers with
      | line _ hle hlt =>
        rw [List.length_nil] at hlt
        omega
  · exact .inr hstripped

/-- **The tokens of a comment** do not start with a break, and have what the lines have. -/
theorem tokenize_spec {start : DocCommentPosition} (hfits : Fits start.line start.character lines) :
    (∀ token ∈ (tokenize lines start options).head?, token.type ≠ .break) ∧
      LinesMarked options true lines start.line start.character
        (tokenize lines start options) := by
  obtain ⟨new, heq, hread⟩ := @tokenizeFrom_spec start.line start.character [] options true lines
    hfits.numbers
  rw [List.nil_append] at heq
  have hhead := hread.head_ne rfl
  have hmarked := hread.marked hfits
  unfold tokenize
  rw [heq]
  dsimp only
  split
  next hbreak =>
    rcases List.eq_nil_or_concat new with rfl | ⟨tokens, token, rfl⟩
    · exact ⟨hhead, hmarked⟩
    · rw [List.concat_eq_append] at hbreak hhead hmarked ⊢
      rw [List.getLast?_concat, Option.any_some, decide_eq_true_eq] at hbreak
      rw [List.dropLast_concat]
      refine ⟨?_, hmarked.dropLast hbreak⟩
      cases tokens with
      | nil => exact fun token hmem => nomatch hmem
      | cons => exact hhead
  next => exact ⟨hhead, hmarked⟩

/-! ### The comment -/

/-- The carriage return at the end of a line is a blank. -/
theorem dropReturn_spec (line : List UInt8) :
    ∃ stop ≤ line.length, dropReturn line = line.take stop ∧ Blank line stop line.length := by
  unfold dropReturn
  split
  next hreturn =>
    refine ⟨line.length - 1, Nat.sub_le _ _, List.dropLast_eq_take, fun j hj hlt => ?_⟩
    obtain rfl : j = line.length - 1 := by omega
    rw [List.getLast?_eq_getElem?] at hreturn
    rw [byteAt, List.getD_eq_getElem?_getD, hreturn]
    rfl
  next =>
    exact ⟨line.length, Nat.le_refl _, (List.take_length).symm,
      fun j hj hlt => absurd hlt (Nat.not_lt.mpr hj)⟩

theorem Denotes.whole {range : DocCommentRange} {text : List UInt8} {stop : ℕ}
    (h : Denotes i base (line.take stop) range text) (hstop : stop ≤ line.length) :
    Denotes i base line range text := by
  obtain ⟨b, e, hrange, hle, he, htext⟩ := h
  rw [List.length_take_of_le hstop] at he
  refine ⟨b, e, hrange, hle, Nat.le_trans he hstop, ?_⟩
  rw [htext, slice, slice, List.drop_take, List.take_take]
  congr 1
  omega

theorem Mark.Located.whole {stop : ℕ} (h : mark.Located i base (line.take stop))
    (hstop : stop ≤ line.length) : mark.Located i base line := by
  cases mark with
  | line text range => exact Denotes.whole h hstop
  | tag name start =>
    obtain ⟨e, he⟩ := h
    exact ⟨e, he.whole hstop⟩
  | inlineTag name range =>
    obtain ⟨e, he⟩ := h
    exact ⟨e, he.whole hstop⟩

theorem Mark.Covers.whole {stop : ℕ} (h : mark.Covers i base (line.take stop) j) (hj : j < stop) :
    mark.Covers i base line j := by
  cases h with
  | line hstart hle hlt => exact .line hstart hle hlt
  | tag hstart hle hlt => exact .tag hstart hle hlt
  | inlineTag hstart hle hlt => exact .inlineTag hstart hle hlt
  | openBrace hstart hopen =>
    rw [byteAt_take hj] at hopen
    exact .openBrace hstart hopen
  | closeBrace hend hle hblank hclose =>
    rw [byteAt_take hj] at hclose
    refine .closeBrace hend hle (fun k hk hlt => ?_) hclose
    have hspace := hblank k hk hlt
    rwa [byteAt_take (Nat.lt_trans hlt hj)] at hspace

/-- A comment that was parsed without loss: every token was read, in order, what the
nodes say is there, the elements stand apart, and what is not a blank is in a node or a
marker that was stripped. -/
structure Locates (options : DocCommentParseOptions) (comment : List UInt8)
    (start : DocCommentPosition) (parsed : DocComment) : Prop where
  consumed : marksOf parsed.elements = tokenMarks (tokenize (get_lines comment) start options)
  located : ∀ mark ∈ marksOf parsed.elements, ∃ i line, (rawLines comment)[i]? = some line ∧
    mark.Located (start.line + i) (columnOf start.character i) line
  forward : ∀ node ∈ parsed.elements, node.range.start ≤ node.range.end
  apart : parsed.elements.Pairwise fun node next => node.range.end ≤ next.range.start
  covered : ∀ i line j, (rawLines comment)[i]? = some line → j < line.length →
    is_space (byteAt line j) = false →
    (∃ mark ∈ marksOf parsed.elements,
      mark.Covers (start.line + i) (columnOf start.character i) line j) ∨
    Stripped options (i = 0) (i + 1 = (rawLines comment).length) (dropReturn line) j

/-- **A comment is parsed without loss**, if its positions have 32 bits. -/
theorem parse_doc_comment_locates (options : DocCommentParseOptions) (comment : List UInt8)
    (start : DocCommentPosition)
    (hfits : Fits start.line start.character (get_lines comment)) :
    Locates options comment start (parse_doc_comment comment start options) := by
  obtain ⟨hhead, -, horder, hlocated, hcovered⟩ := @tokenize_spec options _ start hfits
  have hparsed : (parse_doc_comment comment start options).elements
      = parseElements [] (tokenize (get_lines comment) start options) := by
    unfold parse_doc_comment parse_comment
    split
    next hempty =>
      rw [List.isEmpty_iff.mp hempty, parseElements]
    next => rfl
  obtain ⟨hmarks, hlaid⟩ := parseElements_spec [] _ fun _ => hhead
  rw [← hparsed] at hmarks hlaid
  rw [marksOf_nil, List.nil_append] at hmarks
  obtain ⟨hforward, hapart, -⟩ := hlaid horder ⟨by simp, .nil, by simp⟩
  refine ⟨hmarks, ?_, hforward, hapart, ?_⟩
  · intro mark hmem
    rw [hmarks] at hmem
    obtain ⟨i, line, hline, hmark⟩ := hlocated mark hmem
    rw [get_lines, List.getElem?_map] at hline
    obtain ⟨raw, hraw, rfl⟩ := Option.map_eq_some_iff.mp hline
    obtain ⟨stop, hstop, hdrop, -⟩ := dropReturn_spec raw
    rw [hdrop] at hmark
    exact ⟨i, raw, hraw, hmark.whole hstop⟩
  · intro i raw j hraw hj hchar
    obtain ⟨stop, hstop, hdrop, hblank⟩ := dropReturn_spec raw
    have hin : j < stop := by
      by_contra hout
      exact absurd hj (Nat.not_lt.mpr (visible_of_blank hblank (Nat.le_of_not_lt hout) hchar))
    have hline : (get_lines comment)[i]? = some (dropReturn raw) := by
      rw [get_lines, List.getElem?_map, hraw, Option.map_some]
    have hlength : (get_lines comment).length = (rawLines comment).length := List.length_map _
    rw [hmarks, ← hlength, hdrop]
    rw [hdrop] at hline
    rw [← byteAt_take hin] at hchar
    have hcase := hcovered i _ j hline (by rwa [List.length_take_of_le hstop]) hchar
    rcases hcase with ⟨mark, hmem, hcovers⟩ | hstripped
    · exact .inl ⟨mark, hmem, hcovers.whole hin⟩
    · exact .inr (by simpa using hstripped)

/-- A comment with a paragraph and a tag. -/
theorem parse_doc_comment_locates_tag :
    Fits 4 7 (get_lines [47, 42, 42, 32, 65, 10, 32, 64, 98, 32, 42, 47]) ∧
      Locates ⟨[47, 42, 42], [42], [42, 47]⟩ [47, 42, 42, 32, 65, 10, 32, 64, 98, 32, 42, 47] ⟨4, 7⟩
        (parse_doc_comment [47, 42, 42, 32, 65, 10, 32, 64, 98, 32, 42, 47] ⟨4, 7⟩
          ⟨[47, 42, 42], [42], [42, 47]⟩) := by
  have hlines : get_lines [47, 42, 42, 32, 65, 10, 32, 64, 98, 32, 42, 47]
      = [[47, 42, 42, 32, 65], [32, 64, 98, 32, 42, 47]] := by decide
  have hfits : Fits 4 7 (get_lines [47, 42, 42, 32, 65, 10, 32, 64, 98, 32, 42, 47]) := by
    rw [hlines]
    refine ⟨by decide, fun i line hline => ?_⟩
    match i, hline with
    | 0, hline =>
      obtain rfl := Option.some.inj hline
      decide
    | 1, hline =>
      obtain rfl := Option.some.inj hline
      decide
  exact ⟨hfits, parse_doc_comment_locates _ _ _ hfits⟩

/-- From the last column that has 32 bits on, the end of a line is before its start. -/
theorem parse_doc_comment_wraps :
    ¬∀ (options : DocCommentParseOptions) (comment : List UInt8) (start : DocCommentPosition),
      Locates options comment start (parse_doc_comment comment start options) := by
  intro h
  have hlocates := h ⟨[], [], []⟩ [97, 98] ⟨0, 4294967295⟩
  have hmarks : tokenMarks (tokenize (get_lines [97, 98]) ⟨0, 4294967295⟩ ⟨[], [], []⟩)
      = [.line [97, 98] ⟨⟨0, 4294967295⟩, ⟨0, 1⟩⟩] := rfl
  have hmem : Mark.line [97, 98] ⟨⟨0, 4294967295⟩, ⟨0, 1⟩⟩
      ∈ marksOf (parse_doc_comment [97, 98] ⟨0, 4294967295⟩ ⟨[], [], []⟩).elements := by
    rw [hlocates.consumed, hmarks]
    exact List.mem_singleton_self _
  obtain ⟨i, line, -, b, e, hrange, hle, -⟩ := hlocates.located _ hmem
  have hstart := congrArg (fun range => range.start.character) hrange
  have hend := congrArg (fun range => range.end.character) hrange
  dsimp only at hstart hend
  omega

end Pegium.Documentation
