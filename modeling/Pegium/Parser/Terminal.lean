/-
Pegium/Parser/Terminal.lean

Terminal matching and skippers.

`terminal` is the pointer-walking matcher: it takes a position and returns the
position after the match.  Rules may refer to each other, so the matcher of
sub-expressions is a parameter `rec` and an outer `none` stands for a call that
has not returned; `terminalStep` is one unfolding.

A `while` loop of the source is a recursion on a budget of iterations, with
`none` when the budget runs out.  The budgets are one more than the number of
bytes of the text (or of elements, for the passes of an unordered group).
-/
import Pegium.Parser.Expression

namespace Pegium

/-- A terminal matcher: not returned, null, or the end of the match. -/
abbrev Matcher := Expr → ℕ → Option (Option ℕ)

variable (Γ : Grammar) (text : List UInt8)

/-! ### Terminals -/

/-- The end of a literal at `p`, without the word boundary check. -/
def literalTerminal : List UInt8 → Bool → ℕ → Option ℕ
  | [], _, p => some p
  | c :: cs, case_sensitive, p =>
    let byte := if case_sensitive then byteAt text p else tolower (byteAt text p)
    if byte == c then literalTerminal cs case_sensitive (p + 1) else none

/-- A word-like literal directly followed by an identifier character. -/
def has_word_boundary_violation (value : List UInt8) (stop : ℕ) : Bool :=
  is_word_like_terminal value && is_identifier_like_codepoint_at text stop text.length

/-- The strict match of a literal: its text, then the word boundary check. -/
def literalMatch (value : List UInt8) (case_sensitive : Bool) (p : ℕ) : Option ℕ :=
  (literalTerminal text value case_sensitive p).filter fun q =>
    !has_word_boundary_violation text value q

/-- One byte of a character range. -/
def characterRangeTerminal (lookup : UInt8 → Bool) (p : ℕ) : Option ℕ :=
  if lookup (byteAt text p) then some (p + 1) else none

/-! ### Sequences, choices and repetitions of terminals -/

variable (rec : Matcher)

/-- The elements one after the other. -/
def terminalSequence : List Expr → ℕ → Option (Option ℕ)
  | [], p => some (some p)
  | e :: es, p =>
    match rec e p with
    | none => none
    | some none => some none
    | some (some q) => terminalSequence es q

/-- The first element that matches. -/
def terminalAny : List Expr → ℕ → Option (Option ℕ)
  | [], _ => some none
  | e :: es, p =>
    match rec e p with
    | none => none
    | some none => terminalAny es p
    | some (some q) => some (some q)

/-- `while` the element matches. -/
def terminalWhile (e : Expr) : ℕ → ℕ → Option ℕ
  | 0, _ => none
  | budget + 1, p =>
    match rec e p with
    | none => none
    | some none => some p
    | some (some q) => terminalWhile e budget q

/-- Exactly `count` matches. -/
def terminalTimes (e : Expr) : ℕ → ℕ → Option (Option ℕ)
  | 0, p => some (some p)
  | count + 1, p =>
    match rec e p with
    | none => none
    | some none => some none
    | some (some q) => terminalTimes e count q

/-- At most `count` matches. -/
def terminalUpTo (e : Expr) : ℕ → ℕ → Option ℕ
  | 0, p => some p
  | count + 1, p =>
    match rec e p with
    | none => none
    | some none => some p
    | some (some q) => terminalUpTo e count q

/-- `Repetition::terminal`, with the cases of the source. -/
def terminalRepetition (min : ℕ) (max : Option ℕ) (e : Expr) (p : ℕ) : Option (Option ℕ) :=
  match min, max with
  | 0, some 1 =>
    match rec e p with
    | none => none
    | some none => some (some p)
    | some (some q) => some (some q)
  | 0, none => (terminalWhile rec e (text.length + 1) p).map some
  | 1, none =>
    match rec e p with
    | none => none
    | some none => some none
    | some (some q) => (terminalWhile rec e (text.length + 1) q).map some
  | min, none =>
    match terminalTimes rec e min p with
    | none => none
    | some none => some none
    | some (some q) => (terminalWhile rec e (text.length + 1) q).map some
  | min, some max =>
    if min = max then terminalTimes rec e min p
    else
      match terminalTimes rec e min p with
      | none => none
      | some none => some none
      | some (some q) => (terminalUpTo rec e (max - min) q).map some

/-- One left-to-right pass of `UnorderedGroup::terminal` over the elements and
their matched flags: the flags and position after it, and whether it matched
anything. -/
def terminalPass : List (Expr × Bool) → ℕ → Option (List (Expr × Bool) × ℕ × Bool)
  | [], p => some ([], p, false)
  | (e, true) :: es, p =>
    match terminalPass es p with
    | none => none
    | some (es', q, any) => some ((e, true) :: es', q, any)
  | (e, false) :: es, p =>
    match rec e p with
    | none => none
    | some none =>
      match terminalPass es p with
      | none => none
      | some (es', q, any) => some ((e, false) :: es', q, any)
    | some (some p') =>
      match terminalPass es p' with
      | none => none
      | some (es', q, _) => some ((e, true) :: es', q, true)

/-- Passes until one matches nothing. -/
def terminalPasses : ℕ → List (Expr × Bool) → ℕ → Option (List (Expr × Bool) × ℕ)
  | 0, _, _ => none
  | budget + 1, es, p =>
    match terminalPass rec es p with
    | none => none
    | some (es', q, false) => some (es', q)
    | some (es', q, true) => terminalPasses budget es' q

/-- `UnorderedGroup::terminal`. -/
def terminalUnorderedGroup (es : List Expr) (p : ℕ) : Option (Option ℕ) :=
  match terminalPasses rec (es.length + 1) (es.map (·, false)) p with
  | none => none
  | some (es', q) => some (if es'.all (·.2) then some q else none)

/-- One unfolding of `terminal`. -/
def terminalStep : Matcher
  | .literal _ value case_sensitive, p => some (literalTerminal text value case_sensitive p)
  | .characterRange _ lookup, p => some (characterRangeTerminal text lookup p)
  | .anyCharacter _, p => some (consume_utf8_codepoint_if_complete text p)
  | .group elements, p => terminalSequence rec elements p
  | .orderedChoice choices, p => terminalAny rec choices p
  | .unorderedGroup elements, p => terminalUnorderedGroup rec elements p
  | .repetition min max e, p => terminalRepetition text rec min max e p
  | .andPredicate e, p => (rec e p).map fun r => r.map fun _ => p
  | .notPredicate e, p => (rec e p).map fun r => if r.isSome then none else some p
  | .terminalRule r, p => rec (Γ.terminalRule r) p
  | .skipperWrapped _ base, p => rec base p
  -- the remaining expressions have no `terminal`
  | .assignment _ _, _ | .create _, _ | .nest _, _ | .dataTypeRule _, _ | .parserRule _, _
  | .infixRule _, _ => some none

/-! ### Skippers -/

/-- The first hidden rule that matches, with the element it records. -/
def parseAnyHidden : List (GrammarElement × Expr) → ℕ → Option (Option (GrammarElement × ℕ))
  | [], _ => some none
  | (ge, e) :: rules, p =>
    match rec e p with
    | none => none
    | some none => parseAnyHidden rules p
    | some (some q) => some (some (ge, q))

/-- `while` an ignored rule matches. -/
def skipIgnored (ignored : List Expr) : ℕ → ℕ → Option ℕ
  | 0, _ => none
  | budget + 1, p =>
    match terminalAny rec ignored p with
    | none => none
    | some none => some p
    | some (some q) => skipIgnored ignored budget q

/-- The hidden leaves of `SkipperContext::skip` from `p`, in order, each with
its element and span, and the position where it stops. -/
def skipLoop (sk : Skipper) : ℕ → ℕ → Option (List (GrammarElement × ℕ × ℕ) × ℕ)
  | 0, _ => none
  | budget + 1, p =>
    match skipIgnored rec sk.ignoredRules (text.length + 1) p with
    | none => none
    | some q =>
      match parseAnyHidden rec sk.hiddenRules q with
      | none => none
      | some none => some ([], q)
      | some (some (ge, r)) =>
        match skipLoop sk budget r with
        | none => none
        | some (leaves, s) => some ((ge, q, r) :: leaves, s)

/-- `SkipperContext::skip` from `p`. -/
def skipFrom (sk : Skipper) (p : ℕ) : Option (List (GrammarElement × ℕ × ℕ) × ℕ) :=
  skipLoop text rec sk (text.length + 1) p

/-- The builder-free overload: the ignored rules, then the hidden ones. -/
def skipWithoutBuilder (sk : Skipper) : ℕ → ℕ → Option ℕ
  | 0, _ => none
  | budget + 1, p =>
    match terminalAny rec (sk.ignoredRules ++ sk.hiddenRules.map (·.2)) p with
    | none => none
    | some none => some p
    | some (some q) => skipWithoutBuilder sk budget q

end Pegium
