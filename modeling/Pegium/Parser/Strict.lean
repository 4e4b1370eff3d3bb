/-
Pegium/Parser/Strict.lean

Strict parsing.

The five recursive operations of an expression (`terminal`, `parse`, `probe`,
`attempt_fast_probe` and `probe_match_here`) call each other on sub-expressions
and on rule bodies.  An `Interp` is one choice of all five; `Interp.step`
computes them at an expression from those of the expressions it calls, as the
source does, and `interp n` is what `n` nested calls can compute.  An outer
`none` stands for a call that has not returned.

`tracked` selects the context type: `false` for `ParseContext`, `true` for
`TrackedParseContext`.  The two differ in the negative predicate and in the fast
probes of parser and infix rules.
-/
import Pegium.Parser.ParseContext

namespace Pegium

/-- The result of a call on a context: not returned, or the Boolean result and
the context after the call. -/
abbrev Outcome := Option (Bool × ParseContext)

/-- The operations of expressions on a context. -/
structure Interp where
  terminal : Matcher
  parse : (tracked : Bool) → Skipper → Expr → ParseContext → Outcome
  probe : (tracked : Bool) → Skipper → Expr → ParseContext → Outcome
  fastProbe : (tracked : Bool) → Skipper → Expr → ParseContext → Outcome
  probeMatchHere : Skipper → Expr → ParseContext → Outcome

/-- The operations when no call has returned. -/
def Interp.bot : Interp :=
  ⟨fun _ _ => none, fun _ _ _ _ => none, fun _ _ _ _ => none, fun _ _ _ _ => none,
    fun _ _ _ => none⟩

variable (Γ : Grammar) (text : List UInt8)

/-! ### Helpers shared by the combinators -/

/-- A terminal's strict parse: a visible leaf up to the end of the match. -/
def parseLeaf (element : GrammarElement) (ctx : ParseContext) (matchedEnd : Option ℕ) :
    Bool × ParseContext :=
  match matchedEnd with
  | some q => (true, ctx.leaf q element)
  | none => (false, ctx)

/-- Continue on success only. -/
def andThen (r : Outcome) (k : ParseContext → Outcome) : Outcome :=
  match r with
  | none => none
  | some (false, ctx) => some (false, ctx)
  | some (true, ctx) => k ctx

/-- Continue on failure only. -/
def orElse (r : Outcome) (k : ParseContext → Outcome) : Outcome :=
  match r with
  | none => none
  | some (true, ctx) => some (true, ctx)
  | some (false, ctx) => k ctx

namespace Interp

variable (I : Interp) (tracked : Bool) (sk : Skipper)

/-- `ctx.skip()` with the skipper installed in the context. -/
def skip (ctx : ParseContext) : Option ParseContext := ctx.skip text I.terminal sk

/-- `attempt_parse_strict`: the state is saved and restored around an expression
that does not declare itself failure-safe. -/
def attempt_parse_strict (e : Expr) (ctx : ParseContext) : Outcome :=
  if e.isFailureSafe then I.parse tracked sk e ctx
  else orElse (I.parse tracked sk e ctx) fun ctx' => some (false, ctx'.rewind ctx.mark)

/-! ### Groups and choices -/

/-- `Group::parse_elements`, after the first element. -/
def parseElements : List Expr → ParseContext → Outcome
  | [], ctx => some (true, ctx)
  | e :: es, ctx =>
    match I.skip text sk ctx with
    | none => none
    | some ctx => andThen (I.parse tracked sk e ctx) (parseElements es)

/-- `Group::parse_impl`: no skip before the first element. -/
def parseGroup : List Expr → ParseContext → Outcome
  | [], ctx => some (true, ctx)
  | e :: es, ctx => andThen (I.parse tracked sk e ctx) (I.parseElements text tracked sk es)

/-- `any_choice`: the first alternative for which `f` answers true. -/
def anyChoice (f : Expr → ParseContext → Outcome) : List Expr → ParseContext → Outcome
  | [], ctx => some (false, ctx)
  | e :: es, ctx => orElse (f e ctx) (anyChoice f es)

/-! ### Repetitions -/

/-- The unbounded loop after an item: skip and try another one, and go back to
the end of the last item when there is none. -/
def starLoop (e : Expr) : ℕ → ParseContext → Outcome
  | 0, _ => none
  | budget + 1, ctx =>
    match I.skip text sk ctx with
    | none => none
    | some ctx' =>
      match I.attempt_parse_strict tracked sk e ctx' with
      | none => none
      | some (false, ctx'') => some (true, ctx''.rewind ctx.mark)
      | some (true, ctx'') => starLoop e budget ctx''

/-- At most `count` more items. -/
def upToLoop (e : Expr) : ℕ → ParseContext → Outcome
  | 0, ctx => some (true, ctx)
  | count + 1, ctx =>
    match I.skip text sk ctx with
    | none => none
    | some ctx' =>
      match I.attempt_parse_strict tracked sk e ctx' with
      | none => none
      | some (false, ctx'') => some (true, ctx''.rewind ctx.mark)
      | some (true, ctx'') => upToLoop e count ctx''

/-- Exactly `count` more items, going back to the end of the last one before a
failure is reported. -/
def minLoop (e : Expr) : ℕ → ParseContext → Outcome
  | 0, ctx => some (true, ctx)
  | count + 1, ctx =>
    match I.skip text sk ctx with
    | none => none
    | some ctx' =>
      match I.attempt_parse_strict tracked sk e ctx' with
      | none => none
      | some (false, ctx'') => some (false, ctx''.rewind ctx.mark)
      | some (true, ctx'') => minLoop e count ctx''

/-- Exactly `count` more items, with no restoration on failure. -/
def fixedLoop (e : Expr) : ℕ → ParseContext → Outcome
  | 0, ctx => some (true, ctx)
  | count + 1, ctx =>
    match I.skip text sk ctx with
    | none => none
    | some ctx' => andThen (I.parse tracked sk e ctx') (fixedLoop e count)

/-- `Repetition::parse_strict_impl`, with the cases of the source. -/
def parseRepetition (min : ℕ) (max : Option ℕ) (e : Expr) (ctx : ParseContext) : Outcome :=
  let attempt := I.attempt_parse_strict tracked sk e ctx
  let star := I.starLoop text tracked sk e (text.length + 1)
  match min, max with
  | 0, some 1 => attempt.map fun r => (true, r.2)
  | 0, none => (andThen attempt star).map fun r => (true, r.2)
  | 1, none => andThen attempt star
  | min, none =>
    andThen attempt fun ctx => andThen (I.minLoop text tracked sk e (min - 1) ctx) star
  | 0, some max =>
    (andThen attempt (I.upToLoop text tracked sk e (max - 1))).map fun r => (true, r.2)
  | min, some max =>
    if min = max then
      andThen (I.parse tracked sk e ctx) (I.fixedLoop text tracked sk e (min - 1))
    else
      andThen attempt fun ctx =>
        andThen (I.minLoop text tracked sk e (min - 1) ctx)
          (I.upToLoop text tracked sk e (max - min))

/-! ### Unordered groups -/

/-- `try_match_one`: the first element not yet matched that parses, with its
flag set; `none` inside when there is none. -/
def tryMatchOne : List (Expr × Bool) → ParseContext →
    Option (Option (List (Expr × Bool)) × ParseContext)
  | [], ctx => some (none, ctx)
  | (e, true) :: es, ctx =>
    match tryMatchOne es ctx with
    | none => none
    | some (r, ctx') => some (r.map ((e, true) :: ·), ctx')
  | (e, false) :: es, ctx =>
    match I.attempt_parse_strict tracked sk e ctx with
    | none => none
    | some (true, ctx') => some (some ((e, true) :: es), ctx')
    | some (false, ctx') =>
      match tryMatchOne es ctx' with
      | none => none
      | some (r, ctx'') => some (r.map ((e, false) :: ·), ctx'')

/-- The matching loop of `parse_group` after the first match, with `count`
elements left. -/
def groupLoop : ℕ → List (Expr × Bool) → ParseContext → Outcome
  | 0, _, ctx => some (true, ctx)
  | count + 1, es, ctx =>
    match I.skip text sk ctx with
    | none => none
    | some ctx' =>
      match I.tryMatchOne tracked sk es ctx' with
      | none => none
      | some (none, ctx'') => some (false, ctx''.rewind ctx.mark)
      | some (some es', ctx'') => groupLoop count es' ctx''

/-- `UnorderedGroup::parse_group`. -/
def parseUnorderedGroup (es : List Expr) (ctx : ParseContext) : Outcome :=
  let matched : Outcome :=
    match I.tryMatchOne tracked sk (es.map (·, false)) ctx with
    | none => none
    | some (none, ctx') => some (false, ctx')
    | some (some es', ctx') => I.groupLoop text tracked sk (es.length - 1) es' ctx'
  orElse matched fun ctx' => some (false, ctx'.rewind ctx.mark)

/-! ### Assignments and rules -/

/-- The node of an assignment or infix operator: an ordered choice gets a node
of its own around it, any other element has its first node rebound. -/
def parseElementNode (element : GrammarElement) (e : Expr) (ctx : ParseContext) : Outcome :=
  if e.isOrderedChoice then
    andThen (I.parse tracked sk e ctx.enter) fun ctx' =>
      some (true, ctx'.exit ctx.cursor element)
  else
    andThen (I.parse tracked sk e ctx) fun ctx' =>
      some (true, if ctx.node_count < ctx'.node_count then
        ctx'.override_grammar_element ctx.node_count element else ctx')

/-- The skipper inside a rule. -/
def ruleSkipper (rule : RuleDef) : Skipper :=
  match rule.localSkipper with
  | some s => Γ.skipper s
  | none => sk

/-- The node of a parser or data type rule.  On failure it is left open. -/
def parseRule (element : GrammarElement) (rule : RuleDef) (ctx : ParseContext) : Outcome :=
  andThen (I.parse tracked (ruleSkipper Γ sk rule) rule.body ctx.enter) fun ctx' =>
    some (true, ctx'.exit ctx.cursor element)

/-! ### Infix rules -/

/-- `infix_operator_shadowed`: a literal operator that ends at `cursor` is only a
prefix of a longer declared literal operator that stands there too. -/
def infixOperatorShadowed (operators : List InfixOperator) (op : InfixOperator)
    (cursor : ℕ) : Bool :=
  match op.element with
  | .literal _ value _ =>
    let start := cursor - value.length
    operators.any fun candidate =>
      match candidate.element with
      | .literal _ longer _ =>
        value.length < longer.length && longer.length ≤ text.length - start &&
          (text.drop start).take longer.length == longer
      | _ => false
  | _ => false

/-- `infix_next_min_precedence`. -/
def nextMinPrecedence (op : InfixOperator) (precedence : ℕ) : ℕ :=
  match op.associativity with
  | .left => precedence + 1
  | .right => precedence

/-- `attempt_parse_strict` of the operator at `index` of an infix rule. -/
def attemptOperator (rule index : ℕ) (op : InfixOperator) (ctx : ParseContext) : Outcome :=
  let r := I.parseElementNode tracked sk (.infixOperator rule index) op.element ctx
  if !op.element.isOrderedChoice && op.element.isFailureSafe then r
  else orElse r fun ctx' => some (false, ctx'.rewind ctx.mark)

/-- `has_operator_fast_probe`: the operators from `index` on. -/
def hasOperatorFastProbe (minPrecedence : ℕ) : List InfixOperator → ParseContext → Outcome
  | [], ctx => some (false, ctx)
  | op :: ops, ctx =>
    if minPrecedence ≤ ops.length + 1 then
      orElse (I.fastProbe tracked sk op.element ctx) (hasOperatorFastProbe minPrecedence ops)
    else hasOperatorFastProbe minPrecedence ops ctx

/-- `try_match_operator_strict`: the first operator from `index` on, of at least
the given precedence, that stands at the cursor and is not shadowed; with the
minimal precedence of its right operand. -/
def tryMatchOperator (rule : ℕ) (operators : List InfixOperator) (minPrecedence : ℕ) :
    ℕ → List InfixOperator → ParseContext → Option (Option ℕ × ParseContext)
  | _, [], ctx => some (none, ctx)
  | index, op :: ops, ctx =>
    let precedence := ops.length + 1
    if precedence < minPrecedence then some (none, ctx)
    else
      match I.fastProbe tracked sk op.element ctx with
      | none => none
      | some (false, ctx) => tryMatchOperator rule operators minPrecedence (index + 1) ops ctx
      | some (true, ctx) =>
        match I.attemptOperator tracked sk rule index op ctx with
        | none => none
        | some (false, ctx') =>
          tryMatchOperator rule operators minPrecedence (index + 1) ops ctx'
        | some (true, ctx') =>
          if infixOperatorShadowed text operators op ctx'.cursor then
            tryMatchOperator rule operators minPrecedence (index + 1) ops
              (ctx'.rewind ctx.mark)
          else some (some (nextMinPrecedence op precedence), ctx')

/-- `parse_tail_strict`: it always answers true, so only the context is kept. -/
def parseTail (rule : ℕ) (defn : InfixDef) :
    ℕ → ℕ → ℕ → ParseContext → Option ParseContext
  | 0, _, _, _ => none
  | budget + 1, minPrecedence, lhsStart, ctx =>
    if defn.operators.length < minPrecedence then some ctx
    else
      match I.hasOperatorFastProbe tracked sk minPrecedence defn.operators ctx with
      | none => none
      | some (false, ctx) => some ctx
      | some (true, ctx) =>
        match I.tryMatchOperator text tracked sk rule defn.operators minPrecedence 0
            defn.operators ctx.enter with
        | none => none
        | some (none, ctx') => some (ctx'.rewind ctx.mark)
        | some (some nextMin, ctx') =>
          match I.skip text sk ctx' with
          | none => none
          | some ctx' =>
            match I.parse tracked sk (.parserRule defn.primary) ctx' with
            | none => none
            | some (false, ctx'') => some (ctx''.rewind ctx.mark)
            | some (true, ctx'') =>
              match I.skip text sk ctx'' with
              | none => none
              | some ctx'' =>
                match parseTail rule defn budget nextMin ctx'.cursor ctx'' with
                | none => none
                | some ctx₃ =>
                  parseTail rule defn budget minPrecedence lhsStart
                    (ctx₃.exit lhsStart (.infixRule rule))

/-- `ParseEngine::rule`. -/
def parseInfix (rule : ℕ) (defn : InfixDef) (ctx : ParseContext) : Outcome :=
  andThen (I.parse tracked sk (.parserRule defn.primary) ctx) fun ctx' =>
    match I.skip text sk ctx' with
    | none => none
    | some ctx' =>
      (I.parseTail text tracked sk rule defn (text.length + 1) 0 ctx.cursor ctx').map (true, ·)

/-! ### Parsing -/

/-- One unfolding of `parse`. -/
def parseStep : Expr → ParseContext → Outcome
  | .literal id value case_sensitive, ctx =>
    some (parseLeaf (.expression id) ctx (literalMatch text value case_sensitive ctx.cursor))
  | .characterRange id lookup, ctx =>
    some (parseLeaf (.expression id) ctx (characterRangeTerminal text lookup ctx.cursor))
  | .anyCharacter id, ctx =>
    some (parseLeaf (.expression id) ctx (consume_utf8_codepoint_if_complete text ctx.cursor))
  | .group elements, ctx => I.parseGroup text tracked sk elements ctx
  | .orderedChoice choices, ctx => anyChoice (I.attempt_parse_strict tracked sk) choices ctx
  | .unorderedGroup elements, ctx => I.parseUnorderedGroup text tracked sk elements ctx
  | .repetition min max e, ctx => I.parseRepetition text tracked sk min max e ctx
  | .andPredicate e, ctx => I.probe false sk e ctx
  | .notPredicate e, ctx =>
    (if tracked then I.probeMatchHere sk e ctx else I.probe false sk e ctx).map
      fun r => (!r.1, r.2)
  | .assignment id e, ctx => I.parseElementNode tracked sk (.expression id) e ctx
  | .create id, ctx => some (true, ctx.leaf ctx.cursor (.expression id))
  | .nest id, ctx => some (true, ctx.leaf ctx.cursor (.expression id))
  | .terminalRule r, ctx =>
    (I.terminal (Γ.terminalRule r) ctx.cursor).map (parseLeaf (.terminalRule r) ctx)
  | .dataTypeRule r, ctx => I.parseRule Γ tracked sk (.dataTypeRule r) (Γ.dataTypeRule r) ctx
  | .parserRule r, ctx => I.parseRule Γ tracked sk (.parserRule r) (Γ.parserRule r) ctx
  | .infixRule r, ctx => I.parseInfix text tracked sk r (Γ.infixRule r) ctx
  | .skipperWrapped s base, ctx => I.parse tracked (Γ.skipper s) base ctx

/-! ### Probing -/

/-- `fast_probe_elements`: a nullable element that does not start is passed
over. -/
def fastProbeElements : List Expr → ParseContext → Outcome
  | [], ctx => some (false, ctx)
  | e :: es, ctx =>
    orElse (I.fastProbe tracked sk e ctx) fun ctx' =>
      if e.nullable Γ then fastProbeElements es ctx' else some (false, ctx')

/-- The probe of an expression without a probe of its own: parse and restore. -/
def defaultProbe (e : Expr) (ctx : ParseContext) : Outcome :=
  (I.parse tracked sk e ctx).map fun r => (r.1, r.2.rewind ctx.mark)

/-- The expressions whose class declares `probe_impl`; a skipper-wrapped
expression inherits it from its base class, without the skipper. -/
def hasProbeImpl : Expr → Bool
  | .literal _ _ _ | .characterRange _ _ | .anyCharacter _ | .group _ | .orderedChoice _
  | .repetition _ _ _ | .andPredicate _ | .notPredicate _ | .create _ => true
  | .skipperWrapped _ base => hasProbeImpl base
  | _ => false

/-- One unfolding of `probe`. -/
def probeStep : Expr → ParseContext → Outcome
  | .literal _ value case_sensitive, ctx =>
    some ((literalMatch text value case_sensitive ctx.cursor).isSome, ctx)
  | .characterRange _ lookup, ctx =>
    some ((characterRangeTerminal text lookup ctx.cursor).isSome, ctx)
  | .anyCharacter _, ctx =>
    some ((consume_utf8_codepoint_if_complete text ctx.cursor).isSome, ctx)
  | .group elements, ctx => I.fastProbeElements Γ tracked sk elements ctx
  | .orderedChoice choices, ctx => anyChoice (I.probe tracked sk) choices ctx
  | .repetition _ _ e, ctx => I.fastProbe tracked sk e ctx
  | .andPredicate e, ctx => I.probe false sk e ctx
  | .notPredicate e, ctx => (I.probe false sk e ctx).map fun r => (!r.1, r.2)
  | .create _, ctx => some (false, ctx)
  | .skipperWrapped s base, ctx =>
    if hasProbeImpl base then I.probe tracked sk base ctx
    else I.defaultProbe tracked sk (.skipperWrapped s base) ctx
  | e, ctx => I.defaultProbe tracked sk e ctx

/-- The base classes from which a skipper-wrapped expression inherits a fast
probe (the repetition's is its probe). -/
def hasFastProbeImpl : Expr → Bool
  | .group _ | .orderedChoice _ | .repetition _ _ _ | .assignment _ _ | .create _ => true
  | .skipperWrapped _ base => hasFastProbeImpl base
  | _ => false

/-- One unfolding of `attempt_fast_probe`.  No instance of the fast probe of a
parser rule on the untracked context compiles; the model gives it the body its
template has. -/
def fastProbeStep : Expr → ParseContext → Outcome
  | .group elements, ctx => I.fastProbeElements Γ tracked sk elements ctx
  | .orderedChoice choices, ctx => anyChoice (I.fastProbe tracked sk) choices ctx
  | .repetition _ _ e, ctx => I.fastProbe tracked sk e ctx
  | .assignment _ e, ctx => I.fastProbe tracked sk e ctx
  | .create _, ctx => some (false, ctx)
  | .parserRule r, ctx =>
    I.fastProbe tracked (ruleSkipper Γ sk (Γ.parserRule r)) (Γ.parserRule r).body ctx
  | .infixRule r, ctx =>
    if tracked then I.fastProbe tracked sk (.parserRule (Γ.infixRule r).primary) ctx
    else I.probe tracked sk (.infixRule r) ctx
  | .skipperWrapped s base, ctx =>
    if hasFastProbeImpl base then I.fastProbe tracked sk base ctx
    else I.probe tracked sk (.skipperWrapped s base) ctx
  | e, ctx => I.probe tracked sk e ctx

/-- `TerminalShape::allowsReplace` of a literal: more than one codepoint. -/
def allowsReplace (value : List UInt8) : Bool :=
  !value.isEmpty && utf8_codepoint_length (byteAt value 0) != value.length

/-- `Literal::probeMatchHere` in a strict context: the literal stands at the
cursor, or something one edit away from it when it is long enough. -/
def literalMatchHere (value : List UInt8) (case_sensitive : Bool) (p : ℕ) : Bool :=
  (literalMatch text value case_sensitive p).isSome ||
    (allowsReplace value && 4 ≤ value.length &&
      literal_has_single_edit_strict_match value ((text.drop p).take (value.length + 1))
        case_sensitive)

/-- One unfolding of `probe_match_here` on the tracked context. -/
def probeMatchHereStep : Expr → ParseContext → Outcome
  | .literal _ value case_sensitive, ctx =>
    some (literalMatchHere text value case_sensitive ctx.cursor, ctx)
  | .orderedChoice choices, ctx => anyChoice (I.probeMatchHere sk) choices ctx
  | .terminalRule r, ctx => I.probeMatchHere sk (Γ.terminalRule r) ctx
  | .dataTypeRule r, ctx => I.probeMatchHere sk (Γ.dataTypeRule r).body ctx
  | .parserRule r, ctx => I.probeMatchHere sk (Γ.parserRule r).body ctx
  | .skipperWrapped s base, ctx =>
    if base.isOrderedChoice then I.probeMatchHere sk base ctx
    else I.probe true sk (.skipperWrapped s base) ctx
  | e, ctx => I.probe true sk e ctx

/-- All operations at an expression, from those of the expressions they call. -/
def step : Interp where
  terminal := terminalStep Γ text I.terminal
  parse tracked sk := I.parseStep Γ text tracked sk
  probe tracked sk := I.probeStep Γ text tracked sk
  fastProbe tracked sk := I.fastProbeStep Γ tracked sk
  probeMatchHere sk := I.probeMatchHereStep Γ text sk

end Interp

/-- What calls nested at most `n` deep compute. -/
def interp : ℕ → Interp
  | 0 => .bot
  | n + 1 => (interp n).step Γ text

/-- The strict parse of a text by an entry rule: skip, apply the rule, go back
to after the skip if it failed, and skip again. -/
def runStrictParse (n : ℕ) (tracked : Bool) (sk : Skipper) (entryRule : ℕ) : Outcome :=
  let I := interp Γ text n
  match I.skip text sk .initial with
  | none => none
  | some ctx =>
    match I.parse tracked sk (.parserRule entryRule) ctx with
    | none => none
    | some (matched, ctx') =>
      (I.skip text sk (if matched then ctx' else ctx'.rewind ctx.mark)).map (matched, ·)

end Pegium
