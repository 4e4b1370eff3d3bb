/-
Pegium/Parser/Peg.lean

The meaning of strict parsing, without a builder.

A `Match` says what a successful parse adds to its context: where it stops, the
CST nodes it appends, and two ghost components used by the span law, the number
of visible leaves it records and the nodes it exits.  A parse is a function of
the position alone, so there is nothing to save, restore or rewind: failure is
simply the absence of a match.

The definitions follow `Strict.lean` one for one, with two simplifications that
the absence of state allows: `attempt_parse_strict` is parsing, and the cases of
a repetition are one.  `Refinement.lean` proves that the code computes this.
-/
import Pegium.Parser.Strict
import Pegium.SyntaxTree.TreeBuilder

namespace Pegium

/-- The position of a context: its cursor and the end of its last visible leaf. -/
structure Position where
  cursor : ℕ
  lastVisible : ℕ
  deriving DecidableEq

/-- A node exited by a parse: the position where it was entered, and whether a
visible leaf was recorded inside. -/
structure ExitMark where
  entered : Position
  visible : Bool
  deriving DecidableEq

/-- What a successful parse adds to its context. -/
structure Match where
  stop : Position
  forest : Forest (CstLabel GrammarElement)
  visibleLeaves : ℕ
  exits : List ExitMark
  deriving DecidableEq

/-- A parse as a function of the position: not returned, failure, or a match. -/
abbrev Parse := Position → Option (Option Match)

namespace Match

/-- The match that adds nothing. -/
def nil (pos : Position) : Match := ⟨pos, .nil, 0, []⟩

/-- One match after another. -/
def append (m m' : Match) : Match :=
  ⟨m'.stop, m.forest ++ m'.forest, m.visibleLeaves + m'.visibleLeaves, m.exits ++ m'.exits⟩

/-- A visible leaf from the position to `stop`. -/
def leaf (pos : Position) (stop : ℕ) (element : GrammarElement) : Match :=
  ⟨⟨stop, stop⟩, .tree ⟨pos.cursor, stop, element, false, false⟩ .nil, 1, []⟩

/-- The hidden leaves of a skip. -/
def hidden (pos : Position) (leaves : List (GrammarElement × ℕ × ℕ)) (stop : ℕ) : Match :=
  ⟨⟨stop, pos.lastVisible⟩,
    leaves.foldr (fun l f => .tree ⟨l.2.1, l.2.2, l.1, true, false⟩ .nil ++ f) .nil, 0, []⟩

/-- A node around a match that started at `pos`, beginning at `checkpoint`. -/
def node (pos : Position) (checkpoint : ℕ) (element : GrammarElement) (m : Match) : Match :=
  ⟨m.stop, .tree ⟨checkpoint, m.stop.lastVisible, element, false, false⟩ m.forest,
    m.visibleLeaves, m.exits ++ [⟨⟨checkpoint, pos.lastVisible⟩, decide (0 < m.visibleLeaves)⟩]⟩

/-- The first node of a match rebound to another element. -/
def rebind (element : GrammarElement) (m : Match) : Match :=
  { m with forest := m.forest.modifyHead fun l => { l with grammarElement := element } }

@[simp] theorem nil_append (pos : Position) (m : Match) : (nil pos).append m = m := by
  simp [nil, append]

@[simp] theorem append_nil (m : Match) : m.append (nil m.stop) = m := by
  simp [nil, append]

theorem append_assoc (m m' m'' : Match) :
    (m.append m').append m'' = m.append (m'.append m'') := by
  simp [append, Forest.append_assoc, Nat.add_assoc]

@[simp] theorem append_stop (m m' : Match) : (m.append m').stop = m'.stop := rfl

end Match

/-! ### Combining parses -/

/-- Continue a parse after a match. -/
def pthen (r : Option (Option Match)) (k : Parse) : Option (Option Match) :=
  match r with
  | none => none
  | some none => some none
  | some (some m) => (k m.stop).map (Option.map m.append)

/-- Try another parse after a failure. -/
def porElse (r k : Option (Option Match)) : Option (Option Match) :=
  match r with
  | none => none
  | some none => k
  | some (some m) => some (some m)

/-- Transform a match. -/
def pmap (f : Match → Match) (r : Option (Option Match)) : Option (Option Match) :=
  r.map (Option.map f)

/-- An answer without a match. -/
def answered (r : Option (Option Match)) : Option Bool := r.map Option.isSome

/-- `||` on answers. -/
def aorElse (r k : Option Bool) : Option Bool :=
  match r with
  | none => none
  | some true => some true
  | some false => k

theorem pmap_append (m m' : Match) (r : Option (Option Match)) :
    pmap (m.append m').append r = pmap m.append (pmap m'.append r) := by
  rcases r with - | - | n <;> simp [pmap, Match.append_assoc]

theorem pthen_pmap (m : Match) (r : Option (Option Match)) (k : Parse) :
    pthen (pmap m.append r) k = pmap m.append (pthen r k) := by
  rcases r with - | - | n
  · rfl
  · rfl
  · exact pmap_append m n _

@[simp] theorem pthen_nil (pos : Position) (k : Parse) :
    pthen (some (some (.nil pos))) k = k pos := by
  change (k pos).map (Option.map (Match.nil pos).append) = k pos
  rcases k pos with - | - | m <;> simp

@[simp] theorem pthen_ret (r : Option (Option Match)) :
    pthen r (fun pos => some (some (.nil pos))) = r := by
  rcases r with - | - | m <;> simp [pthen]

/-- The operations of expressions as functions of the position. -/
structure PegInterp where
  terminal : Matcher
  parse : (tracked : Bool) → Skipper → Expr → Parse
  probe : (tracked : Bool) → Skipper → Expr → Position → Option Bool
  fastProbe : (tracked : Bool) → Skipper → Expr → Position → Option Bool
  probeMatchHere : Skipper → Expr → Position → Option Bool

/-- The meaning that knows no answer. -/
def PegInterp.bot : PegInterp :=
  ⟨fun _ _ => none, fun _ _ _ _ => none, fun _ _ _ _ => none, fun _ _ _ _ => none,
    fun _ _ _ => none⟩

variable (Γ : Grammar) (text : List UInt8)

/-- A visible leaf when there is a match. -/
def pegLeaf (element : GrammarElement) (pos : Position) (matchedEnd : Option ℕ) :
    Option Match :=
  matchedEnd.map fun q => .leaf pos q element

namespace PegInterp

variable (P : PegInterp) (tracked : Bool) (sk : Skipper)

/-- What a skip adds. -/
def skip (pos : Position) : Option Match :=
  (skipFrom text P.terminal sk pos.cursor).map fun r => .hidden pos r.1 r.2

/-- Skip, then parse. -/
def skipThen (k : Parse) : Parse := fun pos =>
  match P.skip text sk pos with
  | none => none
  | some s => pmap s.append (k s.stop)

/-! ### Groups and choices -/

/-- The elements of a group behind its first one, each behind hidden text. -/
def elements : List Expr → Parse
  | [], pos => some (some (.nil pos))
  | e :: es, pos =>
    P.skipThen text sk (fun pos => pthen (P.parse tracked sk e pos) (elements es)) pos

/-- All elements in order. -/
def group : List Expr → Parse
  | [], pos => some (some (.nil pos))
  | e :: es, pos => pthen (P.parse tracked sk e pos) (P.elements text tracked sk es)

/-- The first alternative that matches. -/
def choice : List Expr → Parse
  | [], _ => some none
  | e :: es, pos => porElse (P.parse tracked sk e pos) (choice es pos)

/-! ### Repetitions -/

/-- As many items as there are, each after a skip. -/
def star (e : Expr) : ℕ → Parse
  | 0, _ => none
  | budget + 1, pos =>
    match P.skipThen text sk (P.parse tracked sk e) pos with
    | none => none
    | some none => some (some (.nil pos))
    | some (some m) => pmap m.append (star e budget m.stop)

/-- At most `count` items, each after a skip. -/
def upTo (e : Expr) : ℕ → Parse
  | 0, pos => some (some (.nil pos))
  | count + 1, pos =>
    match P.skipThen text sk (P.parse tracked sk e) pos with
    | none => none
    | some none => some (some (.nil pos))
    | some (some m) => pmap m.append (upTo e count m.stop)

/-- Exactly `count` items, each after a skip. -/
def times (e : Expr) : ℕ → Parse
  | 0, pos => some (some (.nil pos))
  | count + 1, pos =>
    pthen (P.skipThen text sk (P.parse tracked sk e) pos) (times e count)

/-- The items of a repetition after its mandatory ones. -/
def more (min : ℕ) (max : Option ℕ) (e : Expr) : Parse :=
  match max with
  | none => P.star text tracked sk e (text.length + 1)
  | some max => P.upTo text tracked sk e (max - Nat.max min 1)

/-- A repetition: a first item, `min - 1` further ones, and as many more as there
are up to `max`; nothing at all when there is no first item and `min = 0`. -/
def repetition (min : ℕ) (max : Option ℕ) (e : Expr) (pos : Position) :
    Option (Option Match) :=
  let items := pthen (P.parse tracked sk e pos) fun pos =>
    pthen (P.times text tracked sk e (min - 1) pos) (P.more text tracked sk min max e)
  if min = 0 then porElse items (some (some (.nil pos))) else items

/-! ### Unordered groups -/

/-- The first element not yet matched that parses, with its flag set. -/
def oneOf : List (Expr × Bool) → Position → Option (Option (List (Expr × Bool) × Match))
  | [], _ => some none
  | (e, true) :: es, pos => (oneOf es pos).map (Option.map fun r => ((e, true) :: r.1, r.2))
  | (e, false) :: es, pos =>
    match P.parse tracked sk e pos with
    | none => none
    | some (some m) => some (some ((e, true) :: es, m))
    | some none => (oneOf es pos).map (Option.map fun r => ((e, false) :: r.1, r.2))

/-- `count` further elements, each after a skip. -/
def othersOf : ℕ → List (Expr × Bool) → Parse
  | 0, _, pos => some (some (.nil pos))
  | count + 1, es, pos =>
    match P.skip text sk pos with
    | none => none
    | some s =>
      match P.oneOf tracked sk es s.stop with
      | none => none
      | some none => some none
      | some (some (es', m)) => pmap (s.append m).append (othersOf count es' m.stop)

/-- All elements, in any order. -/
def unorderedGroup (es : List Expr) (pos : Position) : Option (Option Match) :=
  match P.oneOf tracked sk (es.map (·, false)) pos with
  | none => none
  | some none => some none
  | some (some (es', m)) => pmap m.append (P.othersOf text tracked sk (es.length - 1) es' m.stop)

/-! ### Assignments and rules -/

/-- The match of an expression as a node of an element. -/
def elementNode (element : GrammarElement) (e : Expr) (pos : Position) :
    Option (Option Match) :=
  if e.isOrderedChoice then pmap (.node pos pos.cursor element) (P.parse tracked sk e pos)
  else pmap (.rebind element) (P.parse tracked sk e pos)

/-- The match of a rule's body as a node. -/
def rule (element : GrammarElement) (rule : RuleDef) (pos : Position) : Option (Option Match) :=
  pmap (.node pos pos.cursor element)
    (P.parse tracked (Interp.ruleSkipper Γ sk rule) rule.body pos)

/-! ### Infix rules -/

/-- An operator of at least the given precedence may start here. -/
def operatorMayStart (minPrecedence : ℕ) : List InfixOperator → Position → Option Bool
  | [], _ => some false
  | op :: ops, pos =>
    if minPrecedence ≤ ops.length + 1 then
      aorElse (P.fastProbe tracked sk op.element pos) (operatorMayStart minPrecedence ops pos)
    else operatorMayStart minPrecedence ops pos

/-- The operator that stands here, its match, and the minimal precedence of its
right operand. -/
def operator (rule : ℕ) (operators : List InfixOperator) (minPrecedence : ℕ) :
    ℕ → List InfixOperator → Position → Option (Option (ℕ × Match))
  | _, [], _ => some none
  | index, op :: ops, pos =>
    if ops.length + 1 < minPrecedence then some none
    else
      match P.fastProbe tracked sk op.element pos with
      | none => none
      | some false => operator rule operators minPrecedence (index + 1) ops pos
      | some true =>
        match P.elementNode tracked sk (.infixOperator rule index) op.element pos with
        | none => none
        | some none => operator rule operators minPrecedence (index + 1) ops pos
        | some (some m) =>
          if Interp.infixOperatorShadowed text operators op m.stop.cursor then
            operator rule operators minPrecedence (index + 1) ops pos
          else some (some (Interp.nextMinPrecedence op (ops.length + 1), m))

/-- The infix nodes after an operand that starts at `lhsStart`. -/
def tail (rule : ℕ) (defn : InfixDef) : ℕ → ℕ → ℕ → Position → Option Match
  | 0, _, _, _ => none
  | budget + 1, minPrecedence, lhsStart, pos =>
    if defn.operators.length < minPrecedence then some (.nil pos)
    else
      match P.operatorMayStart tracked sk minPrecedence defn.operators pos with
      | none => none
      | some false => some (.nil pos)
      | some true =>
        match P.operator text tracked sk rule defn.operators minPrecedence 0 defn.operators
            pos with
        | none => none
        | some none => some (.nil pos)
        | some (some (nextMin, o)) =>
          match P.skip text sk o.stop with
          | none => none
          | some s =>
            match P.parse tracked sk (.parserRule defn.primary) s.stop with
            | none => none
            | some none => some (.nil pos)
            | some (some rhs) =>
              match P.skip text sk rhs.stop with
              | none => none
              | some s' =>
                match tail rule defn budget nextMin s.stop.cursor s'.stop with
                | none => none
                | some nested =>
                  let n := Match.node pos lhsStart (.infixRule rule)
                    (o.append (s.append (rhs.append (s'.append nested))))
                  (tail rule defn budget minPrecedence lhsStart n.stop).map n.append

/-- An operand, the trivia after it, and the infix nodes over it. -/
def infixRule (rule : ℕ) (defn : InfixDef) (pos : Position) : Option (Option Match) :=
  pthen (P.parse tracked sk (.parserRule defn.primary) pos)
    (P.skipThen text sk fun pos' =>
      (P.tail text tracked sk rule defn (text.length + 1) 0 pos.cursor pos').map some)

/-! ### Laws of the combinators -/

/-- A skip before a sequence is a skip before its first part. -/
theorem skipThen_pthen (f k : Parse) (pos : Position) :
    P.skipThen text sk (fun p => pthen (f p) k) pos = pthen (P.skipThen text sk f pos) k := by
  rw [skipThen, skipThen]
  rcases P.skip text sk pos with - | s
  · rfl
  · exact (pthen_pmap s _ k).symm

theorem star_ne_fail (e : Expr) (budget : ℕ) (pos : Position) :
    P.star text tracked sk e budget pos ≠ some none := by
  induction budget generalizing pos with
  | zero => simp [star]
  | succ budget ih =>
    rw [star]
    split
    · simp
    · simp
    next m _ =>
      have := ih m.stop
      rcases hr : P.star text tracked sk e budget m.stop with - | - | r <;> simp_all [pmap]

theorem upTo_ne_fail (e : Expr) (count : ℕ) (pos : Position) :
    P.upTo text tracked sk e count pos ≠ some none := by
  induction count generalizing pos with
  | zero => simp [upTo]
  | succ count ih =>
    rw [upTo]
    split
    · simp
    · simp
    next m _ =>
      have := ih m.stop
      rcases hr : P.upTo text tracked sk e count m.stop with - | - | r <;> simp_all [pmap]

theorem more_ne_fail (min : ℕ) (max : Option ℕ) (e : Expr) (pos : Position) :
    P.more text tracked sk min max e pos ≠ some none := by
  cases max with
  | none => exact P.star_ne_fail text tracked sk e _ pos
  | some max => exact P.upTo_ne_fail text tracked sk e _ pos

/-! ### One unfolding of each operation -/

/-- What a match of an expression is, given what those of its parts are. -/
def parseStep : Expr → Parse
  | .literal id value case_sensitive, pos =>
    some (pegLeaf (.expression id) pos (literalMatch text value case_sensitive pos.cursor))
  | .characterRange id lookup, pos =>
    some (pegLeaf (.expression id) pos (characterRangeTerminal text lookup pos.cursor))
  | .anyCharacter id, pos =>
    some (pegLeaf (.expression id) pos (consume_utf8_codepoint_if_complete text pos.cursor))
  | .group es, pos => P.group text tracked sk es pos
  | .orderedChoice es, pos => P.choice tracked sk es pos
  | .unorderedGroup es, pos => P.unorderedGroup text tracked sk es pos
  | .repetition min max e, pos => P.repetition text tracked sk min max e pos
  | .andPredicate e, pos =>
    (P.probe false sk e pos).map fun b => if b then some (.nil pos) else none
  | .notPredicate e, pos =>
    (if tracked then P.probeMatchHere sk e pos else P.probe false sk e pos).map
      fun b => if b then none else some (.nil pos)
  | .assignment id e, pos => P.elementNode tracked sk (.expression id) e pos
  | .create id, pos => some (some (.leaf pos pos.cursor (.expression id)))
  | .nest id, pos => some (some (.leaf pos pos.cursor (.expression id)))
  | .terminalRule r, pos =>
    (P.terminal (Γ.terminalRule r) pos.cursor).map (pegLeaf (.terminalRule r) pos)
  | .dataTypeRule r, pos => P.rule Γ tracked sk (.dataTypeRule r) (Γ.dataTypeRule r) pos
  | .parserRule r, pos => P.rule Γ tracked sk (.parserRule r) (Γ.parserRule r) pos
  | .infixRule r, pos => P.infixRule text tracked sk r (Γ.infixRule r) pos
  | .skipperWrapped s base, pos => P.parse tracked (Γ.skipper s) base pos

/-- The first element that answers true. -/
def anyAnswer (f : Expr → Position → Option Bool) : List Expr → Position → Option Bool
  | [], _ => some false
  | e :: es, pos => aorElse (f e pos) (anyAnswer f es pos)

/-- The first element that answers, or cannot be empty, decides. -/
def fastProbeElements : List Expr → Position → Option Bool
  | [], _ => some false
  | e :: es, pos =>
    aorElse (P.fastProbe tracked sk e pos)
      (if e.nullable Γ then fastProbeElements es pos else some false)

/-- What a probe of an expression answers. -/
def probeStep : Expr → Position → Option Bool
  | .literal _ value case_sensitive, pos =>
    some (literalMatch text value case_sensitive pos.cursor).isSome
  | .characterRange _ lookup, pos =>
    some (characterRangeTerminal text lookup pos.cursor).isSome
  | .anyCharacter _, pos => some (consume_utf8_codepoint_if_complete text pos.cursor).isSome
  | .group es, pos => P.fastProbeElements Γ tracked sk es pos
  | .orderedChoice es, pos => anyAnswer (P.probe tracked sk) es pos
  | .repetition _ _ e, pos => P.fastProbe tracked sk e pos
  | .andPredicate e, pos => P.probe false sk e pos
  | .notPredicate e, pos => (P.probe false sk e pos).map (!·)
  | .create _, _ => some false
  | .skipperWrapped s base, pos =>
    if Interp.hasProbeImpl base then P.probe tracked sk base pos
    else answered (P.parse tracked sk (.skipperWrapped s base) pos)
  | e, pos => answered (P.parse tracked sk e pos)

/-- What a fast probe of an expression answers. -/
def fastProbeStep : Expr → Position → Option Bool
  | .group es, pos => P.fastProbeElements Γ tracked sk es pos
  | .orderedChoice es, pos => anyAnswer (P.fastProbe tracked sk) es pos
  | .repetition _ _ e, pos => P.fastProbe tracked sk e pos
  | .assignment _ e, pos => P.fastProbe tracked sk e pos
  | .create _, _ => some false
  | .parserRule r, pos =>
    P.fastProbe tracked (Interp.ruleSkipper Γ sk (Γ.parserRule r)) (Γ.parserRule r).body pos
  | .infixRule r, pos =>
    if tracked then P.fastProbe tracked sk (.parserRule (Γ.infixRule r).primary) pos
    else P.probe tracked sk (.infixRule r) pos
  | .skipperWrapped s base, pos =>
    if Interp.hasFastProbeImpl base then P.fastProbe tracked sk base pos
    else P.probe tracked sk (.skipperWrapped s base) pos
  | e, pos => P.probe tracked sk e pos

/-- What a probe of a match at the place itself answers. -/
def probeMatchHereStep : Expr → Position → Option Bool
  | .literal _ value case_sensitive, pos =>
    some (Interp.literalMatchHere text value case_sensitive pos.cursor)
  | .orderedChoice es, pos => anyAnswer (P.probeMatchHere sk) es pos
  | .terminalRule r, pos => P.probeMatchHere sk (Γ.terminalRule r) pos
  | .dataTypeRule r, pos => P.probeMatchHere sk (Γ.dataTypeRule r).body pos
  | .parserRule r, pos => P.probeMatchHere sk (Γ.parserRule r).body pos
  | .skipperWrapped s base, pos =>
    if base.isOrderedChoice then P.probeMatchHere sk base pos
    else P.probe true sk (.skipperWrapped s base) pos
  | e, pos => P.probe true sk e pos

/-- One more level of the meaning. -/
def step : PegInterp where
  terminal := terminalStep Γ text P.terminal
  parse tracked sk := P.parseStep Γ text tracked sk
  probe tracked sk := P.probeStep Γ text tracked sk
  fastProbe tracked sk := P.fastProbeStep Γ tracked sk
  probeMatchHere sk := P.probeMatchHereStep Γ text sk

end PegInterp

/-- What calls nested at most `n` deep compute. -/
def peg : ℕ → PegInterp
  | 0 => .bot
  | n + 1 => (peg n).step Γ text

end Pegium
