/-
Pegium/Parser/Expression.lean

Grammar expressions.

An expression of the DSL is a C++ template instance; here it is a value of
`Expr`.  Sub-expressions are held by value, rules and skippers by reference:
`terminalRule r`, `parserRule r` and so on name an entry of the `Grammar`, so
rules may refer to each other recursively.  A node of the CST records the
address of the grammar element that produced it; addresses are the values of
`GrammarElement`, and the constructors that record themselves carry an `id`.

The compile-time flags (`nullable`, `isFailureSafe`, terminal capability) are
functions of the expression, and the `static_assert`s and `requires` clauses of
the combinators are the predicate `Expr.WellFormed`.
-/
import Pegium.Parser.TextUtils

namespace Pegium

/-- The identity of a grammar element, as a CST node records it. -/
inductive GrammarElement where
  /-- a literal, character range, wildcard, assignment, action or skipped element -/
  | expression (id : ℕ)
  | terminalRule (rule : ℕ)
  | dataTypeRule (rule : ℕ)
  | parserRule (rule : ℕ)
  | infixRule (rule : ℕ)
  /-- the operator declared at position `index` of an infix rule -/
  | infixOperator (rule index : ℕ)
  deriving DecidableEq

/-- A parse expression. -/
inductive Expr where
  | literal (id : ℕ) (value : List UInt8) (case_sensitive : Bool)
  | characterRange (id : ℕ) (lookup : UInt8 → Bool)
  | anyCharacter (id : ℕ)
  | group (elements : List Expr)
  | orderedChoice (choices : List Expr)
  | unorderedGroup (elements : List Expr)
  /-- `max = none` is the unbounded repetition -/
  | repetition (min : ℕ) (max : Option ℕ) (element : Expr)
  | andPredicate (element : Expr)
  | notPredicate (element : Expr)
  | assignment (id : ℕ) (element : Expr)
  | create (id : ℕ)
  | nest (id : ℕ)
  | terminalRule (rule : ℕ)
  | dataTypeRule (rule : ℕ)
  | parserRule (rule : ℕ)
  | infixRule (rule : ℕ)
  /-- an expression with its own skipper -/
  | skipperWrapped (localSkipper : ℕ) (base : Expr)

/-- The rules a skipper applies between elements.  The empty skipper is the one
that skips nothing. -/
structure Skipper where
  hiddenRules : List (GrammarElement × Expr)
  ignoredRules : List Expr

/-- The skipper that skips nothing. -/
def Skipper.noop : Skipper := ⟨[], []⟩

/-- A parser or data type rule. -/
structure RuleDef where
  body : Expr
  nullable : Bool
  localSkipper : Option ℕ

inductive Associativity where
  | left
  | right
  deriving DecidableEq

/-- One operator level of an infix rule. -/
structure InfixOperator where
  associativity : Associativity
  element : Expr

/-- An infix rule: the parser rule of its operands and its operators, tightest
first. -/
structure InfixDef where
  primary : ℕ
  operators : List InfixOperator

/-- The rules and skippers of a grammar. -/
structure Grammar where
  terminalRule : ℕ → Expr
  dataTypeRule : ℕ → RuleDef
  parserRule : ℕ → RuleDef
  infixRule : ℕ → InfixDef
  skipper : ℕ → Skipper

namespace Expr

/-! ### Compile-time flags -/

/-- `IsOrderedChoice`: an ordered choice, possibly with its own skipper. -/
def isOrderedChoice : Expr → Bool
  | orderedChoice _ => true
  | skipperWrapped _ (orderedChoice _) => true
  | _ => false

/-- Whether the expression declares that a failed parse leaves the context as
it was. -/
def isFailureSafe : Expr → Bool
  | literal _ _ _ => true
  | characterRange _ _ => true
  | anyCharacter _ => true
  | group _ => false
  | orderedChoice _ => true
  | unorderedGroup _ => true
  | repetition min max element =>
    min == 0 || (min == 1 && (max != some 1 || element.isFailureSafe))
  | andPredicate _ => true
  | notPredicate _ => true
  | assignment _ element => !element.isOrderedChoice && element.isFailureSafe
  | create _ => true
  | nest _ => true
  | terminalRule _ => true
  | dataTypeRule _ => false
  | parserRule _ => false
  | infixRule _ => false
  | skipperWrapped _ base => base.isFailureSafe

variable (Γ : Grammar)

mutual

/-- Whether the expression declares that it may match the empty text. -/
def nullable : Expr → Bool
  | literal _ value _ => value.isEmpty
  | characterRange _ _ => false
  | anyCharacter _ => false
  | group elements => allNullable elements
  | orderedChoice choices => anyNullable choices
  | unorderedGroup _ => false
  | repetition min _ _ => min == 0
  | andPredicate _ => true
  | notPredicate _ => true
  | assignment _ _ => false
  | create _ => true
  | nest _ => true
  | terminalRule _ => false
  | dataTypeRule rule => (Γ.dataTypeRule rule).nullable
  | parserRule rule => (Γ.parserRule rule).nullable
  | infixRule _ => false
  | skipperWrapped _ base => nullable base

/-- `(... && Elements::nullable)`. -/
def allNullable : List Expr → Bool
  | [] => true
  | e :: es => nullable e && allNullable es

/-- `(... || Elements::nullable)`. -/
def anyNullable : List Expr → Bool
  | [] => false
  | e :: es => nullable e || anyNullable es

end

mutual

/-- Whether the expression has a `terminal` member. -/
def terminalCapable : Expr → Bool
  | literal _ _ _ => true
  | characterRange _ _ => true
  | anyCharacter _ => true
  | group elements => allTerminalCapable elements
  | orderedChoice choices => allTerminalCapable choices
  | unorderedGroup elements => allTerminalCapable elements
  | repetition _ _ element => terminalCapable element
  | andPredicate element => terminalCapable element
  | notPredicate element => terminalCapable element
  | terminalRule _ => true
  | skipperWrapped _ base => terminalCapable base
  | assignment _ _ | create _ | nest _ | dataTypeRule _ | parserRule _ | infixRule _ => false

/-- `(... && TerminalCapableExpression<Elements>)`. -/
def allTerminalCapable : List Expr → Bool
  | [] => true
  | e :: es => terminalCapable e && allTerminalCapable es

end

theorem allNullable_eq (es : List Expr) : allNullable Γ es = es.all (nullable Γ) := by
  induction es with
  | nil => rfl
  | cons e es ih => rw [allNullable, List.all_cons, ih]

theorem anyNullable_eq (es : List Expr) : anyNullable Γ es = es.any (nullable Γ) := by
  induction es with
  | nil => rfl
  | cons e es ih => rw [anyNullable, List.any_cons, ih]

/-! ### Static checks -/

/-- The checks of one combinator on its direct sub-expressions: its
`static_assert`s and the constraints of its constructor. -/
def Checked : Expr → Prop
  | literal _ value _ => (0 : UInt8) ∉ value
  | characterRange _ lookup => lookup 0 = false
  | anyCharacter _ => True
  | group elements => 1 < elements.length
  | orderedChoice choices =>
    1 < choices.length ∧ ∀ e ∈ choices.dropLast, nullable Γ e = false
  | unorderedGroup elements =>
    1 < elements.length ∧ ∀ e ∈ elements, nullable Γ e = false
  | repetition min max element =>
    nullable Γ element = false ∧ ¬ (min = 0 ∧ max = some 0)
  | assignment _ element => nullable Γ element = false
  | _ => True

/-- The direct sub-expressions. -/
def children : Expr → List Expr
  | group elements => elements
  | orderedChoice choices => choices
  | unorderedGroup elements => elements
  | repetition _ _ element => [element]
  | andPredicate element => [element]
  | notPredicate element => [element]
  | assignment _ element => [element]
  | skipperWrapped _ base => [base]
  | _ => []

/-- Every combinator of the expression passes its static checks. -/
inductive WellFormed : Expr → Prop
  | intro {e : Expr} (checked : Checked Γ e) (sub : ∀ e' ∈ e.children, WellFormed e') :
      WellFormed e

variable {Γ}

theorem WellFormed.checked {e : Expr} (h : WellFormed Γ e) : Checked Γ e := by
  cases h with
  | intro hc _ => exact hc

theorem WellFormed.sub {e e' : Expr} (h : WellFormed Γ e) (he : e' ∈ e.children) :
    WellFormed Γ e' := by
  cases h with
  | intro _ hs => exact hs e' he

end Expr

/-! ### Grammars that compile -/

/-- A skipper whose rules are terminals that consume something. -/
def Skipper.WellFormed (Γ : Grammar) (sk : Skipper) : Prop :=
  (∀ r ∈ sk.hiddenRules, r.2.WellFormed Γ ∧ r.2.terminalCapable ∧ r.2.nullable Γ = false) ∧
    ∀ e ∈ sk.ignoredRules, e.WellFormed Γ ∧ e.terminalCapable ∧ e.nullable Γ = false

/-- A grammar all of whose rules and skippers pass the checks of the
constructors that build them. -/
structure Grammar.WellFormed (Γ : Grammar) : Prop where
  terminalRule : ∀ r, (Γ.terminalRule r).WellFormed Γ ∧ (Γ.terminalRule r).terminalCapable ∧
    (Γ.terminalRule r).nullable Γ = false
  dataTypeRule : ∀ r, (Γ.dataTypeRule r).body.WellFormed Γ ∧
    (Γ.dataTypeRule r).body.nullable Γ = (Γ.dataTypeRule r).nullable
  parserRule : ∀ r, (Γ.parserRule r).body.WellFormed Γ ∧
    (Γ.parserRule r).body.nullable Γ = (Γ.parserRule r).nullable
  infixRule : ∀ r, (Γ.parserRule (Γ.infixRule r).primary).nullable = false ∧
    (Γ.infixRule r).operators ≠ [] ∧
    ∀ op ∈ (Γ.infixRule r).operators, op.element.WellFormed Γ ∧ op.element.nullable Γ = false
  skipper : ∀ s, (Γ.skipper s).WellFormed Γ

/-- A small grammar: parser rule 0 has the given body, and every other rule
matches one letter. -/
def Grammar.sample (body : Expr) (nullable : Bool) : Grammar where
  terminalRule _ := .literal 0 [120] true
  dataTypeRule _ := ⟨.literal 0 [120] true, false, none⟩
  parserRule
    | 0 => ⟨body, nullable, none⟩
    | _ + 1 => ⟨.literal 0 [120] true, false, none⟩
  infixRule _ := ⟨1, [⟨.left, .literal 0 [43] true⟩]⟩
  skipper _ := .noop

theorem Skipper.noop_wellFormed {Γ : Grammar} : Skipper.noop.WellFormed Γ := by
  simp [Skipper.WellFormed, Skipper.noop]

theorem Expr.literal_wellFormed {Γ : Grammar} {id : ℕ} {value : List UInt8} {cs : Bool}
    (h : (0 : UInt8) ∉ value) : (Expr.literal id value cs).WellFormed Γ :=
  .intro h (by simp [Expr.children])

theorem Grammar.sample_wellFormed {body : Expr} {nullable : Bool}
    (hb : body.WellFormed (.sample body nullable))
    (hn : body.nullable (.sample body nullable) = nullable) :
    (Grammar.sample body nullable).WellFormed where
  terminalRule _ := ⟨Expr.literal_wellFormed (by decide), rfl, by simp [sample, Expr.nullable]⟩
  dataTypeRule _ := ⟨Expr.literal_wellFormed (by decide), by simp [sample, Expr.nullable]⟩
  parserRule
    | 0 => ⟨hb, hn⟩
    | _ + 1 => ⟨Expr.literal_wellFormed (by decide), by simp [sample, Expr.nullable]⟩
  infixRule _ := by
    refine ⟨rfl, by simp [sample], fun op hop => ?_⟩
    simp only [sample, List.mem_singleton] at hop
    subst hop
    exact ⟨Expr.literal_wellFormed (by decide), by simp [Expr.nullable]⟩
  skipper _ := Skipper.noop_wellFormed

end Pegium
