/-
Pegium/Parser/MatchBuild.lean

How the matches of a parse are built.

Whatever the expression, a match is put together from matches of tokens and of trivia, by
putting one after the other, by wrapping a node around one and by rebinding the first node
of one (`Match.Built`).  So what holds of tokens and trivia and is kept by these three
holds of every match of every grammar, by induction on how it is built; nothing has to be
known of groups, choices, repetitions or infix rules any more.

Of a token it is kept which terminal matched it, and that a parse of the expression can
make a leaf with its grammar element out of this terminal (`Grammar.Makes`).

Main result: `built_pegRun`.
-/
import Pegium.Parser.Skipping
import Pegium.Parser.SpanLaw

namespace Pegium

variable (Γ : Grammar) (text : List UInt8)

/-! ### Leaves of a grammar -/

def Expr.isPredicate : Expr → Bool
  | .andPredicate _ => true
  | .notPredicate _ => true
  | _ => false

/-- What leaves a parse of an expression can make: their grammar elements, and the terminals
that match them.  A leaf has the element of its own terminal, unless it is the first node
of an assignment or of an operator, which are then recorded instead. -/
inductive Grammar.Makes : Expr → GrammarElement → Expr → Prop
  | literal (id : ℕ) (value : List UInt8) (case_sensitive : Bool) :
    Makes (.literal id value case_sensitive) (.expression id) (.literal id value case_sensitive)
  | characterRange (id : ℕ) (lookup : UInt8 → Bool) :
    Makes (.characterRange id lookup) (.expression id) (.characterRange id lookup)
  | anyCharacter (id : ℕ) : Makes (.anyCharacter id) (.expression id) (.anyCharacter id)
  | terminalRule (r : ℕ) : Makes (.terminalRule r) (.terminalRule r) (Γ.terminalRule r)
  | child {e e' : Expr} {element : GrammarElement} {terminal : Expr}
    (parsed : e.isPredicate = false) (mem : e' ∈ e.children)
    (made : Makes e' element terminal) : Makes e element terminal
  | assigned {id : ℕ} {e : Expr} {element : GrammarElement} {terminal : Expr}
    (made : Makes e element terminal) : Makes (.assignment id e) (.expression id) terminal
  | dataTypeRule {r : ℕ} {element : GrammarElement} {terminal : Expr}
    (made : Makes (Γ.dataTypeRule r).body element terminal) :
    Makes (.dataTypeRule r) element terminal
  | parserRule {r : ℕ} {element : GrammarElement} {terminal : Expr}
    (made : Makes (Γ.parserRule r).body element terminal) :
    Makes (.parserRule r) element terminal
  | operand {r : ℕ} {element : GrammarElement} {terminal : Expr}
    (made : Makes (.parserRule (Γ.infixRule r).primary) element terminal) :
    Makes (.infixRule r) element terminal
  | operator {r index : ℕ} {op : InfixOperator} {element : GrammarElement} {terminal : Expr}
    (declared : (Γ.infixRule r).operators[index]? = some op)
    (made : Makes op.element element terminal) : Makes (.infixRule r) element terminal
  | operatorBound {r index : ℕ} {op : InfixOperator} {element : GrammarElement}
    {terminal : Expr} (declared : (Γ.infixRule r).operators[index]? = some op)
    (made : Makes op.element element terminal) :
    Makes (.infixRule r) (.infixOperator r index) terminal

/-- An expression whose leaves are among given ones. -/
structure Grammar.Feeds (Leaf : GrammarElement → Expr → Prop) (e : Expr) : Prop where
  wellFormed : e.WellFormed Γ
  made : ∀ {element terminal}, Γ.Makes e element terminal → Leaf element terminal

/-! ### Tokens and trivia -/

/-- The skipper that a run starts with, and those of the grammar. -/
def Grammar.Skips (entry sk : Skipper) : Prop := sk = entry ∨ ∃ s, sk = Γ.skipper s

/-- A visible leaf: a terminal of its element matches it, or it is empty. -/
structure Token (Leaf : GrammarElement → Expr → Prop) (element : GrammarElement)
    (begin stop : ℕ) : Prop where
  le : begin ≤ stop
  le_length : stop ≤ text.length
  scanned : begin = stop ∨
    ∃ n terminal, Leaf element terminal ∧
      (peg Γ text n).terminal terminal begin = some (some stop)

/-- What a skip records, and where it ends. -/
structure Trivia (entry : Skipper) (begin : ℕ) (leaves : List (GrammarElement × ℕ × ℕ))
    (stop : ℕ) : Prop where
  begin_le : begin ≤ text.length
  skipped : ∃ n sk, Γ.Skips entry sk ∧ sk.WellFormed Γ ∧
    skipFrom text (peg Γ text n).terminal sk begin = some (leaves, stop)

/-- A match made from a position, with given leaves. -/
inductive Match.Built (entry : Skipper) :
    (GrammarElement → Expr → Prop) → Position → Match → Prop
  | nil {Leaf : GrammarElement → Expr → Prop} (pos : Position) : Built entry Leaf pos (.nil pos)
  | leaf {Leaf : GrammarElement → Expr → Prop} {pos : Position} {stop : ℕ}
    {element : GrammarElement} (token : Token Γ text Leaf element pos.cursor stop) :
    Built entry Leaf pos (.leaf pos stop element)
  | hidden {Leaf : GrammarElement → Expr → Prop} {pos : Position}
    {leaves : List (GrammarElement × ℕ × ℕ)} {stop : ℕ}
    (trivia : Trivia Γ text entry pos.cursor leaves stop) :
    Built entry Leaf pos (.hidden pos leaves stop)
  | append {Leaf : GrammarElement → Expr → Prop} {pos : Position} {m m' : Match}
    (first : Built entry Leaf pos m) (second : Built entry Leaf m.stop m') :
    Built entry Leaf pos (m.append m')
  /-- A node begins where its match does, or earlier if something visible is matched. -/
  | node {Leaf : GrammarElement → Expr → Prop} {pos : Position} {m : Match} {checkpoint : ℕ}
    (element : GrammarElement) (inner : Built entry Leaf pos m) (le : checkpoint ≤ pos.cursor)
    (visible : checkpoint = pos.cursor ∨ 0 < m.visibleLeaves) :
    Built entry Leaf pos (.node pos checkpoint element m)
  /-- Whatever leaf comes first, it may have the new element. -/
  | rebind {Leaf Inner : GrammarElement → Expr → Prop} {pos : Position} {m : Match}
    {element : GrammarElement} (inner : Built entry Inner pos m)
    (kept : ∀ {first terminal}, Inner first terminal → Leaf first terminal)
    (bound : ∀ {first terminal}, Inner first terminal → Leaf element terminal) :
    Built entry Leaf pos (.rebind element m)

variable {Γ text} {entry : Skipper} {Leaf : GrammarElement → Expr → Prop} {pos : Position}
  {m : Match}

/-- A part of an expression that is parsed makes leaves of the expression. -/
theorem Grammar.Feeds.child {e e' : Expr} (h : Γ.Feeds Leaf e) (hparsed : e.isPredicate = false)
    (hmem : e' ∈ e.children) : Γ.Feeds Leaf e' :=
  ⟨h.wellFormed.sub hmem, fun hmade => h.made (.child hparsed hmem hmade)⟩

theorem Grammar.Feeds.operator {r index : ℕ} {op : InfixOperator}
    (h : Γ.Feeds Leaf (.infixRule r)) (hΓ : Γ.WellFormed)
    (hop : (Γ.infixRule r).operators[index]? = some op) : Γ.Feeds Leaf op.element :=
  ⟨((hΓ.infixRule r).2.2 op (List.mem_of_getElem? hop)).1,
    fun hmade => h.made (.operator hop hmade)⟩

theorem Grammar.Feeds.primary {r : ℕ} (h : Γ.Feeds Leaf (.infixRule r)) :
    Γ.Feeds Leaf (.parserRule (Γ.infixRule r).primary) :=
  ⟨.intro trivial (by simp [Expr.children]), fun hmade => h.made (.operand hmade)⟩

theorem Trivia.bounds {leaves : List (GrammarElement × ℕ × ℕ)} {stop : ℕ}
    (h : Trivia Γ text entry pos.cursor leaves stop) (hΓ : Γ.WellFormed) :
    pos.cursor ≤ stop ∧ stop ≤ text.length := by
  obtain ⟨n, sk, -, hsk, hskip⟩ := h.skipped
  have hstep := (skipFrom_bounds (spanned_peg hΓ text n).terminal hsk h.begin_le hskip).1
  exact ⟨hstep.le, hstep.le_length⟩

/-- A match ends at a position of the text. -/
theorem Match.Built.valid (h : m.Built Γ text entry Leaf pos) (hΓ : Γ.WellFormed)
    (hpos : pos.Valid text) : m.stop.Valid text := by
  induction h with
  | nil => exact hpos
  | leaf token => exact ⟨Nat.le_refl _, token.le_length⟩
  | hidden trivia =>
    obtain ⟨hle, hlength⟩ := trivia.bounds hΓ
    exact ⟨Nat.le_trans hpos.lastVisible_le hle, hlength⟩
  | append _ _ ih ih' => exact ih' (ih hpos)
  | node _ _ _ _ ih => exact ih hpos
  | rebind _ _ _ ih => exact ih hpos

/-- No match goes back. -/
theorem Match.Built.cursor_le (h : m.Built Γ text entry Leaf pos) (hΓ : Γ.WellFormed) :
    pos.cursor ≤ m.stop.cursor := by
  induction h with
  | nil => exact Nat.le_refl _
  | leaf token => exact token.le
  | hidden trivia => exact (trivia.bounds hΓ).1
  | append _ _ ih ih' => exact Nat.le_trans ih ih'
  | node _ _ _ _ ih => exact ih
  | rebind _ _ _ ih => exact ih

/-- The matches of a parse are built. -/
def BuildsMatch (Γ : Grammar) (text : List UInt8) (entry : Skipper)
    (Leaf : GrammarElement → Expr → Prop) (pos : Position) (r : Option (Option Match)) : Prop :=
  ∀ m, r = some (some m) → m.Built Γ text entry Leaf pos

namespace BuildsMatch

variable {r r' : Option (Option Match)}

theorem none : BuildsMatch Γ text entry Leaf pos none := nofun

theorem fail : BuildsMatch Γ text entry Leaf pos (some .none) := nofun

theorem nil : BuildsMatch Γ text entry Leaf pos (some (some (.nil pos))) := by
  intro m hm
  cases hm
  exact .nil pos

/-- A parse after a match. -/
theorem behind (hm : m.Built Γ text entry Leaf pos) (h : BuildsMatch Γ text entry Leaf m.stop r) :
    BuildsMatch Γ text entry Leaf pos (pmap m.append r) := by
  intro m₂ hm₂
  obtain ⟨r₁, rfl, hr₁⟩ := Option.map_eq_some_iff.mp hm₂
  obtain ⟨m', rfl, rfl⟩ := Option.map_eq_some_iff.mp hr₁
  exact .append hm (h m' rfl)

theorem pthen {k : Parse} (h : BuildsMatch Γ text entry Leaf pos r) (hΓ : Γ.WellFormed)
    (hpos : pos.Valid text)
    (hk : ∀ pos' : Position, pos'.Valid text → BuildsMatch Γ text entry Leaf pos' (k pos')) :
    BuildsMatch Γ text entry Leaf pos (pthen r k) := by
  rcases r with - | - | m
  · exact .none
  · exact .fail
  · have hm := h m rfl
    exact .behind hm (hk m.stop (hm.valid hΓ hpos))

theorem porElse (h : BuildsMatch Γ text entry Leaf pos r)
    (h' : BuildsMatch Γ text entry Leaf pos r') :
    BuildsMatch Γ text entry Leaf pos (porElse r r') := by
  rcases r with - | - | m
  · exact .none
  · exact h'
  · exact h

theorem node (h : BuildsMatch Γ text entry Leaf pos r) (element : GrammarElement) :
    BuildsMatch Γ text entry Leaf pos (pmap (.node pos pos.cursor element) r) := by
  intro m hm
  obtain ⟨r₁, rfl, hr₁⟩ := Option.map_eq_some_iff.mp hm
  obtain ⟨m', rfl, rfl⟩ := Option.map_eq_some_iff.mp hr₁
  exact .node element (h m' rfl) (Nat.le_refl _) (.inl rfl)

theorem rebind {Inner : GrammarElement → Expr → Prop} {element : GrammarElement}
    (h : BuildsMatch Γ text entry Inner pos r)
    (kept : ∀ {first terminal}, Inner first terminal → Leaf first terminal)
    (bound : ∀ {first terminal}, Inner first terminal → Leaf element terminal) :
    BuildsMatch Γ text entry Leaf pos (pmap (.rebind element) r) := by
  intro m hm
  obtain ⟨r₁, rfl, hr₁⟩ := Option.map_eq_some_iff.mp hm
  obtain ⟨m', rfl, rfl⟩ := Option.map_eq_some_iff.mp hr₁
  exact .rebind (h m' rfl) kept bound

theorem leaf {element : GrammarElement} {q : Option ℕ}
    (hq : ∀ stop, q = some stop → Token Γ text Leaf element pos.cursor stop) :
    BuildsMatch Γ text entry Leaf pos (some (pegLeaf element pos q)) := by
  intro m hm
  obtain ⟨stop, hstop, rfl⟩ := Option.map_eq_some_iff.mp (Option.some.inj hm)
  exact .leaf (hq stop hstop)

end BuildsMatch

/-- What calls nested at most `n` deep build. -/
def ParsesBuild (Γ : Grammar) (text : List UInt8) (entry : Skipper) (n : ℕ) : Prop :=
  ∀ (Leaf : GrammarElement → Expr → Prop) tracked (sk : Skipper) (e : Expr) (pos : Position),
    Γ.Skips entry sk → sk.WellFormed Γ → Γ.Feeds Leaf e → pos.Valid text →
    BuildsMatch Γ text entry Leaf pos ((peg Γ text n).parse tracked sk e pos)

namespace ParsesBuild

variable {n : ℕ} (h : ParsesBuild Γ text entry n) (hΓ : Γ.WellFormed) {tracked : Bool}
  {sk : Skipper} (hsk : Γ.Skips entry sk) (hskip : sk.WellFormed Γ) (hpos : pos.Valid text)

include hsk hskip hpos

omit h hΓ in
theorem skip {s : Match} (hs : (peg Γ text n).skip text sk pos = some s) :
    s.Built Γ text entry Leaf pos := by
  obtain ⟨⟨leaves, stop⟩, hstop, rfl⟩ := Option.map_eq_some_iff.mp hs
  exact .hidden ⟨hpos.le_length, n, sk, hsk, hskip, hstop⟩

include hΓ

omit h in
/-- A parse after a skip. -/
theorem skipThen {k : Parse}
    (hk : ∀ pos' : Position, pos'.Valid text → BuildsMatch Γ text entry Leaf pos' (k pos')) :
    BuildsMatch Γ text entry Leaf pos ((peg Γ text n).skipThen text sk k pos) := by
  rw [PegInterp.skipThen]
  rcases hs : (peg Γ text n).skip text sk pos with - | s
  · exact .none
  · have hbuilt : s.Built Γ text entry Leaf pos := skip hsk hskip hpos hs
    exact .behind hbuilt (hk s.stop (hbuilt.valid hΓ hpos))

include h

theorem elements {es : List Expr} (hes : ∀ e ∈ es, Γ.Feeds Leaf e) :
    BuildsMatch Γ text entry Leaf pos ((peg Γ text n).elements text tracked sk es pos) := by
  induction es generalizing pos with
  | nil => exact .nil
  | cons e es ih =>
    refine skipThen hΓ hsk hskip hpos fun pos₁ hpos₁ => ?_
    have he := h Leaf tracked sk e pos₁ hsk hskip (hes e List.mem_cons_self) hpos₁
    exact he.pthen hΓ hpos₁ fun pos₂ hpos₂ =>
      ih hpos₂ fun e he => hes e (List.mem_cons_of_mem _ he)

theorem group {es : List Expr} (hes : ∀ e ∈ es, Γ.Feeds Leaf e) :
    BuildsMatch Γ text entry Leaf pos ((peg Γ text n).group text tracked sk es pos) := by
  cases es with
  | nil => exact .nil
  | cons e es =>
    have he := h Leaf tracked sk e pos hsk hskip (hes e List.mem_cons_self) hpos
    exact he.pthen hΓ hpos fun pos₂ hpos₂ =>
      h.elements hΓ hsk hskip hpos₂ fun e he => hes e (List.mem_cons_of_mem _ he)

omit hΓ in
theorem choice {es : List Expr} (hes : ∀ e ∈ es, Γ.Feeds Leaf e) :
    BuildsMatch Γ text entry Leaf pos ((peg Γ text n).choice tracked sk es pos) := by
  induction es with
  | nil => exact .fail
  | cons e es ih =>
    have he := h Leaf tracked sk e pos hsk hskip (hes e List.mem_cons_self) hpos
    exact he.porElse (ih fun e he => hes e (List.mem_cons_of_mem _ he))

/-! ### Repetitions -/

variable {e : Expr} (he : Γ.Feeds Leaf e)
include he

/-- A skip and an item. -/
theorem item :
    BuildsMatch Γ text entry Leaf pos
      ((peg Γ text n).skipThen text sk ((peg Γ text n).parse tracked sk e) pos) :=
  skipThen hΓ hsk hskip hpos fun pos' hpos' => h Leaf tracked sk e pos' hsk hskip he hpos'

/-- One iteration of a loop that stops when there is no item. -/
theorem iteration {k : Parse}
    (hk : ∀ pos' : Position, pos'.Valid text → BuildsMatch Γ text entry Leaf pos' (k pos')) :
    BuildsMatch Γ text entry Leaf pos
      (match (peg Γ text n).skipThen text sk ((peg Γ text n).parse tracked sk e) pos with
        | none => none
        | some none => some (some (.nil pos))
        | some (some m) => pmap m.append (k m.stop)) := by
  have hitem := @item _ _ _ _ _ _ h hΓ tracked _ hsk hskip hpos _ he
  rcases hr : (peg Γ text n).skipThen text sk ((peg Γ text n).parse tracked sk e) pos
    with - | - | m
  · exact .none
  · exact .nil
  · have hm := hitem m hr
    exact .behind hm (hk m.stop (hm.valid hΓ hpos))

theorem star {budget : ℕ} :
    BuildsMatch Γ text entry Leaf pos ((peg Γ text n).star text tracked sk e budget pos) := by
  induction budget generalizing pos with
  | zero => exact .none
  | succ budget ih => exact h.iteration hΓ hsk hskip hpos he fun _ hpos' => ih hpos'

theorem upTo {count : ℕ} :
    BuildsMatch Γ text entry Leaf pos ((peg Γ text n).upTo text tracked sk e count pos) := by
  induction count generalizing pos with
  | zero => exact .nil
  | succ count ih => exact h.iteration hΓ hsk hskip hpos he fun _ hpos' => ih hpos'

theorem times {count : ℕ} :
    BuildsMatch Γ text entry Leaf pos ((peg Γ text n).times text tracked sk e count pos) := by
  induction count generalizing pos with
  | zero => exact .nil
  | succ count ih =>
    have hitem := @item _ _ _ _ _ _ h hΓ tracked _ hsk hskip hpos _ he
    exact hitem.pthen hΓ hpos fun _ hpos' => ih hpos'

theorem more {min : ℕ} {max : Option ℕ} :
    BuildsMatch Γ text entry Leaf pos ((peg Γ text n).more text tracked sk min max e pos) := by
  cases max with
  | none => exact h.star hΓ hsk hskip hpos he
  | some max => exact h.upTo hΓ hsk hskip hpos he

theorem repetition {min : ℕ} {max : Option ℕ} :
    BuildsMatch Γ text entry Leaf pos
      ((peg Γ text n).repetition text tracked sk min max e pos) := by
  have hfirst := h Leaf tracked sk e pos hsk hskip he hpos
  have hitems := hfirst.pthen hΓ hpos fun pos' hpos' =>
    (@times _ _ _ _ _ _ h hΓ tracked _ hsk hskip hpos' _ he (min - 1)).pthen hΓ hpos'
      fun pos₂ hpos₂ => @more _ _ _ _ _ _ h hΓ tracked _ hsk hskip hpos₂ _ he min max
  rw [PegInterp.repetition]
  split
  · exact hitems.porElse .nil
  · exact hitems

/-! ### Unordered groups -/

omit he hΓ

theorem oneOf {es : List (Expr × Bool)} (hes : ∀ e ∈ es, Γ.Feeds Leaf e.1)
    {es' : List (Expr × Bool)} {m : Match}
    (hr : (peg Γ text n).oneOf tracked sk es pos = some (some (es', m))) :
    m.Built Γ text entry Leaf pos ∧ ∀ e ∈ es', Γ.Feeds Leaf e.1 := by
  induction es generalizing es' with
  | nil => simp [PegInterp.oneOf] at hr
  | cons e es ih =>
    obtain ⟨e, flag⟩ := e
    have he := hes (e, flag) List.mem_cons_self
    have hrest : ∀ e ∈ es, Γ.Feeds Leaf e.1 := fun e he => hes e (List.mem_cons_of_mem _ he)
    have hlater : ∀ flag, ((peg Γ text n).oneOf tracked sk es pos).map
        (Option.map fun r => ((e, flag) :: r.1, r.2)) = some (some (es', m)) →
        m.Built Γ text entry Leaf pos ∧ ∀ e ∈ es', Γ.Feeds Leaf e.1 := by
      intro flag hr
      obtain ⟨r₁, hr₁, hr₂⟩ := Option.map_eq_some_iff.mp hr
      obtain ⟨⟨es₁, m₁⟩, rfl, hr₃⟩ := Option.map_eq_some_iff.mp hr₂
      obtain ⟨rfl, rfl⟩ := Prod.mk.inj hr₃
      obtain ⟨hm, hes₁⟩ := ih hrest hr₁
      exact ⟨hm, List.forall_mem_cons.mpr ⟨he, hes₁⟩⟩
    cases flag with
    | true => exact hlater true hr
    | false =>
      rw [PegInterp.oneOf] at hr
      rcases hp : (peg Γ text n).parse tracked sk e pos with - | - | m₁ <;> simp only [hp] at hr
      · cases hr
      · exact hlater false hr
      · simp only [Option.some.injEq, Prod.mk.injEq] at hr
        obtain ⟨rfl, rfl⟩ := hr
        exact ⟨h Leaf tracked sk e pos hsk hskip he hpos m₁ hp,
          List.forall_mem_cons.mpr ⟨he, hrest⟩⟩

include hΓ

theorem othersOf {count : ℕ} {es : List (Expr × Bool)} (hes : ∀ e ∈ es, Γ.Feeds Leaf e.1) :
    BuildsMatch Γ text entry Leaf pos ((peg Γ text n).othersOf text tracked sk count es pos) := by
  induction count generalizing pos es with
  | zero => exact .nil
  | succ count ih =>
    rw [PegInterp.othersOf]
    rcases hs : (peg Γ text n).skip text sk pos with - | s
    · exact .none
    · have hbuilt : s.Built Γ text entry Leaf pos := skip hsk hskip hpos hs
      have hvalid := hbuilt.valid hΓ hpos
      dsimp only
      rcases hr : (peg Γ text n).oneOf tracked sk es s.stop with - | - | ⟨es', m⟩
      · exact .none
      · exact .fail
      · obtain ⟨hm, hes'⟩ := h.oneOf hsk hskip hvalid hes hr
        exact .behind (.append hbuilt hm) (ih (hm.valid hΓ hvalid) hes')

theorem unorderedGroup {es : List Expr} (hes : ∀ e ∈ es, Γ.Feeds Leaf e) :
    BuildsMatch Γ text entry Leaf pos ((peg Γ text n).unorderedGroup text tracked sk es pos) := by
  have hflags : ∀ e ∈ es.map (·, false), Γ.Feeds Leaf e.1 := by
    simpa using hes
  rw [PegInterp.unorderedGroup]
  rcases hr : (peg Γ text n).oneOf tracked sk (es.map (·, false)) pos with - | - | ⟨es₁, m⟩
  · exact .none
  · exact .fail
  · obtain ⟨hm, hes₁⟩ := h.oneOf hsk hskip hpos hflags hr
    exact .behind hm (h.othersOf hΓ hsk hskip (hm.valid hΓ hpos) hes₁)

/-! ### Assignments and rules -/

omit hΓ

theorem elementNode {e : Expr} {element : GrammarElement} (he : Γ.Feeds Leaf e)
    (hbound : ∀ {first terminal}, Γ.Makes e first terminal → Leaf element terminal) :
    BuildsMatch Γ text entry Leaf pos ((peg Γ text n).elementNode tracked sk element e pos) := by
  rw [PegInterp.elementNode]
  split
  · exact (h Leaf tracked sk e pos hsk hskip he hpos).node element
  · -- The leaves of the part alone, so that the first one can have the new element.
    have hparse := h (Γ.Makes e) tracked sk e pos hsk hskip ⟨he.wellFormed, id⟩ hpos
    exact hparse.rebind he.made hbound

include hΓ

theorem rule {element : GrammarElement} {defn : RuleDef} (hbody : Γ.Feeds Leaf defn.body) :
    BuildsMatch Γ text entry Leaf pos ((peg Γ text n).rule Γ tracked sk element defn pos) := by
  have hlocal : Γ.Skips entry (Interp.ruleSkipper Γ sk defn) ∧
      (Interp.ruleSkipper Γ sk defn).WellFormed Γ := by
    rw [Interp.ruleSkipper]
    split
    next s _ => exact ⟨.inr ⟨s, rfl⟩, hΓ.skipper s⟩
    next => exact ⟨hsk, hskip⟩
  rw [PegInterp.rule]
  exact (h Leaf tracked _ defn.body pos hlocal.1 hlocal.2 hbody hpos).node element

/-! ### Infix rules -/

theorem operator {rule minPrecedence index : ℕ} {operators ops : List InfixOperator}
    (he : Γ.Feeds Leaf (.infixRule rule))
    (hops : ∀ {k op}, ops[k]? = some op → (Γ.infixRule rule).operators[index + k]? = some op)
    {next : ℕ} {m : Match}
    (hr : (peg Γ text n).operator text tracked sk rule operators minPrecedence index ops pos
      = some (some (next, m))) : m.Built Γ text entry Leaf pos := by
  induction ops generalizing index with
  | nil => simp [PegInterp.operator] at hr
  | cons op ops ih =>
    have hdeclared : (Γ.infixRule rule).operators[index]? = some op := @hops 0 op rfl
    have hop := he.operator hΓ hdeclared
    have ih := @ih (index + 1) fun {k op} hk => by
      rw [Nat.add_assoc, Nat.add_comm 1]
      exact hops hk
    rw [PegInterp.operator] at hr
    split at hr
    · cases hr
    · rcases hf : (peg Γ text n).fastProbe tracked sk op.element pos with - | - | -
        <;> simp only [hf] at hr
      · cases hr
      · exact ih hr
      · rcases hn : (peg Γ text n).elementNode tracked sk (.infixOperator rule index) op.element pos
          with - | - | m₁ <;> simp only [hn] at hr
        · cases hr
        · exact ih hr
        · split at hr
          · exact ih hr
          · simp only [Option.some.injEq, Prod.mk.injEq] at hr
            exact hr.2 ▸ h.elementNode hsk hskip hpos hop
              (fun hmade => he.made (.operatorBound hdeclared hmade)) m₁ hn

/-- The node of an infix rule begins where its first operand does; it has an operator in it,
which is visible. -/
theorem tail {rule : ℕ} (he : Γ.Feeds Leaf (.infixRule rule))
    {budget minPrecedence lhsStart : ℕ} (hl : lhsStart ≤ pos.cursor) {m : Match}
    (hr : (peg Γ text n).tail text tracked sk rule (Γ.infixRule rule) budget minPrecedence lhsStart
      pos = some m) : m.Built Γ text entry Leaf pos := by
  induction budget generalizing minPrecedence lhsStart pos m with
  | zero => cases hr
  | succ budget ih =>
    have hnil : ∀ {m : Match}, some (Match.nil pos) = some m → m.Built Γ text entry Leaf pos := by
      intro m hm
      cases hm
      exact .nil pos
    rw [PegInterp.tail] at hr
    split at hr
    · exact hnil hr
    · rcases hf : (peg Γ text n).operatorMayStart tracked sk minPrecedence
        (Γ.infixRule rule).operators pos with - | - | - <;> simp only [hf] at hr
      · cases hr
      · exact hnil hr
      · rcases ho : (peg Γ text n).operator text tracked sk rule (Γ.infixRule rule).operators
          minPrecedence 0 (Γ.infixRule rule).operators pos with - | - | ⟨next, o⟩
            <;> simp only [ho] at hr
        · cases hr
        · exact hnil hr
        · have hop := h.operator hΓ hsk hskip hpos he
            (fun {k op} hk => by rwa [Nat.zero_add]) ho
          obtain ⟨hspans, hvisible⟩ :=
            (spanned_peg hΓ text n).operator hskip (hΓ.infixRule rule).2.2 hpos ho
          have hopValid := hop.valid hΓ hpos
          rcases hs : (peg Γ text n).skip text sk o.stop with - | s <;> simp only [hs] at hr
          · cases hr
          · have hs : s.Built Γ text entry Leaf o.stop := skip hsk hskip hopValid hs
            have hsValid := hs.valid hΓ hopValid
            rcases hq : (peg Γ text n).parse tracked sk
              (.parserRule (Γ.infixRule rule).primary) s.stop
              with - | - | rhs <;> simp only [hq] at hr
            · cases hr
            · exact hnil hr
            · have hrhs := h Leaf tracked sk _ s.stop hsk hskip he.primary hsValid rhs hq
              have hrhsValid := hrhs.valid hΓ hsValid
              rcases hs' : (peg Γ text n).skip text sk rhs.stop with - | s'
                <;> simp only [hs'] at hr
              · cases hr
              · have hs' : s'.Built Γ text entry Leaf rhs.stop := skip hsk hskip hrhsValid hs'
                have hsValid' := hs'.valid hΓ hrhsValid
                have hle : s.stop.cursor ≤ s'.stop.cursor :=
                  Nat.le_trans (hrhs.cursor_le hΓ) (hs'.cursor_le hΓ)
                rcases ht : (peg Γ text n).tail text tracked sk rule (Γ.infixRule rule) budget next
                  s.stop.cursor s'.stop with - | nested <;> simp only [ht] at hr
                · cases hr
                · obtain ⟨m', hm', rfl⟩ := Option.map_eq_some_iff.mp hr
                  have hnested := ih hsValid' hle ht
                  have hchildren := hop.append (hs.append (hrhs.append (hs'.append hnested)))
                  have hnode := Match.Built.node (.infixRule rule) hchildren hl
                    (.inr (Nat.add_pos_left hvisible _))
                  have hstop : lhsStart ≤ nested.stop.cursor :=
                    Nat.le_trans hl (hchildren.cursor_le hΓ)
                  exact hnode.append (ih (hnode.valid hΓ hpos) hstop hm')

theorem infixRule {rule : ℕ} (he : Γ.Feeds Leaf (.infixRule rule)) :
    BuildsMatch Γ text entry Leaf pos
      ((peg Γ text n).infixRule text tracked sk rule (Γ.infixRule rule) pos) := by
  have hoperand := h Leaf tracked sk _ pos hsk hskip he.primary hpos
  rw [PegInterp.infixRule]
  rcases hq : (peg Γ text n).parse tracked sk (.parserRule (Γ.infixRule rule).primary) pos
    with - | - | m
  · exact .none
  · exact .fail
  · have hm := hoperand m hq
    have hvalid := hm.valid hΓ hpos
    rw [Pegium.pthen, PegInterp.skipThen]
    rcases hs : (peg Γ text n).skip text sk m.stop with - | s
    · exact .none
    · have hs : s.Built Γ text entry Leaf m.stop := skip hsk hskip hvalid hs
      dsimp only
      rcases ht : (peg Γ text n).tail text tracked sk rule (Γ.infixRule rule) (text.length + 1) 0
        pos.cursor s.stop with - | t
      · exact .none
      · have hle := Nat.le_trans (hm.cursor_le hΓ) (hs.cursor_le hΓ)
        have htail := h.tail hΓ hsk hskip (hs.valid hΓ hvalid) he hle ht
        intro m₂ hm₂
        simp only [pmap, Option.map_some, Option.some.injEq] at hm₂
        subst hm₂
        exact hm.append (hs.append htail)

/-! ### One unfolding -/

omit hskip hsk

omit h in
/-- What a terminal matches is a token. -/
theorem token (n : ℕ) {element : GrammarElement} {terminal : Expr}
    (hterminal : terminal.WellFormed Γ) (hleaf : Leaf element terminal) {stop : ℕ}
    (hstop : (peg Γ text n).terminal terminal pos.cursor = some (some stop)) :
    Token Γ text Leaf element pos.cursor stop := by
  have hstep := (spanned_peg hΓ text n).terminal terminal _ stop hterminal hpos.le_length hstop
  exact ⟨hstep.le, hstep.le_length, .inr ⟨n, terminal, hleaf, hstop⟩⟩

include hsk hskip

theorem parseStep {e : Expr} (he : Γ.Feeds Leaf e) :
    BuildsMatch Γ text entry Leaf pos ((peg Γ text n).parseStep Γ text tracked sk e pos) := by
  have hsub : e.isPredicate = false → ∀ e' ∈ e.children, Γ.Feeds Leaf e' :=
    fun hparsed _ hmem => he.child hparsed hmem
  cases e with
  | literal id value cs =>
    refine BuildsMatch.leaf fun stop hstop =>
      token hΓ hpos 1 he.wellFormed (he.made (.literal ..)) ?_
    rw [literalMatch, Option.filter_eq_some_iff] at hstop
    show some (literalTerminal text value cs pos.cursor) = _
    rw [hstop.1]
  | characterRange id lookup =>
    refine BuildsMatch.leaf fun stop hstop =>
      token hΓ hpos 1 he.wellFormed (he.made (.characterRange ..)) ?_
    exact congrArg some hstop
  | anyCharacter id =>
    refine BuildsMatch.leaf fun stop hstop =>
      token hΓ hpos 1 he.wellFormed (he.made (.anyCharacter _)) ?_
    exact congrArg some hstop
  | group es => exact h.group hΓ hsk hskip hpos (hsub rfl)
  | orderedChoice es => exact h.choice hsk hskip hpos (hsub rfl)
  | unorderedGroup es => exact h.unorderedGroup hΓ hsk hskip hpos (hsub rfl)
  | repetition min max e =>
    exact h.repetition hΓ hsk hskip hpos (hsub rfl e (by simp [Expr.children]))
  | andPredicate e =>
    rw [PegInterp.parseStep]
    rcases (peg Γ text n).probe false sk e pos with - | - | -
    · exact .none
    · exact .fail
    · exact .nil
  | notPredicate e =>
    rw [PegInterp.parseStep]
    rcases (if tracked then (peg Γ text n).probeMatchHere sk e pos
      else (peg Γ text n).probe false sk e pos) with - | - | -
    · exact .none
    · exact .nil
    · exact .fail
  | assignment id e =>
    exact h.elementNode hsk hskip hpos (hsub rfl e (by simp [Expr.children]))
      fun hmade => he.made (.assigned hmade)
  | create id | nest id =>
    refine BuildsMatch.leaf (q := some pos.cursor) fun stop hstop => ?_
    cases hstop
    exact ⟨Nat.le_refl _, hpos.le_length, .inl rfl⟩
  | terminalRule r =>
    rw [PegInterp.parseStep]
    rcases hr : (peg Γ text n).terminal (Γ.terminalRule r) pos.cursor with - | q
    · exact .none
    · refine BuildsMatch.leaf fun stop hstop => token hΓ hpos n (hΓ.terminalRule r).1
        (he.made (.terminalRule r)) ?_
      rw [hr, hstop]
  | dataTypeRule r =>
    exact h.rule hΓ hsk hskip hpos
      ⟨(hΓ.dataTypeRule r).1, fun hmade => he.made (.dataTypeRule hmade)⟩
  | parserRule r =>
    exact h.rule hΓ hsk hskip hpos
      ⟨(hΓ.parserRule r).1, fun hmade => he.made (.parserRule hmade)⟩
  | infixRule r => exact h.infixRule hΓ hsk hskip hpos he
  | skipperWrapped s base =>
    exact h Leaf tracked _ base pos (.inr ⟨s, rfl⟩) (hΓ.skipper s)
      (hsub rfl base (by simp [Expr.children])) hpos

end ParsesBuild

/-- The matches of a well-formed grammar are built, at every depth. -/
theorem parsesBuild (hΓ : Γ.WellFormed) (text : List UInt8) (entry : Skipper) (n : ℕ) :
    ParsesBuild Γ text entry n := by
  induction n with
  | zero => exact fun _ _ _ _ _ _ _ _ _ => .none
  | succ n ih => exact fun _ _ _ _ _ hsk hskip he hpos => ih.parseStep hΓ hsk hskip hpos he

/-- **The match of a whole run is built.** -/
theorem built_pegRun (hΓ : Γ.WellFormed) {n : ℕ} {tracked : Bool} (hentry : entry.WellFormed Γ)
    {entryRule : ℕ} (h : pegRun Γ text n tracked entry entryRule = some (some m)) :
    m.Built Γ text entry (Γ.Makes (.parserRule entryRule)) ⟨0, 0⟩ := by
  have hstart : (⟨0, 0⟩ : Position).Valid text := ⟨Nat.le_refl 0, Nat.zero_le _⟩
  have hrun : BuildsMatch Γ text entry (Γ.Makes (.parserRule entryRule)) ⟨0, 0⟩
      (pegRun Γ text n tracked entry entryRule) := by
    refine ParsesBuild.skipThen hΓ (.inl rfl) hentry hstart fun pos hpos => ?_
    have hrule := parsesBuild hΓ text entry n _ tracked entry (.parserRule entryRule) pos (.inl rfl)
      hentry ⟨.intro trivial (by simp [Expr.children]), id⟩ hpos
    refine hrule.pthen hΓ hpos fun pos' hpos' s hs => ?_
    obtain ⟨s', hs', heq⟩ := Option.map_eq_some_iff.mp hs
    cases heq
    exact ParsesBuild.skip (.inl rfl) hentry hpos' hs'
  exact hrun m h

end Pegium
