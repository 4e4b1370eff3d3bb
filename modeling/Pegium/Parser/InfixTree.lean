/-
Pegium/Parser/InfixTree.lean

The tree of an infix rule.

The tail parse is precedence climbing over the operators and operands of the
text.  Where it stands, the operator is the first declared one that matches, at
whatever precedence the loop has reached: a looser loop sees the same operator as
a tighter one, or the tighter one stops (`operator_eq`, `blocked`).  So the loops
of the tail are those of `Climb` (`climb_tail`), and the value built from its CST
is the tree that `Climb` builds.

`infix_rule_builds_tree` reads the laws of precedence climbing off the code.
-/
import Pegium.Parser.Depth
import Pegium.Parser.FailureSafe
import Pegium.Parser.InfixValue

namespace Pegium

/-! ### One operator -/

section Tokens

variable (P : PegInterp) (text : List UInt8) (tracked : Bool) (sk : Skipper) (rule : ℕ)

/-- An operator at a position: it is probed, matched, and not shadowed. -/
def PegInterp.matchOperator (operators : List InfixOperator) (index : ℕ) (op : InfixOperator)
    (pos : Position) : Option (Option Match) :=
  match P.fastProbe tracked sk op.element pos with
  | none => none
  | some false => some none
  | some true =>
    (P.elementNode tracked sk (.infixOperator rule index) op.element pos).map fun r =>
      r.filter fun m => !Interp.infixOperatorShadowed text operators op m.stop.cursor

/-- The operator at a position: the first declared one that matches. -/
structure PegInterp.OperatorAt (operators : List InfixOperator) (pos : Position) (index : ℕ)
    (o : Match) : Prop where
  matched : ∃ op, operators[index]? = some op ∧
    P.matchOperator text tracked sk rule operators index op pos = some (some o)
  first : ∀ j < index, ∀ op, operators[j]? = some op →
    P.matchOperator text tracked sk rule operators j op pos = some none

/-- An operator and the operand after it, with the trivia after each. -/
inductive PegInterp.Follows (defn : InfixDef) :
    Position → OperatorToken → OperandToken → Position → Prop
  | intro {pos : Position} {index : ℕ} {o s rhs s' : Match}
      (operator : P.OperatorAt text tracked sk rule defn.operators pos index o)
      (skip : P.skip text sk o.stop = some s)
      (operand : P.parse tracked sk (.parserRule defn.primary) s.stop = some (some rhs))
      (skip' : P.skip text sk rhs.stop = some s') :
      Follows defn pos ⟨index, o.forest⟩ ⟨rhs.forest⟩ s'.stop

/-- An operator and an operand that some depth of calls finds. -/
def Grammar.Follows (Γ : Grammar) (pos : Position) (op : OperatorToken) (a : OperandToken)
    (stop : Position) : Prop :=
  ∃ n, (peg Γ text n).Follows text tracked sk rule (Γ.infixRule rule) pos op a stop

/-- The token sequences of an infix rule: an operand, then operators and
operands, up to `stop`. -/
inductive Grammar.InfixTokens (Γ : Grammar) (pos : Position) :
    List (OperatorToken ⊕ OperandToken) → Position → Prop
  | intro {n : ℕ} {m s : Match} {toks : List (OperatorToken ⊕ OperandToken)} {stop : Position}
      (operand : (peg Γ text n).parse tracked sk (.parserRule (Γ.infixRule rule).primary) pos
        = some (some m))
      (skip : (peg Γ text n).skip text sk m.stop = some s)
      (reads : Reads (Γ.Follows text tracked sk rule) s.stop toks stop) :
      Γ.InfixTokens pos (.inr ⟨m.forest⟩ :: toks) stop

end Tokens

variable {Γ : Grammar} {text : List UInt8} {tracked : Bool} {sk : Skipper} {rule : ℕ}
variable {P Q : PegInterp} {defn : InfixDef} {pos : Position}

/-! ### The operator does not depend on the precedence -/

namespace PegInterp

theorem operator_cons (operators ops : List InfixOperator) (minPrecedence index : ℕ)
    (op : InfixOperator) :
    P.operator text tracked sk rule operators minPrecedence index (op :: ops) pos
      = if ops.length + 1 < minPrecedence then some none
        else
          match P.matchOperator text tracked sk rule operators index op pos with
          | none => none
          | some none => P.operator text tracked sk rule operators minPrecedence (index + 1) ops pos
          | some (some m) => some (some (Interp.nextMinPrecedence op (ops.length + 1), m)) := by
  rw [operator, matchOperator]
  split
  · rfl
  · rcases P.fastProbe tracked sk op.element pos with - | - | -
    · rfl
    · rfl
    · dsimp only
      rcases P.elementNode tracked sk (.infixOperator rule index) op.element pos with - | - | m
      · rfl
      · rfl
      · -- a shadowed operator is passed over like one that fails
        rcases hsh : Interp.infixOperatorShadowed text operators op m.stop.cursor with - | -
        · simp [Option.filter, hsh]
        · simp [Option.filter, hsh]

/-- No operator from `index` on, of at least the precedence, matches. -/
def NoneFrom (P : PegInterp) (text : List UInt8) (tracked : Bool) (sk : Skipper) (rule : ℕ)
    (operators : List InfixOperator) (minPrecedence index : ℕ) (pos : Position) : Prop :=
  ∀ j, index ≤ j → ∀ op, operators[j]? = some op → minPrecedence ≤ operators.length - j →
    P.matchOperator text tracked sk rule operators j op pos = some none

/-- What the search for an operator finds. -/
theorem operator_spec {operators ops : List InfixOperator} {minPrecedence index : ℕ}
    (hops : operators.drop index = ops)
    {r : Option (ℕ × Match)}
    (h : P.operator text tracked sk rule operators minPrecedence index ops pos = some r) :
    match r with
    | none => P.NoneFrom text tracked sk rule operators minPrecedence index pos
    | some (next, o) => ∃ i op, index ≤ i ∧ operators[i]? = some op ∧
        minPrecedence ≤ operators.length - i ∧
        next = Interp.nextMinPrecedence op (operators.length - i) ∧
        P.matchOperator text tracked sk rule operators i op pos = some (some o) ∧
        ∀ j, index ≤ j → j < i → ∀ op', operators[j]? = some op' →
          P.matchOperator text tracked sk rule operators j op' pos = some none := by
  induction ops generalizing index with
  | nil =>
    rw [operator] at h
    cases h
    intro j hj op hop _
    have hlen := List.drop_eq_nil_iff.mp hops
    rw [List.getElem?_eq_none (Nat.le_trans hlen hj)] at hop
    cases hop
  | cons op ops ih =>
    have hget : operators[index]? = some op := by
      rw [← List.head?_drop, hops, List.head?_cons]
    have hlen : ops.length + 1 = operators.length - index := by
      rw [← List.length_drop, hops, List.length_cons]
    have hdrop : operators.drop (index + 1) = ops := by
      rw [← List.tail_drop, hops, List.tail_cons]
    rw [operator_cons] at h
    split at h
    next hlt =>
      -- the operators that follow are looser still
      cases h
      intro j hj op' _ hmin
      omega
    next hge =>
      rcases hm : P.matchOperator text tracked sk rule operators index op pos with - | - | m <;>
        simp only [hm] at h
      · cases h
      · have hrest := ih hdrop h
        rcases r with - | ⟨next, o⟩
        · intro j hj op' hop' hmin
          rcases Nat.eq_or_lt_of_le hj with rfl | hlt
          · rw [hget, Option.some.injEq] at hop'
            rw [← hop', hm]
          · exact hrest j hlt op' hop' hmin
        · obtain ⟨i, op', hi, hop', hmin, hnext, ho, hbefore⟩ := hrest
          refine ⟨i, op', by omega, hop', hmin, hnext, ho, fun j hj hji op'' hop'' => ?_⟩
          rcases Nat.eq_or_lt_of_le hj with rfl | hlt
          · rw [hget, Option.some.injEq] at hop''
            rw [← hop'', hm]
          · exact hbefore j hlt hji op'' hop''
      · simp only [Option.some.injEq] at h
        subst h
        refine ⟨index, op, Nat.le_refl _, hget, by omega, by rw [hlen], hm, fun j hj hji => ?_⟩
        omega

theorem operatorMayStart_false {operators : List InfixOperator} {minPrecedence : ℕ}
    (h : P.operatorMayStart tracked sk minPrecedence operators pos = some false) (j : ℕ)
    (op : InfixOperator) (hop : operators[j]? = some op)
    (hmin : minPrecedence ≤ operators.length - j) :
    P.fastProbe tracked sk op.element pos = some false := by
  induction operators generalizing j with
  | nil => cases hop
  | cons op' ops ih =>
    rw [operatorMayStart] at h
    have hlen : (op' :: ops).length = ops.length + 1 := rfl
    rw [if_pos (by omega)] at h
    rcases hf : P.fastProbe tracked sk op'.element pos with - | - | - <;>
      rw [hf] at h
    · cases h
    · cases j with
      | zero =>
        cases hop
        exact hf
      | succ j => exact ih h j hop (by omega)
    · cases h

/-- The operator at a position is one. -/
theorem OperatorAt.det {operators : List InfixOperator} {i i' : ℕ} {o o' : Match}
    (h : P.OperatorAt text tracked sk rule operators pos i o)
    (h' : P.OperatorAt text tracked sk rule operators pos i' o') : i = i' ∧ o = o' := by
  obtain ⟨op, hop, ho⟩ := h.matched
  obtain ⟨op', hop', ho'⟩ := h'.matched
  rcases Nat.lt_trichotomy i i' with hlt | rfl | hlt
  · rw [h'.first i hlt op hop] at ho
    simp at ho
  · rw [hop, Option.some.injEq] at hop'
    subst hop'
    rw [ho] at ho'
    exact ⟨rfl, by simpa using ho'⟩
  · rw [h.first i' hlt op' hop'] at ho'
    simp at ho'

/-- **Where no operator of a precedence matches, every operator that follows is
looser.** -/
theorem NoneFrom.blocked {minPrecedence : ℕ}
    (h : P.NoneFrom text tracked sk rule defn.operators minPrecedence 0 pos) (op : OperatorToken)
    (a : OperandToken) (stop : Position)
    (hf : P.Follows text tracked sk rule defn pos op a stop) :
    defn.table.level op < minPrecedence := by
  cases hf with
  | @intro index o s rhs s' hop _ _ _ =>
    obtain ⟨op, hget, ho⟩ := hop.matched
    apply Nat.lt_of_not_le
    intro hmin
    rw [h index (Nat.zero_le _) op hget hmin] at ho
    simp at ho

theorem Follows.det {op op' : OperatorToken} {a a' : OperandToken} {stop stop' : Position}
    (h : P.Follows text tracked sk rule defn pos op a stop)
    (h' : P.Follows text tracked sk rule defn pos op' a' stop') :
    op = op' ∧ a = a' ∧ stop = stop' := by
  cases h with
  | intro hop hskip hrhs hskip' =>
    cases h' with
    | intro hop₂ hskip₂ hrhs₂ hskip₂' =>
      obtain ⟨rfl, rfl⟩ := hop.det hop₂
      rw [hskip, Option.some.injEq] at hskip₂
      subst hskip₂
      rw [hrhs, Option.some.injEq, Option.some.injEq] at hrhs₂
      subst hrhs₂
      rw [hskip', Option.some.injEq] at hskip₂'
      subst hskip₂'
      exact ⟨rfl, rfl, rfl⟩

/-! ### Greater depths -/

theorem Sub.matchOperator (h : P.Sub Q) (operators : List InfixOperator) (index : ℕ)
    (op : InfixOperator) (pos : Position) :
    Pegium.Sub (P.matchOperator text tracked sk rule operators index op pos)
      (Q.matchOperator text tracked sk rule operators index op pos) := by
  rw [PegInterp.matchOperator, PegInterp.matchOperator]
  rcases hf : P.fastProbe tracked sk op.element pos with - | - | -
  · exact .none
  · rw [h.fastProbe tracked sk op.element pos _ hf]
    exact .refl _
  · rw [h.fastProbe tracked sk op.element pos _ hf]
    exact (h.elementNode _ op.element pos).map _

theorem Sub.operatorAt (h : P.Sub Q) {operators : List InfixOperator} {index : ℕ} {o : Match}
    (ho : P.OperatorAt text tracked sk rule operators pos index o) :
    Q.OperatorAt text tracked sk rule operators pos index o where
  matched := by
    obtain ⟨op, hget, hm⟩ := ho.matched
    exact ⟨op, hget, h.matchOperator operators index op pos _ hm⟩
  first j hj op hop := h.matchOperator operators j op pos _ (ho.first j hj op hop)

theorem Sub.follows (h : P.Sub Q) {op : OperatorToken} {a : OperandToken} {stop : Position}
    (hf : P.Follows text tracked sk rule defn pos op a stop) :
    Q.Follows text tracked sk rule defn pos op a stop := by
  cases hf with
  | intro hop hskip hrhs hskip' =>
    exact .intro (h.operatorAt hop) (h.skip _ _ hskip) (h.parse _ _ _ _ _ hrhs)
      (h.skip _ _ hskip')

end PegInterp

theorem Grammar.follows_readsOneWay : ReadsOneWay (Γ.Follows text tracked sk rule) := by
  rintro pos op a stop op' a' stop' ⟨n, h⟩ ⟨n', h'⟩
  have h := (peg_mono Γ text (Nat.le_max_left n n')).follows h
  have h' := (peg_mono Γ text (Nat.le_max_right n n')).follows h'
  exact h.det h'

/-- A token sequence that nothing follows is the longest one. -/
theorem Grammar.InfixTokens.longest {toks toks' : List (OperatorToken ⊕ OperandToken)}
    {stop stop' : Position} (h : Γ.InfixTokens text tracked sk rule pos toks stop)
    (hstop : ∀ op a stop'', ¬ Γ.Follows text tracked sk rule stop op a stop'')
    (h' : Γ.InfixTokens text tracked sk rule pos toks' stop') : toks' <+: toks := by
  obtain @⟨n, m, s, toks, _, hm, hs, hreads⟩ := h
  obtain @⟨n', m', s', toks', _, hm', hs', hreads'⟩ := h'
  -- the first operand and its trivia are the same
  have hle := peg_mono Γ text (Nat.le_max_left n n')
  have hle' := peg_mono Γ text (Nat.le_max_right n n')
  obtain rfl : m = m' := by simpa using peg_parse_agree hm hm'
  obtain rfl : s = s' := Option.some.inj ((hle.skip _ _ hs).symm.trans (hle'.skip _ _ hs'))
  obtain ⟨more, hmore⟩ := hreads.longest Grammar.follows_readsOneWay hstop hreads'
  exact ⟨more, by rw [← hmore]; rfl⟩

/-! ### Nodes -/

/-- A match that is one visible node, over the whole of the match. -/
def Match.IsNode (m : Match) (pos : Position) (element : GrammarElement) : Prop :=
  ∃ l c, m.forest = .tree l c ∧ l.isHidden = false ∧ l.grammarElement = element ∧
    l.begin = pos.cursor ∧ l.end = m.stop.lastVisible

theorem Match.isNode_leaf (pos : Position) (q : ℕ) (element : GrammarElement) :
    (Match.leaf pos q element).IsNode pos element :=
  ⟨_, _, rfl, rfl, rfl, rfl, rfl⟩

theorem Match.isNode_node (pos : Position) (element : GrammarElement) (m : Match) :
    (Match.node pos pos.cursor element m).IsNode pos element :=
  ⟨_, _, rfl, rfl, rfl, rfl, rfl⟩

theorem Match.IsNode.rebind {m : Match} {element element' : GrammarElement}
    (h : m.IsNode pos element) : (m.rebind element').IsNode pos element' := by
  obtain ⟨l, c, hm, hl, -, hb, he⟩ := h
  refine ⟨{ l with grammarElement := element' }, c, ?_, hl, rfl, hb, he⟩
  rw [Match.rebind, hm]
  rfl

theorem pegLeaf_isNode {element : GrammarElement} {q : Option ℕ} {m : Match}
    (h : pegLeaf element pos q = some m) : m.IsNode pos element := by
  obtain ⟨q, -, rfl⟩ := Option.map_eq_some_iff.mp h
  exact Match.isNode_leaf pos q element

theorem pmap_eq_some {f : Match → Match} {r : Option (Option Match)} {m : Match}
    (h : pmap f r = some (some m)) : ∃ m', r = some (some m') ∧ f m' = m := by
  rcases r with - | - | m'
  · cases h
  · cases h
  · exact ⟨m', rfl, by simpa [pmap] using h⟩

/-- The parses of primary rules and of operators are single nodes. -/
structure PegInterp.NodeShaped (P : PegInterp) : Prop where
  operand : ∀ tracked sk r pos m, P.parse tracked sk (.parserRule r) pos = some (some m) →
    m.IsNode pos (.parserRule r)
  value : ∀ tracked sk e pos m, e.rawCompliant = true → e.isOrderedChoice = false →
    P.parse tracked sk e pos = some (some m) → ∃ element, m.IsNode pos element

theorem peg_nodeShaped (Γ : Grammar) (text : List UInt8) (n : ℕ) : (peg Γ text n).NodeShaped := by
  cases n with
  | zero => exact ⟨nofun, nofun⟩
  | succ n =>
    have hrule : ∀ tracked sk element rule pos m,
        (peg Γ text n).rule Γ tracked sk element rule pos = some (some m) →
          m.IsNode pos element := by
      intro tracked sk element rule pos m h
      obtain ⟨m', -, rfl⟩ := pmap_eq_some h
      exact Match.isNode_node pos element m'
    refine ⟨fun tracked sk r pos m h => hrule _ _ _ _ _ _ h, ?_⟩
    intro tracked sk e pos m hraw hoc h
    cases e with
    | literal id value case_sensitive => exact ⟨_, pegLeaf_isNode (Option.some.inj h)⟩
    | characterRange id lookup => exact ⟨_, pegLeaf_isNode (Option.some.inj h)⟩
    | anyCharacter id => exact ⟨_, pegLeaf_isNode (Option.some.inj h)⟩
    | terminalRule r =>
      obtain ⟨q, -, hq⟩ := Option.map_eq_some_iff.mp h
      exact ⟨_, pegLeaf_isNode hq⟩
    | dataTypeRule r => exact ⟨_, hrule _ _ _ _ _ _ h⟩
    | parserRule r => exact ⟨_, hrule _ _ _ _ _ _ h⟩
    | orderedChoice es => cases hoc
    | skipperWrapped s base =>
      cases base with
      | orderedChoice es => cases hoc
      | _ => simp [Expr.rawCompliant] at hraw
    | group | unorderedGroup | repetition | andPredicate | notPredicate | assignment | create
    | nest | infixRule => simp [Expr.rawCompliant] at hraw

/-- An operator is a node that records which one it is. -/
theorem PegInterp.NodeShaped.operator (hP : P.NodeShaped) {operators : List InfixOperator}
    (hops : ∀ op ∈ operators, op.element.rawCompliant = true) {index : ℕ} {o : Match}
    (h : P.OperatorAt text tracked sk rule operators pos index o) :
    o.IsNode pos (.infixOperator rule index) ∧ index < operators.length := by
  obtain ⟨op, hget, hm⟩ := h.matched
  obtain ⟨hlt, hget'⟩ := List.getElem?_eq_some_iff.mp hget
  refine ⟨?_, hlt⟩
  have hnode : P.elementNode tracked sk (.infixOperator rule index) op.element pos
      = some (some o) := by
    rw [PegInterp.matchOperator] at hm
    split at hm
    · cases hm
    · cases hm
    · obtain ⟨r, hr, hfilter⟩ := Option.map_eq_some_iff.mp hm
      rw [hr, (Option.filter_eq_some_iff.mp hfilter).1]
  rw [PegInterp.elementNode] at hnode
  split at hnode
  next hoc =>
    obtain ⟨m, -, rfl⟩ := pmap_eq_some hnode
    exact Match.isNode_node pos _ m
  next hoc =>
    obtain ⟨m, hparse, rfl⟩ := pmap_eq_some hnode
    have hraw := hops op (hget' ▸ List.getElem_mem hlt)
    obtain ⟨element, hm⟩ := hP.value tracked sk op.element pos m hraw (by simpa using hoc) hparse
    exact hm.rebind

/-! ### The loop of the tail is precedence climbing -/

theorem InfixDef.rightMin_table {op : InfixOperator} {i : ℕ}
    (cst : Forest (CstLabel GrammarElement))
    (h : defn.operators[i]? = some op) :
    defn.table.rightMin ⟨i, cst⟩
      = Interp.nextMinPrecedence op (defn.operators.length - i) := by
  have hi := (List.getElem?_eq_some_iff.mp h).1
  have hindex : defn.operators.length - (defn.operators.length - i) = i := by omega
  rw [OperatorTable.rightMin, Interp.nextMinPrecedence]
  simp only [InfixDef.table, hindex, h]
  rcases op.associativity with - | - <;> simp

/-- A value over the text from `start` to the last visible leaf before `pos`. -/
structure InfixValue.Over (v : InfixValue) (start : ℕ) (pos : Position) : Prop where
  begin_eq : v.cstNode.node.begin = start
  end_eq : v.cstNode.node.end = pos.lastVisible
  aligned : v.Aligned

theorem skip_eq_hidden {s : Match} (h : P.skip text sk pos = some s) :
    ∃ leaves stop, s = .hidden pos leaves stop := by
  obtain ⟨r, -, rfl⟩ := Option.map_eq_some_iff.mp h
  exact ⟨r.1, r.2, rfl⟩

/-- The child loop of an infix node reads the operator and the first operand, and
is left with the nested nodes. -/
theorem buildOperands_inner {o s rhs s' nested : Match} {pos' pos'' : Position} {index : ℕ}
    (ho : o.IsNode pos (.infixOperator rule index))
    (hs : ∃ leaves stop, s = .hidden o.stop leaves stop)
    (hrhs : rhs.IsNode pos' (.parserRule defn.primary))
    (hs' : ∃ leaves stop, s' = .hidden pos'' leaves stop) (base : ℕ) :
    ∃ opNode operand base',
      opNode.node.grammarElement = .infixOperator rule index ∧ opNode.cst = o.forest ∧
      operand.cst = rhs.forest ∧ operand.node.begin = pos'.cursor ∧
      operand.node.end = rhs.stop.lastVisible ∧
      buildOperands rule defn
          (numbered base (o.append (s.append (rhs.append (s'.append nested)))).forest) none none
        = buildOperands rule defn (numbered base' nested.forest) (some opNode)
            (some (.operand operand)) := by
  obtain ⟨lo, co, ho, hlo, hgo, -, -⟩ := ho
  obtain ⟨lr, cr, hr, hlr, hgr, hbr, her⟩ := hrhs
  obtain ⟨leaves, stop, rfl⟩ := hs
  obtain ⟨leaves', stop', rfl⟩ := hs'
  refine ⟨numberedView base lo co, numberedView (base + 1 + co.size + leaves.length) lr cr,
    base + 1 + co.size + leaves.length + 1 + cr.size + leaves'.length, hgo, ?_, ?_, hbr, her, ?_⟩
  · rw [cst_numberedView, ho]
  · rw [cst_numberedView, hr]
  · simp only [Match.append, ho, hr, Forest.tree, Forest.cons_append, Forest.nil_append]
    rw [buildOperands_operator hlo, buildOperands_hidden, buildOperands_operand hlr hgr,
      buildOperands_hidden]

/-- `m`, read as the nodes that a tail adds over `lhs`, is what climbing from
`lhs` gives, as a tree and as a value. -/
def PegInterp.TailClimbs (P : PegInterp) (Γ : Grammar) (text : List UInt8) (tracked : Bool)
    (sk : Skipper) (rule minPrecedence lhsStart : ℕ) (pos : Position) (lhs : InfixValue)
    (m : Match) : Prop :=
  ∀ base, ∃ v : InfixValue,
    Climb (Γ.infixRule rule).table (P.Follows text tracked sk rule (Γ.infixRule rule))
      minPrecedence lhs.tree pos v.tree m.stop ∧
    v.Over lhsStart m.stop ∧
    (∀ op, buildOperands rule (Γ.infixRule rule) (numbered base m.forest) (some op) (some lhs)
      = some (op, v)) ∧
    currentNode Γ (numbered base m.forest) (some lhs) = some (some v)

namespace PegInterp.TailClimbs

variable {minPrecedence lhsStart : ℕ} {lhs : InfixValue}

/-- The loop ends where every operator that follows is looser. -/
theorem stop (hlhs : lhs.Over lhsStart pos)
    (hblocked : ∀ op a stop, P.Follows text tracked sk rule (Γ.infixRule rule) pos op a stop →
      (Γ.infixRule rule).table.level op < minPrecedence) :
    P.TailClimbs Γ text tracked sk rule minPrecedence lhsStart pos lhs (.nil pos) :=
  fun _ => ⟨lhs, .stop hblocked, hlhs, fun _ => rfl, rfl⟩

/-- One turn of the loop: an infix node over `lhs`, then the nodes over that. -/
theorem node (hP : P.NodeShaped)
    (hops : ∀ op ∈ (Γ.infixRule rule).operators, op.element.rawCompliant = true)
    {i : ℕ} {op : InfixOperator} {o s rhs s' nested rest : Match} (hlhs : lhs.Over lhsStart pos)
    (hget : (Γ.infixRule rule).operators[i]? = some op)
    (hlevel : minPrecedence ≤ (Γ.infixRule rule).operators.length - i)
    (hat : P.OperatorAt text tracked sk rule (Γ.infixRule rule).operators pos i o)
    (hs : P.skip text sk o.stop = some s)
    (hr : P.parse tracked sk (.parserRule (Γ.infixRule rule).primary) s.stop = some (some rhs))
    (hs' : P.skip text sk rhs.stop = some s')
    (hnested : ∀ {lhs : InfixValue}, lhs.Over s.stop.cursor s'.stop →
      P.TailClimbs Γ text tracked sk rule
        (Interp.nextMinPrecedence op ((Γ.infixRule rule).operators.length - i)) s.stop.cursor
        s'.stop lhs nested)
    (hrest : ∀ {lhs : InfixValue}, lhs.Over lhsStart nested.stop →
      P.TailClimbs Γ text tracked sk rule minPrecedence lhsStart nested.stop lhs rest) :
    P.TailClimbs Γ text tracked sk rule minPrecedence lhsStart pos lhs
      ((Match.node pos lhsStart (.infixRule rule)
        (o.append (s.append (rhs.append (s'.append nested))))).append rest) := by
  intro base
  obtain ⟨hnode, hi⟩ := hP.operator hops hat
  obtain ⟨opNode, operand, base', hgop, hcop, hcr, hbr, her, hinner⟩ :=
    @buildOperands_inner rule (Γ.infixRule rule) pos o s rhs s' nested s.stop rhs.stop i hnode
      (skip_eq_hidden hs) (hP.operand tracked sk _ _ _ hr) (skip_eq_hidden hs') (base + 1)
  -- the nodes over the right operand
  have hstop' : s'.stop.lastVisible = rhs.stop.lastVisible := by
    obtain ⟨leaves, stop, rfl⟩ := skip_eq_hidden hs'
    rfl
  have hoperand : (InfixValue.operand operand).Over s.stop.cursor s'.stop :=
    ⟨hbr, her.trans hstop'.symm, trivial⟩
  obtain ⟨right, hclimb, hright, hbuild, -⟩ := hnested hoperand base'
  -- the infix node itself
  let l : CstLabel GrammarElement :=
    ⟨lhsStart, nested.stop.lastVisible, .infixRule rule, false, false⟩
  let inner := (o.append (s.append (rhs.append (s'.append nested)))).forest
  let value := InfixValue.node (numberedView base l inner) lhs i opNode right
  have hvalue : buildTypedFromCst rule (Γ.infixRule rule) (numberedView base l inner) lhs
      = some value := by
    rw [buildTypedFromCst]
    show Option.bind (buildOperands rule _ (numbered (base + 1) inner) none none) _ = _
    rw [hinner, hbuild opNode, Option.bind_some, createNode, assignOperatorFromNode_eq hgop hi,
      Option.map_some]
  have hover : value.Over lhsStart nested.stop :=
    ⟨rfl, rfl, hlhs.begin_eq.symm, hright.end_eq.symm, hlhs.aligned, hright.aligned⟩
  -- the nodes after it
  obtain ⟨v, hloop, hv, hbuild', hcur⟩ := hrest hover (base + 1 + inner.size)
  refine ⟨v, ?_, hv, ?_, ?_⟩
  · have hfollows : P.Follows text tracked sk rule (Γ.infixRule rule) pos ⟨i, o.forest⟩ ⟨rhs.forest⟩
        s'.stop := .intro hat hs hr hs'
    rw [← InfixDef.rightMin_table o.forest hget, InfixValue.tree, hcr] at hclimb
    simp only [value, InfixValue.tree, hcop] at hloop
    exact .step hfollows hlevel hclimb hloop
  · intro op'
    show buildOperands rule _ (numbered base (.cons l inner rest.forest)) _ _ = _
    rw [buildOperands_infixNode rfl rfl, hvalue]
    exact hbuild' op'
  · show currentNode Γ (numbered base (.cons l inner rest.forest)) _ = _
    rw [currentNode_infixNode rfl rfl, hvalue]
    exact hcur

end PegInterp.TailClimbs

/-- **The tail is precedence climbing**, and its value is the tree climbed. -/
theorem climb_tail (hP : P.NodeShaped)
    (hops : ∀ op ∈ (Γ.infixRule rule).operators, op.element.rawCompliant = true)
    {budget minPrecedence lhsStart : ℕ} {m : Match} {lhs : InfixValue}
    (h : P.tail text tracked sk rule (Γ.infixRule rule) budget minPrecedence lhsStart pos = some m)
    (hlhs : lhs.Over lhsStart pos) :
    P.TailClimbs Γ text tracked sk rule minPrecedence lhsStart pos lhs m := by
  induction budget generalizing minPrecedence lhsStart pos m lhs with
  | zero => cases h
  | succ budget ih =>
    rw [PegInterp.tail] at h
    split at h
    next hmin =>
      cases h
      apply PegInterp.TailClimbs.stop hlhs
      intro op a stop _
      show (Γ.infixRule rule).operators.length - op.index < minPrecedence
      omega
    next hmin =>
      rcases hmay : P.operatorMayStart tracked sk minPrecedence (Γ.infixRule rule).operators pos
        with - | - | - <;> simp only [hmay] at h
      · cases h
      · -- no operator of the precedence probes
        cases h
        apply PegInterp.TailClimbs.stop hlhs
        apply PegInterp.NoneFrom.blocked
        intro j _ op hop hj
        rw [PegInterp.matchOperator, PegInterp.operatorMayStart_false hmay j op hop hj]
      · rcases hop : P.operator text tracked sk rule (Γ.infixRule rule).operators minPrecedence 0
          (Γ.infixRule rule).operators pos with - | - | ⟨next, o⟩ <;> simp only [hop] at h
        · cases h
        · cases h
          exact .stop hlhs (PegInterp.operator_spec List.drop_zero hop).blocked
        · obtain ⟨i, op, -, hget, hlevel, rfl, hmatch, hbefore⟩ :=
            PegInterp.operator_spec List.drop_zero hop
          have hat : P.OperatorAt text tracked sk rule (Γ.infixRule rule).operators pos i o :=
            ⟨⟨op, hget, hmatch⟩, fun j hj op' hop' => hbefore j (Nat.zero_le _) hj op' hop'⟩
          rcases hs : P.skip text sk o.stop with - | s <;> simp only [hs] at h
          · cases h
          rcases hr : P.parse tracked sk (.parserRule (Γ.infixRule rule).primary) s.stop
            with - | - | rhs <;> simp only [hr] at h
          · cases h
          · -- there is an operator, but no operand after it
            cases h
            apply PegInterp.TailClimbs.stop hlhs
            intro op' a stop hf
            cases hf with
            | intro hat' hskip' hrhs' _ =>
              obtain ⟨rfl, rfl⟩ := hat.det hat'
              rw [hs, Option.some.injEq] at hskip'
              subst hskip'
              rw [hr] at hrhs'
              cases hrhs'
          · rcases hs' : P.skip text sk rhs.stop with - | s' <;> simp only [hs'] at h
            · cases h
            rcases ht : P.tail text tracked sk rule (Γ.infixRule rule) budget
              (Interp.nextMinPrecedence op ((Γ.infixRule rule).operators.length - i))
              s.stop.cursor s'.stop with - | nested <;> simp only [ht] at h
            · cases h
            obtain ⟨rest, hrest, rfl⟩ := Option.map_eq_some_iff.mp h
            exact .node hP hops hlhs hget hlevel hat hs hr hs' (fun h => ih ht h)
              fun h => ih hrest h

/-! ### The rule -/

/-- The parts of a match of an infix rule. -/
theorem infixRule_parts {n : ℕ} {m : Match}
    (h : (peg Γ text (n + 1)).parse tracked sk (.infixRule rule) pos = some (some m)) :
    ∃ m₀ s t, (peg Γ text n).parse tracked sk (.parserRule (Γ.infixRule rule).primary) pos
        = some (some m₀) ∧
      (peg Γ text n).skip text sk m₀.stop = some s ∧
      (peg Γ text n).tail text tracked sk rule (Γ.infixRule rule) (text.length + 1) 0 pos.cursor
        s.stop = some t ∧
      m = m₀.append (s.append t) := by
  have h : (peg Γ text n).infixRule text tracked sk rule (Γ.infixRule rule) pos = some (some m) := h
  rw [PegInterp.infixRule] at h
  rcases hm₀ : (peg Γ text n).parse tracked sk (.parserRule (Γ.infixRule rule).primary) pos
    with - | - | m₀ <;> rw [hm₀] at h
  · cases h
  · cases h
  · rw [pthen, PegInterp.skipThen] at h
    rcases hs : (peg Γ text n).skip text sk m₀.stop with - | s <;> rw [hs] at h
    · cases h
    · dsimp only at h
      rcases ht : (peg Γ text n).tail text tracked sk rule (Γ.infixRule rule) (text.length + 1) 0
        pos.cursor s.stop with - | t <;> rw [ht] at h
      · cases h
      · simp only [Option.map_some, pmap, Option.some.injEq] at h
        exact ⟨m₀, s, t, rfl, hs, ht, h.symm⟩

/-- The first operand, as a value to start the tail with. -/
theorem operand_over {m₀ s : Match} {r : ℕ} (h : m₀.IsNode pos (.parserRule r))
    (hs : ∃ leaves stop, s = .hidden m₀.stop leaves stop) (base : ℕ) :
    ∃ l c, m₀.forest = .tree l c ∧ l.isHidden = false ∧ l.grammarElement = .parserRule r ∧
      (InfixValue.operand (numberedView base l c)).Over pos.cursor s.stop := by
  obtain ⟨l, c, hm, hl, hg, hb, he⟩ := h
  obtain ⟨leaves, stop, rfl⟩ := hs
  exact ⟨l, c, hm, hl, hg, hb, he, trivial⟩

section Rule

variable (hops : ∀ op ∈ (Γ.infixRule rule).operators, op.element.rawCompliant = true)
include hops

/-- After a match of an infix rule, no operator and operand follow, at any depth of
calls. -/
theorem infixRule_longest {n : ℕ} {m : Match}
    (h : (peg Γ text n).parse tracked sk (.infixRule rule) pos = some (some m))
    (op : OperatorToken) (a : OperandToken) (stop : Position) :
    ¬ Γ.Follows text tracked sk rule m.stop op a stop := by
  rintro ⟨n', hf⟩
  -- at a depth that covers both, the match is the same
  have hle : n ≤ max n n' + 1 := Nat.le_succ_of_le (Nat.le_max_left n n')
  have h := (peg_mono Γ text hle).parse tracked sk _ pos _ h
  have hf := (peg_mono Γ text (Nat.le_max_right n n')).follows hf
  have hP := peg_nodeShaped Γ text (max n n')
  obtain ⟨m₀, s, t, hm₀, hs, ht, rfl⟩ := infixRule_parts h
  obtain ⟨l, c, -, -, -, hover⟩ :=
    operand_over (hP.operand tracked sk _ _ _ hm₀) (skip_eq_hidden hs) 0
  obtain ⟨v, hclimb, -⟩ := climb_tail hP hops ht hover 0
  exact absurd (hclimb.stopped op a stop hf) (Nat.not_lt_zero _)

/-- **An infix rule builds the tree of its tokens.**  A strict parse of an infix
rule consumes a token sequence operand (operator operand)*, and no longer one can
be read where it starts; the value built from the nodes it adds is a tree of the
reference grammar, the only one of that token sequence, whose nodes span their
operands. -/
theorem infix_rule_builds_tree {n : ℕ} {ctx ctx' : ParseContext} (hb : ctx.builder.Reachable)
    (h : (interp Γ text n).parse tracked sk (.infixRule rule) ctx = some (true, ctx')) :
    ∃ (pos : Position) (tb : TreeBuilder GrammarElement) (m : Match),
      ctx = pos.ctx tb ∧ ctx' = m.ctx tb ∧
      ∀ (base : ℕ) (current : Option InfixValue), ∃ v : InfixValue,
        currentNode Γ (numbered base m.forest) current = some (some v) ∧
        v.Aligned ∧
        (Γ.infixRule rule).table.Derives 0 v.tree ∧
        (∀ t, (Γ.infixRule rule).table.Derives 0 t → t.inorder = v.tree.inorder → t = v.tree) ∧
        Γ.InfixTokens text tracked sk rule pos v.tree.inorder m.stop ∧
        ∀ toks stop, Γ.InfixTokens text tracked sk rule pos toks stop →
          toks <+: v.tree.inorder := by
  obtain ⟨pos, tb, rfl⟩ := ParseContext.eq_ctx hb
  have hsim := (simulates_interp Γ text n).parse tracked sk (.infixRule rule) tb pos
  generalize hr : (interp Γ text n).parse tracked sk (.infixRule rule) (pos.ctx tb) = r at hsim h
  generalize ha : (peg Γ text n).parse tracked sk (.infixRule rule) pos = a at hsim
  cases hsim with
  | bot => cases h
  | fail _ _ _ => simp at h
  | ok m =>
    simp only [Option.some.injEq, Prod.mk.injEq, true_and] at h
    refine ⟨pos, tb, m, rfl, h.symm, fun base current => ?_⟩
    have hlongest := infixRule_longest hops ha
    obtain ⟨n, rfl⟩ : ∃ k, n = k + 1 := by
      cases n with
      | zero => cases ha
      | succ k => exact ⟨k, rfl⟩
    have hP := peg_nodeShaped Γ text n
    obtain ⟨m₀, s, t, hm₀, hs, ht, rfl⟩ := infixRule_parts ha
    obtain ⟨l, c, hforest, hl, hg, hover⟩ :=
      operand_over (hP.operand tracked sk _ _ _ hm₀) (skip_eq_hidden hs) base
    obtain ⟨leaves, stop, hleaves⟩ := skip_eq_hidden hs
    obtain ⟨v, hclimb, hv, -, hcur⟩ := climb_tail hP hops ht hover
      (base + 1 + c.size + leaves.length)
    have hoperand : (InfixValue.operand (numberedView base l c)).tree = .operand ⟨m₀.forest⟩ := by
      rw [InfixValue.tree, cst_numberedView, hforest]
    rw [hoperand] at hclimb
    have hderives := hclimb.derives
    obtain ⟨toks, hreads, hinorder⟩ := hclimb.reads
    have hreads : Reads (Γ.Follows text tracked sk rule) s.stop toks t.stop :=
      hreads.mono fun _ _ _ _ hf => ⟨n, hf⟩
    refine ⟨v, ?_, hv.aligned, hderives, fun t' ht' heq => ht'.unique hderives heq, ?_, ?_⟩
    · show currentNode Γ (numbered base (m₀.forest ++ (s.forest ++ t.forest))) current = _
      rw [hforest, hleaves, Forest.tree, Forest.cons_append, Forest.nil_append]
      rw [currentNode_operand hl hg, currentNode_hidden]
      exact hcur
    · rw [hinorder]
      exact .intro hm₀ hs hreads
    · intro toks' stop' htoks'
      rw [hinorder]
      exact Grammar.InfixTokens.longest (.intro hm₀ hs hreads) hlongest htoks'

end Rule

/-- Powers, right-associative, bind tighter than sums, left-associative. -/
def Grammar.powersAndSums : Grammar :=
  { Grammar.sample (.infixRule 0) false with
    infixRule := fun _ =>
      ⟨1, [⟨.right, .literal 1 [94] true⟩, ⟨.left, .literal 2 [43] true⟩]⟩ }

/-- `x+x^x^x+x`, of powers and sums. -/
theorem infix_rule_builds_tree_powers :
    ∃ ctx' tb m v, (interp .powersAndSums [120, 43, 120, 94, 120, 94, 120, 43, 120] 4).parse false
        .noop (.infixRule 0) .initial = some (true, ctx') ∧
      ctx' = Match.ctx m tb ∧
      currentNode .powersAndSums (numbered 0 m.forest) none = some (some v) ∧
      (Grammar.powersAndSums.infixRule 0).table.Derives 0 v.tree := by
  have hb : ParseContext.initial.builder.Reachable := ⟨[], .start, rfl, rfl⟩
  have hops : ∀ op ∈ (Grammar.powersAndSums.infixRule 0).operators,
      op.element.rawCompliant = true := by decide
  obtain ⟨pos, tb, m, -, hctx, hall⟩ := @infix_rule_builds_tree .powersAndSums
    [120, 43, 120, 94, 120, 94, 120, 43, 120] false .noop 0 hops 4 .initial _ hb rfl
  obtain ⟨v, hv, -, hderives, -⟩ := hall 0 none
  exact ⟨_, tb, m, v, rfl, hctx, hv, hderives⟩

end Pegium
