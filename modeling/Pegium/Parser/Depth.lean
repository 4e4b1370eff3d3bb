/-
Pegium/Parser/Depth.lean

The depth of calls does not matter.

`peg n` is what calls nested at most `n` deep compute.  A call that has returned
at some depth returns the same at every greater one: each helper of `Terminal.lean`
and of `Peg.lean` is monotone in the operations it calls (`Sub` is the order), and
so the results of two depths agree whenever both are there (`peg_agree`).
-/
import Pegium.Parser.Peg

namespace Pegium

universe u v

/-- Whatever `a` has returned, `b` returns. -/
def Sub {α : Type u} (a b : Option α) : Prop := ∀ r, a = some r → b = some r

namespace Sub

variable {α : Type u} {β : Type v} {a b : Option α}

theorem refl (a : Option α) : Sub a a := fun _ h => h

theorem none : Sub (none : Option α) b := nofun

theorem map (h : Sub a b) (f : α → β) : Sub (a.map f) (b.map f) := by
  intro r hr
  obtain ⟨x, hx, rfl⟩ := Option.map_eq_some_iff.mp hr
  rw [h x hx, Option.map_some]

end Sub

/-! ### Terminals -/

section Terminal

variable {rec rec' : Matcher} (h : ∀ e p, Sub (rec e p) (rec' e p))
include h

theorem terminalSequence_sub (es : List Expr) (p : ℕ) :
    Sub (terminalSequence rec es p) (terminalSequence rec' es p) := by
  induction es generalizing p with
  | nil => exact .refl _
  | cons e es ih =>
    rw [terminalSequence, terminalSequence]
    rcases hr : rec e p with - | - | q
    · exact .none
    · rw [h e p _ hr]; exact .refl _
    · rw [h e p _ hr]; exact ih q

theorem terminalAny_sub (es : List Expr) (p : ℕ) :
    Sub (terminalAny rec es p) (terminalAny rec' es p) := by
  induction es with
  | nil => exact .refl _
  | cons e es ih =>
    rw [terminalAny, terminalAny]
    rcases hr : rec e p with - | - | q
    · exact .none
    · rw [h e p _ hr]; exact ih
    · rw [h e p _ hr]; exact .refl _

theorem terminalWhile_sub (e : Expr) (budget p : ℕ) :
    Sub (terminalWhile rec e budget p) (terminalWhile rec' e budget p) := by
  induction budget generalizing p with
  | zero => exact .none
  | succ budget ih =>
    rw [terminalWhile, terminalWhile]
    rcases hr : rec e p with - | - | q
    · exact .none
    · rw [h e p _ hr]; exact .refl _
    · rw [h e p _ hr]; exact ih q

theorem terminalTimes_sub (e : Expr) (count p : ℕ) :
    Sub (terminalTimes rec e count p) (terminalTimes rec' e count p) := by
  induction count generalizing p with
  | zero => exact .refl _
  | succ count ih =>
    rw [terminalTimes, terminalTimes]
    rcases hr : rec e p with - | - | q
    · exact .none
    · rw [h e p _ hr]; exact .refl _
    · rw [h e p _ hr]; exact ih q

theorem terminalUpTo_sub (e : Expr) (count p : ℕ) :
    Sub (terminalUpTo rec e count p) (terminalUpTo rec' e count p) := by
  induction count generalizing p with
  | zero => exact .refl _
  | succ count ih =>
    rw [terminalUpTo, terminalUpTo]
    rcases hr : rec e p with - | - | q
    · exact .none
    · rw [h e p _ hr]; exact .refl _
    · rw [h e p _ hr]; exact ih q

/-- A loop after the mandatory matches. -/
theorem terminalTimes_then_sub (e : Expr) (min p : ℕ) {k k' : ℕ → Option ℕ}
    (hk : ∀ q, Sub (k q) (k' q)) :
    Sub (match terminalTimes rec e min p with
        | none => none
        | some none => some none
        | some (some q) => (k q).map some)
      (match terminalTimes rec' e min p with
        | none => none
        | some none => some none
        | some (some q) => (k' q).map some) := by
  rcases hr : terminalTimes rec e min p with - | - | q
  · exact .none
  · rw [terminalTimes_sub h e min p _ hr]; exact .refl _
  · rw [terminalTimes_sub h e min p _ hr]; exact (hk q).map some

theorem terminalRepetition_sub (text : List UInt8) (min : ℕ) (max : Option ℕ) (e : Expr) (p : ℕ) :
    Sub (terminalRepetition text rec min max e p) (terminalRepetition text rec' min max e p) := by
  have hwhile := terminalWhile_sub h e (text.length + 1)
  match min, max with
  | 0, some 1 =>
    rw [terminalRepetition, terminalRepetition]
    rcases hr : rec e p with - | - | q
    · exact .none
    · rw [h e p _ hr]; exact .refl _
    · rw [h e p _ hr]; exact .refl _
  | 0, none => exact (hwhile p).map some
  | 1, none =>
    rw [terminalRepetition, terminalRepetition]
    rcases hr : rec e p with - | - | q
    · exact .none
    · rw [h e p _ hr]; exact .refl _
    · rw [h e p _ hr]; exact (hwhile q).map some
  | min + 2, none => exact terminalTimes_then_sub h e _ p hwhile
  | 0, some 0 => exact terminalTimes_sub h e 0 p
  | 0, some (max + 2) =>
    have hup := terminalTimes_then_sub h e 0 p (terminalUpTo_sub h e (max + 2))
    simp only [terminalRepetition]
    exact hup
  | min + 1, some max =>
    simp only [terminalRepetition]
    split
    · exact terminalTimes_sub h e _ p
    · exact terminalTimes_then_sub h e _ p (terminalUpTo_sub h e _)

theorem terminalPass_sub (es : List (Expr × Bool)) (p : ℕ) :
    Sub (terminalPass rec es p) (terminalPass rec' es p) := by
  induction es generalizing p with
  | nil => exact .refl _
  | cons e es ih =>
    obtain ⟨e, flag⟩ := e
    cases flag with
    | true =>
      rw [terminalPass, terminalPass]
      rcases hr : terminalPass rec es p with - | r
      · exact .none
      · rw [ih p _ hr]; exact .refl _
    | false =>
      rw [terminalPass, terminalPass]
      rcases hr : rec e p with - | - | q
      · exact .none
      · rw [h e p _ hr]
        dsimp only
        rcases hr' : terminalPass rec es p with - | r
        · exact .none
        · rw [ih p _ hr']; exact .refl _
      · rw [h e p _ hr]
        dsimp only
        rcases hr' : terminalPass rec es q with - | r
        · exact .none
        · rw [ih q _ hr']; exact .refl _

theorem terminalPasses_sub (budget : ℕ) (es : List (Expr × Bool)) (p : ℕ) :
    Sub (terminalPasses rec budget es p) (terminalPasses rec' budget es p) := by
  induction budget generalizing es p with
  | zero => exact .none
  | succ budget ih =>
    rw [terminalPasses, terminalPasses]
    rcases hr : terminalPass rec es p with - | ⟨es₁, q, - | -⟩
    · exact .none
    · rw [terminalPass_sub h es p _ hr]; exact .refl _
    · rw [terminalPass_sub h es p _ hr]; exact ih es₁ q

theorem terminalUnorderedGroup_sub (es : List Expr) (p : ℕ) :
    Sub (terminalUnorderedGroup rec es p) (terminalUnorderedGroup rec' es p) := by
  rw [terminalUnorderedGroup, terminalUnorderedGroup]
  rcases hr : terminalPasses rec (es.length + 1) (es.map (·, false)) p with - | r
  · exact .none
  · rw [terminalPasses_sub h _ _ p _ hr]; exact .refl _

theorem terminalStep_sub (Γ : Grammar) (text : List UInt8) (e : Expr) (p : ℕ) :
    Sub (terminalStep Γ text rec e p) (terminalStep Γ text rec' e p) := by
  cases e with
  | literal | characterRange | anyCharacter => exact .refl _
  | group es => exact terminalSequence_sub h es p
  | orderedChoice es => exact terminalAny_sub h es p
  | unorderedGroup es => exact terminalUnorderedGroup_sub h es p
  | repetition min max e => exact terminalRepetition_sub h text min max e p
  | andPredicate e => exact (h e p).map _
  | notPredicate e => exact (h e p).map _
  | terminalRule r => exact h _ p
  | skipperWrapped s base => exact h base p
  | assignment | create | nest | dataTypeRule | parserRule | infixRule => exact .refl _

/-! ### Skippers -/

theorem parseAnyHidden_sub (rules : List (GrammarElement × Expr)) (p : ℕ) :
    Sub (parseAnyHidden rec rules p) (parseAnyHidden rec' rules p) := by
  induction rules with
  | nil => exact .refl _
  | cons rule rules ih =>
    obtain ⟨ge, e⟩ := rule
    rw [parseAnyHidden, parseAnyHidden]
    rcases hr : rec e p with - | - | q
    · exact .none
    · rw [h e p _ hr]; exact ih
    · rw [h e p _ hr]; exact .refl _

theorem skipIgnored_sub (ignored : List Expr) (budget p : ℕ) :
    Sub (skipIgnored rec ignored budget p) (skipIgnored rec' ignored budget p) := by
  induction budget generalizing p with
  | zero => exact .none
  | succ budget ih =>
    rw [skipIgnored, skipIgnored]
    rcases hr : terminalAny rec ignored p with - | - | q
    · exact .none
    · rw [terminalAny_sub h ignored p _ hr]; exact .refl _
    · rw [terminalAny_sub h ignored p _ hr]; exact ih q

theorem skipLoop_sub (text : List UInt8) (sk : Skipper) (budget p : ℕ) :
    Sub (skipLoop text rec sk budget p) (skipLoop text rec' sk budget p) := by
  induction budget generalizing p with
  | zero => exact .none
  | succ budget ih =>
    rw [skipLoop, skipLoop]
    rcases hi : skipIgnored rec sk.ignoredRules (text.length + 1) p with - | q
    · exact .none
    · rw [skipIgnored_sub h _ _ p _ hi]
      dsimp only
      rcases hh : parseAnyHidden rec sk.hiddenRules q with - | - | ⟨ge, r⟩
      · exact .none
      · rw [parseAnyHidden_sub h _ q _ hh]; exact .refl _
      · rw [parseAnyHidden_sub h _ q _ hh]
        dsimp only
        rcases hl : skipLoop text rec sk budget r with - | s
        · exact .none
        · rw [ih r _ hl]; exact .refl _

end Terminal

/-! ### Combining parses -/

theorem Sub.pthen {a b : Option (Option Match)} {k k' : Parse} (h : Sub a b)
    (hk : ∀ pos, Sub (k pos) (k' pos)) : Sub (Pegium.pthen a k) (Pegium.pthen b k') := by
  rcases a with - | - | m
  · exact .none
  · rw [h _ rfl]; exact .refl _
  · rw [h _ rfl]; exact (hk m.stop).map _

theorem Sub.porElse {a b k k' : Option (Option Match)} (h : Sub a b) (hk : Sub k k') :
    Sub (Pegium.porElse a k) (Pegium.porElse b k') := by
  rcases a with - | - | m
  · exact .none
  · rw [h _ rfl]; exact hk
  · rw [h _ rfl]; exact .refl _

theorem Sub.aorElse {a b k k' : Option Bool} (h : Sub a b) (hk : Sub k k') :
    Sub (Pegium.aorElse a k) (Pegium.aorElse b k') := by
  rcases a with - | - | -
  · exact .none
  · rw [h _ rfl]; exact hk
  · rw [h _ rfl]; exact .refl _

/-- The operations of `P` that have returned are those of `Q`. -/
structure PegInterp.Sub (P Q : PegInterp) : Prop where
  terminal : ∀ e p, Pegium.Sub (P.terminal e p) (Q.terminal e p)
  parse : ∀ tracked sk e pos, Pegium.Sub (P.parse tracked sk e pos) (Q.parse tracked sk e pos)
  probe : ∀ tracked sk e pos, Pegium.Sub (P.probe tracked sk e pos) (Q.probe tracked sk e pos)
  fastProbe : ∀ tracked sk e pos,
    Pegium.Sub (P.fastProbe tracked sk e pos) (Q.fastProbe tracked sk e pos)
  probeMatchHere : ∀ sk e pos,
    Pegium.Sub (P.probeMatchHere sk e pos) (Q.probeMatchHere sk e pos)

namespace PegInterp.Sub

variable {P Q : PegInterp} (h : P.Sub Q) {Γ : Grammar} {text : List UInt8} {tracked : Bool}
  {sk : Skipper}
include h

theorem skip (pos : Position) : Pegium.Sub (P.skip text sk pos) (Q.skip text sk pos) :=
  (skipLoop_sub h.terminal text sk _ _).map _

theorem skipThen {k k' : Parse} (hk : ∀ pos, Pegium.Sub (k pos) (k' pos)) (pos : Position) :
    Pegium.Sub (P.skipThen text sk k pos) (Q.skipThen text sk k' pos) := by
  rw [PegInterp.skipThen, PegInterp.skipThen]
  rcases hs : P.skip text sk pos with - | s
  · exact .none
  · rw [h.skip pos _ hs]; exact (hk s.stop).map _

/-! #### Groups and choices -/

theorem elements (es : List Expr) (pos : Position) :
    Pegium.Sub (P.elements text tracked sk es pos) (Q.elements text tracked sk es pos) := by
  induction es generalizing pos with
  | nil => exact .refl _
  | cons e es ih => exact h.skipThen (fun pos => (h.parse tracked sk e pos).pthen ih) pos

theorem group (es : List Expr) (pos : Position) :
    Pegium.Sub (P.group text tracked sk es pos) (Q.group text tracked sk es pos) := by
  cases es with
  | nil => exact .refl _
  | cons e es => exact (h.parse tracked sk e pos).pthen (h.elements es)

theorem choice (es : List Expr) (pos : Position) :
    Pegium.Sub (P.choice tracked sk es pos) (Q.choice tracked sk es pos) := by
  induction es with
  | nil => exact .refl _
  | cons e es ih => exact (h.parse tracked sk e pos).porElse ih

/-! #### Repetitions -/

/-- One iteration of a loop. -/
theorem iteration (e : Expr) {k k' : Parse} (hk : ∀ pos, Pegium.Sub (k pos) (k' pos))
    (pos : Position) :
    Pegium.Sub
      (match P.skipThen text sk (P.parse tracked sk e) pos with
        | none => none
        | some none => some (some (.nil pos))
        | some (some m) => pmap m.append (k m.stop))
      (match Q.skipThen text sk (Q.parse tracked sk e) pos with
        | none => none
        | some none => some (some (.nil pos))
        | some (some m) => pmap m.append (k' m.stop)) := by
  have hitem := @skipThen P Q h text sk _ _ (h.parse tracked sk e) pos
  rcases hr : P.skipThen text sk (P.parse tracked sk e) pos with - | - | m
  · exact .none
  · rw [hitem _ hr]; exact .refl _
  · rw [hitem _ hr]; exact (hk m.stop).map _

theorem star (e : Expr) (budget : ℕ) (pos : Position) :
    Pegium.Sub (P.star text tracked sk e budget pos) (Q.star text tracked sk e budget pos) := by
  induction budget generalizing pos with
  | zero => exact .none
  | succ budget ih => exact h.iteration e ih pos

theorem upTo (e : Expr) (count : ℕ) (pos : Position) :
    Pegium.Sub (P.upTo text tracked sk e count pos) (Q.upTo text tracked sk e count pos) := by
  induction count generalizing pos with
  | zero => exact .refl _
  | succ count ih => exact h.iteration e ih pos

theorem times (e : Expr) (count : ℕ) (pos : Position) :
    Pegium.Sub (P.times text tracked sk e count pos) (Q.times text tracked sk e count pos) := by
  induction count generalizing pos with
  | zero => exact .refl _
  | succ count ih => exact (h.skipThen (h.parse tracked sk e) pos).pthen ih

theorem more (min : ℕ) (max : Option ℕ) (e : Expr) (pos : Position) :
    Pegium.Sub (P.more text tracked sk min max e pos) (Q.more text tracked sk min max e pos) := by
  cases max with
  | none => exact h.star e _ pos
  | some max => exact h.upTo e _ pos

theorem repetition (min : ℕ) (max : Option ℕ) (e : Expr) (pos : Position) :
    Pegium.Sub (P.repetition text tracked sk min max e pos)
      (Q.repetition text tracked sk min max e pos) := by
  have hitems := (h.parse tracked sk e pos).pthen fun pos =>
    (@times P Q h text tracked sk e (min - 1) pos).pthen (@more P Q h text tracked sk min max e)
  rw [PegInterp.repetition, PegInterp.repetition]
  split
  · exact hitems.porElse (.refl _)
  · exact hitems

/-! #### Unordered groups -/

theorem oneOf (es : List (Expr × Bool)) (pos : Position) :
    Pegium.Sub (P.oneOf tracked sk es pos) (Q.oneOf tracked sk es pos) := by
  induction es with
  | nil => exact .refl _
  | cons e es ih =>
    obtain ⟨e, flag⟩ := e
    cases flag with
    | true => exact ih.map _
    | false =>
      rw [PegInterp.oneOf, PegInterp.oneOf]
      rcases hr : P.parse tracked sk e pos with - | - | m
      · exact .none
      · rw [h.parse tracked sk e pos _ hr]; exact ih.map _
      · rw [h.parse tracked sk e pos _ hr]; exact .refl _

theorem othersOf (count : ℕ) (es : List (Expr × Bool)) (pos : Position) :
    Pegium.Sub (P.othersOf text tracked sk count es pos)
      (Q.othersOf text tracked sk count es pos) := by
  induction count generalizing es pos with
  | zero => exact .refl _
  | succ count ih =>
    rw [PegInterp.othersOf, PegInterp.othersOf]
    rcases hs : P.skip text sk pos with - | s
    · exact .none
    · rw [h.skip pos _ hs]
      dsimp only
      rcases hr : P.oneOf tracked sk es s.stop with - | - | ⟨es', m⟩
      · exact .none
      · rw [h.oneOf es _ _ hr]; exact .refl _
      · rw [h.oneOf es _ _ hr]; exact (ih es' m.stop).map _

theorem unorderedGroup (es : List Expr) (pos : Position) :
    Pegium.Sub (P.unorderedGroup text tracked sk es pos)
      (Q.unorderedGroup text tracked sk es pos) := by
  rw [PegInterp.unorderedGroup, PegInterp.unorderedGroup]
  rcases hr : P.oneOf tracked sk (es.map (·, false)) pos with - | - | ⟨es', m⟩
  · exact .none
  · rw [h.oneOf _ pos _ hr]; exact .refl _
  · rw [h.oneOf _ pos _ hr]; exact (h.othersOf _ es' m.stop).map _

/-! #### Assignments, rules and infix rules -/

theorem elementNode (element : GrammarElement) (e : Expr) (pos : Position) :
    Pegium.Sub (P.elementNode tracked sk element e pos)
      (Q.elementNode tracked sk element e pos) := by
  rw [PegInterp.elementNode, PegInterp.elementNode]
  split
  · exact (h.parse tracked sk e pos).map _
  · exact (h.parse tracked sk e pos).map _

theorem operatorMayStart (minPrecedence : ℕ) (ops : List InfixOperator) (pos : Position) :
    Pegium.Sub (P.operatorMayStart tracked sk minPrecedence ops pos)
      (Q.operatorMayStart tracked sk minPrecedence ops pos) := by
  induction ops with
  | nil => exact .refl _
  | cons op ops ih =>
    rw [PegInterp.operatorMayStart, PegInterp.operatorMayStart]
    split
    · exact (h.fastProbe tracked sk op.element pos).aorElse ih
    · exact ih

theorem operator (rule : ℕ) (operators : List InfixOperator) (minPrecedence index : ℕ)
    (ops : List InfixOperator) (pos : Position) :
    Pegium.Sub (P.operator text tracked sk rule operators minPrecedence index ops pos)
      (Q.operator text tracked sk rule operators minPrecedence index ops pos) := by
  induction ops generalizing index with
  | nil => exact .refl _
  | cons op ops ih =>
    rw [PegInterp.operator, PegInterp.operator]
    split
    · exact .refl _
    · rcases hf : P.fastProbe tracked sk op.element pos with - | - | -
      · exact .none
      · rw [h.fastProbe tracked sk op.element pos _ hf]; exact ih _
      · rw [h.fastProbe tracked sk op.element pos _ hf]
        dsimp only
        rcases hn : P.elementNode tracked sk (.infixOperator rule index) op.element pos
          with - | - | m
        · exact .none
        · rw [h.elementNode _ op.element pos _ hn]; exact ih _
        · rw [h.elementNode _ op.element pos _ hn]
          dsimp only
          split
          · exact ih _
          · exact .refl _

theorem tail (rule : ℕ) (defn : InfixDef) (budget minPrecedence lhsStart : ℕ) (pos : Position) :
    Pegium.Sub (P.tail text tracked sk rule defn budget minPrecedence lhsStart pos)
      (Q.tail text tracked sk rule defn budget minPrecedence lhsStart pos) := by
  induction budget generalizing minPrecedence lhsStart pos with
  | zero => exact .none
  | succ budget ih =>
    rw [PegInterp.tail, PegInterp.tail]
    split
    · exact .refl _
    · rcases hf : P.operatorMayStart tracked sk minPrecedence defn.operators pos with - | - | -
      · exact .none
      · rw [h.operatorMayStart _ _ pos _ hf]; exact .refl _
      · rw [h.operatorMayStart _ _ pos _ hf]
        dsimp only
        rcases ho : P.operator text tracked sk rule defn.operators minPrecedence 0
          defn.operators pos with - | - | ⟨next, o⟩
        · exact .none
        · rw [h.operator _ _ _ _ _ pos _ ho]; exact .refl _
        · rw [h.operator _ _ _ _ _ pos _ ho]
          dsimp only
          rcases hs : P.skip text sk o.stop with - | s
          · exact .none
          · rw [h.skip _ _ hs]
            dsimp only
            rcases hq : P.parse tracked sk (.parserRule defn.primary) s.stop with - | - | rhs
            · exact .none
            · rw [h.parse _ _ _ _ _ hq]; exact .refl _
            · rw [h.parse _ _ _ _ _ hq]
              dsimp only
              rcases hs' : P.skip text sk rhs.stop with - | s'
              · exact .none
              · rw [h.skip _ _ hs']
                dsimp only
                rcases ht : P.tail text tracked sk rule defn budget next s.stop.cursor s'.stop
                  with - | nested
                · exact .none
                · rw [ih _ _ _ _ ht]
                  exact (ih _ _ _).map _

theorem infixRule (rule : ℕ) (defn : InfixDef) (pos : Position) :
    Pegium.Sub (P.infixRule text tracked sk rule defn pos)
      (Q.infixRule text tracked sk rule defn pos) :=
  (h.parse tracked sk _ pos).pthen (h.skipThen fun pos' =>
    (@tail P Q h text tracked sk rule defn _ _ _ pos').map some)

/-! #### Probes -/

omit h in
theorem anyAnswer {f g : Expr → Position → Option Bool}
    (hf : ∀ e pos, Pegium.Sub (f e pos) (g e pos)) (es : List Expr) (pos : Position) :
    Pegium.Sub (PegInterp.anyAnswer f es pos) (PegInterp.anyAnswer g es pos) := by
  induction es with
  | nil => exact .refl _
  | cons e es ih => exact (hf e pos).aorElse ih

theorem fastProbeElements (es : List Expr) (pos : Position) :
    Pegium.Sub (P.fastProbeElements Γ tracked sk es pos)
      (Q.fastProbeElements Γ tracked sk es pos) := by
  induction es with
  | nil => exact .refl _
  | cons e es ih =>
    refine (h.fastProbe tracked sk e pos).aorElse ?_
    split
    · exact ih
    · exact .refl _

/-! #### One unfolding -/

theorem parseStep (e : Expr) (pos : Position) :
    Pegium.Sub (P.parseStep Γ text tracked sk e pos) (Q.parseStep Γ text tracked sk e pos) := by
  cases e with
  | literal | characterRange | anyCharacter | create | nest => exact .refl _
  | group es => exact h.group es pos
  | orderedChoice es => exact h.choice es pos
  | unorderedGroup es => exact h.unorderedGroup es pos
  | repetition min max e => exact h.repetition min max e pos
  | andPredicate e => exact (h.probe false sk e pos).map _
  | notPredicate e =>
    cases tracked with
    | false => exact (h.probe false sk e pos).map _
    | true => exact (h.probeMatchHere sk e pos).map _
  | assignment id e => exact h.elementNode _ e pos
  | terminalRule r => exact (h.terminal _ _).map _
  | dataTypeRule r => exact (h.parse tracked _ _ pos).map _
  | parserRule r => exact (h.parse tracked _ _ pos).map _
  | infixRule r => exact h.infixRule r _ pos
  | skipperWrapped s base => exact h.parse tracked _ base pos

theorem probeStep (e : Expr) (pos : Position) :
    Pegium.Sub (P.probeStep Γ text tracked sk e pos) (Q.probeStep Γ text tracked sk e pos) := by
  cases e with
  | literal | characterRange | anyCharacter | create => exact .refl _
  | group es => exact h.fastProbeElements es pos
  | orderedChoice es => exact anyAnswer (h.probe tracked sk) es pos
  | repetition min max e => exact h.fastProbe tracked sk e pos
  | andPredicate e => exact h.probe false sk e pos
  | notPredicate e => exact (h.probe false sk e pos).map _
  | skipperWrapped s base =>
    rw [PegInterp.probeStep, PegInterp.probeStep]
    split
    · exact h.probe tracked sk base pos
    · exact (h.parse tracked sk _ pos).map _
  | unorderedGroup | assignment | nest | terminalRule | dataTypeRule | parserRule | infixRule =>
    exact (h.parse tracked sk _ pos).map _

theorem fastProbeStep (e : Expr) (pos : Position) :
    Pegium.Sub (P.fastProbeStep Γ tracked sk e pos) (Q.fastProbeStep Γ tracked sk e pos) := by
  cases e with
  | group es => exact h.fastProbeElements es pos
  | orderedChoice es => exact anyAnswer (h.fastProbe tracked sk) es pos
  | repetition min max e => exact h.fastProbe tracked sk e pos
  | assignment id e => exact h.fastProbe tracked sk e pos
  | create id => exact .refl _
  | parserRule r => exact h.fastProbe tracked _ _ pos
  | infixRule r =>
    cases tracked with
    | false => exact h.probe false sk _ pos
    | true => exact h.fastProbe true sk _ pos
  | skipperWrapped s base =>
    rw [PegInterp.fastProbeStep, PegInterp.fastProbeStep]
    split
    · exact h.fastProbe tracked sk base pos
    · exact h.probe tracked sk _ pos
  | literal | characterRange | anyCharacter | unorderedGroup | andPredicate | notPredicate | nest
  | terminalRule | dataTypeRule => exact h.probe tracked sk _ pos

theorem probeMatchHereStep (e : Expr) (pos : Position) :
    Pegium.Sub (P.probeMatchHereStep Γ text sk e pos) (Q.probeMatchHereStep Γ text sk e pos) := by
  cases e with
  | literal => exact .refl _
  | orderedChoice es => exact anyAnswer (h.probeMatchHere sk) es pos
  | terminalRule r => exact h.probeMatchHere sk _ pos
  | dataTypeRule r => exact h.probeMatchHere sk _ pos
  | parserRule r => exact h.probeMatchHere sk _ pos
  | skipperWrapped s base =>
    rw [PegInterp.probeMatchHereStep, PegInterp.probeMatchHereStep]
    split
    · exact h.probeMatchHere sk base pos
    · exact h.probe true sk _ pos
  | characterRange | anyCharacter | group | unorderedGroup | repetition | andPredicate
  | notPredicate | assignment | create | nest | infixRule => exact h.probe true sk _ pos

theorem step : (P.step Γ text).Sub (Q.step Γ text) where
  terminal := terminalStep_sub h.terminal Γ text
  parse _ _ := h.parseStep
  probe _ _ := h.probeStep
  fastProbe _ _ := h.fastProbeStep
  probeMatchHere _ := h.probeMatchHereStep

omit h in
theorem bot : PegInterp.bot.Sub Q where
  terminal _ _ := .none
  parse _ _ _ _ := .none
  probe _ _ _ _ := .none
  fastProbe _ _ _ _ := .none
  probeMatchHere _ _ _ := .none

end PegInterp.Sub

/-! ### All depths -/

/-- What has returned at a depth is returned at every greater one. -/
theorem peg_mono (Γ : Grammar) (text : List UInt8) {n n' : ℕ} (hn : n ≤ n') :
    (peg Γ text n).Sub (peg Γ text n') := by
  induction n generalizing n' with
  | zero => exact .bot
  | succ n ih =>
    obtain ⟨k, rfl⟩ : ∃ k, n' = k + 1 := ⟨n' - 1, by omega⟩
    exact (ih (by omega)).step

/-- Two depths at which a terminal match has returned agree. -/
theorem peg_terminal_agree {Γ : Grammar} {text : List UInt8} {n n' : ℕ} {e : Expr} {p : ℕ}
    {r r' : Option ℕ} (h : (peg Γ text n).terminal e p = some r)
    (h' : (peg Γ text n').terminal e p = some r') : r = r' := by
  have h₁ := (peg_mono Γ text (Nat.le_max_left n n')).terminal e p r h
  have h₂ := (peg_mono Γ text (Nat.le_max_right n n')).terminal e p r' h'
  exact Option.some.inj (h₁.symm.trans h₂)

/-- Two depths at which a parse has returned agree. -/
theorem peg_parse_agree {Γ : Grammar} {text : List UInt8} {n n' : ℕ} {tracked : Bool}
    {sk : Skipper} {e : Expr} {pos : Position} {r r' : Option Match}
    (h : (peg Γ text n).parse tracked sk e pos = some r)
    (h' : (peg Γ text n').parse tracked sk e pos = some r') : r = r' := by
  have h₁ := (peg_mono Γ text (Nat.le_max_left n n')).parse tracked sk e pos r h
  have h₂ := (peg_mono Γ text (Nat.le_max_right n n')).parse tracked sk e pos r' h'
  exact Option.some.inj (h₁.symm.trans h₂)

end Pegium
