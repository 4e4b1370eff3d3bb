/-
Pegium/Parser/Termination.lean

The loops of the parser end.

The loops of the source are recursions on a budget that `none` reports as used
up.  An iteration of a repetition or of a skipper is a strict step of the cursor,
and a pass of an unordered group that matches anything sets a flag, so a budget
of one more than what is left (of the text, or of the elements) is never used up:
a loop over elements whose own calls return, returns.

`strict_parse_progress` puts this together with the bounds of `Progress.lean`.
-/
import Pegium.Parser.Progress

namespace Pegium

variable {Γ : Grammar} {text : List UInt8}

/-- The terminal matches of an expression return, wherever they start. -/
def TerminalReturns (text : List UInt8) (rec : Matcher) (e : Expr) : Prop :=
  ∀ p ≤ text.length, rec e p ≠ none

/-- The rules of a skipper return. -/
def SkipperReturns (text : List UInt8) (rec : Matcher) (sk : Skipper) : Prop :=
  (∀ r ∈ sk.hiddenRules, TerminalReturns text rec r.2) ∧
    ∀ e ∈ sk.ignoredRules, TerminalReturns text rec e

/-- The parses of an expression return, wherever they start. -/
def ParseReturns (text : List UInt8) (I : Interp) (tracked : Bool) (sk : Skipper)
    (e : Expr) : Prop :=
  ∀ ctx : ParseContext, ctx.cursor ≤ text.length → I.parse tracked sk e ctx ≠ none

/-! ### Terminal loops -/

section Terminal

variable {rec : Matcher} (hrec : MatcherBounded Γ text rec) {e : Expr} (he : e.WellFormed Γ)
  (hr : TerminalReturns text rec e) {p : ℕ}
include hrec he hr

theorem terminalWhile_returns (hn : e.nullable Γ = false) {budget : ℕ} (hp : p ≤ text.length)
    (hb : text.length - p < budget) : terminalWhile rec e budget p ≠ none := by
  induction budget generalizing p with
  | zero => omega
  | succ budget ih =>
    rw [terminalWhile]
    rcases hq : rec e p with - | - | q
    · exact absurd hq (hr p hp)
    · simp
    · have hstep := hrec e p q he hp hq
      have hlt := hstep.lt hn
      have hle := hstep.le_length
      exact ih hle (by omega)

theorem terminalTimes_returns {count : ℕ} (hp : p ≤ text.length) :
    terminalTimes rec e count p ≠ none := by
  induction count generalizing p with
  | zero => simp [terminalTimes]
  | succ count ih =>
    rw [terminalTimes]
    rcases hq : rec e p with - | - | q
    · exact absurd hq (hr p hp)
    · simp
    · exact ih (hrec e p q he hp hq).le_length

theorem terminalUpTo_returns {count : ℕ} (hp : p ≤ text.length) :
    terminalUpTo rec e count p ≠ none := by
  induction count generalizing p with
  | zero => simp [terminalUpTo]
  | succ count ih =>
    rw [terminalUpTo]
    rcases hq : rec e p with - | - | q
    · exact absurd hq (hr p hp)
    · simp
    · exact ih (hrec e p q he hp hq).le_length

/-- A loop that returns, after the mandatory matches. -/
theorem terminalTimes_then_returns (hn : e.nullable Γ = false) {min : ℕ} {k : ℕ → Option ℕ}
    (hk : ∀ r, r ≤ text.length → k r ≠ none) (hp : p ≤ text.length) :
    (match terminalTimes rec e min p with
      | none => none
      | some none => some none
      | some (some r) => (k r).map some) ≠ none := by
  rcases ht : terminalTimes rec e min p with - | - | r
  · exact absurd ht (terminalTimes_returns hrec he hr hp)
  · simp
  · simpa using hk r (terminalTimes_bounds hrec he hn hp ht).le_length

theorem terminalRepetition_returns {min : ℕ} {max : Option ℕ} (hn : e.nullable Γ = false)
    (hp : p ≤ text.length) : terminalRepetition text rec min max e p ≠ none := by
  have hwhile : ∀ r, r ≤ text.length → terminalWhile rec e (text.length + 1) r ≠ none :=
    fun r hle => terminalWhile_returns hrec he hr hn hle (by omega)
  match min, max with
  | 0, some 1 =>
    rw [terminalRepetition]
    rcases hq : rec e p with - | - | q
    · exact absurd hq (hr p hp)
    · simp
    · simp
  | 0, none => simpa [terminalRepetition] using hwhile p hp
  | 1, none =>
    rw [terminalRepetition]
    rcases hq : rec e p with - | - | q
    · exact absurd hq (hr p hp)
    · simp
    · simpa using hwhile q (hrec e p q he hp hq).le_length
  | min + 2, none => exact terminalTimes_then_returns hrec he hr hn hwhile hp
  | 0, some 0 =>
    simp [terminalRepetition, terminalTimes]
  | 0, some (max + 2) =>
    have hup : ∀ r, r ≤ text.length → terminalUpTo rec e (max + 2) r ≠ none :=
      fun r hle => terminalUpTo_returns hrec he hr hle
    simpa [terminalRepetition, terminalTimes] using hup p hp
  | min + 1, some max =>
    have hup : ∀ r, r ≤ text.length → terminalUpTo rec e (max - (min + 1)) r ≠ none :=
      fun r hle => terminalUpTo_returns hrec he hr hle
    simp only [terminalRepetition]
    split
    · exact terminalTimes_returns hrec he hr hp
    · exact terminalTimes_then_returns hrec he hr hn hup hp

end Terminal

theorem terminalSequence_returns {rec : Matcher} (hrec : MatcherBounded Γ text rec)
    {es : List Expr} (hes : ∀ e ∈ es, e.WellFormed Γ ∧ TerminalReturns text rec e) {p : ℕ}
    (hp : p ≤ text.length) : terminalSequence rec es p ≠ none := by
  induction es generalizing p with
  | nil => simp [terminalSequence]
  | cons e es ih =>
    obtain ⟨he, hr⟩ := hes e List.mem_cons_self
    rw [terminalSequence]
    rcases hq : rec e p with - | - | q
    · exact absurd hq (hr p hp)
    · simp
    · exact ih (fun e he => hes e (List.mem_cons_of_mem _ he)) (hrec e p q he hp hq).le_length

/-! ### Unordered groups -/

/-- The number of elements not matched yet. -/
def unmatched (es : List (Expr × Bool)) : ℕ := es.countP fun e => !e.2

section UnorderedGroup

variable {rec : Matcher} (hrec : MatcherBounded Γ text rec) {p q : ℕ}

/-- A pass never unsets a flag, and sets one when it matches anything. -/
theorem terminalPass_unmatched {es es' : List (Expr × Bool)} {any : Bool}
    (h : terminalPass rec es p = some (es', q, any)) :
    unmatched es' ≤ unmatched es ∧ (any = true → unmatched es' < unmatched es) := by
  induction es generalizing p es' any with
  | nil =>
    simp only [terminalPass, Option.some.injEq, Prod.mk.injEq] at h
    obtain ⟨rfl, rfl, rfl⟩ := h
    simp
  | cons e es ih =>
    obtain ⟨e, flag⟩ := e
    cases flag with
    | true =>
      rw [terminalPass] at h
      rcases hr : terminalPass rec es p with - | ⟨es₁, q₁, any₁⟩ <;> simp only [hr] at h
      · cases h
      · simp only [Option.some.injEq, Prod.mk.injEq] at h
        obtain ⟨rfl, rfl, rfl⟩ := h
        simpa [unmatched] using ih hr
    | false =>
      rw [terminalPass] at h
      rcases hr : rec e p with - | - | r <;> simp only [hr] at h
      · cases h
      · rcases hr' : terminalPass rec es p with - | ⟨es₁, q₁, any₁⟩ <;> simp only [hr'] at h
        · cases h
        · simp only [Option.some.injEq, Prod.mk.injEq] at h
          obtain ⟨rfl, rfl, rfl⟩ := h
          simpa [unmatched] using ih hr'
      · rcases hr' : terminalPass rec es r with - | ⟨es₁, q₁, any₁⟩ <;> simp only [hr'] at h
        · cases h
        · simp only [Option.some.injEq, Prod.mk.injEq] at h
          obtain ⟨rfl, rfl, rfl⟩ := h
          have hle := (ih hr').1
          simp only [unmatched, List.countP_cons, Bool.not_true, Bool.not_false] at hle ⊢
          constructor <;> intros <;> simp <;> omega

include hrec

theorem terminalPass_returns {es : List (Expr × Bool)}
    (hes : ∀ e ∈ es, (e.1.WellFormed Γ ∧ e.1.nullable Γ = false) ∧ TerminalReturns text rec e.1)
    (hp : p ≤ text.length) : terminalPass rec es p ≠ none := by
  induction es generalizing p with
  | nil => simp [terminalPass]
  | cons e es ih =>
    obtain ⟨e, flag⟩ := e
    have hes' := fun e he => hes e (List.mem_cons_of_mem _ he)
    obtain ⟨he, hr⟩ := hes (e, flag) List.mem_cons_self
    cases flag with
    | true =>
      have htail := ih hes' hp
      rw [terminalPass]
      rcases hq : terminalPass rec es p with - | r
      · exact absurd hq htail
      · simp
    | false =>
      rw [terminalPass]
      rcases hq : rec e p with - | - | r
      · exact absurd hq (hr p hp)
      · have htail := ih hes' hp
        rcases hq' : terminalPass rec es p with - | r
        · exact absurd hq' htail
        · simp
      · have htail := ih hes' (hrec e p r he.1 hp hq).le_length
        rcases hq' : terminalPass rec es r with - | r'
        · exact absurd hq' htail
        · simp [hq']

theorem terminalPasses_returns {budget : ℕ} {es : List (Expr × Bool)}
    (hes : ∀ e ∈ es, (e.1.WellFormed Γ ∧ e.1.nullable Γ = false) ∧ TerminalReturns text rec e.1)
    (hp : p ≤ text.length) (hb : unmatched es < budget) :
    terminalPasses rec budget es p ≠ none := by
  induction budget generalizing es p with
  | zero => omega
  | succ budget ih =>
    rw [terminalPasses]
    rcases hr : terminalPass rec es p with - | ⟨es₁, q₁, - | -⟩
    · exact absurd hr (terminalPass_returns hrec hes hp)
    · simp
    · obtain ⟨hstep, -, hmap⟩ := terminalPass_bounds hrec (fun e he => (hes e he).1) hp hr
      have hlt := (terminalPass_unmatched hr).2 rfl
      have hes₁ : ∀ e ∈ es₁, (e.1.WellFormed Γ ∧ e.1.nullable Γ = false) ∧
          TerminalReturns text rec e.1 := by
        intro e he
        have hmem : e.1 ∈ es.map (·.1) := hmap ▸ List.mem_map_of_mem he
        obtain ⟨e', he', heq⟩ := List.mem_map.mp hmem
        exact heq ▸ hes e' he'
      exact ih hes₁ hstep.le_length (by omega)

theorem terminalUnorderedGroup_returns {es : List Expr}
    (hes : ∀ e ∈ es, (e.WellFormed Γ ∧ e.nullable Γ = false) ∧ TerminalReturns text rec e)
    (hp : p ≤ text.length) : terminalUnorderedGroup rec es p ≠ none := by
  have hes' : ∀ e ∈ es.map (·, false), (e.1.WellFormed Γ ∧ e.1.nullable Γ = false) ∧
      TerminalReturns text rec e.1 := by
    simpa using hes
  have hcount : unmatched (es.map (·, false)) < es.length + 1 := by
    have hle := List.countP_le_length (p := fun e : Expr × Bool => !e.2) (l := es.map (·, false))
    simp only [List.length_map] at hle
    exact Nat.lt_succ_of_le hle
  rw [terminalUnorderedGroup]
  rcases hr : terminalPasses rec (es.length + 1) (es.map (·, false)) p with - | r
  · exact absurd hr (terminalPasses_returns hrec hes' hp hcount)
  · simp

end UnorderedGroup

/-! ### Skippers -/

section Skip

variable {rec : Matcher} (hrec : MatcherBounded Γ text rec) {sk : Skipper}
  (hsk : sk.WellFormed Γ) (hr : SkipperReturns text rec sk) {p : ℕ}

theorem terminalAny_returns {es : List Expr} (hes : ∀ e ∈ es, TerminalReturns text rec e)
    (hp : p ≤ text.length) : terminalAny rec es p ≠ none := by
  induction es with
  | nil => simp [terminalAny]
  | cons e es ih =>
    rw [terminalAny]
    rcases hq : rec e p with - | - | q
    · exact absurd hq (hes e List.mem_cons_self p hp)
    · exact ih fun e he => hes e (List.mem_cons_of_mem _ he)
    · simp

theorem parseAnyHidden_returns {rules : List (GrammarElement × Expr)}
    (hrules : ∀ r ∈ rules, TerminalReturns text rec r.2) (hp : p ≤ text.length) :
    parseAnyHidden rec rules p ≠ none := by
  induction rules with
  | nil => simp [parseAnyHidden]
  | cons rule rules ih =>
    obtain ⟨ge, e⟩ := rule
    rw [parseAnyHidden]
    rcases hq : rec e p with - | - | q
    · exact absurd hq (hrules (ge, e) List.mem_cons_self p hp)
    · exact ih fun r hr => hrules r (List.mem_cons_of_mem _ hr)
    · simp

include hrec hsk hr

theorem skipIgnored_returns {budget : ℕ} (hp : p ≤ text.length)
    (hb : text.length - p < budget) : skipIgnored rec sk.ignoredRules budget p ≠ none := by
  induction budget generalizing p with
  | zero => omega
  | succ budget ih =>
    rw [skipIgnored]
    rcases hq : terminalAny rec sk.ignoredRules p with - | - | q
    · exact absurd hq (terminalAny_returns hr.2 hp)
    · simp
    · have hstep := ignored_strict hrec hsk hp hq
      have hlt := hstep.lt trivial
      have hle := hstep.le_length
      exact ih hle (by omega)

theorem skipLoop_returns {budget : ℕ} (hp : p ≤ text.length)
    (hb : text.length - p < budget) : skipLoop text rec sk budget p ≠ none := by
  induction budget generalizing p with
  | zero => omega
  | succ budget ih =>
    rw [skipLoop]
    rcases hi : skipIgnored rec sk.ignoredRules (text.length + 1) p with - | p₁
    · exact absurd hi (skipIgnored_returns hrec hsk hr hp (by omega))
    · have h₁ := skipIgnored_bounds hrec hsk hp hi
      dsimp only
      rcases hh : parseAnyHidden rec sk.hiddenRules p₁ with - | - | ⟨ge, p₂⟩
      · exact absurd hh (parseAnyHidden_returns hr.1 h₁.le_length)
      · simp
      · have h₂ := hidden_strict hrec hsk (List.Subset.refl _) h₁.le_length hh
        have hle := h₁.le
        have hlt := h₂.lt trivial
        have hlen := h₂.le_length
        have hrest := ih hlen (by omega)
        rcases hl : skipLoop text rec sk budget p₂ with - | r
        · exact absurd hl hrest
        · simp [hl]

theorem skipFrom_returns (hp : p ≤ text.length) : skipFrom text rec sk p ≠ none :=
  skipLoop_returns hrec hsk hr hp (by omega)

omit hrec hr in
theorem skipper_rules {e : Expr} (he : e ∈ sk.ignoredRules ++ sk.hiddenRules.map (·.2)) :
    e.WellFormed Γ ∧ e.nullable Γ = false := by
  rcases List.mem_append.mp he with he | he
  · exact ⟨(hsk.2 e he).1, (hsk.2 e he).2.2⟩
  · obtain ⟨r, hr, rfl⟩ := List.mem_map.mp he
    exact ⟨(hsk.1 r hr).1, (hsk.1 r hr).2.2⟩

theorem skipWithoutBuilder_returns {budget : ℕ} (hp : p ≤ text.length)
    (hb : text.length - p < budget) :
    ∃ q, skipWithoutBuilder rec sk budget p = some q ∧ GoodStep text False p q := by
  induction budget generalizing p with
  | zero => omega
  | succ budget ih =>
    have hreturns : ∀ e ∈ sk.ignoredRules ++ sk.hiddenRules.map (·.2),
        TerminalReturns text rec e := by
      intro e he
      rcases List.mem_append.mp he with he | he
      · exact hr.2 e he
      · obtain ⟨r, hmem, rfl⟩ := List.mem_map.mp he
        exact hr.1 r hmem
    rw [skipWithoutBuilder]
    rcases hq : terminalAny rec (sk.ignoredRules ++ sk.hiddenRules.map (·.2)) p with - | - | q
    · exact absurd hq (terminalAny_returns hreturns hp)
    · exact ⟨p, rfl, .refl hp not_false⟩
    · have hrules := fun e he => skipper_rules hsk (e := e) he
      have hstep := terminalAny_bounds hrec (fun e he => (hrules e he).1) hp hq
      have hlt := hstep.lt (by
        rw [List.any_eq_false]
        intro e he
        simp [(hrules e he).2])
      have hle := hstep.le_length
      obtain ⟨r, hres, hrest⟩ := ih hle (by omega)
      exact ⟨r, hres, (hstep.trans hrest).mono False.elim⟩

end Skip

/-! ### Parsing -/

theorem andThen_returns {r : Outcome} {k : ParseContext → Outcome} (hr : r ≠ none)
    (hk : ∀ ctx, r = some (true, ctx) → k ctx ≠ none) : andThen r k ≠ none := by
  rcases r with - | ⟨- | -, ctx⟩
  · exact absurd rfl hr
  · simp [andThen]
  · exact hk ctx rfl

theorem orElse_returns {r : Outcome} {k : ParseContext → Outcome} (hr : r ≠ none)
    (hk : ∀ ctx, k ctx ≠ none) : orElse r k ≠ none := by
  rcases r with - | ⟨- | -, ctx⟩
  · exact absurd rfl hr
  · exact hk ctx
  · simp [orElse]

namespace Interp.Bounded

variable {I : Interp} (h : I.Bounded Γ text) {tracked : Bool} {sk : Skipper}
  (hsk : sk.WellFormed Γ) (hskip : SkipperReturns text I.terminal sk) {ctx : ParseContext}

include h hsk hskip in
theorem skip_returns (hp : ctx.cursor ≤ text.length) : I.skip text sk ctx ≠ none := by
  rw [Interp.skip, ParseContext.skip]
  rcases hs : skipFrom text I.terminal sk ctx.cursor with - | r
  · exact absurd hs (skipFrom_returns h.terminal hsk hskip hp)
  · simp

theorem attempt_returns {e : Expr} (hr : ParseReturns text I tracked sk e)
    (hp : ctx.cursor ≤ text.length) : I.attempt_parse_strict tracked sk e ctx ≠ none := by
  rw [Interp.attempt_parse_strict]
  split
  · exact hr ctx hp
  · exact orElse_returns (hr ctx hp) (by simp)

section Repetition

variable {e : Expr} (he : e.WellFormed Γ) (hr : ParseReturns text I tracked sk e)
  (hp : ctx.cursor ≤ text.length)
include h hsk hskip he hr hp

/-- An iteration of a loop returns when the rest of the loop does, after a
strict step. -/
theorem iteration_returns {b : Bool} {k : ParseContext → Outcome}
    (hk : ∀ ctx', GoodStep text (e.nullable Γ = false) ctx.cursor ctx'.cursor → k ctx' ≠ none) :
    (match I.skip text sk ctx with
      | none => none
      | some ctx' =>
        match I.attempt_parse_strict tracked sk e ctx' with
        | none => none
        | some (false, ctx'') => some (b, ctx''.rewind ctx.mark)
        | some (true, ctx'') => k ctx'') ≠ none := by
  rcases hs : I.skip text sk ctx with - | ctx'
  · exact absurd hs (h.skip_returns hsk hskip hp)
  · have hstep := Within.skip h.terminal hsk hp hs
    have ha := @attempt _ _ I h tracked sk hsk ctx' e he hstep.le_length
    dsimp only
    rcases hq : I.attempt_parse_strict tracked sk e ctx' with - | ⟨- | -, ctx''⟩
    · exact absurd hq (attempt_returns hr hstep.le_length)
    · simp
    · exact hk ctx'' ((hstep.trans (ha true ctx'' hq)).mono fun hs => .inr ⟨rfl, hs⟩)

theorem starLoop_returns (hn : e.nullable Γ = false) {budget : ℕ}
    (hb : text.length - ctx.cursor < budget) :
    I.starLoop text tracked sk e budget ctx ≠ none := by
  induction budget generalizing ctx with
  | zero => omega
  | succ budget ih =>
    refine h.iteration_returns hsk hskip he hr hp fun ctx' hstep => ?_
    have hlt := hstep.lt hn
    have hle := hstep.le_length
    exact ih hle (by omega)

theorem upToLoop_returns {count : ℕ} : I.upToLoop text tracked sk e count ctx ≠ none := by
  induction count generalizing ctx with
  | zero => simp [Interp.upToLoop]
  | succ count ih =>
    exact h.iteration_returns hsk hskip he hr hp fun ctx' hstep => ih hstep.le_length

theorem minLoop_returns {count : ℕ} : I.minLoop text tracked sk e count ctx ≠ none := by
  induction count generalizing ctx with
  | zero => simp [Interp.minLoop]
  | succ count ih =>
    exact h.iteration_returns hsk hskip he hr hp fun ctx' hstep => ih hstep.le_length

theorem fixedLoop_returns {count : ℕ} : I.fixedLoop text tracked sk e count ctx ≠ none := by
  induction count generalizing ctx with
  | zero => simp [Interp.fixedLoop]
  | succ count ih =>
    rw [Interp.fixedLoop]
    rcases hs : I.skip text sk ctx with - | ctx'
    · exact absurd hs (h.skip_returns hsk hskip hp)
    · have hstep := Within.skip h.terminal hsk hp hs
      refine andThen_returns (hr ctx' hstep.le_length) fun ctx'' hq => ?_
      exact ih (h.parse tracked sk e ctx' hsk he hstep.le_length true ctx'' hq).le_length

theorem repetition_returns (hn : e.nullable Γ = false) {min : ℕ} {max : Option ℕ} :
    I.parseRepetition text tracked sk min max e ctx ≠ none := by
  have hstar : ∀ ctx : ParseContext, ctx.cursor ≤ text.length →
      I.starLoop text tracked sk e (text.length + 1) ctx ≠ none :=
    fun ctx hp => h.starLoop_returns hsk hskip he hr hp hn (by omega)
  have hup : ∀ count (ctx : ParseContext), ctx.cursor ≤ text.length →
      I.upToLoop text tracked sk e count ctx ≠ none :=
    fun count ctx hp => h.upToLoop_returns hsk hskip he hr hp
  have hfirst : ∀ k : ParseContext → Outcome,
      (∀ ctx : ParseContext, ctx.cursor ≤ text.length → k ctx ≠ none) →
      andThen (I.attempt_parse_strict tracked sk e ctx) k ≠ none := by
    intro k hk
    refine andThen_returns (attempt_returns hr hp) fun ctx' hq => ?_
    exact hk ctx' (h.attempt hsk he hp true ctx' hq).le_length
  have hmany : ∀ count (k : ParseContext → Outcome),
      (∀ ctx : ParseContext, ctx.cursor ≤ text.length → k ctx ≠ none) →
      ∀ ctx : ParseContext, ctx.cursor ≤ text.length →
        andThen (I.minLoop text tracked sk e count ctx) k ≠ none := by
    intro count k hk ctx hp
    refine andThen_returns (h.minLoop_returns hsk hskip he hr hp) fun ctx' hq => ?_
    exact hk ctx' (h.minLoop hsk he hp true ctx' hq).le_length
  have hfixed : andThen (I.parse tracked sk e ctx) (I.fixedLoop text tracked sk e (min - 1))
      ≠ none := by
    refine andThen_returns (hr ctx hp) fun ctx' hq => ?_
    exact h.fixedLoop_returns hsk hskip he hr
      (h.parse tracked sk e ctx hsk he hp true ctx' hq).le_length
  match min, max with
  | 0, some 1 => simpa [Interp.parseRepetition] using attempt_returns hr hp
  | 0, none => simpa [Interp.parseRepetition] using hfirst _ hstar
  | 1, none => simpa [Interp.parseRepetition] using hfirst _ hstar
  | min + 2, none => exact hfirst _ (hmany _ _ hstar)
  | 0, some 0 => simpa [Interp.parseRepetition] using hfirst _ (hup 0)
  | 0, some (max + 2) => simpa [Interp.parseRepetition] using hfirst _ (hup (max + 1))
  | min + 1, some max =>
    simp only [Interp.parseRepetition]
    split
    · exact hfixed
    · exact hfirst _ (hmany _ _ (hup _))

end Repetition

section UnorderedGroup

variable {es : List (Expr × Bool)}
include h hsk

theorem tryMatchOne_returns
    (hes : ∀ e ∈ es, (e.1.WellFormed Γ ∧ e.1.nullable Γ = false) ∧
      ParseReturns text I tracked sk e.1) (hp : ctx.cursor ≤ text.length) :
    I.tryMatchOne tracked sk es ctx ≠ none := by
  induction es generalizing ctx with
  | nil => simp [Interp.tryMatchOne]
  | cons e es ih =>
    obtain ⟨e, flag⟩ := e
    have hes' := fun e he => hes e (List.mem_cons_of_mem _ he)
    obtain ⟨he, hr⟩ := hes (e, flag) List.mem_cons_self
    cases flag with
    | true =>
      have htail := ih hes' hp
      rw [Interp.tryMatchOne]
      rcases hq : I.tryMatchOne tracked sk es ctx with - | r
      · exact absurd hq htail
      · simp
    | false =>
      rw [Interp.tryMatchOne]
      rcases hq : I.attempt_parse_strict tracked sk e ctx with - | ⟨- | -, ctx'⟩
      · exact absurd hq (attempt_returns hr hp)
      · have htail := ih hes' (h.attempt hsk he.1 hp false ctx' hq).le_length
        dsimp only
        rcases hq' : I.tryMatchOne tracked sk es ctx' with - | r
        · exact absurd hq' htail
        · simp
      · simp

include hskip

theorem groupLoop_returns {count : ℕ}
    (hes : ∀ e ∈ es, (e.1.WellFormed Γ ∧ e.1.nullable Γ = false) ∧
      ParseReturns text I tracked sk e.1) (hp : ctx.cursor ≤ text.length) :
    I.groupLoop text tracked sk count es ctx ≠ none := by
  induction count generalizing ctx es with
  | zero => simp [Interp.groupLoop]
  | succ count ih =>
    rw [Interp.groupLoop]
    rcases hs : I.skip text sk ctx with - | ctx₁
    · exact absurd hs (h.skip_returns hsk hskip hp)
    · have h₁ := Within.skip h.terminal hsk hp hs
      dsimp only
      rcases hr : I.tryMatchOne tracked sk es ctx₁ with - | ⟨- | es', ctx₂⟩
      · exact absurd hr (h.tryMatchOne_returns hsk hes h₁.le_length)
      · simp
      · obtain ⟨h₂, hmap⟩ := h.tryMatchOne hsk h₁.le_length (fun e he => (hes e he).1) hr
        have hes' : ∀ e ∈ es', (e.1.WellFormed Γ ∧ e.1.nullable Γ = false) ∧
            ParseReturns text I tracked sk e.1 := by
          intro e he
          have hmem : e.1 ∈ es.map (·.1) := hmap es' rfl ▸ List.mem_map_of_mem he
          obtain ⟨e', he', heq⟩ := List.mem_map.mp hmem
          exact heq ▸ hes e' he'
        exact ih hes' h₂.le_length

theorem unorderedGroup_returns {es : List Expr}
    (hes : ∀ e ∈ es, (e.WellFormed Γ ∧ e.nullable Γ = false) ∧
      ParseReturns text I tracked sk e) (hp : ctx.cursor ≤ text.length) :
    I.parseUnorderedGroup text tracked sk es ctx ≠ none := by
  have hes' : ∀ e ∈ es.map (·, false), (e.1.WellFormed Γ ∧ e.1.nullable Γ = false) ∧
      ParseReturns text I tracked sk e.1 := by
    simpa using hes
  rw [Interp.parseUnorderedGroup]
  refine orElse_returns ?_ fun ctx' => by simp
  rcases hr : I.tryMatchOne tracked sk (es.map (·, false)) ctx with - | ⟨- | es', ctx'⟩
  · exact absurd hr (h.tryMatchOne_returns hsk hes' hp)
  · simp
  · obtain ⟨hstep, hmap⟩ := h.tryMatchOne hsk hp (fun e he => (hes' e he).1) hr
    refine h.groupLoop_returns hsk hskip ?_ hstep.le_length
    intro e he
    have hmem : e.1 ∈ (es.map (·, false)).map (·.1) := hmap es' rfl ▸ List.mem_map_of_mem he
    obtain ⟨e', he', heq⟩ := List.mem_map.mp hmem
    exact heq ▸ hes' e' he'

end UnorderedGroup

section Infix

variable {defn : InfixDef}
  (hops : ∀ op ∈ defn.operators, op.element.WellFormed Γ ∧ op.element.nullable Γ = false)
  (hopReturns : ∀ op ∈ defn.operators, ParseReturns text I tracked sk op.element ∧
    ∀ ctx : ParseContext, ctx.cursor ≤ text.length →
      I.fastProbe tracked sk op.element ctx ≠ none)

include h in
theorem hasOperatorFastProbe_returns {minPrecedence : ℕ} {ops : List InfixOperator}
    (hops : ∀ op ∈ ops, ∀ ctx : ParseContext, ctx.cursor ≤ text.length →
      I.fastProbe tracked sk op.element ctx ≠ none) (hp : ctx.cursor ≤ text.length) :
    I.hasOperatorFastProbe tracked sk minPrecedence ops ctx ≠ none := by
  induction ops generalizing ctx with
  | nil => simp [Interp.hasOperatorFastProbe]
  | cons op ops ih =>
    have htail := fun op hop => hops op (List.mem_cons_of_mem _ hop)
    rw [Interp.hasOperatorFastProbe]
    split
    · rcases hq : I.fastProbe tracked sk op.element ctx with - | ⟨- | -, ctx'⟩
      · exact absurd hq (hops op List.mem_cons_self ctx hp)
      · have hc : ctx'.cursor = ctx.cursor := h.fastProbe tracked sk op.element ctx _ _ hq
        exact ih htail (hc ▸ hp)
      · simp [orElse]
    · exact ih htail hp

theorem attemptOperator_returns {rule index : ℕ} {op : InfixOperator}
    (hr : ParseReturns text I tracked sk op.element) (hp : ctx.cursor ≤ text.length) :
    I.attemptOperator tracked sk rule index op ctx ≠ none := by
  have hnode : I.parseElementNode tracked sk (.infixOperator rule index) op.element ctx
      ≠ none := by
    rw [Interp.parseElementNode]
    split
    · exact andThen_returns (hr ctx.enter hp) (by simp)
    · exact andThen_returns (hr ctx hp) (by simp)
  rw [Interp.attemptOperator]
  split
  · exact hnode
  · exact orElse_returns hnode (by simp)

include h hsk in
theorem tryMatchOperator_returns {rule minPrecedence index : ℕ}
    {operators ops : List InfixOperator}
    (hops : ∀ op ∈ ops, op.element.WellFormed Γ ∧ op.element.nullable Γ = false)
    (hreturns : ∀ op ∈ ops, ParseReturns text I tracked sk op.element ∧
      ∀ ctx : ParseContext, ctx.cursor ≤ text.length →
        I.fastProbe tracked sk op.element ctx ≠ none) (hp : ctx.cursor ≤ text.length) :
    I.tryMatchOperator text tracked sk rule operators minPrecedence index ops ctx ≠ none := by
  induction ops generalizing ctx index with
  | nil => simp [Interp.tryMatchOperator]
  | cons op ops ih =>
    have hop := hops op List.mem_cons_self
    have hr := hreturns op List.mem_cons_self
    have ih := fun ctx index => @ih ctx index (fun op hop => hops op (List.mem_cons_of_mem _ hop))
      fun op hop => hreturns op (List.mem_cons_of_mem _ hop)
    rw [Interp.tryMatchOperator]
    split
    · simp
    · rcases hf : I.fastProbe tracked sk op.element ctx with - | ⟨- | -, ctx₁⟩
      · exact absurd hf (hr.2 ctx hp)
      · have hc : ctx₁.cursor = ctx.cursor := h.fastProbe tracked sk op.element ctx _ _ hf
        exact ih ctx₁ _ (hc ▸ hp)
      · have hc : ctx₁.cursor = ctx.cursor := h.fastProbe tracked sk op.element ctx _ _ hf
        have hp₁ : ctx₁.cursor ≤ text.length := hc ▸ hp
        have ha := @attemptOperator _ _ _ h tracked sk hsk ctx₁ hp₁ rule index op hop
        dsimp only
        rcases hm : I.attemptOperator tracked sk rule index op ctx₁ with - | ⟨- | -, ctx₂⟩
        · exact absurd hm (attemptOperator_returns hr.1 hp₁)
        · exact ih ctx₂ _ (ha _ _ hm).le_length
        · dsimp only
          split
          · exact ih (ctx₂.rewind ctx₁.mark) _ hp₁
          · simp

include h hsk hskip hops hopReturns

/-- Every turn of the infix loop consumes an operator. -/
theorem parseTail_returns (hprimary : (Expr.parserRule defn.primary).WellFormed Γ)
    (hpReturns : ParseReturns text I tracked sk (.parserRule defn.primary))
    {rule budget minPrecedence lhsStart : ℕ} (hp : ctx.cursor ≤ text.length)
    (hb : text.length - ctx.cursor < budget) :
    I.parseTail text tracked sk rule defn budget minPrecedence lhsStart ctx ≠ none := by
  induction budget generalizing ctx minPrecedence lhsStart with
  | zero => omega
  | succ budget ih =>
    rw [Interp.parseTail]
    split
    · simp
    · rcases hf : I.hasOperatorFastProbe tracked sk minPrecedence defn.operators ctx
        with - | ⟨- | -, ctx₁⟩
      · exact absurd hf (h.hasOperatorFastProbe_returns (fun op hop => (hopReturns op hop).2) hp)
      · simp
      · have hstill : ctx₁.cursor = ctx.cursor := h.hasOperatorFastProbe _ _ hf
        have hc : ctx₁.enter.cursor = ctx.cursor := hstill
        have hp₁ : ctx₁.enter.cursor ≤ text.length := hc ▸ hp
        dsimp only
        rcases ho : I.tryMatchOperator text tracked sk rule defn.operators minPrecedence 0
          defn.operators ctx₁.enter with - | ⟨- | next, ctx₂⟩
        · exact absurd ho (h.tryMatchOperator_returns hsk hops hopReturns hp₁)
        · simp
        · have h₂ := h.tryMatchOperator hsk hp₁ hops ho
          have hlt := h₂.lt rfl
          dsimp only
          rcases hs : I.skip text sk ctx₂ with - | ctx₃
          · exact absurd hs (h.skip_returns hsk hskip h₂.le_length)
          · have h₃ := Within.skip h.terminal hsk h₂.le_length hs
            dsimp only
            rcases hq : I.parse tracked sk (.parserRule defn.primary) ctx₃ with - | ⟨- | -, ctx₄⟩
            · exact absurd hq (hpReturns ctx₃ h₃.le_length)
            · simp
            · have h₄ := h.parse tracked sk _ ctx₃ hsk hprimary h₃.le_length true ctx₄ hq
              dsimp only
              rcases hs' : I.skip text sk ctx₄ with - | ctx₅
              · exact absurd hs' (h.skip_returns hsk hskip h₄.le_length)
              · have h₅ := Within.skip h.terminal hsk h₄.le_length hs'
                have hle₃ := h₃.le
                have hle₄ := h₄.le
                have hle₅ := h₅.le
                dsimp only
                rcases ht : I.parseTail text tracked sk rule defn budget next ctx₃.cursor ctx₅
                  with - | ctx₆
                · have hlen₅ := h₅.le_length
                  exact absurd ht (ih hlen₅ (by omega))
                · have h₆ := h.parseTail hsk h₅.le_length hprimary hops ht
                  have hle₆ := h₆.le
                  have hlen₆ : (ctx₆.exit lhsStart (.infixRule rule)).cursor ≤ text.length :=
                    h₆.le_length
                  have hcur : (ctx₆.exit lhsStart (.infixRule rule)).cursor = ctx₆.cursor := rfl
                  exact ih hlen₆ (by omega)

end Infix

end Interp.Bounded

/-! ### Successful matches advance and the loops end -/

/-- A terminal loop from `p` ends, with the position after it inside the text. -/
def TerminalEnds (text : List UInt8) (p : ℕ) (r : Option (Option ℕ)) : Prop :=
  r ≠ none ∧ ∀ q, r = some (some q) → GoodStep text False p q

/-- A loop on a context at cursor `p` ends, with the cursor inside the text. -/
def Ends (text : List UInt8) (p : ℕ) (r : Outcome) : Prop :=
  r ≠ none ∧ Within text False p r

/-- **Strict parsing advances and its loops end.**  A successful terminal or
strict match of a non-nullable expression is a strict step that stays inside the
text; and each loop (of repetitions, of unordered groups, of the skipper with and
without a builder) over elements whose own calls return ends, with the cursor
inside the text. -/
theorem strict_parse_progress {Γ : Grammar} (hΓ : Γ.WellFormed) (text : List UInt8) (n : ℕ) :
    (∀ e p q, e.WellFormed Γ → p ≤ text.length →
      (interp Γ text n).terminal e p = some (some q) →
        GoodStep text (e.nullable Γ = false) p q) ∧
    (∀ tracked sk e (ctx ctx' : ParseContext), sk.WellFormed Γ → e.WellFormed Γ →
      ctx.cursor ≤ text.length →
      (interp Γ text n).parse tracked sk e ctx = some (true, ctx') →
        GoodStep text (e.nullable Γ = false) ctx.cursor ctx'.cursor) ∧
    (∀ min max e p, e.WellFormed Γ → e.nullable Γ = false →
      TerminalReturns text (interp Γ text n).terminal e → p ≤ text.length →
        TerminalEnds text p (terminalRepetition text (interp Γ text n).terminal min max e p)) ∧
    (∀ es p, (∀ e ∈ es, (e.WellFormed Γ ∧ e.nullable Γ = false) ∧
        TerminalReturns text (interp Γ text n).terminal e) → es ≠ [] → p ≤ text.length →
        TerminalEnds text p (terminalUnorderedGroup (interp Γ text n).terminal es p)) ∧
    (∀ sk p, sk.WellFormed Γ → SkipperReturns text (interp Γ text n).terminal sk →
      p ≤ text.length →
        (∃ leaves q, skipFrom text (interp Γ text n).terminal sk p = some (leaves, q) ∧
          GoodStep text False p q) ∧
        TerminalEnds text p
          ((skipWithoutBuilder (interp Γ text n).terminal sk (text.length + 1) p).map some)) ∧
    (∀ tracked sk min max e (ctx : ParseContext), sk.WellFormed Γ →
      SkipperReturns text (interp Γ text n).terminal sk → e.WellFormed Γ →
      e.nullable Γ = false → ParseReturns text (interp Γ text n) tracked sk e →
      ctx.cursor ≤ text.length →
        Ends text ctx.cursor ((interp Γ text n).parseRepetition text tracked sk min max e ctx)) ∧
    (∀ tracked sk es (ctx : ParseContext), sk.WellFormed Γ →
      SkipperReturns text (interp Γ text n).terminal sk →
      (∀ e ∈ es, (e.WellFormed Γ ∧ e.nullable Γ = false) ∧
        ParseReturns text (interp Γ text n) tracked sk e) → ctx.cursor ≤ text.length →
        Ends text ctx.cursor ((interp Γ text n).parseUnorderedGroup text tracked sk es ctx)) := by
  have h := bounded_interp hΓ text n
  refine ⟨h.terminal, ?_, ?_, ?_, ?_, ?_, ?_⟩
  · intro tracked sk e ctx ctx' hsk he hp hr
    exact (h.parse tracked sk e ctx hsk he hp true ctx' hr).mono fun hn => ⟨rfl, hn⟩
  · intro min max e p he hn hr hp
    refine ⟨terminalRepetition_returns h.terminal he hr hn hp, fun q hq => ?_⟩
    exact (terminalRepetition_bounds h.terminal he hn hp hq).mono False.elim
  · intro es p hes hne hp
    refine ⟨terminalUnorderedGroup_returns h.terminal hes hp, fun q hq => ?_⟩
    exact (terminalUnorderedGroup_bounds h.terminal hne (fun e he => (hes e he).1) hp hq).mono
      False.elim
  · intro sk p hsk hr hp
    constructor
    · rcases hs : skipFrom text (interp Γ text n).terminal sk p with - | ⟨leaves, q⟩
      · exact absurd hs (skipFrom_returns h.terminal hsk hr hp)
      · exact ⟨leaves, q, rfl, (skipFrom_bounds h.terminal hsk hp hs).1⟩
    · have hb : text.length - p < text.length + 1 := by omega
      obtain ⟨q, hq, hstep⟩ := skipWithoutBuilder_returns h.terminal hsk hr hp hb
      refine ⟨by simp [hq], fun q' hq' => ?_⟩
      simp only [hq, Option.map_some, Option.some.injEq] at hq'
      exact hq' ▸ hstep
  · intro tracked sk min max e ctx hsk hskip he hn hr hp
    exact ⟨h.repetition_returns hsk hskip he hr hp hn, (h.repetition hsk he hp hn).mono False.elim⟩
  · intro tracked sk es ctx hsk hskip hes hp
    refine ⟨h.unorderedGroup_returns hsk hskip hes hp, ?_⟩
    exact (h.unorderedGroup hsk hp fun e he => (hes e he).1).mono False.elim

/-- Any number of `x` on `xx`. -/
theorem strict_parse_progress_star :
    let x : Expr := .literal 0 [120] true
    Ends [120, 120] 0
      ((interp (.sample x false) [120, 120] 1).parseRepetition [120, 120] false .noop 0 none x
        .initial) := by
  intro x
  have hx : ∀ Γ : Grammar, x.WellFormed Γ := fun Γ => Expr.literal_wellFormed (by decide)
  have hΓ : (Grammar.sample x false).WellFormed :=
    Grammar.sample_wellFormed (hx _) (by simp [x, Expr.nullable])
  have hskip : SkipperReturns [120, 120] (interp (.sample x false) [120, 120] 1).terminal
      .noop := by simp [SkipperReturns, Skipper.noop]
  have hreturns : ParseReturns [120, 120] (interp (.sample x false) [120, 120] 1) false .noop
      x := by simp [ParseReturns, interp, Interp.step, Interp.parseStep, x]
  exact (strict_parse_progress hΓ [120, 120] 1).2.2.2.2.2.1 false .noop 0 none x .initial
    Skipper.noop_wellFormed hskip (hx _) (by simp [x, Expr.nullable]) hreturns (by decide)

end Pegium
