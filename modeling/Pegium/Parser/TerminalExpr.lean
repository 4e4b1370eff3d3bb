/-
Pegium/Parser/TerminalExpr.lean

Terminal expressions, whose calls all return.

A terminal expression is built from what terminals are built
from, and no literal in it asks for a word boundary.  Such an expression does not
call a parser rule, so its terminal match, its strict parse and its probes all
return, from some depth of calls on (`TerminalExpr.returned`): the loops of
`Termination.lean` end, and the rest is structural.
-/
import Pegium.Parser.Termination

namespace Pegium

/-- A property of depths that holds from some depth on. -/
def FromDepth (P : ℕ → Prop) : Prop := ∃ N, ∀ n ≥ N, P n

namespace FromDepth

variable {P Q : ℕ → Prop}

theorem step (h : FromDepth P) (hs : ∀ n, P n → Q (n + 1)) : FromDepth Q := by
  obtain ⟨N, hN⟩ := h
  refine ⟨N + 1, fun n hn => ?_⟩
  obtain ⟨k, rfl⟩ : ∃ k, n = k + 1 := ⟨n - 1, by omega⟩
  exact hs k (hN k (by omega))

/-- Finitely many properties hold together from some depth on. -/
theorem forall_mem {α : Type*} {P : α → ℕ → Prop} {l : List α} (h : ∀ a ∈ l, FromDepth (P a)) :
    FromDepth fun n => ∀ a ∈ l, P a n := by
  induction l with
  | nil => exact ⟨0, fun _ _ _ ha => absurd ha List.not_mem_nil⟩
  | cons a l ih =>
    obtain ⟨N, hN⟩ := h a List.mem_cons_self
    obtain ⟨N', hN'⟩ := ih fun b hb => h b (List.mem_cons_of_mem _ hb)
    refine ⟨max N N', fun n hn b hb => ?_⟩
    rcases List.mem_cons.mp hb with rfl | hb
    · exact hN n (Nat.le_trans (Nat.le_max_left _ _) hn)
    · exact hN' n (Nat.le_trans (Nat.le_max_right _ _) hn) b hb

end FromDepth

/-- An expression of a terminal: no literal ends in a word character, terminal
rules that it refers to match in finitely many calls, and a local skipper skips
nothing. -/
inductive TerminalExpr (Γ : Grammar) (text : List UInt8) : Expr → Prop
  | literal {id : ℕ} {value : List UInt8} {case_sensitive : Bool}
      (h : is_word_like_terminal value = false) :
      TerminalExpr Γ text (.literal id value case_sensitive)
  | characterRange {id : ℕ} {lookup : UInt8 → Bool} :
      TerminalExpr Γ text (.characterRange id lookup)
  | anyCharacter {id : ℕ} : TerminalExpr Γ text (.anyCharacter id)
  | group {es : List Expr} (h : ∀ e ∈ es, TerminalExpr Γ text e) :
      TerminalExpr Γ text (.group es)
  | orderedChoice {es : List Expr} (h : ∀ e ∈ es, TerminalExpr Γ text e) :
      TerminalExpr Γ text (.orderedChoice es)
  | unorderedGroup {es : List Expr} (h : ∀ e ∈ es, TerminalExpr Γ text e) :
      TerminalExpr Γ text (.unorderedGroup es)
  | repetition {min : ℕ} {max : Option ℕ} {e : Expr} (h : TerminalExpr Γ text e) :
      TerminalExpr Γ text (.repetition min max e)
  | andPredicate {e : Expr} (h : TerminalExpr Γ text e) : TerminalExpr Γ text (.andPredicate e)
  | notPredicate {e : Expr} (h : TerminalExpr Γ text e) : TerminalExpr Γ text (.notPredicate e)
  | terminalRule {r : ℕ}
      (h : FromDepth fun n => TerminalReturns text (interp Γ text n).terminal (Γ.terminalRule r)) :
      TerminalExpr Γ text (.terminalRule r)
  | skipperWrapped {s : ℕ} {base : Expr} (hs : Γ.skipper s = .noop)
      (h : TerminalExpr Γ text base) : TerminalExpr Γ text (.skipperWrapped s base)

variable {Γ : Grammar} {text : List UInt8}

/-- A call on a context returns, wherever it starts in the text. -/
def CallReturns (text : List UInt8) (f : ParseContext → Outcome) : Prop :=
  ∀ ctx : ParseContext, ctx.cursor ≤ text.length → f ctx ≠ none

/-- At depth `n` the calls of `e` under the skipper that skips nothing return. -/
structure Returned (Γ : Grammar) (text : List UInt8) (e : Expr) (n : ℕ) : Prop where
  terminal : TerminalReturns text (interp Γ text n).terminal e
  parse : ParseReturns text (interp Γ text n) false .noop e
  probe : CallReturns text ((interp Γ text n).probe false .noop e)
  fastProbe : CallReturns text ((interp Γ text n).fastProbe false .noop e)

theorem skipperReturns_noop {rec : Matcher} : SkipperReturns text rec .noop := by
  simp [SkipperReturns, Skipper.noop]

section Combinators

variable {n : ℕ} (hb : (interp Γ text n).Bounded Γ text) {es : List Expr} {ctx : ParseContext}

/-- A choice among calls that return and stay inside the text. -/
theorem anyChoice_returns {f : Expr → ParseContext → Outcome}
    (hf : ∀ e ∈ es, CallReturns text (f e))
    (hstay : ∀ e ∈ es, ∀ ctx ctx' : ParseContext, ctx.cursor ≤ text.length →
      f e ctx = some (false, ctx') → ctx'.cursor ≤ text.length)
    (hp : ctx.cursor ≤ text.length) : Interp.anyChoice f es ctx ≠ none := by
  induction es generalizing ctx with
  | nil => simp [Interp.anyChoice]
  | cons e es ih =>
    have htail := fun ctx => @ih ctx (fun e he => hf e (List.mem_cons_of_mem _ he))
      (fun e he => hstay e (List.mem_cons_of_mem _ he))
    rw [Interp.anyChoice]
    rcases hr : f e ctx with - | ⟨- | -, ctx'⟩
    · exact absurd hr (hf e List.mem_cons_self ctx hp)
    · exact htail ctx' (hstay e List.mem_cons_self ctx ctx' hp hr)
    · simp [orElse]

include hb

theorem choice_returns (hes : ∀ e ∈ es, e.WellFormed Γ ∧ Returned Γ text e n)
    (hp : ctx.cursor ≤ text.length) :
    Interp.anyChoice ((interp Γ text n).attempt_parse_strict false .noop) es ctx ≠ none := by
  apply anyChoice_returns _ _ hp
  · intro e he ctx hp
    exact Interp.Bounded.attempt_returns (hes e he).2.parse hp
  · intro e he ctx ctx' hp hr
    exact (hb.attempt Skipper.noop_wellFormed (hes e he).1 hp false ctx' hr).le_length

theorem elements_returns (hes : ∀ e ∈ es, e.WellFormed Γ ∧ Returned Γ text e n)
    (hp : ctx.cursor ≤ text.length) :
    (interp Γ text n).parseElements text false .noop es ctx ≠ none := by
  induction es generalizing ctx with
  | nil => simp [Interp.parseElements]
  | cons e es ih =>
    obtain ⟨he, hr⟩ := hes e List.mem_cons_self
    rw [Interp.parseElements]
    rcases hs : (interp Γ text n).skip text .noop ctx with - | ctx₁
    · exact absurd hs (hb.skip_returns Skipper.noop_wellFormed skipperReturns_noop hp)
    · have h₁ := Within.skip hb.terminal Skipper.noop_wellFormed hp hs
      refine andThen_returns (hr.parse ctx₁ h₁.le_length) fun ctx₂ h₂ => ?_
      have hle := (hb.parse false .noop e ctx₁ Skipper.noop_wellFormed he h₁.le_length true
        ctx₂ h₂).le_length
      exact ih (fun e he => hes e (List.mem_cons_of_mem _ he)) hle

theorem group_returns (hes : ∀ e ∈ es, e.WellFormed Γ ∧ Returned Γ text e n)
    (hp : ctx.cursor ≤ text.length) :
    (interp Γ text n).parseGroup text false .noop es ctx ≠ none := by
  cases es with
  | nil => simp [Interp.parseGroup]
  | cons e es =>
    obtain ⟨he, hr⟩ := hes e List.mem_cons_self
    refine andThen_returns (hr.parse ctx hp) fun ctx₂ h₂ => ?_
    have hle := (hb.parse false .noop e ctx Skipper.noop_wellFormed he hp true ctx₂ h₂).le_length
    exact elements_returns hb (fun e he => hes e (List.mem_cons_of_mem _ he)) hle

theorem fastProbeElements_returns (hes : ∀ e ∈ es, Returned Γ text e n)
    (hp : ctx.cursor ≤ text.length) :
    (interp Γ text n).fastProbeElements Γ false .noop es ctx ≠ none := by
  induction es generalizing ctx with
  | nil => simp [Interp.fastProbeElements]
  | cons e es ih =>
    rw [Interp.fastProbeElements]
    rcases hr : (interp Γ text n).fastProbe false .noop e ctx with - | ⟨- | -, ctx'⟩
    · exact absurd hr ((hes e List.mem_cons_self).fastProbe ctx hp)
    · have hc : ctx'.cursor = ctx.cursor := hb.fastProbe false .noop e ctx _ _ hr
      rw [orElse]
      split
      · exact ih (fun e he => hes e (List.mem_cons_of_mem _ he)) (hc ▸ hp)
      · simp
    · simp [orElse]

end Combinators

/-! ### Every call returns -/

/-- An expression whose probe parses it and whose fast probe is its probe. -/
theorem Returned.ofParse {e : Expr}
    (ht : FromDepth fun n => TerminalReturns text (interp Γ text n).terminal e)
    (hp : FromDepth fun n => ParseReturns text (interp Γ text n) false .noop e)
    (hprobe : ∀ n, ParseReturns text (interp Γ text n) false .noop e →
      CallReturns text ((interp Γ text (n + 1)).probe false .noop e))
    (hfast : ∀ n, CallReturns text ((interp Γ text n).probe false .noop e) →
      CallReturns text ((interp Γ text (n + 1)).fastProbe false .noop e)) :
    FromDepth (Returned Γ text e) := by
  obtain ⟨N, hN⟩ := ht
  obtain ⟨N', hN'⟩ := hp
  refine ⟨max N N' + 2, fun n hn => ?_⟩
  obtain ⟨k, rfl⟩ : ∃ k, n = k + 2 := ⟨n - 2, by omega⟩
  have hparse : ∀ j ≥ k, ParseReturns text (interp Γ text j) false .noop e :=
    fun j hj => hN' j (by omega)
  exact ⟨hN _ (by omega), hparse _ (by omega), hprobe _ (hparse _ (by omega)),
    hfast _ (hprobe _ (hparse _ (by omega)))⟩

theorem defaultProbe_returns {e : Expr} {n : ℕ}
    (h : ParseReturns text (interp Γ text n) false .noop e) :
    CallReturns text ((interp Γ text n).defaultProbe false .noop e) := by
  intro ctx hp
  rw [Interp.defaultProbe]
  rcases hr : (interp Γ text n).parse false .noop e ctx with - | r
  · exact absurd hr (h ctx hp)
  · simp

/-- **The calls of a terminal-shaped expression return**, from some depth on. -/
theorem TerminalExpr.returned (hΓ : Γ.WellFormed) {e : Expr} (hs : TerminalExpr Γ text e)
    (he : e.WellFormed Γ) : FromDepth (Returned Γ text e) := by
  have hb := bounded_interp hΓ text
  -- a probe one deeper than what it asks
  have slow : ∀ {f : ParseContext → Outcome} {g : Bool → Bool}, CallReturns text f →
      CallReturns text fun ctx => (f ctx).map fun r => (g r.1, r.2) := by
    intro f g hf ctx hp
    rcases hr : f ctx with - | r
    · exact absurd hr (hf ctx hp)
    · simp [hr]
  induction hs with
  | literal | characterRange | anyCharacter =>
    refine ⟨2, fun n hn => ?_⟩
    obtain ⟨k, rfl⟩ : ∃ k, n = k + 2 := ⟨n - 2, by omega⟩
    refine ⟨fun p _ => ?_, fun ctx _ => ?_, fun ctx _ => ?_, fun ctx _ => ?_⟩
      <;> exact Option.some_ne_none _
  | @group es hes ih =>
    have hsub : ∀ e ∈ es, e.WellFormed Γ := fun e he' => he.sub he'
    refine (FromDepth.forall_mem fun e he' => ih e he' (hsub e he')).step fun n hn => ?_
    have hn' : ∀ e ∈ es, e.WellFormed Γ ∧ Returned Γ text e n :=
      fun e he' => ⟨hsub e he', hn e he'⟩
    refine ⟨fun p hp => ?_, fun ctx hp => group_returns (hb n) hn' hp,
      fun ctx hp => fastProbeElements_returns (hb n) hn hp,
      fun ctx hp => fastProbeElements_returns (hb n) hn hp⟩
    exact terminalSequence_returns (hb n).terminal
      (fun e he' => ⟨hsub e he', (hn e he').terminal⟩) hp
  | @orderedChoice es hes ih =>
    have hsub : ∀ e ∈ es, e.WellFormed Γ := fun e he' => he.sub he'
    refine (FromDepth.forall_mem fun e he' => ih e he' (hsub e he')).step fun n hn => ?_
    have hn' : ∀ e ∈ es, e.WellFormed Γ ∧ Returned Γ text e n :=
      fun e he' => ⟨hsub e he', hn e he'⟩
    refine ⟨fun p hp => terminalAny_returns (fun e he' => (hn e he').terminal) hp,
      fun ctx hp => choice_returns (hb n) hn' hp, fun ctx hp => ?_, fun ctx hp => ?_⟩
    · refine anyChoice_returns (fun e he' => (hn e he').probe) (fun e _ ctx ctx' hp hr => ?_) hp
      exact ((hb n).probe false .noop e ctx _ _ hr).symm ▸ hp
    · refine anyChoice_returns (fun e he' => (hn e he').fastProbe) (fun e _ ctx ctx' hp hr => ?_) hp
      exact ((hb n).fastProbe false .noop e ctx _ _ hr).symm ▸ hp
  | @unorderedGroup es hes ih =>
    have hc := he.checked
    have hsub : ∀ e ∈ es, e.WellFormed Γ := fun e he' => he.sub he'
    have hall := FromDepth.forall_mem fun e he' => ih e he' (hsub e he')
    refine Returned.ofParse (hall.step fun n hn p hp => ?_) (hall.step fun n hn ctx hp => ?_)
      (fun n hn => defaultProbe_returns hn) fun n hn => hn
    · exact terminalUnorderedGroup_returns (hb n).terminal
        (fun e he' => ⟨⟨hsub e he', hc.2 e he'⟩, (hn e he').terminal⟩) hp
    · exact (hb n).unorderedGroup_returns Skipper.noop_wellFormed skipperReturns_noop
        (fun e he' => ⟨⟨hsub e he', hc.2 e he'⟩, (hn e he').parse⟩) hp
  | @repetition min max e hs ih =>
    have hc := he.checked
    have hsub : e.WellFormed Γ := he.sub (by simp [Expr.children])
    refine (ih hsub).step fun n hn => ?_
    refine ⟨fun p hp => ?_, fun ctx hp => ?_, hn.fastProbe, hn.fastProbe⟩
    · exact terminalRepetition_returns (hb n).terminal hsub hn.terminal hc.1 hp
    · exact (hb n).repetition_returns Skipper.noop_wellFormed skipperReturns_noop hsub hn.parse hp
        hc.1
  | @andPredicate e hs ih =>
    have hsub : e.WellFormed Γ := he.sub (by simp [Expr.children])
    obtain ⟨N, hN⟩ := ih hsub
    refine ⟨N + 2, fun n hn => ?_⟩
    obtain ⟨k, rfl⟩ : ∃ k, n = k + 2 := ⟨n - 2, by omega⟩
    have h₁ := hN (k + 1) (by omega)
    have h₀ := hN k (by omega)
    refine ⟨fun p hp => ?_, h₁.probe, h₁.probe, h₀.probe⟩
    have ht := h₁.terminal p hp
    change ((interp Γ text (k + 1)).terminal e p).map _ ≠ none
    simpa using ht
  | @notPredicate e hs ih =>
    have hsub : e.WellFormed Γ := he.sub (by simp [Expr.children])
    obtain ⟨N, hN⟩ := ih hsub
    refine ⟨N + 2, fun n hn => ?_⟩
    obtain ⟨k, rfl⟩ : ∃ k, n = k + 2 := ⟨n - 2, by omega⟩
    have h₁ := hN (k + 1) (by omega)
    have h₀ := hN k (by omega)
    refine ⟨fun p hp => ?_, slow h₁.probe, slow h₁.probe, slow h₀.probe⟩
    have ht := h₁.terminal p hp
    change ((interp Γ text (k + 1)).terminal e p).map _ ≠ none
    simpa using ht
  | @terminalRule r h =>
    refine Returned.ofParse (h.step fun n hn => hn) (h.step fun n hn ctx hp => ?_)
      (fun n hn => defaultProbe_returns hn) fun n hn => hn
    have hr := hn ctx.cursor hp
    change ((interp Γ text n).terminal (Γ.terminalRule r) ctx.cursor).map _ ≠ none
    simpa using hr
  | @skipperWrapped s base hnoop hs ih =>
    have hsub : base.WellFormed Γ := he.sub (by simp [Expr.children])
    obtain ⟨N, hN⟩ := ih hsub
    refine ⟨N + 3, fun n hn => ?_⟩
    obtain ⟨k, rfl⟩ : ∃ k, n = k + 3 := ⟨n - 3, by omega⟩
    have hparse : ∀ j ≥ N, ParseReturns text (interp Γ text (j + 1)) false .noop
        (.skipperWrapped s base) := by
      intro j hj ctx hp
      change (interp Γ text j).parse false (Γ.skipper s) base ctx ≠ none
      rw [hnoop]
      exact (hN j hj).parse ctx hp
    have hprobe : ∀ j ≥ N, CallReturns text
        ((interp Γ text (j + 2)).probe false .noop (.skipperWrapped s base)) := by
      intro j hj ctx hp
      change (interp Γ text (j + 1)).probeStep Γ text false .noop (.skipperWrapped s base) ctx
        ≠ none
      rw [Interp.probeStep]
      split
      · exact (hN (j + 1) (by omega)).probe ctx hp
      · exact defaultProbe_returns (hparse j hj) ctx hp
    refine ⟨(hN (k + 2) (by omega)).terminal, hparse _ (by omega), hprobe _ (by omega), ?_⟩
    intro ctx hp
    change (interp Γ text (k + 2)).fastProbeStep Γ false .noop (.skipperWrapped s base) ctx ≠ none
    rw [Interp.fastProbeStep]
    split
    · exact (hN (k + 2) (by omega)).fastProbe ctx hp
    · exact hprobe k (by omega) ctx hp

end Pegium
