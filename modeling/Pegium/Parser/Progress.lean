/-
Pegium/Parser/Progress.lean

Strict parsing advances and stops at the end of the text.

Every successful parse is a good step of the cursor, strict when the expression
does not declare itself nullable; every call, successful or not, leaves the
cursor at or after its start and inside the text, and a probe leaves it where it
was.  There is one lemma for each helper of `Strict.lean`, and the bounds of all
operations are proved together by induction on the depth of calls
(`bounded_interp`).
-/
import Pegium.Parser.TerminalBounds

namespace Pegium

variable {Γ : Grammar} {text : List UInt8}

/-! ### Parsing -/

/-- The outcome of a call at cursor `p`: whatever the answer the cursor is at or
after `p` and inside the text, and a success is strict under `strict`. -/
def Within (text : List UInt8) (strict : Prop) (p : ℕ) (r : Outcome) : Prop :=
  ∀ b ctx, r = some (b, ctx) → GoodStep text (b = true ∧ strict) p ctx.cursor

/-- The outcome of a probe at cursor `p`: the cursor is still there. -/
def Still (p : ℕ) (r : Outcome) : Prop := ∀ b ctx, r = some (b, ctx) → ctx.cursor = p

namespace Within

variable {strict strict' : Prop} {p : ℕ} {r : Outcome}

theorem mono (h : Within text strict p r) (hs : strict' → strict) : Within text strict' p r :=
  fun b ctx hr => (h b ctx hr).mono fun hb => ⟨hb.1, hs hb.2⟩

/-- The outcome at the position of the call. -/
theorem here {b : Bool} {ctx : ParseContext} (hp : ctx.cursor ≤ text.length)
    (hs : ¬ (b = true ∧ strict)) : Within text strict ctx.cursor (some (b, ctx)) := by
  intro b' ctx' h
  simp only [Option.some.injEq, Prod.mk.injEq] at h
  obtain ⟨rfl, rfl⟩ := h
  exact .refl hp hs

theorem none : Within text strict p none := fun _ _ h => by cases h

/-- A call after a step. -/
theorem after {q : ℕ} (h : GoodStep text strict' p q) (hr : Within text strict q r) :
    Within text (strict' ∨ strict) p r := fun b ctx hb =>
  (h.trans (hr b ctx hb)).mono fun hs => hs.2.imp id fun h => ⟨hs.1, h⟩

theorem andThen {k : ParseContext → Outcome} (h : Within text strict p r)
    (hk : ∀ ctx, ctx.cursor ≤ text.length → Within text strict' ctx.cursor (k ctx)) :
    Within text (strict ∨ strict') p (Pegium.andThen r k) := by
  rcases r with - | ⟨- | -, ctx⟩
  · exact .none
  · intro b ctx' hb
    have hstep := h false ctx rfl
    simp only [Pegium.andThen, Option.some.injEq, Prod.mk.injEq] at hb
    obtain ⟨rfl, rfl⟩ := hb
    exact hstep.mono fun h => absurd h.1 Bool.false_ne_true
  · have hstep := h true ctx rfl
    exact (after hstep (hk ctx hstep.le_length)).mono fun hs => hs.imp (⟨rfl, ·⟩) id

theorem orElse {k : ParseContext → Outcome} (h : Within text strict p r)
    (hk : ∀ ctx, GoodStep text False p ctx.cursor → Within text strict p (k ctx)) :
    Within text strict p (Pegium.orElse r k) := by
  rcases r with - | ⟨- | -, ctx⟩
  · exact .none
  · exact hk ctx ((h false ctx rfl).mono False.elim)
  · exact h

theorem skip {rec : Matcher} (hrec : MatcherBounded Γ text rec) {sk : Skipper}
    (hsk : sk.WellFormed Γ) {ctx ctx' : ParseContext} (hp : ctx.cursor ≤ text.length)
    (h : ctx.skip text rec sk = some ctx') : GoodStep text False ctx.cursor ctx'.cursor := by
  rw [ParseContext.skip] at h
  rcases hs : skipFrom text rec sk ctx.cursor with - | ⟨leaves, q⟩ <;> simp only [hs] at h
  · cases h
  · simp only [Option.some.injEq] at h
    subst h
    exact (skipFrom_bounds hrec hsk hp hs).1

/-- A call followed by changes of the builder alone. -/
theorem build {k : ParseContext → ParseContext} (h : Within text strict p r)
    (hk : ∀ ctx, (k ctx).cursor = ctx.cursor) :
    Within text strict p (Pegium.andThen r fun ctx => some (true, k ctx)) := by
  rcases r with - | ⟨- | -, ctx⟩
  · exact .none
  · exact h
  · intro b ctx' hb
    simp only [Pegium.andThen, Option.some.injEq, Prod.mk.injEq] at hb
    obtain ⟨rfl, rfl⟩ := hb
    rw [hk]
    exact h true ctx rfl

end Within

namespace Still

variable {p : ℕ} {r : Outcome}

theorem here {b : Bool} {ctx : ParseContext} : Still ctx.cursor (some (b, ctx)) := by
  intro b' ctx' h
  simp only [Option.some.injEq, Prod.mk.injEq] at h
  exact h.2 ▸ rfl

theorem orElse {k : ParseContext → Outcome} (h : Still p r)
    (hk : ∀ ctx, ctx.cursor = p → Still p (k ctx)) : Still p (Pegium.orElse r k) := by
  rcases r with - | ⟨- | -, ctx⟩
  · exact h
  · exact hk ctx (h _ _ rfl)
  · exact h

theorem map {f : Bool → Bool} (h : Still p r) : Still p (r.map fun c => (f c.1, c.2)) := by
  intro b ctx hb
  obtain ⟨⟨b', ctx'⟩, hr, heq⟩ := Option.map_eq_some_iff.mp hb
  simp only [Prod.mk.injEq] at heq
  exact heq.2 ▸ h b' ctx' hr

end Still

/-- The bounds of all operations of an interpretation. -/
structure Interp.Bounded (Γ : Grammar) (text : List UInt8) (I : Interp) : Prop where
  terminal : MatcherBounded Γ text I.terminal
  parse : ∀ tracked (sk : Skipper) (e : Expr) (ctx : ParseContext), sk.WellFormed Γ →
    e.WellFormed Γ → ctx.cursor ≤ text.length →
    Within text (e.nullable Γ = false) ctx.cursor (I.parse tracked sk e ctx)
  probe : ∀ tracked sk e ctx, Still ctx.cursor (I.probe tracked sk e ctx)
  fastProbe : ∀ tracked sk e ctx, Still ctx.cursor (I.fastProbe tracked sk e ctx)
  probeMatchHere : ∀ sk e ctx, Still ctx.cursor (I.probeMatchHere sk e ctx)

namespace Interp.Bounded

variable {I : Interp} (h : I.Bounded Γ text) {tracked : Bool} {sk : Skipper}
  (hsk : sk.WellFormed Γ) {ctx : ParseContext}

section Combinators

include h hsk

theorem attempt {e : Expr} (he : e.WellFormed Γ) (hp : ctx.cursor ≤ text.length) :
    Within text (e.nullable Γ = false) ctx.cursor
      (I.attempt_parse_strict tracked sk e ctx) := by
  have hparse := h.parse tracked sk e ctx hsk he hp
  rw [Interp.attempt_parse_strict]
  split
  · exact hparse
  · exact hparse.orElse fun ctx' _ => .here hp (by simp)

/-- A call after a skip. -/
theorem afterSkip {strict : Prop} {k : ParseContext → Outcome} (hp : ctx.cursor ≤ text.length)
    (hk : ∀ ctx', GoodStep text False ctx.cursor ctx'.cursor →
      Within text strict ctx'.cursor (k ctx')) :
    Within text strict ctx.cursor
      (match I.skip text sk ctx with
        | none => none
        | some ctx' => k ctx') := by
  rcases hs : I.skip text sk ctx with - | ctx'
  · exact .none
  · have hstep := Within.skip h.terminal hsk hp hs
    exact (Within.after hstep (hk ctx' hstep)).mono .inr

theorem parseElements {es : List Expr} (hes : ∀ e ∈ es, e.WellFormed Γ)
    (hp : ctx.cursor ≤ text.length) :
    Within text (es.all (Expr.nullable Γ) = false) ctx.cursor
      (I.parseElements text tracked sk es ctx) := by
  induction es generalizing ctx with
  | nil => exact .here hp (by simp)
  | cons e es ih =>
    refine h.afterSkip hsk hp fun ctx' hstep => ?_
    have he := h.parse tracked sk e ctx' hsk (hes e List.mem_cons_self) hstep.le_length
    refine (he.andThen fun ctx'' hp'' =>
      ih (fun e he => hes e (List.mem_cons_of_mem _ he)) hp'').mono fun hs => ?_
    rwa [List.all_cons, Bool.and_eq_false_iff] at hs

theorem parseGroup {es : List Expr} (hes : ∀ e ∈ es, e.WellFormed Γ)
    (hp : ctx.cursor ≤ text.length) :
    Within text (es.all (Expr.nullable Γ) = false) ctx.cursor
      (I.parseGroup text tracked sk es ctx) := by
  cases es with
  | nil => exact .here hp (by simp)
  | cons e es =>
    have he := h.parse tracked sk e ctx hsk (hes e List.mem_cons_self) hp
    refine (he.andThen fun ctx' hp' =>
      h.parseElements hsk (fun e he => hes e (List.mem_cons_of_mem _ he)) hp').mono fun hs => ?_
    rwa [List.all_cons, Bool.and_eq_false_iff] at hs

theorem choice {es : List Expr} (hes : ∀ e ∈ es, e.WellFormed Γ)
    (hp : ctx.cursor ≤ text.length) :
    Within text (es.any (Expr.nullable Γ) = false) ctx.cursor
      (anyChoice (I.attempt_parse_strict tracked sk) es ctx) := by
  induction es generalizing ctx with
  | nil => exact .here hp (by simp)
  | cons e es ih =>
    have he := @attempt _ _ I h tracked sk hsk ctx e (hes e List.mem_cons_self) hp
    refine (he.mono fun hs => ?_).orElse fun ctx' hstep => ?_
    · rw [List.any_cons, Bool.or_eq_false_iff] at hs
      exact hs.1
    · refine (Within.after hstep (ih (fun e he => hes e (List.mem_cons_of_mem _ he))
        hstep.le_length)).mono fun hs => .inr ?_
      rw [List.any_cons, Bool.or_eq_false_iff] at hs
      exact hs.2

/-- One iteration of a loop, continued by `k` after an item and ended by going
back to the context it began with. -/
theorem iteration {e : Expr} (he : e.WellFormed Γ) {b : Bool} {strict : Prop}
    {k : ParseContext → Outcome} (hp : ctx.cursor ≤ text.length)
    (hb : ¬ (b = true ∧ strict))
    (hk : ∀ ctx', ctx'.cursor ≤ text.length → Within text False ctx'.cursor (k ctx')) :
    Within text (e.nullable Γ = false ∧ strict) ctx.cursor
      (match I.skip text sk ctx with
        | none => none
        | some ctx' =>
          match I.attempt_parse_strict tracked sk e ctx' with
          | none => none
          | some (false, ctx'') => some (b, ctx''.rewind ctx.mark)
          | some (true, ctx'') => k ctx'') := by
  rcases hs : I.skip text sk ctx with - | ctx'
  · exact .none
  · have hstep := Within.skip h.terminal hsk hp hs
    have ha := @attempt _ _ I h tracked sk hsk ctx' e he hstep.le_length
    dsimp only
    rcases hr : I.attempt_parse_strict tracked sk e ctx' with - | ⟨- | -, ctx''⟩
    · exact .none
    · exact @Within.here _ _ b (ctx''.rewind ctx.mark) hp fun hs => hb ⟨hs.1, hs.2.2⟩
    · have hitem := ha true ctx'' hr
      have hrest := Within.after (hstep.trans hitem) (hk ctx'' hitem.le_length)
      exact hrest.mono fun hs => .inl (.inr ⟨rfl, hs.1⟩)

variable {e : Expr} (he : e.WellFormed Γ) (hp : ctx.cursor ≤ text.length)
include he hp

theorem starLoop {budget : ℕ} :
    Within text False ctx.cursor (I.starLoop text tracked sk e budget ctx) := by
  induction budget generalizing ctx with
  | zero => exact .none
  | succ budget ih =>
    exact (h.iteration hsk he hp (fun hb => hb.2) fun _ hp => ih hp).mono fun hs => ⟨hs.elim, hs⟩

theorem upToLoop {count : ℕ} :
    Within text False ctx.cursor (I.upToLoop text tracked sk e count ctx) := by
  induction count generalizing ctx with
  | zero => exact .here hp fun h => h.2
  | succ count ih =>
    exact (h.iteration hsk he hp (fun hb => hb.2) fun _ hp => ih hp).mono fun hs => ⟨hs.elim, hs⟩

theorem minLoop {count : ℕ} :
    Within text False ctx.cursor (I.minLoop text tracked sk e count ctx) := by
  induction count generalizing ctx with
  | zero => exact .here hp fun h => h.2
  | succ count ih =>
    exact (h.iteration hsk he hp (fun hb => hb.2) fun _ hp => ih hp).mono fun hs => ⟨hs.elim, hs⟩

theorem fixedLoop {count : ℕ} :
    Within text False ctx.cursor (I.fixedLoop text tracked sk e count ctx) := by
  induction count generalizing ctx with
  | zero => exact .here hp fun h => h.2
  | succ count ih =>
    refine h.afterSkip hsk hp fun ctx' hstep => ?_
    exact ((h.parse tracked sk e ctx' hsk he hstep.le_length).andThen fun _ hp => ih hp).mono .inr

omit h hsk he hp in
theorem total {strict : Prop} {p : ℕ} {r : Outcome} (hr : Within text strict p r) :
    Within text False p (r.map fun c => (true, c.2)) := by
  rcases r with - | ⟨b, ctx⟩
  · exact .none
  · intro b' ctx' hb
    simp only [Option.map_some, Option.some.injEq, Prod.mk.injEq] at hb
    obtain ⟨rfl, rfl⟩ := hb
    exact (hr b ctx rfl).mono fun h => h.2.elim

theorem repetition (hn : e.nullable Γ = false) {min : ℕ} {max : Option ℕ} :
    Within text (0 < min) ctx.cursor (I.parseRepetition text tracked sk min max e ctx) := by
  have hitem : Within text (e.nullable Γ = false) ctx.cursor
      (I.attempt_parse_strict tracked sk e ctx) := h.attempt hsk he hp
  have hstar : ∀ ctx : ParseContext, ctx.cursor ≤ text.length → Within text False ctx.cursor
      (I.starLoop text tracked sk e (text.length + 1) ctx) :=
    fun ctx hp => h.starLoop hsk he hp
  have hup : ∀ count (ctx : ParseContext), ctx.cursor ≤ text.length →
      Within text False ctx.cursor (I.upToLoop text tracked sk e count ctx) :=
    fun count ctx hp => h.upToLoop hsk he hp
  have hmin : ∀ count (k : ParseContext → Outcome) (ctx : ParseContext),
      (∀ ctx : ParseContext, ctx.cursor ≤ text.length → Within text False ctx.cursor (k ctx)) →
      ctx.cursor ≤ text.length → Within text False ctx.cursor
        (Pegium.andThen (I.minLoop text tracked sk e count ctx) k) :=
    fun count k ctx hk hp => ((h.minLoop hsk he hp).andThen hk).mono .inl
  match min, max with
  | 0, some 1 => exact (total hitem).mono fun hs => absurd hs (Nat.lt_irrefl 0)
  | 0, none => exact (total (hitem.andThen hstar)).mono fun hs => absurd hs (Nat.lt_irrefl 0)
  | 1, none => exact (hitem.andThen hstar).mono fun _ => .inl hn
  | min + 2, none =>
    exact (hitem.andThen fun ctx hp => hmin _ _ ctx hstar hp).mono fun _ => .inl hn
  | 0, some 0 =>
    exact (total (hitem.andThen (hup _))).mono fun hs => absurd hs (Nat.lt_irrefl 0)
  | 0, some (max + 2) =>
    exact (total (hitem.andThen (hup _))).mono fun hs => absurd hs (Nat.lt_irrefl 0)
  | min + 1, some max =>
    simp only [Interp.parseRepetition]
    split
    · exact ((h.parse tracked sk e ctx hsk he hp).andThen
        fun _ hp => h.fixedLoop hsk he hp).mono fun _ => .inl hn
    · exact (hitem.andThen fun ctx hp => hmin _ _ ctx (hup _) hp).mono fun _ => .inl hn

omit he in
theorem tryMatchOne {es : List (Expr × Bool)}
    (hes : ∀ e ∈ es, e.1.WellFormed Γ ∧ e.1.nullable Γ = false)
    {r : Option (List (Expr × Bool))} {ctx' : ParseContext}
    (hr : I.tryMatchOne tracked sk es ctx = some (r, ctx')) :
    GoodStep text (r.isSome = true) ctx.cursor ctx'.cursor ∧
      ∀ es', r = some es' → es'.map (·.1) = es.map (·.1) := by
  induction es generalizing ctx r ctx' with
  | nil =>
    simp only [Interp.tryMatchOne, Option.some.injEq, Prod.mk.injEq] at hr
    obtain ⟨rfl, rfl⟩ := hr
    exact ⟨.refl hp (by simp), by rintro _ ⟨⟩⟩
  | cons e es ih =>
    obtain ⟨e, flag⟩ := e
    have he := hes (e, flag) List.mem_cons_self
    have hes' := fun e he => hes e (List.mem_cons_of_mem _ he)
    cases flag with
    | true =>
      rw [Interp.tryMatchOne] at hr
      rcases ht : I.tryMatchOne tracked sk es ctx with - | ⟨r₁, ctx₁⟩ <;> simp only [ht] at hr
      · cases hr
      · simp only [Option.some.injEq, Prod.mk.injEq] at hr
        obtain ⟨rfl, rfl⟩ := hr
        obtain ⟨hstep, hmap⟩ := ih hp hes' ht
        refine ⟨hstep.mono fun hs => by simpa using hs, fun es' hes' => ?_⟩
        obtain ⟨es₁, rfl, rfl⟩ := Option.map_eq_some_iff.mp hes'
        simp [hmap es₁ rfl]
    | false =>
      rw [Interp.tryMatchOne] at hr
      have ha := @attempt _ _ I h tracked sk hsk ctx e he.1 hp
      rcases ht : I.attempt_parse_strict tracked sk e ctx with - | ⟨- | -, ctx₁⟩
        <;> simp only [ht] at hr
      · cases hr
      · have h₁ := ha false ctx₁ ht
        rcases ht' : I.tryMatchOne tracked sk es ctx₁ with - | ⟨r₂, ctx₂⟩ <;> simp only [ht'] at hr
        · cases hr
        · simp only [Option.some.injEq, Prod.mk.injEq] at hr
          obtain ⟨rfl, rfl⟩ := hr
          obtain ⟨hstep, hmap⟩ := ih h₁.le_length hes' ht'
          refine ⟨(h₁.trans hstep).mono fun hs => .inr (by simpa using hs), fun es' hes' => ?_⟩
          obtain ⟨es₁, rfl, rfl⟩ := Option.map_eq_some_iff.mp hes'
          simp [hmap es₁ rfl]
      · simp only [Option.some.injEq, Prod.mk.injEq] at hr
        obtain ⟨rfl, rfl⟩ := hr
        refine ⟨(ha true ctx₁ ht).mono fun _ => ⟨rfl, he.2⟩, fun es' hes' => ?_⟩
        simp only [Option.some.injEq] at hes'
        simp [← hes']

omit h hsk he hp in
/-- The elements behind a list of flags are those of the group. -/
theorem elements_of_map {es es' : List (Expr × Bool)}
    (hes : ∀ e ∈ es, e.1.WellFormed Γ ∧ e.1.nullable Γ = false)
    (hmap : es'.map (·.1) = es.map (·.1)) :
    ∀ e ∈ es', e.1.WellFormed Γ ∧ e.1.nullable Γ = false := by
  intro e he
  have hmem : e.1 ∈ es.map (·.1) := hmap ▸ List.mem_map_of_mem he
  obtain ⟨e', he', heq⟩ := List.mem_map.mp hmem
  exact heq ▸ hes e' he'

omit he in
theorem groupLoop {count : ℕ} {es : List (Expr × Bool)}
    (hes : ∀ e ∈ es, e.1.WellFormed Γ ∧ e.1.nullable Γ = false) :
    Within text False ctx.cursor (I.groupLoop text tracked sk count es ctx) := by
  induction count generalizing ctx es with
  | zero => exact .here hp fun h => h.2
  | succ count ih =>
    rw [Interp.groupLoop]
    rcases hs : I.skip text sk ctx with - | ctx₁
    · exact .none
    · have h₁ := Within.skip h.terminal hsk hp hs
      dsimp only
      rcases hr : I.tryMatchOne tracked sk es ctx₁ with - | ⟨- | es', ctx₂⟩
      · exact .none
      · exact @Within.here _ _ false (ctx₂.rewind ctx.mark) hp fun hs => hs.2
      · obtain ⟨h₂, hmap⟩ := h.tryMatchOne hsk h₁.le_length hes hr
        have hrest := ih h₂.le_length (elements_of_map hes (hmap es' rfl))
        exact (Within.after (h₁.trans h₂) hrest).mono .inr

omit he in
theorem unorderedGroup {es : List Expr}
    (hes : ∀ e ∈ es, e.WellFormed Γ ∧ e.nullable Γ = false) :
    Within text True ctx.cursor (I.parseUnorderedGroup text tracked sk es ctx) := by
  have hes' : ∀ e ∈ es.map (·, false), e.1.WellFormed Γ ∧ e.1.nullable Γ = false := by
    simpa using hes
  rw [Interp.parseUnorderedGroup]
  refine Within.orElse ?_ fun ctx' _ => @Within.here _ _ false (ctx'.rewind ctx.mark) hp (by simp)
  rcases hr : I.tryMatchOne tracked sk (es.map (·, false)) ctx with - | ⟨- | es', ctx₁⟩
  · exact .none
  · obtain ⟨hstep, -⟩ := h.tryMatchOne hsk hp hes' hr
    exact (Within.after hstep (.here hstep.le_length (by simp))).mono .inr
  · obtain ⟨hstep, hmap⟩ := h.tryMatchOne hsk hp hes' hr
    have hrest := @groupLoop _ _ _ h tracked sk hsk ctx₁ hstep.le_length (es.length - 1) es'
      (elements_of_map hes' (hmap es' rfl))
    exact (Within.after hstep hrest).mono fun _ => .inl rfl

/-! #### Assignments and rules -/

theorem elementNode {element : GrammarElement} :
    Within text (e.nullable Γ = false) ctx.cursor
      (I.parseElementNode tracked sk element e ctx) := by
  rw [Interp.parseElementNode]
  split
  · exact (h.parse tracked sk e ctx.enter hsk he hp).build fun _ => rfl
  · refine (h.parse tracked sk e ctx hsk he hp).build fun ctx' => ?_
    split <;> rfl

omit he hsk in
theorem rule (hΓ : Γ.WellFormed) (hsk : sk.WellFormed Γ) {element : GrammarElement}
    {defn : RuleDef} (hbody : defn.body.WellFormed Γ)
    (hn : defn.body.nullable Γ = defn.nullable) :
    Within text (defn.nullable = false) ctx.cursor
      (I.parseRule Γ tracked sk element defn ctx) := by
  have hlocal : (Interp.ruleSkipper Γ sk defn).WellFormed Γ := by
    rw [Interp.ruleSkipper]
    split
    · exact hΓ.skipper _
    · exact hsk
  rw [Interp.parseRule, ← hn]
  exact (h.parse tracked _ defn.body ctx.enter hlocal hbody hp).build fun _ => rfl

/-! #### Infix rules -/

omit hsk he hp in
theorem hasOperatorFastProbe {minPrecedence : ℕ} {ops : List InfixOperator} :
    Still ctx.cursor (I.hasOperatorFastProbe tracked sk minPrecedence ops ctx) := by
  induction ops generalizing ctx with
  | nil => exact .here
  | cons op ops ih =>
    rw [Interp.hasOperatorFastProbe]
    split
    · exact (h.fastProbe tracked sk op.element ctx).orElse fun ctx' hc => hc ▸ ih
    · exact ih

omit he in
theorem attemptOperator {rule index : ℕ} {op : InfixOperator}
    (hop : op.element.WellFormed Γ ∧ op.element.nullable Γ = false) :
    Within text True ctx.cursor (I.attemptOperator tracked sk rule index op ctx) := by
  have hnode : Within text True ctx.cursor
      (I.parseElementNode tracked sk (.infixOperator rule index) op.element ctx) :=
    (h.elementNode hsk hop.1 hp).mono fun _ => hop.2
  rw [Interp.attemptOperator]
  split
  · exact hnode
  · exact hnode.orElse fun ctx' _ =>
      @Within.here _ _ false (ctx'.rewind ctx.mark) hp (by simp)

omit he in
theorem tryMatchOperator {rule minPrecedence index : ℕ} {operators ops : List InfixOperator}
    (hops : ∀ op ∈ ops, op.element.WellFormed Γ ∧ op.element.nullable Γ = false)
    {r : Option ℕ} {ctx' : ParseContext}
    (hr : I.tryMatchOperator text tracked sk rule operators minPrecedence index ops ctx
      = some (r, ctx')) : GoodStep text (r.isSome = true) ctx.cursor ctx'.cursor := by
  induction ops generalizing ctx index with
  | nil =>
    simp only [Interp.tryMatchOperator, Option.some.injEq, Prod.mk.injEq] at hr
    obtain ⟨rfl, rfl⟩ := hr
    exact .refl hp (by simp)
  | cons op ops ih =>
    have hop := hops op List.mem_cons_self
    have hops' := fun op hop => hops op (List.mem_cons_of_mem _ hop)
    rw [Interp.tryMatchOperator] at hr
    split at hr
    · simp only [Option.some.injEq, Prod.mk.injEq] at hr
      obtain ⟨rfl, rfl⟩ := hr
      exact .refl hp (by simp)
    · rcases hf : I.fastProbe tracked sk op.element ctx with - | ⟨- | -, ctx₁⟩
        <;> simp only [hf] at hr
      · cases hr
      · have hc : ctx₁.cursor = ctx.cursor := h.fastProbe tracked sk op.element ctx _ _ hf
        exact hc ▸ ih (hc ▸ hp) hops' hr
      · have hc : ctx₁.cursor = ctx.cursor := h.fastProbe tracked sk op.element ctx _ _ hf
        have ha := @attemptOperator _ _ _ h tracked sk hsk ctx₁ (hc ▸ hp) rule index op hop
        rw [hc] at ha
        rcases hm : I.attemptOperator tracked sk rule index op ctx₁ with - | ⟨- | -, ctx₂⟩
          <;> simp only [hm] at hr
        · cases hr
        · have h₂ := ha _ _ hm
          exact (h₂.trans (ih h₂.le_length hops' hr)).mono .inr
        · have h₂ := ha _ _ hm
          split at hr
          · have hback : (ctx₂.rewind ctx₁.mark).cursor = ctx.cursor := hc
            exact hback ▸ ih (hback ▸ hp) hops' hr
          · simp only [Option.some.injEq, Prod.mk.injEq] at hr
            obtain ⟨rfl, rfl⟩ := hr
            exact h₂.mono fun _ => ⟨rfl, trivial⟩

omit he in
theorem parseTail {rule : ℕ} {defn : InfixDef} {budget minPrecedence lhsStart : ℕ}
    (hprimary : (Expr.parserRule defn.primary).WellFormed Γ)
    (hops : ∀ op ∈ defn.operators, op.element.WellFormed Γ ∧ op.element.nullable Γ = false)
    {ctx' : ParseContext}
    (hr : I.parseTail text tracked sk rule defn budget minPrecedence lhsStart ctx = some ctx') :
    GoodStep text False ctx.cursor ctx'.cursor := by
  induction budget generalizing ctx ctx' minPrecedence lhsStart with
  | zero => cases hr
  | succ budget ih =>
    rw [Interp.parseTail] at hr
    split at hr
    · simp only [Option.some.injEq] at hr
      exact hr ▸ .refl hp not_false
    · rcases hf : I.hasOperatorFastProbe tracked sk minPrecedence defn.operators ctx
        with - | ⟨- | -, ctx₁⟩ <;> simp only [hf] at hr
      · cases hr
      · have hc : ctx₁.cursor = ctx.cursor := h.hasOperatorFastProbe _ _ hf
        simp only [Option.some.injEq] at hr
        have hstep : GoodStep text False ctx.cursor ctx₁.cursor := by
          rw [hc]
          exact .refl hp not_false
        exact hr ▸ hstep
      · have hc : ctx₁.cursor = ctx.cursor := h.hasOperatorFastProbe _ _ hf
        have hback : ∀ ctx'' : ParseContext, some (ctx''.rewind ctx₁.mark) = some ctx' →
            GoodStep text False ctx.cursor ctx'.cursor := by
          intro ctx'' heq
          simp only [Option.some.injEq] at heq
          subst heq
          have hcursor : (ctx''.rewind ctx₁.mark).cursor = ctx.cursor := hc
          rw [hcursor]
          exact .refl hp not_false
        rcases ho : I.tryMatchOperator text tracked sk rule defn.operators minPrecedence 0
          defn.operators ctx₁.enter with - | ⟨- | next, ctx₂⟩ <;> simp only [ho] at hr
        · cases hr
        · exact hback _ hr
        · have h₂ := h.tryMatchOperator hsk (show ctx₁.enter.cursor ≤ text.length from hc ▸ hp)
            hops ho
          rcases hs : I.skip text sk ctx₂ with - | ctx₃ <;> simp only [hs] at hr
          · cases hr
          · have h₃ := Within.skip h.terminal hsk h₂.le_length hs
            have hp₄ := h.parse tracked sk (.parserRule defn.primary) ctx₃ hsk hprimary
              h₃.le_length
            rcases hq : I.parse tracked sk (.parserRule defn.primary) ctx₃ with - | ⟨- | -, ctx₄⟩
              <;> simp only [hq] at hr
            · cases hr
            · exact hback _ hr
            · have h₄ := hp₄ _ _ hq
              rcases hs' : I.skip text sk ctx₄ with - | ctx₅ <;> simp only [hs'] at hr
              · cases hr
              · have h₅ := Within.skip h.terminal hsk h₄.le_length hs'
                rcases ht : I.parseTail text tracked sk rule defn budget next ctx₃.cursor ctx₅
                  with - | ctx₆ <;> simp only [ht] at hr
                · cases hr
                · have h₆ := ih h₅.le_length ht
                  have h₇ := @ih (ctx₆.exit lhsStart (.infixRule rule)) h₆.le_length _ _ _ hr
                  have hstart : GoodStep text False ctx.cursor ctx₂.cursor :=
                    (show ctx₁.enter.cursor = ctx.cursor from hc) ▸ h₂.mono False.elim
                  exact (((((hstart.trans h₃).trans h₄).trans h₅).trans h₆).trans h₇).mono
                    False.elim

omit he in
theorem parseInfix {rule : ℕ} {defn : InfixDef}
    (hprimary : (Expr.parserRule defn.primary).WellFormed Γ)
    (hn : (Expr.parserRule defn.primary).nullable Γ = false)
    (hops : ∀ op ∈ defn.operators, op.element.WellFormed Γ ∧ op.element.nullable Γ = false) :
    Within text True ctx.cursor (I.parseInfix text tracked sk rule defn ctx) := by
  have hfirst := h.parse tracked sk (.parserRule defn.primary) ctx hsk hprimary hp
  have hrest : ∀ ctx₁ : ParseContext, ctx₁.cursor ≤ text.length → Within text False ctx₁.cursor
      (match I.skip text sk ctx₁ with
        | none => none
        | some ctx₂ => (I.parseTail text tracked sk rule defn (text.length + 1) 0 ctx.cursor
            ctx₂).map (true, ·)) := by
    intro ctx₁ hc₁
    refine h.afterSkip hsk hc₁ fun ctx₂ h₂ b ctx' hb => ?_
    obtain ⟨ctx₃, ht, heq⟩ := Option.map_eq_some_iff.mp hb
    simp only [Prod.mk.injEq] at heq
    obtain ⟨rfl, rfl⟩ := heq
    exact (h.parseTail hsk h₂.le_length hprimary hops ht).mono fun hs => hs.2
  exact (hfirst.andThen hrest).mono fun _ => .inl hn

end Combinators

/-! #### Probes -/

theorem anyChoice_still {f : Expr → ParseContext → Outcome}
    (hf : ∀ e ctx, Still ctx.cursor (f e ctx)) (es : List Expr) :
    Still ctx.cursor (Interp.anyChoice f es ctx) := by
  induction es generalizing ctx with
  | nil => exact .here
  | cons e es ih => exact (hf e ctx).orElse fun ctx' hc => hc ▸ ih

include h

theorem fastProbeElements (es : List Expr) :
    Still ctx.cursor (I.fastProbeElements Γ tracked sk es ctx) := by
  induction es generalizing ctx with
  | nil => exact .here
  | cons e es ih =>
    refine (h.fastProbe tracked sk e ctx).orElse fun ctx' hc => ?_
    rw [← hc]
    split
    · exact ih
    · exact .here

omit h in
theorem defaultProbe (e : Expr) : Still ctx.cursor (I.defaultProbe tracked sk e ctx) := by
  intro b ctx' hb
  obtain ⟨⟨b', ctx''⟩, -, heq⟩ := Option.map_eq_some_iff.mp hb
  simp only [Prod.mk.injEq] at heq
  exact heq.2 ▸ rfl

/-! #### One unfolding -/

omit h in
theorem leaf {e : Expr} {element : GrammarElement} {q : Option ℕ} (hp : ctx.cursor ≤ text.length)
    (hq : ∀ r, q = some r → GoodStep text (e.nullable Γ = false) ctx.cursor r) :
    Within text (e.nullable Γ = false) ctx.cursor (some (parseLeaf element ctx q)) := by
  cases q with
  | none => exact .here hp (by simp)
  | some q =>
    intro b ctx' hb
    simp only [parseLeaf, Option.some.injEq, Prod.mk.injEq] at hb
    obtain ⟨rfl, rfl⟩ := hb
    exact (hq q rfl).mono fun hs => hs.2

theorem parseStep (hΓ : Γ.WellFormed) (hsk : sk.WellFormed Γ) {e : Expr} (he : e.WellFormed Γ)
    (hp : ctx.cursor ≤ text.length) :
    Within text (e.nullable Γ = false) ctx.cursor (I.parseStep Γ text tracked sk e ctx) := by
  have hc := he.checked
  have hsub : ∀ e' ∈ e.children, e'.WellFormed Γ := fun _ h => he.sub h
  cases e with
  | literal id value cs =>
    refine leaf hp fun r hr => ?_
    rw [literalMatch, Option.filter_eq_some_iff] at hr
    exact literalTerminal_bounds hc hp hr.1
  | characterRange id lookup =>
    refine leaf hp fun r hr => ?_
    have hb := characterRange_bounds hc hr
    exact ⟨Nat.le_of_lt hb.1, hb.2, fun _ => hb.1⟩
  | anyCharacter id =>
    refine leaf hp fun r hr => ?_
    have hb := consume_utf8_codepoint_bounds hr
    exact ⟨Nat.le_of_lt hb.1, hb.2, fun _ => hb.1⟩
  | group es =>
    rw [Expr.nullable, Expr.allNullable_eq]
    exact h.parseGroup hsk hsub hp
  | orderedChoice es =>
    rw [Expr.nullable, Expr.anyNullable_eq]
    exact h.choice hsk hsub hp
  | unorderedGroup es =>
    exact (h.unorderedGroup hsk hp fun e he => ⟨hsub e he, hc.2 e he⟩).mono fun _ => trivial
  | repetition min max e =>
    refine (h.repetition hsk (hsub e (by simp [Expr.children])) hp hc.1).mono fun hs => ?_
    simp only [Expr.nullable, beq_eq_false_iff_ne] at hs
    exact Nat.pos_of_ne_zero hs
  | andPredicate e =>
    intro b ctx' hb
    have hstill : ctx'.cursor = ctx.cursor := h.probe false sk e ctx b ctx' hb
    rw [hstill]
    exact .refl hp (by simp [Expr.nullable])
  | notPredicate e =>
    intro b ctx' hb
    have hprobe : Still ctx.cursor
        (if tracked then I.probeMatchHere sk e ctx else I.probe false sk e ctx) := by
      split
      · exact h.probeMatchHere sk e ctx
      · exact h.probe false sk e ctx
    have hstill : ctx'.cursor = ctx.cursor := hprobe.map b ctx' hb
    rw [hstill]
    exact .refl hp (by simp [Expr.nullable])
  | assignment id e =>
    exact (h.elementNode hsk (hsub e (by simp [Expr.children])) hp).mono fun _ => hc
  | create id | nest id =>
    intro b ctx' hb
    simp only [Interp.parseStep, Option.some.injEq, Prod.mk.injEq] at hb
    obtain ⟨rfl, rfl⟩ := hb
    exact .refl hp (by simp [Expr.nullable])
  | terminalRule r =>
    rw [Interp.parseStep]
    rcases hr : I.terminal (Γ.terminalRule r) ctx.cursor with - | q
    · exact .none
    · have hrule := hΓ.terminalRule r
      refine leaf hp fun q' hq => ?_
      exact (h.terminal _ _ q' hrule.1 hp (hq ▸ hr)).mono fun _ => hrule.2.2
  | dataTypeRule r =>
    have hr := hΓ.dataTypeRule r
    exact h.rule hp hΓ hsk hr.1 hr.2
  | parserRule r =>
    have hr := hΓ.parserRule r
    exact h.rule hp hΓ hsk hr.1 hr.2
  | infixRule r =>
    have hr := hΓ.infixRule r
    exact (h.parseInfix hsk hp (.intro trivial (by simp [Expr.children])) hr.1 hr.2.2).mono
      fun _ => trivial
  | skipperWrapped s base =>
    exact h.parse tracked _ base ctx (hΓ.skipper s) (hsub base (by simp [Expr.children])) hp

theorem probeStep (e : Expr) : Still ctx.cursor (I.probeStep Γ text tracked sk e ctx) := by
  cases e with
  | literal | characterRange | anyCharacter | create => exact .here
  | group es => exact h.fastProbeElements es
  | orderedChoice es => exact anyChoice_still (h.probe tracked sk) es
  | repetition min max e => exact h.fastProbe tracked sk e ctx
  | andPredicate e => exact h.probe false sk e ctx
  | notPredicate e => exact (h.probe false sk e ctx).map
  | skipperWrapped s base =>
    rw [Interp.probeStep]
    split
    · exact h.probe tracked sk base ctx
    · exact defaultProbe _
  | unorderedGroup | assignment | nest | terminalRule | dataTypeRule | parserRule | infixRule =>
    exact defaultProbe _

theorem fastProbeStep (e : Expr) : Still ctx.cursor (I.fastProbeStep Γ tracked sk e ctx) := by
  cases e with
  | group es => exact h.fastProbeElements es
  | orderedChoice es => exact anyChoice_still (h.fastProbe tracked sk) es
  | repetition min max e => exact h.fastProbe tracked sk e ctx
  | assignment id e => exact h.fastProbe tracked sk e ctx
  | create id => exact .here
  | parserRule r => exact h.fastProbe tracked _ _ ctx
  | infixRule r =>
    rw [Interp.fastProbeStep]
    split
    · exact h.fastProbe tracked sk _ ctx
    · exact h.probe tracked sk _ ctx
  | skipperWrapped s base =>
    rw [Interp.fastProbeStep]
    split
    · exact h.fastProbe tracked sk _ ctx
    · exact h.probe tracked sk _ ctx
  | literal | characterRange | anyCharacter | unorderedGroup | andPredicate | notPredicate | nest
  | terminalRule | dataTypeRule => exact h.probe tracked sk _ ctx

theorem probeMatchHereStep (e : Expr) :
    Still ctx.cursor (I.probeMatchHereStep Γ text sk e ctx) := by
  cases e with
  | literal => exact .here
  | orderedChoice es => exact anyChoice_still (h.probeMatchHere sk) es
  | terminalRule r => exact h.probeMatchHere sk _ ctx
  | dataTypeRule r => exact h.probeMatchHere sk _ ctx
  | parserRule r => exact h.probeMatchHere sk _ ctx
  | skipperWrapped s base =>
    rw [Interp.probeMatchHereStep]
    split
    · exact h.probeMatchHere sk _ ctx
    · exact h.probe true sk _ ctx
  | characterRange | anyCharacter | group | unorderedGroup | repetition | andPredicate
  | notPredicate | assignment | create | nest | infixRule => exact h.probe true sk _ ctx

theorem step (hΓ : Γ.WellFormed) : (I.step Γ text).Bounded Γ text where
  terminal := terminalStep_bounds hΓ h.terminal
  parse _ _ _ _ hsk he hp := h.parseStep hΓ hsk he hp
  probe _ _ e _ := h.probeStep e
  fastProbe _ _ e _ := h.fastProbeStep e
  probeMatchHere _ e _ := h.probeMatchHereStep e

omit h in
theorem bot : Interp.bot.Bounded Γ text where
  terminal _ _ _ _ _ h := by cases h
  parse _ _ _ _ _ _ _ := .none
  probe _ _ _ _ _ _ h := by cases h
  fastProbe _ _ _ _ _ _ h := by cases h
  probeMatchHere _ _ _ _ _ h := by cases h

end Interp.Bounded

/-- All calls of a well-formed grammar stay within their bounds, at every depth. -/
theorem bounded_interp (hΓ : Γ.WellFormed) (text : List UInt8) (n : ℕ) :
    (interp Γ text n).Bounded Γ text := by
  induction n with
  | zero => exact .bot
  | succ n ih => exact ih.step hΓ

end Pegium
