/-
Pegium/Parser/FailureSafe.lean

A strict parse that fails leaves the state as it was.

The flag `isFailureSafe` lets `attempt_parse_strict` skip the save and restore
around an expression.  The flag is right: the refinement proof shows, for each
combinator, that its own failure path undoes its partial work.  What follows for
the combinators that try alternatives is that every alternative starts from the
same context.
-/
import Pegium.Parser.Refinement

namespace Pegium

/-- A builder state reached from the empty one by building, marking and rewinding
to live marks. -/
def CstBuilder.Reachable (b : CstBuilder GrammarElement) : Prop :=
  ∃ cs s, Session.start.calls true cs = some s ∧ s.builder = b

/-- A reachable builder state is one of the tree builder. -/
theorem CstBuilder.Reachable.eq_toCstBuilder {b : CstBuilder GrammarElement}
    (h : b.Reachable) : ∃ tb : TreeBuilder GrammarElement, b = tb.toCstBuilder := by
  obtain ⟨cs, s, hcs, rfl⟩ := h
  exact ⟨_, (Session.tracks_start.calls hcs).builder⟩

/-- A context over a reachable builder is a position over a tree builder. -/
theorem ParseContext.eq_ctx {ctx : ParseContext} (h : ctx.builder.Reachable) :
    ∃ (pos : Position) (tb : TreeBuilder GrammarElement), ctx = pos.ctx tb := by
  obtain ⟨tb, hb⟩ := h.eq_toCstBuilder
  refine ⟨⟨ctx.cursor, ctx.lastVisibleCursor⟩, tb, ?_⟩
  rw [Position.ctx, ← hb]

theorem Sim.restored {safe : Prop} {tb : TreeBuilder GrammarElement} {pos : Position}
    {r : Outcome} {a : Option (Option Match)} (h : Sim safe tb pos r a) (hs : safe)
    {ctx : ParseContext} (hr : r = some (false, ctx)) : ctx = pos.ctx tb := by
  cases h with
  | bot => cases hr
  | fail ctx' _ hrest =>
    simp only [Option.some.injEq, Prod.mk.injEq, true_and] at hr
    exact hr ▸ hrest hs
  | ok m => simp at hr

variable {Γ : Grammar} {text : List UInt8} {n : ℕ} {tracked : Bool} {sk : Skipper}

/-- A failure-safe expression that fails leaves the context of the call. -/
theorem parse_restores {e : Expr} (he : e.isFailureSafe = true) {ctx ctx' : ParseContext}
    (hb : ctx.builder.Reachable)
    (h : (interp Γ text n).parse tracked sk e ctx = some (false, ctx')) : ctx' = ctx := by
  obtain ⟨pos, tb, rfl⟩ := ParseContext.eq_ctx hb
  exact ((simulates_interp Γ text n).parse tracked sk e tb pos).restored he h

/-- A failed attempt leaves the context of the call, for every expression. -/
theorem attempt_restores {e : Expr} {ctx ctx' : ParseContext} (hb : ctx.builder.Reachable)
    (h : (interp Γ text n).attempt_parse_strict tracked sk e ctx = some (false, ctx')) :
    ctx' = ctx := by
  obtain ⟨pos, tb, rfl⟩ := ParseContext.eq_ctx hb
  exact ((simulates_interp Γ text n).attempt e).restored trivial h

/-! ### Alternatives start from the same context -/

/-- The first alternative that succeeds when every one is tried on `ctx`. -/
def firstFrom (f : Expr → ParseContext → Outcome) (ctx : ParseContext) :
    List Expr → Outcome
  | [] => some (false, ctx)
  | e :: es =>
    match f e ctx with
    | none => none
    | some (true, ctx') => some (true, ctx')
    | some (false, _) => firstFrom f ctx es

theorem anyChoice_eq_firstFrom {ctx : ParseContext} (hb : ctx.builder.Reachable)
    (es : List Expr) :
    Interp.anyChoice ((interp Γ text n).attempt_parse_strict tracked sk) es ctx
      = firstFrom ((interp Γ text n).attempt_parse_strict tracked sk) ctx es := by
  induction es with
  | nil => rfl
  | cons e es ih =>
    rw [Interp.anyChoice, firstFrom]
    rcases h : (interp Γ text n).attempt_parse_strict tracked sk e ctx with - | ⟨- | -, ctx'⟩
    · rfl
    · rw [attempt_restores hb h]
      exact ih
    · rfl

/-- The first element not yet matched that succeeds when every one is tried on
`ctx`. -/
def firstUnmatchedFrom (f : Expr → ParseContext → Outcome) (ctx : ParseContext) :
    List (Expr × Bool) → Option (Option (List (Expr × Bool)) × ParseContext)
  | [] => some (none, ctx)
  | (e, true) :: es =>
    (firstUnmatchedFrom f ctx es).map fun r => (r.1.map ((e, true) :: ·), r.2)
  | (e, false) :: es =>
    match f e ctx with
    | none => none
    | some (true, ctx') => some (some ((e, true) :: es), ctx')
    | some (false, _) =>
      (firstUnmatchedFrom f ctx es).map fun r => (r.1.map ((e, false) :: ·), r.2)

theorem tryMatchOne_eq_firstUnmatchedFrom {ctx : ParseContext} (hb : ctx.builder.Reachable)
    (es : List (Expr × Bool)) :
    (interp Γ text n).tryMatchOne tracked sk es ctx
      = firstUnmatchedFrom ((interp Γ text n).attempt_parse_strict tracked sk) ctx es := by
  induction es with
  | nil => rfl
  | cons e es ih =>
    obtain ⟨e, flag⟩ := e
    cases flag with
    | true =>
      rw [Interp.tryMatchOne, firstUnmatchedFrom, ih]
      rcases firstUnmatchedFrom _ ctx es with - | r <;> rfl
    | false =>
      rw [Interp.tryMatchOne, firstUnmatchedFrom]
      rcases h : (interp Γ text n).attempt_parse_strict tracked sk e ctx with - | ⟨- | -, ctx'⟩
      · rfl
      · simp only [attempt_restores hb h, ih]
        rcases firstUnmatchedFrom _ ctx es with - | r <;> rfl
      · rfl

/-- A loop whose item fails after a skip: the item leaves the context it was
given, and the loop goes back to the context before the skip. -/
theorem item_restores {e : Expr} {ctx ctx₁ ctx₂ : ParseContext} (hb : ctx.builder.Reachable)
    (hskip : (interp Γ text n).skip text sk ctx = some ctx₁)
    (hitem : (interp Γ text n).attempt_parse_strict tracked sk e ctx₁ = some (false, ctx₂)) :
    ctx₂ = ctx₁ ∧ ctx₂.rewind ctx.mark = ctx := by
  obtain ⟨pos, tb, rfl⟩ := ParseContext.eq_ctx hb
  have hsim := simulates_interp Γ text n
  rw [hsim.skip] at hskip
  obtain ⟨s, -, rfl⟩ := Option.map_eq_some_iff.mp hskip
  have ha := @Simulates.attempt (tb.append s.forest) s.stop _ _ tracked sk hsim e
  have heq : ctx₂ = s.ctx tb := ha.restored trivial hitem
  rw [heq]
  exact ⟨rfl, s.grown.rewind⟩

/-- **Strict failure leaves the state as it was.**  A failure-safe expression
that fails leaves the context of the call; a failed attempt of any expression
does; and so ordered choices, unordered groups and repetitions try every
alternative from the same context. -/
theorem strict_failure_restores (Γ : Grammar) (text : List UInt8) (n : ℕ) (tracked : Bool)
    (sk : Skipper) {ctx : ParseContext} (hb : ctx.builder.Reachable) :
    (∀ e ctx', e.isFailureSafe = true →
      (interp Γ text n).parse tracked sk e ctx = some (false, ctx') → ctx' = ctx) ∧
    (∀ e ctx', (interp Γ text n).attempt_parse_strict tracked sk e ctx = some (false, ctx') →
      ctx' = ctx) ∧
    (∀ es, (interp Γ text (n + 1)).parse tracked sk (.orderedChoice es) ctx
      = firstFrom ((interp Γ text n).attempt_parse_strict tracked sk) ctx es) ∧
    (∀ es, (interp Γ text n).tryMatchOne tracked sk es ctx
      = firstUnmatchedFrom ((interp Γ text n).attempt_parse_strict tracked sk) ctx es) ∧
    (∀ e ctx₁ ctx₂, (interp Γ text n).skip text sk ctx = some ctx₁ →
      (interp Γ text n).attempt_parse_strict tracked sk e ctx₁ = some (false, ctx₂) →
      ctx₂ = ctx₁ ∧ ctx₂.rewind ctx.mark = ctx) := by
  refine ⟨?_, ?_, ?_, ?_, ?_⟩
  · intro e ctx' he h
    exact parse_restores he hb h
  · intro e ctx' h
    exact attempt_restores hb h
  · intro es
    exact anyChoice_eq_firstFrom hb es
  · intro es
    exact tryMatchOne_eq_firstUnmatchedFrom hb es
  · intro e ctx₁ ctx₂ hskip hitem
    exact item_restores hb hskip hitem

/-- One or more `ab` on `ac`: the sequence fails at its second element, after its
first has recorded a leaf. -/
theorem strict_failure_restores_plus :
    let e : Expr := .repetition 1 none (.group [.literal 0 [97] true, .literal 1 [98] true])
    ∃ ctx', (interp (.sample e false) [97, 99] 4).parse false .noop e .initial
        = some (false, ctx') ∧
      ctx' = .initial := by
  intro e
  have hb : (ParseContext.initial.builder).Reachable := ⟨[], .start, rfl, rfl⟩
  exact ⟨_, rfl,
    (strict_failure_restores (.sample e false) [97, 99] 4 false .noop hb).1 e _ rfl rfl⟩

end Pegium
