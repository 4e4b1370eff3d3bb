/-
Pegium/Parser/TerminalBounds.lean

Terminal matches and skips advance and stop at the end of the text.

A step from `p` to `q` is *good* when `p ≤ q ≤ size`, and strict when `p < q`.
Every successful match of a well-formed expression is a good step, strict when
the expression does not declare itself nullable: a literal never matches the
terminating zero byte, and a codepoint that is cut off is not consumed.
-/
import Pegium.Parser.FailureSafe

namespace Pegium

variable {Γ : Grammar} {text : List UInt8}

/-- A step of the cursor inside the text, strict under `strict`. -/
structure GoodStep (text : List UInt8) (strict : Prop) (p q : ℕ) : Prop where
  le : p ≤ q
  le_length : q ≤ text.length
  lt : strict → p < q

namespace GoodStep

variable {strict strict' : Prop} {p q r : ℕ}

theorem refl (hp : p ≤ text.length) (hs : ¬ strict) : GoodStep text strict p p :=
  ⟨Nat.le_refl p, hp, fun h => absurd h hs⟩

theorem trans (h : GoodStep text strict p q) (h' : GoodStep text strict' q r) :
    GoodStep text (strict ∨ strict') p r where
  le := Nat.le_trans h.le h'.le
  le_length := h'.le_length
  lt hs := hs.elim (fun hs => Nat.lt_of_lt_of_le (h.lt hs) h'.le)
    fun hs => Nat.lt_of_le_of_lt h.le (h'.lt hs)

theorem mono (h : GoodStep text strict p q) (hs : strict' → strict) :
    GoodStep text strict' p q :=
  ⟨h.le, h.le_length, fun h' => h.lt (hs h')⟩

end GoodStep

/-! ### Terminals -/

/-- Every match of a well-formed expression is a good step. -/
def MatcherBounded (Γ : Grammar) (text : List UInt8) (rec : Matcher) : Prop :=
  ∀ e p q, e.WellFormed Γ → p ≤ text.length → rec e p = some (some q) →
    GoodStep text (e.nullable Γ = false) p q

theorem literalTerminal_bounds {value : List UInt8} {cs : Bool} {p q : ℕ}
    (hv : (0 : UInt8) ∉ value) (hp : p ≤ text.length)
    (h : literalTerminal text value cs p = some q) :
    GoodStep text (value.isEmpty = false) p q := by
  induction value generalizing p with
  | nil =>
    simp only [literalTerminal, Option.some.injEq] at h
    exact h ▸ .refl hp (by simp)
  | cons c value ih =>
    simp only [List.mem_cons, not_or] at hv
    simp only [literalTerminal, Option.ite_none_right_eq_some, beq_iff_eq] at h
    obtain ⟨hc, h⟩ := h
    have hbyte : byteAt text p ≠ 0 := by
      intro h0
      rw [h0] at hc
      exact hv.1 (by cases cs <;> simpa [tolower] using hc)
    have hlt := lt_length_of_byteAt_ne hbyte
    have hstep := ih hv.2 hlt h
    exact ⟨by have := hstep.le; omega, hstep.le_length, fun _ => by have := hstep.le; omega⟩

theorem characterRange_bounds {lookup : UInt8 → Bool} {p q : ℕ} (hl : lookup 0 = false)
    (h : characterRangeTerminal text lookup p = some q) : p < q ∧ q ≤ text.length := by
  simp only [characterRangeTerminal, Option.ite_none_right_eq_some, Option.some.injEq] at h
  obtain ⟨hb, rfl⟩ := h
  have hbyte : byteAt text p ≠ 0 := by
    intro h0
    rw [h0, hl] at hb
    exact Bool.false_ne_true hb
  exact ⟨Nat.lt_succ_self p, lt_length_of_byteAt_ne hbyte⟩

section Terminal

variable {rec : Matcher} (hrec : MatcherBounded Γ text rec) {p q : ℕ}
include hrec

theorem terminalSequence_bounds {es : List Expr} (hes : ∀ e ∈ es, e.WellFormed Γ)
    (hp : p ≤ text.length) (h : terminalSequence rec es p = some (some q)) :
    GoodStep text (es.all (Expr.nullable Γ) = false) p q := by
  induction es generalizing p with
  | nil =>
    simp only [terminalSequence, Option.some.injEq] at h
    exact h ▸ .refl hp (by simp)
  | cons e es ih =>
    rw [terminalSequence] at h
    rcases hr : rec e p with - | - | r <;> simp only [hr] at h
    · cases h
    · cases h
    · have h₁ := hrec e p r (hes e List.mem_cons_self) hp hr
      have h₂ := ih (fun e he => hes e (List.mem_cons_of_mem _ he)) h₁.le_length h
      refine (h₁.trans h₂).mono fun hs => ?_
      rwa [List.all_cons, Bool.and_eq_false_iff] at hs

theorem terminalAny_bounds {es : List Expr} (hes : ∀ e ∈ es, e.WellFormed Γ)
    (hp : p ≤ text.length) (h : terminalAny rec es p = some (some q)) :
    GoodStep text (es.any (Expr.nullable Γ) = false) p q := by
  induction es with
  | nil => simp [terminalAny] at h
  | cons e es ih =>
    rw [terminalAny] at h
    rcases hr : rec e p with - | - | r <;> simp only [hr] at h
    · cases h
    · exact (ih (fun e he => hes e (List.mem_cons_of_mem _ he)) h).mono
        fun hs => by simp only [List.any_cons, Bool.or_eq_false_iff] at hs; exact hs.2
    · simp only [Option.some.injEq] at h
      exact h ▸ (hrec e p r (hes e List.mem_cons_self) hp hr).mono
        fun hs => by simp only [List.any_cons, Bool.or_eq_false_iff] at hs; exact hs.1

variable {e : Expr} (he : e.WellFormed Γ)
include he

theorem terminalWhile_bounds {budget : ℕ} (hp : p ≤ text.length)
    (h : terminalWhile rec e budget p = some q) : GoodStep text False p q := by
  induction budget generalizing p with
  | zero => cases h
  | succ budget ih =>
    rw [terminalWhile] at h
    rcases hr : rec e p with - | - | r <;> simp only [hr] at h
    · cases h
    · simp only [Option.some.injEq] at h
      exact h ▸ .refl hp not_false
    · have h₁ := hrec e p r he hp hr
      exact (h₁.trans (ih h₁.le_length h)).mono False.elim

theorem terminalUpTo_bounds {count : ℕ} (hp : p ≤ text.length)
    (h : terminalUpTo rec e count p = some q) : GoodStep text False p q := by
  induction count generalizing p with
  | zero =>
    simp only [terminalUpTo, Option.some.injEq] at h
    exact h ▸ .refl hp not_false
  | succ count ih =>
    rw [terminalUpTo] at h
    rcases hr : rec e p with - | - | r <;> simp only [hr] at h
    · cases h
    · simp only [Option.some.injEq] at h
      exact h ▸ .refl hp not_false
    · have h₁ := hrec e p r he hp hr
      exact (h₁.trans (ih h₁.le_length h)).mono False.elim

theorem terminalTimes_bounds (hn : e.nullable Γ = false) {count : ℕ} (hp : p ≤ text.length)
    (h : terminalTimes rec e count p = some (some q)) : GoodStep text (0 < count) p q := by
  induction count generalizing p with
  | zero =>
    simp only [terminalTimes, Option.some.injEq] at h
    exact h ▸ .refl hp (Nat.lt_irrefl 0)
  | succ count ih =>
    rw [terminalTimes] at h
    rcases hr : rec e p with - | - | r <;> simp only [hr] at h
    · cases h
    · cases h
    · have h₁ := hrec e p r he hp hr
      exact (h₁.trans (ih h₁.le_length h)).mono fun _ => .inl hn

/-- A loop after the mandatory matches. -/
theorem terminalTimes_then {min : ℕ} (hn : e.nullable Γ = false) {k : ℕ → Option ℕ}
    (hk : ∀ r, r ≤ text.length → k r = some q → GoodStep text False r q)
    (hp : p ≤ text.length)
    (h : (match terminalTimes rec e min p with
      | none => none
      | some none => some none
      | some (some r) => (k r).map some) = some (some q)) :
    GoodStep text (0 < min) p q := by
  rcases hr : terminalTimes rec e min p with - | - | r <;> simp only [hr] at h
  · cases h
  · cases h
  · have h₁ := terminalTimes_bounds hrec he hn hp hr
    have h₂ := hk r h₁.le_length (by simpa using h)
    exact (h₁.trans h₂).mono .inl

theorem terminalRepetition_bounds {min : ℕ} {max : Option ℕ} (hn : e.nullable Γ = false)
    (hp : p ≤ text.length) (h : terminalRepetition text rec min max e p = some (some q)) :
    GoodStep text (0 < min) p q := by
  have hwhile : ∀ r, r ≤ text.length → terminalWhile rec e (text.length + 1) r = some q →
      GoodStep text False r q := fun r hr h => terminalWhile_bounds hrec he hr h
  match min, max with
  | 0, some 1 =>
    rw [terminalRepetition] at h
    rcases hr : rec e p with - | - | r <;> simp only [hr, Option.some.injEq] at h
    · cases h
    · exact h ▸ .refl hp (Nat.lt_irrefl 0)
    · exact h ▸ (hrec e p r he hp hr).mono fun h => absurd h (Nat.lt_irrefl 0)
  | 0, none =>
    exact (hwhile p hp (by simpa [terminalRepetition] using h)).mono
      fun h => absurd h (Nat.lt_irrefl 0)
  | 1, none =>
    rw [terminalRepetition] at h
    rcases hr : rec e p with - | - | r <;> simp only [hr] at h
    · cases h
    · cases h
    · have h₁ := hrec e p r he hp hr
      exact (h₁.trans (hwhile r h₁.le_length (by simpa using h))).mono fun _ => .inl hn
  | min + 2, none => exact terminalTimes_then hrec he hn hwhile hp h
  | 0, some 0 =>
    exact terminalTimes_bounds hrec he hn hp (by simpa [terminalRepetition] using h)
  | 0, some (max + 2) =>
    have hup : ∀ r, r ≤ text.length → terminalUpTo rec e (max + 2) r = some q →
        GoodStep text False r q := fun r hr h => terminalUpTo_bounds hrec he hr h
    refine terminalTimes_then hrec he hn hup hp ?_
    simp [terminalRepetition] at h
    exact h
  | min + 1, some max =>
    have hup : ∀ r, r ≤ text.length → terminalUpTo rec e (max - (min + 1)) r = some q →
        GoodStep text False r q := fun r hr h => terminalUpTo_bounds hrec he hr h
    simp only [terminalRepetition] at h
    split at h
    · exact terminalTimes_bounds hrec he hn hp h
    · exact terminalTimes_then hrec he hn hup hp h

omit he in
/-- A pass is strict when it matches anything, and leaves the flags alone
otherwise. -/
theorem terminalPass_bounds {es es' : List (Expr × Bool)} {any : Bool}
    (hes : ∀ e ∈ es, e.1.WellFormed Γ ∧ e.1.nullable Γ = false) (hp : p ≤ text.length)
    (h : terminalPass rec es p = some (es', q, any)) :
    GoodStep text (any = true) p q ∧ (any = false → es' = es) ∧
      es'.map (·.1) = es.map (·.1) := by
  induction es generalizing p es' any with
  | nil =>
    simp only [terminalPass, Option.some.injEq, Prod.mk.injEq] at h
    obtain ⟨rfl, rfl, rfl⟩ := h
    exact ⟨.refl hp Bool.false_ne_true, fun _ => rfl, rfl⟩
  | cons e es ih =>
    obtain ⟨e, flag⟩ := e
    have he := hes (e, flag) List.mem_cons_self
    have hes' := fun e he => hes e (List.mem_cons_of_mem _ he)
    cases flag with
    | true =>
      rw [terminalPass] at h
      rcases hr : terminalPass rec es p with - | ⟨es₁, q₁, any₁⟩ <;> simp only [hr] at h
      · cases h
      · simp only [Option.some.injEq, Prod.mk.injEq] at h
        obtain ⟨rfl, rfl, rfl⟩ := h
        obtain ⟨hstep, hsame, hmap⟩ := ih hes' hp hr
        exact ⟨hstep, fun ha => by rw [hsame ha], by simp [hmap]⟩
    | false =>
      rw [terminalPass] at h
      rcases hr : rec e p with - | - | r <;> simp only [hr] at h
      · cases h
      · rcases hr' : terminalPass rec es p with - | ⟨es₁, q₁, any₁⟩ <;> simp only [hr'] at h
        · cases h
        · simp only [Option.some.injEq, Prod.mk.injEq] at h
          obtain ⟨rfl, rfl, rfl⟩ := h
          obtain ⟨hstep, hsame, hmap⟩ := ih hes' hp hr'
          exact ⟨hstep, fun ha => by rw [hsame ha], by simp [hmap]⟩
      · have h₁ := hrec e p r he.1 hp hr
        rcases hr' : terminalPass rec es r with - | ⟨es₁, q₁, any₁⟩ <;> simp only [hr'] at h
        · cases h
        · simp only [Option.some.injEq, Prod.mk.injEq] at h
          obtain ⟨rfl, rfl, rfl⟩ := h
          obtain ⟨hstep, -, hmap⟩ := ih hes' h₁.le_length hr'
          exact ⟨(h₁.trans hstep).mono fun _ => .inl he.2, nofun, by simp [hmap]⟩

omit he in
theorem terminalPasses_bounds {budget : ℕ} {es es' : List (Expr × Bool)}
    (hes : ∀ e ∈ es, e.1.WellFormed Γ ∧ e.1.nullable Γ = false) (hp : p ≤ text.length)
    (h : terminalPasses rec budget es p = some (es', q)) :
    GoodStep text (es' ≠ es) p q := by
  induction budget generalizing es p with
  | zero => cases h
  | succ budget ih =>
    rw [terminalPasses] at h
    rcases hr : terminalPass rec es p with - | ⟨es₁, q₁, - | -⟩ <;> simp only [hr] at h
    · cases h
    · simp only [Option.some.injEq, Prod.mk.injEq] at h
      obtain ⟨rfl, rfl⟩ := h
      obtain ⟨hstep, hsame, -⟩ := terminalPass_bounds hrec hes hp hr
      exact hstep.mono fun hne => absurd (hsame rfl) hne
    · obtain ⟨hstep, -, hmap⟩ := terminalPass_bounds hrec hes hp hr
      have hes₁ : ∀ e ∈ es₁, e.1.WellFormed Γ ∧ e.1.nullable Γ = false := by
        intro e he
        have hmem : e.1 ∈ es.map (·.1) := hmap ▸ List.mem_map_of_mem he
        obtain ⟨e', he', heq⟩ := List.mem_map.mp hmem
        exact heq ▸ hes e' he'
      exact (hstep.trans (ih hes₁ hstep.le_length h)).mono fun _ => .inl rfl

omit he in
theorem terminalUnorderedGroup_bounds {es : List Expr} (hne : es ≠ [])
    (hes : ∀ e ∈ es, e.WellFormed Γ ∧ e.nullable Γ = false) (hp : p ≤ text.length)
    (h : terminalUnorderedGroup rec es p = some (some q)) : GoodStep text True p q := by
  rw [terminalUnorderedGroup] at h
  rcases hr : terminalPasses rec (es.length + 1) (es.map (·, false)) p with - | ⟨es', q'⟩
    <;> simp only [hr] at h
  · cases h
  · simp only [Option.some.injEq, Option.ite_none_right_eq_some] at h
    obtain ⟨hall, rfl⟩ := h
    have hes' : ∀ e ∈ es.map (·, false), e.1.WellFormed Γ ∧ e.1.nullable Γ = false := by
      simpa using hes
    refine (terminalPasses_bounds hrec hes' hp hr).mono fun _ heq => ?_
    -- all flags are set at the end and none at the start
    obtain ⟨e, es₀, rfl⟩ := List.exists_cons_of_ne_nil hne
    rw [heq] at hall
    simp at hall

end Terminal

theorem terminalStep_bounds (hΓ : Γ.WellFormed) {rec : Matcher}
    (hrec : MatcherBounded Γ text rec) : MatcherBounded Γ text (terminalStep Γ text rec) := by
  intro e p q he hp h
  have hc := he.checked
  have hsub : ∀ e' ∈ e.children, e'.WellFormed Γ := fun _ h => he.sub h
  cases e with
  | literal id value cs =>
    exact literalTerminal_bounds hc hp (by simpa [terminalStep] using h)
  | characterRange id lookup =>
    have hb := characterRange_bounds hc (by simpa [terminalStep] using h)
    exact ⟨Nat.le_of_lt hb.1, hb.2, fun _ => hb.1⟩
  | anyCharacter id =>
    have hb := consume_utf8_codepoint_bounds (by simpa [terminalStep] using h)
    exact ⟨Nat.le_of_lt hb.1, hb.2, fun _ => hb.1⟩
  | group es =>
    rw [Expr.nullable, Expr.allNullable_eq]
    exact terminalSequence_bounds hrec hsub hp h
  | orderedChoice es =>
    rw [Expr.nullable, Expr.anyNullable_eq]
    exact terminalAny_bounds hrec hsub hp h
  | unorderedGroup es =>
    have hne : es ≠ [] := List.ne_nil_of_length_pos (Nat.lt_of_succ_lt hc.1)
    exact (terminalUnorderedGroup_bounds hrec hne (fun e he => ⟨hsub e he, hc.2 e he⟩) hp h).mono
      fun _ => trivial
  | repetition min max e =>
    refine (terminalRepetition_bounds hrec (hsub e (by simp [Expr.children])) hc.1 hp h).mono
      fun hs => ?_
    simp only [Expr.nullable, beq_eq_false_iff_ne] at hs
    exact Nat.pos_of_ne_zero hs
  | andPredicate e =>
    simp only [terminalStep] at h
    rcases hr : rec e p with - | - | r <;> simp [hr] at h
    exact h ▸ .refl hp (by simp [Expr.nullable])
  | notPredicate e =>
    simp only [terminalStep] at h
    rcases hr : rec e p with - | - | r <;> simp [hr] at h
    exact h ▸ .refl hp (by simp [Expr.nullable])
  | terminalRule r =>
    have hr := hΓ.terminalRule r
    exact (hrec _ p q hr.1 hp h).mono fun _ => hr.2.2
  | skipperWrapped s base => exact hrec base p q (hsub base (by simp [Expr.children])) hp h
  | assignment | create | nest | dataTypeRule | parserRule | infixRule =>
    simp [terminalStep] at h

/-! ### Skippers -/

/-- The leaves of a skip from `p` to `q`: in order, disjoint, not empty, and
inside the span. -/
def LeavesWithin : ℕ → List (GrammarElement × ℕ × ℕ) → ℕ → Prop
  | p, [], q => p ≤ q
  | p, (_, a, b) :: leaves, q => p ≤ a ∧ a < b ∧ LeavesWithin b leaves q

theorem LeavesWithin.le {leaves : List (GrammarElement × ℕ × ℕ)} {p q : ℕ}
    (h : LeavesWithin p leaves q) : p ≤ q := by
  induction leaves generalizing p with
  | nil => exact h
  | cons l leaves ih => have := ih h.2.2; have := h.1; have := h.2.1; omega

section Skip

variable {rec : Matcher} (hrec : MatcherBounded Γ text rec) {sk : Skipper}
  (hsk : sk.WellFormed Γ) {p q : ℕ}
include hrec hsk

theorem ignored_strict (hp : p ≤ text.length)
    (h : terminalAny rec sk.ignoredRules p = some (some q)) : GoodStep text True p q := by
  refine (terminalAny_bounds hrec (fun e he => (hsk.2 e he).1) hp h).mono fun _ => ?_
  rw [List.any_eq_false]
  intro e he
  simp [(hsk.2 e he).2.2]

theorem hidden_strict {rules : List (GrammarElement × Expr)} (hr : rules ⊆ sk.hiddenRules)
    {ge : GrammarElement} (hp : p ≤ text.length)
    (h : parseAnyHidden rec rules p = some (some (ge, q))) : GoodStep text True p q := by
  induction rules with
  | nil => simp [parseAnyHidden] at h
  | cons rule rules ih =>
    obtain ⟨g, e⟩ := rule
    have he := hsk.1 (g, e) (hr List.mem_cons_self)
    rw [parseAnyHidden] at h
    rcases hq : rec e p with - | - | r <;> simp only [hq] at h
    · cases h
    · exact ih (fun x hx => hr (List.mem_cons_of_mem _ hx)) h
    · simp only [Option.some.injEq, Prod.mk.injEq] at h
      exact h.2 ▸ (hrec e p r he.1 hp hq).mono fun _ => he.2.2

theorem skipIgnored_bounds {budget : ℕ} (hp : p ≤ text.length)
    (h : skipIgnored rec sk.ignoredRules budget p = some q) : GoodStep text False p q := by
  induction budget generalizing p with
  | zero => cases h
  | succ budget ih =>
    rw [skipIgnored] at h
    rcases hr : terminalAny rec sk.ignoredRules p with - | - | r <;> simp only [hr] at h
    · cases h
    · simp only [Option.some.injEq] at h
      exact h ▸ .refl hp not_false
    · have h₁ := ignored_strict hrec hsk hp hr
      exact (h₁.trans (ih h₁.le_length h)).mono False.elim

theorem skipLoop_bounds {budget : ℕ} {leaves : List (GrammarElement × ℕ × ℕ)}
    (hp : p ≤ text.length) (h : skipLoop text rec sk budget p = some (leaves, q)) :
    GoodStep text False p q ∧ LeavesWithin p leaves q := by
  induction budget generalizing p leaves with
  | zero => cases h
  | succ budget ih =>
    rw [skipLoop] at h
    rcases hi : skipIgnored rec sk.ignoredRules (text.length + 1) p with - | p₁
      <;> simp only [hi] at h
    · cases h
    · have h₁ := skipIgnored_bounds hrec hsk hp hi
      rcases hh : parseAnyHidden rec sk.hiddenRules p₁ with - | - | ⟨ge, p₂⟩ <;> simp only [hh] at h
      · cases h
      · simp only [Option.some.injEq, Prod.mk.injEq] at h
        obtain ⟨rfl, rfl⟩ := h
        exact ⟨h₁, h₁.le⟩
      · have h₂ := hidden_strict hrec hsk (List.Subset.refl _) h₁.le_length hh
        rcases hl : skipLoop text rec sk budget p₂ with - | ⟨leaves', q'⟩ <;> simp only [hl] at h
        · cases h
        · simp only [Option.some.injEq, Prod.mk.injEq] at h
          obtain ⟨rfl, rfl⟩ := h
          obtain ⟨h₃, hw⟩ := ih h₂.le_length hl
          exact ⟨((h₁.trans h₂).trans h₃).mono False.elim, h₁.le, h₂.lt trivial, hw⟩

theorem skipFrom_bounds {leaves : List (GrammarElement × ℕ × ℕ)} (hp : p ≤ text.length)
    (h : skipFrom text rec sk p = some (leaves, q)) :
    GoodStep text False p q ∧ LeavesWithin p leaves q :=
  skipLoop_bounds hrec hsk hp h

end Skip

end Pegium
