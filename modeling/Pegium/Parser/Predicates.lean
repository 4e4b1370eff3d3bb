/-
Pegium/Parser/Predicates.lean

What the syntactic predicates decide.

The predicates ask `probe`, and `probe` does not parse the expression: it asks
its *leading* elements, those that can come first, passing over nullable ones
(`Leads`).  A probe answers true exactly when a leading element parses
(`probe_iff`).  So `&e` and `!e` follow the parse of `e` exactly when the same
can be said of `e` itself: it parses where one of its leading elements does, and
only there.  A sequence that fails after its first element, and an expression
that matches the empty text, are the two ways out.
-/
import Pegium.Parser.Depth
import Pegium.Parser.FailureSafe

namespace Pegium

/-- Whether a probe of the expression (a fast one under `fast`) on the plain
context parses it or decides it as its parse does. -/
def Expr.probedByParsing (fast : Bool) : Expr → Bool
  | .group _ | .orderedChoice _ | .repetition _ _ _ | .create _ => false
  | .assignment _ _ | .parserRule _ => !fast
  | .skipperWrapped _ base =>
    !Interp.hasProbeImpl base && !(fast && Interp.hasFastProbeImpl base)
  | _ => true

/-- `Leads Γ fast sk e sk' i`: a probe of `e` under the skipper `sk` asks for the
parse of `i` under `sk'`. -/
inductive Leads (Γ : Grammar) : Bool → Skipper → Expr → Skipper → Expr → Prop
  | here {fast : Bool} {sk : Skipper} {e : Expr} (he : e.probedByParsing fast = true) :
      Leads Γ fast sk e sk e
  /-- an element of a sequence, when those before it are nullable -/
  | group {fast : Bool} {sk sk' : Skipper} {pre post : List Expr} {e i : Expr}
      (hpre : ∀ e ∈ pre, e.nullable Γ = true) (h : Leads Γ true sk e sk' i) :
      Leads Γ fast sk (.group (pre ++ e :: post)) sk' i
  | choice {fast : Bool} {sk sk' : Skipper} {es : List Expr} {e i : Expr} (he : e ∈ es)
      (h : Leads Γ fast sk e sk' i) : Leads Γ fast sk (.orderedChoice es) sk' i
  | repetition {fast : Bool} {sk sk' : Skipper} {min : ℕ} {max : Option ℕ} {e i : Expr}
      (h : Leads Γ true sk e sk' i) : Leads Γ fast sk (.repetition min max e) sk' i
  | assignment {sk sk' : Skipper} {id : ℕ} {e i : Expr} (h : Leads Γ true sk e sk' i) :
      Leads Γ true sk (.assignment id e) sk' i
  | parserRule {sk sk' : Skipper} {r : ℕ} {i : Expr}
      (h : Leads Γ true (Interp.ruleSkipper Γ sk (Γ.parserRule r)) (Γ.parserRule r).body sk' i) :
      Leads Γ true sk (.parserRule r) sk' i
  /-- a wrapped expression is probed without its skipper -/
  | wrapped {sk sk' : Skipper} {s : ℕ} {base i : Expr}
      (hb : Interp.hasProbeImpl base = true) (h : Leads Γ false sk base sk' i) :
      Leads Γ false sk (.skipperWrapped s base) sk' i
  | wrappedFast {sk sk' : Skipper} {s : ℕ} {base i : Expr}
      (hb : Interp.hasFastProbeImpl base = true) (h : Leads Γ true sk base sk' i) :
      Leads Γ true sk (.skipperWrapped s base) sk' i
  | wrappedSlow {sk sk' : Skipper} {s : ℕ} {base i : Expr}
      (hf : Interp.hasFastProbeImpl base = false) (hb : Interp.hasProbeImpl base = true)
      (h : Leads Γ false sk base sk' i) : Leads Γ true sk (.skipperWrapped s base) sk' i

variable {Γ : Grammar} {text : List UInt8}

/-- The expression parses at the position, in the plain mode. -/
def PegMatches (Γ : Grammar) (text : List UInt8) (sk : Skipper) (e : Expr) (pos : Position) :
    Prop :=
  ∃ n m, (peg Γ text n).parse false sk e pos = some (some m)

/-- A leading element of the expression parses at the position. -/
def LeadMatches (Γ : Grammar) (text : List UInt8) (fast : Bool) (sk : Skipper) (e : Expr)
    (pos : Position) : Prop :=
  ∃ sk' i, Leads Γ fast sk e sk' i ∧ PegMatches Γ text sk' i pos

theorem pegMatches_iff {n : ℕ} {sk : Skipper} {e : Expr} {pos : Position} {r : Option Match}
    (h : (peg Γ text n).parse false sk e pos = some r) :
    PegMatches Γ text sk e pos ↔ r.isSome = true := by
  constructor
  · rintro ⟨k, m, hm⟩
    rw [peg_parse_agree h hm]
    rfl
  · intro hr
    obtain ⟨m, rfl⟩ := Option.isSome_iff_exists.mp hr
    exact ⟨n, m, h⟩

/-! ### Probes and leading elements -/

section Lead

variable {fast : Bool} {sk : Skipper} {e : Expr} {pos : Position} {b : Bool} {n : ℕ}

/-- An expression probed by parsing leads itself and nothing else. -/
theorem leadMatches_here (he : e.probedByParsing fast = true) :
    LeadMatches Γ text fast sk e pos ↔ PegMatches Γ text sk e pos := by
  constructor
  · rintro ⟨sk', i, hl, hm⟩
    cases hl with
    | here => exact hm
    | group | choice | repetition => cases he
    | assignment | parserRule => cases he
    | wrapped hb => simp [Expr.probedByParsing, hb] at he
    | wrappedFast hb => simp [Expr.probedByParsing, hb] at he
    | wrappedSlow hf hb => simp [Expr.probedByParsing, hb] at he
  · intro hm
    exact ⟨sk, e, .here he, hm⟩

/-- A probe that parses. -/
theorem answered_iff (he : e.probedByParsing fast = true)
    (h : answered ((peg Γ text n).parse false sk e pos) = some b) :
    b = true ↔ LeadMatches Γ text fast sk e pos := by
  obtain ⟨r, hr, rfl⟩ := Option.map_eq_some_iff.mp h
  rw [leadMatches_here he, pegMatches_iff hr]

theorem leadMatches_group {es : List Expr} :
    LeadMatches Γ text fast sk (.group es) pos ↔
      ∃ pre e post, es = pre ++ e :: post ∧ (∀ e ∈ pre, e.nullable Γ = true) ∧
        LeadMatches Γ text true sk e pos := by
  constructor
  · rintro ⟨sk', i, hl, hm⟩
    cases hl with
    | here he => cases he
    | group hpre h => exact ⟨_, _, _, rfl, hpre, sk', i, h, hm⟩
  · rintro ⟨pre, e, post, rfl, hpre, sk', i, h, hm⟩
    exact ⟨sk', i, .group hpre h, hm⟩

theorem leadMatches_choice {es : List Expr} :
    LeadMatches Γ text fast sk (.orderedChoice es) pos ↔
      ∃ e ∈ es, LeadMatches Γ text fast sk e pos := by
  constructor
  · rintro ⟨sk', i, hl, hm⟩
    cases hl with
    | here he => cases he
    | choice he h => exact ⟨_, he, sk', i, h, hm⟩
  · rintro ⟨e, he, sk', i, h, hm⟩
    exact ⟨sk', i, .choice he h, hm⟩

theorem leadMatches_repetition {min : ℕ} {max : Option ℕ} :
    LeadMatches Γ text fast sk (.repetition min max e) pos ↔
      LeadMatches Γ text true sk e pos := by
  constructor
  · rintro ⟨sk', i, hl, hm⟩
    cases hl with
    | here he => cases he
    | repetition h => exact ⟨sk', i, h, hm⟩
  · rintro ⟨sk', i, h, hm⟩
    exact ⟨sk', i, .repetition h, hm⟩

theorem leadMatches_assignment {id : ℕ} :
    LeadMatches Γ text true sk (.assignment id e) pos ↔ LeadMatches Γ text true sk e pos := by
  constructor
  · rintro ⟨sk', i, hl, hm⟩
    cases hl with
    | here he => cases he
    | assignment h => exact ⟨sk', i, h, hm⟩
  · rintro ⟨sk', i, h, hm⟩
    exact ⟨sk', i, .assignment h, hm⟩

theorem leadMatches_parserRule {r : ℕ} :
    LeadMatches Γ text true sk (.parserRule r) pos ↔
      LeadMatches Γ text true (Interp.ruleSkipper Γ sk (Γ.parserRule r)) (Γ.parserRule r).body
        pos := by
  constructor
  · rintro ⟨sk', i, hl, hm⟩
    cases hl with
    | here he => cases he
    | parserRule h => exact ⟨sk', i, h, hm⟩
  · rintro ⟨sk', i, h, hm⟩
    exact ⟨sk', i, .parserRule h, hm⟩

theorem not_leadMatches_create {id : ℕ} : ¬ LeadMatches Γ text fast sk (.create id) pos := by
  rintro ⟨sk', i, hl, -⟩
  cases hl with
  | here he => cases he

theorem leadMatches_wrapped {s : ℕ} {base : Expr} (hb : Interp.hasProbeImpl base = true) :
    LeadMatches Γ text false sk (.skipperWrapped s base) pos ↔
      LeadMatches Γ text false sk base pos := by
  constructor
  · rintro ⟨sk', i, hl, hm⟩
    cases hl with
    | here he => simp [Expr.probedByParsing, hb] at he
    | wrapped _ h => exact ⟨sk', i, h, hm⟩
  · rintro ⟨sk', i, h, hm⟩
    exact ⟨sk', i, .wrapped hb h, hm⟩

theorem leadMatches_wrappedFast {s : ℕ} {base : Expr} (hb : Interp.hasFastProbeImpl base = true) :
    LeadMatches Γ text true sk (.skipperWrapped s base) pos ↔
      LeadMatches Γ text true sk base pos := by
  constructor
  · rintro ⟨sk', i, hl, hm⟩
    cases hl with
    | here he => simp [Expr.probedByParsing, hb] at he
    | wrappedFast _ h => exact ⟨sk', i, h, hm⟩
    | wrappedSlow hf _ _ => simp [hb] at hf
  · rintro ⟨sk', i, h, hm⟩
    exact ⟨sk', i, .wrappedFast hb h, hm⟩

/-- A fast probe of a wrapped expression whose base has no fast probe is its
probe. -/
theorem leadMatches_wrappedSlow {s : ℕ} {base : Expr}
    (hf : Interp.hasFastProbeImpl base = false) :
    LeadMatches Γ text true sk (.skipperWrapped s base) pos ↔
      LeadMatches Γ text false sk (.skipperWrapped s base) pos := by
  constructor
  · rintro ⟨sk', i, hl, hm⟩
    cases hl with
    | here he =>
      refine ⟨sk, _, .here ?_, hm⟩
      simpa [Expr.probedByParsing, hf] using he
    | wrappedFast hb _ => simp [hf] at hb
    | wrappedSlow _ hb h => exact ⟨sk', i, .wrapped hb h, hm⟩
  · rintro ⟨sk', i, hl, hm⟩
    cases hl with
    | here he =>
      refine ⟨sk, _, .here ?_, hm⟩
      simpa [Expr.probedByParsing, hf] using he
    | wrapped hb h => exact ⟨sk', i, .wrappedSlow hf hb h, hm⟩

end Lead

/-! ### One unfolding -/

/-- At depth `n`, probes answer for the leading elements. -/
structure ProbesLead (Γ : Grammar) (text : List UInt8) (n : ℕ) : Prop where
  probe : ∀ sk e pos b, (peg Γ text n).probe false sk e pos = some b →
    (b = true ↔ LeadMatches Γ text false sk e pos)
  fastProbe : ∀ sk e pos b, (peg Γ text n).fastProbe false sk e pos = some b →
    (b = true ↔ LeadMatches Γ text true sk e pos)

namespace ProbesLead

variable {n : ℕ} (h : ProbesLead Γ text n) {sk : Skipper} {pos : Position} {b : Bool}
include h

omit h in
theorem anyAnswer {f : Expr → Position → Option Bool} {M : Expr → Prop}
    (hf : ∀ e b, f e pos = some b → (b = true ↔ M e)) {es : List Expr}
    (hb : PegInterp.anyAnswer f es pos = some b) : b = true ↔ ∃ e ∈ es, M e := by
  induction es with
  | nil =>
    simp only [PegInterp.anyAnswer, Option.some.injEq] at hb
    simp [← hb]
  | cons e es ih =>
    rw [PegInterp.anyAnswer] at hb
    rcases he : f e pos with - | - | - <;> simp only [he, aorElse] at hb
    · cases hb
    · have hne : ¬ M e := fun hm => Bool.false_ne_true ((hf e _ he).mpr hm)
      rw [ih hb]
      simp [hne]
    · simp only [Option.some.injEq] at hb
      have hme : M e := (hf e _ he).mp rfl
      rw [← hb]
      exact ⟨fun _ => ⟨e, List.mem_cons_self, hme⟩, fun _ => rfl⟩

theorem fastProbeElements {es : List Expr}
    (hb : (peg Γ text n).fastProbeElements Γ false sk es pos = some b) :
    b = true ↔ ∃ pre e post, es = pre ++ e :: post ∧ (∀ e ∈ pre, e.nullable Γ = true) ∧
      LeadMatches Γ text true sk e pos := by
  induction es generalizing b with
  | nil =>
    simp only [PegInterp.fastProbeElements, Option.some.injEq] at hb
    simp [← hb]
  | cons e es ih =>
    rw [PegInterp.fastProbeElements] at hb
    rcases he : (peg Γ text n).fastProbe false sk e pos with - | - | -
      <;> simp only [he, aorElse] at hb
    · cases hb
    · -- the element does not start: only a nullable one is passed over
      have hne : ¬ LeadMatches Γ text true sk e pos :=
        fun hm => Bool.false_ne_true ((h.fastProbe sk e pos _ he).mpr hm)
      split at hb
      next hn =>
        rw [ih hb]
        constructor
        · rintro ⟨pre, e', post, rfl, hpre, hm⟩
          exact ⟨e :: pre, e', post, rfl, List.forall_mem_cons.mpr ⟨hn, hpre⟩, hm⟩
        · rintro ⟨pre, e', post, heq, hpre, hm⟩
          rcases List.cons_eq_append_iff.mp heq with ⟨rfl, heq⟩ | ⟨pre', rfl, rfl⟩
          · obtain ⟨rfl, -⟩ := List.cons.inj heq
            exact absurd hm hne
          · exact ⟨pre', e', post, rfl, fun x hx => hpre x (List.mem_cons_of_mem _ hx), hm⟩
      next hn =>
        simp only [Option.some.injEq] at hb
        subst hb
        refine ⟨fun h => absurd h Bool.false_ne_true, ?_⟩
        rintro ⟨pre, e', post, heq, hpre, hm⟩
        rcases List.cons_eq_append_iff.mp heq with ⟨rfl, heq⟩ | ⟨pre', rfl, -⟩
        · obtain ⟨rfl, -⟩ := List.cons.inj heq
          exact absurd hm hne
        · exact absurd (hpre e List.mem_cons_self) hn
    · simp only [Option.some.injEq] at hb
      have hm := (h.fastProbe sk e pos _ he).mp rfl
      rw [← hb]
      exact ⟨fun _ => ⟨[], e, es, rfl, List.forall_mem_nil _, hm⟩, fun _ => rfl⟩

theorem probeStep {e : Expr} (hb : (peg Γ text (n + 1)).probe false sk e pos = some b) :
    b = true ↔ LeadMatches Γ text false sk e pos := by
  change (peg Γ text n).probeStep Γ text false sk e pos = some b at hb
  -- an expression that its probe parses, at this depth or one deeper
  have hparse : ∀ e' : Expr, e'.probedByParsing false = true → ∀ k,
      answered ((peg Γ text k).parse false sk e' pos) = some b →
      (b = true ↔ LeadMatches Γ text false sk e' pos) := fun _ he _ hk => answered_iff he hk
  cases e with
  | literal id value cs =>
    refine hparse _ rfl 1 ?_
    rw [← hb]
    change some (pegLeaf (.expression id) pos _).isSome = _
    rw [pegLeaf, Option.isSome_map]
    rfl
  | characterRange id lookup =>
    refine hparse _ rfl 1 ?_
    rw [← hb]
    change some (pegLeaf (.expression id) pos _).isSome = _
    rw [pegLeaf, Option.isSome_map]
    rfl
  | anyCharacter id =>
    refine hparse _ rfl 1 ?_
    rw [← hb]
    change some (pegLeaf (.expression id) pos _).isSome = _
    rw [pegLeaf, Option.isSome_map]
    rfl
  | group es => rw [leadMatches_group]; exact h.fastProbeElements hb
  | orderedChoice es =>
    rw [leadMatches_choice]
    exact anyAnswer (fun e b he => h.probe sk e pos b he) hb
  | repetition min max e => rw [leadMatches_repetition]; exact h.fastProbe sk e pos b hb
  | andPredicate e =>
    have hp : (peg Γ text n).probe false sk e pos = some b := hb
    refine hparse _ rfl (n + 1) ?_
    change answered (((peg Γ text n).probe false sk e pos).map _) = some b
    rw [hp]
    cases b <;> rfl
  | notPredicate e =>
    obtain ⟨b', hp, rfl⟩ := Option.map_eq_some_iff.mp hb
    refine hparse _ rfl (n + 1) ?_
    change answered (((peg Γ text n).probe false sk e pos).map _) = _
    rw [hp]
    cases b' <;> rfl
  | create id =>
    simp only [PegInterp.probeStep, Option.some.injEq] at hb
    rw [← hb]
    exact ⟨fun h => absurd h Bool.false_ne_true, fun hm => absurd hm not_leadMatches_create⟩
  | skipperWrapped s base =>
    rw [PegInterp.probeStep] at hb
    split at hb
    next hp => rw [leadMatches_wrapped hp]; exact h.probe sk base pos b hb
    next hp =>
      refine hparse _ ?_ n hb
      simp [Expr.probedByParsing, hp]
  | unorderedGroup | assignment | nest | terminalRule | dataTypeRule | parserRule | infixRule =>
    exact hparse _ rfl n hb

theorem fastProbeStep {e : Expr} (hb : (peg Γ text (n + 1)).fastProbe false sk e pos = some b) :
    b = true ↔ LeadMatches Γ text true sk e pos := by
  change (peg Γ text n).fastProbeStep Γ false sk e pos = some b at hb
  -- an expression without a fast probe of its own
  have hslow : ∀ e' : Expr, e'.probedByParsing true = true → e'.probedByParsing false = true →
      (peg Γ text n).probe false sk e' pos = some b →
      (b = true ↔ LeadMatches Γ text true sk e' pos) := by
    intro e' ht hf hp
    rw [leadMatches_here ht, ← leadMatches_here hf]
    exact h.probe sk e' pos b hp
  cases e with
  | group es => rw [leadMatches_group]; exact h.fastProbeElements hb
  | orderedChoice es =>
    rw [leadMatches_choice]
    exact anyAnswer (fun e b he => h.fastProbe sk e pos b he) hb
  | repetition min max e => rw [leadMatches_repetition]; exact h.fastProbe sk e pos b hb
  | assignment id e => rw [leadMatches_assignment]; exact h.fastProbe sk e pos b hb
  | create id =>
    simp only [PegInterp.fastProbeStep, Option.some.injEq] at hb
    rw [← hb]
    exact ⟨fun h => absurd h Bool.false_ne_true, fun hm => absurd hm not_leadMatches_create⟩
  | parserRule r => rw [leadMatches_parserRule]; exact h.fastProbe _ _ pos b hb
  | infixRule r => exact hslow _ rfl rfl hb
  | skipperWrapped s base =>
    rw [PegInterp.fastProbeStep] at hb
    split at hb
    next hf => rw [leadMatches_wrappedFast hf]; exact h.fastProbe sk base pos b hb
    next hf =>
      rw [leadMatches_wrappedSlow (by simpa using hf)]
      exact h.probe sk _ pos b hb
  | literal | characterRange | anyCharacter | unorderedGroup | andPredicate | notPredicate | nest
  | terminalRule | dataTypeRule => exact hslow _ rfl rfl hb

end ProbesLead

/-- **A probe asks the leading elements**, at every depth. -/
theorem probesLead_peg (Γ : Grammar) (text : List UInt8) (n : ℕ) : ProbesLead Γ text n := by
  induction n with
  | zero => exact ⟨nofun, nofun⟩
  | succ n ih => exact ⟨fun _ _ _ _ hb => ih.probeStep hb, fun _ _ _ _ hb => ih.fastProbeStep hb⟩

/-! ### The predicates -/

/-- The strict parse of `e` on the plain context `ctx` returns `r`. -/
def StrictParse (Γ : Grammar) (text : List UInt8) (sk : Skipper) (e : Expr) (ctx : ParseContext)
    (r : Bool × ParseContext) : Prop :=
  ∃ n, (interp Γ text n).parse false sk e ctx = some r

/-- The probe of `e` on the plain context `ctx` returns `r`. -/
def StrictProbe (Γ : Grammar) (text : List UInt8) (sk : Skipper) (e : Expr) (ctx : ParseContext)
    (r : Bool × ParseContext) : Prop :=
  ∃ n, (interp Γ text n).probe false sk e ctx = some r

variable {sk : Skipper} {e : Expr} {pos : Position} {tb : TreeBuilder GrammarElement}
  {r : Bool × ParseContext}

/-- A parse that ends at `q`. -/
theorem strictParse_end_iff {q : ℕ} :
    (∃ ctx', StrictParse Γ text sk e (pos.ctx tb) (true, ctx') ∧ ctx'.cursor = q) ↔
      ∃ n m, (peg Γ text n).parse false sk e pos = some (some m) ∧ m.stop.cursor = q := by
  constructor
  · rintro ⟨ctx', ⟨n, hn⟩, hq⟩
    have hsim := (simulates_interp Γ text n).parse false sk e tb pos
    rw [hn] at hsim
    generalize ha : (peg Γ text n).parse false sk e pos = a at hsim
    cases hsim with
    | ok m => exact ⟨n, m, ha, hq⟩
  · rintro ⟨n, m, hm, hq⟩
    have hsim := (simulates_interp Γ text n).parse false sk e tb pos
    rw [hm] at hsim
    generalize hr : (interp Γ text n).parse false sk e (pos.ctx tb) = r at hsim
    cases hsim with
    | ok => exact ⟨m.ctx tb, ⟨n, hr⟩, hq⟩

theorem strictParse_iff_pegMatches :
    (∃ ctx', StrictParse Γ text sk e (pos.ctx tb) (true, ctx')) ↔ PegMatches Γ text sk e pos := by
  constructor
  · rintro ⟨ctx', h⟩
    obtain ⟨n, m, hm, -⟩ := strictParse_end_iff.mp ⟨ctx', h, rfl⟩
    exact ⟨n, m, hm⟩
  · rintro ⟨n, m, hm⟩
    obtain ⟨ctx', h, -⟩ := strictParse_end_iff.mpr ⟨n, m, hm, rfl⟩
    exact ⟨ctx', h⟩

/-- A leading element parses on the context. -/
def LeadParses (Γ : Grammar) (text : List UInt8) (sk : Skipper) (e : Expr) (ctx : ParseContext) :
    Prop :=
  ∃ sk' i, Leads Γ false sk e sk' i ∧ ∃ ctx', StrictParse Γ text sk' i ctx (true, ctx')

theorem leadParses_iff :
    LeadParses Γ text sk e (pos.ctx tb) ↔ LeadMatches Γ text false sk e pos := by
  simp only [LeadParses, strictParse_iff_pegMatches]
  exact Iff.rfl

theorem StrictProbe.answer (h : StrictProbe Γ text sk e (pos.ctx tb) r) :
    r.2 = pos.ctx tb ∧ (r.1 = true ↔ LeadMatches Γ text false sk e pos) := by
  obtain ⟨n, hn⟩ := h
  rw [(simulates_interp Γ text n).probe] at hn
  obtain ⟨b, hb, rfl⟩ := Option.map_eq_some_iff.mp hn
  exact ⟨rfl, (probesLead_peg Γ text n).probe sk e pos b hb⟩

/-- A positive predicate answers as the probe does. -/
theorem StrictParse.andPredicate (h : StrictParse Γ text sk (.andPredicate e) (pos.ctx tb) r) :
    StrictProbe Γ text sk e (pos.ctx tb) r := by
  obtain ⟨n, hn⟩ := h
  cases n with
  | zero => cases hn
  | succ n => exact ⟨n, hn⟩

/-- A negative predicate answers the opposite of the probe. -/
theorem StrictParse.notPredicate (h : StrictParse Γ text sk (.notPredicate e) (pos.ctx tb) r) :
    StrictProbe Γ text sk e (pos.ctx tb) (!r.1, r.2) := by
  obtain ⟨n, hn⟩ := h
  cases n with
  | zero => cases hn
  | succ n =>
    obtain ⟨r', hr', rfl⟩ := Option.map_eq_some_iff.mp hn
    refine ⟨n, ?_⟩
    rw [Bool.not_not]
    exact hr'

/-- **What the predicates decide, exactly.**  On a plain strict context both
predicates and the probe leave the context as it was; and they follow the strict
parse of their operand if and only if the operand parses exactly where one of the
elements that may come first in it does. -/
theorem predicates_follow_iff (Γ : Grammar) (text : List UInt8) {ctx : ParseContext}
    (hb : ctx.builder.Reachable) {sk : Skipper} {e : Expr} {ra rn rp r : Bool × ParseContext}
    (hand : StrictParse Γ text sk (.andPredicate e) ctx ra)
    (hnot : StrictParse Γ text sk (.notPredicate e) ctx rn)
    (hprobe : StrictProbe Γ text sk e ctx rp) (hparse : StrictParse Γ text sk e ctx r) :
    (ra.2 = ctx ∧ rn.2 = ctx ∧ rp.2 = ctx) ∧
      ((ra.1 = r.1 ∧ rn.1 = !r.1 ∧ rp.1 = r.1) ↔
        (LeadParses Γ text sk e ctx ↔ r.1 = true)) := by
  obtain ⟨pos, tb, rfl⟩ := ParseContext.eq_ctx hb
  obtain ⟨hra, ha⟩ := hand.andPredicate.answer
  obtain ⟨hrn, hn⟩ := hnot.notPredicate.answer
  obtain ⟨hrp, hp⟩ := hprobe.answer
  refine ⟨⟨hra, hrn, hrp⟩, ?_⟩
  rw [leadParses_iff]
  -- all three answer for the leading elements
  constructor
  · rintro ⟨h, -, -⟩
    rw [← h]
    exact ha.symm
  · intro h
    refine ⟨Bool.eq_iff_iff.mpr (ha.trans h), ?_, Bool.eq_iff_iff.mpr (hp.trans h)⟩
    have heq : (!rn.1) = r.1 := Bool.eq_iff_iff.mpr (hn.trans h)
    rw [← heq, Bool.not_not]

/-- `"+" "-"` on `+-`. -/
theorem predicates_follow_iff_sequence :
    let e : Expr := .group [.literal 0 [43] true, .literal 1 [45] true]
    ∃ ra rn rp r,
      StrictParse (.sample e false) [43, 45] .noop (.andPredicate e) .initial ra ∧
      StrictParse (.sample e false) [43, 45] .noop (.notPredicate e) .initial rn ∧
      StrictProbe (.sample e false) [43, 45] .noop e .initial rp ∧
      StrictParse (.sample e false) [43, 45] .noop e .initial r ∧
      ra.2 = .initial ∧ ra.1 = r.1 := by
  intro e
  have hb : (ParseContext.initial.builder).Reachable := ⟨[], .start, rfl, rfl⟩
  let Γ := Grammar.sample e false
  have hand : StrictParse Γ [43, 45] .noop (.andPredicate e) .initial (true, .initial) :=
    ⟨4, rfl⟩
  have hnot : StrictParse Γ [43, 45] .noop (.notPredicate e) .initial (false, .initial) :=
    ⟨4, rfl⟩
  have hprobe : StrictProbe Γ [43, 45] .noop e .initial (true, .initial) := ⟨3, rfl⟩
  have hparse : StrictParse Γ [43, 45] .noop e .initial (true, _) := ⟨2, rfl⟩
  have hlead : StrictParse Γ [43, 45] .noop (.literal 0 [43] true) .initial (true, _) := ⟨1, rfl⟩
  obtain ⟨hkeep, hiff⟩ := predicates_follow_iff Γ [43, 45] hb hand hnot hprobe hparse
  refine ⟨_, _, _, _, hand, hnot, hprobe, hparse, hkeep.1, (hiff.mpr ⟨fun _ => rfl, fun _ => ?_⟩).1⟩
  exact ⟨_, _, @Leads.group _ _ _ _ [] _ _ _ nofun (.here rfl), _, hlead⟩

/-- `"+" "-"` on `++`: the sequence does not parse, and its negative predicate
fails all the same. -/
theorem not_predicates_follow :
    let e : Expr := .group [.literal 0 [43] true, .literal 1 [45] true]
    ∃ ctx', StrictParse (.sample e false) [43, 43] .noop e .initial (false, ctx') ∧
      StrictParse (.sample e false) [43, 43] .noop (.notPredicate e) .initial (false, .initial) ∧
      StrictParse (.sample e false) [43, 43] .noop (.andPredicate e) .initial (true, .initial) :=
  ⟨_, ⟨2, rfl⟩, ⟨4, rfl⟩, ⟨4, rfl⟩⟩

end Pegium
