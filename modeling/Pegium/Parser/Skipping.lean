/-
Pegium/Parser/Skipping.lean

The two overloads of `SkipperContext::skip`, and the cache that takes the result of
one for the other.

The overload with a builder has two nested loops: the ignored rules as long as one of
them matches, then one hidden rule.  The overload without has one loop, over the ignored
rules followed by the hidden ones.  Both try the rules of a position in the same order,
so both follow the same greedy run: at each position the first rule that matches, an
ignored one before a hidden one (`GreedyRun`).

A tracked context remembers where the last skip began and ended, and under which
skipper.  What it answers is what the skipper would, after any operations
(`skippers_converge`).
-/
import Pegium.General.Machine
import Pegium.Parser.Termination

namespace Pegium

/-! ### The greedy run -/

/-- The first rule that matches at a position, and the end of its match. -/
inductive FirstMatch {α : Type} (matchAt : α → ℕ → Option (Option ℕ)) :
    List α → ℕ → α → ℕ → Prop
  | head {rule rules p q} : matchAt rule p = some (some q) →
      FirstMatch matchAt (rule :: rules) p rule q
  | tail {rule rules p found q} : matchAt rule p = some none →
      FirstMatch matchAt rules p found q → FirstMatch matchAt (rule :: rules) p found q

/-- No rule matches. -/
def NoMatch {α : Type} (matchAt : α → ℕ → Option (Option ℕ)) (rules : List α) (p : ℕ) : Prop :=
  ∀ rule ∈ rules, matchAt rule p = some none

/-- The greedy run of a skipper, with the matches of its hidden rules. -/
inductive GreedyRun (rec : Matcher) (sk : Skipper) :
    ℕ → List (GrammarElement × ℕ × ℕ) → ℕ → Prop
  | stop {p} : NoMatch rec sk.ignoredRules p → NoMatch (fun rule => rec rule.2) sk.hiddenRules p →
      GreedyRun rec sk p [] p
  | ignored {p rule p' leaves q} : FirstMatch rec sk.ignoredRules p rule p' →
      GreedyRun rec sk p' leaves q → GreedyRun rec sk p leaves q
  | hidden {p rule p' leaves q} : NoMatch rec sk.ignoredRules p →
      FirstMatch (fun rule => rec rule.2) sk.hiddenRules p rule p' →
      GreedyRun rec sk p' leaves q → GreedyRun rec sk p ((rule.1, p, p') :: leaves) q

/-- Matches of ignored rules, one after the other. -/
def IgnoredRun (rec : Matcher) (sk : Skipper) : ℕ → ℕ → Prop :=
  Relation.ReflTransGen fun p q => ∃ rule, FirstMatch rec sk.ignoredRules p rule q

/-- Each leaf is the match of a hidden rule, and between the leaves are ignored matches. -/
def GapsIgnored (rec : Matcher) (sk : Skipper) : ℕ → List (GrammarElement × ℕ × ℕ) → ℕ → Prop
  | p, [], q => IgnoredRun rec sk p q
  | p, (element, b, e) :: leaves, q => IgnoredRun rec sk p b ∧
      (∃ rule, rule.1 = element ∧ FirstMatch (fun rule => rec rule.2) sk.hiddenRules b rule e) ∧
      GapsIgnored rec sk e leaves q

variable {rec : Matcher} {sk : Skipper} {p q : ℕ} {leaves : List (GrammarElement × ℕ × ℕ)}

theorem GapsIgnored.ignored {p' : ℕ} {rule : Expr} (h : FirstMatch rec sk.ignoredRules p rule p')
    (rest : GapsIgnored rec sk p' leaves q) : GapsIgnored rec sk p leaves q := by
  cases leaves with
  | nil => exact .head ⟨rule, h⟩ rest
  | cons leaf leaves => exact ⟨.head ⟨rule, h⟩ rest.1, rest.2⟩

/-- The gaps between the leaves of a greedy run. -/
theorem GreedyRun.gapsIgnored (h : GreedyRun rec sk p leaves q) :
    GapsIgnored rec sk p leaves q := by
  induction h with
  | stop _ _ => exact .refl
  | ignored hmatch _ ih => exact ih.ignored hmatch
  | hidden _ hmatch _ ih => exact ⟨.refl, ⟨_, rfl, hmatch⟩, ih⟩

/-! ### The loops follow the greedy run -/

theorem terminalAny_iff {rules : List Expr} :
    terminalAny rec rules p = some (some q) ↔ ∃ rule, FirstMatch rec rules p rule q := by
  induction rules with
  | nil =>
    refine iff_of_false (by simp [terminalAny]) ?_
    rintro ⟨rule, ⟨⟩⟩
  | cons rule rules ih =>
    rw [terminalAny]
    constructor
    · intro h
      rcases hr : rec rule p with - | - | r <;> simp only [hr] at h
      · cases h
      · obtain ⟨found, hfound⟩ := ih.mp h
        exact ⟨found, .tail hr hfound⟩
      · cases h
        exact ⟨rule, .head hr⟩
    · rintro ⟨found, hfound⟩
      cases hfound with
      | head hr => simp only [hr]
      | tail hr hrest =>
        simp only [hr]
        exact ih.mpr ⟨found, hrest⟩

theorem terminalAny_none_iff {rules : List Expr} :
    terminalAny rec rules p = some none ↔ NoMatch rec rules p := by
  induction rules with
  | nil => exact iff_of_true rfl (List.forall_mem_nil _)
  | cons rule rules ih =>
    rw [NoMatch, List.forall_mem_cons, terminalAny]
    rcases hr : rec rule p with - | - | r
    · simp
    · simp only [true_and]
      exact ih
    · simp

/-- The rules of the two loops, tried one after the other. -/
theorem terminalAny_append (rules rules' : List Expr) (p : ℕ) :
    terminalAny rec (rules ++ rules') p = (terminalAny rec rules p).bind fun found =>
      found.elim (terminalAny rec rules' p) fun q => some (some q) := by
  induction rules with
  | nil => rfl
  | cons rule rules ih =>
    rw [List.cons_append, terminalAny, terminalAny]
    rcases rec rule p with - | - | r
    · rfl
    · exact ih
    · rfl

/-- The hidden rules, without the element that is recorded. -/
theorem terminalAny_hidden (rules : List (GrammarElement × Expr)) (p : ℕ) :
    terminalAny rec (rules.map (·.2)) p
      = (parseAnyHidden rec rules p).map fun found => found.map (·.2) := by
  induction rules with
  | nil => rfl
  | cons rule rules ih =>
    rw [List.map_cons, terminalAny, parseAnyHidden]
    rcases rec rule.2 p with - | - | r
    · rfl
    · exact ih
    · rfl

theorem parseAnyHidden_iff {rules : List (GrammarElement × Expr)} {element : GrammarElement} :
    parseAnyHidden rec rules p = some (some (element, q)) ↔
      ∃ rule, rule.1 = element ∧ FirstMatch (fun rule => rec rule.2) rules p rule q := by
  induction rules with
  | nil =>
    refine iff_of_false (by simp [parseAnyHidden]) ?_
    rintro ⟨rule, -, ⟨⟩⟩
  | cons rule rules ih =>
    rw [parseAnyHidden]
    constructor
    · intro h
      rcases hr : rec rule.2 p with - | - | r <;> simp only [hr] at h
      · cases h
      · obtain ⟨found, helement, hfound⟩ := ih.mp h
        exact ⟨found, helement, .tail hr hfound⟩
      · cases h
        exact ⟨rule, rfl, .head hr⟩
    · rintro ⟨found, rfl, hfound⟩
      cases hfound with
      | head hr => simp only [hr]
      | tail hr hrest =>
        simp only [hr]
        exact ih.mpr ⟨found, rfl, hrest⟩

theorem parseAnyHidden_none_iff {rules : List (GrammarElement × Expr)} :
    parseAnyHidden rec rules p = some none ↔ NoMatch (fun rule => rec rule.2) rules p := by
  induction rules with
  | nil => exact iff_of_true rfl (List.forall_mem_nil _)
  | cons rule rules ih =>
    rw [NoMatch, List.forall_mem_cons, parseAnyHidden]
    rcases hr : rec rule.2 p with - | - | r
    · simp
    · simp only [true_and]
      exact ih
    · simp

/-- The inner loop stops where no ignored rule matches. -/
theorem skipIgnored_run {budget : ℕ} (h : skipIgnored rec sk.ignoredRules budget p = some q) :
    NoMatch rec sk.ignoredRules q ∧
      ∀ leaves s, GreedyRun rec sk q leaves s → GreedyRun rec sk p leaves s := by
  induction budget generalizing p with
  | zero => cases h
  | succ budget ih =>
    rw [skipIgnored] at h
    rcases hr : terminalAny rec sk.ignoredRules p with - | - | r <;> simp only [hr] at h
    · cases h
    · cases h
      exact ⟨terminalAny_none_iff.mp hr, fun _ _ => id⟩
    · obtain ⟨rule, hmatch⟩ := terminalAny_iff.mp hr
      obtain ⟨hstop, hrun⟩ := ih h
      exact ⟨hstop, fun leaves s hs => .ignored hmatch (hrun leaves s hs)⟩

variable {text : List UInt8}

/-- The loop with a builder. -/
theorem skipLoop_run {budget : ℕ} (h : skipLoop text rec sk budget p = some (leaves, q)) :
    GreedyRun rec sk p leaves q := by
  induction budget generalizing p leaves with
  | zero => cases h
  | succ budget ih =>
    rw [skipLoop] at h
    rcases hi : skipIgnored rec sk.ignoredRules (text.length + 1) p with - | r
      <;> simp only [hi] at h
    · cases h
    obtain ⟨hstop, hrun⟩ := skipIgnored_run hi
    apply hrun
    rcases hh : parseAnyHidden rec sk.hiddenRules r with - | - | ⟨element, s⟩
      <;> simp only [hh] at h
    · cases h
    · cases h
      exact .stop hstop (parseAnyHidden_none_iff.mp hh)
    · obtain ⟨rule, rfl, hmatch⟩ := parseAnyHidden_iff.mp hh
      rcases hl : skipLoop text rec sk budget s with - | ⟨leaves', q'⟩ <;> simp only [hl] at h
      · cases h
      · cases h
        exact .hidden hstop hmatch (ih hl)

/-- The loop without one. -/
theorem skipWithoutBuilder_run {budget : ℕ} (h : skipWithoutBuilder rec sk budget p = some q) :
    ∃ leaves, GreedyRun rec sk p leaves q := by
  induction budget generalizing p with
  | zero => cases h
  | succ budget ih =>
    rw [skipWithoutBuilder, terminalAny_append, terminalAny_hidden] at h
    rcases hi : terminalAny rec sk.ignoredRules p with - | - | r
      <;> simp only [hi, Option.bind_none, Option.bind_some, Option.elim_none,
        Option.elim_some] at h
    · cases h
    · have hstop := terminalAny_none_iff.mp hi
      rcases hh : parseAnyHidden rec sk.hiddenRules p with - | - | ⟨element, s⟩
        <;> simp only [hh, Option.map_none, Option.map_some] at h
      · cases h
      · cases h
        exact ⟨[], .stop hstop (parseAnyHidden_none_iff.mp hh)⟩
      · obtain ⟨rule, -, hmatch⟩ := parseAnyHidden_iff.mp hh
        obtain ⟨leaves, hrun⟩ := ih h
        exact ⟨_, .hidden hstop hmatch hrun⟩
    · obtain ⟨rule, hmatch⟩ := terminalAny_iff.mp hi
      obtain ⟨leaves, hrun⟩ := ih h
      exact ⟨leaves, .ignored hmatch hrun⟩

/-! ### The greedy run is followed to its end -/

section Bounded

variable {Γ : Grammar} (hrec : MatcherBounded Γ text rec) (hsk : sk.WellFormed Γ)
include hrec hsk

theorem ignoredMatch_strict {rule : Expr} (hp : p ≤ text.length)
    (h : FirstMatch rec sk.ignoredRules p rule q) : GoodStep text True p q :=
  ignored_strict hrec hsk hp (terminalAny_iff.mpr ⟨rule, h⟩)

theorem hiddenMatch_strict {rule : GrammarElement × Expr} (hp : p ≤ text.length)
    (h : FirstMatch (fun rule => rec rule.2) sk.hiddenRules p rule q) : GoodStep text True p q :=
  hidden_strict hrec hsk (List.Subset.refl _) hp (parseAnyHidden_iff.mpr ⟨rule, rfl, h⟩)

/-- The loop without a builder takes one iteration for each match. -/
theorem skipWithoutBuilder_of_run (h : GreedyRun rec sk p leaves q) (hp : p ≤ text.length)
    {budget : ℕ} (hb : text.length - p < budget) :
    skipWithoutBuilder rec sk budget p = some q := by
  induction h generalizing budget with
  | stop hi hh =>
    obtain ⟨budget, rfl⟩ := Nat.exists_eq_succ_of_ne_zero (Nat.ne_of_gt (Nat.zero_lt_of_lt hb))
    rw [skipWithoutBuilder, terminalAny_append, terminalAny_none_iff.mpr hi, terminalAny_hidden,
      parseAnyHidden_none_iff.mpr hh]
    rfl
  | ignored hmatch _ ih =>
    have hstep := ignoredMatch_strict hrec hsk hp hmatch
    have hlt := hstep.lt trivial
    have hle := hstep.le_length
    obtain ⟨budget, rfl⟩ := Nat.exists_eq_succ_of_ne_zero (Nat.ne_of_gt (Nat.zero_lt_of_lt hb))
    rw [skipWithoutBuilder, terminalAny_append, terminalAny_iff.mpr ⟨_, hmatch⟩]
    exact ih hle (by omega)
  | hidden hstop hmatch _ ih =>
    have hstep := hiddenMatch_strict hrec hsk hp hmatch
    have hlt := hstep.lt trivial
    have hle := hstep.le_length
    obtain ⟨budget, rfl⟩ := Nat.exists_eq_succ_of_ne_zero (Nat.ne_of_gt (Nat.zero_lt_of_lt hb))
    rw [skipWithoutBuilder, terminalAny_append, terminalAny_none_iff.mpr hstop,
      terminalAny_hidden, parseAnyHidden_iff.mpr ⟨_, rfl, hmatch⟩]
    exact ih hle (by omega)

/-- The inner loop takes the ignored matches at the beginning of the run. -/
theorem skipIgnored_of_run (h : GreedyRun rec sk p leaves q) (hp : p ≤ text.length) :
    ∃ r, GoodStep text False p r ∧ NoMatch rec sk.ignoredRules r ∧ GreedyRun rec sk r leaves q ∧
      ∀ budget, text.length - p < budget →
        skipIgnored rec sk.ignoredRules budget p = some r := by
  induction h with
  | @stop p hi hh =>
    refine ⟨p, .refl hp not_false, hi, .stop hi hh, fun budget hb => ?_⟩
    obtain ⟨budget, rfl⟩ := Nat.exists_eq_succ_of_ne_zero (Nat.ne_of_gt (Nat.zero_lt_of_lt hb))
    rw [skipIgnored, terminalAny_none_iff.mpr hi]
  | ignored hmatch _ ih =>
    have hstep := ignoredMatch_strict hrec hsk hp hmatch
    have hlt := hstep.lt trivial
    obtain ⟨r, hr, hstop, hrun, hloop⟩ := ih hstep.le_length
    refine ⟨r, (hstep.trans hr).mono False.elim, hstop, hrun, fun budget hb => ?_⟩
    obtain ⟨budget, rfl⟩ := Nat.exists_eq_succ_of_ne_zero (Nat.ne_of_gt (Nat.zero_lt_of_lt hb))
    rw [skipIgnored, terminalAny_iff.mpr ⟨_, hmatch⟩]
    exact hloop budget (by have := hstep.le_length; omega)
  | @hidden p rule p' leaves q hstop hmatch hrest _ =>
    refine ⟨p, .refl hp not_false, hstop, .hidden hstop hmatch hrest, fun budget hb => ?_⟩
    obtain ⟨budget, rfl⟩ := Nat.exists_eq_succ_of_ne_zero (Nat.ne_of_gt (Nat.zero_lt_of_lt hb))
    rw [skipIgnored, terminalAny_none_iff.mpr hstop]

/-- The outer loop takes one iteration for each hidden match. -/
theorem skipLoop_of_run {budget : ℕ} (h : GreedyRun rec sk p leaves q) (hp : p ≤ text.length)
    (hb : text.length - p < budget) : skipLoop text rec sk budget p = some (leaves, q) := by
  induction budget generalizing p leaves with
  | zero => exact absurd hb (Nat.not_lt_zero _)
  | succ budget ih =>
    obtain ⟨r, hr, hstop, hrun, hloop⟩ := skipIgnored_of_run hrec hsk h hp
    rw [skipLoop, hloop _ (by omega)]
    cases hrun with
    | stop _ hh => simp only [parseAnyHidden_none_iff.mpr hh]
    | @ignored _ rule p' _ _ hmatch _ =>
      have hnone := terminalAny_none_iff.mpr hstop
      rw [terminalAny_iff.mpr ⟨rule, hmatch⟩] at hnone
      cases hnone
    | hidden _ hmatch hrest =>
      have hstep := hiddenMatch_strict hrec hsk hr.le_length hmatch
      have hle := hr.le
      have hlt := hstep.lt trivial
      have hlength := hstep.le_length
      simp only [parseAnyHidden_iff.mpr ⟨_, rfl, hmatch⟩, ih hrest hlength (by omega)]

/-- **The two loops end at the same place.** -/
theorem skipWithoutBuilder_eq (hp : p ≤ text.length) :
    skipWithoutBuilder rec sk (text.length + 1) p
      = (skipFrom text rec sk p).map Prod.snd := by
  have hb : text.length - p < text.length + 1 := by omega
  rcases hs : skipFrom text rec sk p with - | ⟨leaves, q⟩
  · rcases hw : skipWithoutBuilder rec sk (text.length + 1) p with - | q
    · rfl
    · obtain ⟨leaves, hrun⟩ := skipWithoutBuilder_run hw
      have hsome : skipFrom text rec sk p = some (leaves, q) := skipLoop_of_run hrec hsk hrun hp hb
      rw [hs] at hsome
      cases hsome
  · exact skipWithoutBuilder_of_run hrec hsk (skipLoop_run hs) hp hb

end Bounded

/-! ### The cache of a tracked context -/

/-- What a tracked context needs for skipping.  The skippers are told apart by their
addresses; `saved` are those that the scopes of `with_skipper` give back. -/
structure SkipContext where
  cursor : ℕ
  skipper : ℕ
  saved : List ℕ
  skipCacheBegin : Option ℕ
  skipCacheEnd : ℕ
  skipCacheSkipper : Option ℕ

namespace SkipContext

variable (text : List UInt8) (rec : Matcher) (skippers : ℕ → Skipper)

/-- The context at the beginning of a text. -/
def initial (skipper : ℕ) : SkipContext := ⟨0, skipper, [], none, 0, none⟩

/-- The answer, and the context that remembers it. -/
def skip_without_builder (c : SkipContext) (start : ℕ) : Option (ℕ × SkipContext) :=
  if some start = c.skipCacheBegin ∧ some c.skipper = c.skipCacheSkipper then
    some (c.skipCacheEnd, c)
  else
    (skipWithoutBuilder rec (skippers c.skipper) (text.length + 1) start).map fun stop =>
      (stop, { c with
        skipCacheBegin := some start
        skipCacheEnd := stop
        skipCacheSkipper := some c.skipper })

/-- `TrackedParseContext::skip`: the recording skip, which fills the cache of the other one
in a recovery parse. -/
def skip (runRecoveryBookkeeping : Bool) (c : SkipContext) : Option SkipContext :=
  (skipFrom text rec (skippers c.skipper) c.cursor).map fun skipped =>
    if runRecoveryBookkeeping then
      { c with
        cursor := skipped.2
        skipCacheBegin := some c.cursor
        skipCacheEnd := skipped.2
        skipCacheSkipper := some c.skipper }
    else { c with cursor := skipped.2 }

/-- The scope of another skipper begins. -/
def with_skipper (overrideSkipper : ℕ) (c : SkipContext) : SkipContext :=
  { c with
    skipCacheBegin := none
    skipper := overrideSkipper
    saved := c.skipper :: c.saved }

/-- It ends. -/
def leaveSkipper (c : SkipContext) : Option SkipContext :=
  match c.saved with
  | [] => none
  | previous :: saved => some { c with skipper := previous, saved := saved }

/-- What happens to a tracked context, as far as skipping goes. -/
inductive Event where
  | skip
  | skip_without_builder (start : ℕ)
  | with_skipper (overrideSkipper : ℕ)
  | leaveSkipper
  /-- A leaf, an edit or a rewind sets the cursor. -/
  | moveCursor (cursor : ℕ)

/-- One event, where it is possible. -/
def step (runRecoveryBookkeeping : Bool) (c : SkipContext) : Event → Option SkipContext
  | .skip => c.skip text rec skippers runRecoveryBookkeeping
  | .skip_without_builder start => (c.skip_without_builder text rec skippers start).map (·.2)
  | .with_skipper overrideSkipper => some (c.with_skipper overrideSkipper)
  | .leaveSkipper => c.leaveSkipper
  | .moveCursor cursor => some { c with cursor := cursor }

/-- The context as a machine. -/
def machine (runRecoveryBookkeeping : Bool) : Machine SkipContext Event where
  step := step text rec skippers runRecoveryBookkeeping

/-- The positions are positions of the text. -/
def InText (_ : SkipContext) : Event → Prop
  | .skip_without_builder start => start ≤ text.length
  | .moveCursor cursor => cursor ≤ text.length
  | _ => True

/-- **The cache holds what its skipper would say**, and the cursor is in the text. -/
structure Sound (c : SkipContext) : Prop where
  cursor : c.cursor ≤ text.length
  cache : ∀ start skipper, c.skipCacheBegin = some start → c.skipCacheSkipper = some skipper →
    skipWithoutBuilder rec (skippers skipper) (text.length + 1) start = some c.skipCacheEnd

variable {text rec skippers} {c c' : SkipContext}

theorem sound_initial (skipper : ℕ) : Sound text rec skippers (.initial skipper) where
  cursor := Nat.zero_le _
  cache := by rintro _ _ ⟨⟩

/-- What is remembered is right when the skipper said it. -/
theorem sound_of_skipped {cursor start stop : ℕ} (hcursor : cursor ≤ text.length)
    (h : skipWithoutBuilder rec (skippers c.skipper) (text.length + 1) start = some stop) :
    Sound text rec skippers { c with
      cursor := cursor
      skipCacheBegin := some start
      skipCacheEnd := stop
      skipCacheSkipper := some c.skipper } where
  cursor := hcursor
  cache := by
    rintro _ _ ⟨⟩ ⟨⟩
    exact h

/-- The cache does not change the answer. -/
theorem Sound.answer (h : Sound text rec skippers c) (start : ℕ) :
    (c.skip_without_builder text rec skippers start).map Prod.fst
      = skipWithoutBuilder rec (skippers c.skipper) (text.length + 1) start := by
  unfold skip_without_builder
  split
  next hcached => exact (h.cache start c.skipper hcached.1.symm hcached.2.symm).symm
  next =>
    rw [Option.map_map]
    exact congrFun Option.map_id _

section Bounded

variable {Γ : Grammar} (hrec : MatcherBounded Γ text rec) (hsk : ∀ i, (skippers i).WellFormed Γ)
include hrec hsk

/-- The recording skip ends where the other one does. -/
theorem Sound.skipped (h : Sound text rec skippers c) (runRecoveryBookkeeping : Bool) :
    (c.skip text rec skippers runRecoveryBookkeeping).map (·.cursor)
      = skipWithoutBuilder rec (skippers c.skipper) (text.length + 1) c.cursor := by
  rw [skipWithoutBuilder_eq hrec (hsk _) h.cursor, skip, Option.map_map]
  refine congrArg (fun f => Option.map f _) (funext fun skipped => ?_)
  cases runRecoveryBookkeeping <;> rfl

/-- One event keeps the cache right. -/
theorem Sound.step {runRecoveryBookkeeping : Bool} {e : Event} (h : Sound text rec skippers c)
    (he : InText text c e)
    (hstep : (machine text rec skippers runRecoveryBookkeeping).step c e = some c') :
    Sound text rec skippers c' := by
  cases e with
  | skip =>
    obtain ⟨⟨leaves, stop⟩, hskip, rfl⟩ := Option.map_eq_some_iff.mp hstep
    have hstop := (skipFrom_bounds hrec (hsk _) h.cursor hskip).1.le_length
    have hsame := skipWithoutBuilder_eq hrec (hsk c.skipper) h.cursor
    rw [hskip] at hsame
    cases runRecoveryBookkeeping with
    | false => exact ⟨hstop, h.cache⟩
    | true => exact sound_of_skipped hstop hsame
  | skip_without_builder start =>
    obtain ⟨⟨stop, c₁⟩, hskip, rfl⟩ := Option.map_eq_some_iff.mp hstep
    unfold skip_without_builder at hskip
    split at hskip
    next =>
      cases hskip
      exact h
    next =>
      obtain ⟨stop', hstop, heq⟩ := Option.map_eq_some_iff.mp hskip
      cases heq
      exact sound_of_skipped h.cursor hstop
  | with_skipper overrideSkipper =>
    cases hstep
    exact ⟨h.cursor, by rintro _ _ ⟨⟩⟩
  | leaveSkipper =>
    -- what was remembered in the scope was remembered for the skipper of the scope
    simp only [machine, SkipContext.step, SkipContext.leaveSkipper] at hstep
    split at hstep
    next => cases hstep
    next =>
      cases hstep
      exact ⟨h.cursor, h.cache⟩
  | moveCursor cursor =>
    cases hstep
    exact ⟨he, h.cache⟩

theorem Sound.reaches {runRecoveryBookkeeping : Bool} (h : Sound text rec skippers c)
    (hrun : (machine text rec skippers runRecoveryBookkeeping).Reaches (InText text) c c') :
    Sound text rec skippers c' :=
  hrun.invariant h fun _ _ _ hs he hstep => hs.step hrec hsk he hstep

end Bounded

end SkipContext

/-! ### The two overloads converge -/

/-- What the two overloads say of a position. -/
structure SkippersConverge (text : List UInt8) (rec : Matcher) (sk : Skipper) (p : ℕ) : Prop where
  /-- They end at the same place. -/
  same : skipWithoutBuilder rec sk (text.length + 1) p = (skipFrom text rec sk p).map Prod.snd
  /-- They end, when the matches of the rules do. -/
  ends : SkipperReturns text rec sk → ∃ leaves q, skipFrom text rec sk p = some (leaves, q)
  /-- The leaves are the hidden matches of the greedy run. -/
  greedy : ∀ leaves q, skipFrom text rec sk p = some (leaves, q) →
    GreedyRun rec sk p leaves q ∧ GapsIgnored rec sk p leaves q ∧ LeavesWithin p leaves q

theorem skippersConverge_of_bounded {Γ : Grammar} {text : List UInt8} {rec : Matcher}
    {sk : Skipper} {p : ℕ} (hrec : MatcherBounded Γ text rec) (hsk : sk.WellFormed Γ)
    (hp : p ≤ text.length) : SkippersConverge text rec sk p where
  same := skipWithoutBuilder_eq hrec hsk hp
  ends := by
    intro hreturns
    rcases hs : skipFrom text rec sk p with - | ⟨leaves, q⟩
    · exact absurd hs (skipFrom_returns hrec hsk hreturns hp)
    · exact ⟨leaves, q, rfl⟩
  greedy := by
    intro leaves q hs
    have hrun := skipLoop_run hs
    exact ⟨hrun, hrun.gapsIgnored, (skipFrom_bounds hrec hsk hp hs).2⟩

open SkipContext in
/-- **The two skippers converge.**  They end at the same place of every greedy run, and the
recording one leaves the hidden matches of that run.  A context whose cache is filled by
both answers what the skipper in force would, after any operations. -/
theorem skippers_converge {Γ : Grammar} (hΓ : Γ.WellFormed) (text : List UInt8) (n : ℕ)
    {skippers : ℕ → Skipper} (hsk : ∀ i, (skippers i).WellFormed Γ) :
    (∀ i p, p ≤ text.length →
      SkippersConverge text (interp Γ text n).terminal (skippers i) p) ∧
    ∀ runRecoveryBookkeeping first c,
      (machine text (interp Γ text n).terminal skippers runRecoveryBookkeeping).Reaches
        (InText text) (.initial first) c →
      (∀ start, (c.skip_without_builder text (interp Γ text n).terminal skippers start).map
          Prod.fst
        = skipWithoutBuilder (interp Γ text n).terminal (skippers c.skipper)
            (text.length + 1) start) ∧
      (c.skip text (interp Γ text n).terminal skippers runRecoveryBookkeeping).map (·.cursor)
        = skipWithoutBuilder (interp Γ text n).terminal (skippers c.skipper)
            (text.length + 1) c.cursor := by
  have hrec := (bounded_interp hΓ text n).terminal
  refine ⟨fun i p hp => skippersConverge_of_bounded hrec (hsk i) hp, ?_⟩
  intro runRecoveryBookkeeping first c hrun
  have hsound := (sound_initial first).reaches hrec hsk hrun
  exact ⟨hsound.answer, hsound.skipped hrec hsk runRecoveryBookkeeping⟩

/-- Blanks are ignored, and `#` is hidden. -/
def commentSkipper : Skipper := ⟨[(.expression 1, .literal 1 [35] true)], [.literal 0 [32] true]⟩

theorem commentSkipper_wellFormed {Γ : Grammar} : commentSkipper.WellFormed Γ := by
  refine ⟨?_, ?_⟩
  · intro rule hrule
    rw [List.mem_singleton.mp hrule]
    exact ⟨Expr.literal_wellFormed (by decide), rfl, rfl⟩
  · intro rule hrule
    rw [List.mem_singleton.mp hrule]
    exact ⟨Expr.literal_wellFormed (by decide), rfl, rfl⟩

/-- Both skip ` # ` as a whole, and the leaf is the `#`. -/
theorem skippers_converge_comment :
    SkippersConverge [32, 35, 32]
        (interp (.sample (.literal 0 [120] true) false) [32, 35, 32] 1).terminal
        commentSkipper 0 ∧
      skipFrom [32, 35, 32]
        (interp (.sample (.literal 0 [120] true) false) [32, 35, 32] 1).terminal
        commentSkipper 0 = some ([(.expression 1, 1, 2)], 3) := by
  have hΓ : (Grammar.sample (.literal 0 [120] true) false).WellFormed :=
    Grammar.sample_wellFormed (Expr.literal_wellFormed (by decide)) (by simp [Expr.nullable])
  refine ⟨?_, rfl⟩
  exact (skippers_converge hΓ _ 1 fun _ => commentSkipper_wellFormed).1 0 0 (Nat.zero_le _)

end Pegium
