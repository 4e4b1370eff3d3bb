/-
Pegium/References/Completion.lean

Calls come to an end.

A thread that sleeps is woken: the reference is still being resolved, or its
resolver is about to notify (`Roused`).  So where no reference forces itself, some
thread goes on as long as a call is open.

A step lets a call advance, or opens a call for a reference that is forced, or moves
a thread in the loop of `acquireResolverRole`; so threads do not go on forever.
-/
import Mathlib.Logic.Hydra
import Mathlib.Tactic.Abel
import Pegium.References.OneShot

namespace Pegium

variable {R V : Type} [DecidableEq R]

namespace ResolutionState

variable {linker : R → Option (Resolution R V)} {s s' : ResolutionState R V}

/-! ### No lost wake-up -/

/-- Who sleeps will be woken. -/
def Roused (s : ResolutionState R V) : Prop :=
  ∀ (t : ℕ) (r : R) (rest : List (ResolutionFrame R V)),
    s.threads[t]? = some (⟨r, .waiting false⟩ :: rest) → (s.cells r).state = .resolving ∨
      ∃ (t' : ℕ) (thrown : Option Thrown) (rest' : List (ResolutionFrame R V)),
        s.threads[t']? = some (⟨r, .notify thrown⟩ :: rest')

namespace Roused

variable {t : ℕ} {stack stack' : List (ResolutionFrame R V)}

omit [DecidableEq R] in
theorem set (h : s.Roused) (ht : s.threads[t]? = some stack)
    (hthreads : s'.threads = s.threads.set t stack')
    (hstate : ∀ r, (s.cells r).state = .resolving → (s'.cells r).state = .resolving ∨
      ∃ thrown rest, stack' = ⟨r, .notify thrown⟩ :: rest)
    (hnew : ∀ r rest, stack' = ⟨r, .waiting false⟩ :: rest → (s'.cells r).state = .resolving)
    (hnotify : ∀ r thrown rest, stack = ⟨r, .notify thrown⟩ :: rest → stack' = stack ∨
      ∀ (t₁ : ℕ) (rest₁ : List (ResolutionFrame R V)),
        s.threads[t₁]? ≠ some (⟨r, .waiting false⟩ :: rest₁)) : s'.Roused := by
  have hlt := (List.getElem?_eq_some_iff.mp ht).1
  have hself : s'.threads[t]? = some stack' := hthreads ▸ List.getElem?_set_self hlt
  have hother : ∀ t', t ≠ t' → s'.threads[t']? = s.threads[t']? := by
    intro t' hne
    rw [hthreads]
    exact List.getElem?_set_ne hne
  intro t₁ r rest₁ ht₁
  by_cases heq : t = t₁
  · subst heq
    exact .inl (hnew r rest₁ (Option.some.inj (hself.symm.trans ht₁)))
  · rw [hother t₁ heq] at ht₁
    rcases h t₁ r rest₁ ht₁ with hres | ⟨t', thrown, rest', ht'⟩
    · refine (hstate r hres).imp id ?_
      rintro ⟨thrown, rest, rfl⟩
      exact ⟨t, thrown, rest, hself⟩
    · right
      by_cases heq' : t = t'
      · subst heq'
        cases ht.symm.trans ht'
        rcases hnotify r thrown rest' rfl with rfl | hnone
        · exact ⟨t, thrown, rest', hself⟩
        · exact absurd ht₁ (hnone t₁ rest₁)
      · exact ⟨t', thrown, rest', (hother t' heq').trans ht'⟩

/-- Who is still asleep after a notification was asleep before. -/
theorem asleep_of_notifyAll {r r' : R} {rest : List (ResolutionFrame R V)}
    (ht : (s.notifyAll r').threads[t]? = some (⟨r, .waiting false⟩ :: rest)) :
    s.threads[t]? = some (⟨r, .waiting false⟩ :: rest) ∧
      (r = r' → ¬ 0 < (s.cells r').waiterCount) := by
  rw [notifyAll_stack] at ht
  split at ht
  case isTrue hcount =>
    obtain ⟨stack', ht', heq⟩ := Option.map_eq_some_iff.mp ht
    rcases stack' with - | ⟨⟨r'', phase⟩, rest'⟩
    · cases heq
    · by_cases href : r'' = r'
      · rw [wakeStack, if_pos href] at heq
        cases phase <;> simp [ResolutionPhase.wake] at heq
      · rw [wakeStack, if_neg href] at heq
        cases heq
        exact ⟨ht', fun h => absurd h href⟩
  case isFalse hcount => exact ⟨ht, fun _ => hcount⟩

theorem notifyAll (h : s.Roused) (r' : R) : (s.notifyAll r').Roused := by
  intro t r rest ht
  refine (h t r rest (asleep_of_notifyAll ht).1).imp id ?_
  rintro ⟨t', thrown, rest', ht'⟩
  refine ⟨t', thrown, rest', ?_⟩
  rw [notifyAll_stack, ht', Option.map_some, wakeStack]
  simp [ResolutionPhase.wake]

/-- After a notification nobody sleeps: who sleeps is counted. -/
theorem awake_notifyAll (hheld : s.Held) {r : R} (t₁ : ℕ) (rest₁ : List (ResolutionFrame R V)) :
    (s.notifyAll r).threads[t₁]? ≠ some (⟨r, .waiting false⟩ :: rest₁) := by
  intro ht
  obtain ⟨ht', hcount⟩ := asleep_of_notifyAll ht
  have hpos := List.le_sum_map (f := tally ResolutionPhase.counted r) (List.mem_of_getElem? ht')
  have hcounted := hheld.counted r
  have : 0 < tally ResolutionPhase.counted r (⟨r, .waiting false⟩ :: rest₁) := tally_pos rfl
  unfold total at hcounted
  exact hcount rfl (by omega)

theorem move (h : s.Roused) (hs : s.Roles linker) {e : ResolutionEvent R}
    (hm : s.Move linker e s') : s'.Roused := by
  cases hm with
  | notify ht | escape ht | fallThrough ht | cancelThrough ht =>
    refine (h.notifyAll _).set (notifyAll_self ht) rfl (fun _ => .inl) nofun ?_
    rintro r thrown rest ⟨⟩
    exact .inr (awake_notifyAll hs.held)
  | clear idle =>
    intro t r rest ht
    exact absurd (eq_nil_of_idle idle (List.mem_of_getElem? ht)) nofun
  | @wake t r phase rest ht =>
    refine h.set ht rfl (fun _ => .inl) ?_ ?_
    · cases phase <;> exact nofun
    · rintro r' thrown rest' ⟨⟩
      exact .inl rfl
  | load ht | lose ht =>
    refine h.set ht rfl (fun _ => .inl) ?_ nofun
    cases (s.cells _).state <;> exact nofun
  | get ht | acquire ht | enqueue ht | addWaiter ht | sleep ht | pass ht | removeWaiter ht
  | ownUnlinked ht | own ht | ask ht | link ht | refuse ht | throw ht | write ht | fail ht
  | disown ht | store ht | closeCycle ht | finish ht | answer ht =>
    apply h.set ht rfl <;> grind

end Roused

/-! ### Progress -/

/-- Only who sleeps is stuck. -/
theorem asleep_of_stuck (hs : s.Roles linker) {t : ℕ} {r : R} {phase : ResolutionPhase R V}
    {rest : List (ResolutionFrame R V)} (ht : s.threads[t]? = some (⟨r, phase⟩ :: rest))
    (hstuck : s.frameStep linker t r rest phase = none) : phase = .waiting false := by
  obtain ⟨hrunning, hbelow⟩ := hs.stacked _ (List.mem_of_getElem? ht)
  -- A call returns to the call that waits for it.
  have hcaller : rest = [] ∨ ∃ r₀ k rest', rest = ⟨r₀, .awaiting k⟩ :: rest' := by
    rcases rest with - | ⟨⟨r₀, phase₀⟩, rest'⟩
    · exact .inl rfl
    · cases phase₀ with
      | awaiting k => exact .inr ⟨r₀, k, rest', rfl⟩
      | _ => exact hbelow.elim
  revert hstuck
  fun_cases frameStep s linker t r rest phase with
  | case4 own =>
    have hpos := (hs.owned t _ ht r).mp own
    rcases hcaller with rfl | ⟨r₀, k, rest', rfl⟩
    · rw [tally_cons, if_neg (by rintro ⟨-, h⟩; cases h)] at hpos
      exact absurd hpos (Nat.lt_irrefl 0)
    · rintro ⟨⟩
  | case9 => exact fun _ => rfl
  | case17 => exact hrunning.elim
  | case23 thrown =>
    rcases hcaller with rfl | ⟨r₀, k, rest', rfl⟩
    · rintro ⟨⟩
    · cases thrown <;> rintro ⟨⟩
  | case24 told =>
    rcases hcaller with rfl | ⟨r₀, k, rest', rfl⟩ <;> rintro ⟨⟩
  | _ => rintro ⟨⟩

/-- **As long as a call is open, some thread goes on**, where no reference forces itself. -/
theorem exists_goOn (hs : s.Roles linker) (hroused : s.Roused)
    (acyclic : ∀ r, ¬ Forces linker r r) (hopen : s.idle = false) :
    ∃ t s', s.step linker (.goOn t) = some s' := by
  by_contra hstuck
  push Not at hstuck
  have hasleep : ∀ {t : ℕ} {r : R} {phase : ResolutionPhase R V}
      {rest : List (ResolutionFrame R V)}, s.threads[t]? = some (⟨r, phase⟩ :: rest) →
      phase = .waiting false := by
    intro t r phase rest ht
    refine asleep_of_stuck hs ht (Option.eq_none_iff_forall_ne_some.mpr fun s' h => hstuck t s' ?_)
    rw [step, ht]
    exact h
  have hwaits : ∀ {t : ℕ} {r : R} {phase : ResolutionPhase R V}
      {rest : List (ResolutionFrame R V)}, s.threads[t]? = some (⟨r, phase⟩ :: rest) →
      s.Waits t r := by
    intro t r phase rest ht
    cases hasleep ht
    exact ⟨_, rest, ht, rfl⟩
  have hdead : s.Deadlocked {t | ∃ frame rest, s.threads[t]? = some (frame :: rest)} := by
    constructor
    · obtain ⟨stack, hmem, hne⟩ : ∃ stack ∈ s.threads, stack ≠ [] := by
        by_contra hnone
        push Not at hnone
        have hidle : s.idle = true :=
          List.all_eq_true.mpr fun stack hmem => List.isEmpty_iff.mpr (hnone stack hmem)
        exact absurd (hopen.symm.trans hidle) Bool.false_ne_true
      obtain ⟨t, ht⟩ := List.mem_iff_getElem?.mp hmem
      obtain ⟨frame, rest, rfl⟩ := List.exists_cons_of_ne_nil hne
      exact ⟨t, frame, rest, ht⟩
    · rintro t ⟨⟨r, phase⟩, rest, ht⟩
      have hwait := hwaits ht
      cases hasleep ht
      refine ⟨r, hwait, ?_⟩
      -- The reference is being resolved, or the one who notifies could go on.
      have hresolving : (s.cells r).state = .resolving := by
        rcases hroused t r rest ht with h | ⟨t', thrown, rest', ht'⟩
        · exact h
        · cases hasleep ht'
      have hheld := hs.held.holds r
      rw [if_pos hresolving] at hheld
      obtain ⟨t', stack, ht', hpos⟩ :=
        List.exists_of_sum_map_pos (f := tally ResolutionPhase.holds r) (l := s.threads)
          (Nat.lt_of_lt_of_eq Nat.one_pos hheld.symm)
      have hresolves : s.Resolves t' r := ⟨stack, ht', hpos⟩
      refine ⟨t', ?_, ?_, hresolves⟩
      · rcases stack with - | ⟨frame, rest'⟩
        · cases hpos
        · exact ⟨frame, rest', ht'⟩
      · rintro rfl
        exact hwait.not_resolves hs hresolves
  obtain ⟨t, t', r, r', -, -, -, hforces, hforces'⟩ := hdead.crossing hs
  exact acyclic r (hforces.trans hforces')

/-! ### No endless run -/

/-- What comes after a phase, but for the loop of `acquireResolverRole`. -/
inductive After : ResolutionPhase R V → ResolutionPhase R V → Prop
  | told {told : Option ReferenceState} : After (.reading told) .load
  | own : After .own .load
  | unlinked {state : ReferenceState} {thrown : Option Thrown} : After (.disown state thrown) .own
  | linked {resolution : Resolution R V} : After (.resolving resolution) .own
  | ask {r : R} {k : Reading V → Resolution R V} : After (.awaiting k) (.resolving (.ask r k))
  | link {target : V} : After (.writing target) (.resolving (.link target))
  | refuse {kind : LinkingErrorKind} {state : ReferenceState} {thrown : Option Thrown} :
    After (.disown state thrown) (.resolving (.refuse kind))
  | throw {thrown thrown' : Thrown} {left : Option V} :
    After (.failing thrown') (.resolving (.throw thrown left))
  | answer {k : Reading V → Resolution R V} {reading : Reading V} :
    After (.resolving (k reading)) (.awaiting k)
  | refused {k : Reading V → Resolution R V} {state : ReferenceState} {thrown : Option Thrown} :
    After (.disown state thrown) (.awaiting k)
  | failed {k : Reading V → Resolution R V} {thrown : Thrown} :
    After (.failing thrown) (.awaiting k)
  | write {target : V} {state : ReferenceState} {thrown : Option Thrown} :
    After (.disown state thrown) (.writing target)
  | fail {thrown : Thrown} {state : ReferenceState} {thrown' : Option Thrown} :
    After (.disown state thrown') (.failing thrown)
  | disown {state : ReferenceState} {thrown : Option Thrown} :
    After (.store state thrown) (.disown state thrown)
  | store {state : ReferenceState} {thrown : Option Thrown} :
    After (.notify thrown) (.store state thrown)
  | notify {thrown : Option Thrown} {told : Option ReferenceState} :
    After (.reading told) (.notify thrown)

omit [DecidableEq R] in
/-- **A call comes to an end**, but for the loop: a resolution is well-founded. -/
theorem wellFounded_after :
    WellFounded (After : ResolutionPhase R V → ResolutionPhase R V → Prop) := by
  have reading : ∀ told, Acc After (.reading told : ResolutionPhase R V) := by
    intro told
    constructor
    rintro _ ⟨⟩
  have notify : ∀ thrown, Acc After (.notify thrown : ResolutionPhase R V) := by
    intro thrown
    constructor
    rintro _ ⟨⟩
    exact reading _
  have store : ∀ state thrown, Acc After (.store state thrown : ResolutionPhase R V) := by
    intro state thrown
    constructor
    rintro _ ⟨⟩
    exact notify _
  have disown : ∀ state thrown, Acc After (.disown state thrown : ResolutionPhase R V) := by
    intro state thrown
    constructor
    rintro _ ⟨⟩
    exact store _ _
  have failing : ∀ thrown, Acc After (.failing thrown : ResolutionPhase R V) := by
    intro thrown
    constructor
    rintro _ ⟨⟩
    exact disown _ _
  have writing : ∀ target, Acc After (.writing target : ResolutionPhase R V) := by
    intro target
    constructor
    rintro _ ⟨⟩
    exact disown _ _
  have resolving : ∀ resolution, Acc After (.resolving resolution : ResolutionPhase R V) := by
    intro resolution
    induction resolution with
    | ask r k ih =>
      constructor
      rintro _ ⟨⟩
      constructor
      rintro _ (_ | _)
      · exact ih _
      · exact disown _ _
      · exact failing _
    | link target =>
      constructor
      rintro _ ⟨⟩
      exact writing _
    | refuse kind =>
      constructor
      rintro _ ⟨⟩
      exact disown _ _
    | throw thrown left =>
      constructor
      rintro _ ⟨⟩
      exact failing _
  have awaiting : ∀ k, Acc After (.awaiting k : ResolutionPhase R V) := by
    intro k
    constructor
    rintro _ (_ | _)
    · exact resolving _
    · exact disown _ _
    · exact failing _
  have own : Acc After (.own : ResolutionPhase R V) := by
    constructor
    rintro _ (_ | _)
    · exact disown _ _
    · exact resolving _
  have load : Acc After (.load : ResolutionPhase R V) := by
    constructor
    rintro _ (_ | _)
    · exact reading _
    · exact own
  refine ⟨fun phase => ?_⟩
  cases phase with
  | load => exact load
  | own => exact own
  | resolving resolution => exact resolving resolution
  | awaiting k => exact awaiting k
  | writing target => exact writing target
  | failing thrown => exact failing thrown
  | disown state thrown => exact disown state thrown
  | store state thrown => exact store state thrown
  | notify thrown => exact notify thrown
  | reading told => exact reading told
  | _ =>
    constructor
    rintro _ ⟨⟩

/-- A call that is still in the loop, wherever it is there. -/
def outside : ResolutionPhase R V → ResolutionPhase R V
  | .exchange | .checkOwner | .addWaiter | .waiting _ | .removeWaiter => .load
  | phase => phase

/-- A call, but for where it is in the loop. -/
def outline (frame : ResolutionFrame R V) : R × ResolutionPhase R V :=
  (frame.reference, outside frame.phase)

/-- The open calls, but for where they are in the loop. -/
def outlines (s : ResolutionState R V) : Multiset (R × ResolutionPhase R V) :=
  (s.threads.map fun stack => (stack.map outline : Multiset (R × ResolutionPhase R V))).sum

/-- How far a call is from leaving the loop, or from sleeping. -/
def loopWeight : ResolutionPhase R V → ReferenceState → ℕ
  | .waiting false, _ => 0
  | .waiting true, .resolving => 1
  | .addWaiter, .resolving => 2
  | .checkOwner, .resolving => 3
  | .exchange, .resolving | .load, .resolving => 4
  | .removeWaiter, .resolving => 5
  | .load, _ => 1
  | .removeWaiter, _ => 2
  | .waiting true, _ => 3
  | .addWaiter, _ => 4
  | .checkOwner, _ => 5
  | _, _ => 0

/-- The same for the call of a thread that goes on. -/
def stackWeight (states : R → ReferenceState) : List (ResolutionFrame R V) → ℕ
  | ⟨r, phase⟩ :: _ => loopWeight phase (states r)
  | [] => 0

/-- How far the threads are from leaving the loop. -/
def loops (s : ResolutionState R V) : ℕ :=
  (s.threads.map (stackWeight fun r => (s.cells r).state)).sum

variable (linker) in
/-- A call advances, or gives way to calls for references that are forced. -/
def Advances : R × ResolutionPhase R V → R × ResolutionPhase R V → Prop :=
  Prod.Lex (Function.swap (Forces linker)) After

variable (linker) in
/-- The open calls advance. -/
def Shrinks : Multiset (R × ResolutionPhase R V) → Multiset (R × ResolutionPhase R V) → Prop :=
  Relation.TransGen (Relation.CutExpand (Advances linker))

variable (linker) in
/-- The open calls advance, or a thread moves in the loop. -/
def Closer (s' s : ResolutionState R V) : Prop :=
  Prod.Lex (Shrinks linker) (· < ·) (s'.outlines, s'.loops) (s.outlines, s.loops)

omit [DecidableEq R] in
theorem wellFounded_closer [Finite R] (acyclic : ∀ r, ¬ Forces linker r r) :
    WellFounded (Closer linker : ResolutionState R V → ResolutionState R V → Prop) :=
  InvImage.wf (fun s : ResolutionState R V => (s.outlines, s.loops))
    (WellFounded.prod_lex
      (WellFounded.cutExpand ((wellFounded_forces acyclic).prod_lex wellFounded_after)).transGen
      Nat.lt_wfRel.wf)

section Closer

variable {t : ℕ} {stack stack' : List (ResolutionFrame R V)}

omit [DecidableEq R] in
theorem outlines_set (ht : s.threads[t]? = some stack)
    (hthreads : s'.threads = s.threads.set t stack') :
    ∃ rest : Multiset (R × ResolutionPhase R V),
      s.outlines = rest + (stack.map outline : Multiset _) ∧
      s'.outlines = rest + (stack'.map outline : Multiset _) := by
  obtain ⟨rest, hsum, hset⟩ := List.exists_sum_map_set
    (f := fun stack => (stack.map outline : Multiset (R × ResolutionPhase R V))) ht
  refine ⟨rest, hsum, ?_⟩
  unfold outlines
  rw [hthreads]
  exact hset stack'

omit [DecidableEq R] in
/-- The call that goes on advances, or gives way to other calls. -/
theorem shrinks_of_advances {frame : ResolutionFrame R V} {rest : List (ResolutionFrame R V)}
    (new : List (ResolutionFrame R V)) (ht : s.threads[t]? = some (frame :: rest))
    (hthreads : s'.threads = s.threads.set t (new ++ rest))
    (h : ∀ frame' ∈ new, Advances linker (outline frame') (outline frame)) :
    Shrinks linker s'.outlines s.outlines := by
  obtain ⟨others, hs, hs'⟩ := outlines_set ht hthreads
  refine .single ⟨(new.map outline : Multiset _), outline frame, ?_, ?_⟩
  · intro x hx
    obtain ⟨frame', hmem, rfl⟩ := List.mem_map.mp (Multiset.mem_coe.mp hx)
    exact h frame' hmem
  · rw [hs, hs', List.map_append, List.map_cons, ← Multiset.coe_add, ← Multiset.cons_coe,
      ← Multiset.singleton_add]
    abel

omit [DecidableEq R] in
/-- The call that goes on returns, and its caller advances. -/
theorem shrinks_of_return {frame frame₀ frame' : ResolutionFrame R V}
    {rest : List (ResolutionFrame R V)} (ht : s.threads[t]? = some (frame :: frame₀ :: rest))
    (hthreads : s'.threads = s.threads.set t (frame' :: rest))
    (h : Advances linker (outline frame') (outline frame₀)) :
    Shrinks linker s'.outlines s.outlines := by
  obtain ⟨others, hs, hs'⟩ := outlines_set ht hthreads
  refine .tail (.single (b := others + ((frame₀ :: rest).map outline : Multiset _)) ?_) ?_
  · refine ⟨{outline frame'}, outline frame₀, by simpa using h, ?_⟩
    rw [hs', List.map_cons, List.map_cons, ← Multiset.cons_coe, ← Multiset.cons_coe,
      ← Multiset.singleton_add, ← Multiset.singleton_add]
    abel
  · refine ⟨0, outline frame, nofun, ?_⟩
    rw [hs, List.map_cons (a := frame), ← Multiset.cons_coe, ← Multiset.singleton_add]
    abel

omit [DecidableEq R] in
/-- A thread moves in the loop. -/
theorem Closer.of_loop {r : R} {phase phase' : ResolutionPhase R V}
    {rest : List (ResolutionFrame R V)} (ht : s.threads[t]? = some (⟨r, phase⟩ :: rest))
    (hthreads : s'.threads = s.threads.set t (⟨r, phase'⟩ :: rest))
    (hstate : ∀ r, (s'.cells r).state = (s.cells r).state)
    (houtside : outside phase' = outside phase)
    (hlt : loopWeight phase' (s.cells r).state < loopWeight phase (s.cells r).state) :
    Closer linker s' s := by
  obtain ⟨others, hs, hs'⟩ := outlines_set ht hthreads
  have heq : s'.outlines = s.outlines := by
    rw [hs, hs', List.map_cons, List.map_cons, outline, outline, houtside]
  unfold Closer
  rw [heq]
  refine .right _ ?_
  have hsum := List.sum_map_set_add (f := stackWeight fun r => (s.cells r).state) ht
    (⟨r, phase'⟩ :: rest)
  unfold loops
  rw [hthreads, show (fun r => (s'.cells r).state) = fun r => (s.cells r).state from funext hstate]
  simp only [stackWeight] at hsum
  omega

end Closer

theorem outlines_notifyAll (r : R) : (s.notifyAll r).outlines = s.outlines := by
  have hwake : ∀ phase : ResolutionPhase R V, outside phase.wake = outside phase := by
    intro phase
    cases phase <;> rfl
  have hstack : ∀ stack : List (ResolutionFrame R V),
      (wakeStack r stack).map outline = stack.map outline := by
    intro stack
    rcases stack with - | ⟨⟨r', phase⟩, rest⟩
    · rfl
    · by_cases heq : r' = r
      · rw [wakeStack, if_pos heq, List.map_cons, List.map_cons, outline, outline, hwake]
      · rw [wakeStack, if_neg heq]
  unfold outlines notifyAll
  dsimp only
  split
  · rw [List.map_map]
    congr 2
    funext stack
    exact congrArg _ (hstack stack)
  · rfl

omit [DecidableEq R] in
theorem closer_seen {t : ℕ} {r : R} {phase : ResolutionPhase R V}
    {rest : List (ResolutionFrame R V)} (ht : s.threads[t]? = some (⟨r, phase⟩ :: rest))
    (hphase : phase = .load ∨ phase = .exchange ∧ (s.cells r).state ≠ .unresolved) :
    Closer linker (s.putStack t (⟨r, seen (s.cells r).state⟩ :: rest)) s := by
  cases hstate : (s.cells r).state with
  | unresolved | resolving =>
    refine .of_loop ht rfl (fun _ => rfl) ?_ ?_
    · rcases hphase with rfl | ⟨rfl, -⟩ <;> rfl
    · rcases hphase with rfl | ⟨rfl, hne⟩ <;> simp_all [loopWeight, seen]
  | _ =>
    refine .left _ _ (shrinks_of_advances [⟨r, seen _⟩] ht rfl ?_)
    rintro frame' hmem
    cases List.mem_singleton.mp hmem
    rcases hphase with rfl | ⟨rfl, -⟩ <;> exact .right _ .told

/-- **Every step of a thread brings its calls closer to their end.** -/
theorem closer_of_goOn (hs : s.Roles linker) {t : ℕ} (hm : s.Move linker (.goOn t) s') :
    Closer linker s' s := by
  have one : ∀ {frame frame' : ResolutionFrame R V} {rest : List (ResolutionFrame R V)}
      {s₀ s'' : ResolutionState R V}, s₀.threads[t]? = some (frame :: rest) →
      s''.threads = s₀.threads.set t (frame' :: rest) →
      Advances linker (outline frame') (outline frame) →
      Shrinks linker s''.outlines s₀.outlines := by
    intro frame frame' rest s₀ s'' ht hthreads h
    refine shrinks_of_advances [frame'] ht hthreads fun frame'' hmem => ?_
    cases List.mem_singleton.mp hmem
    exact h
  cases hm with
  | load ht => exact closer_seen ht (.inl rfl)
  | lose ht taken => exact closer_seen ht (.inr ⟨rfl, taken⟩)
  | enqueue ht other =>
    refine .of_loop ht rfl (fun _ => rfl) rfl ?_
    cases (s.cells _).state <;> simp [loopWeight]
  | addWaiter ht | removeWaiter ht =>
    refine .of_loop ht rfl (by grind) rfl ?_
    cases (s.cells _).state <;> simp [loopWeight]
  | sleep ht taken =>
    refine .of_loop ht rfl (fun _ => rfl) rfl ?_
    simp [loopWeight, taken]
  | pass ht changed =>
    refine .of_loop ht rfl (fun _ => rfl) rfl ?_
    cases hstate : (s.cells _).state <;> simp_all [loopWeight]
  | acquire ht => exact .left _ _ (one ht rfl (.right _ .own))
  | ownUnlinked ht => exact .left _ _ (one ht rfl (.right _ .unlinked))
  | own ht => exact .left _ _ (one ht rfl (.right _ .linked))
  | link ht => exact .left _ _ (one ht rfl (.right _ .link))
  | refuse ht => exact .left _ _ (one ht rfl (.right _ .refuse))
  | throw ht => exact .left _ _ (one ht rfl (.right _ .throw))
  | write ht => exact .left _ _ (one ht rfl (.right _ .write))
  | fail ht => exact .left _ _ (one ht rfl (.right _ .fail))
  | disown ht => exact .left _ _ (one ht rfl (.right _ .disown))
  | store ht => exact .left _ _ (one ht rfl (.right _ .store))
  | @ask t r r' k rest ht =>
    have hdepends := (hs.stacked _ (List.mem_of_getElem? ht)).1 r' .here
    refine .left _ _ (shrinks_of_advances [⟨r', .load⟩, ⟨r, .awaiting k⟩] ht rfl ?_)
    intro frame' hmem
    rcases List.mem_pair.mp hmem with rfl | rfl
    · exact .left _ _ (.single hdepends)
    · exact .right _ .ask
  | finish ht => exact .left _ _ (shrinks_of_advances [] ht rfl (by rintro _ ⟨⟩))
  | closeCycle ht => exact .left _ _ (shrinks_of_return ht rfl (.right _ .refused))
  | answer ht => exact .left _ _ (shrinks_of_return ht rfl (.right _ .answer))
  | notify ht =>
    refine .left _ _
      (outlines_notifyAll (s := s) _ ▸ one (notifyAll_self ht) rfl (.right _ .notify))
  | escape ht =>
    refine .left _ _ (outlines_notifyAll (s := s) _ ▸
      shrinks_of_advances [] (notifyAll_self ht) rfl (by rintro _ ⟨⟩))
  | fallThrough ht =>
    refine .left _ _ (outlines_notifyAll (s := s) _ ▸
      shrinks_of_return (notifyAll_self ht) rfl (.right _ .refused))
  | cancelThrough ht =>
    refine .left _ _ (outlines_notifyAll (s := s) _ ▸
      shrinks_of_return (notifyAll_self ht) rfl (.right _ .failed))

/-! ### One shot -/

/-- What holds of every state that is reached, where no reference forces itself. -/
structure Invariant (linker : R → Option (Resolution R V)) (s : ResolutionState R V) : Prop where
  settling : s.Settling linker
  ran : s.Ran linker
  thrower : s.Thrower
  answered : s.Answered
  roused : s.Roused

theorem invariant_of_reaches (acyclic : ∀ r, ¬ Forces linker r r) {n : ℕ}
    (h : (machine linker).Reaches (fun _ _ => True) (initial n) s) : s.Invariant linker := by
  refine h.invariant ?_ fun s e s' hs _ hstep => ?_
  · refine ⟨settling_initial linker n, fun r _ => ?_, ⟨nofun, nofun⟩, nofun, fun t r rest ht => ?_⟩
    · rw [total_of_idle (idle_initial n) r]
      rfl
    · exact absurd (eq_nil_initial (List.mem_of_getElem? ht)) nofun
  · have hm := move_of_step hstep
    have hroles := hs.settling.roles
    exact ⟨hs.settling.move acyclic hm, hs.ran.move hroles hm, hs.thrower.move hroles hm,
      hs.answered.move hs.settling acyclic hm, hs.roused.move hroles hm⟩

/-- References are resolved once, and calls are answered. -/
structure OneShot (linker : R → Option (Resolution R V)) (s : ResolutionState R V) : Prop where
  /-- `doResolve` runs at most once more than it asks to be tried again. -/
  once : ∀ r, (linker r).isSome = true → s.runs r ≤ s.retries r + 1
  /-- When no call is open, it ran for a reference that was asked for, and no reference is left in
  `Resolving`. -/
  done : s.idle = true → ∀ r, (s.cells r).state ≠ .resolving ∧ (r ∈ s.asked → s.retries r = 0 →
    (s.cells r).state.terminal = true ∧ ((linker r).isSome = true → s.runs r = 1))
  /-- A caller that was told a terminal state reads what was published with it. -/
  told : ∀ (t : ℕ) (r : R) (state : ReferenceState) (rest : List (ResolutionFrame R V)),
    s.threads[t]? = some (⟨r, .reading (some state)⟩ :: rest) →
      s.published r = some (s.cells r).reading ∧ (s.cells r).reading.state = some state
  /-- So does a caller of `isResolved`. -/
  resolved : ∀ r, s.isResolved r = true →
    s.published r = some (s.cells r).reading ∧ (s.cells r).reading.state = some .resolved
  /-- One thread at most has thrown for a reference. -/
  thrower : ∀ t t' r, (t, r) ∈ s.threw → (t', r) ∈ s.threw → t' = t
  /-- A call that an exception leaves is of that thread, and the reference is in
  `ErrorException`. -/
  raised : ∀ (t : ℕ) (r : R) (thrown : Thrown) (rest : List (ResolutionFrame R V)),
    s.threads[t]? = some (⟨r, .notify (some thrown)⟩ :: rest) →
      (t, r) ∈ s.threw ∧ (s.cells r).state = .errorException
  /-- So is every reference that threw, when no call is open. -/
  failed : s.idle = true → ∀ t r, (t, r) ∈ s.threw → (s.cells r).state = .errorException
  /-- As long as a call is open, some thread goes on. -/
  goesOn : s.idle = false → ∃ t s', s.step linker (.goOn t) = some s'

/-- A reference comes to an outcome. -/
structure ComesTo (s : ResolutionState R V) (r : R) (o : ResolutionOutcome V) : Prop where
  terminal : (s.cells r).state.terminal = true →
    (s.cells r).state = o.state ∧ (s.cells r).target = o.target
  idle : s.idle = true → r ∈ s.asked → (s.cells r).state = o.state ∧ (s.cells r).target = o.target

theorem Invariant.published (h : s.Invariant linker) (hidle : s.idle = true) {r : R}
    (hasked : r ∈ s.asked) : s.published r ≠ none := by
  rcases h.answered r hasked with hpub | ⟨t, stack, ht, hmem⟩
  · exact hpub
  · rw [eq_nil_of_idle hidle (List.mem_of_getElem? ht)] at hmem
    cases hmem

theorem Invariant.not_resolving (h : s.Invariant linker) (hidle : s.idle = true) (r : R) :
    (s.cells r).state ≠ .resolving := by
  intro hresolving
  have hheld := h.settling.roles.held.holds r
  rw [if_pos hresolving, total_of_idle hidle r] at hheld
  cases hheld

theorem Invariant.terminal_told (h : s.Invariant linker) {r : R} {state : ReferenceState}
    (hstate : (s.cells r).state = state) (hterminal : state.terminal = true) :
    s.published r = some (s.cells r).reading ∧ (s.cells r).reading.state = some state := by
  subst hstate
  exact ⟨(h.settling.cells r).published hterminal, if_pos hterminal⟩

theorem Invariant.oneShot (h : s.Invariant linker) (acyclic : ∀ r, ¬ Forces linker r r) :
    s.OneShot linker where
  once r hr := by
    have hran := h.ran r hr
    have hheld := h.settling.roles.held.holds r
    have hle : total begun r s ≤ total ResolutionPhase.holds r s := total_begun_le r
    cases hstate : (s.cells r).state <;> simp_all [ReferenceState.terminal]
  done hidle r := by
    refine ⟨h.not_resolving hidle r, fun hasked hretries => ?_⟩
    have hterminal : (s.cells r).state.terminal = true := by
      by_contra hopen
      have := (h.settling.cells r).again (h.published hidle hasked) (eq_false_of_ne_true hopen)
      omega
    refine ⟨hterminal, fun hr => ?_⟩
    have hran := h.ran r hr
    rw [hretries, total_of_idle hidle r, if_pos hterminal] at hran
    exact hran
  told t r state rest ht := by
    obtain ⟨hstate, hterminal⟩ := h.settling.fits t _ ht _ List.mem_cons_self
    exact h.terminal_told hstate hterminal
  resolved r hr := h.terminal_told (of_decide_eq_true hr) rfl
  thrower := h.thrower.once
  raised t r thrown rest ht := by
    have hthrew := (h.settling.fits t _ ht _ List.mem_cons_self).2.1 rfl
    refine ⟨hthrew, ?_⟩
    rcases h.thrower.failed t r hthrew with hstate | ⟨phase, rest', ht', hfails⟩
    · exact hstate
    · cases ht.symm.trans ht'
      cases hfails
  failed hidle t r hthrew := by
    rcases h.thrower.failed t r hthrew with hstate | ⟨phase, rest', ht', -⟩
    · exact hstate
    · exact absurd (eq_nil_of_idle hidle (List.mem_of_getElem? ht')) (List.cons_ne_nil _ _)
  goesOn hopen := exists_goOn h.settling.roles h.roused acyclic hopen

theorem Invariant.comesTo (h : s.Invariant linker) {r : R} {o : ResolutionOutcome V}
    (ho : Settles linker r o) : s.ComesTo r o where
  terminal := (h.settling.cells r).settled o ho
  idle hidle hasked := by
    have hcell := h.settling.cells r
    by_cases hterminal : (s.cells r).state.terminal = true
    · exact hcell.settled o ho hterminal
    · have hopen := eq_false_of_ne_true hterminal
      have hstate := hcell.reopened o ho (h.published hidle hasked) hopen
      have hunresolved : (s.cells r).state = .unresolved := by
        have := h.not_resolving hidle r
        cases hs : (s.cells r).state <;> simp_all [ReferenceState.terminal]
      exact ⟨hunresolved.trans hstate.symm, (hcell.blank hunresolved).trans
        (ho.target_eq_none (by rw [hstate]; rintro ⟨⟩)).symm⟩

/-- **References are resolved once**, in every interleaving of any number of threads, where no
reference forces itself.  A reference that forces none that throws **comes to one outcome**,
whichever threads resolve it.  Calls come to an end. -/
theorem one_shot [Finite R] (linker : R → Option (Resolution R V))
    (acyclic : ∀ r, ¬ Forces linker r r) :
    (∀ n s, (machine linker).Reaches (fun _ _ => True) (initial n) s → s.OneShot linker) ∧
      (∀ r, (∀ r', Forces linker r r' → ¬ Throws linker r') →
        ∃ o, ∀ n s, (machine linker).Reaches (fun _ _ => True) (initial n) s → s.ComesTo r o) ∧
      ∀ n, WellFounded fun s' s : ResolutionState R V =>
        (machine linker).Reaches (fun _ _ => True) (initial n) s ∧
          ∃ t, s.step linker (.goOn t) = some s' := by
  refine ⟨fun n s h => (invariant_of_reaches acyclic h).oneShot acyclic, fun r quiet => ?_,
    fun n => ?_⟩
  · obtain ⟨o, ho⟩ := exists_settles acyclic r quiet
    exact ⟨o, fun n s h => (invariant_of_reaches acyclic h).comesTo ho⟩
  · refine Subrelation.wf ?_ (wellFounded_closer acyclic)
    rintro s' s ⟨h, t, hstep⟩
    exact closer_of_goOn (invariant_of_reaches acyclic h).settling.roles (move_of_step hstep)

/-- The first reference asks for the second one. -/
def chain (r : Bool) : Option (Resolution Bool Unit) :=
  some (if r then .link () else .ask true fun _ => .link ())

theorem forces_chain {r r' : Bool} (h : Forces chain r r') : r = false ∧ r' = true := by
  have hdepends : ∀ r r', Depends chain r r' → r = false ∧ r' = true := by
    rintro (_ | _) r' ⟨resolution, ⟨⟩, hasks⟩
    · rcases hasks with _ | ⟨hasks⟩
      · exact ⟨rfl, rfl⟩
      · cases hasks
    · cases hasks
  induction h with
  | single h => exact hdepends _ _ h
  | tail _ h ih => exact ⟨ih.1, (hdepends _ _ h).2⟩

/-- One thread resolves the second reference, while the other waits for it. -/
def waitingEvents : List (ResolutionEvent Bool) :=
  [.get 0 false, .get 1 true] ++ List.replicate 3 (.goOn 1) ++ List.replicate 8 (.goOn 0) ++
    List.replicate 5 (.goOn 1) ++ List.replicate 10 (.goOn 0) ++ [.goOn 1]

/-- Two threads, of which one waits for the other. -/
theorem one_shot_chain : ∃ s, (machine chain).run (initial 2) waitingEvents = some s ∧
    s.idle = true ∧ s.OneShot chain ∧ ∃ o, s.ComesTo false o := by
  have acyclic : ∀ r, ¬ Forces chain r r := by
    intro r h
    obtain ⟨rfl, h⟩ := forces_chain h
    cases h
  have quiet : ∀ r, ¬ Throws chain r := by
    rintro (_ | _) ⟨resolution, ⟨⟩, hthrow⟩
    · rcases hthrow with _ | ⟨hthrow⟩
      cases hthrow
    · cases hthrow
  obtain ⟨s, hs⟩ := Option.isSome_iff_exists.mp
    (show ((machine chain).run (initial 2) waitingEvents).isSome = true by decide +kernel)
  have hidle : ((machine chain).run (initial 2) waitingEvents).map idle = some true := by
    decide +kernel
  rw [hs] at hidle
  have hreaches := Machine.reaches_of_run hs (Machine.allowedRun_any ..)
  obtain ⟨honce, hcomes, -⟩ := one_shot chain acyclic
  obtain ⟨o, ho⟩ := hcomes false fun r _ => quiet r
  exact ⟨s, hs, Option.some.inj hidle, honce 2 s hreaches, o, ho 2 s hreaches⟩

/-- The first reference asks for the second one, whose resolution throws. -/
def throwing (r : Bool) : Option (Resolution Bool Unit) :=
  some (if r then .throw .failed none else .ask true fun _ => .link ())

/-- One thread resolves the first reference and then the second one. -/
def aloneEvents : List (ResolutionEvent Bool) :=
  .get 0 false :: List.replicate 16 (.goOn 0) ++ .get 0 true :: List.replicate 2 (.goOn 0)

/-- Another thread resolves the second reference before. -/
def besideEvents : List (ResolutionEvent Bool) :=
  .get 1 true :: List.replicate 8 (.goOn 1) ++ .get 0 false :: List.replicate 12 (.goOn 0)

/-- An exception passes through the resolution that forces the reference, or stays with the thread
that was faster. -/
theorem not_one_shot_throwing :
    (∀ r, ¬ Forces throwing r r) ∧
      (∃ s, (machine throwing).run (initial 1) aloneEvents = some s ∧ s.idle = true ∧
        (s.cells false).state = .errorException) ∧
      ∃ s, (machine throwing).run (initial 2) besideEvents = some s ∧ s.idle = true ∧
        (s.cells false).state = .resolved := by
  have hdepends : ∀ r r', Depends throwing r r' → r = false ∧ r' = true := by
    rintro (_ | _) r' ⟨resolution, ⟨⟩, hasks⟩
    · rcases hasks with _ | ⟨hasks⟩
      · exact ⟨rfl, rfl⟩
      · cases hasks
    · cases hasks
  have hruns : ∀ {n : ℕ} {es : List (ResolutionEvent Bool)} {state : ReferenceState},
      ((machine throwing).run (initial n) es).map (fun s => (s.idle, (s.cells false).state)) =
        some (true, state) → ∃ s, (machine throwing).run (initial n) es = some s ∧
          s.idle = true ∧ (s.cells false).state = state := by
    intro n es state h
    obtain ⟨s, hs, heq⟩ := Option.map_eq_some_iff.mp h
    exact ⟨s, hs, (Prod.ext_iff.mp heq).1, (Prod.ext_iff.mp heq).2⟩
  refine ⟨fun r h => ?_, hruns (by decide +kernel), hruns (by decide +kernel)⟩
  obtain ⟨r', hdep, -⟩ := Relation.TransGen.head'_iff.mp h
  obtain ⟨r'', -, hdep'⟩ := Relation.TransGen.tail'_iff.mp h
  have := (hdepends _ _ hdep).1.symm.trans (hdepends _ _ hdep').2
  cases this

end ResolutionState

end Pegium
