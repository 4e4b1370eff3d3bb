/-
Pegium/References/OneShot.lean

References are resolved once.

`doResolve` runs once, and once more for each time the linker asked to be tried
again (`Ran`).  An exception reaches the thread that resolves the reference, and
leaves the reference in `ErrorException` (`Thrower`).  A reference that was asked for
is published before the last call for it returns (`Answered`).
-/
import Pegium.References.Settling

namespace Pegium

variable {R V : Type} [DecidableEq R]

namespace ResolutionState

variable {linker : R → Option (Resolution R V)} {s s' : ResolutionState R V}

/-! ### Runs -/

/-- The resolution of a reference has begun, and does not ask to be tried again. -/
def begun : ResolutionPhase R V → Bool
  | .resolving _ | .awaiting _ | .writing _ | .failing _ => true
  | .disown state _ | .store state _ => state.terminal
  | _ => false

omit [DecidableEq R] in
@[simp, grind =] theorem begun_seen (state : ReferenceState) :
    begun (seen state : ResolutionPhase R V) = false := by
  cases state <;> rfl

omit [DecidableEq R] in
@[simp, grind =] theorem begun_wake (phase : ResolutionPhase R V) :
    begun phase.wake = begun phase := by
  cases phase <;> rfl

/-- A resolution that has begun has the role. -/
theorem total_begun_le (r : R) : total begun r s ≤ total ResolutionPhase.holds r s := by
  refine List.sum_map_le_sum_map fun stack => ?_
  apply List.countP_mono_left
  intro frame _ h
  obtain ⟨rfl, h⟩ : frame.reference = r ∧ begun frame.phase = true := by simpa using h
  cases hphase : frame.phase <;> simp_all [begun, ResolutionPhase.holds]

/-- `doResolve` runs once more than it asked to be tried again, when the reference has a linker. -/
def Ran (linker : R → Option (Resolution R V)) (s : ResolutionState R V) : Prop :=
  ∀ r, (linker r).isSome = true →
    s.runs r = s.retries r + total begun r s + if (s.cells r).state.terminal = true then 1 else 0

theorem Ran.set (h : s.Ran linker) {t : ℕ} {stack stack' : List (ResolutionFrame R V)}
    (ht : s.threads[t]? = some stack) (hthreads : s'.threads = s.threads.set t stack')
    (hruns : ∀ r, (linker r).isSome = true →
      s'.runs r + s.retries r + tally begun r stack +
          (if (s.cells r).state.terminal = true then 1 else 0) =
        s.runs r + s'.retries r + tally begun r stack' +
          if (s'.cells r).state.terminal = true then 1 else 0) : s'.Ran linker := by
  intro r hr
  have := total_set (p := begun) ht hthreads r
  have := h r hr
  have := hruns r hr
  omega

theorem Ran.notifyAll (h : s.Ran linker) (r : R) : (s.notifyAll r).Ran linker := by
  intro r' hr'
  rw [total_notifyAll begun_wake]
  exact h r' hr'

theorem Ran.move (h : s.Ran linker) (hs : s.Roles linker) {e : ResolutionEvent R}
    (hm : s.Move linker e s') : s'.Ran linker := by
  cases hm with
  | get ht | load ht | acquire ht free | lose ht taken | enqueue ht _
  | addWaiter ht | sleep ht _ | pass ht _ | removeWaiter ht
  | ask ht | link ht | throw ht | write ht | fail ht | disown ht
  | finish ht | answer ht | wake ht | closeCycle ht =>
    apply h.set ht rfl
    grind [begun, ReferenceState.terminal]
  | ownUnlinked ht hr =>
    apply h.set ht rfl
    grind [begun]
  | own ht hr =>
    apply h.set ht rfl
    grind [begun, Function.update_apply]
  | @refuse t r kind rest ht =>
    apply h.set ht rfl
    cases kind <;> grind [begun, ReferenceState.terminal, LinkingErrorKind.state,
      Function.update_apply]
  | store ht =>
    have hresolving := hs.held.resolving ht (tally_pos rfl)
    apply h.set ht rfl
    grind [begun, ReferenceState.terminal]
  | notify ht | escape ht | fallThrough ht | cancelThrough ht =>
    apply (h.notifyAll _).set (notifyAll_self ht) rfl
    grind [begun, ReferenceState.terminal]
  | @clear r idle =>
    intro r' hr'
    have hran := h r' hr'
    have hnone := total_of_idle (p := begun) idle r'
    show (s.clear r).runs r' = (s.clear r).retries r' + total begun r' s + _
    by_cases heq : r' = r
    · subst heq
      rw [hnone]
      simp [clear, putCell, ReferenceState.terminal]
    · rw [hnone] at hran ⊢
      simpa [clear, putCell, heq] using hran

/-! ### Exceptions -/

/-- An exception is about to be published. -/
def fails : ResolutionPhase R V → Bool
  | .failing _ | .disown .errorException _ | .store .errorException _ => true
  | _ => false

omit [DecidableEq R] in
theorem holds_of_fails {phase : ResolutionPhase R V} (h : fails phase = true) :
    phase.holds = true := by
  unfold fails at h
  split at h <;> first | rfl | cases h

/-- A reference that threw ends in `ErrorException`. -/
def Failed (s : ResolutionState R V) (t : ℕ) (r : R) : Prop :=
  (s.cells r).state = .errorException ∨
    ∃ phase rest, s.threads[t]? = some (⟨r, phase⟩ :: rest) ∧ fails phase = true

/-- Exceptions reach one thread, and leave the reference in `ErrorException`. -/
structure Thrower (s : ResolutionState R V) : Prop where
  failed : ∀ t r, (t, r) ∈ s.threw → s.Failed t r
  once : ∀ t t' r, (t, r) ∈ s.threw → (t', r) ∈ s.threw → t' = t

/-- A call that has the role of a reference is of the thread that threw. -/
theorem Failed.eq (hheld : s.Held) {t t' : ℕ} {r : R} {stack : List (ResolutionFrame R V)}
    (h : s.Failed t' r) (ht : s.threads[t]? = some stack)
    (hpos : 0 < tally ResolutionPhase.holds r stack) : t' = t := by
  have hresolving := hheld.resolving ht hpos
  rcases h with h | ⟨phase, rest, ht', hfails⟩
  · exact absurd (h.symm.trans hresolving) nofun
  · by_contra hne
    have := hheld.alone ht ht' hne hpos
    have hfailing : 0 < tally ResolutionPhase.holds r (⟨r, phase⟩ :: rest) :=
      tally_pos (holds_of_fails hfails)
    omega

theorem Failed.move (hs : s.Roles linker) {e : ResolutionEvent R} (hm : s.Move linker e s') {t : ℕ}
    {r : R} (hne : e ≠ .clear r) (h : s.Failed t r) : s'.Failed t r := by
  rcases h with h | ⟨phase, rest, ht', hfails⟩
  · left
    cases hm with
    | store ht =>
      have := hs.held.resolving ht (tally_pos rfl)
      grind
    | _ => grind
  · by_cases hthread : e.thread = some t
    · have hlt := (List.getElem?_eq_some_iff.mp ht').1
      cases hm with
      | clear => cases hthread
      | fail ht =>
        cases hthread
        cases ht.symm.trans ht'
        exact .inr ⟨_, rest, List.getElem?_set_self hlt, rfl⟩
      | @disown t r state thrown rest ht =>
        cases hthread
        cases ht.symm.trans ht'
        refine .inr ⟨_, rest, List.getElem?_set_self hlt, ?_⟩
        cases state <;> first | rfl | cases hfails
      | @store t r state thrown rest ht =>
        cases hthread
        cases ht.symm.trans ht'
        left
        have hstate : state = .errorException := by
          cases state <;> first | rfl | cases hfails
        grind
      | wake ht =>
        cases hthread
        cases ht.symm.trans ht'
        refine .inr ⟨_, rest, List.getElem?_set_self hlt, ?_⟩
        cases phase <;> exact hfails
      | _ ht =>
        cases hthread
        cases ht.symm.trans ht'
        try cases hfails
    · right
      refine ⟨phase, rest, ?_, hfails⟩
      rcases other_of_move hm hthread with heq | ⟨r', heq⟩
      · rwa [heq]
      · have hwake : phase.wake = phase := by
          cases phase <;> first | rfl | cases hfails
        rw [heq, ht', Option.map_some, wakeStack, hwake]
        exact congrArg some (ite_self _)

theorem Thrower.move (h : s.Thrower) (hs : s.Roles linker) {e : ResolutionEvent R}
    (hm : s.Move linker e s') : s'.Thrower := by
  have hfailed : ∀ t r, (t, r) ∈ s.threw → e ≠ .clear r → s'.Failed t r :=
    fun t r hmem hne => (h.failed t r hmem).move hs hm hne
  -- The thread that throws has the role, so that no other has thrown.
  have hthrow : ∀ {t r stack rest thrown}, e ≠ .clear r → s.threads[t]? = some stack →
      0 < tally ResolutionPhase.holds r stack →
      s'.threads[t]? = some (⟨r, .failing thrown⟩ :: rest) → s'.threw = (t, r) :: s.threw →
      (∀ r, e ≠ .clear r) → s'.Thrower := by
    intro t r stack rest thrown hne ht hpos ht' hthrew hclear
    have hsame : ∀ t', (t', r) ∈ s.threw → t' = t :=
      fun t' hmem => (h.failed t' r hmem).eq hs.held ht hpos
    have hfailing : s'.Failed t r := .inr ⟨_, rest, ht', rfl⟩
    have honce := h.once
    constructor
    · intro t₁ r₁ hmem
      rw [hthrew] at hmem
      rcases List.mem_cons.mp hmem with heq | hmem
      · cases heq
        exact hfailing
      · exact hfailed t₁ r₁ hmem (hclear r₁)
    · intro t₁ t₂ r₁ h₁ h₂
      rw [hthrew] at h₁ h₂
      grind
  cases hm with
  | throw ht =>
    exact hthrow (by rintro ⟨⟩) ht (tally_pos rfl)
      (List.getElem?_set_self (List.getElem?_eq_some_iff.mp ht).1) rfl (by rintro _ ⟨⟩)
  | @cancelThrough t r r₀ k rest ht =>
    have hlt := (List.getElem?_eq_some_iff.mp (notifyAll_self ht)).1
    refine hthrow (by rintro ⟨⟩) ht ?_ (List.getElem?_set_self hlt) rfl (by rintro _ ⟨⟩)
    rw [tally_cons]
    exact Nat.add_pos_left (tally_pos rfl) _
  | clear idle =>
    constructor
    · intro t r hmem
      obtain ⟨hmem, hne⟩ := List.mem_filter.mp hmem
      exact hfailed t r hmem fun heq => of_decide_eq_true hne (ResolutionEvent.clear.inj heq).symm
    · intro t t' r hmem hmem'
      exact h.once t t' r (List.mem_filter.mp hmem).1 (List.mem_filter.mp hmem').1
  | _ => exact ⟨fun t r hmem => hfailed t r hmem (by rintro ⟨⟩), h.once⟩

/-! ### Every call is answered -/

/-- The references that the calls of a thread are for. -/
def references (stack : List (ResolutionFrame R V)) : List R :=
  stack.map ResolutionFrame.reference

omit [DecidableEq R] in
@[simp, grind =] theorem references_cons (r : R) (phase : ResolutionPhase R V)
    (stack : List (ResolutionFrame R V)) :
    references (⟨r, phase⟩ :: stack) = r :: references stack := rfl

omit [DecidableEq R] in
@[simp, grind =] theorem references_nil : references ([] : List (ResolutionFrame R V)) = [] := rfl

theorem references_wakeStack (r : R) (stack : List (ResolutionFrame R V)) :
    references (wakeStack r stack) = references stack := by
  rcases stack with - | ⟨⟨r', phase⟩, rest⟩
  · rfl
  · by_cases heq : r' = r
    · rw [wakeStack, if_pos heq]
      rfl
    · rw [wakeStack, if_neg heq]

/-- A reference that was asked for has a call, or was published. -/
def Answered (s : ResolutionState R V) : Prop :=
  ∀ r ∈ s.asked, s.published r ≠ none ∨
    ∃ (t : ℕ) (stack : List (ResolutionFrame R V)),
      s.threads[t]? = some stack ∧ r ∈ references stack

omit [DecidableEq R] in
theorem Answered.set (h : s.Answered) {t : ℕ} {stack stack' : List (ResolutionFrame R V)}
    (ht : s.threads[t]? = some stack) (hthreads : s'.threads = s.threads.set t stack')
    (hpublished : ∀ r, s.published r ≠ none → s'.published r ≠ none)
    (hasked : ∀ r ∈ s'.asked, r ∈ s.asked ∨ r ∈ references stack')
    (hkept : ∀ r ∈ references stack, s'.published r ≠ none ∨ r ∈ references stack') :
    s'.Answered := by
  have hlt := (List.getElem?_eq_some_iff.mp ht).1
  have hself : s'.threads[t]? = some stack' := hthreads ▸ List.getElem?_set_self hlt
  intro r hr
  rcases hasked r hr with hr | hr
  · rcases h r hr with hpub | ⟨t', stack'', ht', hmem⟩
    · exact .inl (hpublished r hpub)
    · by_cases heq : t = t'
      · subst heq
        cases ht.symm.trans ht'
        exact (hkept r hmem).imp id fun hmem' => ⟨t, stack', hself, hmem'⟩
      · exact .inr ⟨t', stack'', hthreads ▸ (List.getElem?_set_ne heq).trans ht', hmem⟩
  · exact .inr ⟨t, stack', hself, hr⟩

theorem Answered.notifyAll (h : s.Answered) (r : R) : (s.notifyAll r).Answered := by
  intro r' hr'
  refine (h r' hr').imp id fun ⟨t, stack, ht, hmem⟩ => ?_
  by_cases hcount : 0 < (s.cells r).waiterCount
  · refine ⟨t, wakeStack r stack, ?_, references_wakeStack r stack ▸ hmem⟩
    rw [notifyAll_stack, if_pos hcount, ht, Option.map_some]
  · refine ⟨t, stack, ?_, hmem⟩
    rw [notifyAll_stack, if_neg hcount, ht]

theorem Answered.move (h : s.Answered) (hs : s.Settling linker)
    (acyclic : ∀ r, ¬ Forces linker r r) {e : ResolutionEvent R} (hm : s.Move linker e s') :
    s'.Answered := by
  have hframe : ∀ {t r phase rest}, s.threads[t]? = some (⟨r, phase⟩ :: rest) →
      s.FrameFits linker t ⟨r, phase⟩ := fun ht => hs.fits _ _ ht _ List.mem_cons_self
  cases hm with
  | get ht | load ht | acquire ht free | lose ht taken | enqueue ht _
  | addWaiter ht | sleep ht _ | pass ht _ | removeWaiter ht
  | ask ht | link ht | throw ht | write ht | fail ht | disown ht | ownUnlinked ht hr | own ht hr
  | refuse ht | wake ht =>
    apply h.set ht rfl <;> grind
  | store ht =>
    apply h.set ht rfl <;> grind [Function.update_apply]
  | closeCycle ht own => exact absurd (hs.roles.forces_self ht own) (acyclic _)
  | notify ht | escape ht | fallThrough ht | cancelThrough ht =>
    have hpublished := (hframe ht).1
    apply (h.notifyAll _).set (notifyAll_self ht) rfl <;> grind
  | @finish t r told ht | @answer t r r₀ told k rest ht =>
    have hpublished : s.published r ≠ none := by
      have := hframe ht
      have := (hs.cells r).published
      cases told <;> grind [FrameFits]
    apply h.set ht rfl <;> grind
  | clear idle =>
    intro r' hr'
    obtain ⟨hmem, hne⟩ := List.mem_filter.mp hr'
    refine (h r' hmem).imp (fun hpub => ?_) id
    exact fun hnone =>
      hpub ((Function.update_of_ne (of_decide_eq_true hne) ..).symm.trans hnone)

end ResolutionState

end Pegium
