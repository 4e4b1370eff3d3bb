/-
Pegium/References/Deadlock.lean

Threads that wait for each other.

Waiting threads form a cycle only when two of them resolve references of one
dependency cycle (`Crossing`).  Where no thread takes the role of a reference while
another resolves one of the same cycle, they never do.

A cycle that one thread closes is found by the owner word, and the reference whose
linker closed it ends in `ErrorCycle`.
-/
import Pegium.General.Cycle
import Pegium.References.ResolverRole

namespace Pegium

variable {R V : Type} [DecidableEq R]

namespace ResolutionState

variable (linker : R → Option (Resolution R V)) (s : ResolutionState R V)

/-! ### Waiting -/

/-- A thread waits for a reference. -/
def Waits (t : ℕ) (r : R) : Prop :=
  ∃ phase rest, s.threads[t]? = some (⟨r, phase⟩ :: rest) ∧ phase.waits = true

/-- A thread has the resolver role of a reference. -/
def Resolves (t : ℕ) (r : R) : Prop :=
  ∃ stack, s.threads[t]? = some stack ∧ 0 < tally ResolutionPhase.holds r stack

/-- Each of some threads waits for a reference that another of them resolves. -/
def Deadlocked (threads : Set ℕ) : Prop :=
  threads.Nonempty ∧
    ∀ t ∈ threads, ∃ r, s.Waits t r ∧ ∃ t' ∈ threads, t' ≠ t ∧ s.Resolves t' r

/-- Two threads resolve references of one dependency cycle. -/
def Crossing : Prop :=
  ∃ t t' r r', t ≠ t' ∧ s.Resolves t r ∧ s.Resolves t' r' ∧
    Forces linker r r' ∧ Forces linker r' r

/-- A thread does not take the role of a reference while another resolves one of the same cycle. -/
def KeepsApart : ResolutionEvent R → Prop
  | .goOn t => ∀ r rest, s.threads[t]? = some (⟨r, .exchange⟩ :: rest) →
    (s.cells r).state = .unresolved →
      ∀ t' r', t' ≠ t → s.Resolves t' r' → ¬ (Forces linker r r' ∧ Forces linker r' r)
  | _ => True

/-- A reference ends in a state: it is there, or its resolver is about to publish it. -/
def EndsIn (r : R) (state : ReferenceState) : Prop :=
  (s.cells r).state = state ∨
    ∃ (t : ℕ) (rest : List (ResolutionFrame R V)) (thrown : Option Thrown),
      s.threads[t]? = some (⟨r, .disown state thrown⟩ :: rest) ∨
        s.threads[t]? = some (⟨r, .store state thrown⟩ :: rest)

variable {linker s} {s' : ResolutionState R V}

/-- The references a thread resolves force the one it asks for. -/
theorem Below.forces {r r' : R} {rest : List (ResolutionFrame R V)} (h : Below linker r rest)
    (hpos : 0 < tally ResolutionPhase.holds r' rest) : Forces linker r' r := by
  induction rest generalizing r with
  | nil => cases hpos
  | cons frame rest ih =>
    obtain ⟨r₀, phase⟩ := frame
    cases phase with
    | awaiting k =>
      rw [tally_cons] at hpos
      by_cases heq : r₀ = r'
      · exact .single (heq ▸ h.1)
      · rw [if_neg fun h => heq h.1] at hpos
        exact (ih h.2.2 hpos).tail h.1
    | _ => exact h.elim

theorem tally_waits {r r' : R} {phase : ResolutionPhase R V} {rest : List (ResolutionFrame R V)}
    (hw : phase.waits = true) :
    tally ResolutionPhase.holds r' (⟨r, phase⟩ :: rest) = tally ResolutionPhase.holds r' rest := by
  cases phase <;> simp_all [ResolutionPhase.waits, ResolutionPhase.holds]

/-- What a waiting thread resolves forces what it waits for. -/
theorem Waits.forces (hs : s.Roles linker) {t : ℕ} {r r' : R} (hw : s.Waits t r)
    (hr : s.Resolves t r') : Forces linker r' r := by
  obtain ⟨phase, rest, ht, hphase⟩ := hw
  obtain ⟨stack, ht', hpos⟩ := hr
  cases ht.symm.trans ht'
  rw [tally_waits hphase] at hpos
  exact (hs.stacked _ (List.mem_of_getElem? ht)).2.forces hpos

/-- A thread does not wait for itself. -/
theorem Waits.not_resolves (hs : s.Roles linker) {t : ℕ} {r : R} (hw : s.Waits t r) :
    ¬ s.Resolves t r := by
  obtain ⟨phase, rest, ht, hphase⟩ := hw
  rintro ⟨stack, ht', hpos⟩
  cases ht.symm.trans ht'
  rw [tally_waits hphase] at hpos
  have := hs.foreign _ (List.mem_of_getElem? ht) hphase
  omega

omit [DecidableEq R] in
theorem Waits.lt {t : ℕ} {r : R} (hw : s.Waits t r) : t < s.threads.length := by
  obtain ⟨phase, rest, ht, -⟩ := hw
  exact (List.getElem?_eq_some_iff.mp ht).1

/-- **Waiting in a circle crosses a dependency cycle.** -/
theorem Deadlocked.crossing (hs : s.Roles linker) {threads : Set ℕ} (h : s.Deadlocked threads) :
    s.Crossing linker := by
  obtain ⟨⟨t₀, ht₀⟩, hwait⟩ := h
  have hwait : ∀ t : threads, ∃ r, s.Waits t r ∧ ∃ t' : threads, t'.1 ≠ t ∧ s.Resolves t' r := by
    rintro ⟨t, ht⟩
    obtain ⟨r, hw, t', ht', hne, hr⟩ := hwait t ht
    exact ⟨r, hw, ⟨t', ht'⟩, hne, hr⟩
  choose wanted hwaits next hne hresolves using hwait
  have : Finite threads := Finite.of_injective
    (fun t : threads => (⟨t, (hwaits t).lt⟩ : Fin s.threads.length))
    fun t t' h => Subtype.ext (congrArg Fin.val h)
  have : Nonempty threads := ⟨t₀, ht₀⟩
  obtain ⟨t, hcycle⟩ := exists_transGen_self (r := fun t t' => next t = t') fun t => ⟨_, rfl⟩
  -- What a thread wants forces what the next one wants.
  have hforces : ∀ t, Forces linker (wanted t) (wanted (next t)) :=
    fun t => (hwaits (next t)).forces hs (hresolves t)
  have hpath : ∀ {t t'}, Relation.TransGen (fun t t' => next t = t') t t' →
      Forces linker (wanted t) (wanted t') := by
    intro t t' h
    induction h with
    | single h => exact h ▸ hforces _
    | tail _ h ih => exact ih.trans (h ▸ hforces _)
  obtain ⟨_, rfl, hback⟩ := Relation.TransGen.head'_iff.mp hcycle
  rcases Relation.reflTransGen_iff_eq_or_transGen.mp hback with heq | hback
  · exact absurd (congrArg Subtype.val heq).symm (hne t)
  · exact ⟨next t, next (next t), wanted t, wanted (next t), (hne (next t)).symm, hresolves t,
      hresolves (next t), hforces t, hpath hback⟩

/-! ### Keeping apart -/

section Step

variable {t : ℕ} {stack stack' : List (ResolutionFrame R V)}

theorem Resolves.of_set (ht : s.threads[t]? = some stack)
    (hthreads : s'.threads = s.threads.set t stack')
    {t' : ℕ} {r : R} (hle : t = t' → 0 < tally ResolutionPhase.holds r stack' →
      0 < tally ResolutionPhase.holds r stack) (h : s'.Resolves t' r) : s.Resolves t' r := by
  obtain ⟨stack'', ht', hpos⟩ := h
  rw [hthreads, List.getElem?_set] at ht'
  by_cases heq : t = t'
  · subst heq
    rw [if_pos rfl, if_pos (List.getElem?_eq_some_iff.mp ht).1] at ht'
    cases ht'
    exact ⟨stack, ht, hle rfl hpos⟩
  · rw [if_neg heq] at ht'
    exact ⟨stack'', ht', hpos⟩

theorem resolves_notifyAll {r r' : R} (h : (s.notifyAll r').Resolves t r) : s.Resolves t r := by
  obtain ⟨stack, ht, hpos⟩ := h
  rw [notifyAll_stack] at ht
  split at ht
  · obtain ⟨stack', ht', rfl⟩ := Option.map_eq_some_iff.mp ht
    exact ⟨stack', ht', tally_wakeStack holds_wake r' ▸ hpos⟩
  · exact ⟨stack, ht, hpos⟩

end Step

/-- A thread that has a role had it, or takes it. -/
theorem resolves_of_move {e : ResolutionEvent R} (hm : s.Move linker e s') {t : ℕ} {r : R}
    (h : s'.Resolves t r) : s.Resolves t r ∨
      ∃ rest, e = .goOn t ∧ s.threads[t]? = some (⟨r, .exchange⟩ :: rest) ∧
        (s.cells r).state = .unresolved := by
  cases hm with
  | get ht | load ht | lose ht taken | closeCycle ht _ | enqueue ht _
  | addWaiter ht | sleep ht _ | pass ht _ | removeWaiter ht
  | ask ht | link ht | refuse ht | throw ht | write ht | fail ht | store ht
  | finish ht | answer ht | wake ht | ownUnlinked ht _ | own ht _ | disown ht =>
    refine .inl (h.of_set ht rfl fun _ => ?_)
    grind [ResolutionPhase.holds]
  | notify ht | escape ht | fallThrough ht | cancelThrough ht =>
    refine .inl (resolves_notifyAll (h.of_set (notifyAll_self ht) rfl fun _ => ?_))
    grind [ResolutionPhase.holds]
  | clear => exact .inl h
  | @acquire t' r' rest ht free =>
    by_cases heq : t' = t ∧ r' = r
    · obtain ⟨rfl, rfl⟩ := heq
      exact .inr ⟨rest, rfl, ht, free⟩
    · refine .inl (h.of_set ht rfl fun _ => ?_)
      grind

/-- Threads that keep apart do not cross. -/
theorem Crossing.of_move {e : ResolutionEvent R} (hapart : s.KeepsApart linker e)
    (hm : s.Move linker e s') (h : s'.Crossing linker) : s.Crossing linker := by
  obtain ⟨t, t', r, r', hne, hr, hr', hforces, hforces'⟩ := h
  rcases resolves_of_move hm hr with hr | ⟨rest, rfl, ht, free⟩ <;>
    rcases resolves_of_move hm hr' with hr' | ⟨rest', heq, ht', free'⟩
  · exact ⟨t, t', r, r', hne, hr, hr', hforces, hforces'⟩
  · subst heq
    exact absurd ⟨hforces', hforces⟩ (hapart r' rest' ht' free' t r hne hr)
  · exact absurd ⟨hforces, hforces'⟩ (hapart r rest ht free t' r' hne.symm hr')
  · cases heq
    exact absurd rfl hne

/-! ### Cycles that are found -/

variable (linker) in
/-- A resolution that closed a cycle ends in `ErrorCycle`. -/
def Detected (s : ResolutionState R V) : Prop :=
  ∀ r ∈ s.cyclic, Forces linker r r ∧ s.EndsIn r .errorCycle

/-- A terminal state is published, and stays until the reference is cleared. -/
theorem EndsIn.move {e : ResolutionEvent R} {r : R} {state : ReferenceState} (hs : s.Roles linker)
    (hterminal : state.terminal = true) (hm : s.Move linker e s') (hne : e ≠ .clear r)
    (h : s.EndsIn r state) : s'.EndsIn r state := by
  rcases h with h | ⟨t, rest, thrown, h⟩
  · left
    cases hm with
    | store ht =>
      have := hs.held.resolving ht (tally_pos rfl)
      grind [ReferenceState.terminal]
    | _ => grind [ReferenceState.terminal]
  · by_cases hthread : e.thread = some t
    · have hlt : t < s.threads.length := by
        rcases h with h | h <;> exact (List.getElem?_eq_some_iff.mp h).1
      cases hm with
      | clear => cases hthread
      | disown ht =>
        cases hthread
        rcases h with h | h <;> cases ht.symm.trans h
        exact .inr ⟨t, rest, thrown, .inr (List.getElem?_set_self hlt)⟩
      | store ht =>
        cases hthread
        rcases h with h | h <;> cases ht.symm.trans h
        left
        grind
      | wake ht =>
        cases hthread
        rcases h with h | h <;> cases ht.symm.trans h
        · exact .inr ⟨t, rest, thrown, .inl (List.getElem?_set_self hlt)⟩
        · exact .inr ⟨t, rest, thrown, .inr (List.getElem?_set_self hlt)⟩
      | _ ht =>
        cases hthread
        rcases h with h | h <;> cases ht.symm.trans h
    · right
      refine ⟨t, rest, thrown, ?_⟩
      rcases other_of_move hm hthread with heq | ⟨r', heq⟩
      · rwa [heq]
      · rw [heq]
        rcases h with h | h <;> rw [h, Option.map_some, wakeStack]
        · exact .inl (congrArg some (ite_self _))
        · exact .inr (congrArg some (ite_self _))

/-- A reference that asks for what its thread resolves is on a cycle. -/
theorem Roles.forces_self (hs : s.Roles linker) {t : ℕ} {r r₀ : R} {k : Reading V → Resolution R V}
    {rest : List (ResolutionFrame R V)}
    (ht : s.threads[t]? = some (⟨r, .checkOwner⟩ :: ⟨r₀, .awaiting k⟩ :: rest))
    (own : (s.cells r).resolvingOwner = some t) : Forces linker r₀ r₀ := by
  obtain ⟨-, hdepends, -, hbelow⟩ := hs.stacked _ (List.mem_of_getElem? ht)
  have hpos := Nat.lt_of_lt_of_le ((hs.owned t _ ht r).mp own) (tally_owns_le r _)
  rw [tally_cons, if_neg (fun h => nomatch h.2), tally_cons] at hpos
  -- The reference asked for is below on the stack, or is the one that asks.
  by_cases heq : r₀ = r
  · exact .single (heq ▸ hdepends)
  · rw [if_neg fun h => heq h.1] at hpos
    exact .head hdepends (hbelow.forces hpos)

theorem Detected.move {e : ResolutionEvent R} (h : s.Detected linker) (hs : s.Roles linker)
    (hm : s.Move linker e s') : s'.Detected linker := by
  have hold : ∀ r ∈ s.cyclic, e ≠ .clear r → Forces linker r r ∧ s'.EndsIn r .errorCycle :=
    fun r hmem hne => ⟨(h r hmem).1, (h r hmem).2.move hs rfl hm hne⟩
  intro r hmem
  cases hm with
  | @closeCycle t r' r₀ k rest ht own =>
    rcases List.mem_cons.mp hmem with rfl | hmem
    · have hlt := (List.getElem?_eq_some_iff.mp ht).1
      exact ⟨hs.forces_self ht own, .inr ⟨t, rest, none, .inl (List.getElem?_set_self hlt)⟩⟩
    · exact hold r hmem nofun
  | clear idle =>
    obtain ⟨hmem, hne⟩ := List.mem_filter.mp hmem
    exact hold r hmem fun heq => of_decide_eq_true hne (ResolutionEvent.clear.inj heq).symm
  | _ => exact hold r hmem nofun

/-! ### No deadlock -/

variable (linker) in
/-- What holds of every state that is reached while threads keep apart. -/
structure Apart (s : ResolutionState R V) : Prop where
  roles : s.Roles linker
  detected : s.Detected linker
  not_crossing : ¬ s.Crossing linker

variable (linker) in
theorem apart_initial (n : ℕ) : (initial n : ResolutionState R V).Apart linker := by
  refine ⟨roles_initial linker n, nofun, ?_⟩
  rintro ⟨t, t', r, r', -, ⟨stack, ht, hpos⟩, -⟩
  rw [eq_nil_initial (List.mem_of_getElem? ht)] at hpos
  exact absurd hpos (Nat.lt_irrefl 0)

theorem Apart.step {e : ResolutionEvent R} (h : s.Apart linker) (hapart : s.KeepsApart linker e)
    (hstep : s.step linker e = some s') : s'.Apart linker := by
  have hm := move_of_step hstep
  exact ⟨h.roles.move hm, h.detected.move h.roles hm,
    fun hcrossing => h.not_crossing (hcrossing.of_move hapart hm)⟩

/-- **Threads never wait for each other**, in a run in which no thread takes the role of a
reference while another resolves one of the same dependency cycle.  No thread waits for itself
either, and a resolution that asks for what its thread resolves ends in `ErrorCycle`. -/
theorem no_deadlock {n : ℕ} (h : (machine linker).Reaches (fun s e => s.KeepsApart linker e)
      (initial n) s) :
    (∀ threads, ¬ s.Deadlocked threads) ∧
      (∀ t r, s.Waits t r → ¬ s.Resolves t r) ∧
      ∀ r ∈ s.cyclic, Forces linker r r ∧ s.EndsIn r .errorCycle := by
  have hs : s.Apart linker :=
    h.invariant (apart_initial linker n) fun _ _ _ hs hapart hstep => hs.step hapart hstep
  exact ⟨fun _ hdead => hs.not_crossing (hdead.crossing hs.roles),
    fun _ _ hw => hw.not_resolves hs.roles, hs.detected⟩

/-! ### Two references that force each other -/

/-- What is seen of the calls: the reference, whether it is waited for, and whether it is being
resolved. -/
def calls (s : ResolutionState R V) : List (List (R × Bool × Bool)) :=
  s.threads.map fun stack =>
    stack.map fun frame => (frame.reference, frame.phase.waits, frame.phase.holds)

omit [DecidableEq R] in
theorem waits_of_calls {t : ℕ} {r : R} {holds : Bool} {rest : List (R × Bool × Bool)}
    (h : s.calls[t]? = some ((r, true, holds) :: rest)) : s.Waits t r := by
  rw [calls, List.getElem?_map] at h
  obtain ⟨stack, ht, heq⟩ := Option.map_eq_some_iff.mp h
  obtain ⟨⟨r', phase⟩, rest', rfl, hframe, -⟩ := List.map_eq_cons_iff.mp heq
  obtain ⟨rfl, hwaits, -⟩ : r' = r ∧ phase.waits = true ∧ phase.holds = holds := by
    simpa using hframe
  exact ⟨phase, rest', ht, hwaits⟩

theorem resolves_of_calls {t : ℕ} {r : R} {calls : List (R × Bool × Bool)}
    (h : s.calls[t]? = some calls) {waits : Bool} (hmem : (r, waits, true) ∈ calls) :
    s.Resolves t r := by
  rw [ResolutionState.calls, List.getElem?_map] at h
  obtain ⟨stack, ht, rfl⟩ := Option.map_eq_some_iff.mp h
  obtain ⟨⟨r', phase⟩, hframe, heq⟩ := List.mem_map.mp hmem
  obtain ⟨rfl, -, hholds⟩ : r' = r ∧ phase.waits = waits ∧ phase.holds = true := by simpa using heq
  exact ⟨stack, ht, List.countP_pos_iff.mpr ⟨_, hframe, by simpa using hholds⟩⟩

/-- Each of two references asks for the other, and is linked whatever it reads. -/
def eachOther (r : Bool) : Option (Resolution Bool Unit) := some (.ask (!r) fun _ => .link ())

/-- Both threads take a role before they ask. -/
def crossingEvents : List (ResolutionEvent Bool) :=
  [.get 0 false, .get 1 true] ++ List.replicate 3 (.goOn 0) ++ List.replicate 3 (.goOn 1) ++
    List.replicate 5 (.goOn 0) ++ List.replicate 5 (.goOn 1)

/-- One thread closes the cycle. -/
def closingEvents : List (ResolutionEvent Bool) := .get 0 false :: List.replicate 20 (.goOn 0)

/-- Two threads wait for each other; and on one thread, of two references on a cycle one is
linked. -/
theorem not_no_deadlock :
    (∃ s, (machine eachOther).Reaches (fun _ _ => True) (initial 2) s ∧ s.Deadlocked {0, 1}) ∧
      ∃ s, (machine eachOther).Reaches (fun _ _ => True) (initial 1) s ∧ s.idle = true ∧
        Forces eachOther false false ∧ (s.cells false).state = .resolved := by
  constructor
  · obtain ⟨s, hs⟩ := Option.isSome_iff_exists.mp
      (show ((machine eachOther).run (initial 2) crossingEvents).isSome = true by decide +kernel)
    have hcalls : ((machine eachOther).run (initial 2) crossingEvents).map calls =
        some [[(true, true, false), (false, false, true)],
          [(false, true, false), (true, false, true)]] := by
      decide +kernel
    rw [hs] at hcalls
    have hcalls := Option.some.inj hcalls
    have h0 : s.calls[0]? = some [(true, true, false), (false, false, true)] := by rw [hcalls]; rfl
    have h1 : s.calls[1]? = some [(false, true, false), (true, false, true)] := by rw [hcalls]; rfl
    refine ⟨s, Machine.reaches_of_run hs (Machine.allowedRun_any ..), ⟨0, .inl rfl⟩, ?_⟩
    rintro t (rfl | rfl)
    · exact ⟨true, waits_of_calls h0, 1, .inr rfl, nofun,
        resolves_of_calls h1 (.tail _ (.head _))⟩
    · exact ⟨false, waits_of_calls h1, 0, .inl rfl, nofun,
        resolves_of_calls h0 (.tail _ (.head _))⟩
  · obtain ⟨s, hs⟩ := Option.isSome_iff_exists.mp
      (show ((machine eachOther).run (initial 1) closingEvents).isSome = true by decide +kernel)
    have hend : ((machine eachOther).run (initial 1) closingEvents).map
        (fun s => (s.idle, (s.cells false).state)) = some (true, .resolved) := by
      decide +kernel
    rw [hs] at hend
    obtain ⟨hidle, hstate⟩ := Prod.ext_iff.mp (Option.some.inj hend)
    exact ⟨s, Machine.reaches_of_run hs (Machine.allowedRun_any ..), hidle,
      .head ⟨_, rfl, .here⟩ (.single ⟨_, rfl, .here⟩), hstate⟩

/-- A thread closes the cycle while another one waits for the first reference. -/
def waitedForEvents : List (ResolutionEvent Bool) :=
  .get 0 false :: List.replicate 3 (.goOn 0) ++ .get 1 false :: List.replicate 4 (.goOn 1) ++
    List.replicate 7 (.goOn 0)

/-- A thread that is about to take a role finds no other thread with one. -/
def apart (s : ResolutionState Bool Unit) : ResolutionEvent Bool → Bool
  | .goOn t =>
    match s.threads[t]? with
    | some (⟨r, .exchange⟩ :: _) =>
      (s.cells r).state ≠ .unresolved || (List.range s.threads.length).all fun t' =>
        t' = t || s.threads[t']?.all fun stack => stack.all fun frame => !frame.phase.holds
    | _ => true
  | _ => true

theorem keepsApart_of_apart {s : ResolutionState Bool Unit} {e : ResolutionEvent Bool}
    (h : apart s e = true) : s.KeepsApart eachOther e := by
  cases e with
  | goOn t =>
    rintro r rest ht hunresolved t' r' hne ⟨stack, ht', hpos⟩ -
    have hlt : t' < s.threads.length := (List.getElem?_eq_some_iff.mp ht').1
    simp only [apart, ht, hunresolved, ne_eq, not_true_eq_false, decide_false, Bool.false_or,
      List.all_eq_true, List.mem_range, Bool.or_eq_true, decide_eq_true_eq] at h
    rcases h t' hlt with heq | hnone
    · exact absurd heq hne
    · rw [ht', Option.all_some, List.all_eq_true] at hnone
      obtain ⟨frame, hframe, hholds⟩ := List.countP_pos_iff.mp hpos
      have hfree := hnone frame hframe
      rw [(Bool.and_eq_true_iff.mp hholds).2] at hfree
      cases hfree
  | _ => trivial

/-- A cycle that one thread closes is found, while another waits for it. -/
theorem no_deadlock_waited_for :
    ∃ s, (machine eachOther).run (initial 2) waitedForEvents = some s ∧ s.Waits 1 false ∧
      s.Resolves 0 false ∧ s.cyclic = [true] ∧ (∀ threads, ¬ s.Deadlocked threads) ∧
        (∀ t r, s.Waits t r → ¬ s.Resolves t r) ∧
          ∀ r ∈ s.cyclic, Forces eachOther r r ∧ s.EndsIn r .errorCycle := by
  obtain ⟨s, hs⟩ := Option.isSome_iff_exists.mp
    (show ((machine eachOther).run (initial 2) waitedForEvents).isSome = true by decide +kernel)
  have hend : ((machine eachOther).run (initial 2) waitedForEvents).map
      (fun s => (s.calls, s.cyclic)) =
        some ([[(true, false, true), (false, false, true)], [(false, true, false)]], [true]) := by
    decide +kernel
  rw [hs] at hend
  obtain ⟨hcalls, hcyclic⟩ : s.calls = _ ∧ s.cyclic = _ := Prod.ext_iff.mp (Option.some.inj hend)
  have h0 : s.calls[0]? = some [(true, false, true), (false, false, true)] := by rw [hcalls]; rfl
  have h1 : s.calls[1]? = some [(false, true, false)] := by rw [hcalls]; rfl
  have hallowed : (machine eachOther).AllowedRun (fun s e => s.KeepsApart eachOther e) (initial 2)
      waitedForEvents :=
    @Machine.allowedRun_of_tested _ _ _ _ _ apart (fun _ => True) _ trivial
      (fun _ _ _ => keepsApart_of_apart) (fun _ _ _ _ _ _ => trivial) (by decide +kernel)
  exact ⟨s, hs, waits_of_calls h1, resolves_of_calls h0 (.tail _ (.head _)), hcyclic,
    no_deadlock (Machine.reaches_of_run hs hallowed)⟩

end ResolutionState

end Pegium
