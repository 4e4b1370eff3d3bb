/-
Pegium/References/ResolverRole.lean

Who resolves a reference, and who waits for it.

Every invariant is shown along `Move`, the cases of a step.
-/
import Mathlib.Algebra.GroupWithZero.Nat
import Mathlib.Logic.Relation
import Pegium.General.Counting
import Pegium.References.Resolution

namespace Pegium

variable {R V : Type} [DecidableEq R]

/-- A resolution may ask for a reference. -/
inductive Resolution.Asks : Resolution R V → R → Prop
  | here {r : R} {k : Reading V → Resolution R V} : Asks (.ask r k) r
  | there {r r' : R} {k : Reading V → Resolution R V} {reading : Reading V} :
    Asks (k reading) r' → Asks (.ask r k) r'

/-- The thread that goes on. -/
def ResolutionEvent.thread : ResolutionEvent R → Option ℕ
  | .get t _ | .goOn t | .wake t => some t
  | .clear _ => none

namespace ResolutionState

/-! ### The changes of a step -/

section Changes

variable (s : ResolutionState R V) (t : ℕ) (stack : List (ResolutionFrame R V)) (r : R)

omit [DecidableEq R] in
@[simp, grind =] theorem putStack_cells (r' : R) :
    (s.putStack t stack).cells r' = s.cells r' := rfl

omit [DecidableEq R] in
@[simp, grind =] theorem putStack_threads :
    (s.putStack t stack).threads = s.threads.set t stack := rfl

@[simp, grind =] theorem putCell_cells (cell : ReferenceCell V) (r' : R) :
    (s.putCell r cell).cells r' = if r' = r then cell else s.cells r' := Function.update_apply ..

@[simp, grind =] theorem putCell_threads (cell : ReferenceCell V) :
    (s.putCell r cell).threads = s.threads := rfl

@[simp, grind =] theorem notifyAll_cells (r' : R) :
    (s.notifyAll r).cells r' = s.cells r' := rfl

omit [DecidableEq R] in
@[simp, grind =] theorem putStack_asked : (s.putStack t stack).asked = s.asked := rfl

@[simp, grind =] theorem putCell_asked (cell : ReferenceCell V) :
    (s.putCell r cell).asked = s.asked := rfl

@[simp, grind =] theorem notifyAll_asked : (s.notifyAll r).asked = s.asked := rfl

omit [DecidableEq R] in
@[simp, grind =] theorem putStack_runs : (s.putStack t stack).runs = s.runs := rfl

@[simp, grind =] theorem putCell_runs (cell : ReferenceCell V) :
    (s.putCell r cell).runs = s.runs := rfl

@[simp, grind =] theorem notifyAll_runs : (s.notifyAll r).runs = s.runs := rfl

omit [DecidableEq R] in
@[simp, grind =] theorem putStack_retries : (s.putStack t stack).retries = s.retries := rfl

@[simp, grind =] theorem putCell_retries (cell : ReferenceCell V) :
    (s.putCell r cell).retries = s.retries := rfl

@[simp, grind =] theorem notifyAll_retries : (s.notifyAll r).retries = s.retries := rfl

omit [DecidableEq R] in
@[simp, grind =] theorem putStack_published : (s.putStack t stack).published = s.published := rfl

@[simp, grind =] theorem putCell_published (cell : ReferenceCell V) :
    (s.putCell r cell).published = s.published := rfl

@[simp, grind =] theorem notifyAll_published : (s.notifyAll r).published = s.published := rfl

omit [DecidableEq R] in
@[simp, grind =] theorem putStack_threw : (s.putStack t stack).threw = s.threw := rfl

@[simp, grind =] theorem putCell_threw (cell : ReferenceCell V) :
    (s.putCell r cell).threw = s.threw := rfl

@[simp, grind =] theorem notifyAll_threw : (s.notifyAll r).threw = s.threw := rfl

@[simp, grind =] theorem clear_cells (r' : R) :
    (s.clear r).cells r' = if r' = r then
      { s.cells r with state := .unresolved, resolvingOwner := none, target := none }
    else s.cells r' := Function.update_apply ..

@[simp, grind =] theorem clear_threads : (s.clear r).threads = s.threads := rfl

end Changes

/-! ### What a step does -/

variable (linker : R → Option (Resolution R V)) (s : ResolutionState R V)

/-- The cases of a step. -/
inductive Move : ResolutionEvent R → ResolutionState R V → Prop
  | get {t : ℕ} {r : R} (ht : s.threads[t]? = some []) :
    Move (.get t r) { s.putStack t [⟨r, .load⟩] with asked := r :: s.asked }
  | load {t : ℕ} {r : R} {rest : List (ResolutionFrame R V)}
      (ht : s.threads[t]? = some (⟨r, .load⟩ :: rest)) :
    Move (.goOn t) (s.putStack t (⟨r, seen (s.cells r).state⟩ :: rest))
  | acquire {t : ℕ} {r : R} {rest : List (ResolutionFrame R V)}
      (ht : s.threads[t]? = some (⟨r, .exchange⟩ :: rest))
      (free : (s.cells r).state = .unresolved) :
    Move (.goOn t)
      ((s.putCell r { s.cells r with state := .resolving }).putStack t (⟨r, .own⟩ :: rest))
  | lose {t : ℕ} {r : R} {rest : List (ResolutionFrame R V)}
      (ht : s.threads[t]? = some (⟨r, .exchange⟩ :: rest))
      (taken : (s.cells r).state ≠ .unresolved) :
    Move (.goOn t) (s.putStack t (⟨r, seen (s.cells r).state⟩ :: rest))
  | closeCycle {t : ℕ} {r r₀ : R} {k : Reading V → Resolution R V}
      {rest : List (ResolutionFrame R V)}
      (ht : s.threads[t]? = some (⟨r, .checkOwner⟩ :: ⟨r₀, .awaiting k⟩ :: rest))
      (own : (s.cells r).resolvingOwner = some t) :
    Move (.goOn t)
      { s.putStack t (⟨r₀, .disown .errorCycle none⟩ :: rest) with cyclic := r₀ :: s.cyclic }
  | enqueue {t : ℕ} {r : R} {rest : List (ResolutionFrame R V)}
      (ht : s.threads[t]? = some (⟨r, .checkOwner⟩ :: rest))
      (other : (s.cells r).resolvingOwner ≠ some t) :
    Move (.goOn t) (s.putStack t (⟨r, .addWaiter⟩ :: rest))
  | addWaiter {t : ℕ} {r : R} {rest : List (ResolutionFrame R V)}
      (ht : s.threads[t]? = some (⟨r, .addWaiter⟩ :: rest)) :
    Move (.goOn t)
      ((s.putCell r { s.cells r with waiterCount := (s.cells r).waiterCount + 1 }).putStack t
        (⟨r, .waiting true⟩ :: rest))
  | sleep {t : ℕ} {r : R} {rest : List (ResolutionFrame R V)}
      (ht : s.threads[t]? = some (⟨r, .waiting true⟩ :: rest))
      (taken : (s.cells r).state = .resolving) :
    Move (.goOn t) (s.putStack t (⟨r, .waiting false⟩ :: rest))
  | pass {t : ℕ} {r : R} {rest : List (ResolutionFrame R V)}
      (ht : s.threads[t]? = some (⟨r, .waiting true⟩ :: rest))
      (changed : (s.cells r).state ≠ .resolving) :
    Move (.goOn t) (s.putStack t (⟨r, .removeWaiter⟩ :: rest))
  | removeWaiter {t : ℕ} {r : R} {rest : List (ResolutionFrame R V)}
      (ht : s.threads[t]? = some (⟨r, .removeWaiter⟩ :: rest)) :
    Move (.goOn t)
      ((s.putCell r { s.cells r with waiterCount := (s.cells r).waiterCount - 1 }).putStack t
        (⟨r, .load⟩ :: rest))
  | ownUnlinked {t : ℕ} {r : R} {rest : List (ResolutionFrame R V)}
      (ht : s.threads[t]? = some (⟨r, .own⟩ :: rest)) (hr : linker r = none) :
    Move (.goOn t)
      ((s.putCell r { s.cells r with resolvingOwner := some t }).putStack t
        (⟨r, .disown .errorNoLinker none⟩ :: rest))
  | own {t : ℕ} {r : R} {rest : List (ResolutionFrame R V)} {resolution : Resolution R V}
      (ht : s.threads[t]? = some (⟨r, .own⟩ :: rest)) (hr : linker r = some resolution) :
    Move (.goOn t)
      { (s.putCell r { s.cells r with resolvingOwner := some t }).putStack t
          (⟨r, .resolving resolution⟩ :: rest) with
        runs := Function.update s.runs r (s.runs r + 1) }
  | ask {t : ℕ} {r r' : R} {k : Reading V → Resolution R V} {rest : List (ResolutionFrame R V)}
      (ht : s.threads[t]? = some (⟨r, .resolving (.ask r' k)⟩ :: rest)) :
    Move (.goOn t)
      { s.putStack t (⟨r', .load⟩ :: ⟨r, .awaiting k⟩ :: rest) with asked := r' :: s.asked }
  | link {t : ℕ} {r : R} {target : V} {rest : List (ResolutionFrame R V)}
      (ht : s.threads[t]? = some (⟨r, .resolving (.link target)⟩ :: rest)) :
    Move (.goOn t) (s.putStack t (⟨r, .writing target⟩ :: rest))
  | refuse {t : ℕ} {r : R} {kind : LinkingErrorKind} {rest : List (ResolutionFrame R V)}
      (ht : s.threads[t]? = some (⟨r, .resolving (.refuse kind)⟩ :: rest)) :
    Move (.goOn t)
      { s.putStack t (⟨r, .disown kind.state none⟩ :: rest) with
        retries := if kind.state = .unresolved then Function.update s.retries r (s.retries r + 1)
          else s.retries }
  | throw {t : ℕ} {r : R} {thrown : Thrown} {left : Option V} {rest : List (ResolutionFrame R V)}
      (ht : s.threads[t]? = some (⟨r, .resolving (.throw thrown left)⟩ :: rest)) :
    Move (.goOn t)
      { (s.putCell r { s.cells r with target := left }).putStack t
          (⟨r, .failing thrown⟩ :: rest) with
        threw := (t, r) :: s.threw }
  | write {t : ℕ} {r : R} {target : V} {rest : List (ResolutionFrame R V)}
      (ht : s.threads[t]? = some (⟨r, .writing target⟩ :: rest)) :
    Move (.goOn t)
      ((s.putCell r { s.cells r with target := some target }).putStack t
        (⟨r, .disown .resolved none⟩ :: rest))
  | fail {t : ℕ} {r : R} {thrown : Thrown} {rest : List (ResolutionFrame R V)}
      (ht : s.threads[t]? = some (⟨r, .failing thrown⟩ :: rest)) :
    Move (.goOn t)
      ((s.putCell r { s.cells r with target := none }).putStack t
        (⟨r, .disown .errorException (some thrown)⟩ :: rest))
  | disown {t : ℕ} {r : R} {state : ReferenceState} {thrown : Option Thrown}
      {rest : List (ResolutionFrame R V)}
      (ht : s.threads[t]? = some (⟨r, .disown state thrown⟩ :: rest)) :
    Move (.goOn t)
      ((s.putCell r { s.cells r with resolvingOwner := none }).putStack t
        (⟨r, .store state thrown⟩ :: rest))
  | store {t : ℕ} {r : R} {state : ReferenceState} {thrown : Option Thrown}
      {rest : List (ResolutionFrame R V)}
      (ht : s.threads[t]? = some (⟨r, .store state thrown⟩ :: rest)) :
    Move (.goOn t)
      { (s.putCell r { s.cells r with state := state }).putStack t
        (⟨r, .notify thrown⟩ :: rest) with
        published := Function.update s.published r
          (some ({ s.cells r with state := state } : ReferenceCell V).reading) }
  | notify {t : ℕ} {r : R} {rest : List (ResolutionFrame R V)}
      (ht : s.threads[t]? = some (⟨r, .notify none⟩ :: rest)) :
    Move (.goOn t) ((s.notifyAll r).putStack t (⟨r, .reading none⟩ :: rest))
  | escape {t : ℕ} {r : R} {thrown : Thrown}
      (ht : s.threads[t]? = some [⟨r, .notify (some thrown)⟩]) :
    Move (.goOn t) ((s.notifyAll r).putStack t [])
  | fallThrough {t : ℕ} {r r₀ : R} {k : Reading V → Resolution R V}
      {rest : List (ResolutionFrame R V)}
      (ht : s.threads[t]? = some (⟨r, .notify (some .failed)⟩ :: ⟨r₀, .awaiting k⟩ :: rest)) :
    Move (.goOn t) ((s.notifyAll r).putStack t (⟨r₀, .disown .errorException none⟩ :: rest))
  | cancelThrough {t : ℕ} {r r₀ : R} {k : Reading V → Resolution R V}
      {rest : List (ResolutionFrame R V)}
      (ht : s.threads[t]? = some (⟨r, .notify (some .cancelled)⟩ :: ⟨r₀, .awaiting k⟩ :: rest)) :
    Move (.goOn t)
      { (s.notifyAll r).putStack t (⟨r₀, .failing .cancelled⟩ :: rest) with
        threw := (t, r₀) :: s.threw }
  | finish {t : ℕ} {r : R} {told : Option ReferenceState}
      (ht : s.threads[t]? = some [⟨r, .reading told⟩]) :
    Move (.goOn t) (s.putStack t [])
  | answer {t : ℕ} {r r₀ : R} {told : Option ReferenceState} {k : Reading V → Resolution R V}
      {rest : List (ResolutionFrame R V)}
      (ht : s.threads[t]? = some (⟨r, .reading told⟩ :: ⟨r₀, .awaiting k⟩ :: rest)) :
    Move (.goOn t) (s.putStack t (⟨r₀, .resolving (k (s.cells r).reading)⟩ :: rest))
  | wake {t : ℕ} {r : R} {phase : ResolutionPhase R V} {rest : List (ResolutionFrame R V)}
      (ht : s.threads[t]? = some (⟨r, phase⟩ :: rest)) :
    Move (.wake t) (s.putStack t (⟨r, phase.wake⟩ :: rest))
  | clear {r : R} (idle : s.idle = true) : Move (.clear r) (s.clear r)

variable {linker s} {s' : ResolutionState R V}

theorem move_of_frameStep {t : ℕ} {r : R} {phase : ResolutionPhase R V}
    {rest : List (ResolutionFrame R V)} (ht : s.threads[t]? = some (⟨r, phase⟩ :: rest))
    (h : s.frameStep linker t r rest phase = some s') : s.Move linker (.goOn t) s' := by
  revert h
  fun_cases frameStep s linker t r rest phase with
  | case1 => rintro ⟨⟩; exact .load ht
  | case2 free => rintro ⟨⟩; exact .acquire ht free
  | case3 taken => rintro ⟨⟩; exact .lose ht taken
  | case4 own =>
    fun_cases raiseCyclic s t rest with
    | case1 => rintro ⟨⟩; exact .closeCycle ht own
    | case2 => exact nofun
  | case5 other => rintro ⟨⟩; exact .enqueue ht other
  | case6 => rintro ⟨⟩; exact .addWaiter ht
  | case7 taken => rintro ⟨⟩; exact .sleep ht taken
  | case8 changed => rintro ⟨⟩; exact .pass ht changed
  | case9 => exact nofun
  | case10 => rintro ⟨⟩; exact .removeWaiter ht
  | case11 owned hr => rintro ⟨⟩; exact .ownUnlinked ht hr
  | case12 owned resolution hr => rintro ⟨⟩; exact .own ht hr
  | case13 => rintro ⟨⟩; exact .ask ht
  | case14 => rintro ⟨⟩; exact .link ht
  | case15 => rintro ⟨⟩; exact .refuse ht
  | case16 => rintro ⟨⟩; exact .throw ht
  | case17 => exact nofun
  | case18 => rintro ⟨⟩; exact .write ht
  | case19 => rintro ⟨⟩; exact .fail ht
  | case20 => rintro ⟨⟩; exact .disown ht
  | case21 => rintro ⟨⟩; exact .store ht
  | case22 => rintro ⟨⟩; exact .notify ht
  | case23 thrown =>
    fun_cases raise (s.notifyAll r) t thrown rest with
    | case1 => rintro ⟨⟩; exact .escape ht
    | case2 => rintro ⟨⟩; exact .fallThrough ht
    | case3 => rintro ⟨⟩; exact .cancelThrough ht
    | case4 => exact nofun
  | case24 told =>
    fun_cases answer s t (s.cells r).reading rest with
    | case1 => rintro ⟨⟩; exact .finish ht
    | case2 => rintro ⟨⟩; exact .answer ht
    | case3 => exact nofun

/-- **A step is one of the moves.** -/
theorem move_of_step {e : ResolutionEvent R} (h : s.step linker e = some s') :
    s.Move linker e s' := by
  cases e with
  | get t r =>
    simp only [step] at h
    split at h
    case h_1 ht => cases h; exact .get ht
    case h_2 => cases h
  | goOn t =>
    simp only [step] at h
    split at h
    case h_1 ht => exact move_of_frameStep ht h
    case h_2 => cases h
  | wake t =>
    simp only [step] at h
    split at h
    case h_1 ht => cases h; exact .wake ht
    case h_2 => cases h
  | clear r =>
    obtain ⟨idle, h⟩ := Option.ite_none_right_eq_some.mp h
    cases h
    exact .clear idle

/-! ### Stacks -/

variable (linker) in
/-- Resolving `r` may force `r'`. -/
def Depends (r r' : R) : Prop := ∃ resolution, linker r = some resolution ∧ resolution.Asks r'

variable (linker) in
/-- Resolving `r` may force `r'`, over other references. -/
def Forces : R → R → Prop := Relation.TransGen (Depends linker)

variable (linker) in
/-- The calls below a call for `r`: each waits for the one above, which it depends on. -/
def Below (r : R) : List (ResolutionFrame R V) → Prop
  | [] => True
  | ⟨r₀, .awaiting k⟩ :: rest =>
    Depends linker r₀ r ∧ (∀ reading r', (k reading).Asks r' → Depends linker r₀ r') ∧
      Below r₀ rest
  | _ => False

variable (linker) in
/-- A call that goes on. -/
def Running (r : R) : ResolutionPhase R V → Prop
  | .awaiting _ => False
  | .resolving resolution => ∀ r', resolution.Asks r' → Depends linker r r'
  | .disown state thrown | .store state thrown =>
    state ≠ .resolving ∧ (thrown.isSome → state = .errorException)
  | _ => True

variable (linker) in
/-- The calls of a thread. -/
def Stacked : List (ResolutionFrame R V) → Prop
  | [] => True
  | ⟨r, phase⟩ :: rest => Running linker r phase ∧ Below linker r rest

omit [DecidableEq R] in
/-- A property of every stack holds after one of them changes. -/
theorem forall_putStack {P : List (ResolutionFrame R V) → Prop} {t : ℕ}
    {stack : List (ResolutionFrame R V)} (h : ∀ stack ∈ s.threads, P stack) (hstack : P stack) :
    ∀ stack' ∈ (s.putStack t stack).threads, P stack' := fun stack' hmem =>
  (List.mem_or_eq_of_mem_set hmem).elim (h stack') fun heq => heq ▸ hstack

omit [DecidableEq R] in
theorem Running.wake {r : R} {phase : ResolutionPhase R V} (h : Running linker r phase) :
    Running linker r phase.wake := by
  cases phase <;> exact h

omit [DecidableEq R] in
theorem running_seen (r : R) (state : ReferenceState) :
    Running linker r (seen state : ResolutionPhase R V) := by
  cases state <;> trivial

theorem stacked_wakeStack {r : R} {stack : List (ResolutionFrame R V)}
    (h : Stacked linker stack) : Stacked linker (wakeStack r stack) := by
  rcases stack with - | ⟨⟨r', phase⟩, rest⟩
  · trivial
  · by_cases heq : r' = r
    · rw [wakeStack, if_pos heq]
      exact ⟨h.1.wake, h.2⟩
    · rw [wakeStack, if_neg heq]
      exact h

theorem notifyAll_stack (r : R) (t : ℕ) : (s.notifyAll r).threads[t]? =
    if 0 < (s.cells r).waiterCount then s.threads[t]?.map (wakeStack r) else s.threads[t]? := by
  unfold notifyAll
  dsimp only
  split
  · exact List.getElem?_map
  · rfl

/-- The thread that wakes the others goes on. -/
theorem notifyAll_self {t : ℕ} {r : R} {thrown : Option Thrown} {rest : List (ResolutionFrame R V)}
    (ht : s.threads[t]? = some (⟨r, .notify thrown⟩ :: rest)) :
    (s.notifyAll r).threads[t]? = some (⟨r, .notify thrown⟩ :: rest) := by
  rw [notifyAll_stack, ht, Option.map_some, wakeStack, if_pos rfl]
  exact ite_self _

/-- The other threads stay where they are, but for being woken. -/
theorem other_of_move {e : ResolutionEvent R} (hm : s.Move linker e s') {t : ℕ}
    (hne : e.thread ≠ some t) : s'.threads[t]? = s.threads[t]? ∨
      ∃ r, s'.threads[t]? = s.threads[t]?.map (wakeStack r) := by
  have hput : ∀ {t' : ℕ}, some t' ≠ some t → ∀ {stack : List (ResolutionFrame R V)},
      (s.threads.set t' stack)[t]? = s.threads[t]? :=
    fun hne _ => List.getElem?_set_ne fun h => hne (congrArg some h)
  have hnotify : ∀ {t' : ℕ}, some t' ≠ some t → ∀ {r : R} {stack : List (ResolutionFrame R V)},
      ((s.notifyAll r).threads.set t' stack)[t]? = s.threads[t]? ∨
        ∃ r', ((s.notifyAll r).threads.set t' stack)[t]? = s.threads[t]?.map (wakeStack r') := by
    intro t' hne r stack
    rw [List.getElem?_set_ne fun h => hne (congrArg some h), notifyAll_stack]
    split
    · exact .inr ⟨r, rfl⟩
    · exact .inl rfl
  cases hm with
  | notify | escape | fallThrough | cancelThrough => exact hnotify hne
  | clear => exact .inl rfl
  | _ => exact .inl (hput hne)

theorem stacked_notifyAll {r : R} (h : ∀ stack ∈ s.threads, Stacked linker stack) :
    ∀ stack ∈ (s.notifyAll r).threads, Stacked linker stack := by
  unfold notifyAll
  intro stack hmem
  dsimp only at hmem
  split at hmem
  · obtain ⟨stack', hmem', rfl⟩ := List.mem_map.mp hmem
    exact stacked_wakeStack (h stack' hmem')
  · exact h stack hmem

theorem stacked_move {e : ResolutionEvent R} (h : ∀ stack ∈ s.threads, Stacked linker stack)
    (hm : s.Move linker e s') : ∀ stack ∈ s'.threads, Stacked linker stack := by
  have hs := fun {t : ℕ} {stack : List (ResolutionFrame R V)} (ht : s.threads[t]? = some stack) =>
    h stack (List.mem_of_getElem? ht)
  cases hm with
  | get ht => exact forall_putStack h ⟨trivial, trivial⟩
  | load ht | lose ht => exact forall_putStack h ⟨running_seen _ _, (hs ht).2⟩
  | acquire ht | enqueue ht | addWaiter ht | sleep ht | pass ht | removeWaiter ht | link ht
  | throw ht =>
    exact forall_putStack h ⟨trivial, (hs ht).2⟩
  | ownUnlinked ht => exact forall_putStack h ⟨⟨nofun, nofun⟩, (hs ht).2⟩
  | own ht hr => exact forall_putStack h ⟨fun r' hasks => ⟨_, hr, hasks⟩, (hs ht).2⟩
  | ask ht =>
    obtain ⟨hasks, hbelow⟩ := hs ht
    exact forall_putStack h
      ⟨trivial, hasks _ .here, fun _ _ hr => hasks _ (.there hr), hbelow⟩
  | @refuse t r kind rest ht =>
    refine forall_putStack h ⟨⟨?_, nofun⟩, (hs ht).2⟩
    cases kind <;> exact nofun
  | write ht => exact forall_putStack h ⟨⟨nofun, nofun⟩, (hs ht).2⟩
  | fail ht => exact forall_putStack h ⟨⟨nofun, fun _ => rfl⟩, (hs ht).2⟩
  | disown ht => exact forall_putStack h ⟨(hs ht).1, (hs ht).2⟩
  | store ht => exact forall_putStack h ⟨trivial, (hs ht).2⟩
  | closeCycle ht => exact forall_putStack h ⟨⟨nofun, nofun⟩, (hs ht).2.2.2⟩
  | answer ht =>
    obtain ⟨-, -, hasks, hbelow⟩ := hs ht
    exact forall_putStack h ⟨fun r' hr => hasks _ r' hr, hbelow⟩
  | finish ht => exact forall_putStack h trivial
  | notify ht => exact forall_putStack (stacked_notifyAll h) ⟨trivial, (hs ht).2⟩
  | escape ht => exact forall_putStack (stacked_notifyAll h) trivial
  | fallThrough ht =>
    exact forall_putStack (stacked_notifyAll h) ⟨⟨nofun, nofun⟩, (hs ht).2.2.2⟩
  | cancelThrough ht => exact forall_putStack (stacked_notifyAll h) ⟨trivial, (hs ht).2.2.2⟩
  | wake ht => exact forall_putStack h ⟨(hs ht).1.wake, (hs ht).2⟩
  | clear => exact h

/-! ### Counting calls -/

/-- The calls for a reference in a stack that are in some phase. -/
def tally (p : ResolutionPhase R V → Bool) (r : R) (stack : List (ResolutionFrame R V)) : ℕ :=
  stack.countP fun frame => decide (frame.reference = r) && p frame.phase

/-- The calls for a reference that are in some phase. -/
def total (p : ResolutionPhase R V → Bool) (r : R) (s : ResolutionState R V) : ℕ :=
  (s.threads.map (tally p r)).sum

section Tally

variable {p : ResolutionPhase R V → Bool} {r : R} {stack : List (ResolutionFrame R V)} {t : ℕ}

@[simp, grind =] theorem tally_nil : tally p r ([] : List (ResolutionFrame R V)) = 0 := rfl

@[simp, grind =] theorem tally_cons {r' : R} {phase : ResolutionPhase R V} :
    tally p r (⟨r', phase⟩ :: stack)
      = tally p r stack + if r' = r ∧ p phase = true then 1 else 0 := by
  simp [tally, List.countP_cons]

theorem tally_pos {phase : ResolutionPhase R V} (hp : p phase = true) :
    0 < tally p r (⟨r, phase⟩ :: stack) := by
  rw [tally_cons, if_pos ⟨rfl, hp⟩]
  exact Nat.succ_pos _

theorem tally_wakeStack (hp : ∀ phase, p phase.wake = p phase) (r' : R) :
    tally p r (wakeStack r' stack) = tally p r stack := by
  rcases stack with - | ⟨⟨r'', phase⟩, rest⟩
  · rfl
  · by_cases heq : r'' = r'
    · rw [wakeStack, if_pos heq, tally_cons, tally_cons, hp]
    · rw [wakeStack, if_neg heq]

theorem total_notifyAll (hp : ∀ phase, p phase.wake = p phase) (r' : R) :
    total p r (s.notifyAll r') = total p r s := by
  unfold total notifyAll
  dsimp only
  split
  · exact List.sum_map_map_eq fun stack => tally_wakeStack hp r'
  · rfl

end Tally

omit [DecidableEq R] in
@[simp, grind =] theorem holds_seen (state : ReferenceState) :
    (seen state : ResolutionPhase R V).holds = false := by
  cases state <;> rfl

omit [DecidableEq R] in
@[simp, grind =] theorem owns_seen (state : ReferenceState) :
    (seen state : ResolutionPhase R V).owns = false := by
  cases state <;> rfl

omit [DecidableEq R] in
@[simp, grind =] theorem counted_seen (state : ReferenceState) :
    (seen state : ResolutionPhase R V).counted = false := by
  cases state <;> rfl

omit [DecidableEq R] in
@[simp, grind =] theorem holds_wake (phase : ResolutionPhase R V) :
    phase.wake.holds = phase.holds := by
  cases phase <;> rfl

omit [DecidableEq R] in
@[simp, grind =] theorem owns_wake (phase : ResolutionPhase R V) :
    phase.wake.owns = phase.owns := by
  cases phase <;> rfl

omit [DecidableEq R] in
@[simp, grind =] theorem counted_wake (phase : ResolutionPhase R V) :
    phase.wake.counted = phase.counted := by
  cases phase <;> rfl

/-- A step of one thread changes the number of calls by those of the thread. -/
theorem total_set {p : ResolutionPhase R V → Bool} {t : ℕ}
    {stack stack' : List (ResolutionFrame R V)}
    (ht : s.threads[t]? = some stack) (h : s'.threads = s.threads.set t stack') (r : R) :
    total p r s' + tally p r stack = total p r s + tally p r stack' := by
  unfold total
  rw [h]
  exact List.sum_map_set_add ht stack'

omit [DecidableEq R] in
theorem eq_nil_of_idle (hidle : s.idle = true) {stack : List (ResolutionFrame R V)}
    (hmem : stack ∈ s.threads) : stack = [] :=
  List.isEmpty_iff.mp (List.all_eq_true.mp hidle stack hmem)

theorem total_of_idle {p : ResolutionPhase R V → Bool} (hidle : s.idle = true) (r : R) :
    total p r s = 0 := by
  by_contra hne
  obtain ⟨t, stack, ht, hpos⟩ := List.exists_of_sum_map_pos (Nat.pos_of_ne_zero hne)
  rw [eq_nil_of_idle hidle (List.mem_of_getElem? ht)] at hpos
  exact absurd hpos (Nat.lt_irrefl 0)

/-- One call has the resolver role of a reference that is being resolved, and the waiters are
counted. -/
structure Held (s : ResolutionState R V) : Prop where
  holds : ∀ r, total ResolutionPhase.holds r s = if (s.cells r).state = .resolving then 1 else 0
  counted : ∀ r, (s.cells r).waiterCount = total ResolutionPhase.counted r s

namespace Held

variable {t : ℕ} {stack stack' : List (ResolutionFrame R V)}

theorem set (h : s.Held) (ht : s.threads[t]? = some stack)
    (hthreads : s'.threads = s.threads.set t stack')
    (hholds : ∀ r, tally ResolutionPhase.holds r stack' +
        (if (s.cells r).state = .resolving then 1 else 0) =
      tally ResolutionPhase.holds r stack + if (s'.cells r).state = .resolving then 1 else 0)
    (hcounted : ∀ r, (s'.cells r).waiterCount + tally ResolutionPhase.counted r stack =
      (s.cells r).waiterCount + tally ResolutionPhase.counted r stack') : s'.Held := by
  constructor
  · intro r
    have := total_set (p := ResolutionPhase.holds) ht hthreads r
    have := h.holds r
    have := hholds r
    omega
  · intro r
    have := total_set (p := ResolutionPhase.counted) ht hthreads r
    have := h.counted r
    have := hcounted r
    omega

/-- A call that has the role is for a reference that is being resolved. -/
theorem resolving (h : s.Held) (ht : s.threads[t]? = some stack) {r : R}
    (hpos : 0 < tally ResolutionPhase.holds r stack) : (s.cells r).state = .resolving := by
  have := List.le_sum_map (f := tally ResolutionPhase.holds r) (List.mem_of_getElem? ht)
  have := h.holds r
  unfold total at this
  by_contra hne
  rw [if_neg hne] at this
  omega

/-- One call has the role. -/
theorem once (h : s.Held) (ht : s.threads[t]? = some stack) (r : R) :
    tally ResolutionPhase.holds r stack ≤ 1 := by
  have := List.le_sum_map (f := tally ResolutionPhase.holds r) (List.mem_of_getElem? ht)
  have := h.holds r
  unfold total at this
  grind

/-- No other thread has the role. -/
theorem alone (h : s.Held) {t' : ℕ} (ht : s.threads[t]? = some stack)
    (ht' : s.threads[t']? = some stack') (hne : t' ≠ t) {r : R}
    (hpos : 0 < tally ResolutionPhase.holds r stack) :
    tally ResolutionPhase.holds r stack' = 0 := by
  have := List.add_le_sum_map (f := tally ResolutionPhase.holds r) ht ht' hne.symm
  have := h.holds r
  unfold total at this
  grind

theorem notifyAll (h : s.Held) (r : R) : (s.notifyAll r).Held :=
  ⟨fun r' => (total_notifyAll holds_wake r).trans (h.holds r'),
    fun r' => (h.counted r').trans (congrArg _ (total_notifyAll counted_wake r).symm)⟩

theorem move {e : ResolutionEvent R} (h : s.Held)
    (hstacked : ∀ stack ∈ s.threads, Stacked linker stack)
    (hm : s.Move linker e s') : s'.Held := by
  cases hm with
  | get ht | load ht | acquire ht free | lose ht taken | closeCycle ht _ | enqueue ht _
  | addWaiter ht | sleep ht _ | pass ht _ | removeWaiter ht | ownUnlinked ht _ | own ht _
  | ask ht | link ht | refuse ht | throw ht | write ht | fail ht | disown ht
  | finish ht | answer ht | wake ht =>
    apply h.set ht rfl <;> intro r' <;>
      grind [ResolutionPhase.holds, ResolutionPhase.counted]
  | store ht =>
    have hne := (hstacked _ (List.mem_of_getElem? ht)).1.1
    apply h.set ht rfl <;> intro r' <;> have := h.resolving ht (r := r') <;>
      grind [ResolutionPhase.holds, ResolutionPhase.counted]
  | notify ht | escape ht | fallThrough ht | cancelThrough ht =>
    apply (h.notifyAll _).set (notifyAll_self ht) rfl <;> intro r' <;>
      grind [ResolutionPhase.holds, ResolutionPhase.counted]
  | @clear r idle =>
    constructor
    · intro r'
      have hnone := total_of_idle (p := ResolutionPhase.holds) idle r'
      have := h.holds r'
      show total _ r' s = _
      grind
    · intro r'
      refine Eq.trans ?_ (h.counted r')
      grind

end Held

theorem tally_owns_le (r : R) (stack : List (ResolutionFrame R V)) :
    tally ResolutionPhase.owns r stack ≤ tally ResolutionPhase.holds r stack := by
  apply List.countP_mono_left
  intro frame _ h
  obtain ⟨rfl, h⟩ : frame.reference = r ∧ frame.phase.owns = true := by simpa using h
  cases hphase : frame.phase <;> simp_all [ResolutionPhase.owns, ResolutionPhase.holds]

/-- Below the call that goes on, a call that has the role is in the owner word. -/
theorem Below.tally_holds {r : R} {rest : List (ResolutionFrame R V)} (h : Below linker r rest)
    (r' : R) : tally ResolutionPhase.holds r' rest = tally ResolutionPhase.owns r' rest := by
  induction rest generalizing r with
  | nil => rfl
  | cons frame rest ih =>
    obtain ⟨r₀, phase⟩ := frame
    cases phase with
    | awaiting k => rw [tally_cons, tally_cons, ih h.2.2]; rfl
    | _ => exact h.elim

/-- The owner word of a reference names the thread that resolves it. -/
def Owned (s : ResolutionState R V) : Prop :=
  ∀ t stack, s.threads[t]? = some stack →
    ∀ r, (s.cells r).resolvingOwner = some t ↔ 0 < tally ResolutionPhase.owns r stack

namespace Owned

variable {t : ℕ} {stack stack' : List (ResolutionFrame R V)}

theorem set (h : s.Owned) (ht : s.threads[t]? = some stack)
    (hthreads : s'.threads = s.threads.set t stack')
    (hself : ∀ r, (s'.cells r).resolvingOwner = some t ↔ 0 < tally ResolutionPhase.owns r stack')
    (hother : ∀ t' stack', t' ≠ t → s.threads[t']? = some stack' → ∀ r,
      (s'.cells r).resolvingOwner = some t' ↔ (s.cells r).resolvingOwner = some t') : s'.Owned := by
  intro t' stack'' ht' r
  rw [hthreads, List.getElem?_set] at ht'
  by_cases heq : t = t'
  · rw [if_pos heq] at ht'
    grind
  · rw [if_neg heq] at ht'
    rw [hother t' stack'' (Ne.symm heq) ht' r]
    exact h t' stack'' ht' r

/-- The owner word names no thread but the one that has the role. -/
theorem ne_other (h : s.Owned) (hheld : s.Held) (ht : s.threads[t]? = some stack) {r : R}
    (hpos : 0 < tally ResolutionPhase.holds r stack) :
    ∀ t' stack', t' ≠ t → s.threads[t']? = some stack' → (s.cells r).resolvingOwner ≠ some t' := by
  intro t' stack' hne ht' howner
  have := hheld.alone ht ht' hne hpos
  have := (h t' stack' ht' r).mp howner
  have := tally_owns_le r stack'
  omega

theorem notifyAll (h : s.Owned) (r : R) : (s.notifyAll r).Owned := by
  intro t stack ht r'
  rw [notifyAll_stack] at ht
  split at ht
  · obtain ⟨stack', ht', rfl⟩ := Option.map_eq_some_iff.mp ht
    rw [tally_wakeStack owns_wake]
    exact h t stack' ht' r'
  · exact h t stack ht r'

theorem move {e : ResolutionEvent R} (h : s.Owned) (hheld : s.Held)
    (hm : s.Move linker e s') : s'.Owned := by
  cases hm with
  | get ht | load ht | acquire ht free | lose ht taken | closeCycle ht _ | enqueue ht _
  | addWaiter ht | sleep ht _ | pass ht _ | removeWaiter ht
  | ask ht | link ht | refuse ht | throw ht | write ht | fail ht | store ht
  | finish ht | answer ht | wake ht =>
    have := h _ _ ht
    apply h.set ht rfl <;> grind [ResolutionPhase.owns]
  | ownUnlinked ht _ | own ht _ =>
    have hself := h _ _ ht
    have hother := h.ne_other hheld ht (tally_pos rfl)
    apply h.set ht rfl <;> grind [ResolutionPhase.owns]
  | disown ht =>
    have hself := h _ _ ht
    have honce := hheld.once ht
    have hother := h.ne_other hheld ht (tally_pos rfl)
    apply h.set ht rfl <;> grind [ResolutionPhase.owns, ResolutionPhase.holds, tally_owns_le]
  | notify ht | escape ht | fallThrough ht | cancelThrough ht =>
    have := h _ _ ht
    apply (h.notifyAll _).set (notifyAll_self ht) rfl <;> grind [ResolutionPhase.owns]
  | @clear r idle =>
    intro t stack ht r'
    have := h t stack ht r'
    have := eq_nil_of_idle idle (List.mem_of_getElem? ht)
    grind

end Owned

/-- A thread does not wait for a reference that it resolves. -/
def Foreign : List (ResolutionFrame R V) → Prop
  | ⟨r, phase⟩ :: rest => phase.waits = true → tally ResolutionPhase.holds r rest = 0
  | [] => True

theorem foreign_notifyAll {r : R} (h : ∀ stack ∈ s.threads, Foreign stack) :
    ∀ stack ∈ (s.notifyAll r).threads, Foreign stack := by
  unfold notifyAll
  intro stack hmem
  dsimp only at hmem
  split at hmem
  · obtain ⟨stack', hmem', rfl⟩ := List.mem_map.mp hmem
    have := h stack' hmem'
    rcases stack' with - | ⟨⟨r', phase⟩, rest⟩
    · trivial
    · by_cases heq : r' = r
      · rw [wakeStack, if_pos heq]
        cases phase <;> exact this
      · rwa [wakeStack, if_neg heq]
  · exact h stack hmem

theorem foreign_move {e : ResolutionEvent R} (h : ∀ stack ∈ s.threads, Foreign stack)
    (howned : s.Owned) (hstacked : ∀ stack ∈ s.threads, Stacked linker stack)
    (hm : s.Move linker e s') : ∀ stack ∈ s'.threads, Foreign stack := by
  have hs := fun {t : ℕ} {stack : List (ResolutionFrame R V)} (ht : s.threads[t]? = some stack) =>
    h stack (List.mem_of_getElem? ht)
  cases hm with
  | get ht | acquire ht | pass ht | removeWaiter ht | ownUnlinked ht | own ht | ask ht | link ht
  | refuse ht | throw ht | write ht | fail ht | disown ht | store ht | closeCycle ht | answer ht =>
    exact forall_putStack h nofun
  | load ht | lose ht =>
    refine forall_putStack h ?_
    cases (s.cells _).state <;> exact nofun
  | @enqueue t r rest ht other =>
    refine forall_putStack h fun _ => ?_
    -- The owner word would name this thread.
    have hnone : ¬ 0 < tally ResolutionPhase.owns r rest := by
      intro hpos
      apply other ((howned t _ ht r).mpr ?_)
      rw [tally_cons]
      exact Nat.lt_add_right _ hpos
    rw [(hstacked _ (List.mem_of_getElem? ht)).2.tally_holds]
    exact Nat.eq_zero_of_not_pos hnone
  | addWaiter ht | sleep ht => exact forall_putStack h fun _ => hs ht rfl
  | finish ht => exact forall_putStack h trivial
  | notify ht | fallThrough ht | cancelThrough ht =>
    exact forall_putStack (foreign_notifyAll h) nofun
  | escape ht => exact forall_putStack (foreign_notifyAll h) trivial
  | @wake t r phase rest ht =>
    refine forall_putStack h ?_
    have := hs ht
    cases phase <;> exact this
  | clear => exact h

/-! ### Every run -/

variable (linker) in
/-- What holds of every state that is reached. -/
structure Roles (s : ResolutionState R V) : Prop where
  stacked : ∀ stack ∈ s.threads, Stacked linker stack
  held : s.Held
  owned : s.Owned
  foreign : ∀ stack ∈ s.threads, Foreign stack

omit [DecidableEq R] in
theorem eq_nil_initial {n : ℕ} {stack : List (ResolutionFrame R V)}
    (hmem : stack ∈ (initial n : ResolutionState R V).threads) : stack = [] :=
  List.eq_of_mem_replicate hmem

omit [DecidableEq R] in
theorem idle_initial (n : ℕ) : (initial n : ResolutionState R V).idle = true :=
  List.all_eq_true.mpr fun _ hmem => List.isEmpty_iff.mpr (eq_nil_initial hmem)

variable (linker) in
theorem roles_initial (n : ℕ) : (initial n : ResolutionState R V).Roles linker := by
  refine ⟨fun stack hmem => ?_, ⟨fun r => ?_, fun r => ?_⟩, fun t stack ht r => ?_,
    fun stack hmem => ?_⟩
  · rw [eq_nil_initial hmem]
    trivial
  · exact total_of_idle (idle_initial n) r
  · exact congrArg _ (total_of_idle (idle_initial n) r).symm
  · rw [eq_nil_initial (List.mem_of_getElem? ht)]
    exact ⟨nofun, nofun⟩
  · rw [eq_nil_initial hmem]
    trivial

theorem Roles.move {e : ResolutionEvent R} (h : s.Roles linker) (hm : s.Move linker e s') :
    s'.Roles linker :=
  ⟨stacked_move h.stacked hm, h.held.move h.stacked hm, h.owned.move h.held hm,
    foreign_move h.foreign h.owned h.stacked hm⟩

end ResolutionState

end Pegium
