/-
Pegium/Workspace/LockSteps.lean

What one step of the workspace lock can do.

Every invariant of the lock is shown along `Transition`, the cases of a step.
-/
import Mathlib.Data.List.Basic
import Pegium.Workspace.DefaultWorkspaceLock

namespace Pegium

/-! ### Waking up -/

section Wake

variable (call : LockCall) (worker : LockWorker) (destructor : LockDestructor)

@[simp, grind =] theorem LockCall.wake_request : call.wake.request = call.request := by
  unfold wake
  split <;> rfl

@[simp, grind =] theorem LockCall.wake_future : call.wake.future = call.future := by
  unfold wake
  split <;> rfl

@[grind =] theorem LockCall.wake_phase :
    call.wake.phase = if call.phase = .waiting false then .waiting true else call.phase := by
  unfold wake
  split
  case h_1 asleep => rw [asleep]; rfl
  case h_2 awake => exact (if_neg awake).symm

@[simp, grind =] theorem LockWorker.wakeGate_eq_exited :
    worker.wakeGate = .exited ↔ worker = .exited := by
  cases worker <;> simp [wakeGate]

@[simp, grind =] theorem LockWorker.wakeQueue_eq_exited :
    worker.wakeQueue = .exited ↔ worker = .exited := by
  cases worker <;> simp [wakeQueue]

@[simp, grind =] theorem LockWorker.wakeGate_reading :
    worker.wakeGate.reading = worker.reading := by
  cases worker <;> rfl

@[simp, grind =] theorem LockWorker.wakeGate_pending :
    worker.wakeGate.pending = worker.pending := by
  cases worker <;> rfl

@[simp, grind =] theorem LockWorker.wakeGate_holding :
    worker.wakeGate.holding = worker.holding := by
  cases worker <;> rfl

@[simp, grind =] theorem LockWorker.wakeQueue_reading :
    worker.wakeQueue.reading = worker.reading := by
  cases worker <;> rfl

@[simp, grind =] theorem LockWorker.wakeQueue_pending :
    worker.wakeQueue.pending = worker.pending := by
  cases worker <;> rfl

@[simp, grind =] theorem LockWorker.wakeQueue_holding :
    worker.wakeQueue.holding = worker.holding := by
  cases worker <;> rfl

@[simp, grind =] theorem LockWorker.wakeGate_exclusive :
    worker.wakeGate.exclusive = worker.exclusive := by
  cases worker <;> rfl

@[simp, grind =] theorem LockWorker.wakeGate_willAct :
    worker.wakeGate.willAct = worker.willAct := by
  cases worker <;> rfl

@[simp, grind =] theorem LockWorker.wakeQueue_exclusive :
    worker.wakeQueue.exclusive = worker.exclusive := by
  cases worker <;> rfl

@[simp, grind =] theorem LockWorker.wakeQueue_willAct :
    worker.wakeQueue.willAct = worker.willAct := by
  cases worker <;> rfl

@[simp, grind =] theorem LockWorker.wakeGate_write? :
    worker.wakeGate.write? = worker.write? := by
  cases worker <;> rfl

@[simp, grind =] theorem LockWorker.wakeQueue_write? :
    worker.wakeQueue.write? = worker.write? := by
  cases worker <;> rfl

@[simp, grind =] theorem LockWorker.wakeGate_upcoming :
    worker.wakeGate.upcoming = worker.upcoming := by
  cases worker <;> rfl

@[simp, grind =] theorem LockWorker.wakeGate_acting? :
    worker.wakeGate.acting? = worker.acting? := by
  cases worker <;> rfl

@[simp, grind =] theorem LockWorker.wakeQueue_upcoming :
    worker.wakeQueue.upcoming = worker.upcoming := by
  cases worker <;> rfl

@[simp, grind =] theorem LockWorker.wakeQueue_acting? :
    worker.wakeQueue.acting? = worker.acting? := by
  cases worker <;> rfl

@[simp, grind .] theorem LockWorker.wakeGate_ne (w : ℕ) (shuttingDown : Bool) :
    worker.wakeGate ≠ .atGate w shuttingDown false := by
  cases worker <;> simp [wakeGate]

@[simp, grind .] theorem LockWorker.wakeQueue_ne : worker.wakeQueue ≠ .atQueue false := by
  cases worker <;> simp [wakeQueue]

@[simp, grind =] theorem LockWorker.wakeGate_eq_atQueue {awake : Bool} :
    worker.wakeGate = .atQueue awake ↔ worker = .atQueue awake := by
  cases worker <;> simp [wakeGate]

@[simp, grind =] theorem LockWorker.wakeQueue_eq_atGate {w : ℕ} {shuttingDown awake : Bool} :
    worker.wakeQueue = .atGate w shuttingDown awake ↔ worker = .atGate w shuttingDown awake := by
  cases worker <;> simp [wakeQueue]

@[simp, grind =] theorem LockDestructor.wake_toldQueue :
    destructor.wake.toldQueue = destructor.toldQueue := by
  cases destructor <;> rfl

@[simp, grind =] theorem LockDestructor.wake_toldGate :
    destructor.wake.toldGate = destructor.toldGate := by
  cases destructor <;> rfl

@[simp, grind .] theorem LockDestructor.wake_ne : destructor.wake ≠ .draining false := by
  cases destructor <;> simp [wake]

@[simp, grind =] theorem LockDestructor.wake_stopped :
    destructor.wake.stopped = destructor.stopped := by
  cases destructor <;> rfl

theorem LockWorker.pending_of_exclusive {worker : LockWorker} (h : worker.exclusive = true) :
    worker.pending = true := by
  cases worker with
  | acting write downgraded =>
    cases downgraded
    · rfl
    · cases h
  | _ => cases h

theorem LockWorker.pending_of_willAct {worker : LockWorker} (h : worker.willAct = true) :
    worker.pending = true := by
  cases worker with
  | atGate => rfl
  | _ => cases h

end Wake

namespace DefaultWorkspaceLock

variable {s s' : DefaultWorkspaceLock}

/-! ### What a step does -/

/-- The cases of a step. -/
inductive Transition (s : DefaultWorkspaceLock) : LockEvent → DefaultWorkspaceLock → Prop
  | call {request : LockRequest} (alive : s.destructor ≠ .destroyed) :
    Transition s (.call request) { s with calls := s.calls ++ [⟨request, .called, []⟩] }
  | empty {i : ℕ} {call : LockCall} (hcall : s.calls[i]? = some call)
      (called : call.phase = .called)
      (request : call.request = .write false ∨ call.request = .read false) :
    Transition s (.goOn i) (s.put i (({ call with phase := .returned } : LockCall).complete .value))
  | cancelWrite {i : ℕ} {call : LockCall} (hcall : s.calls[i]? = some call)
      (called : call.phase = .called) (request : call.request = .cancelWrite)
      (free : s.queueOwner = none) :
    Transition s (.goOn i)
      ((s.requestStop s.previousWrite).put i { call with phase := .returned })
  | refuse {i : ℕ} {call : LockCall} (hcall : s.calls[i]? = some call)
      (called : call.phase = .called) (request : call.request = .write true)
      (free : s.queueOwner = none) (stopping : s.stopping = true) :
    Transition s (.goOn i) (s.put i (({ call with phase := .returned } : LockCall).complete .value))
  | supersede {i : ℕ} {call : LockCall} (hcall : s.calls[i]? = some call)
      (called : call.phase = .called) (request : call.request = .write true)
      (free : s.queueOwner = none) (running : s.stopping = false) :
    Transition s (.goOn i)
      { (s.requestStop s.previousWrite).put i { call with phase := .counting } with
        previousWrite := some i
        queueOwner := some i }
  | count {i : ℕ} {call : LockCall} (hcall : s.calls[i]? = some call)
      (counting : call.phase = .counting) (request : call.request = .write true)
      (free : s.gateOwner = none) :
    Transition s (.goOn i)
      { s.put i { call with phase := .queueing } with writePending := s.writePending + 1 }
  | push {i : ℕ} {call : LockCall} (hcall : s.calls[i]? = some call)
      (queueing : call.phase = .queueing) (request : call.request = .write true) :
    Transition s (.goOn i)
      { s.put i { call with phase := .notifyingQueue } with
        writeQueue := s.writeQueue ++ [i]
        queued := s.queued ++ [i]
        queueOwner := none }
  | notifyQueue {i : ℕ} {call : LockCall} (hcall : s.calls[i]? = some call)
      (notifying : call.phase = .notifyingQueue) (request : call.request = .write true) :
    Transition s (.goOn i) (s.put i { call with phase := .notifyingGate }).notifyQueue
  | notifyGate {i : ℕ} {call : LockCall} (hcall : s.calls[i]? = some call)
      (notifying : call.phase = .notifyingGate) (request : call.request = .write true) :
    Transition s (.goOn i) (s.put i { call with phase := .returned }).notifyGate
  | pass {i : ℕ} {call : LockCall} {entering : ℤ} (hcall : s.calls[i]? = some call)
      (waits : call.phase = .called ∧ entering = 1 ∨ call.phase = .waiting true ∧ entering = 0)
      (request : call.request = .read true) (free : s.gateOwner = none) (may : s.mayRead = true) :
    Transition s (.goOn i)
      { s.put i { call with phase := .admitted } with
        activeReads := s.activeReads + entering
        gateOwner := some i }
  | sleep {i : ℕ} {call : LockCall} {entering : ℤ} (hcall : s.calls[i]? = some call)
      (waits : call.phase = .called ∧ entering = 1 ∨ call.phase = .waiting true ∧ entering = 0)
      (request : call.request = .read true) (free : s.gateOwner = none) (may : s.mayRead = false) :
    Transition s (.goOn i)
      { s.put i { call with phase := .waiting false } with
        activeReads := s.activeReads + entering }
  | turnBack {i : ℕ} {call : LockCall} (hcall : s.calls[i]? = some call)
      (admitted : call.phase = .admitted) (request : call.request = .read true)
      (stopping : s.stopping = true) :
    Transition s (.goOn i)
      ({ s.put i (({ call with phase := .returned } : LockCall).complete .value) with
        activeReads := s.activeReads - 1
        gateOwner := none }.notifyGateIf (s.activeReads - 1 = 0))
  | enter {i : ℕ} {call : LockCall} (hcall : s.calls[i]? = some call)
      (admitted : call.phase = .admitted) (request : call.request = .read true)
      (running : s.stopping = false) :
    Transition s (.goOn i)
      { s.put i { call with phase := .acting } with
        readers := s.readers + 1
        gateOwner := none }
  | leave {i : ℕ} {call : LockCall} (hcall : s.calls[i]? = some call)
      (leaving : call.phase = .leaving) (request : call.request = .read true)
      (free : s.gateOwner = none) :
    Transition s (.goOn i)
      ({ s.put i { call with phase := .returned } with
        readers := s.readers - 1
        activeReads := s.activeReads - 1 }.notifyGateIf
          (s.activeReads - 1 = 0 ∨ s.readers - 1 = 0))
  | endRead {i : ℕ} {call : LockCall} {outcome : ActionEnd} (hcall : s.calls[i]? = some call)
      (acting : call.phase = .acting) :
    Transition s (.endRead i outcome)
      (s.put i (({ call with phase := .leaving } : LockCall).complete outcome.ofRead))
  | exit (worker : s.worker = .atQueue true) (free : s.queueOwner = none)
      (empty : s.writeQueue = []) (may : s.mayTake = true) :
    Transition s .work { s with worker := .exited }
  | take {w : ℕ} {queue : List ℕ} (worker : s.worker = .atQueue true)
      (free : s.queueOwner = none) (hqueue : s.writeQueue = w :: queue) :
    Transition s .work { s with worker := .took w, writeQueue := queue, taken := s.taken ++ [w] }
  | sleepAtQueue (worker : s.worker = .atQueue true) (free : s.queueOwner = none)
      (may : s.mayTake = false) :
    Transition s .work { s with worker := .atQueue false }
  | skip {w : ℕ} (worker : s.worker = .took w) (stopping : (s.stopping || s.stopRequested) = true) :
    Transition s .work { s.requestStop (some w) with worker := .atGate w true true }
  | decide {w : ℕ} (worker : s.worker = .took w)
      (running : (s.stopping || s.stopRequested) = false) :
    Transition s .work { s with worker := .atGate w false true }
  | holdSkipped {w : ℕ} (worker : s.worker = .atGate w true true) (free : s.gateOwner = none)
      (may : s.mayHold = true) :
    Transition s .work { s with writeHeld := true, worker := .ended w .value false }
  | hold {w : ℕ} (worker : s.worker = .atGate w false true) (free : s.gateOwner = none)
      (may : s.mayHold = true) :
    Transition s .work
      { s with writeHeld := true, worker := .acting w false, started := s.started ++ [w] }
  | sleepAtGate {w : ℕ} {shuttingDown : Bool} (worker : s.worker = .atGate w shuttingDown true)
      (free : s.gateOwner = none) (may : s.mayHold = false) :
    Transition s .work { s with worker := .atGate w shuttingDown false }
  | downgradeEnded {w : ℕ} {outcome : Completion} (worker : s.worker = .ended w outcome false)
      (free : s.gateOwner = none) :
    Transition s .work (s.downgrade (.ended w outcome true))
  | complete {w : ℕ} {outcome : Completion} (worker : s.worker = .ended w outcome true) :
    Transition s .work { s.complete w outcome with worker := .releasing }
  | release (worker : s.worker = .releasing) (free : s.gateOwner = none) :
    Transition s .work
      ({ s with worker := .atQueue true, readers := s.readers - 1 }.notifyGateIf
        (s.readers - 1 = 0))
  | downgrade {w : ℕ} (worker : s.worker = .acting w false) (free : s.gateOwner = none) :
    Transition s .downgrade (s.downgrade (.acting w true))
  | downgradeAgain {w : ℕ} (worker : s.worker = .acting w true) : Transition s .downgrade s
  | endWrite {w : ℕ} {downgraded : Bool} {outcome : ActionEnd}
      (worker : s.worker = .acting w downgraded) :
    Transition s (.endWrite outcome)
      { s with worker := .ended w outcome.ofWrite downgraded, ended := s.ended ++ [w] }
  | destroy (destructor : s.destructor = .notCalled) :
    Transition s .destroy { s with destructor := .stopping }
  | stop (destructor : s.destructor = .stopping) (free : s.queueOwner = none) :
    Transition s .destruct
      { s with
        stopping := true
        cancelled := fun w => s.cancelled w || s.writeQueue.contains w
        destructor := .cancelling }
  | cancel (destructor : s.destructor = .cancelling) (free : s.queueOwner = none) :
    Transition s .destruct { s.requestStop s.previousWrite with destructor := .notifyingQueue }
  | rouseQueue (destructor : s.destructor = .notifyingQueue) :
    Transition s .destruct { s with destructor := .notifyingGate }.notifyQueue
  | rouseGate (destructor : s.destructor = .notifyingGate) (free : s.gateOwner = none) :
    Transition s .destruct
      { s.notifyGate with destructor := if s.activeReads = 0 then .drained else .draining false }
  | drain (destructor : s.destructor = .draining true) (free : s.gateOwner = none) :
    Transition s .destruct
      { s with destructor := if s.activeReads = 0 then .drained else .draining false }
  | join (destructor : s.destructor = .drained) :
    Transition s .destruct { s with stopRequested := true, destructor := .joining }
  | finish (destructor : s.destructor = .joining) (worker : s.worker = .exited) :
    Transition s .destruct { s with destructor := .destroyed }
  | wake {thread : LockThread} : Transition s (.wake thread) (s.wake thread)

theorem transition_of_writeStep {i : ℕ} {call : LockCall} (hcall : s.calls[i]? = some call)
    (request : call.request = .write true) (h : s.writeStep i call = some s') :
    Transition s (.goOn i) s' := by
  revert h
  fun_cases writeStep s i call with
  | case1 called free stopping => rintro ⟨⟩; exact .refuse hcall called request free stopping
  | case2 called free running =>
    rintro ⟨⟩
    exact .supersede hcall called request free (Bool.eq_false_iff.mpr running)
  | case4 counting free => rintro ⟨⟩; exact .count hcall counting request free
  | case6 queueing => rintro ⟨⟩; exact .push hcall queueing request
  | case7 notifying => rintro ⟨⟩; exact .notifyQueue hcall notifying request
  | case8 notifying => rintro ⟨⟩; exact .notifyGate hcall notifying request
  | _ => exact nofun

theorem transition_of_waitAsRead {i : ℕ} {call : LockCall} {entering : ℤ}
    (hcall : s.calls[i]? = some call) (request : call.request = .read true)
    (waits : call.phase = .called ∧ entering = 1 ∨ call.phase = .waiting true ∧ entering = 0)
    (free : s.gateOwner = none) :
    Transition s (.goOn i)
      (({ s with activeReads := s.activeReads + entering } : DefaultWorkspaceLock).waitAsRead
        i call) := by
  unfold waitAsRead
  split
  case isTrue may => exact .pass hcall waits request free may
  case isFalse may => exact .sleep hcall waits request free (Bool.eq_false_iff.mpr may)

theorem transition_of_readStep {i : ℕ} {call : LockCall} (hcall : s.calls[i]? = some call)
    (request : call.request = .read true) (h : s.readStep i call = some s') :
    Transition s (.goOn i) s' := by
  revert h
  fun_cases readStep s i call with
  | case1 called free =>
    rintro ⟨⟩
    exact transition_of_waitAsRead hcall request (.inl ⟨called, rfl⟩) free
  | case3 waiting free =>
    rintro ⟨⟩
    have h := transition_of_waitAsRead hcall request (.inr ⟨waiting, rfl⟩) free
    rwa [Int.add_zero] at h
  | case5 admitted stopping => rintro ⟨⟩; exact .turnBack hcall admitted request stopping
  | case6 admitted running =>
    rintro ⟨⟩
    exact .enter hcall admitted request (Bool.eq_false_iff.mpr running)
  | case7 leaving free => rintro ⟨⟩; exact .leave hcall leaving request free
  | _ => exact nofun

theorem transition_of_callStep {i : ℕ} {call : LockCall} (hcall : s.calls[i]? = some call)
    (h : s.callStep i call = some s') : Transition s (.goOn i) s' := by
  revert h
  fun_cases callStep s i call with
  | case1 called request => rintro ⟨⟩; exact .empty hcall called (.inl request)
  | case2 called request => rintro ⟨⟩; exact .empty hcall called (.inr request)
  | case3 request => exact transition_of_writeStep hcall request
  | case4 request => exact transition_of_readStep hcall request
  | case5 called request free => rintro ⟨⟩; exact .cancelWrite hcall called request free
  | _ => exact nofun

theorem transition_of_workerStep (h : s.workerStep = some s') : Transition s .work s' := by
  revert h
  fun_cases workerStep s with
  | case1 worker free may empty => rintro ⟨⟩; exact .exit worker free empty may
  | case2 worker free _ w queue hqueue => rintro ⟨⟩; exact .take worker free hqueue
  | case3 worker free may =>
    rintro ⟨⟩
    exact .sleepAtQueue worker free (Bool.eq_false_iff.mpr may)
  | case5 w worker stopping => rintro ⟨⟩; exact .skip worker stopping
  | case6 w worker running => rintro ⟨⟩; exact .decide worker (Bool.eq_false_iff.mpr running)
  | case7 w free may worker => rintro ⟨⟩; exact .holdSkipped worker free may
  | case8 w shuttingDown worker free may running =>
    rintro ⟨⟩
    rw [Bool.not_eq_true] at running
    subst running
    exact .hold worker free may
  | case9 w shuttingDown worker free may =>
    rintro ⟨⟩
    exact .sleepAtGate worker free (Bool.eq_false_iff.mpr may)
  | case11 w outcome worker free => rintro ⟨⟩; exact .downgradeEnded worker free
  | case13 w outcome worker => rintro ⟨⟩; exact .complete worker
  | case14 worker free => rintro ⟨⟩; exact .release worker free
  | _ => exact nofun

theorem transition_of_destructorStep (h : s.destructorStep = some s') :
    Transition s .destruct s' := by
  revert h
  fun_cases destructorStep s with
  | case1 destructor free => rintro ⟨⟩; exact .stop destructor free
  | case3 destructor free => rintro ⟨⟩; exact .cancel destructor free
  | case5 destructor => rintro ⟨⟩; exact .rouseQueue destructor
  | case6 destructor free => rintro ⟨⟩; exact .rouseGate destructor free
  | case8 destructor free => rintro ⟨⟩; exact .drain destructor free
  | case10 destructor => rintro ⟨⟩; exact .join destructor
  | case11 destructor worker => rintro ⟨⟩; exact .finish destructor worker
  | _ => exact nofun

/-- **A step is one of the transitions.** -/
theorem transition_of_step {e : LockEvent} (h : s.step e = some s') : Transition s e s' := by
  cases e with
  | call request =>
    simp only [step, Option.ite_none_left_eq_some] at h
    obtain ⟨alive, h⟩ := h
    cases h
    exact .call alive
  | goOn i =>
    obtain ⟨call, hcall, h⟩ := Option.bind_eq_some_iff.mp h
    exact transition_of_callStep hcall h
  | endRead i outcome =>
    simp only [step] at h
    split at h
    case h_1 call hcall =>
      obtain ⟨acting, h⟩ := Option.ite_none_right_eq_some.mp h
      cases h
      exact .endRead hcall acting
    case h_2 => cases h
  | work => exact transition_of_workerStep h
  | downgrade =>
    simp only [step] at h
    split at h
    case h_1 w worker =>
      obtain ⟨free, h⟩ := Option.ite_none_right_eq_some.mp h
      cases h
      exact .downgrade worker free
    case h_2 w worker => cases h; exact .downgradeAgain worker
    case h_3 => cases h
  | endWrite outcome =>
    simp only [step] at h
    split at h
    case h_1 w downgraded worker => cases h; exact .endWrite worker
    case h_2 => cases h
  | destroy =>
    simp only [step] at h
    split at h
    case h_1 destructor => cases h; exact .destroy destructor
    case h_2 => cases h
  | destruct => exact transition_of_destructorStep h
  | wake thread => cases h; exact .wake

/-! ### The mutexes -/

/-- Who holds the mutexes, and what is known as long as they are held. -/
structure Locked (s : DefaultWorkspaceLock) : Prop where
  gate : ∀ i call, s.calls[i]? = some call → (call.phase = .admitted ↔ s.gateOwner = some i)
  queue : ∀ i call, s.calls[i]? = some call →
    (call.phase = .counting ∨ call.phase = .queueing ↔ s.queueOwner = some i)
  gateCall : ∀ i, s.gateOwner = some i → i < s.calls.length
  queueCall : ∀ i, s.queueOwner = some i → i < s.calls.length
  admitted : s.gateOwner ≠ none → s.mayRead = true
  writing : s.queueOwner ≠ none → s.stopping = false
  stopping : s.stopping = s.destructor.stopped
  stopRequested : s.stopRequested = true → s.stopping = true
  exited : s.worker = .exited → s.stopping = true ∧ s.writeQueue = []

theorem Locked.notifyGate (h : s.Locked) : s.notifyGate.Locked := by
  obtain ⟨gate, queue, gateCall, queueCall, admitted, writing, stopping, stopRequested, exited⟩ := h
  constructor <;> grind [DefaultWorkspaceLock.notifyGate, mayRead]

theorem Locked.notifyGateIf {condition : Prop} [Decidable condition] (h : s.Locked) :
    (s.notifyGateIf condition).Locked := by
  unfold DefaultWorkspaceLock.notifyGateIf
  split
  · exact h.notifyGate
  · exact h

/-- The destructor moves on. -/
theorem Locked.withDestructor {destructor : LockDestructor} (h : s.Locked)
    (hd : destructor.stopped = s.destructor.stopped) :
    ({ s with destructor := destructor } : DefaultWorkspaceLock).Locked :=
  { h with stopping := h.stopping.trans hd.symm }

/-- Who holds a mutex, before and after call `i` goes on: nobody else takes it or gives it
back. -/
def Passes (owner owner' : Option ℕ) (i : ℕ) (held holds : Prop) : Prop :=
  owner' = owner ∧ (holds ↔ held) ∨ owner' = some i ∧ holds ∧ owner = none ∨
    owner' = none ∧ held ∧ ¬ holds

/-- The holder of a mutex after call `i` has gone on. -/
theorem Passes.holder {owner owner' : Option ℕ} {i : ℕ} {calls : List LockCall}
    {call call' : LockCall} {P : LockCall → Prop}
    (h : Passes owner owner' i (P call) (P call')) (hcall : calls[i]? = some call)
    (hold : ∀ j c, calls[j]? = some c → (P c ↔ owner = some j)) (j : ℕ) (c : LockCall)
    (hj : (calls.set i call')[j]? = some c) : P c ↔ owner' = some j := by
  have hi := hold i call hcall
  rw [List.getElem?_set] at hj
  split at hj
  next heq =>
    subst heq
    have hc : call' = c := by
      split at hj
      · exact Option.some.inj hj
      · cases hj
    subst hc
    rcases h with ⟨rfl, hsame⟩ | ⟨rfl, hnow, -⟩ | ⟨rfl, -, hnot⟩
    · rw [hsame, hi]
    · simp [hnow]
    · simp [hnot]
  next hne =>
    have hc := hold j c hj
    rcases h with ⟨rfl, -⟩ | ⟨rfl, -, rfl⟩ | ⟨rfl, hwas, -⟩
    · exact hc
    · simpa [hne] using hc
    · rw [hi.mp hwas] at hc
      simpa [hne] using hc

theorem Passes.lt {owner owner' : Option ℕ} {i j : ℕ} {calls : List LockCall} {call' : LockCall}
    {held holds : Prop} (h : Passes owner owner' i held holds) (hi : i < calls.length)
    (hlt : ∀ j, owner = some j → j < calls.length) (hj : owner' = some j) :
    j < (calls.set i call').length := by
  rw [List.length_set]
  rcases h with ⟨rfl, -⟩ | ⟨rfl, -⟩ | ⟨rfl, -⟩
  · exact hlt j hj
  · cases hj
    exact hi
  · cases hj

/-- **A call goes on, and the mutexes with it.** -/
theorem Locked.put {i : ℕ} {call call' : LockCall} (h : s.Locked)
    (hcall : s.calls[i]? = some call) (hcalls : s'.calls = s.calls.set i call')
    (hgate : Passes s.gateOwner s'.gateOwner i (call.phase = .admitted) (call'.phase = .admitted))
    (hqueue : Passes s.queueOwner s'.queueOwner i (call.phase = .counting ∨ call.phase = .queueing)
      (call'.phase = .counting ∨ call'.phase = .queueing))
    (admitted : s'.gateOwner ≠ none → s'.mayRead = true)
    (writing : s'.queueOwner ≠ none → s'.stopping = false)
    (stopping : s'.stopping = s'.destructor.stopped)
    (stopRequested : s'.stopRequested = true → s'.stopping = true)
    (exited : s'.worker = .exited → s'.stopping = true ∧ s'.writeQueue = []) : s'.Locked where
  gate j c hj := Passes.holder (P := fun c => c.phase = .admitted) hgate hcall h.gate j c
    (hcalls ▸ hj)
  queue j c hj := Passes.holder (P := fun c => c.phase = .counting ∨ c.phase = .queueing) hqueue
    hcall h.queue j c (hcalls ▸ hj)
  gateCall _ hj := hcalls ▸ hgate.lt (List.getElem?_eq_some_iff.mp hcall).1 h.gateCall hj
  queueCall _ hj := hcalls ▸ hqueue.lt (List.getElem?_eq_some_iff.mp hcall).1 h.queueCall hj
  admitted := admitted
  writing := writing
  stopping := stopping
  stopRequested := stopRequested
  exited := exited

theorem Passes.keep {owner : Option ℕ} {i : ℕ} {held holds : Prop} (hheld : ¬ held)
    (hholds : ¬ holds) : Passes owner owner i held holds :=
  .inl ⟨rfl, iff_of_false hholds hheld⟩

/-- The phases in which a call holds a mutex. -/
def holdsMutex : CallPhase → Bool
  | .admitted | .counting | .queueing => true
  | _ => false

theorem Passes.free {owner : Option ℕ} {i : ℕ} {phase phase' : CallPhase} {p : CallPhase → Prop}
    (hp : ∀ phase, p phase → holdsMutex phase = true) (hphase : holdsMutex phase = false)
    (hphase' : holdsMutex phase' = false) : Passes owner owner i (p phase) (p phase') :=
  .keep (fun h => by rw [hp _ h] at hphase; cases hphase)
    fun h => by rw [hp _ h] at hphase'; cases hphase'

/-- A call goes on, and holds no mutex before or after. -/
theorem Locked.putFree {i : ℕ} {call call' : LockCall} (h : s.Locked)
    (hcall : s.calls[i]? = some call) (hphase : holdsMutex call.phase = false)
    (hphase' : holdsMutex call'.phase = false) : (s.put i call').Locked :=
  h.put hcall rfl (.free (p := (· = .admitted)) (by rintro _ rfl; rfl) hphase hphase')
    (.free (p := fun phase => phase = .counting ∨ phase = .queueing)
      (by rintro _ (rfl | rfl) <;> rfl) hphase hphase')
    h.admitted h.writing h.stopping h.stopRequested h.exited

/-- A call goes on. -/
theorem Locked.callStep {i : ℕ} (h : s.Locked) (ht : Transition s (.goOn i) s') : s'.Locked := by
  cases ht with
  | empty hcall called | refuse hcall called =>
    exact h.putFree hcall (congrArg holdsMutex called) rfl
  | cancelWrite hcall called =>
    exact { h.putFree hcall (congrArg holdsMutex called) rfl with }
  | supersede hcall called request free running =>
    exact h.put hcall rfl (.keep (by simp [called]) nofun)
      (.inr (.inl ⟨rfl, .inl rfl, free⟩)) h.admitted (fun _ => running) h.stopping
      h.stopRequested h.exited
  | count hcall counting request free =>
    exact h.put hcall rfl (.keep (by simp [counting]) nofun)
      (.inl ⟨rfl, iff_of_true (.inr rfl) (.inl counting)⟩) (fun hne => absurd free hne) h.writing
      h.stopping h.stopRequested h.exited
  | push hcall queueing request =>
    have hrunning := h.writing (by rw [(h.queue _ _ hcall).mp (.inr queueing)]; exact nofun)
    exact h.put hcall rfl (.keep (by simp [queueing]) nofun)
      (.inr (.inr ⟨rfl, .inr queueing, nofun⟩)) h.admitted (absurd rfl) h.stopping h.stopRequested
      fun hw => by rw [(h.exited hw).1] at hrunning; cases hrunning
  | @notifyQueue _ call hcall notifying =>
    have hput := h.putFree hcall (congrArg holdsMutex notifying)
      (show holdsMutex ({ call with phase := .notifyingGate } : LockCall).phase = false from rfl)
    exact { hput with exited := fun hw => h.exited ((LockWorker.wakeQueue_eq_exited _).mp hw) }
  | notifyGate hcall notifying =>
    exact (h.putFree hcall (congrArg holdsMutex notifying) rfl).notifyGate
  | @pass _ call _ hcall waits request free may =>
    have hnot : ¬ (call.phase = .counting ∨ call.phase = .queueing) := by
      rcases waits with ⟨hphase, -⟩ | ⟨hphase, -⟩ <;> rw [hphase]
        <;> exact not_or.mpr ⟨nofun, nofun⟩
    exact h.put hcall rfl (.inr (.inl ⟨rfl, rfl, free⟩)) (.keep hnot (not_or.mpr ⟨nofun, nofun⟩))
      (fun _ => may) h.writing h.stopping h.stopRequested h.exited
  | @sleep _ call _ hcall waits =>
    have hphase : holdsMutex call.phase = false := by
      rcases waits with ⟨hphase, -⟩ | ⟨hphase, -⟩ <;> rw [hphase] <;> rfl
    exact { h.putFree hcall hphase rfl with }
  | turnBack hcall admitted =>
    apply Locked.notifyGateIf
    exact h.put hcall rfl (.inr (.inr ⟨rfl, admitted, nofun⟩))
      (.keep (by simp [admitted]) (not_or.mpr ⟨nofun, nofun⟩)) (absurd rfl) h.writing h.stopping
      h.stopRequested h.exited
  | enter hcall admitted =>
    exact h.put hcall rfl (.inr (.inr ⟨rfl, admitted, nofun⟩))
      (.keep (by simp [admitted]) (not_or.mpr ⟨nofun, nofun⟩)) (absurd rfl) h.writing h.stopping
      h.stopRequested h.exited
  | leave hcall leaving =>
    apply Locked.notifyGateIf
    exact { h.putFree hcall (congrArg holdsMutex leaving) rfl with }

/-- The promise of a call is given: the mutexes stay where they are. -/
theorem Locked.complete {w : ℕ} {outcome : Completion} (h : s.Locked) :
    (s.complete w outcome).Locked := by
  have hphase : ∀ (j : ℕ) (c : LockCall), (s.complete w outcome).calls[j]? = some c →
      ∃ c₀, s.calls[j]? = some c₀ ∧ c.phase = c₀.phase := by
    intro j c hj
    rw [DefaultWorkspaceLock.complete, List.getElem?_modify] at hj
    obtain ⟨c₀, hc₀, rfl⟩ := Option.map_eq_some_iff.mp hj
    refine ⟨c₀, hc₀, ?_⟩
    split <;> rfl
  have hlength : (s.complete w outcome).calls.length = s.calls.length := List.length_modify ..
  refine { h with
    gate := fun j c hj => ?_
    queue := fun j c hj => ?_
    gateCall := fun j hj => Nat.lt_of_lt_of_eq (h.gateCall j hj) hlength.symm
    queueCall := fun j hj => Nat.lt_of_lt_of_eq (h.queueCall j hj) hlength.symm }
  · obtain ⟨c₀, hc₀, hp⟩ := hphase j c hj
    rw [hp]
    exact h.gate j c₀ hc₀
  · obtain ⟨c₀, hc₀, hp⟩ := hphase j c hj
    rw [hp]
    exact h.queue j c₀ hc₀

/-- The worker goes on. -/
theorem Locked.workerStep (h : s.Locked) (ht : Transition s .work s') : s'.Locked := by
  cases ht with
  | exit worker free empty may =>
    have hstopping : s.stopping = true := by
      simp only [mayTake, empty, Bool.or_eq_true, List.isEmpty_nil, Bool.not_true,
        Bool.false_eq_true, or_false] at may
      exact may.elim id h.stopRequested
    exact { h with exited := fun _ => ⟨hstopping, empty⟩ }
  | take | sleepAtQueue | skip | decide | sleepAtGate => exact { h with exited := nofun }
  | holdSkipped worker free | hold worker free =>
    exact { h with admitted := absurd free, exited := nofun }
  | downgradeEnded worker free =>
    exact Locked.notifyGate { h with admitted := absurd free, exited := nofun }
  | complete => exact { h.complete with exited := nofun }
  | release => exact Locked.notifyGateIf { h with exited := nofun }

/-- The destructor goes on. -/
theorem Locked.destructorStep (h : s.Locked) (ht : Transition s .destruct s') : s'.Locked := by
  have hstopping := h.stopping
  cases ht with
  | stop destructor free =>
    exact { h with
      admitted := fun _ => rfl
      writing := absurd free
      stopping := rfl
      stopRequested := fun _ => rfl
      exited := fun hw => ⟨rfl, (h.exited hw).2⟩ }
  | cancel destructor =>
    rw [destructor] at hstopping
    exact { h with stopping := hstopping }
  | rouseQueue destructor =>
    rw [destructor] at hstopping
    exact { h with
      stopping := hstopping
      exited := fun hw => h.exited ((LockWorker.wakeQueue_eq_exited _).mp hw) }
  | rouseGate destructor =>
    apply h.notifyGate.withDestructor
    rw [← h.notifyGate.stopping, show s.notifyGate.stopping = s.stopping from rfl, hstopping,
      destructor]
    split <;> rfl
  | drain destructor =>
    rw [destructor] at hstopping
    apply h.withDestructor
    rw [destructor]
    split <;> rfl
  | join destructor =>
    rw [destructor] at hstopping
    exact { h with stopping := hstopping, stopRequested := fun _ => hstopping }
  | finish destructor =>
    rw [destructor] at hstopping
    exact { h with stopping := hstopping }

theorem Locked.step {e : LockEvent} (h : s.Locked) (ht : Transition s e s') : s'.Locked := by
  cases e with
  | goOn i => exact h.callStep ht
  | work => exact h.workerStep ht
  | destruct => exact h.destructorStep ht
  | downgrade =>
    cases ht with
    | downgrade worker free =>
      exact Locked.notifyGate { h with admitted := absurd free, exited := nofun }
    | downgradeAgain => exact h
  | wake thread =>
    have ⟨gate, queue, gateCall, queueCall, admitted, writing, stopping, stopRequested, exited⟩ := h
    cases ht
    cases thread <;> constructor <;> grind [DefaultWorkspaceLock.wake, mayRead]
  | call =>
    have ⟨gate, queue, gateCall, queueCall, admitted, writing, stopping, stopRequested, exited⟩ := h
    cases ht
    constructor <;> grind [mayRead]
  | endRead =>
    cases ht with
    | endRead hcall acting => exact h.putFree hcall (congrArg holdsMutex acting) rfl
  | endWrite =>
    cases ht
    exact { h with exited := nofun }
  | destroy =>
    cases ht with
    | destroy destructor =>
      have hstopping := h.stopping
      rw [destructor] at hstopping
      exact { h with stopping := hstopping }

end DefaultWorkspaceLock

end Pegium
