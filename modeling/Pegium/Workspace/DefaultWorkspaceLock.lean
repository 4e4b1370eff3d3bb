/-
Pegium/Workspace/DefaultWorkspaceLock.lean

The workspace lock, step by step.

A call of `write`, `read` or `cancelWrite` runs on the thread of its caller, a
write's action on the worker.  What is read and written under one mutex, with
nothing else visible in between, is one step; a mutex that is held over several
steps has an owner.  An atomic flag that is read without the mutex it is written
under is read in a step of its own.

A thread that waits for a condition variable sleeps until it is notified, or wakes
up for no reason.  The counters are integers: one that went below zero would show.

`queued`, `taken`, `started` and `ended` are no part of the class.  They record
which writes entered the queue, left it, and ran.
-/
import Mathlib.Data.Int.Notation
import Mathlib.Data.Nat.Notation
import Pegium.General.Machine

namespace Pegium

/-! ### Threads -/

/-- How an action ends: it returns, it throws `OperationCancelled`, or it throws something else. -/
inductive ActionEnd where
  | returned
  | cancelled
  | threw
  deriving DecidableEq

/-- What a promise is given. -/
inductive Completion where
  | value
  | exception
  deriving DecidableEq

/-- The worker takes a cancelled write for one that returned. -/
def ActionEnd.ofWrite : ActionEnd → Completion
  | .returned | .cancelled => .value
  | .threw => .exception

/-- A read rethrows through its future whatever its action throws. -/
def ActionEnd.ofRead : ActionEnd → Completion
  | .returned => .value
  | .cancelled | .threw => .exception

/-- What is called; the action of a `write` or a `read` may be empty. -/
inductive LockRequest where
  | write (action : Bool)
  | read (action : Bool)
  | cancelWrite
  deriving DecidableEq

/-- How far a call is. -/
inductive CallPhase where
  | called
  | counting
  | queueing
  | notifyingQueue
  | notifyingGate
  | waiting (awake : Bool)
  | admitted
  | acting
  | leaving
  | returned
  deriving DecidableEq

namespace CallPhase

/-- A read that runs, or is about to leave the gate. -/
def reads : CallPhase → Bool
  | .acting | .leaving => true
  | _ => false

/-- A read inside the gate. -/
def inside : CallPhase → Bool
  | .waiting _ | .admitted | .acting | .leaving => true
  | _ => false

/-- A write that is counted and not queued yet. -/
def counted : CallPhase → Bool
  | .queueing => true
  | _ => false

end CallPhase

/-- A call, and what the promise of its future was given so far. -/
structure LockCall where
  request : LockRequest
  phase : CallPhase
  future : List Completion
  deriving DecidableEq

namespace LockCall

/-- `notify_all` on the gate. -/
def wake (call : LockCall) : LockCall :=
  match call.phase with
  | .waiting false => { call with phase := .waiting true }
  | _ => call

/-- The promise is given a value or an exception. -/
def complete (completion : Completion) (call : LockCall) : LockCall :=
  { call with future := call.future ++ [completion] }

end LockCall

/-- Where the worker is in `run`. -/
inductive LockWorker where
  | atQueue (awake : Bool)
  | took (write : ℕ)
  | atGate (write : ℕ) (shuttingDown awake : Bool)
  | acting (write : ℕ) (downgraded : Bool)
  | ended (write : ℕ) (outcome : Completion) (downgraded : Bool)
  | releasing
  | exited
  deriving DecidableEq

namespace LockWorker

/-- A worker that waits at the gate is notified. -/
def wakeGate : LockWorker → LockWorker
  | .atGate write shuttingDown _ => .atGate write shuttingDown true
  | worker => worker

/-- A worker that waits for the queue is notified. -/
def wakeQueue : LockWorker → LockWorker
  | .atQueue _ => .atQueue true
  | worker => worker

/-- The write at hand, until its promise is given. -/
def write? : LockWorker → Option ℕ
  | .took write | .atGate write _ _ | .acting write _ | .ended write _ _ => some write
  | .atQueue _ | .releasing | .exited => none

/-- The write at hand, until its action starts or is skipped. -/
def upcoming : LockWorker → Option ℕ
  | .took write | .atGate write _ _ => some write
  | _ => none

/-- The write whose action runs. -/
def acting? : LockWorker → Option ℕ
  | .acting write _ => some write
  | _ => none

/-- The write at hand is still counted as pending. -/
def pending : LockWorker → Bool
  | .took _ | .atGate _ _ _ | .acting _ false | .ended _ _ false => true
  | _ => false

/-- The rest of the write at hand counts as a reader. -/
def reading : LockWorker → Bool
  | .acting _ true | .ended _ _ true | .releasing => true
  | _ => false

/-- The write at hand holds the lock. -/
def holding : LockWorker → Bool
  | .acting _ false | .ended _ _ false => true
  | _ => false

/-- The worker decided to run a write, and has not passed the gate. -/
def willAct : LockWorker → Bool
  | .atGate _ shuttingDown _ => !shuttingDown
  | _ => false

/-- The action of a write runs and has not been downgraded. -/
def exclusive : LockWorker → Bool
  | .acting _ false => true
  | _ => false

end LockWorker

/-- Where the destruction is, from `~DefaultWorkspaceLock` to the end of the worker. -/
inductive LockDestructor where
  | notCalled
  | stopping
  | cancelling
  | notifyingQueue
  | notifyingGate
  | draining (awake : Bool)
  | drained
  | joining
  | destroyed
  deriving DecidableEq

namespace LockDestructor

/-- A destructor that waits is notified. -/
def wake : LockDestructor → LockDestructor
  | .draining _ => .draining true
  | destructor => destructor

/-- `_stopping` is set. -/
def stopped : LockDestructor → Bool
  | .notCalled | .stopping => false
  | _ => true

/-- The worker is told that `_stopping` is set. -/
def toldQueue : LockDestructor → Bool
  | .notCalled | .stopping | .cancelling | .notifyingQueue => false
  | _ => true

/-- Those who wait at the gate are told that `_stopping` is set. -/
def toldGate : LockDestructor → Bool
  | .notCalled | .stopping | .cancelling | .notifyingQueue | .notifyingGate => false
  | _ => true

end LockDestructor

/-- Who may wake up. -/
inductive LockThread where
  | call (index : ℕ)
  | worker
  | destructor
  deriving DecidableEq

/-- What is called, and which thread goes on. -/
inductive LockEvent where
  | call (request : LockRequest)
  | goOn (index : ℕ)
  | endRead (index : ℕ) (outcome : ActionEnd)
  | work
  | downgrade
  | endWrite (outcome : ActionEnd)
  | destroy
  | destruct
  | wake (thread : LockThread)
  deriving DecidableEq

/-! ### The lock -/

/-- `DefaultWorkspaceLock`, with the calls made so far, its worker and its destructor. -/
structure DefaultWorkspaceLock where
  stopping : Bool
  stopRequested : Bool
  queueOwner : Option ℕ
  gateOwner : Option ℕ
  writeQueue : List ℕ
  previousWrite : Option ℕ
  cancelled : ℕ → Bool
  writeHeld : Bool
  readers : ℤ
  writePending : ℤ
  activeReads : ℤ
  calls : List LockCall
  worker : LockWorker
  destructor : LockDestructor
  queued : List ℕ
  taken : List ℕ
  started : List ℕ
  ended : List ℕ

namespace DefaultWorkspaceLock

/-- A new lock. -/
def initial : DefaultWorkspaceLock where
  stopping := false
  stopRequested := false
  queueOwner := none
  gateOwner := none
  writeQueue := []
  previousWrite := none
  cancelled _ := false
  writeHeld := false
  readers := 0
  writePending := 0
  activeReads := 0
  calls := []
  worker := .atQueue true
  destructor := .notCalled
  queued := []
  taken := []
  started := []
  ended := []

variable (s : DefaultWorkspaceLock)

/-- A call goes on. -/
def put (i : ℕ) (call : LockCall) : DefaultWorkspaceLock :=
  { s with calls := s.calls.set i call }

/-- The token of a write is cancelled; the first previous write is none of the queue's. -/
def requestStop (write? : Option ℕ) : DefaultWorkspaceLock :=
  { s with cancelled := fun w => s.cancelled w || write? == some w }

/-- `_queueCv.notify_all()`. -/
def notifyQueue : DefaultWorkspaceLock := { s with worker := s.worker.wakeQueue }

/-- `_gateCv.notify_all()`. -/
def notifyGate : DefaultWorkspaceLock :=
  { s with
    calls := s.calls.map LockCall.wake
    worker := s.worker.wakeGate
    destructor := s.destructor.wake }

/-- A notification under a condition. -/
def notifyGateIf (condition : Prop) [Decidable condition] : DefaultWorkspaceLock :=
  if condition then s.notifyGate else s

/-- The promise of a call is given a value or an exception. -/
def complete (i : ℕ) (completion : Completion) : DefaultWorkspaceLock :=
  { s with calls := s.calls.modify i (LockCall.complete completion) }

/-- What a read waits for. -/
def mayRead : Bool := s.stopping || (!s.writeHeld && s.writePending == 0)

/-- What the worker waits for at the gate. -/
def mayHold : Bool := s.stopping || (!s.writeHeld && s.readers == 0)

/-- What the worker waits for at the queue. -/
def mayTake : Bool := s.stopping || s.stopRequested || !s.writeQueue.isEmpty

/-- `_gateCv.wait` of a read that holds `_gateMutex`, which it keeps when it need not wait. -/
def waitAsRead (i : ℕ) (call : LockCall) : DefaultWorkspaceLock :=
  if s.mayRead then { s.put i { call with phase := .admitted } with gateOwner := some i }
  else s.put i { call with phase := .waiting false }

/-- A call of `write`. -/
def writeStep (i : ℕ) (call : LockCall) : Option DefaultWorkspaceLock :=
  match call.phase with
  | .called =>
    if s.queueOwner = none then
      if s.stopping then
        some (s.put i (({ call with phase := .returned } : LockCall).complete .value))
      else
        some { (s.requestStop s.previousWrite).put i { call with phase := .counting } with
          previousWrite := some i
          queueOwner := some i }
    else none
  -- `_queueMutex` is held until the write is in the queue.
  | .counting =>
    if s.gateOwner = none then
      some { s.put i { call with phase := .queueing } with writePending := s.writePending + 1 }
    else none
  | .queueing =>
    some { s.put i { call with phase := .notifyingQueue } with
      writeQueue := s.writeQueue ++ [i]
      queued := s.queued ++ [i]
      queueOwner := none }
  | .notifyingQueue => some (s.put i { call with phase := .notifyingGate }).notifyQueue
  | .notifyingGate => some (s.put i { call with phase := .returned }).notifyGate
  | _ => none

/-- A call of `read`; its action ends in an event of its own. -/
def readStep (i : ℕ) (call : LockCall) : Option DefaultWorkspaceLock :=
  match call.phase with
  | .called =>
    if s.gateOwner = none then
      some (({ s with activeReads := s.activeReads + 1 } : DefaultWorkspaceLock).waitAsRead i call)
    else none
  | .waiting true => if s.gateOwner = none then some (s.waitAsRead i call) else none
  -- `_stopping` is looked at again, still under `_gateMutex`.
  | .admitted =>
    if s.stopping then
      some ({ s.put i (({ call with phase := .returned } : LockCall).complete .value) with
        activeReads := s.activeReads - 1
        gateOwner := none }.notifyGateIf (s.activeReads - 1 = 0))
    else
      some { s.put i { call with phase := .acting } with
        readers := s.readers + 1
        gateOwner := none }
  | .leaving =>
    if s.gateOwner = none then
      some ({ s.put i { call with phase := .returned } with
        readers := s.readers - 1
        activeReads := s.activeReads - 1 }.notifyGateIf
          (s.activeReads - 1 = 0 ∨ s.readers - 1 = 0))
    else none
  | _ => none

/-- A call goes on. -/
def callStep (i : ℕ) (call : LockCall) : Option DefaultWorkspaceLock :=
  match call.request, call.phase with
  | .write false, .called | .read false, .called =>
    some (s.put i (({ call with phase := .returned } : LockCall).complete .value))
  | .write true, _ => s.writeStep i call
  | .read true, _ => s.readStep i call
  | .cancelWrite, .called =>
    if s.queueOwner = none then
      some ((s.requestStop s.previousWrite).put i { call with phase := .returned })
    else none
  | _, _ => none

/-- The first call of `downgrade`: the write at hand goes on as a reader. -/
def downgrade (worker : LockWorker) : DefaultWorkspaceLock :=
  { s with
    worker := worker
    writeHeld := false
    readers := s.readers + 1
    writePending := s.writePending - 1 }.notifyGate

/-- The worker goes on. -/
def workerStep : Option DefaultWorkspaceLock :=
  match s.worker with
  | .atQueue true =>
    if s.queueOwner = none then
      if s.mayTake then
        match s.writeQueue with
        | [] => some { s with worker := .exited }
        | w :: queue =>
          some { s with worker := .took w, writeQueue := queue, taken := s.taken ++ [w] }
      else some { s with worker := .atQueue false }
    else none
  | .took w =>
    if s.stopping || s.stopRequested then
      some { s.requestStop (some w) with worker := .atGate w true true }
    else some { s with worker := .atGate w false true }
  | .atGate w shuttingDown true =>
    if s.gateOwner = none then
      if s.mayHold then
        -- The action is skipped when the lock was shutting down before the wait.
        if shuttingDown then some { s with writeHeld := true, worker := .ended w .value false }
        else
          some { s with
            writeHeld := true
            worker := .acting w false
            started := s.started ++ [w] }
      else some { s with worker := .atGate w shuttingDown false }
    else none
  | .ended w outcome false =>
    if s.gateOwner = none then some (s.downgrade (.ended w outcome true)) else none
  | .ended w outcome true => some { s.complete w outcome with worker := .releasing }
  | .releasing =>
    if s.gateOwner = none then
      some ({ s with worker := .atQueue true, readers := s.readers - 1 }.notifyGateIf
        (s.readers - 1 = 0))
    else none
  | _ => none

/-- The destruction goes on. -/
def destructorStep : Option DefaultWorkspaceLock :=
  match s.destructor with
  | .stopping =>
    if s.queueOwner = none then
      some { s with
        stopping := true
        cancelled := fun w => s.cancelled w || s.writeQueue.contains w
        destructor := .cancelling }
    else none
  | .cancelling =>
    if s.queueOwner = none then
      some { s.requestStop s.previousWrite with destructor := .notifyingQueue }
    else none
  | .notifyingQueue => some { s with destructor := .notifyingGate }.notifyQueue
  | .notifyingGate =>
    if s.gateOwner = none then
      some { s.notifyGate with
        destructor := if s.activeReads = 0 then .drained else .draining false }
    else none
  | .draining true =>
    if s.gateOwner = none then
      some { s with destructor := if s.activeReads = 0 then .drained else .draining false }
    else none
  -- The members go, the worker first: it is asked to stop, and joined.
  | .drained => some { s with stopRequested := true, destructor := .joining }
  | .joining => if s.worker = .exited then some { s with destructor := .destroyed } else none
  | _ => none

/-- A thread wakes up for no reason. -/
def wake : LockThread → DefaultWorkspaceLock
  | .call i => { s with calls := s.calls.modify i LockCall.wake }
  | .worker => { s with worker := s.worker.wakeGate.wakeQueue }
  | .destructor => { s with destructor := s.destructor.wake }

/-- What an event does. -/
def step : LockEvent → Option DefaultWorkspaceLock
  | .call request =>
    if s.destructor = .destroyed then none
    else some { s with calls := s.calls ++ [⟨request, .called, []⟩] }
  | .goOn i => s.calls[i]?.bind (s.callStep i)
  | .endRead i outcome =>
    match s.calls[i]? with
    | some call =>
      if call.phase = .acting then
        some (s.put i (({ call with phase := .leaving } : LockCall).complete outcome.ofRead))
      else none
    | none => none
  | .work => s.workerStep
  | .downgrade =>
    match s.worker with
    | .acting w false =>
      if s.gateOwner = none then some (s.downgrade (.acting w true)) else none
    | .acting _ true => some s
    | _ => none
  | .endWrite outcome =>
    match s.worker with
    | .acting w downgraded =>
      some { s with worker := .ended w outcome.ofWrite downgraded, ended := s.ended ++ [w] }
    | _ => none
  | .destroy =>
    match s.destructor with
    | .notCalled => some { s with destructor := .stopping }
    | _ => none
  | .destruct => s.destructorStep
  | .wake thread => some (s.wake thread)

/-- The workspace lock. -/
def machine : Machine DefaultWorkspaceLock LockEvent := ⟨step⟩

end DefaultWorkspaceLock

end Pegium
