/-
Pegium/References/Resolution.lean

How threads resolve references.

A reference is resolved by the first thread that asks for it.  That thread takes
the resolver role, runs the linker, stores what it found, and publishes a state;
the others wait for the state, and read what was stored.  The linker may ask for
other references on its way, so a thread has a stack of calls.

Each access to the state word, the owner word or the waiter count is one step, and
so is each access to the target.  `compare_exchange_weak` that fails for no reason
only tries again, and is left out.

`asked`, `runs`, `retries`, `published`, `threw` and `cyclic` are no part of a
reference.  They record what happened to it since it was cleared.
-/
import Mathlib.Data.Int.Notation
import Pegium.General.Machine
import Pegium.Workspace.Document

namespace Pegium

/-! ### References -/

inductive ReferenceState where
  | unresolved
  | resolving
  | resolved
  | errorNoLinker
  | errorNotFound
  | errorCycle
  | errorException
  deriving DecidableEq

/-- A state that stays until the reference is cleared. -/
def ReferenceState.terminal : ReferenceState → Bool
  | .unresolved | .resolving => false
  | _ => true

/-- `applyLinkingError`: a retryable error leaves the reference unresolved. -/
def LinkingErrorKind.state : LinkingErrorKind → ReferenceState
  | .retryable => .unresolved
  | .cycle => .errorCycle
  | .exception => .errorException
  | .notFound => .errorNotFound

/-- An exception that leaves `doResolve`: `OperationCancelled`, or one thrown while the result is
copied. -/
inductive Thrown where
  | cancelled
  | failed
  deriving DecidableEq

variable {R V : Type}

/-- What a caller sees of a reference it asked for: the target, and the state when it is
terminal. -/
structure Reading (V : Type) where
  target : Option V
  state : Option ReferenceState
  deriving DecidableEq

/-- What the linker does for a reference: it asks for others, and ends in a target, in a linking
error, or in an exception, after which some targets may be left behind. -/
inductive Resolution (R V : Type) where
  | ask (reference : R) (rest : Reading V → Resolution R V)
  | link (target : V)
  | refuse (kind : LinkingErrorKind)
  | throw (thrown : Thrown) (left : Option V)

/-- The fields of a reference that are shared. -/
structure ReferenceCell (V : Type) where
  state : ReferenceState
  resolvingOwner : Option ℕ
  waiterCount : ℤ
  target : Option V
  deriving DecidableEq

/-- What a caller reads. -/
def ReferenceCell.reading (cell : ReferenceCell V) : Reading V :=
  ⟨cell.target, if cell.state.terminal then some cell.state else none⟩

/-! ### Threads -/

/-- Where a call of `runResolution` is; `told` is the state that sent the caller to the value. -/
inductive ResolutionPhase (R V : Type) where
  | load
  | exchange
  | checkOwner
  | addWaiter
  | waiting (awake : Bool)
  | removeWaiter
  | own
  | resolving (resolution : Resolution R V)
  | awaiting (rest : Reading V → Resolution R V)
  | writing (target : V)
  | failing (thrown : Thrown)
  | disown (state : ReferenceState) (thrown : Option Thrown)
  | store (state : ReferenceState) (thrown : Option Thrown)
  | notify (thrown : Option Thrown)
  | reading (told : Option ReferenceState)

namespace ResolutionPhase

/-- The call has the resolver role. -/
def holds : ResolutionPhase R V → Bool
  | .own | .resolving _ | .awaiting _ | .writing _ | .failing _ | .disown _ _ | .store _ _ => true
  | _ => false

/-- The call has the resolver role, and the owner word says so. -/
def owns : ResolutionPhase R V → Bool
  | .resolving _ | .awaiting _ | .writing _ | .failing _ | .disown _ _ => true
  | _ => false

/-- The call is counted as a waiter. -/
def counted : ResolutionPhase R V → Bool
  | .waiting _ | .removeWaiter => true
  | _ => false

/-- The call waits for another thread. -/
def waits : ResolutionPhase R V → Bool
  | .addWaiter | .waiting _ => true
  | _ => false

/-- `notify_all` on the state word. -/
def wake : ResolutionPhase R V → ResolutionPhase R V
  | .waiting _ => .waiting true
  | phase => phase

end ResolutionPhase

/-- A call for a reference. -/
structure ResolutionFrame (R V : Type) where
  reference : R
  phase : ResolutionPhase R V

/-- What is called, and which thread goes on. -/
inductive ResolutionEvent (R : Type) where
  | get (thread : ℕ) (reference : R)
  | goOn (thread : ℕ)
  | wake (thread : ℕ)
  | clear (reference : R)

/-- The references, and the stack of calls of each thread, the last call first. -/
structure ResolutionState (R V : Type) where
  cells : R → ReferenceCell V
  threads : List (List (ResolutionFrame R V))
  asked : List R
  runs : R → ℕ
  retries : R → ℕ
  published : R → Option (Reading V)
  threw : List (ℕ × R)
  cyclic : List R

namespace ResolutionState

variable [DecidableEq R]

/-- Unresolved references, and threads that do nothing. -/
def initial (threads : ℕ) : ResolutionState R V where
  cells _ := ⟨.unresolved, none, 0, none⟩
  threads := List.replicate threads []
  asked := []
  runs _ := 0
  retries _ := 0
  published _ := none
  threw := []
  cyclic := []

variable (s : ResolutionState R V)

/-- A thread moves on. -/
def putStack (t : ℕ) (stack : List (ResolutionFrame R V)) : ResolutionState R V :=
  { s with threads := s.threads.set t stack }

/-- The fields of a reference change. -/
def putCell (r : R) (cell : ReferenceCell V) : ResolutionState R V :=
  { s with cells := Function.update s.cells r cell }

/-- A call on top of a stack is woken when it waits for the reference. -/
def wakeStack (r : R) : List (ResolutionFrame R V) → List (ResolutionFrame R V)
  | frame :: rest =>
    if frame.reference = r then { frame with phase := frame.phase.wake } :: rest else frame :: rest
  | [] => []

/-- `_state.notify_all()`, if a waiter is counted. -/
def notifyAll (r : R) : ResolutionState R V :=
  { s with
    threads := if 0 < (s.cells r).waiterCount then s.threads.map (wakeStack r) else s.threads }

/-- `CyclicReferenceResolution` leaves the call on top of `rest`, and the linker of the caller maps
it to a linking error. -/
def raiseCyclic (t : ℕ) : List (ResolutionFrame R V) → Option (ResolutionState R V)
  | ⟨r, .awaiting _⟩ :: rest =>
    some { s.putStack t (⟨r, .disown .errorCycle none⟩ :: rest) with cyclic := r :: s.cyclic }
  | _ => none

/-- An exception leaves the call on top of `rest`: the linker of the caller maps it to a linking
error, unless it is a cancellation. -/
def raise (t : ℕ) (thrown : Thrown) :
    List (ResolutionFrame R V) → Option (ResolutionState R V)
  | [] => some (s.putStack t [])
  | ⟨r, .awaiting _⟩ :: rest =>
    match thrown with
    | .failed => some (s.putStack t (⟨r, .disown .errorException none⟩ :: rest))
    | .cancelled =>
      some { s.putStack t (⟨r, .failing .cancelled⟩ :: rest) with threw := (t, r) :: s.threw }
  | _ => none

/-- The call on top of `rest` returns to its caller, which reads the value. -/
def answer (t : ℕ) (reading : Reading V) :
    List (ResolutionFrame R V) → Option (ResolutionState R V)
  | [] => some (s.putStack t [])
  | ⟨r, .awaiting k⟩ :: rest => some (s.putStack t (⟨r, .resolving (k reading)⟩ :: rest))
  | _ => none

/-- The next phase of a call that saw a state. -/
def seen : ReferenceState → ResolutionPhase R V
  | .unresolved => .exchange
  | .resolving => .checkOwner
  | state => .reading (some state)

variable (linker : R → Option (Resolution R V))

/-- The call on top of a stack goes on; `linker` is empty for a reference without a linker. -/
def frameStep (t : ℕ) (r : R) (rest : List (ResolutionFrame R V)) :
    ResolutionPhase R V → Option (ResolutionState R V)
  | .load => some (s.putStack t (⟨r, seen (s.cells r).state⟩ :: rest))
  | .exchange =>
    if (s.cells r).state = .unresolved then
      some ((s.putCell r { s.cells r with state := .resolving }).putStack t (⟨r, .own⟩ :: rest))
    else some (s.putStack t (⟨r, seen (s.cells r).state⟩ :: rest))
  | .checkOwner =>
    if (s.cells r).resolvingOwner = some t then s.raiseCyclic t rest
    else some (s.putStack t (⟨r, .addWaiter⟩ :: rest))
  | .addWaiter =>
    some ((s.putCell r { s.cells r with waiterCount := (s.cells r).waiterCount + 1 }).putStack t
      (⟨r, .waiting true⟩ :: rest))
  -- `_state.wait` compares, and falls asleep, in one step.
  | .waiting true =>
    if (s.cells r).state = .resolving then some (s.putStack t (⟨r, .waiting false⟩ :: rest))
    else some (s.putStack t (⟨r, .removeWaiter⟩ :: rest))
  | .waiting false => none
  | .removeWaiter =>
    some ((s.putCell r { s.cells r with waiterCount := (s.cells r).waiterCount - 1 }).putStack t
      (⟨r, .load⟩ :: rest))
  | .own =>
    let owned := s.putCell r { s.cells r with resolvingOwner := some t }
    match linker r with
    | none => some (owned.putStack t (⟨r, .disown .errorNoLinker none⟩ :: rest))
    | some resolution =>
      some { owned.putStack t (⟨r, .resolving resolution⟩ :: rest) with
        runs := Function.update s.runs r (s.runs r + 1) }
  | .resolving (.ask r' k) =>
    some { s.putStack t (⟨r', .load⟩ :: ⟨r, .awaiting k⟩ :: rest) with asked := r' :: s.asked }
  | .resolving (.link target) => some (s.putStack t (⟨r, .writing target⟩ :: rest))
  | .resolving (.refuse kind) =>
    let state := kind.state
    some { s.putStack t (⟨r, .disown state none⟩ :: rest) with
      retries := if state = .unresolved then Function.update s.retries r (s.retries r + 1)
        else s.retries }
  | .resolving (.throw thrown left) =>
    some { (s.putCell r { s.cells r with target := left }).putStack t
        (⟨r, .failing thrown⟩ :: rest) with
      threw := (t, r) :: s.threw }
  | .awaiting _ => none
  | .writing target =>
    some ((s.putCell r { s.cells r with target := some target }).putStack t
      (⟨r, .disown .resolved none⟩ :: rest))
  | .failing thrown =>
    some ((s.putCell r { s.cells r with target := none }).putStack t
      (⟨r, .disown .errorException (some thrown)⟩ :: rest))
  | .disown state thrown =>
    some ((s.putCell r { s.cells r with resolvingOwner := none }).putStack t
      (⟨r, .store state thrown⟩ :: rest))
  | .store state thrown =>
    let cell := { s.cells r with state := state }
    some { (s.putCell r cell).putStack t (⟨r, .notify thrown⟩ :: rest) with
      published := Function.update s.published r (some cell.reading) }
  | .notify thrown =>
    match thrown with
    | none => some ((s.notifyAll r).putStack t (⟨r, .reading none⟩ :: rest))
    | some thrown => (s.notifyAll r).raise t thrown rest
  | .reading _ => s.answer t (s.cells r).reading rest

/-- A reference is cleared, while no thread resolves anything. -/
def clear (r : R) : ResolutionState R V :=
  { s.putCell r { s.cells r with state := .unresolved, resolvingOwner := none, target := none } with
    asked := s.asked.filter fun r' => r' ≠ r
    runs := Function.update s.runs r 0
    retries := Function.update s.retries r 0
    published := Function.update s.published r none
    threw := s.threw.filter fun entry => entry.2 ≠ r
    cyclic := s.cyclic.filter fun r' => r' ≠ r }

/-- No thread resolves anything. -/
def idle : Bool := s.threads.all List.isEmpty

/-- What an event does. -/
def step : ResolutionEvent R → Option (ResolutionState R V)
  | .get t r =>
    match s.threads[t]? with
    | some [] => some { s.putStack t [⟨r, .load⟩] with asked := r :: s.asked }
    | _ => none
  | .goOn t =>
    match s.threads[t]? with
    | some (⟨r, phase⟩ :: rest) => s.frameStep linker t r rest phase
    | _ => none
  | .wake t =>
    match s.threads[t]? with
    | some (⟨r, phase⟩ :: rest) => some (s.putStack t (⟨r, phase.wake⟩ :: rest))
    | _ => none
  | .clear r => if s.idle then some (s.clear r) else none

/-- The threads that resolve references. -/
def machine : Machine (ResolutionState R V) (ResolutionEvent R) := ⟨fun s => s.step linker⟩

/-- `isResolved` of a reference. -/
def isResolved (r : R) : Bool := decide ((s.cells r).state = .resolved)

end ResolutionState

end Pegium
