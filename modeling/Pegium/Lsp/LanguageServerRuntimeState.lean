/-
Pegium/Lsp/LanguageServerRuntimeState.lean

A session of the server: its lifecycle, and the requests that it is asked.

One thread reads the messages.  For every request of `make_async_request` it registers a
source of cancellation under a key that is made from the id of the request; a worker serves
the request at some later time, and takes the source out again when the handler is through.
A cancel notification looks for the source of its id, and stops it.  Changed documents are
updated by threads of their own.  When the messages end, and a shutdown has been requested,
the first thread waits until nothing is registered; then it waits for the updates
(`quiesce`), and resets everything.

What the workers and the first thread do is interleaved in any way.  A worker asks first
whether the server is initialized, and then whether it is shutting down, so that anything
can happen in between.  A handler may wait for the startup of the workspace or a build, and
ends with a cancellation when that is cancelled.  Handlers and updates end at some time;
what they wait for is left open.
-/
import Mathlib.Algebra.Group.Nat.Defs
import Mathlib.Data.Int.Notation
import Mathlib.Logic.Function.Basic
import Pegium.General.Machine

namespace Pegium.LanguageServer

open Function (update)

/-! ### Keys -/

/-- The identifier of a message. -/
inductive MessageId where
  | null
  | integer (id : ℤ)
  | string (id : String)
  deriving DecidableEq

/-- The id in a cancel notification. -/
inductive CancelId where
  | integer (id : ℤ)
  | string (id : String)
  deriving DecidableEq

/-- The key of a request; a null identifier has none. -/
def request_key_from_message_id : MessageId → String
  | .null => ""
  | .integer id => "i:" ++ toString id
  | .string id => "s:" ++ id

/-- The key a cancel notification names. -/
def request_key_from_cancel_id : CancelId → String
  | .integer id => "i:" ++ toString id
  | .string id => "s:" ++ id

/-- A key for a request without an id, and the counter after it. -/
def next_anonymous_request_key (counter : ℕ) : String × ℕ :=
  let counter := (counter + 1) % 2 ^ 64
  ("anon:" ++ toString counter, counter)

/-- The key that a request is registered under; asking for its id may throw. -/
def requestKey (currentRequestId : Option MessageId) (counter : ℕ) : String × ℕ :=
  let key := (currentRequestId.map request_key_from_message_id).getD ""
  if key = "" then next_anonymous_request_key counter else (key, counter)

/-! ### The state that handlers share -/

/-- Sources are named by the requests that they belong to. -/
structure LanguageServerRuntimeState where
  initialized : Bool
  shutdownRequested : Bool
  exitRequested : Bool
  requestCancellation : List (String × ℕ)

namespace LanguageServerRuntimeState

/-- The state after a reset, and the sources that are stopped then. -/
def reset (state : LanguageServerRuntimeState) : LanguageServerRuntimeState × List ℕ :=
  (⟨false, false, false, []⟩, state.requestCancellation.map Prod.snd)

/-- Hold the source of a request under its key, in place of an older one. -/
def registerRequestCancellation (state : LanguageServerRuntimeState) (requestKey : String)
    (source : ℕ) : LanguageServerRuntimeState :=
  if requestKey = "" then state
  else
    { state with
      requestCancellation :=
        (requestKey, source) :: state.requestCancellation.filter (·.1 ≠ requestKey) }

/-- Drop the source of a request. -/
def clearRequestCancellation (state : LanguageServerRuntimeState) (requestKey : String)
    (source : ℕ) : LanguageServerRuntimeState :=
  if requestKey = "" then state
  else
    match state.requestCancellation.lookup requestKey with
    | none => state
    | some registered =>
      -- A source that has taken the place of this one stays.
      if registered = source then
        { state with
          requestCancellation := state.requestCancellation.filter (·.1 ≠ requestKey) }
      else state

/-- The source that is stopped when the lock has been released. -/
def cancelRequestByKey (state : LanguageServerRuntimeState) (requestKey : String) : Option ℕ :=
  if requestKey = "" then none else state.requestCancellation.lookup requestKey

/-- Whether waiting is over. -/
def waitForPendingRequests (state : LanguageServerRuntimeState) : Bool :=
  state.requestCancellation.isEmpty

end LanguageServerRuntimeState

/-! ### A session -/

/-- How a request is answered. -/
inductive Outcome where
  | notInitialized
  | shuttingDown
  /-- The handler has found its source stopped. -/
  | cancelled
  /-- What the handler waited for was cancelled; the answer is the same. -/
  | cancelledElsewhere
  | answered
  /-- Any other exception. -/
  | failed
  deriving DecidableEq

/-- How far a request is. -/
inductive Phase where
  | queued
  /-- The server has been found initialized. -/
  | admitted
  | running
  | finished (outcome : Outcome)
  /-- Its source has been taken out. -/
  | cleared (outcome : Outcome)
  deriving DecidableEq

/-- The request still holds its source. -/
def Phase.pending : Phase → Bool
  | .cleared _ => false
  | _ => true

/-- A request of the session. -/
structure Request where
  id : Option MessageId
  key : String
  phase : Phase
  /-- A cancel notification with its id has been handled, or the session has been reset, while
  the request was pending. -/
  asked : Bool
  /-- A shutdown had been requested before. -/
  late : Bool
  deriving DecidableEq

/-- Where the first thread is. -/
inductive MainThread where
  | reading
  | left (shutdownRequested : Bool)
  | drained (shutdownRequested : Bool)
  | quiesced (shutdownRequested : Bool)
  | returned (code : ℕ)
  deriving DecidableEq

/-- The server, the requests it has received, and its main thread. -/
structure Session where
  runtime : LanguageServerRuntimeState
  requests : List Request
  stopped : ℕ → Bool
  /-- The sources that have been looked up, and are stopped next. -/
  stops : List ℕ
  counter : ℕ
  /-- How many updates of documents are going on. -/
  updates : ℕ
  main : MainThread

/-- What can happen next. -/
inductive SessionEvent where
  | receive (currentRequestId : Option MessageId)
  | cancelRequest (id : CancelId)
  /-- The source that has been found first is stopped. -/
  | stop
  /-- The handler may throw. -/
  | initializeRequest (succeeds : Bool)
  | shutdown
  | exit
  /-- A changed document is updated. -/
  | fireDocumentUpdate
  | endUpdate
  /-- The loop ends after an exit, or with an exception. -/
  | leave (exception : Bool)
  | drain
  | quiesce
  | «return»
  /-- A worker asks whether the server is initialized. -/
  | askInitialized (request : ℕ)
  /-- Then it asks whether the server is shutting down. -/
  | askShutdown (request : ℕ)
  /-- A handler asks whether its source is stopped, and it is. -/
  | throwIfCancelled (request : ℕ)
  /-- A handler asks for the result of something that was cancelled. -/
  | rethrowCancelled (request : ℕ)
  | finish (request : ℕ) (succeeds : Bool)
  | clear (request : ℕ)

/-- The notification is meant for the request with this id. -/
def CancelId.names (id : CancelId) : Option MessageId → Bool
  | some (.integer n) => id = .integer n
  | some (.string s) => id = .string s
  | _ => false

/-- A pending request is asked to stop. -/
def Request.ask (request : Request) : Request :=
  if request.phase.pending then { request with asked := true } else request

namespace Session

/-- The server before its first message. -/
def initial : Session := ⟨⟨false, false, false, []⟩, [], fun _ => false, [], 0, 0, .reading⟩

/-- The session with another state of the server. -/
def setRuntime (s : Session) (runtime : LanguageServerRuntimeState) : Session :=
  { s with runtime := runtime }

/-- A request goes on. -/
def setPhase (s : Session) (i : ℕ) (phase : Phase) : Session :=
  { s with requests := s.requests.modify i fun request => { request with phase := phase } }

/-- What a worker does with a request that is in a given phase. -/
def work (s : Session) (i : ℕ) (phase : Phase) (next : Request → Option Session) :
    Option Session :=
  match s.requests[i]? with
  | none => none
  | some request => if request.phase = phase then next request else none

/-- One event, where it is possible. -/
def step (s : Session) : SessionEvent → Option Session
  | .receive currentRequestId =>
    if s.main = .reading then
      let (key, counter) := requestKey currentRequestId s.counter
      let runtime := s.runtime.registerRequestCancellation key s.requests.length
      let request : Request :=
        ⟨currentRequestId, key, .queued, false, s.runtime.shutdownRequested⟩
      some { s with
        runtime := runtime
        requests := s.requests ++ [request]
        counter := counter }
    else none
  | .cancelRequest id =>
    if s.main = .reading then
      let found := s.runtime.cancelRequestByKey (request_key_from_cancel_id id)
      let requests := s.requests.map fun request =>
        if id.names request.id then request.ask else request
      some { s with requests := requests, stops := s.stops ++ found.toList }
    else none
  | .stop =>
    match s.stops with
    | [] => none
    | i :: stops => some { s with stopped := update s.stopped i true, stops := stops }
  | .initializeRequest succeeds =>
    if s.main = .reading then
      -- The second request of this kind is an error.
      if s.runtime.initialized ∨ ¬ succeeds then some s
      else some (s.setRuntime { s.runtime with initialized := true })
    else none
  | .shutdown =>
    if s.main = .reading then
      some (s.setRuntime { s.runtime with shutdownRequested := true })
    else none
  | .exit =>
    if s.main = .reading then some (s.setRuntime { s.runtime with exitRequested := true })
    else none
  | .fireDocumentUpdate =>
    -- Its notification is an error before.
    if s.main = .reading ∧ s.runtime.initialized then some { s with updates := s.updates + 1 }
    else none
  | .endUpdate =>
    match s.updates with
    | 0 => none
    | updates + 1 => some { s with updates := updates }
  | .leave exception =>
    if s.main = .reading ∧ (exception ∨ s.runtime.exitRequested) then
      some { s with main := .left s.runtime.shutdownRequested }
    else none
  | .drain =>
    match s.main with
    | .left shutdownRequested =>
      if shutdownRequested ∧ ¬ s.runtime.waitForPendingRequests then none
      else some { s with main := .drained shutdownRequested }
    | _ => none
  | .quiesce =>
    match s.main with
    | .drained shutdownRequested =>
      if s.updates = 0 then some { s with main := .quiesced shutdownRequested } else none
    | _ => none
  | .return =>
    match s.main with
    | .quiesced shutdownRequested =>
      let (runtime, sources) := s.runtime.reset
      some { s with
        runtime := runtime
        requests := s.requests.map Request.ask
        stops := s.stops ++ sources
        main := .returned (if shutdownRequested then 0 else 1) }
    | _ => none
  | .askInitialized i =>
    s.work i .queued fun _ =>
      some (s.setPhase i (if s.runtime.initialized then .admitted else .finished .notInitialized))
  | .askShutdown i =>
    s.work i .admitted fun _ =>
      some (s.setPhase i
        (if s.runtime.shutdownRequested then .finished .shuttingDown else .running))
  | .throwIfCancelled i =>
    s.work i .running fun _ =>
      if s.stopped i then some (s.setPhase i (.finished .cancelled)) else none
  | .rethrowCancelled i =>
    s.work i .running fun _ => some (s.setPhase i (.finished .cancelledElsewhere))
  | .finish i succeeds =>
    s.work i .running fun _ =>
      some (s.setPhase i (.finished (if succeeds then .answered else .failed)))
  | .clear i =>
    match s.requests[i]? with
    | some ⟨_, key, .finished outcome, _, _⟩ =>
      some ((s.setPhase i (.cleared outcome)).setRuntime
        (s.runtime.clearRequestCancellation key i))
    | _ => none

/-- The session as a machine. -/
def machine : Machine Session SessionEvent := ⟨step⟩

/-- A request does not come with the id of another one that is pending. -/
def Allowed (s : Session) : SessionEvent → Prop
  | .receive currentRequestId => ∀ request ∈ s.requests, request.phase.pending →
    request.key ≠ (requestKey currentRequestId s.counter).1
  | _ => True

end Session

end Pegium.LanguageServer
