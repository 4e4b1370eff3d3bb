/-
Pegium/Workspace/WaitUntil.lean

`waitUntil(state, document)`, against the builder.

The builder of `Build.lean` goes on here: when the tasks of a phase are done, the
phase listeners of each document are told the states it newly reached, one listener at
a time and from a copy of their list, and only then the states of the workspace are
published.  A cancelled token is seen between two listeners; it ends the call once the
copy is through.

A wait looks its document up and compares, registers a listener for the state, looks and
compares again, and is then woken by the first who finishes it: the listener, its token,
or its own second look.  A look and the comparison are two steps, and what is compared
is the document looked up, which may be gone by then.
-/
import Pegium.Workspace.Phases
import Pegium.Workspace.DefaultDocuments

namespace Pegium

open Function (update)

variable {τ δ : Type}

/-! ### Phases and their states -/

/-- `phaseEnd`, of `runMergedPhase`. -/
def Phase.phaseEnd : Phase → DocumentState
  | content => .indexedContent
  | references => .indexedReferences
  | validation => .validated

/-- The states whose waiters a phase wakes. -/
def Phase.publishStates : Phase → List DocumentState
  | content => [.parsed, .indexedContent]
  | references => [.computedScopes, .linked, .indexedReferences]
  | validation => [.validated]

/-- The document is in the store, and in this state or a later one. -/
def Workspace.reached (d : ℕ) (state : DocumentState) (w : Workspace τ δ) : Bool :=
  match w.documents d with
  | some document => state ≤ document.state
  | none => false

/-- The documents that a phase works on, with the states in which they enter it. -/
def Phase.pending (phase : Phase) (documents : List ℕ) (w : Workspace τ δ) :
    List (ℕ × DocumentState) :=
  documents.filterMap fun d => (w.documents d).bind fun document =>
    if document.state < phase.phaseEnd then some (d, document.state) else none

/-- The states that the documents of a phase have newly reached. -/
def Phase.notifications (phase : Phase) (entryStates : List (ℕ × DocumentState))
    (w : Workspace τ δ) : List (ℕ × DocumentState) :=
  entryStates.flatMap fun (d, entry) =>
    (phase.publishStates.filter fun state => entry < state ∧ w.reached d state).map fun state =>
      (d, state)

/-- Where the call is. -/
def BuilderState.stage (b : BuilderState τ δ) : Option Stage := b.call.map Call.stage

/-- The phase that the call is in, and its documents. -/
def BuilderState.phase (b : BuilderState τ δ) : Option (Phase × List ℕ) :=
  match b.stage with
  | some (.phase phase documents _) => some (phase, documents)
  | _ => none

/-! ### Waiting -/

/-- The name of a state in messages. -/
def document_state_name : DocumentState → String
  | .changed => "Changed"
  | .parsed => "Parsed"
  | .indexedContent => "IndexedContent"
  | .computedScopes => "ComputedScopes"
  | .linked => "Linked"
  | .indexedReferences => "IndexedReferences"
  | .validated => "Validated"

/-- What a wait throws: `OperationCancelled` or a `DocumentBuilderError`. -/
inductive WaitError where
  | cancelled
  | documentBuilder (what : String)
  deriving DecidableEq

/-- Where a wait is; one that compares holds the document it looked up, which is told by
the number of documents of the id that have been deleted before. -/
inductive WaitStage where
  | checking
  | comparing (held : ℕ)
  | registering
  | subscribing
  | rechecking
  | recomparing (held : ℕ)
  | waiting
  | returned (error : Option WaitError)
  deriving DecidableEq

/-- A call of `awaitDocumentState`, with its `WaitState`. -/
structure Waiter where
  state : DocumentState
  documentId : ℕ
  stage : WaitStage := .checking
  cancelRequested : Bool := false
  completed : Bool := false
  error : Option WaitError := none
  deriving DecidableEq

namespace Waiter

/-- `finish`: the first to finish a wait says how it ends. -/
def finish (error : Option WaitError) (waiter : Waiter) : Waiter :=
  if waiter.completed then waiter else { waiter with completed := true, error := error }

/-- The callback of its token. -/
def onCancelled (waiter : Waiter) : Waiter :=
  match waiter.stage with
  | .rechecking | .recomparing _ | .waiting => waiter.finish (some .cancelled)
  | _ => waiter

/-- The wait sleeps, and nobody has finished it. -/
def Blocked (waiter : Waiter) : Prop := waiter.stage = .waiting ∧ waiter.completed = false

/-- The wait has looked for the last time, and nobody has finished it. -/
def Depends (waiter : Waiter) : Prop :=
  waiter.completed = false ∧ (waiter.stage = .waiting ∨ ∃ held, waiter.stage = .recomparing held)

end Waiter

/-! ### The builder and those who wait -/

/-- What a phase does when its tasks are done: tell the listeners, with what is left to tell
and, in a notification, who is left in the copy and whether somebody was cancelled; and publish
its states. -/
inductive Barrier where
  | notifying (pending : List (ℕ × DocumentState))
  | invoking (documentId : ℕ) (listeners : List ℕ) (cancellation : Bool)
      (pending : List (ℕ × DocumentState))
  | publishing (pending : List DocumentState)
  deriving DecidableEq

/-- The builder, its published state, the token of its call, the phase at hand, the listeners
of each state that belong to waits, and the waits. -/
structure AwaitState (τ δ : Type) where
  builder : BuilderState τ δ
  currentState : DocumentState := .changed
  cancelRequested : Bool := false
  entryStates : List (ℕ × DocumentState) := []
  barrier : Option Barrier := none
  removals : ℕ → ℕ := fun _ => 0
  documentPhaseListeners : DocumentState → List ℕ := fun _ => []
  waiters : ℕ → Option Waiter := fun _ => none

/-- What happens: the builder goes on, the token of its call is cancelled, a phase drains, a
listener is told or publishing goes on, something throws; and waits begin, go on and are
cancelled.  Listeners of others come between those of waits. -/
inductive AwaitEvent (τ : Type) where
  | builder (event : BuilderEvent τ)
  | requestCancel
  | drain
  | notify
  | invoke
  | otherCancelled
  | throws
  | publish
  | waitUntil (waiter : ℕ) (state : DocumentState) (documentId : ℕ)
  | wait (waiter : ℕ)
  | cancelWait (waiter : ℕ)

namespace AwaitState

variable (t : AwaitState τ δ)

/-- The state of one waiter changes. -/
def setWaiter (i : ℕ) (waiter : Waiter) : AwaitState τ δ :=
  { t with waiters := update t.waiters i (some waiter) }

/-! #### The checks -/

/-- `check_now`, up to the comparison: how the wait ends, when that is clear already. -/
def lookUp (waiter : Waiter) : Option (Option WaitError) :=
  match t.builder.workspace.documents waiter.documentId with
  | none => some (some (.documentBuilder
      ("No document found for id: " ++ toString waiter.documentId)))
  | some document => if waiter.state ≤ document.state then some none else none

/-- The state of the document looked up; a deleted one is `Changed`. -/
def heldState (d held : ℕ) : DocumentState :=
  if t.removals d = held then
    match t.builder.workspace.documents d with
    | some document => document.state
    | none => .changed
  else .changed

/-- Why a wait cannot be met any more. -/
def make_failure (waiter : Waiter) (documentState workspaceState : DocumentState) : WaitError :=
  .documentBuilder ("Document state of #" ++ toString waiter.documentId ++ " is " ++
    document_state_name documentState ++ ", requiring " ++ document_state_name waiter.state ++
    ", but workspace state is already " ++ document_state_name workspaceState ++ ".")

/-- `check_now`, from the comparison on. -/
def compare (waiter : Waiter) (held : ℕ) : Option WaitError :=
  let documentState := t.heldState waiter.documentId held
  if waiter.state ≤ t.currentState ∧ documentState < waiter.state then
    some (make_failure waiter documentState t.currentState)
  else none

/-- A step of a wait. -/
def waitStep (i : ℕ) (waiter : Waiter) : Option (AwaitState τ δ) :=
  match waiter.stage with
  | .checking =>
    match t.lookUp waiter with
    | some error => some (t.setWaiter i { waiter with stage := .returned error })
    | none => some (t.setWaiter i
        { waiter with stage := .comparing (t.removals waiter.documentId) })
  | .comparing held =>
    match t.compare waiter held with
    | some error => some (t.setWaiter i { waiter with stage := .returned (some error) })
    | none => some (t.setWaiter i { waiter with stage := .registering })
  | .registering =>
    if waiter.cancelRequested then
      some (t.setWaiter i { waiter with stage := .returned (some .cancelled) })
    else
      some { t.setWaiter i { waiter with stage := .subscribing } with
        documentPhaseListeners := update t.documentPhaseListeners waiter.state
          (t.documentPhaseListeners waiter.state ++ [i]) }
  | .subscribing =>
    let waiter := { waiter with stage := .rechecking }
    some (t.setWaiter i
      (if waiter.cancelRequested then waiter.finish (some .cancelled) else waiter))
  | .rechecking =>
    match t.lookUp waiter with
    | some error => some (t.setWaiter i ({ waiter with stage := .waiting }.finish error))
    | none => some (t.setWaiter i
        { waiter with stage := .recomparing (t.removals waiter.documentId) })
  | .recomparing held =>
    match t.compare waiter held with
    | some error => some (t.setWaiter i ({ waiter with stage := .waiting }.finish (some error)))
    | none => some (t.setWaiter i { waiter with stage := .waiting })
  | .waiting =>
    if waiter.completed then
      some { t.setWaiter i { waiter with stage := .returned waiter.error } with
        documentPhaseListeners := update t.documentPhaseListeners waiter.state
          ((t.documentPhaseListeners waiter.state).erase i) }
    else none
  | .returned _ => none

/-- A new wait; one without an id is over at once. -/
def newWaiter (state : DocumentState) (documentId : ℕ) : Waiter :=
  if documentId = invalidDocumentId then
    { state := state
      documentId := documentId
      stage := .returned (some (.documentBuilder "No document id provided.")) }
  else { state := state, documentId := documentId }

/-! #### The builder -/

/-- The events of the builder that are possible here: a phase ends when its states are
published, its tasks come before that, and a call stops when it finds its token cancelled. -/
def admits : BuilderEvent τ → Bool
  | .work .next => t.builder.phase.isNone || t.barrier = some (.publishing [])
  | .work (.task _) => t.barrier.isNone
  | .stop =>
    t.cancelRequested &&
      match t.barrier with
      | none | some (.publishing _) => true
      | _ => false
  | _ => true

/-- The event takes the call to its next stage. -/
def moves : BuilderEvent τ → Bool
  | .work .next | .stop | .update .. | .build .. => true
  | _ => false

/-- `_currentState` after an event: a build starts with `Changed`. -/
def stateAfter : BuilderEvent τ → DocumentState
  | .build .. => .changed
  | .work .next =>
    match t.builder.stage with
    | some .starting => .changed
    | _ => t.currentState
  | _ => t.currentState

/-- A deleted document counts one removal more. -/
def removalsAfter : BuilderEvent τ → ℕ → ℕ
  | .work .next =>
    match t.builder.stage with
    | some (.deleting (d :: _)) => update t.removals d (t.removals d + 1)
    | _ => t.removals
  | _ => t.removals

/-- The token after an event: a call comes with its own. -/
def tokenAfter : BuilderEvent τ → Bool
  | .update .. | .build .. => false
  | _ => t.cancelRequested

/-- What a phase records when it begins. -/
def pendingOf (b : BuilderState τ δ) : List (ℕ × DocumentState) :=
  match b.phase with
  | some (phase, documents) => phase.pending documents b.workspace
  | none => []

/-- A step of the builder with what it publishes. -/
def builderStep (L : Language τ δ) (event : BuilderEvent τ) : Option (AwaitState τ δ) :=
  if t.admits event then
    (t.builder.step L event).map fun b =>
      { t with
        builder := b
        currentState := t.stateAfter event
        cancelRequested := t.tokenAfter event
        entryStates := if moves event then pendingOf b else t.entryStates
        barrier := if moves event then none else t.barrier
        removals := t.removalsAfter event }
  else none

/-- The call ends early. -/
def endCall : AwaitState τ δ :=
  { t with builder := ⟨t.builder.workspace, none⟩, entryStates := [], barrier := none }

/-- The tasks of the phase are done. -/
def drained : Bool :=
  match t.builder.stage with
  | some (.phase _ documents jobs) => documents.all fun d => (jobs d).isEmpty
  | _ => false

/-- The waits, when the listener of one is told of a document. -/
def tell (documentId i : ℕ) : ℕ → Option Waiter :=
  update t.waiters i ((t.waiters i).map fun waiter =>
    if documentId = waiter.documentId then waiter.finish none else waiter)

/-- What an event does that is none of the builder's. -/
def barrierStep : AwaitEvent τ → Option (AwaitState τ δ)
  | .drain =>
    match t.barrier, t.builder.phase with
    | none, some (phase, _) =>
      if t.drained then
        let pending := phase.notifications t.entryStates t.builder.workspace
        some { t with barrier := some (.notifying pending) }
      else none
    | _, _ => none
  | .notify =>
    match t.barrier, t.builder.phase with
    | some (.notifying ((d, state) :: pending)), _ =>
      let listeners := t.documentPhaseListeners state
      some { t with barrier := some (.invoking d listeners false pending) }
    | some (.notifying []), some (phase, _) =>
      some { t with barrier := some (.publishing phase.publishStates) }
    | _, _ => none
  | .invoke =>
    match t.barrier with
    | some (.invoking d (i :: listeners) cancellation pending) =>
      if t.cancelRequested then
        some { t with barrier := some (.invoking d listeners true pending) }
      else
        some { t with
          waiters := t.tell d i
          barrier := some (.invoking d listeners cancellation pending) }
    | some (.invoking _ [] true _) => some t.endCall
    | some (.invoking _ [] false pending) => some { t with barrier := some (.notifying pending) }
    | _ => none
  | .otherCancelled =>
    match t.barrier with
    | some (.invoking d listeners _ pending) =>
      some { t with barrier := some (.invoking d listeners true pending) }
    | _ => none
  | .throws =>
    match t.barrier with
    | none | some (.invoking ..) => if t.builder.call.isSome then some t.endCall else none
    | _ => none
  | .publish =>
    match t.barrier with
    | some (.publishing (state :: pending)) =>
      some { t with currentState := state, barrier := some (.publishing pending) }
    | _ => none
  | _ => none

/-- The builder, the token and the waiters take their steps. -/
def step (L : Language τ δ) (t : AwaitState τ δ) : AwaitEvent τ → Option (AwaitState τ δ)
  | .builder event => t.builderStep L event
  | .requestCancel => some { t with cancelRequested := true }
  | .waitUntil i state documentId =>
    match t.waiters i with
    | none => some (t.setWaiter i (newWaiter state documentId))
    | some _ => none
  | .wait i => (t.waiters i).bind (t.waitStep i)
  | .cancelWait i =>
    (t.waiters i).map fun waiter =>
      t.setWaiter i { waiter with cancelRequested := true }.onCancelled
  | event => t.barrierStep event

/-- The builder of a language, and those who wait for it. -/
def machine (L : Language τ δ) : Machine (AwaitState τ δ) (AwaitEvent τ) := ⟨step L⟩

/-- Before any call. -/
def start (w : Workspace τ δ) : AwaitState τ δ := { builder := ⟨w, none⟩ }

/-! ### Runs that miss nobody -/

/-- Somebody depends on being told of a document, which has reached the state. -/
def Owes : Prop :=
  ∃ i waiter, t.waiters i = some waiter ∧ waiter.Depends ∧
    t.builder.workspace.reached waiter.documentId waiter.state = true

/-- Where nobody is missed: a call is cut short only when nothing is owed to anybody; a state
is published when the documents that are waited for have reached it; and no document gets past
a state that is waited for outside the phase that tells of it, neither when it is created nor
when it is validated without having been linked. -/
def Allowed (t : AwaitState τ δ) : AwaitEvent τ → Prop
  | .builder .stop | .throws => ¬ t.Owes
  | .invoke => (∃ d pending, t.barrier = some (.invoking d [] true pending)) → ¬ t.Owes
  | .publish => ∀ state pending, t.barrier = some (.publishing (state :: pending)) →
    ∀ i waiter, t.waiters i = some waiter → waiter.Blocked → waiter.state ≤ state →
      t.builder.workspace.reached waiter.documentId waiter.state = true
  | .builder (.getOrCreateDocument d) => t.builder.workspace.documents d = none →
    ∀ i waiter, t.waiters i = some waiter → waiter.Depends → waiter.documentId = d →
      .parsed < waiter.state
  | .builder (.work (.task d)) => ∀ i waiter, t.waiters i = some waiter → waiter.Depends →
    waiter.documentId = d → waiter.state ≤ t.currentState →
      t.builder.workspace.reached d waiter.state = true
  | _ => True

end AwaitState

end Pegium
