/-
Pegium/Workspace/FactoryFailures.lean

The document builder when the document factory throws.

`DefaultDocumentFactory` throws on a text that it cannot read, before it touches
the document, and on one that it cannot parse, when the new text is attached
already.  Which documents these are is for the environment to say, and it may
change at any time: a file becomes unreadable, a client sends another text.

An update meets a failure in two places.  A changed document that is not in the
store, and cannot be created, is skipped.  In the first phase the scheduler stops
handing out documents as soon as one of them has thrown; the documents that are
being worked on go on to their end, the others are skipped, and then the call
throws: its later phases do not take place.
-/
import Pegium.Workspace.Build

namespace Pegium

open Function (update)

variable {τ δ : Type}

/-- What the document factory throws on: a text it cannot read, or one it cannot parse. -/
inductive TextFailure where
  | read
  | parse
  deriving DecidableEq

/-- What the builder does: nothing since the last call has returned or thrown, a call
with the documents that its phase has begun, or what is left of a phase that fails. -/
inductive Activity where
  | returned
  | thrown
  | running (call : Call) (begun : List ℕ)
  | failing (documents : List ℕ) (jobs : ℕ → List Task) (begun : List ℕ)

namespace Activity

/-- A call, or the end of one. -/
def ofCall (begun : List ℕ) : Option Call → Activity
  | some call => running call begun
  | none => returned

end Activity

/-- A workspace, the documents whose texts fail, and what the builder does. -/
structure FactoryState (τ δ : Type) where
  workspace : Workspace τ δ
  failures : ℕ → Option TextFailure
  activity : Activity

/-- What happens to the builder; the text of a document may begin or cease to fail, and
a phase that fails skips a document. -/
inductive FactoryEvent (τ : Type) where
  | builder (event : BuilderEvent τ)
  | fails (documentId : ℕ) (failure : Option TextFailure)
  | skip (documentId : ℕ)

/-- `DocumentFactory::update` reads the text, attaches it and parses it. -/
def Task.throws (failure : Option TextFailure) : Task → Bool
  | attach => failure = some .read
  | parse => failure = some .parse
  | _ => false

/-- `getOrCreateDocument` throws. -/
def Workspace.creationFails (failures : ℕ → Option TextFailure) (d : ℕ) (w : Workspace τ δ) :
    Bool :=
  (w.documents d).isNone && (failures d).isSome

namespace Call

/-- The call without the changed document at hand, when that cannot be created. -/
def skipChanged (failures : ℕ → Option TextFailure) (w : Workspace τ δ) (call : Call) :
    Option Call :=
  match call.stage with
  | .changing (d :: pending) =>
    if w.creationFails failures d then some { call with stage := .changing pending } else none
  | _ => none

/-- The phase of the call without the document at hand, when its next task throws. -/
def failAt (failures : ℕ → Option TextFailure) (d : ℕ) (begun : List ℕ) (call : Call) :
    Option Activity :=
  match call.stage with
  | .phase _ documents jobs =>
    match jobs d with
    | task :: _ =>
      if task.throws (failures d) then
        some (.failing documents (Function.update jobs d []) begun)
      else none
    | [] => none
  | _ => none

end Call

namespace FactoryState

/-- One step of a call in which nothing has thrown. -/
def runningStep (L : Language τ δ) (s : FactoryState τ δ) (call : Call) (begun : List ℕ) :
    Call.Work → Option (FactoryState τ δ)
  | .next =>
    match call.skipChanged s.failures s.workspace with
    | some call => some { s with activity := .running call [] }
    | none =>
      (call.step L s.workspace .next).map fun (w, call) =>
        { s with workspace := w, activity := .ofCall [] call }
  | .task d =>
    match call.failAt s.failures d begun with
    | some activity => some { s with activity := activity }
    | none =>
      (call.step L s.workspace (.task d)).map fun (w, call) =>
        { s with workspace := w, activity := .ofCall (d :: begun) call }

/-- One step of a phase in which a document has thrown; at its end the call throws. -/
def failingStep (L : Language τ δ) (s : FactoryState τ δ) (documents : List ℕ)
    (jobs : ℕ → List Task) (begun : List ℕ) : Call.Work → Option (FactoryState τ δ)
  | .next =>
    if documents.all fun d => (jobs d).isEmpty then some { s with activity := .thrown } else none
  | .task d =>
    match jobs d with
    | task :: rest =>
      if task.throws (s.failures d) then
        some { s with activity := .failing documents (update jobs d []) begun }
      else
        some { s with
          workspace := task.run L d s.workspace
          activity := .failing documents (update jobs d rest) (d :: begun) }
    | [] => none

/-- What an event between calls does; who asks for a document that cannot be created gets
the exception. -/
def idleStep (L : Language τ δ) (s : FactoryState τ δ) (event : BuilderEvent τ) :
    Option (FactoryState τ δ) :=
  match event with
  | .getOrCreateDocument d =>
    if s.workspace.creationFails s.failures d then some s
    else some { s with workspace := s.workspace.getOrCreateDocument L d }
  | event =>
    (BuilderState.idleStep L s.workspace event).map fun s' =>
      match s'.call with
      | some call => { s with workspace := s'.workspace, activity := .running call [] }
      | none => { s with workspace := s'.workspace }

/-- What an event does. -/
def step (L : Language τ δ) (s : FactoryState τ δ) : FactoryEvent τ → Option (FactoryState τ δ)
  | .fails d failure => some { s with failures := update s.failures d failure }
  | .builder .getOrCreateDocumentId =>
    some { s with workspace := s.workspace.getOrCreateDocumentId }
  | .builder (.setTextDocument d text) =>
    some { s with workspace := s.workspace.setTextDocument d text }
  | .builder (.writeFile d text) => some { s with workspace := s.workspace.writeFile d text }
  | .builder event =>
    match s.activity with
    | .returned | .thrown => s.idleStep L event
    | .running call begun =>
      match event with
      | .work work => s.runningStep L call begun work
      | .stop => if call.cancellable then some { s with activity := .thrown } else none
      | _ => none
    | .failing documents jobs begun =>
      match event with
      | .work work => s.failingStep L documents jobs begun work
      | .stop => some { s with activity := .thrown }
      | _ => none
  | .skip d =>
    match s.activity with
    | .failing documents jobs begun =>
      -- what has been begun goes on to its end
      if jobs d ≠ [] ∧ d ∉ begun then
        some { s with activity := .failing documents (update jobs d []) begun }
      else none
    | _ => none

/-- The document builder of a language, over texts that may fail. -/
def machine (L : Language τ δ) : Machine (FactoryState τ δ) (FactoryEvent τ) := ⟨step L⟩

/-- A workspace without documents, and every text as it should be. -/
def initial (files : ℕ → τ) : FactoryState τ δ := ⟨Workspace.empty files, fun _ => none, .returned⟩

end FactoryState

/-! ### Requests -/

/-- What is asked of the builder. -/
inductive Request where
  | update (changed deleted : List ℕ) (options : BuildOptions)
  | build (documents : List ℕ) (options : BuildOptions)
  deriving DecidableEq

namespace Request

def event : Request → FactoryEvent τ
  | update changed deleted options => .builder (.update changed deleted options)
  | build documents options => .builder (.build documents options)

/-- The documents a request is about: `build` names them, an update builds the changed
documents and whatever else is stored. -/
def Covers (w : Workspace τ δ) : Request → ℕ → Prop
  | update changed deleted _, d =>
    d ∉ deleted ∧ ((w.documents d).isSome ∨ d ∈ changed ∧ d < w.nextDocumentId)
  | build documents _, d => d ∈ documents

end Request

/-- The state a build brings a document to, by its options. -/
def Workspace.targetState (d : ℕ) (w : Workspace τ δ) : DocumentState :=
  if w.shouldValidate d then .validated
  else if w.shouldLink d then .indexedReferences
  else .computedScopes

/-- The document is there, in its target state. -/
def Workspace.AtTarget (d : ℕ) (w : Workspace τ δ) : Prop :=
  ∃ document, w.documents d = some document ∧ w.targetState d ≤ document.state

end Pegium
