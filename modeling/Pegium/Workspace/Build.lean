/-
Pegium/Workspace/Build.lean

`update()` and `build()` in small steps.

A call goes through its serial part one document at a time, and then through
three phases.  In a phase each document has a list of tasks of its own; the
documents are worked on in parallel, so a step of a phase runs the next task of
any one document, and the phase is over when no task is left.

The steps are as fine as the points where the code looks at its cancellation
token: an `attach` without its `parse` is a parse that was cancelled, and a
document with some of its references resolved a linking that was.
-/
import Pegium.General.Machine
import Pegium.Workspace.Builder

namespace Pegium

open Function (update)

variable {τ δ : Type}

/-! ### Phases -/

/-- The parts of the work of a phase on one document. -/
inductive Task where
  | attach
  | parse
  | updateContent
  | computeScopes
  | resolve (index : ℕ)
  | linked
  | updateReferences
  | validate
  deriving DecidableEq

/-- What a task does to a document. -/
def Task.run (L : Language τ δ) (d : ℕ) : Task → Workspace τ δ → Workspace τ δ
  | attach, w => w.attach d
  | parse, w => w.parse L d
  | updateContent, w => (w.updateContent d).advance d .indexedContent
  | computeScopes, w => w.computeScopes d
  | resolve i, w => w.resolve L d i
  | linked, w => w.advance d .linked
  | updateReferences, w => (w.updateReferences d).advance d .indexedReferences
  | validate, w => w.validate L d

/-- The three phases of `buildDocuments`: parse and index the content, compute the
scopes and link, validate. -/
inductive Phase where
  | content
  | references
  | validation
  deriving DecidableEq

/-- The body of a phase, by the state in which the document enters it. -/
def contentTasks (entry : DocumentState) : List Task :=
  (if entry < .parsed then [.attach, .parse] else []) ++
    if entry < .indexedContent then [.updateContent] else []

/-- Every reference is resolved, and the document is linked then. -/
def linkTasks (references : ℕ) : List Task :=
  (List.range references).map .resolve ++ [.linked]

/-- What the second phase does to a document in a given state. -/
def referenceTasks (shouldLink : Bool) (references : ℕ) (entry : DocumentState) : List Task :=
  (if entry < .computedScopes then [.computeScopes] else []) ++
    if shouldLink then
      (if entry < .linked then linkTasks references else []) ++
        if entry < .indexedReferences then [.updateReferences] else []
    else []

/-- What the third phase does to a document in a given state. -/
def validationTasks (entry : DocumentState) : List Task :=
  if entry < .validated then [.validate] else []

/-- The tasks of a phase for a document of the store. -/
def Phase.tasks (phase : Phase) (d : ℕ) (w : Workspace τ δ) : List Task :=
  match w.documents d with
  | none => []
  | some document =>
    match phase with
    | content => contentTasks document.state
    | references =>
      referenceTasks (w.shouldLink d) document.references.length document.state
    | validation => validationTasks document.state

/-- The tasks of a phase over some documents. -/
def Phase.jobs (phase : Phase) (documents : List ℕ) (w : Workspace τ δ) : ℕ → List Task :=
  fun d => if d ∈ documents then phase.tasks d w else []

/-! ### Calls -/

/-- Where a call is: at its first check, in one of its loops, with what is left of it,
before the documents to build are selected, or in a phase. -/
inductive Stage where
  | starting
  | deleting (pending : List ℕ)
  | changing (pending : List ℕ)
  | relinking (pending : List ℕ)
  | selecting
  | phase (phase : Phase) (documents : List ℕ) (jobs : ℕ → List Task)

/-- A call in progress. -/
structure Call where
  changed : List ℕ
  deleted : List ℕ
  options : BuildOptions
  stage : Stage

namespace Call

/-- `update()`: a deleted document does not count as changed. -/
def update (changed deleted : List ℕ) (options : BuildOptions) : Call :=
  { changed := (changed.filter (· ∉ deleted)).eraseDups
    deleted := deleted.eraseDups
    options := options
    stage := .starting }

/-- `allChangedDocumentIds`. -/
def allChanged (call : Call) : List ℕ := call.changed ++ call.deleted

/-- `buildDocuments`, from its first phase on. -/
def buildDocuments (documents : List ℕ) (w : Workspace τ δ) (call : Call) : Call :=
  { call with stage := .phase .content documents (Phase.content.jobs documents w) }

/-- The end of a phase.  Between the second and the third, the documents that are not
validated are marked as completed. -/
def endPhase (w : Workspace τ δ) (documents : List ℕ) (call : Call) :
    Phase → Workspace τ δ × Option Call
  | .content =>
    (w, some { call with
      stage := .phase .references documents (Phase.references.jobs documents w) })
  | .references =>
    let toBeValidated := documents.filter fun d => w.shouldValidate d
    let w := w.markAsCompleted (documents.filter fun d => !w.shouldValidate d)
    (w, some { call with
      stage := .phase .validation toBeValidated (Phase.validation.jobs toBeValidated w) })
  | .validation => (w, none)

/-- What a call does next: go on, or, in a phase, run the next task of a document. -/
inductive Work where
  | next
  | task (documentId : ℕ)
  deriving DecidableEq

/-- `n` steps on, and the next `n` tasks of a document. -/
def steps (n : ℕ) : List Work := List.replicate n .next

/-- The next `n` tasks of a document. -/
def tasks (d n : ℕ) : List Work := List.replicate n (.task d)

/-- One step of a call; the call is gone when it returns. -/
def step (L : Language τ δ) (call : Call) (w : Workspace τ δ) :
    Work → Option (Workspace τ δ × Option Call)
  | .next =>
    match call.stage with
    | .starting => some (w, some { call with stage := .deleting call.deleted })
    | .deleting [] => some (w, some { call with stage := .changing call.changed })
    | .deleting (d :: pending) =>
      some (w.deleteDocument d, some { call with stage := .deleting pending })
    | .changing [] => some (w, some { call with stage := .relinking w.all })
    | .changing (d :: pending) =>
      some (w.changeDocument L d, some { call with stage := .changing pending })
    | .relinking [] => some (w.emitUpdate, some { call with stage := .selecting })
    | .relinking (d :: pending) =>
      some (w.relinkDocument call.allChanged d, some { call with stage := .relinking pending })
    | .selecting =>
      let documents := w.documentsToBuild L call.options
      let w := w.prepareBuild documents call.options
      some (w, some (call.buildDocuments documents w))
    | .phase phase documents jobs =>
      if documents.all fun d => (jobs d).isEmpty then some (call.endPhase w documents phase)
      else none
  | .task d =>
    match call.stage with
    | .phase phase documents jobs =>
      match jobs d with
      | task :: rest =>
        some (task.run L d w,
          some { call with stage := .phase phase documents (Function.update jobs d rest) })
      | [] => none
    | _ => none

/-- The call is where it looks at its cancellation token: at the start, before each
document of its loops, before the phases and in them. -/
def cancellable (call : Call) : Bool :=
  match call.stage with
  | .deleting pending | .changing pending | .relinking pending => !pending.isEmpty
  | _ => true

end Call

/-- `build()` up to its phases. -/
def Workspace.reopen (L : Language τ δ) (documents : List ℕ) (options : BuildOptions)
    (w : Workspace τ δ) : Workspace τ δ :=
  ((documents.foldl (Workspace.reopenBuild L options) w).emitUpdate).prepareBuild documents options

/-- `build()`, once in its phases. -/
def Call.build (documents : List ℕ) (options : BuildOptions) (w : Workspace τ δ) : Call :=
  Call.buildDocuments documents w ⟨documents, [], options, .selecting⟩

/-! ### The builder and its callers -/

/-- A workspace, and the call that works on it. -/
structure BuilderState (τ δ : Type) where
  workspace : Workspace τ δ
  call : Option Call

/-- What happens to a workspace: a URI gets its id, texts change, a document is created,
calls are made, work and are stopped, and a reference is read between calls. -/
inductive BuilderEvent (τ : Type) where
  | getOrCreateDocumentId
  | setTextDocument (documentId : ℕ) (text : Option τ)
  | writeFile (documentId : ℕ) (text : τ)
  | getOrCreateDocument (documentId : ℕ)
  | update (changed deleted : List ℕ) (options : BuildOptions)
  | build (documents : List ℕ) (options : BuildOptions)
  | work (work : Call.Work)
  | stop
  | resolve (documentId index : ℕ)

namespace Workspace

/-- A new identifier is handed out. -/
def getOrCreateDocumentId (w : Workspace τ δ) : Workspace τ δ :=
  { w with nextDocumentId := w.nextDocumentId + 1 }

/-- The editor's text of a document changes, or is closed. -/
def setTextDocument (d : ℕ) (text : Option τ) (w : Workspace τ δ) : Workspace τ δ :=
  { w with textDocuments := update w.textDocuments d text }

/-- A file changes on disk. -/
def writeFile (d : ℕ) (text : τ) (w : Workspace τ δ) : Workspace τ δ :=
  { w with files := update w.files d text }

end Workspace

namespace BuilderState

/-- What an event between calls does. -/
def idleStep (L : Language τ δ) (w : Workspace τ δ) : BuilderEvent τ → Option (BuilderState τ δ)
  | .getOrCreateDocument d => some ⟨w.getOrCreateDocument L d, none⟩
  | .update changed deleted options => some ⟨w, some (Call.update changed deleted options)⟩
  | .build documents options =>
    if documents.all fun d => (w.documents d).isSome then
      let w := w.reopen L documents options
      some ⟨w, some (Call.build documents options w)⟩
    else none
  | .resolve d i => some ⟨w.resolve L d i, none⟩
  | _ => none

/-- What an event during a call does. -/
def callStep (L : Language τ δ) (w : Workspace τ δ) (call : Call) :
    BuilderEvent τ → Option (BuilderState τ δ)
  | .work work => (call.step L w work).map fun (w, call) => ⟨w, call⟩
  | .stop => if call.cancellable then some ⟨w, none⟩ else none
  | _ => none

/-- URIs and texts may come at any time. -/
def step (L : Language τ δ) (s : BuilderState τ δ) : BuilderEvent τ → Option (BuilderState τ δ)
  | .getOrCreateDocumentId => some { s with workspace := s.workspace.getOrCreateDocumentId }
  | .setTextDocument d text => some { s with workspace := s.workspace.setTextDocument d text }
  | .writeFile d text => some { s with workspace := s.workspace.writeFile d text }
  | event =>
    match s.call with
    | none => idleStep L s.workspace event
    | some call => callStep L s.workspace call event

/-- The document builder of a language. -/
def machine (L : Language τ δ) : Machine (BuilderState τ δ) (BuilderEvent τ) := ⟨step L⟩

end BuilderState

end Pegium
