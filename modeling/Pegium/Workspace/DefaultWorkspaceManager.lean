/-
Pegium/Workspace/DefaultWorkspaceManager.lean

The workspace manager: its ready promise, and the startup that is to settle it.

`initialize` installs a new promise; `initialized` asks the workspace lock for a
write, whose action discovers the documents of the workspace folders, settles the
promise and builds what was found.  The action is cut into steps: each looks once
at its cancellation token, asks the outside once, or takes one mutex once.  What
the outside answers (the entries of a directory, a document that can be loaded or
not, the result of the build) comes with the event.

A promise is known by its number.  `promises` records what each was given; a promise
takes one completion, and throws at the next.
-/
import Pegium.Workspace.DefaultWorkspaceLock
import Pegium.Workspace.UriUtils

namespace Pegium

open Function (update)

/-! ### Discovery -/

/-- An entry of a folder. -/
structure FileSystemNode where
  isFile : Bool := false
  isDirectory : Bool := false
  uri : Uri
  deriving DecidableEq

/-- The bytes of a text. -/
def utf8Bytes (text : String) : List UInt8 := text.toUTF8.toList

/-- The last name of a path. -/
def filename (path : List UInt8) : List UInt8 := (path.splitOn slash).getLastD []

/-- `shouldIncludeEntry`: a language is responsible for the file, or the directory may have
such files. -/
def shouldIncludeEntry (hasServices : Uri → Bool) (entry : FileSystemNode) : Bool :=
  let fileName := filename ((file_uri_to_path entry.uri).getD entry.uri)
  if fileName = [] ∨ fileName.head? = some 46 then false
  else if entry.isDirectory then fileName ≠ utf8Bytes "node_modules" && fileName ≠ utf8Bytes "out"
  else if !entry.isFile then false
  else hasServices entry.uri

/-! ### What is thrown and published -/

/-- What is thrown: `OperationCancelled`, a `std::exception`, or something else. -/
inductive StartupError where
  | cancelled
  | exception (what : List UInt8)
  | other
  deriving DecidableEq

/-- What can be observed at startup. -/
inductive ObservationCode where
  | workspaceDirectoryReadFailed
  | workspaceBootstrapFailed
  deriving DecidableEq

/-- How severe an observation is. -/
inductive ObservationSeverity where
  | info
  | warning
  | error
  deriving DecidableEq

/-- What is told to the observers. -/
structure Observation where
  severity : ObservationSeverity
  code : ObservationCode
  message : List UInt8
  uri : Uri
  deriving DecidableEq

/-! ### The manager -/

/-- The manager with the promises of its startups. -/
structure DefaultWorkspaceManager where
  readyPromise : ℕ
  readySettled : Bool
  workspaceFolders : Option (List Uri)
  promises : ℕ → List Completion
  observations : List Observation

namespace DefaultWorkspaceManager

/-- A manager with its first promise. -/
def new : DefaultWorkspaceManager := ⟨0, false, none, fun _ => [], []⟩

variable (m : DefaultWorkspaceManager)

/-- A promise is given a value or an exception. -/
def complete (promise : ℕ) (completion : Completion) : DefaultWorkspaceManager :=
  { m with promises := update m.promises promise (m.promises promise ++ [completion]) }

/-- `initialize`: who waits for the promise before is told of it. -/
def initializeManager (workspaceFolders : Option (List Uri)) : DefaultWorkspaceManager :=
  let m := if m.readySettled then m else m.complete m.readyPromise .exception
  { m with
    readyPromise := m.readyPromise + 1
    readySettled := false
    workspaceFolders := workspaceFolders }

/-- `resolveReady` and `rejectReady` under the mutex: the promise to settle. -/
def settle : DefaultWorkspaceManager × Option ℕ :=
  if m.readySettled then (m, none)
  else ({ m with readySettled := true }, some m.readyPromise)

/-- Tell the observers. -/
def publish (observation : Observation) : DefaultWorkspaceManager :=
  { m with observations := m.observations ++ [observation] }

/-- `publish_workspace_bootstrap_failure`. -/
def publishBootstrapFailure (folders : List Uri) (message : List UInt8) :
    DefaultWorkspaceManager :=
  m.publish ⟨.error, .workspaceBootstrapFailed, message, folders.headD []⟩

end DefaultWorkspaceManager

/-! ### The startup -/

/-- A call of `traverseFolder`: before it reads the directory, or with entries left. -/
inductive Traversal where
  | folder (uri : Uri)
  | entries (pending : List FileSystemNode)
  deriving DecidableEq

/-- Where the action of the startup is. -/
inductive StartupStage where
  | entering
  | loadingAdditional
  | inFolders (pending uris : List Uri)
  | traversing (calls : List Traversal) (pending uris : List Uri)
  | collecting (pending uris : List Uri)
  | loading (pending : List Uri)
  | resolving
  | fulfilling (promise : ℕ)
  | rejecting (thrown : StartupError)
  | failing (promise : ℕ) (thrown : StartupError)
  | loaded
  | building
  | built
  | leaving (thrown : StartupError)
  | done (outcome : ActionEnd)
  deriving DecidableEq

/-- What comes from outside. -/
inductive StartupAnswer where
  | goOn
  | entries (nodes : List FileSystemNode)
  | threw (thrown : StartupError)
  deriving DecidableEq

section Startup

variable (fs : FileSystem) (hasServices : Uri → Bool)

/-- `traverseFolder`, one step. -/
def traverse (cancelled : Bool) (m : DefaultWorkspaceManager) (pending uris : List Uri) :
    List Traversal → StartupAnswer → Option (DefaultWorkspaceManager × StartupStage)
  | [], .goOn => some (m, .inFolders pending uris)
  | .folder uri :: calls, answer =>
    if cancelled then some (m, .rejecting .cancelled)
    else
      match answer with
      | .entries nodes => some (m, .traversing (.entries nodes :: calls) pending uris)
      -- A directory that cannot be read has no entries.
      | .threw (.exception what) =>
        some (m.publish ⟨.warning, .workspaceDirectoryReadFailed,
          utf8Bytes "Failure to read directory content of " ++ uri ++ utf8Bytes ": " ++ what, uri⟩,
          .traversing calls pending uris)
      | .threw thrown => some (m, .rejecting thrown)
      | .goOn => none
  | .entries [] :: calls, .goOn => some (m, .traversing calls pending uris)
  | .entries (entry :: nodes) :: calls, .goOn =>
    if cancelled then some (m, .rejecting .cancelled)
    else if !shouldIncludeEntry hasServices entry then
      some (m, .traversing (.entries nodes :: calls) pending uris)
    else if entry.isDirectory then
      some (m, .traversing (.folder entry.uri :: .entries nodes :: calls) pending uris)
    else if entry.isFile then
      some (m, .traversing (.entries nodes :: calls) pending (uris ++ [entry.uri]))
    else some (m, .traversing (.entries nodes :: calls) pending uris)
  | _, _ => none

/-- The write of `initialized`: `performStartup`, `initializeWorkspace` and what is around
them, one step. -/
def StartupStage.step (folders : List Uri) (cancelled : Bool) (m : DefaultWorkspaceManager) :
    StartupStage → StartupAnswer → Option (DefaultWorkspaceManager × StartupStage)
  | .entering, .goOn => some (m, if cancelled then .leaving .cancelled else .loadingAdditional)
  | .loadingAdditional, .goOn =>
    some (m, if cancelled then .rejecting .cancelled else .inFolders folders [])
  | .loadingAdditional, .threw thrown => some (m, .rejecting thrown)
  | .inFolders [] uris, .goOn => some (m, .collecting uris [])
  | .inFolders (folder :: pending) uris, .goOn =>
    if cancelled then some (m, .rejecting .cancelled)
    else
      match normalize_uri fs folder with
      | .error _ => some (m, .rejecting (.exception []))
      | .ok root =>
        if root = [] then some (m, .inFolders pending uris)
        else some (m, .traversing [.folder root] pending uris)
  | .traversing calls pending uris, answer =>
    traverse hasServices cancelled m pending uris calls answer
  | .collecting [] uris, .goOn => some (m, .loading uris)
  | .collecting (uri :: pending) uris, .goOn =>
    if cancelled then some (m, .rejecting .cancelled)
    else some (m, .collecting pending (if uri ∈ uris then uris else uris ++ [uri]))
  | .loading [], .goOn => some (m, .resolving)
  | .loading (_ :: pending), .goOn =>
    some (m, if cancelled then .rejecting .cancelled else .loading pending)
  | .loading (_ :: _), .threw thrown => some (m, .rejecting thrown)
  | .resolving, .goOn =>
    match m.settle with
    | (m, some promise) => some (m, .fulfilling promise)
    | (m, none) => some (m, .loaded)
  | .fulfilling promise, .goOn => some (m.complete promise .value, .loaded)
  | .rejecting thrown, .goOn =>
    match m.settle with
    | (m, some promise) => some (m, .failing promise thrown)
    | (m, none) => some (m, .leaving thrown)
  | .failing promise thrown, .goOn => some (m.complete promise .exception, .leaving thrown)
  | .loaded, .goOn => some (m, if cancelled then .leaving .cancelled else .building)
  | .building, .goOn => some (m, .built)
  | .building, .threw thrown => some (m, .leaving thrown)
  | .built, .goOn => some (m, if cancelled then .leaving .cancelled else .done .returned)
  -- A failure that is no cancellation is published.
  | .leaving .cancelled, .goOn => some (m, .done .cancelled)
  | .leaving (.exception what), .goOn =>
    some (m.publishBootstrapFailure folders
      (utf8Bytes "Workspace initialization failed: " ++ what), .done .threw)
  | .leaving .other, .goOn =>
    some (m.publishBootstrapFailure folders (utf8Bytes "Workspace initialization failed."),
      .done .threw)
  | _, _ => none

end Startup

/-! ### The manager and the lock -/

/-- A call of `initialized`: the folders it read, and the promise then. -/
structure Startup where
  folders : List Uri
  promise : ℕ
  deriving DecidableEq

/-- A manager and its lock.  `startups` tells which calls of the lock are those of
`initialized`; `stage` is where the running one is. -/
structure ManagerState where
  lock : DefaultWorkspaceLock
  manager : DefaultWorkspaceManager
  startups : ℕ → Option Startup
  stage : StartupStage

/-- What happens to the lock, what is called, and what comes from outside for the startup. -/
inductive ManagerEvent where
  | lock (event : LockEvent)
  | initializeManager (workspaceFolders : Option (List Uri))
  | initialized
  | startup (answer : StartupAnswer)

namespace ManagerState

/-- The startup whose action runs. -/
def running (s : ManagerState) : Option (ℕ × Startup) :=
  s.lock.worker.acting?.bind fun w => (s.startups w).map fun startup => (w, startup)

/-- The lock goes on; its next action begins at the beginning. -/
def withLock (s : ManagerState) (lock : DefaultWorkspaceLock) : ManagerState :=
  { s with lock := lock, stage := if lock.worker.acting? = none then .entering else s.stage }

variable (fs : FileSystem) (hasServices : Uri → Bool)

/-- What an event does.  The action of a startup ends where it is done, and does not
downgrade. -/
def step (s : ManagerState) : ManagerEvent → Option ManagerState
  | .lock event =>
    match event, s.running with
    | .endWrite _, some _ | .downgrade, some _ => none
    | event, _ => (s.lock.step event).map s.withLock
  | .initializeManager workspaceFolders =>
    some { s with manager := s.manager.initializeManager workspaceFolders }
  | .initialized =>
    (s.lock.step (.call (.write true))).map fun lock =>
      { s with
        lock := lock
        startups := update s.startups s.lock.calls.length
          (some ⟨s.manager.workspaceFolders.getD [], s.manager.readyPromise⟩) }
  | .startup answer =>
    match s.running, s.stage with
    | some _, .done outcome => (s.lock.step (.endWrite outcome)).map s.withLock
    | some (w, startup), stage =>
      (stage.step fs hasServices startup.folders (s.lock.cancelled w) s.manager answer).map
        fun (manager, stage) => { s with manager := manager, stage := stage }
    | none, _ => none

/-- A workspace manager with its lock. -/
def machine : Machine ManagerState ManagerEvent := ⟨step fs hasServices⟩

/-- A new manager, and a new lock. -/
def initial : ManagerState := ⟨.initial, .new, fun _ => none, .entering⟩

end ManagerState

end Pegium
