/-
Pegium/Workspace/UpdateHandler.lean

From a change in the client to a write of the workspace.

`didChangeContent` and `didChangeWatchedFiles` fire a document update; a task of
its own takes it to the workspace lock, in no particular order.  The lock runs its
writes one after the other, and asks the previous one to stop whenever a new one
is queued.  A write may stop at each point where it looks at its token.

An update carries the ids it changes and deletes, which are different.  One that
comes from a change of content also carries the new text, and is skipped when the
document has that text already.
-/
import Pegium.Workspace.Phases

namespace Pegium

open Function (update)

/-! ### The workspace lock -/

/-- A write, and whether it has been asked to stop. -/
structure WriteEntry (α : Type) where
  action : α
  stopRequested : Bool
  deriving DecidableEq

/-- `DefaultWorkspaceLock`: the writes that wait, and the one that runs. -/
structure WorkspaceLock (α : Type) where
  writeQueue : List (WriteEntry α)
  running : Option (WriteEntry α)
  deriving DecidableEq

namespace WorkspaceLock

variable {α : Type} {lock : WorkspaceLock α}

def requestStop (entry : WriteEntry α) : WriteEntry α := { entry with stopRequested := true }

/-- The last write that waits, asked to stop. -/
def stopLast : List (WriteEntry α) → List (WriteEntry α)
  | [] => []
  | [entry] => [requestStop entry]
  | entry :: next :: queue => entry :: stopLast (next :: queue)

/-- `write`: the previous write, waiting or running, is asked to stop. -/
def write (action : α) (lock : WorkspaceLock α) : WorkspaceLock α :=
  { writeQueue := stopLast lock.writeQueue ++ [⟨action, false⟩]
    running := if lock.writeQueue = [] then lock.running.map requestStop else lock.running }

/-- The worker takes the next write. -/
def pop (lock : WorkspaceLock α) : Option (WorkspaceLock α) :=
  match lock.running, lock.writeQueue with
  | none, entry :: queue => some ⟨queue, some entry⟩
  | _, _ => none

/-- The running write returns. -/
def finish (lock : WorkspaceLock α) : WorkspaceLock α := { lock with running := none }

/-- No write is asked to stop before there is another one after it. -/
structure Superseding (lock : WorkspaceLock α) : Prop where
  last : ∀ entry, lock.writeQueue.getLast? = some entry → entry.stopRequested = false
  running : lock.writeQueue = [] → ∀ entry, lock.running = some entry →
    entry.stopRequested = false

theorem superseding_write (action : α) : (lock.write action).Superseding where
  last entry h := by
    simp only [write, List.getLast?_concat, Option.some.injEq] at h
    rw [← h]
  running h := absurd h (List.append_ne_nil_of_right_ne_nil _ (List.cons_ne_nil _ _))

theorem Superseding.pop {lock' : WorkspaceLock α} (h : lock.Superseding)
    (hpop : lock.pop = some lock') : lock'.Superseding := by
  simp only [WorkspaceLock.pop] at hpop
  split at hpop
  · rename_i entry queue _ hqueue
    cases hpop
    rcases queue with - | ⟨next, queue⟩
    · refine ⟨nofun, fun _ entry' he => ?_⟩
      cases he
      exact h.last entry (by rw [hqueue]; rfl)
    · refine ⟨fun last hlast => h.last last ?_, nofun⟩
      rw [hqueue, ← hlast]
      rfl
  · cases hpop

theorem Superseding.finish (h : lock.Superseding) : lock.finish.Superseding := ⟨h.last, nofun⟩

theorem mem_stopLast {queue : List (WriteEntry α)} {action : α} :
    (∃ entry ∈ stopLast queue, entry.action = action) ↔ ∃ entry ∈ queue, entry.action = action := by
  induction queue using stopLast.induct with
  | case1 => rfl
  | case2 entry => simp [stopLast, requestStop]
  | case3 entry next queue ih =>
    simp only [stopLast, List.mem_cons, exists_eq_or_imp] at ih ⊢
    rw [ih]

end WorkspaceLock

/-! ### Updates -/

variable {τ δ : Type}

/-- An update that was fired. -/
structure DocumentUpdate (τ : Type) where
  changed : List ℕ
  deleted : List ℕ
  redundantWhenUnchanged : Option (ℕ × τ)
  disjoint : ∀ d ∈ changed, d ∉ deleted

/-- The update of `didChangeContent`. -/
def DocumentUpdate.ofContent (d : ℕ) (text : τ) : DocumentUpdate τ :=
  ⟨[d], [], some (d, text), fun _ _ => List.not_mem_nil⟩

/-- The options of an update, unless the configuration of a language says otherwise. -/
def updateBuildOptions : BuildOptions := ⟨none, .options ⟨["built-in", "fast"], none, none⟩⟩

/-- What the client sends, and what the tasks, the worker and the running write do. -/
inductive HandlerEvent (τ : Type) where
  | getOrCreateDocumentId
  | changeContent (documentId : ℕ) (text : τ)
  | writeFile (documentId : ℕ) (text : τ)
  | changeWatchedFiles (changed deleted : List ℕ)
  | write (index : ℕ)
  | pop
  | begin
  | work (work : Call.Work)
  | stop

/-- A workspace, the updates on their way to the lock, the lock, and how far the
running write is: `call` is empty until it begins. -/
structure HandlerState (τ δ : Type) where
  workspace : Workspace τ δ
  dispatches : List (DocumentUpdate τ)
  lock : WorkspaceLock (DocumentUpdate τ)
  call : Option Call

namespace Workspace

/-- `is_redundant_text_snapshot`. -/
def isRedundant [DecidableEq τ] (d : ℕ) (text : τ) (w : Workspace τ δ) : Bool :=
  match w.documents d with
  | none => false
  | some document =>
    match document.parseResult with
    | some result => decide (result.cstText = text)
    | none => decide (document.textDocument = text)

/-- The options of an update, with the validation that is configured for the language of
the document in a batch of one. -/
def effectiveOptions (configuration : ℕ → Option BuildValidationOption)
    (u : DocumentUpdate τ) (w : Workspace τ δ) : BuildOptions :=
  match u.changed ++ u.deleted with
  | [d] =>
    match w.documents d, configuration d with
    | some _, some validation => { updateBuildOptions with validation := validation }
    | _, _ => updateBuildOptions
  | _ => updateBuildOptions

end Workspace

namespace HandlerState

variable [DecidableEq τ] (L : Language τ δ) (configuration : ℕ → Option BuildValidationOption)

/-- The write is redundant: it was fired for a text that the document has already. -/
def redundant (u : DocumentUpdate τ) (w : Workspace τ δ) : Bool :=
  match u.redundantWhenUnchanged with
  | some (d, text) => w.isRedundant d text
  | none => false

/-- The running write returns. -/
def finish (s : HandlerState τ δ) (w : Workspace τ δ) : HandlerState τ δ :=
  { s with workspace := w, lock := s.lock.finish, call := none }

def step (s : HandlerState τ δ) : HandlerEvent τ → Option (HandlerState τ δ)
  | .getOrCreateDocumentId =>
    some { s with
      workspace := { s.workspace with nextDocumentId := s.workspace.nextDocumentId + 1 } }
  | .changeContent d text =>
    if d < s.workspace.nextDocumentId then
      some { s with
        workspace := { s.workspace with
          textDocuments := update s.workspace.textDocuments d (some text) }
        dispatches := s.dispatches ++ [.ofContent d text] }
    else none
  | .writeFile d text =>
    some { s with workspace := { s.workspace with files := update s.workspace.files d text } }
  | .changeWatchedFiles changed deleted =>
    if h : ∀ d ∈ changed, d ∉ deleted then
      some { s with dispatches := s.dispatches ++ [⟨changed, deleted, none, h⟩] }
    else none
  | .write index =>
    s.dispatches[index]?.map fun u =>
      { s with dispatches := s.dispatches.eraseIdx index, lock := s.lock.write u }
  | .pop => s.lock.pop.map fun lock => { s with lock := lock, call := none }
  | .begin =>
    match s.lock.running, s.call with
    | some entry, none =>
      let u := entry.action
      if redundant u s.workspace then some (s.finish s.workspace)
      else some { s with
        call := some (Call.update u.changed u.deleted
          (s.workspace.effectiveOptions configuration u)) }
    | _, _ => none
  | .work work =>
    match s.call with
    | some call =>
      (call.step L s.workspace work).map fun
        | (w, some call) => { s with workspace := w, call := some call }
        | (w, none) => s.finish w
    | none => none
  | .stop =>
    match s.lock.running, s.call with
    | some entry, none => if entry.stopRequested then some (s.finish s.workspace) else none
    | some entry, some call =>
      if entry.stopRequested && call.cancellable then some (s.finish s.workspace) else none
    | none, _ => none

/-- The update handler of a language, with the validation that is configured. -/
def machine : Machine (HandlerState τ δ) (HandlerEvent τ) := ⟨step L configuration⟩

/-- Nothing was fired that is not done. -/
def Drained (s : HandlerState τ δ) : Prop :=
  s.dispatches = [] ∧ s.lock.writeQueue = [] ∧ s.lock.running = none

omit [DecidableEq τ] in
theorem drained_iff {s : HandlerState τ δ} : s.Drained ↔
    (s.dispatches.isEmpty && s.lock.writeQueue.isEmpty && s.lock.running.isNone) = true := by
  simp only [Drained, Bool.and_eq_true, List.isEmpty_iff, Option.isNone_iff_eq_none, and_assoc]

/-- A workspace with nothing to do. -/
def initial (w : Workspace τ δ) : HandlerState τ δ := ⟨w, [], ⟨[], none⟩, none⟩

end HandlerState

end Pegium
