/-
Pegium/Workspace/Phases.lean

What the tasks of a phase do, and that a phase gets its documents where it says.

A task changes its own document (`Task.run_documents`) and what the workspace
holds for it.  The tasks a document has left and its state belong together
(`Phase.Fits`); a step of a phase keeps this, and when the tasks of a document
run out it has reached the end of the phase.  So a call that goes through its
phases with linking and validation on leaves its documents validated.
-/
import Pegium.Workspace.Build

namespace Pegium

open Function (update)

variable {τ δ : Type} {L : Language τ δ} {w : Workspace τ δ} {d : ℕ}

/-! ### Tasks -/

namespace Workspace

theorem resolveLink_parseResult (i : ℕ) (document : Document τ δ) :
    (w.resolveLink L d i document).parseResult = document.parseResult := by
  rw [resolveLink]
  split <;> rfl

theorem resolveLink_state (i : ℕ) (document : Document τ δ) :
    (w.resolveLink L d i document).state = document.state := by
  rw [resolveLink]
  split <;> rfl

theorem resolveLink_localSymbols (i : ℕ) (document : Document τ δ) :
    (w.resolveLink L d i document).localSymbols = document.localSymbols := by
  rw [resolveLink]
  split <;> rfl

end Workspace

/-- What a task does to its document. -/
def Task.onDocument (L : Language τ δ) (d : ℕ) (w : Workspace τ δ) :
    Task → Document τ δ → Document τ δ
  | attach, document => document.attach (w.latestText d)
  | parse, document => document.parse L w.nextGeneration
  | updateContent, document => { document with state := .indexedContent }
  | computeScopes, document => { document with localSymbols := true, state := .computedScopes }
  | resolve i, document => w.resolveLink L d i document
  | linked, document => { document with state := .linked }
  | updateReferences, document => { document with state := .indexedReferences }
  | validate, document =>
    { document with
      diagnostics := document.diagnostics ++ Workspace.validateDocument L document
        (Workspace.validationOptions (w.getBuildOptions d).validation
          (w.findMissing L d (w.getBuildOptions d)))
      state := .validated }

/-- The tasks that give a document a new parse result. -/
def Task.parses : Task → Bool
  | attach | parse => true
  | _ => false

theorem Task.parseResult_onDocument {task : Task} (h : task.parses = false)
    (document : Document τ δ) :
    (task.onDocument L d w document).parseResult = document.parseResult := by
  cases task with
  | attach | parse => cases h
  | resolve i => exact Workspace.resolveLink_parseResult i document
  | _ => rfl

/-- **A task changes its own document only.** -/
theorem Task.run_documents (task : Task) :
    (task.run L d w).documents
      = update w.documents d ((w.documents d).map (task.onDocument L d w)) := by
  cases task <;> rfl

theorem Task.run_document (task : Task) {document : Document τ δ}
    (h : w.documents d = some document) :
    (task.run L d w).documents d = some (task.onDocument L d w document) := by
  rw [run_documents, Function.update_self, h]
  rfl

theorem Task.run_documents_ne (task : Task) {d' : ℕ} (h : d' ≠ d) :
    (task.run L d w).documents d' = w.documents d' := by
  rw [run_documents, Function.update_of_ne h]

/-- What the workspace keeps for other documents, and what it does not keep by document. -/
structure Workspace.SameElsewhere (d : ℕ) (w w' : Workspace τ δ) : Prop where
  documents : ∀ d' ≠ d, w'.documents d' = w.documents d'
  exports : ∀ d' ≠ d, w'.exportsByDocument d' = w.exportsByDocument d'
  references : ∀ d' ≠ d, w'.referencesByDocument d' = w.referencesByDocument d'
  buildStates : ∀ d' ≠ d, w'.buildStateByDocumentId d' = w.buildStateByDocumentId d'
  textDocuments : w'.textDocuments = w.textDocuments
  files : w'.files = w.files
  nextDocumentId : w'.nextDocumentId = w.nextDocumentId

namespace Workspace

theorem SameElsewhere.refl (w : Workspace τ δ) : w.SameElsewhere d w :=
  ⟨fun _ _ => rfl, fun _ _ => rfl, fun _ _ => rfl, fun _ _ => rfl, rfl, rfl, rfl⟩

theorem SameElsewhere.trans {w' w'' : Workspace τ δ} (h : w.SameElsewhere d w')
    (h' : w'.SameElsewhere d w'') : w.SameElsewhere d w'' where
  documents d' hd := (h'.documents d' hd).trans (h.documents d' hd)
  exports d' hd := (h'.exports d' hd).trans (h.exports d' hd)
  references d' hd := (h'.references d' hd).trans (h.references d' hd)
  buildStates d' hd := (h'.buildStates d' hd).trans (h.buildStates d' hd)
  textDocuments := h'.textDocuments.trans h.textDocuments
  files := h'.files.trans h.files
  nextDocumentId := h'.nextDocumentId.trans h.nextDocumentId

theorem sameElsewhere_resetToState (state : DocumentState) :
    w.SameElsewhere d (w.resetToState d state) := by
  constructor
  · exact fun d' hd => Function.update_of_ne hd _ _
  all_goals
    intros
    simp only [resetToState, mapDocument]
    try split
  all_goals first
    | rfl
    | exact Function.update_of_ne ‹_› _ _

theorem sameElsewhere_deleteDocument : w.SameElsewhere d (w.deleteDocument d) := by
  constructor <;> intros <;>
    first
    | rfl
    | exact Function.update_of_ne ‹_› _ _

theorem sameElsewhere_getOrCreateDocument : w.SameElsewhere d (w.getOrCreateDocument L d) := by
  simp only [getOrCreateDocument]
  split
  · exact .refl w
  · split
    · constructor <;> intros <;>
        first
        | rfl
        | exact Function.update_of_ne ‹_› _ _
    · exact .refl w

theorem sameElsewhere_changeDocument : w.SameElsewhere d (w.changeDocument L d) := by
  simp only [changeDocument]
  split
  · exact sameElsewhere_getOrCreateDocument.trans (sameElsewhere_resetToState _)
  · exact sameElsewhere_getOrCreateDocument

theorem sameElsewhere_relinkDocument (changed : List ℕ) :
    w.SameElsewhere d (w.relinkDocument changed d) := by
  simp only [relinkDocument]
  split
  · exact sameElsewhere_resetToState _
  · exact .refl w

/-- The relink test looks at one document. -/
theorem SameElsewhere.shouldRelink {w' : Workspace τ δ} (h : w.SameElsewhere d w') {d' : ℕ}
    (hd : d' ≠ d) (changed : List ℕ) : w'.shouldRelink changed d' = w.shouldRelink changed d' := by
  simp only [Workspace.shouldRelink, isAffected, h.documents d' hd, h.references d' hd]

end Workspace

/-- **A task is about one document.** -/
theorem Task.run_sameElsewhere (task : Task) : w.SameElsewhere d (task.run L d w) := by
  cases task <;> constructor <;> intros <;>
    first
    | rfl
    | exact Function.update_of_ne ‹_› _ _

theorem Task.isSome_run_documents (task : Task) (d' : ℕ) :
    ((task.run L d w).documents d').isSome = (w.documents d').isSome := by
  rw [run_documents, Function.update_apply]
  split
  · rename_i h
    rw [Option.isSome_map, h]
  · rfl

theorem Workspace.getBuildOptions_validate (d' : ℕ) :
    (w.validate L d).getBuildOptions d' = w.getBuildOptions d' := by
  by_cases h : d' = d
  · subst h
    simp only [getBuildOptions, validate, Function.update_self, Option.map_some, Option.getD_some]
    cases w.buildStateByDocumentId d' <;> rfl
  · simp only [getBuildOptions, validate, Function.update_of_ne h]

theorem Task.getBuildOptions_run (task : Task) (d' : ℕ) :
    (task.run L d w).getBuildOptions d' = w.getBuildOptions d' := by
  cases task with
  | validate => exact Workspace.getBuildOptions_validate d'
  | _ => rfl

theorem Task.shouldLink_run (task : Task) (d' : ℕ) :
    (task.run L d w).shouldLink d' = w.shouldLink d' :=
  congrArg (fun options => options.eagerLinking.getD true) (task.getBuildOptions_run d')

/-! ### The tasks that are left -/

/-- The tasks a document has left in a phase, and its state. -/
inductive Phase.Fits (link : Bool) : Phase → List Task → DocumentState → Prop
  | attach {s} (h : s = .changed) : Fits link .content [.attach, .parse, .updateContent] s
  | parse {s} (h : s = .changed) : Fits link .content [.parse, .updateContent] s
  | updateContent {s} (h : s = .parsed) : Fits link .content [.updateContent] s
  | contentDone {s} (h : .indexedContent ≤ s) : Fits link .content [] s
  | computeScopes {s} (n : ℕ) (h : s = .indexedContent) :
      Fits link .references
        (.computeScopes :: if link then linkTasks n ++ [.updateReferences] else []) s
  | link {s} (is : List ℕ) (hl : link = true) (h : s = .computedScopes) :
      Fits link .references (is.map .resolve ++ [.linked] ++ [.updateReferences]) s
  | updateReferences {s} (hl : link = true) (h : s = .linked) :
      Fits link .references [.updateReferences] s
  | referencesDone {s} (h : .computedScopes ≤ s) (hl : link = true → .indexedReferences ≤ s) :
      Fits link .references [] s
  | validate {s} (h : .computedScopes ≤ s) (h' : s < .validated) :
      Fits link .validation [.validate] s
  | validated {s} (h : s = .validated) : Fits link .validation [] s

namespace Phase

open DocumentState

/-- Running the first task leaves the rest of them and the state it leads to. -/
theorem Fits.run {link : Bool} {phase : Phase} {task : Task} {rest : List Task}
    {document : Document τ δ} (h : Fits link phase (task :: rest) document.state) :
    Fits link phase rest (task.onDocument L d w document).state := by
  generalize htasks : task :: rest = tasks at h
  generalize hs : document.state = s at h
  cases h with
  | attach _ =>
    cases htasks
    exact .parse rfl
  | parse _ =>
    cases htasks
    exact .updateContent rfl
  | updateContent _ =>
    cases htasks
    exact .contentDone (le_refl _)
  | contentDone _ => cases htasks
  | computeScopes n _ =>
    cases htasks
    split
    · rename_i hl
      exact .link _ hl rfl
    · rename_i hl
      exact .referencesDone (le_refl _) fun h => absurd h hl
  | link is hl h =>
    rcases is with - | ⟨i, is⟩
    · cases htasks
      exact .updateReferences hl rfl
    · cases htasks
      refine .link is hl ?_
      show (w.resolveLink L d i document).state = _
      rw [Workspace.resolveLink_state, hs, h]
  | updateReferences hl _ =>
    cases htasks
    exact .referencesDone (show computedScopes ≤ indexedReferences by decide) fun _ => le_refl _
  | referencesDone _ _ => cases htasks
  | validate _ _ =>
    cases htasks
    exact .validated rfl
  | validated _ => cases htasks

/-- The states in which a task finds its document. -/
def Entry : Task → DocumentState → Prop
  | .attach, s | .parse, s => s = .changed
  | .updateContent, s => s = .parsed
  | .computeScopes, s => s = .indexedContent
  | .resolve _, s | .linked, s => s = .computedScopes
  | .updateReferences, s => s = .linked
  | .validate, s => .computedScopes ≤ s

theorem Entry.parsed_le {task : Task} {s : DocumentState} (h : Entry task s)
    (hp : task.parses = false) : .parsed ≤ s := by
  cases task with
  | attach | parse => cases hp
  | validate => exact le_trans (show parsed ≤ computedScopes by decide) h
  | _ =>
    cases h
    decide

theorem Fits.entry {link : Bool} {phase : Phase} {task : Task} {rest : List Task}
    {s : DocumentState} (h : Fits link phase (task :: rest) s) : Entry task s := by
  generalize htasks : task :: rest = tasks at h
  cases h with
  | attach h =>
    cases htasks
    exact h
  | parse h =>
    cases htasks
    exact h
  | updateContent h =>
    cases htasks
    exact h
  | contentDone _ => cases htasks
  | computeScopes n h =>
    cases htasks
    exact h
  | link is hl h =>
    rcases is with - | ⟨i, is⟩
    · cases htasks
      exact h
    · cases htasks
      exact h
  | updateReferences hl h =>
    cases htasks
    exact h
  | referencesDone _ _ => cases htasks
  | validate h _ =>
    cases htasks
    exact h
  | validated _ => cases htasks

/-- Only the content phase parses. -/
theorem Fits.content_of_parse {link : Bool} {phase : Phase} {rest : List Task} {s : DocumentState}
    (h : Fits link phase (.parse :: rest) s) : phase = .content := by
  generalize htasks : Task.parse :: rest = tasks at h
  cases h with
  | link is _ _ => cases is <;> cases htasks
  | parse _ => rfl
  | _ => cases htasks

/-- What is parsed has been attached. -/
theorem Fits.attach_of_parse {link : Bool} {phase : Phase} {task : Task} {rest : List Task}
    {s : DocumentState} (h : Fits link phase (task :: .parse :: rest) s) : task = .attach := by
  generalize htasks : task :: Task.parse :: rest = tasks at h
  cases h with
  | attach _ =>
    cases htasks
    rfl
  | computeScopes n _ =>
    cases link with
    | true =>
      obtain ⟨-, htasks⟩ := List.cons.inj htasks
      rcases n with - | n
      · cases htasks
      · rw [if_pos rfl, linkTasks, List.range_succ_eq_map] at htasks
        cases htasks
    | false => cases htasks
  | link is _ _ =>
    rcases is with - | ⟨i, - | ⟨j, is⟩⟩ <;> cases htasks
  | _ => cases htasks

/-- What a document has reached when no task of a phase is left to it. -/
def Reached (link : Bool) : Phase → DocumentState → Prop
  | .content, s => .indexedContent ≤ s
  | .references, s => .computedScopes ≤ s ∧ (link = true → .indexedReferences ≤ s)
  | .validation, s => s = .validated

theorem Fits.reached {link : Bool} {phase : Phase} {s : DocumentState}
    (h : Fits link phase [] s) : Reached link phase s := by
  generalize htasks : ([] : List Task) = tasks at h
  cases h with
  | contentDone h => exact h
  | referencesDone h hl => exact ⟨h, hl⟩
  | validated h => exact h
  | link is _ _ => cases is <;> cases htasks
  | _ => cases htasks

/-- Each document of a phase is in the store, in the state that fits its tasks. -/
structure Ready (w : Workspace τ δ) (phase : Phase) (documents : List ℕ) (jobs : ℕ → List Task) :
    Prop where
  inStore : ∀ d ∈ documents, (w.documents d).isSome
  fits : ∀ d ∈ documents, ∀ document, w.documents d = some document →
    Fits (w.shouldLink d) phase (jobs d) document.state
  others : ∀ d ∉ documents, jobs d = []

variable {phase : Phase} {documents : List ℕ} {jobs : ℕ → List Task}

/-- The documents of a phase, when it begins. -/
theorem Ready.of_jobs (inStore : ∀ d ∈ documents, (w.documents d).isSome)
    (fits : ∀ d ∈ documents, ∀ document, w.documents d = some document →
      Fits (w.shouldLink d) phase (phase.tasks d w) document.state) :
    Ready w phase documents (phase.jobs documents w) where
  inStore := inStore
  fits d hd document h := by
    rw [jobs, if_pos hd]
    exact fits d hd document h
  others d hd := if_neg hd

theorem Ready.congr {w' : Workspace τ δ} (h : Ready w phase documents jobs)
    (hdocuments : w'.documents = w.documents)
    (states : w'.buildStateByDocumentId = w.buildStateByDocumentId) :
    Ready w' phase documents jobs where
  inStore d hd := by
    rw [hdocuments]
    exact h.inStore d hd
  fits d hd document hdocument := by
    have hlink : w'.shouldLink d = w.shouldLink d := by
      simp only [Workspace.shouldLink, Workspace.getBuildOptions, states]
    rw [hlink]
    exact h.fits d hd document (hdocuments ▸ hdocument)
  others := h.others

theorem Ready.content (inStore : ∀ d ∈ documents, (w.documents d).isSome) :
    Ready w .content documents (Phase.content.jobs documents w) := by
  refine .of_jobs inStore fun d _ document h => ?_
  simp only [tasks, h]
  cases hs : document.state with
  | changed => exact .attach rfl
  | parsed => exact .updateContent rfl
  | _ => exact .contentDone (by decide)

/-- A document with a task left is one of the phase, and in a state for the task. -/
theorem Ready.entry (h : Ready w phase documents jobs) {task : Task} {rest : List Task}
    (hd : jobs d = task :: rest) :
    d ∈ documents ∧ ∃ document, w.documents d = some document ∧ Entry task document.state := by
  have hmem : d ∈ documents := by
    by_contra hno
    rw [h.others d hno] at hd
    cases hd
  obtain ⟨document, hdocument⟩ := Option.isSome_iff_exists.mp (h.inStore d hmem)
  exact ⟨hmem, document, hdocument, (hd ▸ h.fits d hmem document hdocument).entry⟩

/-- **A step of a phase.** -/
theorem Ready.run (h : Ready w phase documents jobs) {task : Task} {rest : List Task}
    (hd : jobs d = task :: rest) :
    Ready (task.run L d w) phase documents (update jobs d rest) := by
  obtain ⟨hmem, -⟩ := h.entry hd
  refine ⟨fun d' hd' => ?_, fun d' hd' document' h' => ?_, fun d' hd' => ?_⟩
  · rw [task.isSome_run_documents]
    exact h.inStore d' hd'
  · rw [task.shouldLink_run]
    by_cases hdd : d' = d
    · subst hdd
      rw [task.run_documents, Function.update_self] at h'
      obtain ⟨document, hdocument, rfl⟩ := Option.map_eq_some_iff.mp h'
      rw [Function.update_self]
      exact (hd ▸ h.fits d' hd' document hdocument).run
    · rw [task.run_documents_ne hdd] at h'
      rw [Function.update_of_ne hdd]
      exact h.fits d' hd' document' h'
  · have hdd : d' ≠ d := fun e => hd' (e ▸ hmem)
    rw [Function.update_of_ne hdd]
    exact h.others d' hd'

/-- A phase without tasks left. -/
def Over (documents : List ℕ) (jobs : ℕ → List Task) : Prop := ∀ d ∈ documents, jobs d = []

theorem over_iff : (documents.all fun d => (jobs d).isEmpty) = true ↔ Over documents jobs := by
  simp only [List.all_eq_true, List.isEmpty_iff, Over]

/-- What the documents of a phase have reached when it is over. -/
theorem Ready.reached (h : Ready w phase documents jobs) (hover : Over documents jobs)
    (hd : d ∈ documents) {document : Document τ δ} (hdocument : w.documents d = some document) :
    Reached (w.shouldLink d) phase document.state := by
  have hfits := h.fits d hd document hdocument
  rw [hover d hd] at hfits
  exact hfits.reached

theorem Ready.references (h : Ready w .content documents jobs) (hover : Over documents jobs) :
    Ready w .references documents (Phase.references.jobs documents w) := by
  refine .of_jobs h.inStore fun d hd document hdocument => ?_
  have hle : .indexedContent ≤ document.state := h.reached hover hd hdocument
  simp only [tasks, hdocument]
  cases hs : document.state with
  | changed => exact absurd (hs ▸ hle) (by decide)
  | parsed => exact absurd (hs ▸ hle) (by decide)
  | indexedContent =>
    cases hl : w.shouldLink d
    · exact .computeScopes 0 rfl
    · exact .computeScopes _ rfl
  | computedScopes =>
    cases hl : w.shouldLink d
    · exact .referencesDone (by decide) (by rintro ⟨⟩)
    · exact .link _ rfl rfl
  | linked =>
    cases hl : w.shouldLink d
    · exact .referencesDone (by decide) (by rintro ⟨⟩)
    · exact .updateReferences rfl rfl
  | indexedReferences => cases w.shouldLink d <;> exact .referencesDone (by decide) (by decide)
  | validated => cases w.shouldLink d <;> exact .referencesDone (by decide) (by decide)

theorem Ready.validation (h : Ready w .references documents jobs) (hover : Over documents jobs)
    (marked : List ℕ) {validated : List ℕ} (sub : ∀ d ∈ validated, d ∈ documents) :
    Ready (w.markAsCompleted marked) .validation validated
      (Phase.validation.jobs validated (w.markAsCompleted marked)) := by
  refine .of_jobs (fun d hd => h.inStore d (sub d hd)) fun d hd document hdocument => ?_
  obtain ⟨hle, -⟩ := h.reached hover (sub d hd) hdocument
  simp only [tasks, hdocument]
  cases hs : document.state with
  | validated => exact .validated rfl
  | _ => exact .validate (hs ▸ hle) (by decide)

end Phase

/-! ### The steps of a call -/

namespace Call

/-- What one step of a call does. -/
inductive Does (L : Language τ δ) (call : Call) (w : Workspace τ δ) :
    Workspace τ δ → Option Call → Prop
  | start (h : call.stage = .starting) :
      Does L call w w (some { call with stage := .deleting call.deleted })
  | delete (d : ℕ) (pending : List ℕ) (h : call.stage = .deleting (d :: pending)) :
      Does L call w (w.deleteDocument d) (some { call with stage := .deleting pending })
  | deleted (h : call.stage = .deleting []) :
      Does L call w w (some { call with stage := .changing call.changed })
  | change (d : ℕ) (pending : List ℕ) (h : call.stage = .changing (d :: pending)) :
      Does L call w (w.changeDocument L d) (some { call with stage := .changing pending })
  | changed (h : call.stage = .changing []) :
      Does L call w w (some { call with stage := .relinking w.all })
  | relink (d : ℕ) (pending : List ℕ) (h : call.stage = .relinking (d :: pending)) :
      Does L call w (w.relinkDocument call.allChanged d)
        (some { call with stage := .relinking pending })
  | relinked (h : call.stage = .relinking []) :
      Does L call w w.emitUpdate (some { call with stage := .selecting })
  | select (documents : List ℕ) (h : call.stage = .selecting)
      (hdocuments : documents = w.documentsToBuild L call.options) :
      Does L call w (w.prepareBuild documents call.options)
        (some (call.buildDocuments documents (w.prepareBuild documents call.options)))
  | task {phase : Phase} {documents : List ℕ} {jobs : ℕ → List Task} (d : ℕ) (task : Task)
      (rest : List Task) (h : call.stage = .phase phase documents jobs)
      (hjobs : jobs d = task :: rest) :
      Does L call w (task.run L d w)
        (some { call with stage := .phase phase documents (Function.update jobs d rest) })
  | endPhase {documents : List ℕ} {jobs : ℕ → List Task} (phase : Phase)
      (h : call.stage = .phase phase documents jobs) (hover : Phase.Over documents jobs) :
      Does L call w (call.endPhase w documents phase).1 (call.endPhase w documents phase).2

variable {call : Call} {w' : Workspace τ δ} {call' : Option Call} {work : Work}

theorem does_of_step (h : call.step L w work = some (w', call')) : Does L call w w' call' := by
  cases work with
  | next =>
    simp only [step] at h
    split at h
    · rename_i hs
      cases h
      exact .start hs
    · rename_i hs
      cases h
      exact .deleted hs
    · rename_i hs
      cases h
      exact .delete _ _ hs
    · rename_i hs
      cases h
      exact .changed hs
    · rename_i hs
      cases h
      exact .change _ _ hs
    · rename_i hs
      cases h
      exact .relinked hs
    · rename_i hs
      cases h
      exact .relink _ _ hs
    · rename_i hs
      cases h
      exact .select _ hs rfl
    · rename_i phase documents jobs hs
      split at h
      · rename_i hover
        have hend := Option.some.inj h
        rw [show w' = _ from (congrArg Prod.fst hend).symm,
          show call' = _ from (congrArg Prod.snd hend).symm]
        exact .endPhase phase hs (Phase.over_iff.mp hover)
      · cases h
  | task d =>
    simp only [step] at h
    split at h
    · rename_i hs
      split at h
      · rename_i hjobs
        cases h
        exact .task d _ _ hs hjobs
      · cases h
    · cases h

end Call

/-! ### Calls that link and validate -/

/-- Options that link and validate. -/
def BuildOptions.Full (options : BuildOptions) : Prop :=
  options.eagerLinking.getD true = true ∧ options.validation.isEnabled = true

/-- The builds that are known have such options, and stored documents have a URI. -/
structure Workspace.Full (w : Workspace τ δ) : Prop where
  options : ∀ d state, w.buildStateByDocumentId d = some state → state.options.Full
  registered : ∀ d, (w.documents d).isSome → d < w.nextDocumentId

namespace Workspace

theorem resetToState_documents (state : DocumentState) :
    (w.resetToState d state).documents
      = update w.documents d ((w.documents d).map (Document.resetTo state)) := rfl

theorem isSome_update_map {α : Type} (f : α → α) (m : ℕ → Option α) (d d' : ℕ) :
    (update m d ((m d).map f) d').isSome = (m d').isSome := by
  rw [Function.update_apply]
  split
  · rename_i h
    rw [Option.isSome_map, h]
  · rfl

theorem Full.mono {w' : Workspace τ δ} (hw : w.Full)
    (states : ∀ d state, w'.buildStateByDocumentId d = some state →
      ∃ state', w.buildStateByDocumentId d = some state' ∧ state.options = state'.options)
    (stored : ∀ d, (w'.documents d).isSome → (w.documents d).isSome)
    (ids : w.nextDocumentId ≤ w'.nextDocumentId) : w'.Full where
  options d state h := by
    obtain ⟨state', h', heq⟩ := states d state h
    exact heq ▸ hw.options d state' h'
  registered d h := Nat.lt_of_lt_of_le (hw.registered d (stored d h)) ids

theorem Full.resetToState (hw : w.Full) (state : DocumentState) :
    (w.resetToState d state).Full := by
  refine hw.mono (fun d' bs h => ⟨bs, ?_, rfl⟩) (fun d' h => ?_) (Nat.le_refl _)
  · simp only [Workspace.resetToState] at h
    split at h
    · rw [Function.update_apply] at h
      split at h
      · cases h
      · exact h
    · exact h
  · rwa [resetToState_documents, isSome_update_map] at h

theorem Full.deleteDocument (hw : w.Full) : (w.deleteDocument d).Full := by
  refine hw.mono (fun d' bs h => ⟨bs, ?_, rfl⟩) (fun d' h => ?_) (Nat.le_refl _)
  · simp only [Workspace.deleteDocument, Function.update_apply] at h
    split at h
    · cases h
    · exact h
  · simp only [Workspace.deleteDocument, Function.update_apply] at h
    split at h
    · cases h
    · exact h

theorem Full.getOrCreateDocument (hw : w.Full) : (w.getOrCreateDocument L d).Full := by
  rcases hd : w.documents d with - | document
  · by_cases hlt : d < w.nextDocumentId
    · refine ⟨fun d' bs h => ?_, fun d' h => ?_⟩
      · simp only [Workspace.getOrCreateDocument, hd, if_pos hlt] at h
        exact hw.options d' bs h
      · simp only [Workspace.getOrCreateDocument, hd, if_pos hlt, Function.update_apply] at h ⊢
        split at h
        · rename_i heq
          exact heq ▸ hlt
        · exact hw.registered d' h
    · simpa only [Workspace.getOrCreateDocument, hd, if_neg hlt] using hw
  · simpa only [Workspace.getOrCreateDocument, hd] using hw

theorem Full.changeDocument (hw : w.Full) : (w.changeDocument L d).Full := by
  simp only [Workspace.changeDocument]
  split
  · exact hw.getOrCreateDocument.resetToState _
  · exact hw.getOrCreateDocument

theorem Full.relinkDocument (hw : w.Full) (changed : List ℕ) :
    (w.relinkDocument changed d).Full := by
  simp only [Workspace.relinkDocument]
  split
  · exact hw.resetToState _
  · exact hw

theorem Full.emitUpdate (hw : w.Full) : w.emitUpdate.Full := ⟨hw.options, hw.registered⟩

theorem Full.prepareBuild (hw : w.Full) (documents : List ℕ) {options : BuildOptions}
    (ho : options.Full) : (w.prepareBuild documents options).Full := by
  refine ⟨fun d bs h => ?_, hw.registered⟩
  simp only [Workspace.prepareBuild] at h
  split at h
  · split at h
    · cases h
      exact ho
    · rename_i hstate
      split at h
      · cases h
        exact ho
      · cases h
        exact hw.options d _ hstate
  · exact hw.options d bs h

theorem Full.markAsCompleted (hw : w.Full) (documents : List ℕ) :
    (w.markAsCompleted documents).Full := by
  refine hw.mono (fun d bs h => ?_) (fun d h => h) (Nat.le_refl _)
  simp only [Workspace.markAsCompleted] at h
  split at h
  · obtain ⟨bs', h', rfl⟩ := Option.map_eq_some_iff.mp h
    exact ⟨bs', h', rfl⟩
  · exact ⟨bs, h, rfl⟩

/-- The build state a document has keeps its options through a task. -/
theorem exists_buildState_run (task : Task) {d' : ℕ} {state : DocumentBuildState}
    (hd : (w.buildStateByDocumentId d).isSome)
    (h : (task.run L d w).buildStateByDocumentId d' = some state) :
    ∃ state', w.buildStateByDocumentId d' = some state' ∧ state.options = state'.options := by
  cases task with
  | validate =>
    simp only [Task.run, validate, Function.update_apply] at h
    split at h
    · rename_i heq
      obtain ⟨state', h'⟩ := Option.isSome_iff_exists.mp hd
      simp only [h', Option.getD_some, Option.some.injEq] at h
      exact ⟨state', heq ▸ h', by rw [← h]⟩
    · exact ⟨state, h, rfl⟩
  | _ => exact ⟨state, h, rfl⟩

theorem Full.run (hw : w.Full) (task : Task) (hd : (w.buildStateByDocumentId d).isSome) :
    (task.run L d w).Full :=
  hw.mono (fun _ _ h => exists_buildState_run task hd h)
    (fun d' h => by rwa [task.isSome_run_documents] at h)
    (Nat.le_of_eq (@Task.run_sameElsewhere _ _ L w d task).nextDocumentId.symm)

theorem isSome_buildState_run (task : Task) {d' : ℕ} (h : (w.buildStateByDocumentId d').isSome) :
    ((task.run L d w).buildStateByDocumentId d').isSome := by
  cases task with
  | validate =>
    simp only [Task.run, validate, Function.update_apply]
    split
    · rfl
    · exact h
  | _ => exact h

theorem Full.shouldValidate (hw : w.Full) (h : (w.buildStateByDocumentId d).isSome) :
    w.shouldValidate d = true := by
  obtain ⟨state, hstate⟩ := Option.isSome_iff_exists.mp h
  simp only [Workspace.shouldValidate, getBuildOptions, hstate, Option.map_some, Option.getD_some]
  exact (hw.options d state hstate).2

/-- Every document of the store is validated. -/
def Validated (w : Workspace τ δ) : Prop :=
  ∀ d document, w.documents d = some document → document.state = .validated

theorem mem_all {d : ℕ} (hw : w.Full) : d ∈ w.all ↔ (w.documents d).isSome := by
  simp only [all, List.mem_filter, List.mem_range]
  exact ⟨And.right, fun h => ⟨hw.registered d h, h⟩⟩

theorem validated_of_not_mem (hw : w.Full) {options : BuildOptions} {document : Document τ δ}
    (hd : w.documents d = some document) (h : d ∉ w.documentsToBuild L options) :
    document.state = .validated := by
  have hall : d ∈ w.all := (mem_all hw).mpr (by rw [hd]; rfl)
  have hnot : ¬ document.state < .validated := by
    intro hlt
    refine h (List.mem_filter.mpr ⟨hall, ?_⟩)
    simp only [hd, Option.map_some, Option.getD_some, hlt, decide_true, Bool.true_or]
  cases hs : document.state with
  | validated => rfl
  | _ => exact absurd (hs ▸ hnot) (by decide)

theorem isSome_reopenBuild (options : BuildOptions) (d' : ℕ) :
    ((w.reopenBuild L options d).documents d').isSome = (w.documents d').isSome := by
  simp only [Workspace.reopenBuild]
  split
  · rfl
  · split
    · split
      · exact isSome_update_map _ _ _ _
      · split
        · rfl
        · exact isSome_update_map _ _ _ _
      · rfl
    · rfl

theorem isSome_reopen (documents : List ℕ) (options : BuildOptions) (d : ℕ) :
    ((w.reopen L documents options).documents d).isSome = (w.documents d).isSome := by
  show ((documents.foldl (Workspace.reopenBuild L options) w).documents d).isSome = _
  induction documents generalizing w with
  | nil => rfl
  | cons d' documents ih => exact ih.trans (isSome_reopenBuild options d)

end Workspace

namespace Call

variable {call : Call} {w' : Workspace τ δ} {call' : Option Call}

/-- In a phase: the documents outside it are validated already. -/
def Covers (w : Workspace τ δ) (call : Call) : Prop :=
  match call.stage with
  | .phase phase documents jobs =>
    Phase.Ready w phase documents jobs ∧
      (∀ d ∈ documents, (w.buildStateByDocumentId d).isSome) ∧
      ∀ d document, w.documents d = some document → d ∉ documents → document.state = .validated
  | _ => True

theorem Covers.congr (h : call.Covers w) (hdocuments : w'.documents = w.documents)
    (states : w'.buildStateByDocumentId = w.buildStateByDocumentId) : call.Covers w' := by
  simp only [Covers] at h ⊢
  split
  · rename_i hs
    rw [hs] at h
    obtain ⟨ready, hstates, others⟩ := h
    rw [hdocuments, states]
    exact ⟨ready.congr hdocuments states, hstates, others⟩
  · trivial

/-- What holds after a step of a call: it covers its documents, or they are validated. -/
def Result (w : Workspace τ δ) (options : BuildOptions) : Option Call → Prop
  | some call => call.Covers w ∧ call.options = options
  | none => w.Validated

theorem covers_buildDocuments {documents : List ℕ}
    (inStore : ∀ d ∈ documents, (w.documents d).isSome)
    (states : ∀ d ∈ documents, (w.buildStateByDocumentId d).isSome)
    (others : ∀ d document, w.documents d = some document → d ∉ documents →
      document.state = .validated) :
    (call.buildDocuments documents w).Covers w :=
  ⟨.content inStore, states, others⟩

theorem isSome_prepareBuild {documents : List ℕ} {options : BuildOptions} (hd : d ∈ documents) :
    ((w.prepareBuild documents options).buildStateByDocumentId d).isSome := by
  simp only [Workspace.prepareBuild, if_pos hd]
  split
  · rfl
  · split <;> rfl

/-- **A step of a call that links and validates.** -/
theorem Does.result (h : Does L call w w' call') (hw : w.Full) (ho : call.options.Full)
    (hc : call.Covers w) : w'.Full ∧ Result w' call.options call' := by
  cases h with
  | start h => exact ⟨hw, trivial, rfl⟩
  | delete d pending h => exact ⟨hw.deleteDocument, trivial, rfl⟩
  | deleted h => exact ⟨hw, trivial, rfl⟩
  | change d pending h => exact ⟨hw.changeDocument, trivial, rfl⟩
  | changed h => exact ⟨hw, trivial, rfl⟩
  | relink d pending h => exact ⟨hw.relinkDocument _, trivial, rfl⟩
  | relinked h => exact ⟨hw.emitUpdate, trivial, rfl⟩
  | select documents h hdocuments =>
    subst hdocuments
    refine ⟨hw.prepareBuild _ ho, covers_buildDocuments (fun d hd => ?_)
      (fun d hd => isSome_prepareBuild hd) (fun d document hd hno => ?_), rfl⟩
    · exact (Workspace.mem_all hw).mp (List.mem_filter.mp hd).1
    · exact Workspace.validated_of_not_mem hw hd hno
  | @task phase documents jobs d task rest h hjobs =>
    simp only [Covers, h] at hc
    obtain ⟨ready, states, others⟩ := hc
    obtain ⟨hmem, -⟩ := ready.entry hjobs
    refine ⟨hw.run task (states d hmem),
      ⟨ready.run hjobs, fun d' hd' => ?_, fun d' document' h' hno => ?_⟩, rfl⟩
    · exact Workspace.isSome_buildState_run task (states d' hd')
    · have hne : d' ≠ d := fun e => hno (e ▸ hmem)
      exact others d' document' ((task.run_documents_ne hne).symm.trans h') hno
  | @endPhase documents jobs phase h hover =>
    simp only [Covers, h] at hc
    obtain ⟨ready, states, others⟩ := hc
    cases phase with
    | content => exact ⟨hw, ⟨ready.references hover, states, others⟩, rfl⟩
    | references =>
      have hall : documents.filter (fun d => w.shouldValidate d) = documents :=
        List.filter_eq_self.mpr fun d hd => hw.shouldValidate (states d hd)
      refine ⟨hw.markAsCompleted _, ⟨ready.validation hover _ fun d hd => (List.mem_filter.mp hd).1,
        fun d hd => ?_, ?_⟩, rfl⟩
      · have hd := states d (List.mem_filter.mp hd).1
        show (if _ then _ else _ : Option DocumentBuildState).isSome
        split
        · rwa [Option.isSome_map]
        · exact hd
      · rw [hall]
        exact others
    | validation =>
      refine ⟨hw, fun d document hdocument => ?_⟩
      by_cases hd : d ∈ documents
      · exact ready.reached hover hd hdocument
      · exact others d document hdocument hd

end Call

end Pegium
