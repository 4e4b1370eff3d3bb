/-
Pegium/Workspace/Waiting.lean

Is somebody who waits for a document left waiting?

A document gets a state in a phase whose listeners are told of it afterwards
(`AwaitState.told`), so a wait that sleeps is woken before its state is published, when
its document has reached the state.  Then, whoever still sleeps waits for a state that
is not published (`AwaitState.unblocked`).

That needs the call to get as far as telling, and the document to take part: a wait is
missed when the call is cut short in between, when the document is deleted, and when it
is left out of the build (`AwaitState.Allowed` excludes these).
-/
import Pegium.Workspace.WaitUntil

namespace Pegium

open Function (update)

variable {τ δ : Type} {L : Language τ δ}

/-! ### What documents reach -/

namespace Workspace

variable {w w' w'' : Workspace τ δ} {d : ℕ} {state : DocumentState}

theorem reached_iff : w.reached d state = true ↔
    ∃ document, w.documents d = some document ∧ state ≤ document.state := by
  rw [reached]
  cases w.documents d with
  | none => simp
  | some document => simp

/-- No document reaches a state anew, other than `Changed`. -/
def Lowers (w w' : Workspace τ δ) : Prop :=
  ∀ d state, .changed < state → w'.reached d state = true → w.reached d state = true

theorem Lowers.refl (w : Workspace τ δ) : w.Lowers w := fun _ _ _ h => h

theorem Lowers.trans (h : w.Lowers w') (h' : w'.Lowers w'') : w.Lowers w'' :=
  fun d state hs hreached => h d state hs (h' d state hs hreached)

theorem lowers_of_documents (h : w'.documents = w.documents) : w.Lowers w' := by
  intro d state _ hreached
  rwa [reached, ← h]

/-- Changing a document lowers the states when it lowers the document's. -/
theorem lowers_mapDocument {f : Document τ δ → Document τ δ}
    (hf : ∀ document, w.documents d = some document → (f document).state ≤ document.state)
    (h : w'.documents = update w.documents d ((w.documents d).map f)) : w.Lowers w' := by
  intro d' state _ hreached
  rw [reached_iff, h] at hreached
  obtain ⟨document', hdocument', hle⟩ := hreached
  rw [Function.update_apply] at hdocument'
  split at hdocument'
  · rename_i hd
    obtain ⟨document, hdocument, rfl⟩ := Option.map_eq_some_iff.mp hdocument'
    rw [reached_iff]
    exact ⟨document, hd ▸ hdocument, DocumentState.le_trans hle (hf document hdocument)⟩
  · exact reached_iff.mpr ⟨document', hdocument', hle⟩

theorem lowers_resetToState : w.Lowers (w.resetToState d state) :=
  lowers_mapDocument (fun _ _ => Document.resetTo_state_le _ _) rfl

theorem lowers_deleteDocument : w.Lowers (w.deleteDocument d) := by
  intro d' state _ hreached
  rw [reached_iff] at hreached ⊢
  obtain ⟨document, hdocument, hle⟩ := hreached
  replace hdocument : update w.documents d none d' = some document := hdocument
  rw [Function.update_apply] at hdocument
  split at hdocument
  · cases hdocument
  · exact ⟨document, hdocument, hle⟩

/-- A document that an update creates is reset at once. -/
theorem lowers_changeDocument : w.Lowers (w.changeDocument L d) := by
  intro d' state hs hreached
  by_cases hd : d' = d
  · subst hd
    simp only [changeDocument] at hreached
    split at hreached
    · rw [reached_iff] at hreached
      obtain ⟨document', hdocument', hle⟩ := hreached
      rw [resetToState_documents, Function.update_self] at hdocument'
      obtain ⟨document, -, rfl⟩ := Option.map_eq_some_iff.mp hdocument'
      have hchanged : (document.resetTo .changed).state ≤ .changed := by
        show (if DocumentState.changed < document.state then .changed else document.state) ≤ _
        split
        · exact DocumentState.le_refl _
        · rename_i h
          exact DocumentState.not_lt.mp h
      exact absurd (DocumentState.le_trans hle hchanged) (Nat.not_le.mpr hs)
    · rename_i hnone
      rw [reached_iff] at hreached
      obtain ⟨document, hdocument, -⟩ := hreached
      rw [hdocument] at hnone
      exact absurd rfl hnone
  · rw [reached_iff] at hreached ⊢
    obtain ⟨document, hdocument, hle⟩ := hreached
    rw [sameElsewhere_changeDocument.documents d' hd] at hdocument
    exact ⟨document, hdocument, hle⟩

theorem lowers_relinkDocument (changed : List ℕ) : w.Lowers (w.relinkDocument changed d) := by
  rw [relinkDocument]
  split
  · exact lowers_resetToState
  · exact .refl w

theorem lowers_reopenBuild (options : BuildOptions) : w.Lowers (w.reopenBuild L options d) := by
  rw [reopenBuild]
  split
  · exact .refl w
  · rename_i document hdocument
    split
    · rename_i hvalidated
      split
      · exact lowers_resetToState
      · split
        · exact .refl w
        · refine lowers_mapDocument (fun document' hdocument' => ?_) rfl
          cases hdocument.symm.trans hdocument'
          show DocumentState.indexedReferences ≤ document.state
          rw [hvalidated]
          decide
      · exact .refl w
    · exact lowers_of_documents rfl

theorem lowers_reopen (documents : List ℕ) (options : BuildOptions) :
    w.Lowers (w.reopen L documents options) := by
  have hfold : ∀ (documents : List ℕ) (w : Workspace τ δ),
      w.Lowers (documents.foldl (reopenBuild L options) w) := by
    intro documents
    induction documents with
    | nil => exact fun w => .refl w
    | cons d documents ih => exact fun w => (lowers_reopenBuild options).trans (ih _)
  exact (hfold documents w).trans (lowers_of_documents rfl)

theorem lowers_resolve (i : ℕ) : w.Lowers (w.resolve L d i) := by
  refine lowers_mapDocument (f := w.resolveLink L d i) (fun document _ => ?_) rfl
  rw [resolveLink_state]
  exact DocumentState.le_refl _

/-- A document that is created is parsed. -/
theorem state_of_getOrCreateDocument {document : Document τ δ} (hnone : w.documents d = none)
    (h : (w.getOrCreateDocument L d).documents d = some document) : document.state = .parsed := by
  rw [getOrCreateDocument, hnone] at h
  dsimp only at h
  split at h
  · replace h : update w.documents d _ d = some document := h
    rw [Function.update_self] at h
    cases h
    rfl
  · rw [hnone] at h
    cases h

theorem documents_getOrCreateDocument {d' : ℕ} {document : Document τ δ}
    (hold : ¬ (d' = d ∧ w.documents d = none))
    (h : (w.getOrCreateDocument L d).documents d' = some document) :
    w.documents d' = some document := by
  by_cases hd : d' = d
  · subst hd
    cases hdocument : w.documents d' with
    | none => exact absurd ⟨rfl, hdocument⟩ hold
    | some document' =>
      rw [getOrCreateDocument, hdocument] at h
      rw [← hdocument]
      exact h
  · rwa [sameElsewhere_getOrCreateDocument.documents d' hd] at h

end Workspace

/-- A step of a call that is no task. -/
theorem Call.lowers_next {call : Call} {w w' : Workspace τ δ} {call' : Option Call}
    (h : call.step L w .next = some (w', call')) : w.Lowers w' := by
  simp only [Call.step] at h
  split at h
  · cases h
    exact .refl w
  · cases h
    exact .refl w
  · cases h
    exact Workspace.lowers_deleteDocument
  · cases h
    exact .refl w
  · cases h
    exact Workspace.lowers_changeDocument
  · cases h
    exact Workspace.lowers_of_documents rfl
  · cases h
    exact Workspace.lowers_relinkDocument _
  · cases h
    exact Workspace.lowers_of_documents rfl
  · rename_i phase documents jobs hs
    split at h
    · cases phase <;> cases h <;> exact Workspace.lowers_of_documents rfl
    · cases h

/-! ### The states of a phase -/

/-- The state in which a task leaves its document. -/
def Task.stateAfter : Task → DocumentState → DocumentState
  | attach, _ => .changed
  | parse, _ => .parsed
  | updateContent, _ => .indexedContent
  | computeScopes, _ => .computedScopes
  | resolve _, s => s
  | linked, _ => .linked
  | updateReferences, _ => .indexedReferences
  | validate, _ => .validated

theorem Task.state_onDocument (task : Task) {w : Workspace τ δ} {d : ℕ} (document : Document τ δ) :
    (task.onDocument L d w document).state = task.stateAfter document.state := by
  cases task with
  | resolve i => exact Workspace.resolveLink_state i document
  | _ => rfl

namespace Phase

variable {phase : Phase} {link : Bool} {task : Task} {rest : List Task} {w : Workspace τ δ}
  {d : ℕ} {s : DocumentState}

/-- The state that is published before the phase. -/
def floor : Phase → DocumentState
  | content => .changed
  | references => .indexedContent
  | validation => .indexedReferences

/-- A phase publishes the states after its floor, up to its end. -/
theorem mem_publishStates (h : phase.floor < s) (h' : s ≤ phase.phaseEnd) :
    s ∈ phase.publishStates := by
  cases phase <;> cases s <;> revert h h' <;> decide

theorem floor_lt (h : s ∈ phase.publishStates) : phase.floor < s := by
  cases phase <;> cases s <;> revert h <;> decide

/-- A document with tasks left is below the end of the phase. -/
theorem Fits.lt_phaseEnd (h : Fits link phase (task :: rest) s) : s < phase.phaseEnd := by
  generalize htasks : task :: rest = tasks at h
  cases h with
  | attach h | parse h | updateContent h | computeScopes _ h | link _ _ h
  | updateReferences _ h =>
    subst h
    decide
  | contentDone _ => cases htasks
  | referencesDone _ _ => cases htasks
  | validate _ h => exact h
  | validated _ => cases htasks

/-- A task takes its document on, as far as the end of the phase at most. -/
theorem Fits.state_le {document : Document τ δ}
    (h : Fits link phase (task :: rest) document.state) :
    document.state ≤ (task.onDocument L d w document).state ∧
      (task.onDocument L d w document).state ≤ phase.phaseEnd := by
  rw [task.state_onDocument]
  generalize htasks : task :: rest = tasks at h
  generalize document.state = s at h
  cases h with
  | attach h | parse h | updateContent h | computeScopes _ h | updateReferences _ h =>
    cases htasks
    subst h
    decide
  | link is _ h =>
    subst h
    rcases is with - | ⟨i, is⟩
    · cases htasks
      decide
    · cases htasks
      refine ⟨DocumentState.le_refl _, ?_⟩
      show DocumentState.computedScopes ≤ .indexedReferences
      decide
  | validate _ h =>
    cases htasks
    exact ⟨Nat.le_of_lt h, DocumentState.le_refl _⟩
  | contentDone _ => cases htasks
  | referencesDone _ _ => cases htasks
  | validated _ => cases htasks

/-- The documents that a phase works on are recorded as it begins. -/
theorem mem_pending {documents : List ℕ} {document : Document τ δ} (hd : d ∈ documents)
    (hdocument : w.documents d = some document) (h : document.state < phase.phaseEnd) :
    (d, document.state) ∈ phase.pending documents w := by
  refine List.mem_filterMap.mpr ⟨d, hd, ?_⟩
  rw [hdocument]
  exact if_pos h

theorem mem_notifications {entryStates : List (ℕ × DocumentState)} {entry : DocumentState}
    (hentry : (d, entry) ∈ entryStates) (hlt : entry < s) (hs : s ∈ phase.publishStates)
    (hreached : w.reached d s = true) : (d, s) ∈ phase.notifications entryStates w := by
  refine List.mem_flatMap.mpr ⟨(d, entry), hentry, List.mem_map.mpr ⟨s, ?_, rfl⟩⟩
  exact List.mem_filter.mpr ⟨hs, decide_eq_true ⟨hlt, hreached⟩⟩

end Phase

namespace BuilderState

variable {b b' : BuilderState τ δ}

theorem phase_eq_some {phase : Phase} {documents : List ℕ} :
    b.phase = some (phase, documents) ↔ ∃ jobs, b.stage = some (.phase phase documents jobs) := by
  rw [BuilderState.phase]
  split
  · rename_i phase' documents' jobs hstage
    rw [hstage]
    constructor
    · intro h
      cases h
      exact ⟨jobs, rfl⟩
    · rintro ⟨jobs', h⟩
      cases h
      rfl
  · rename_i hother
    refine iff_of_false nofun ?_
    rintro ⟨jobs, h⟩
    exact hother _ _ _ h

theorem phase_of_stage {phase : Phase} {documents : List ℕ} {jobs : ℕ → List Task}
    (h : b.stage = some (.phase phase documents jobs)) : b.phase = some (phase, documents) :=
  phase_eq_some.mpr ⟨jobs, h⟩

theorem phase_of_none (h : b.call = none) : b.phase = none := by
  rw [BuilderState.phase, stage, h]
  rfl

theorem step_work {work : Call.Work} (h : b.step L (.work work) = some b') :
    ∃ call w' call', b.call = some call ∧ call.step L b.workspace work = some (w', call') ∧
      b' = ⟨w', call'⟩ := by
  obtain ⟨w, call⟩ := b
  cases call with
  | none => cases h
  | some call =>
    obtain ⟨⟨w', call'⟩, hstep, rfl⟩ := Option.map_eq_some_iff.mp h
    exact ⟨call, w', call', rfl, hstep, rfl⟩

theorem step_getOrCreateDocument {d : ℕ} (h : b.step L (.getOrCreateDocument d) = some b') :
    b.call = none ∧ b' = ⟨b.workspace.getOrCreateDocument L d, none⟩ := by
  obtain ⟨w, call⟩ := b
  cases call with
  | none =>
    cases h
    exact ⟨rfl, rfl⟩
  | some call => cases h

theorem step_resolve {d i : ℕ} (h : b.step L (.resolve d i) = some b') :
    b.call = none ∧ b' = ⟨b.workspace.resolve L d i, none⟩ := by
  obtain ⟨w, call⟩ := b
  cases call with
  | none =>
    cases h
    exact ⟨rfl, rfl⟩
  | some call => cases h

theorem step_update {changed deleted : List ℕ} {options : BuildOptions}
    (h : b.step L (.update changed deleted options) = some b') :
    b.call = none ∧ b' = ⟨b.workspace, some (Call.update changed deleted options)⟩ := by
  obtain ⟨w, call⟩ := b
  cases call with
  | none =>
    cases h
    exact ⟨rfl, rfl⟩
  | some call => cases h

theorem step_build {documents : List ℕ} {options : BuildOptions}
    (h : b.step L (.build documents options) = some b') :
    b.call = none ∧ (∀ d ∈ documents, (b.workspace.documents d).isSome = true) ∧
      b' = ⟨b.workspace.reopen L documents options,
        some (Call.build documents options (b.workspace.reopen L documents options))⟩ := by
  obtain ⟨w, call⟩ := b
  cases call with
  | none =>
    replace h : (if documents.all fun d => (w.documents d).isSome then _ else _) = some b' := h
    split at h
    · rename_i hall
      cases h
      exact ⟨rfl, List.all_eq_true.mp hall, rfl⟩
    · cases h
  | some call => cases h

theorem step_stop (h : b.step L .stop = some b') :
    b.call.isSome = true ∧ b' = ⟨b.workspace, none⟩ := by
  obtain ⟨w, call⟩ := b
  cases call with
  | none => cases h
  | some call =>
    replace h : (if call.cancellable then _ else _) = some b' := h
    split at h
    · cases h
      exact ⟨rfl, rfl⟩
    · cases h

/-- The events that change what documents reach: a task, and the creation of a document. -/
def raises : BuilderEvent τ → Bool
  | .work (.task _) | .getOrCreateDocument _ => true
  | _ => false

/-- **No other event makes a document reach anything.** -/
theorem lowers_step {event : BuilderEvent τ} (h : b.step L event = some b')
    (hevent : raises event = false) : b.workspace.Lowers b'.workspace := by
  cases event with
  | getOrCreateDocumentId | setTextDocument | writeFile =>
    cases h
    exact Workspace.lowers_of_documents rfl
  | getOrCreateDocument => cases hevent
  | update =>
    obtain ⟨-, rfl⟩ := step_update h
    exact .refl _
  | build documents options =>
    obtain ⟨-, -, rfl⟩ := step_build h
    exact Workspace.lowers_reopen documents options
  | work work =>
    cases work with
    | task d => cases hevent
    | next =>
      obtain ⟨call, w', call', -, hstep, rfl⟩ := step_work h
      exact Call.lowers_next hstep
  | stop =>
    obtain ⟨-, rfl⟩ := step_stop h
    exact .refl _
  | resolve d i =>
    obtain ⟨-, rfl⟩ := step_resolve h
    exact Workspace.lowers_resolve i

end BuilderState

/-! ### The builder's side -/

namespace AwaitState

variable {t t' : AwaitState τ δ}

/-- The states of the phase are not being published yet. -/
def Unpublished (t : AwaitState τ δ) : Prop := ∀ pending, t.barrier ≠ some (.publishing pending)

/-- In a phase: while its tasks run, every document with tasks left has been recorded, and has
not fallen behind; what has been published goes up to the floor of the phase, and then state
by state to its end. -/
structure InPhase (t : AwaitState τ δ) (phase : Phase) (documents : List ℕ)
    (jobs : ℕ → List Task) : Prop where
  ready : phase.Ready t.builder.workspace documents jobs
  entered : t.barrier = none → ∀ d task rest, jobs d = task :: rest →
    ∃ document, t.builder.workspace.documents d = some document ∧
      ∃ entry, (d, entry) ∈ t.entryStates ∧ entry ≤ document.state
  floor : t.Unpublished → t.currentState = phase.floor
  published : ∀ pending, t.barrier = some (.publishing pending) →
    (t.currentState :: pending) <:+ (phase.floor :: phase.publishStates)

/-- A call before its phases: `Changed` is published. -/
def Opening : Stage → Prop
  | .starting | .phase .. => False
  | _ => True

/-- Phase, barrier and published state fit the stage of the builder. -/
structure Orderly (t : AwaitState τ δ) : Prop where
  inPhase : ∀ phase documents jobs, t.builder.stage = some (.phase phase documents jobs) →
    t.InPhase phase documents jobs
  outside : t.builder.phase = none → t.barrier = none
  opening : ∀ stage, t.builder.stage = some stage → Opening stage → t.currentState = .changed

theorem builderStep_eq {event : BuilderEvent τ} (h : t.builderStep L event = some t') :
    t.admits event = true ∧ ∃ b, t.builder.step L event = some b ∧
      t' = { t with
        builder := b
        currentState := t.stateAfter event
        cancelRequested := t.tokenAfter event
        entryStates := if moves event then pendingOf b else t.entryStates
        barrier := if moves event then none else t.barrier
        removals := t.removalsAfter event } := by
  rw [builderStep] at h
  split at h
  · rename_i hadmits
    obtain ⟨b, hb, rfl⟩ := Option.map_eq_some_iff.mp h
    exact ⟨hadmits, b, hb, rfl⟩
  · cases h

/-- A phase that begins. -/
theorem InPhase.begin {phase : Phase} {documents : List ℕ}
    (hphase : t.builder.phase = some (phase, documents))
    (hentries : t.entryStates = pendingOf t.builder) (hbarrier : t.barrier = none)
    (hfloor : t.currentState = phase.floor)
    (hready : phase.Ready t.builder.workspace documents
      (phase.jobs documents t.builder.workspace)) :
    t.InPhase phase documents (phase.jobs documents t.builder.workspace) where
  ready := hready
  entered := by
    intro _ d task rest hjobs
    obtain ⟨hd, document, hdocument, -⟩ := hready.entry hjobs
    have hfits := hready.fits d hd document hdocument
    rw [hjobs] at hfits
    refine ⟨document, hdocument, document.state, ?_, DocumentState.le_refl _⟩
    rw [hentries, pendingOf, hphase]
    exact Phase.mem_pending hd hdocument hfits.lt_phaseEnd
  floor := fun _ => hfloor
  published := by
    intro pending h
    rw [hbarrier] at h
    cases h

/-- A builder out of any phase is orderly, when `Changed` is published as it opens. -/
theorem orderly_outside (hphase : t.builder.phase = none) (hbarrier : t.barrier = none)
    (hopening : ∀ stage, t.builder.stage = some stage → Opening stage →
      t.currentState = .changed) : t.Orderly where
  inPhase := by
    intro phase documents jobs hstage
    rw [BuilderState.phase_of_stage hstage] at hphase
    cases hphase
  outside := fun _ => hbarrier
  opening := hopening

/-- A builder that begins a phase is orderly. -/
theorem orderly_begin (phase : Phase) {documents : List ℕ}
    (hstage : t.builder.stage
      = some (.phase phase documents (phase.jobs documents t.builder.workspace)))
    (hentries : t.entryStates = pendingOf t.builder) (hbarrier : t.barrier = none)
    (hfloor : t.currentState = phase.floor)
    (hready : phase.Ready t.builder.workspace documents
      (phase.jobs documents t.builder.workspace)) : t.Orderly where
  inPhase := by
    intro phase' documents' jobs' hstage'
    rw [hstage] at hstage'
    cases hstage'
    exact .begin (BuilderState.phase_of_stage hstage) hentries hbarrier hfloor hready
  outside := fun _ => hbarrier
  opening := by
    intro stage hstage' hopening
    rw [hstage] at hstage'
    cases hstage'
    cases hopening

/-- What has been published when a phase is over. -/
theorem InPhase.published_nil {phase : Phase} {documents : List ℕ} {jobs : ℕ → List Task}
    (h : t.InPhase phase documents jobs) (hbarrier : t.barrier = some (.publishing [])) :
    t.currentState = phase.phaseEnd := by
  obtain ⟨before, hsuffix⟩ := h.published [] hbarrier
  have hlast : (phase.floor :: phase.publishStates).getLast? = some phase.phaseEnd := by
    cases phase <;> rfl
  rw [← hsuffix, List.getLast?_concat] at hlast
  exact Option.some.inj hlast

/-- A phase ends when it has published its states. -/
theorem published_of_admits (hadmits : t.admits (.work .next) = true) {p : Phase × List ℕ}
    (hphase : t.builder.phase = some p) : t.barrier = some (.publishing []) := by
  rw [admits, hphase] at hadmits
  exact of_decide_eq_true hadmits

theorem stateAfter_next {stage : Stage} (hstage : t.builder.stage = some stage)
    (h : Opening stage → t.currentState = .changed) (hphase : ∀ phase documents jobs,
      stage ≠ .phase phase documents jobs) : t.stateAfter (.work .next) = .changed := by
  rw [stateAfter, hstage]
  cases stage with
  | starting => rfl
  | phase phase documents jobs => exact absurd rfl (hphase _ _ _)
  | _ => exact h trivial

/-- **A call goes on in order**: it opens with `Changed`, and each phase begins at its floor. -/
theorem Orderly.next (h : t.Orderly) (hstep : t.builderStep L (.work .next) = some t') :
    t'.Orderly := by
  obtain ⟨hadmits, b, hb, rfl⟩ := builderStep_eq hstep
  obtain ⟨call, w', call', hcall, hcallStep, rfl⟩ := BuilderState.step_work hb
  have hstage : t.builder.stage = some call.stage := by
    rw [BuilderState.stage, hcall]
    rfl
  have hopens := stateAfter_next hstage (h.opening _ hstage)
  simp only [Call.step] at hcallStep
  -- before the phases
  have hloop : ∀ (w : Workspace τ δ) (call : Call), (∀ phase documents jobs,
      t.builder.stage ≠ some (.phase phase documents jobs)) →
      (∀ phase documents jobs, call.stage ≠ .phase phase documents jobs) →
      Orderly { t with
        builder := ⟨w, some call⟩
        currentState := t.stateAfter (.work .next)
        cancelRequested := t.tokenAfter (.work .next)
        entryStates := pendingOf ⟨w, some call⟩
        barrier := none
        removals := t.removalsAfter (.work .next) } := by
    intro w next hnow hthen
    refine orderly_outside ?_ rfl fun stage _ _ => hopens fun phase documents jobs hphase => ?_
    · cases hphase : BuilderState.phase ⟨w, some next⟩ with
      | none => rfl
      | some p =>
        obtain ⟨jobs, hstage⟩ := BuilderState.phase_eq_some.mp hphase
        exact absurd (Option.some.inj hstage) (hthen _ _ _)
    · rw [hphase] at hstage
      exact hnow _ _ _ hstage
  split at hcallStep
  case h_8 hs =>
    cases hcallStep
    refine orderly_begin .content rfl rfl rfl (hopens ?_) ?_
    · rw [hs]
      rintro _ _ _ ⟨⟩
    · refine .content fun d hd => ?_
      exact (List.mem_filter.mp (List.mem_filter.mp hd).1).2
  case h_9 phase documents jobs hs =>
    rw [hs] at hstage
    have hin : t.InPhase phase documents jobs := h.inPhase _ _ _ hstage
    have hend : t.stateAfter (.work .next) = phase.phaseEnd := by
      rw [stateAfter, hstage]
      exact hin.published_nil
        (published_of_admits hadmits (BuilderState.phase_of_stage hstage))
    split at hcallStep
    · rename_i hover
      replace hover : Phase.Over documents jobs := Phase.over_iff.mp hover
      cases phase with
      | content =>
        cases hcallStep
        exact orderly_begin .references rfl rfl rfl hend (hin.ready.references hover)
      | references =>
        cases hcallStep
        refine orderly_begin .validation rfl rfl rfl hend ?_
        exact hin.ready.validation hover _ fun d hd => (List.mem_filter.mp hd).1
      | validation =>
        cases hcallStep
        exact orderly_outside rfl rfl (by rintro _ ⟨⟩)
    · cases hcallStep
  all_goals
    rename_i hs
    cases hcallStep
    exact hloop _ _ (by rw [hstage, hs]; rintro _ _ _ ⟨⟩) (by rintro _ _ _ ⟨⟩)

theorem step_task {d : ℕ} (h : t.builderStep L (.work (.task d)) = some t') :
    t.barrier = none ∧ ∃ phase documents jobs task rest call,
      t.builder.stage = some (.phase phase documents jobs) ∧ jobs d = task :: rest ∧
      t' = { t with builder := ⟨task.run L d t.builder.workspace, some call⟩ } ∧
      call.stage = .phase phase documents (update jobs d rest) := by
  obtain ⟨hadmits, b, hb, rfl⟩ := builderStep_eq h
  obtain ⟨call, w', call', hcall, hcallStep, rfl⟩ := BuilderState.step_work hb
  refine ⟨Option.isNone_iff_eq_none.mp hadmits, ?_⟩
  simp only [Call.step] at hcallStep
  split at hcallStep
  · rename_i phase documents jobs hs
    split at hcallStep
    · rename_i task rest hjobs
      cases hcallStep
      refine ⟨phase, documents, jobs, task, rest, _, ?_, hjobs, rfl, rfl⟩
      rw [BuilderState.stage, hcall]
      exact congrArg some hs
    · cases hcallStep
  · cases hcallStep

theorem Orderly.task (h : t.Orderly) {d : ℕ}
    (hstep : t.builderStep L (.work (.task d)) = some t') : t'.Orderly := by
  obtain ⟨hbarrier, phase, documents, jobs, task, rest, call, hstage, hjobs, rfl, hcall⟩ :=
    step_task hstep
  have hin : t.InPhase phase documents jobs := h.inPhase _ _ _ hstage
  refine ⟨?_, fun _ => hbarrier, ?_⟩
  · intro phase' documents' jobs' hstage'
    rw [BuilderState.stage, Option.map_some, hcall] at hstage'
    cases hstage'
    refine ⟨hin.ready.run hjobs, fun _ d' task' rest' hjobs' => ?_, hin.floor, hin.published⟩
    by_cases hd : d' = d
    · subst hd
      obtain ⟨document, hdocument, entry, hentry, hle⟩ := hin.entered hbarrier _ _ _ hjobs
      refine ⟨_, task.run_document hdocument, entry, hentry, DocumentState.le_trans hle ?_⟩
      have hfits := hin.ready.fits d' (hin.ready.entry hjobs).1 document hdocument
      rw [hjobs] at hfits
      exact hfits.state_le.1
    · rw [Function.update_of_ne hd] at hjobs'
      obtain ⟨document, hdocument, entry, hentry, hle⟩ := hin.entered hbarrier _ _ _ hjobs'
      refine ⟨document, ?_, entry, hentry, hle⟩
      show (task.run L d t.builder.workspace).documents d' = some document
      rw [task.run_documents_ne hd, hdocument]
  · intro stage hstage' hopening
    rw [BuilderState.stage, Option.map_some, hcall] at hstage'
    cases hstage'
    cases hopening

/-- What the order depends on. -/
theorem Orderly.congr (h : t.Orderly) (hstage : t'.builder.stage = t.builder.stage)
    (hdocuments : t'.builder.workspace.documents = t.builder.workspace.documents)
    (hstates : t'.builder.workspace.buildStateByDocumentId
      = t.builder.workspace.buildStateByDocumentId)
    (hentries : t'.entryStates = t.entryStates) (hbarrier : t'.barrier = t.barrier)
    (hcurrent : t'.currentState = t.currentState) : t'.Orderly where
  inPhase := by
    intro phase documents jobs hstage'
    rw [hstage] at hstage'
    have hin := h.inPhase _ _ _ hstage'
    refine ⟨hin.ready.congr hdocuments hstates, ?_, ?_, ?_⟩
    · rw [hbarrier, hdocuments, hentries]
      exact hin.entered
    · rw [Unpublished, hbarrier, hcurrent]
      exact hin.floor
    · rw [hbarrier, hcurrent]
      exact hin.published
  outside := by
    rw [BuilderState.phase, hstage, hbarrier]
    exact h.outside
  opening := by
    rw [hstage, hcurrent]
    exact h.opening

/-- **The builder goes on in order.** -/
theorem Orderly.builder (h : t.Orderly) {event : BuilderEvent τ}
    (hstep : t.builderStep L event = some t') : t'.Orderly := by
  -- an event between calls that does not start one
  have hidle : ∀ {b : BuilderState τ δ}, t.builder.call = none → b.call = none →
      t' = { t with builder := b } → t'.Orderly := by
    rintro b hcall hb rfl
    refine orderly_outside (BuilderState.phase_of_none hb)
      (h.outside (BuilderState.phase_of_none hcall)) fun stage hstage _ => ?_
    rw [BuilderState.stage, hb] at hstage
    cases hstage
  cases event with
  | getOrCreateDocumentId | setTextDocument | writeFile =>
    obtain ⟨-, b, hb, rfl⟩ := builderStep_eq hstep
    cases hb
    exact h.congr rfl rfl rfl rfl rfl rfl
  | getOrCreateDocument d =>
    obtain ⟨-, b, hb, ht'⟩ := builderStep_eq hstep
    obtain ⟨hcall, rfl⟩ := BuilderState.step_getOrCreateDocument hb
    exact hidle hcall rfl ht'
  | resolve d i =>
    obtain ⟨-, b, hb, ht'⟩ := builderStep_eq hstep
    obtain ⟨hcall, rfl⟩ := BuilderState.step_resolve hb
    exact hidle hcall rfl ht'
  | update changed deleted options =>
    obtain ⟨-, b, hb, rfl⟩ := builderStep_eq hstep
    obtain ⟨-, rfl⟩ := BuilderState.step_update hb
    refine orderly_outside rfl rfl fun stage hstage hopening => ?_
    cases hstage
    cases hopening
  | build documents options =>
    obtain ⟨-, b, hb, rfl⟩ := builderStep_eq hstep
    obtain ⟨-, hall, rfl⟩ := BuilderState.step_build hb
    refine orderly_begin .content rfl rfl rfl rfl (.content fun d hd => ?_)
    rw [Workspace.isSome_reopen]
    exact hall d hd
  | work work =>
    cases work with
    | next => exact h.next hstep
    | task d => exact h.task hstep
  | stop =>
    obtain ⟨-, b, hb, rfl⟩ := builderStep_eq hstep
    obtain ⟨-, rfl⟩ := BuilderState.step_stop hb
    exact orderly_outside rfl rfl nofun

end AwaitState

/-! ### The waits' side -/

namespace Waiter

variable {waiter : Waiter}

/-- The wait has a listener. -/
def Listens (waiter : Waiter) : Prop :=
  match waiter.stage with
  | .subscribing | .rechecking | .recomparing _ | .waiting => True
  | _ => False

theorem Depends.listens (h : waiter.Depends) : waiter.Listens := by
  obtain ⟨-, hstage | ⟨held, hstage⟩⟩ := h
  · rw [Listens, hstage]
    trivial
  · rw [Listens, hstage]
    trivial

theorem Blocked.depends (h : waiter.Blocked) : waiter.Depends := ⟨h.2, .inl h.1⟩

theorem not_depends_of_completed (h : waiter.completed = true) : ¬ waiter.Depends := by
  rintro ⟨hopen, -⟩
  rw [h] at hopen
  cases hopen

@[simp] theorem finish_state (error : Option WaitError) :
    (waiter.finish error).state = waiter.state := by
  rw [finish]
  split <;> rfl

@[simp] theorem finish_documentId (error : Option WaitError) :
    (waiter.finish error).documentId = waiter.documentId := by
  rw [finish]
  split <;> rfl

@[simp] theorem finish_stage (error : Option WaitError) :
    (waiter.finish error).stage = waiter.stage := by
  rw [finish]
  split <;> rfl

@[simp] theorem finish_completed (error : Option WaitError) :
    (waiter.finish error).completed = true := by
  rw [finish]
  split
  · assumption
  · rfl

end Waiter

namespace AwaitState

variable {t t' : AwaitState τ δ} {i : ℕ} {waiter : Waiter}

/-- What is left of a phase tells the wait that its document has reached the state. -/
def Tells (entryStates : List (ℕ × DocumentState)) (i : ℕ) (waiter : Waiter) :
    Option Barrier → Prop
  | none => ∃ entry, (waiter.documentId, entry) ∈ entryStates ∧ entry < waiter.state
  | some (.notifying pending) => (waiter.documentId, waiter.state) ∈ pending
  | some (.invoking d listeners cancellation pending) =>
    cancellation = true ∨ (d = waiter.documentId ∧ i ∈ listeners) ∨
      (waiter.documentId, waiter.state) ∈ pending
  | some (.publishing _) => False

/-- The wait is still to be told. -/
def ToBeTold (t : AwaitState τ δ) (i : ℕ) (waiter : Waiter) : Prop :=
  ∃ phase documents, t.builder.phase = some (phase, documents) ∧
    waiter.state ∈ phase.publishStates ∧ Tells t.entryStates i waiter t.barrier

/-- Who has looked for the last time depends on being told: of a state above `Changed`, by a
listener that is registered; it is told when its document has reached the state, and its state
is not published as long as it sleeps. -/
structure Minds (t : AwaitState τ δ) (i : ℕ) (waiter : Waiter) : Prop where
  above : waiter.Depends → .changed < waiter.state
  listens : waiter.Listens → i ∈ t.documentPhaseListeners waiter.state
  told : waiter.Depends → t.builder.workspace.reached waiter.documentId waiter.state = true →
    t.ToBeTold i waiter
  unblocked : waiter.Blocked → t.currentState < waiter.state

/-- Every waiter is awake or will be told. -/
structure Attentive (t : AwaitState τ δ) : Prop where
  orderly : t.Orderly
  minds : ∀ i waiter, t.waiters i = some waiter → t.Minds i waiter

/-- Outside the phases nobody is to be told. -/
theorem not_toBeTold_of_phase (h : t.builder.phase = none) : ¬ t.ToBeTold i waiter := by
  rintro ⟨phase, documents, hphase, -⟩
  rw [h] at hphase
  cases hphase

theorem not_toBeTold_of_publishing {pending : List DocumentState}
    (h : t.barrier = some (.publishing pending)) : ¬ t.ToBeTold i waiter := by
  rintro ⟨phase, documents, -, -, hbarrier⟩
  rw [h] at hbarrier
  exact hbarrier

/-- Nothing is owed to anybody when nobody is to be told. -/
theorem Attentive.not_owes (h : t.Attentive)
    (hnobody : ∀ i waiter, ¬ t.ToBeTold i waiter) : ¬ t.Owes := by
  rintro ⟨i, waiter, hi, hdepends, hreached⟩
  exact hnobody i waiter ((h.minds i waiter hi).told hdepends hreached)

/-- A step of the builder before which nothing is owed, and in which no document reaches
what is waited for. -/
theorem Attentive.of_not_owes (h : t.Attentive) (howes : ¬ t.Owes) (horderly : t'.Orderly)
    (hreaches : ∀ i waiter, t.waiters i = some waiter → waiter.Depends →
      t'.builder.workspace.reached waiter.documentId waiter.state = true →
      t.builder.workspace.reached waiter.documentId waiter.state = true)
    (hwaiters : t'.waiters = t.waiters)
    (hlisteners : t'.documentPhaseListeners = t.documentPhaseListeners)
    (hcurrent : t'.currentState = .changed ∨ t'.currentState = t.currentState) :
    t'.Attentive where
  orderly := horderly
  minds := by
    intro i waiter hi
    rw [hwaiters] at hi
    have hminds := h.minds i waiter hi
    refine ⟨hminds.above, ?_, fun hdepends hreached => ?_, fun hblocked => ?_⟩
    · rw [hlisteners]
      exact hminds.listens
    · have hbefore := hreaches i waiter hi hdepends hreached
      exact absurd ⟨i, waiter, hi, hdepends, hbefore⟩ howes
    · rcases hcurrent with hchanged | hsame
      · rw [hchanged]
        exact hminds.above hblocked.depends
      · rw [hsame]
        exact hminds.unblocked hblocked

theorem Attentive.reaches_of_lowers (h : t.Attentive)
    (hlowers : t.builder.workspace.Lowers t'.builder.workspace) (i : ℕ) (waiter : Waiter)
    (hi : t.waiters i = some waiter) (hdepends : waiter.Depends)
    (hreached : t'.builder.workspace.reached waiter.documentId waiter.state = true) :
    t.builder.workspace.reached waiter.documentId waiter.state = true :=
  hlowers _ _ ((h.minds i waiter hi).above hdepends) hreached

theorem stateAfter_eq (event : BuilderEvent τ) :
    t.stateAfter event = .changed ∨ t.stateAfter event = t.currentState := by
  cases event with
  | build => exact .inl rfl
  | work work =>
    cases work with
    | next =>
      rw [stateAfter]
      split
      · exact .inl rfl
      · exact .inr rfl
    | task => exact .inr rfl
  | _ => exact .inr rfl

/-- **A task leads a document to a state that is still to be told.** -/
theorem Attentive.task (h : t.Attentive) {d : ℕ} (hallowed : t.Allowed (.builder (.work (.task d))))
    (hstep : t.builderStep L (.work (.task d)) = some t') : t'.Attentive := by
  have horderly : t'.Orderly := h.orderly.task hstep
  obtain ⟨hbarrier, phase, documents, jobs, task, rest, call, hstage, hjobs, rfl, hcall⟩ :=
    step_task hstep
  have hphase' : BuilderState.phase ⟨task.run L d t.builder.workspace, some call⟩
      = some (phase, documents) := BuilderState.phase_eq_some.mpr ⟨_, congrArg some hcall⟩
  refine ⟨horderly, fun i waiter hi => ?_⟩
  have hminds := h.minds i waiter hi
  refine ⟨hminds.above, hminds.listens, fun hdepends hreached => ?_, hminds.unblocked⟩
  by_cases hbefore : t.builder.workspace.reached waiter.documentId waiter.state = true
  · -- it had reached the state before
    obtain ⟨phase', documents', hphase, hmem, htold⟩ := hminds.told hdepends hbefore
    rw [BuilderState.phase_of_stage hstage] at hphase
    cases hphase
    exact ⟨phase, documents, hphase', hmem, htold⟩
  · have hin : t.InPhase phase documents jobs := h.orderly.inPhase _ _ _ hstage
    obtain ⟨document', hdocument', hle⟩ := Workspace.reached_iff.mp hreached
    have hd : waiter.documentId = d := by
      by_contra hne
      refine hbefore (Workspace.reached_iff.mpr ⟨document', ?_, hle⟩)
      rwa [task.run_documents_ne hne] at hdocument'
    rw [hd] at hdocument' hbefore
    obtain ⟨document, hdocument, entry, hentry, hentryLe⟩ := hin.entered hbarrier _ _ _ hjobs
    rw [task.run_document hdocument] at hdocument'
    cases hdocument'
    have hbelow : document.state < waiter.state := by
      by_contra hnot
      exact hbefore (Workspace.reached_iff.mpr
        ⟨document, hdocument, DocumentState.not_lt.mp hnot⟩)
    have hfits := hin.ready.fits d (hin.ready.entry hjobs).1 document hdocument
    rw [hjobs] at hfits
    have habove : t.currentState < waiter.state := by
      by_contra hnot
      exact hbefore (hallowed i waiter hi hdepends hd (DocumentState.not_lt.mp hnot))
    have hfloor : t.currentState = phase.floor := by
      refine hin.floor fun pending hpublishing => ?_
      rw [hbarrier] at hpublishing
      cases hpublishing
    have hmem : waiter.state ∈ phase.publishStates :=
      Phase.mem_publishStates (hfloor ▸ habove) (DocumentState.le_trans hle hfits.state_le.2)
    refine ⟨phase, documents, hphase', hmem, ?_⟩
    show Tells t.entryStates i waiter t.barrier
    rw [hbarrier]
    exact ⟨entry, hd ▸ hentry, Nat.lt_of_le_of_lt hentryLe hbelow⟩

/-- **A step of the builder misses nobody.** -/
theorem Attentive.builder (h : t.Attentive) {event : BuilderEvent τ}
    (hallowed : t.Allowed (.builder event)) (hstep : t.builderStep L event = some t') :
    t'.Attentive := by
  have horderly : t'.Orderly := h.orderly.builder hstep
  obtain ⟨hadmits, b, hb, ht'⟩ := builderStep_eq hstep
  have hidle : t.builder.call = none → ¬ t.Owes := fun hcall =>
    h.not_owes fun i waiter => not_toBeTold_of_phase (BuilderState.phase_of_none hcall)
  have hcurrent : t'.currentState = .changed ∨ t'.currentState = t.currentState := by
    rw [ht']
    exact stateAfter_eq event
  have hlowers : BuilderState.raises event = false →
      t.builder.workspace.Lowers t'.builder.workspace := by
    intro hevent
    rw [ht']
    exact BuilderState.lowers_step hb hevent
  -- where nothing is owed, and no document reaches anything
  have quiet : ¬ t.Owes → BuilderState.raises event = false → t'.Attentive := by
    intro howes hevent
    refine h.of_not_owes howes horderly (h.reaches_of_lowers (hlowers hevent)) ?_ ?_ hcurrent
    · rw [ht']
    · rw [ht']
  cases event with
  | getOrCreateDocumentId | setTextDocument | writeFile =>
    cases hb
    subst ht'
    refine ⟨horderly, fun i waiter hi => ?_⟩
    have hminds := h.minds i waiter hi
    refine ⟨hminds.above, hminds.listens, fun hdepends hreached => ?_, hminds.unblocked⟩
    exact hminds.told hdepends (hlowers rfl _ _ (hminds.above hdepends) hreached)
  | getOrCreateDocument d =>
    obtain ⟨hcall, rfl⟩ := BuilderState.step_getOrCreateDocument hb
    refine h.of_not_owes (hidle hcall) horderly ?_ (by rw [ht']) (by rw [ht']) hcurrent
    intro i waiter hi hdepends hreached
    rw [ht'] at hreached
    by_cases hnew : waiter.documentId = d ∧ t.builder.workspace.documents d = none
    · -- a document that is created is parsed
      have habove : .parsed < waiter.state := hallowed hnew.2 i waiter hi hdepends hnew.1
      obtain ⟨document, hdocument, hle⟩ := Workspace.reached_iff.mp hreached
      have hparsed := Workspace.state_of_getOrCreateDocument hnew.2 (hnew.1 ▸ hdocument)
      rw [hparsed] at hle
      exact absurd hle (Nat.not_le.mpr habove)
    · rw [Workspace.reached_iff] at hreached ⊢
      obtain ⟨document, hdocument, hle⟩ := hreached
      exact ⟨document, Workspace.documents_getOrCreateDocument hnew hdocument, hle⟩
  | resolve d i =>
    exact quiet (hidle (BuilderState.step_resolve hb).1) rfl
  | update changed deleted options =>
    exact quiet (hidle (BuilderState.step_update hb).1) rfl
  | build documents options =>
    exact quiet (hidle (BuilderState.step_build hb).1) rfl
  | stop => exact quiet hallowed rfl
  | work work =>
    cases work with
    | task d => exact h.task hallowed hstep
    | next =>
      refine quiet ?_ rfl
      cases hphase : t.builder.phase with
      | none => exact h.not_owes fun i waiter => not_toBeTold_of_phase hphase
      | some p =>
        exact h.not_owes fun i waiter =>
          not_toBeTold_of_publishing (published_of_admits hadmits hphase)

/-! ### Telling and publishing -/

theorem phase_of_barrier (h : t.Orderly) {barrier : Barrier} (hbarrier : t.barrier = some barrier) :
    ∃ phase documents, t.builder.phase = some (phase, documents) := by
  cases hphase : t.builder.phase with
  | none =>
    rw [h.outside hphase] at hbarrier
    cases hbarrier
  | some p => exact ⟨p.1, p.2, rfl⟩

/-- In a phase that has not published yet. -/
theorem Orderly.setBarrier (h : t.Orderly) {phase : Phase} {documents : List ℕ}
    (hphase : t.builder.phase = some (phase, documents)) (hold : t.Unpublished)
    {barrier : Barrier} (hnew : ∀ pending, barrier = .publishing pending →
      pending = phase.publishStates) : Orderly { t with barrier := some barrier } where
  inPhase := by
    intro phase' documents' jobs hstage
    have hin := h.inPhase _ _ _ hstage
    rw [BuilderState.phase_of_stage hstage] at hphase
    cases hphase
    refine ⟨hin.ready, nofun, fun _ => hin.floor hold, ?_⟩
    rintro pending ⟨⟩
    rw [hnew pending rfl]
    show (t.currentState :: phase.publishStates) <:+ _
    rw [hin.floor hold]
  outside := by
    intro hnone
    replace hnone : t.builder.phase = none := hnone
    rw [hphase] at hnone
    cases hnone
  opening := h.opening

theorem Orderly.publish (h : t.Orderly) {state : DocumentState} {pending : List DocumentState}
    (hbarrier : t.barrier = some (.publishing (state :: pending))) :
    Orderly { t with currentState := state, barrier := some (.publishing pending) } where
  inPhase := by
    intro phase documents jobs hstage
    have hin := h.inPhase _ _ _ hstage
    refine ⟨hin.ready, nofun, fun hunpublished => absurd rfl (hunpublished pending), ?_⟩
    rintro pending' ⟨⟩
    exact (List.suffix_cons _ _).trans (hin.published _ hbarrier)
  outside := by
    intro hnone
    rw [h.outside hnone] at hbarrier
    cases hbarrier
  opening := by
    intro stage hstage hopening
    obtain ⟨phase, documents, hphase⟩ := phase_of_barrier h hbarrier
    obtain ⟨jobs, hphase⟩ := BuilderState.phase_eq_some.mp hphase
    rw [hphase] at hstage
    cases hstage
    cases hopening

theorem orderly_endCall : t.endCall.Orderly := orderly_outside rfl rfl nofun

theorem Attentive.endCall (h : t.Attentive) (howes : ¬ t.Owes) : t.endCall.Attentive :=
  h.of_not_owes howes orderly_endCall (h.reaches_of_lowers (.refl _)) rfl rfl (.inr rfl)

/-- Another barrier, before which those who are to be told stay so. -/
theorem Attentive.setBarrier (h : t.Attentive) {phase : Phase} {documents : List ℕ}
    (hphase : t.builder.phase = some (phase, documents)) (hold : t.Unpublished)
    {barrier : Barrier} (hnew : ∀ pending, barrier = .publishing pending →
      pending = phase.publishStates)
    (htells : ∀ i waiter, t.waiters i = some waiter → waiter.Depends →
      t.builder.workspace.reached waiter.documentId waiter.state = true →
      waiter.state ∈ phase.publishStates → Tells t.entryStates i waiter t.barrier →
      Tells t.entryStates i waiter (some barrier)) :
    Attentive { t with barrier := some barrier } where
  orderly := h.orderly.setBarrier hphase hold hnew
  minds := by
    intro i waiter hi
    have hminds := h.minds i waiter hi
    refine ⟨hminds.above, hminds.listens, fun hdepends hreached => ?_, hminds.unblocked⟩
    obtain ⟨phase', documents', hphase', hmem, hold⟩ := hminds.told hdepends hreached
    rw [hphase] at hphase'
    cases hphase'
    exact ⟨phase, documents, hphase, hmem, htells i waiter hi hdepends hreached hmem hold⟩

/-- A wait that goes on with the same state and document, and depends on no more than before. -/
theorem Minds.mono {waiter' : Waiter} (h : t.Minds i waiter) (hstate : waiter'.state = waiter.state)
    (hdocumentId : waiter'.documentId = waiter.documentId) (hlistens : waiter'.Listens →
      waiter.Listens) (hdepends : waiter'.Depends → waiter.Depends)
    (hblocked : waiter'.Blocked → waiter.Blocked) : t.Minds i waiter' where
  above h' := hstate ▸ h.above (hdepends h')
  listens h' := hstate ▸ h.listens (hlistens h')
  told := by
    intro h' hreached
    rw [hstate, hdocumentId] at hreached
    obtain ⟨phase, documents, hphase, hmem, htells⟩ := h.told (hdepends h') hreached
    refine ⟨phase, documents, hphase, hstate ▸ hmem, ?_⟩
    cases hbarrier : t.barrier with
    | none =>
      rw [hbarrier] at htells
      rwa [Tells, hstate, hdocumentId]
    | some barrier =>
      rw [hbarrier] at htells
      cases barrier with
      | notifying | invoking => rwa [Tells, hstate, hdocumentId]
      | publishing => exact htells
  unblocked h' := hstate ▸ h.unblocked (hblocked h')

theorem Minds.finish (h : t.Minds i waiter) (error : Option WaitError) :
    t.Minds i (waiter.finish error) := by
  have hopen : ¬ (waiter.finish error).Depends :=
    Waiter.not_depends_of_completed (Waiter.finish_completed error)
  refine h.mono (Waiter.finish_state error) (Waiter.finish_documentId error) ?_
    (fun hdepends => absurd hdepends hopen) (fun hblocked => absurd hblocked.depends hopen)
  rw [Waiter.Listens, Waiter.finish_stage]
  exact id

theorem tell_eq {d j : ℕ} (hj : t.tell d i j = some waiter) :
    (j ≠ i ∧ t.waiters j = some waiter) ∨ j = i ∧ ∃ before, t.waiters i = some before ∧
      waiter = if d = before.documentId then before.finish none else before := by
  rw [AwaitState.tell, Function.update_apply] at hj
  split at hj
  · rename_i hji
    obtain ⟨before, hbefore, rfl⟩ := Option.map_eq_some_iff.mp hj
    exact .inr ⟨hji, before, hbefore, rfl⟩
  · rename_i hji
    exact .inl ⟨hji, hj⟩

theorem not_depends_of_tell {d : ℕ} (hi : t.tell d i i = some waiter)
    (hd : d = waiter.documentId) : ¬ waiter.Depends := by
  rcases tell_eq hi with ⟨hne, -⟩ | ⟨-, before, hbefore, rfl⟩
  · exact absurd rfl hne
  · split
    · exact Waiter.not_depends_of_completed (Waiter.finish_completed none)
    · rename_i hother
      rw [if_neg hother] at hd
      exact absurd hd hother

theorem Attentive.tell (h : t.Attentive) (d i : ℕ) :
    Attentive { t with waiters := t.tell d i } where
  orderly := h.orderly.congr rfl rfl rfl rfl rfl rfl
  minds := by
    intro j waiter hj
    have hminds : t.Minds j waiter := by
      rcases tell_eq hj with ⟨-, hj⟩ | ⟨rfl, before, hbefore, rfl⟩
      · exact h.minds j waiter hj
      · split
        · exact (h.minds j before hbefore).finish none
        · exact h.minds j before hbefore
    exact ⟨hminds.above, hminds.listens, hminds.told, hminds.unblocked⟩

/-- **Telling and publishing misses nobody.** -/
theorem Attentive.barrierStep (h : t.Attentive) {event : AwaitEvent τ}
    (hallowed : t.Allowed event) (hstep : t.barrierStep event = some t') : t'.Attentive := by
  cases event with
  | drain =>
    rw [AwaitState.barrierStep] at hstep
    split at hstep
    · rename_i phase documents hbarrier hphase
      split at hstep
      · cases hstep
        refine h.setBarrier hphase (by rw [Unpublished, hbarrier]; nofun) nofun ?_
        intro i waiter hi hdepends hreached hmem htells
        rw [hbarrier] at htells
        obtain ⟨entry, hentry, hlt⟩ := htells
        exact Phase.mem_notifications hentry hlt hmem hreached
      · cases hstep
    · cases hstep
  | notify =>
    rw [AwaitState.barrierStep] at hstep
    split at hstep
    · rename_i d state pending hbarrier
      cases hstep
      obtain ⟨phase, documents, hphase⟩ := phase_of_barrier h.orderly hbarrier
      refine h.setBarrier hphase (by rw [Unpublished, hbarrier]; nofun) nofun ?_
      intro i waiter hi hdepends hreached hmem htells
      rw [hbarrier] at htells
      rcases List.mem_cons.mp htells with heq | hpending
      · -- it listens, so it is in the copy
        cases heq
        exact .inr (.inl ⟨rfl, (h.minds i waiter hi).listens hdepends.listens⟩)
      · exact .inr (.inr hpending)
    · rename_i phase documents hbarrier hphase
      cases hstep
      refine h.setBarrier hphase (by rw [Unpublished, hbarrier]; nofun) ?_ ?_
      · rintro pending ⟨⟩
        rfl
      · intro i waiter hi hdepends hreached hmem htells
        rw [hbarrier] at htells
        cases htells
    · cases hstep
  | invoke =>
    rw [AwaitState.barrierStep] at hstep
    split at hstep
    · rename_i d i listeners cancellation pending hbarrier
      obtain ⟨phase, documents, hphase⟩ := phase_of_barrier h.orderly hbarrier
      have hold : t.Unpublished := by
        rw [Unpublished, hbarrier]
        nofun
      split at hstep
      · cases hstep
        exact h.setBarrier hphase hold nofun fun _ _ _ _ _ _ _ => .inl rfl
      · cases hstep
        refine (h.tell d i).setBarrier hphase hold nofun ?_
        intro j waiter hj hdepends hreached hmem htells
        replace htells : Tells t.entryStates j waiter t.barrier := htells
        rw [hbarrier] at htells
        rcases htells with hcancelled | ⟨hd, hlistener⟩ | hpending
        · exact .inl hcancelled
        · refine .inr (.inl ⟨hd, ?_⟩)
          rcases List.mem_cons.mp hlistener with rfl | hlistener
          · -- it has just been told
            exact absurd hdepends (not_depends_of_tell hj hd)
          · exact hlistener
        · exact .inr (.inr hpending)
    · rename_i d pending hbarrier
      cases hstep
      exact h.endCall (hallowed ⟨_, _, hbarrier⟩)
    · rename_i d pending hbarrier
      cases hstep
      obtain ⟨phase, documents, hphase⟩ := phase_of_barrier h.orderly hbarrier
      refine h.setBarrier hphase (by rw [Unpublished, hbarrier]; nofun) nofun ?_
      intro i waiter hi hdepends hreached hmem htells
      rw [hbarrier] at htells
      rcases htells with hcancelled | ⟨-, hlistener⟩ | hpending
      · cases hcancelled
      · cases hlistener
      · exact hpending
    · cases hstep
  | otherCancelled =>
    rw [AwaitState.barrierStep] at hstep
    split at hstep
    · rename_i d listeners cancellation pending hbarrier
      cases hstep
      obtain ⟨phase, documents, hphase⟩ := phase_of_barrier h.orderly hbarrier
      exact h.setBarrier hphase (by rw [Unpublished, hbarrier]; nofun) nofun
        fun _ _ _ _ _ _ _ => .inl rfl
    · cases hstep
  | throws =>
    rw [AwaitState.barrierStep] at hstep
    split at hstep
    · split at hstep
      · cases hstep
        exact h.endCall hallowed
      · cases hstep
    · split at hstep
      · cases hstep
        exact h.endCall hallowed
      · cases hstep
    · cases hstep
  | publish =>
    rw [AwaitState.barrierStep] at hstep
    split at hstep
    · rename_i state pending hbarrier
      cases hstep
      refine ⟨h.orderly.publish hbarrier, fun i waiter hi => ?_⟩
      have hminds := h.minds i waiter hi
      -- nobody is to be told any more
      have hnot : waiter.Depends →
          ¬ t.builder.workspace.reached waiter.documentId waiter.state = true :=
        fun hdepends hreached =>
          not_toBeTold_of_publishing hbarrier (hminds.told hdepends hreached)
      refine ⟨hminds.above, hminds.listens,
        fun hdepends hreached => absurd hreached (hnot hdepends), fun hblocked => ?_⟩
      by_contra hle
      exact hnot hblocked.depends
        (hallowed state pending hbarrier i waiter hi hblocked (DocumentState.not_lt.mp hle))
    · cases hstep
  | _ => cases hstep

/-! ### Waits that go on -/

/-- One wait changes, and the listeners of the others stay. -/
theorem Attentive.setWaiter (h : t.Attentive) {listeners : DocumentState → List ℕ}
    (hothers : ∀ j state, j ≠ i → j ∈ t.documentPhaseListeners state → j ∈ listeners state)
    (hminds : Minds { t with documentPhaseListeners := listeners } i waiter) :
    Attentive { t.setWaiter i waiter with documentPhaseListeners := listeners } where
  orderly := h.orderly.congr rfl rfl rfl rfl rfl rfl
  minds := by
    intro j waiter' hj
    replace hj : update t.waiters i (some waiter) j = some waiter' := hj
    rw [Function.update_apply] at hj
    split at hj
    · rename_i hji
      cases hj
      rw [hji]
      exact ⟨hminds.above, hminds.listens, hminds.told, hminds.unblocked⟩
    · rename_i hne
      have hold := h.minds j waiter' hj
      exact ⟨hold.above, fun hlistens => hothers j _ hne (hold.listens hlistens), hold.told,
        hold.unblocked⟩

/-- A wait that has no listener does not depend on anything. -/
theorem minds_of_not_listens (h : ¬ waiter.Listens) : t.Minds i waiter where
  above h' := absurd h'.listens h
  listens h' := absurd h' h
  told h' := absurd h'.listens h
  unblocked h' := absurd h'.depends.listens h

/-- A wait with its listener that has still to look, or is finished. -/
theorem minds_of_not_depends (hlistens : i ∈ t.documentPhaseListeners waiter.state)
    (h : ¬ waiter.Depends) : t.Minds i waiter where
  above h' := absurd h' h
  listens _ := hlistens
  told h' := absurd h' h
  unblocked h' := absurd h'.depends h

/-- What a look that goes on to compare has seen. -/
theorem not_reached_of_lookUp (h : t.lookUp waiter = none) :
    .changed < waiter.state ∧
      ¬ t.builder.workspace.reached waiter.documentId waiter.state = true := by
  rw [lookUp] at h
  split at h
  · cases h
  · rename_i document hdocument
    split at h
    · cases h
    · rename_i hbelow
      refine ⟨?_, fun hreached => ?_⟩
      · exact Nat.lt_of_le_of_lt (Nat.zero_le _) (Nat.not_le.mp hbelow)
      · obtain ⟨document', hdocument', hle⟩ := Workspace.reached_iff.mp hreached
        rw [hdocument] at hdocument'
        cases hdocument'
        exact hbelow hle

/-- What is published when a comparison lets the wait sleep. -/
theorem Minds.currentState_lt (h : t.Minds i waiter) (horderly : t.Orderly)
    (hdepends : waiter.Depends) {held : ℕ} (hcompare : t.compare waiter held = none) :
    t.currentState < waiter.state := by
  by_contra hnot
  have hpublished : waiter.state ≤ t.currentState := DocumentState.not_lt.mp hnot
  have hheld : waiter.state ≤ t.heldState waiter.documentId held := by
    by_contra hbelow
    have herror := hcompare
    rw [compare] at herror
    rw [if_pos ⟨hpublished, Nat.not_le.mp hbelow⟩] at herror
    cases herror
  -- the document looked up is still there
  have hreached : t.builder.workspace.reached waiter.documentId waiter.state = true := by
    have habove : .changed < waiter.state := h.above hdepends
    rw [heldState] at hheld
    split at hheld
    · split at hheld
      · rename_i document hdocument
        exact Workspace.reached_iff.mpr ⟨document, hdocument, hheld⟩
      · exact absurd hheld (Nat.not_le.mpr habove)
    · exact absurd hheld (Nat.not_le.mpr habove)
  -- so it is to be told, and the states of the phase are not published
  obtain ⟨phase, documents, hphase, hmem, htells⟩ := h.told hdepends hreached
  obtain ⟨jobs, hstage⟩ := BuilderState.phase_eq_some.mp hphase
  have hfloor : t.currentState = phase.floor := by
    refine (horderly.inPhase _ _ _ hstage).floor fun pending hbarrier => ?_
    rw [hbarrier] at htells
    exact htells
  exact hnot (hfloor ▸ Phase.floor_lt hmem)

/-- **A wait that goes on is not missed.** -/
theorem Attentive.waitStep (h : t.Attentive) (hi : t.waiters i = some waiter)
    (hstep : t.waitStep i waiter = some t') : t'.Attentive := by
  have hminds : t.Minds i waiter := h.minds i waiter hi
  -- a step after which it has no listener, or still has the one it had
  have away : ∀ {waiter' : Waiter}, ¬ waiter'.Listens → (t.setWaiter i waiter').Attentive :=
    fun hnot => h.setWaiter (fun _ _ _ hj => hj) (minds_of_not_listens hnot)
  have stays : ∀ {waiter' : Waiter}, t.Minds i waiter' → (t.setWaiter i waiter').Attentive :=
    fun hminds' => h.setWaiter (fun _ _ _ hj => hj)
      ⟨hminds'.above, hminds'.listens, hminds'.told, hminds'.unblocked⟩
  cases hstage : waiter.stage with
  | checking =>
    rw [AwaitState.waitStep, hstage] at hstep
    dsimp only at hstep
    split at hstep
    · cases hstep
      exact away id
    · cases hstep
      exact away id
  | comparing held =>
    rw [AwaitState.waitStep, hstage] at hstep
    dsimp only at hstep
    split at hstep
    · cases hstep
      exact away id
    · cases hstep
      exact away id
  | registering =>
    rw [AwaitState.waitStep, hstage] at hstep
    dsimp only at hstep
    split at hstep
    · cases hstep
      exact away id
    · cases hstep
      refine h.setWaiter (fun j state _ hj => ?_) (minds_of_not_depends ?_ ?_)
      · rw [Function.update_apply]
        split
        · rename_i heq
          exact List.mem_append_left _ (heq ▸ hj)
        · exact hj
      · show i ∈ update t.documentPhaseListeners waiter.state _ waiter.state
        rw [Function.update_self]
        exact List.mem_append_right _ List.mem_cons_self
      · rintro ⟨-, hwaiting | ⟨held, hcomparing⟩⟩
        · cases hwaiting
        · cases hcomparing
  | subscribing =>
    rw [AwaitState.waitStep, hstage] at hstep
    cases hstep
    have hlistens : i ∈ t.documentPhaseListeners waiter.state :=
      hminds.listens (by rw [Waiter.Listens, hstage]; trivial)
    have hrechecking : t.Minds i { waiter with stage := .rechecking } := by
      refine minds_of_not_depends hlistens ?_
      rintro ⟨-, hwaiting | ⟨held, hcomparing⟩⟩
      · cases hwaiting
      · cases hcomparing
    refine stays ?_
    split
    · exact hrechecking.finish _
    · exact hrechecking
  | rechecking =>
    rw [AwaitState.waitStep, hstage] at hstep
    have hlistens : i ∈ t.documentPhaseListeners waiter.state :=
      hminds.listens (by rw [Waiter.Listens, hstage]; trivial)
    dsimp only at hstep
    split at hstep
    · cases hstep
      refine stays (minds_of_not_depends ?_ ?_)
      · rwa [Waiter.finish_state]
      · exact Waiter.not_depends_of_completed (Waiter.finish_completed _)
    · rename_i hlookUp
      cases hstep
      obtain ⟨habove, hnot⟩ := not_reached_of_lookUp hlookUp
      refine stays ⟨fun _ => habove, fun _ => hlistens, fun _ hreached => absurd hreached hnot, ?_⟩
      rintro ⟨hwaiting, -⟩
      cases hwaiting
  | recomparing held =>
    rw [AwaitState.waitStep, hstage] at hstep
    have hlistens : i ∈ t.documentPhaseListeners waiter.state :=
      hminds.listens (by rw [Waiter.Listens, hstage]; trivial)
    dsimp only at hstep
    split at hstep
    · cases hstep
      refine stays (minds_of_not_depends ?_ ?_)
      · rwa [Waiter.finish_state]
      · exact Waiter.not_depends_of_completed (Waiter.finish_completed _)
    · rename_i hcompare
      cases hstep
      have hdepends : Waiter.Depends { waiter with stage := .waiting } → waiter.Depends :=
        fun hdepends => ⟨hdepends.1, .inr ⟨held, hstage⟩⟩
      exact stays ⟨fun h' => hminds.above (hdepends h'), fun _ => hlistens,
        fun h' => hminds.told (hdepends h'),
        fun h' => hminds.currentState_lt h.orderly (hdepends h'.depends) hcompare⟩
  | waiting =>
    rw [AwaitState.waitStep, hstage] at hstep
    dsimp only at hstep
    split at hstep
    · cases hstep
      refine h.setWaiter (fun j state hj hmem => ?_) (minds_of_not_listens id)
      rw [Function.update_apply]
      split
      · rename_i heq
        exact (List.mem_erase_of_ne hj).mpr (heq ▸ hmem)
      · exact hmem
    · cases hstep
  | returned error =>
    rw [AwaitState.waitStep, hstage] at hstep
    cases hstep

theorem not_listens_newWaiter (state : DocumentState) (d : ℕ) : ¬ (newWaiter state d).Listens := by
  rw [newWaiter]
  split <;> exact id

theorem Minds.cancel (h : t.Minds i waiter) :
    t.Minds i { waiter with cancelRequested := true }.onCancelled := by
  have hsame : t.Minds i { waiter with cancelRequested := true } :=
    ⟨h.above, h.listens, h.told, h.unblocked⟩
  rw [Waiter.onCancelled]
  split
  · exact hsame.finish _
  · exact hsame.finish _
  · exact hsame.finish _
  · exact hsame

/-- **A step misses nobody.** -/
theorem Attentive.step (h : t.Attentive) {event : AwaitEvent τ} (hallowed : t.Allowed event)
    (hstep : AwaitState.step L t event = some t') : t'.Attentive := by
  cases event with
  | builder event => exact h.builder hallowed hstep
  | requestCancel =>
    cases hstep
    refine ⟨h.orderly.congr rfl rfl rfl rfl rfl rfl, fun i waiter hi => ?_⟩
    have hminds := h.minds i waiter hi
    exact ⟨hminds.above, hminds.listens, hminds.told, hminds.unblocked⟩
  | waitUntil i state d =>
    rw [AwaitState.step] at hstep
    split at hstep
    · cases hstep
      exact h.setWaiter (fun _ _ _ hj => hj) (minds_of_not_listens (not_listens_newWaiter state d))
    · cases hstep
  | wait i =>
    obtain ⟨waiter, hi, hstep⟩ := Option.bind_eq_some_iff.mp hstep
    exact h.waitStep hi hstep
  | cancelWait i =>
    obtain ⟨waiter, hi, rfl⟩ := Option.map_eq_some_iff.mp hstep
    have hminds := (h.minds i waiter hi).cancel
    exact h.setWaiter (fun _ _ _ hj => hj)
      ⟨hminds.above, hminds.listens, hminds.told, hminds.unblocked⟩
  | _ => exact h.barrierStep hallowed hstep

theorem attentive_start (w : Workspace τ δ) : (start w).Attentive where
  orderly := orderly_outside rfl rfl fun _ h => absurd h (Option.some_ne_none _).symm
  minds _ _ h := absurd h (Option.some_ne_none _).symm

theorem attentive_of_reaches {w : Workspace τ δ}
    (h : (machine L).Reaches Allowed (start w) t) : t.Attentive :=
  h.invariant (attentive_start w) fun _ _ _ hinv hallowed hstep => hinv.step hallowed hstep

/-! ### How a wait ends -/

/-- `check_now` in one piece, as it is when nothing happens in between. -/
def check (t : AwaitState τ δ) (waiter : Waiter) : Option (Option WaitError) :=
  match t.lookUp waiter with
  | some error => some error
  | none => (t.compare waiter (t.removals waiter.documentId)).map some

/-- The wait returns by its own next steps. -/
def Returns (L : Language τ δ) (t : AwaitState τ δ) (i : ℕ) (error : Option WaitError) : Prop :=
  ∃ n t' waiter, (machine L).run t (List.replicate n (.wait i)) = some t' ∧
    t'.waiters i = some waiter ∧ waiter.stage = .returned error

theorem Returns.step {error : Option WaitError} (hi : t.waiters i = some waiter)
    (hstep : t.waitStep i waiter = some t') (h : t'.Returns L i error) : t.Returns L i error := by
  obtain ⟨n, t'', waiter'', hrun, hend⟩ := h
  refine ⟨n + 1, t'', waiter'', ?_, hend⟩
  rw [List.replicate_succ, Machine.run]
  show (((t.waiters i).bind (t.waitStep i)).bind _) = _
  rw [hi, Option.bind_some, hstep]
  exact hrun

theorem returns_setWaiter {error : Option WaitError} (h : waiter.stage = .returned error) :
    (t.setWaiter i waiter).Returns L i error :=
  ⟨0, _, waiter, rfl, Function.update_self _ _ _, h⟩

/-- A sleeping wait that is finished returns what it was finished with. -/
theorem returns_of_completed (hi : t.waiters i = some waiter) (hstage : waiter.stage = .waiting)
    (hcompleted : waiter.completed = true) : t.Returns L i waiter.error := by
  have hstep : ∃ t', t.waitStep i waiter = some t' ∧
      t'.waiters i = some { waiter with stage := .returned waiter.error } := by
    rw [AwaitState.waitStep, hstage]
    dsimp only
    rw [if_pos hcompleted]
    exact ⟨_, rfl, Function.update_self _ _ _⟩
  obtain ⟨t', hstep, hi'⟩ := hstep
  exact .step hi hstep ⟨0, t', _, rfl, hi', rfl⟩

/-- A wait that its own second look finishes. -/
theorem returns_of_finish (hopen : waiter.completed = false) (error : Option WaitError) :
    (t.setWaiter i ({ waiter with stage := .waiting }.finish error)).Returns L i error := by
  have hfinish : Waiter.finish error { waiter with stage := .waiting }
      = { waiter with stage := .waiting, completed := true, error := error } :=
    if_neg (by rw [hopen]; exact Bool.false_ne_true)
  rw [hfinish]
  have hreturns := @returns_of_completed _ _ L
    (t.setWaiter i { waiter with stage := .waiting, completed := true, error := error }) i
    { waiter with stage := .waiting, completed := true, error := error }
    (Function.update_self _ _ _) rfl rfl
  exact hreturns

/-- When the state is published, the check is conclusive: it says whether the document has
reached the state. -/
theorem check_conclusive (h : waiter.state ≤ t.currentState) :
    ∃ error, t.check waiter = some error ∧ (error = none ↔
      t.builder.workspace.reached waiter.documentId waiter.state = true) := by
  cases hlookUp : t.lookUp waiter with
  | some error =>
    refine ⟨error, by rw [check, hlookUp], ?_⟩
    rw [lookUp] at hlookUp
    rw [Workspace.reached]
    split at hlookUp
    · rename_i hnone
      cases hlookUp
      rw [hnone]
      exact iff_of_false nofun nofun
    · rename_i document hdocument
      split at hlookUp
      · rename_i hle
        cases hlookUp
        rw [hdocument]
        exact iff_of_true rfl (decide_eq_true hle)
      · cases hlookUp
  | none =>
    obtain ⟨-, hnot⟩ := not_reached_of_lookUp hlookUp
    have hbelow : t.heldState waiter.documentId (t.removals waiter.documentId) < waiter.state := by
      by_contra hle
      rw [heldState, if_pos rfl] at hle
      cases hdocument : t.builder.workspace.documents waiter.documentId with
      | none =>
        rw [lookUp, hdocument] at hlookUp
        cases hlookUp
      | some document =>
        rw [hdocument] at hle
        exact hnot (Workspace.reached_iff.mpr ⟨document, hdocument, DocumentState.not_lt.mp hle⟩)
    refine ⟨some (make_failure waiter (t.heldState waiter.documentId
      (t.removals waiter.documentId)) t.currentState), ?_, iff_of_false nofun hnot⟩
    rw [check, hlookUp, compare, if_pos ⟨h, hbelow⟩]
    rfl

theorem waitStep_comparing {held : ℕ} {failure : WaitError}
    (hstage : waiter.stage = .comparing held) (hcompare : t.compare waiter held = some failure) :
    t.waitStep i waiter
      = some (t.setWaiter i { waiter with stage := .returned (some failure) }) := by
  rw [AwaitState.waitStep, hstage]
  dsimp only
  rw [hcompare]

theorem waitStep_recomparing {held : ℕ} {failure : WaitError}
    (hstage : waiter.stage = .recomparing held) (hcompare : t.compare waiter held = some failure) :
    t.waitStep i waiter
      = some (t.setWaiter i ({ waiter with stage := .waiting }.finish (some failure))) := by
  rw [AwaitState.waitStep, hstage]
  dsimp only
  rw [hcompare]

/-- A first check that is conclusive ends the call. -/
theorem returns_of_checking {error : Option WaitError} (hi : t.waiters i = some waiter)
    (hstage : waiter.stage = .checking) (hcheck : t.check waiter = some error) :
    t.Returns L i error := by
  rw [check] at hcheck
  cases hlookUp : t.lookUp waiter with
  | some error' =>
    rw [hlookUp] at hcheck
    cases hcheck
    have hstep : t.waitStep i waiter
        = some (t.setWaiter i { waiter with stage := .returned error }) := by
      rw [AwaitState.waitStep, hstage]
      dsimp only
      rw [hlookUp]
    exact .step hi hstep (returns_setWaiter rfl)
  | none =>
    rw [hlookUp] at hcheck
    obtain ⟨failure, hcompare, rfl⟩ := Option.map_eq_some_iff.mp hcheck
    have hlook : t.waitStep i waiter = some (t.setWaiter i
        { waiter with stage := .comparing (t.removals waiter.documentId) }) := by
      rw [AwaitState.waitStep, hstage]
      dsimp only
      rw [hlookUp]
    have hstep := @waitStep_comparing _ _ (t.setWaiter i
      { waiter with stage := .comparing (t.removals waiter.documentId) }) i
      { waiter with stage := .comparing (t.removals waiter.documentId) } _ failure rfl hcompare
    have hreturns := @returns_setWaiter _ _ L (t.setWaiter i
      { waiter with stage := .comparing (t.removals waiter.documentId) }) i
      { waiter with stage := .returned (some failure) } _ rfl
    exact .step hi hlook (.step (Function.update_self _ _ _) hstep hreturns)

/-- A second check that is conclusive ends it in the same way. -/
theorem returns_of_rechecking {error : Option WaitError} (hi : t.waiters i = some waiter)
    (hstage : waiter.stage = .rechecking) (hopen : waiter.completed = false)
    (hcheck : t.check waiter = some error) : t.Returns L i error := by
  rw [check] at hcheck
  cases hlookUp : t.lookUp waiter with
  | some error' =>
    rw [hlookUp] at hcheck
    cases hcheck
    have hstep : t.waitStep i waiter
        = some (t.setWaiter i ({ waiter with stage := .waiting }.finish error)) := by
      rw [AwaitState.waitStep, hstage]
      dsimp only
      rw [hlookUp]
    exact .step hi hstep (returns_of_finish hopen error)
  | none =>
    rw [hlookUp] at hcheck
    obtain ⟨failure, hcompare, rfl⟩ := Option.map_eq_some_iff.mp hcheck
    have hlook : t.waitStep i waiter = some (t.setWaiter i
        { waiter with stage := .recomparing (t.removals waiter.documentId) }) := by
      rw [AwaitState.waitStep, hstage]
      dsimp only
      rw [hlookUp]
    have hstep := @waitStep_recomparing _ _ (t.setWaiter i
      { waiter with stage := .recomparing (t.removals waiter.documentId) }) i
      { waiter with stage := .recomparing (t.removals waiter.documentId) } _ failure rfl hcompare
    have hreturns := @returns_of_finish _ _ L (t.setWaiter i
      { waiter with stage := .recomparing (t.removals waiter.documentId) }) i
      { waiter with stage := .recomparing (t.removals waiter.documentId) } hopen (some failure)
    exact .step hi hlook (.step (Function.update_self _ _ _) hstep hreturns)

end AwaitState

open AwaitState in
/-- **In a run that misses nobody, nobody is left waiting for a state that is published**, and
who still has to look gets from the second check what the first would say: nothing when the
document has reached the state, and an error when it is below it or gone. -/
theorem waitUntil_misses_nobody {w : Workspace τ δ} {t : AwaitState τ δ}
    (h : (machine L).Reaches Allowed (start w) t) {i : ℕ} {waiter : Waiter}
    (hi : t.waiters i = some waiter) (hpublished : waiter.state ≤ t.currentState) :
    ¬ waiter.Blocked ∧ ∃ error, (error = none ↔
      t.builder.workspace.reached waiter.documentId waiter.state = true) ∧
      t.check waiter = some error ∧
      (waiter.stage = .checking → t.Returns L i error) ∧
      (waiter.stage = .rechecking → waiter.completed = false → t.Returns L i error) := by
  obtain ⟨error, hcheck, hreached⟩ := check_conclusive hpublished
  refine ⟨fun hblocked => ?_, error, hreached, hcheck, ?_, ?_⟩
  · have habove := ((attentive_of_reaches h).minds i waiter hi).unblocked hblocked
    exact absurd hpublished (Nat.not_le.mpr habove)
  · exact fun hstage => returns_of_checking hi hstage hcheck
  · exact fun hstage hopen => returns_of_rechecking hi hstage hopen hcheck

/-! ### Builds with one who waits -/

namespace AwaitState

variable {t t' : AwaitState τ δ}

/-- Nobody else waits. -/
def Alone (t : AwaitState τ δ) : Prop := ∀ i, i ≠ 0 → t.waiters i = none

/-- Nothing is cut short, and nobody who depends on it is passed over. -/
def calm (t : AwaitState τ δ) : AwaitEvent τ → Bool
  | .builder .stop | .builder (.getOrCreateDocument _) | .throws => (t.waiters 0).isNone
  | .builder (.work (.task _)) =>
    (t.waiters 0).all fun waiter => waiter.completed || decide (t.currentState < waiter.state)
  | .invoke =>
    match t.barrier with
    | some (.invoking _ [] true _) => false
    | _ => true
  | .publish => (t.waiters 0).all (·.completed)
  | .waitUntil i _ _ => i = 0
  | _ => true

theorem allowed_of_calm (h : t.Alone) {event : AwaitEvent τ} (hcalm : calm t event = true) :
    t.Allowed event := by
  have hzero : ∀ {i waiter}, t.waiters i = some waiter → t.waiters 0 = some waiter := by
    intro i waiter hi
    by_cases hne : i = 0
    · rw [← hne, hi]
    · cases (h i hne).symm.trans hi
  have howes : (t.waiters 0).isNone = true → ¬ t.Owes := by
    rintro hnone ⟨i, waiter, hi, -⟩
    rw [hzero hi] at hnone
    cases hnone
  cases event with
  | builder event =>
    cases event with
    | stop => exact howes hcalm
    | getOrCreateDocument =>
      intro _ i waiter hi
      simp only [calm, hzero hi] at hcalm
      cases hcalm
    | work work =>
      cases work with
      | next => trivial
      | task =>
        intro i waiter hi hdepends _ hle
        simp only [calm, hzero hi, Option.all_some, hdepends.1, Bool.false_or,
          decide_eq_true_eq] at hcalm
        exact absurd hle (Nat.not_le.mpr hcalm)
    | _ => trivial
  | throws => exact howes hcalm
  | invoke =>
    rintro ⟨d, pending, hbarrier⟩
    simp only [calm, hbarrier] at hcalm
    cases hcalm
  | publish =>
    intro state pending _ i waiter hi hblocked
    simp only [calm, hzero hi, Option.all_some, hblocked.2] at hcalm
    cases hcalm
  | _ => trivial

/-- A step of a wait is about that wait. -/
theorem waiters_of_waitStep {i : ℕ} {waiter : Waiter} (hstep : t.waitStep i waiter = some t') :
    ∃ waiter', t'.waiters = Function.update t.waiters i (some waiter') := by
  unfold AwaitState.waitStep at hstep
  split at hstep
  -- who is subscribed has no case left, and who has returned no step
  case h_4 =>
    cases hstep
    exact ⟨_, rfl⟩
  case h_8 => cases hstep
  all_goals
    split at hstep <;> cases hstep <;> exact ⟨_, rfl⟩

theorem alone_step (h : t.Alone) {event : AwaitEvent τ} (hcalm : calm t event = true)
    (hstep : AwaitState.step L t event = some t') : t'.Alone := by
  have hset : ∀ {i} waiter, i = 0 → (t.setWaiter i waiter).Alone := by
    rintro i waiter rfl j hj
    exact (Function.update_of_ne hj _ _).trans (h j hj)
  have hzero : ∀ {i waiter}, t.waiters i = some waiter → i = 0 := by
    intro i waiter hi
    by_contra hne
    cases (h i hne).symm.trans hi
  have htell : ∀ d j i, i ≠ 0 → t.tell d j i = none := by
    intro d j i hi
    rw [tell, Function.update_apply]
    split
    · rename_i heq
      rw [← heq, h i hi]
      rfl
    · exact h i hi
  cases event with
  | builder event =>
    obtain ⟨-, b, -, rfl⟩ := builderStep_eq hstep
    exact h
  | waitUntil i =>
    simp only [AwaitState.step] at hstep
    split at hstep
    · cases hstep
      exact hset _ (of_decide_eq_true hcalm)
    · cases hstep
  | wait i =>
    obtain ⟨waiter, hi, hwait⟩ := Option.bind_eq_some_iff.mp hstep
    obtain ⟨waiter', hwaiters⟩ := waiters_of_waitStep hwait
    intro j hj
    rw [hwaiters, hzero hi, Function.update_of_ne hj]
    exact h j hj
  | cancelWait i =>
    obtain ⟨waiter, hi, hcancel⟩ := Option.map_eq_some_iff.mp hstep
    cases hcancel
    exact hset _ (hzero hi)
  | requestCancel =>
    cases hstep
    exact h
  | invoke =>
    simp only [AwaitState.step, AwaitState.barrierStep] at hstep
    split at hstep
    · split at hstep
      · cases hstep
        exact h
      · cases hstep
        exact htell _ _
    · cases hstep
      exact h
    · cases hstep
      exact h
    · cases hstep
  | _ =>
    simp only [AwaitState.step, AwaitState.barrierStep] at hstep
    split at hstep <;> first
      | cases hstep
        exact h
      | split at hstep <;> cases hstep
        exact h
      | cases hstep

end AwaitState

/-! ### A wait that is released -/

section Missed

open AwaitState

/-- A text without symbols. -/
def emptyText : Ast := ⟨0, [], []⟩

def emptyStart : AwaitState Ast String := start (.empty fun _ => emptyText)

/-- A document is created. -/
def createdEvents : List (AwaitEvent Ast) :=
  [.builder .getOrCreateDocumentId, .builder (.getOrCreateDocument 0)]

/-- Steps of the call. -/
def nextEvents (n : ℕ) : List (AwaitEvent Ast) := List.replicate n (.builder (.work .next))

/-- A phase with some tasks of the document, after which nobody else listens to what it has
reached. -/
def phaseEvents (tasks told published : ℕ) : List (AwaitEvent Ast) :=
  List.replicate tasks (.builder (.work (.task 0))) ++ [.drain] ++
    (List.replicate told [.notify, .invoke]).flatten ++ [.notify] ++
    List.replicate published .publish ++ nextEvents 1

/-- Somebody waits for it until he sleeps. -/
def sleepEvents (state : DocumentState) : List (AwaitEvent Ast) :=
  .waitUntil 0 state 0 :: List.replicate 6 (.wait 0)

/-- The phase of a build that he waits for: he is told, and the states are published. -/
def releasedEvents : List (AwaitEvent Ast) :=
  [.builder (.build [0] ⟨none, .unset⟩), .builder (.work (.task 0)), .drain, .notify, .invoke,
    .invoke, .notify, .publish, .publish]

/-- Somebody sleeps until the document is indexed, and is released then. -/
theorem waitUntil_misses_nobody_released :
    ∃ t t' waiter, (machine Language.literal).run emptyStart
        (createdEvents ++ sleepEvents .indexedContent) = some t ∧
      t.waiters 0 = some waiter ∧ waiter.Blocked ∧
      (machine Language.literal).run t releasedEvents = some t' ∧
      ∃ waiter', t'.waiters 0 = some waiter' ∧ ¬ waiter'.Blocked ∧
        t'.check waiter' = some none := by
  obtain ⟨t, ht⟩ : ∃ t, (machine Language.literal).run emptyStart
      (createdEvents ++ sleepEvents .indexedContent) = some t := ⟨_, rfl⟩
  obtain ⟨t', ht'⟩ : ∃ t', (machine Language.literal).run t releasedEvents = some t' := by
    cases ht
    exact ⟨_, rfl⟩
  have hrun : (machine Language.literal).run emptyStart
      (createdEvents ++ sleepEvents .indexedContent ++ releasedEvents) = some t' := by
    rw [Machine.run_append, ht]
    exact ht'
  have hallowed : (machine Language.literal).AllowedRun Allowed emptyStart
      (createdEvents ++ sleepEvents .indexedContent ++ releasedEvents) :=
    Machine.allowedRun_of_tested (fun _ _ => rfl) (fun t event h => allowed_of_calm h)
      (fun t event t' h hcalm hstep => alone_step h hcalm hstep) (by decide +kernel)
  obtain ⟨waiter, hi, hblocked⟩ : ∃ waiter, t.waiters 0 = some waiter ∧ waiter.Blocked := by
    cases ht
    exact ⟨_, rfl, rfl, rfl⟩
  obtain ⟨waiter', hi', hpublished⟩ : ∃ waiter', t'.waiters 0 = some waiter' ∧
      waiter'.state ≤ t'.currentState := by
    cases ht
    cases ht'
    exact ⟨_, rfl, by decide⟩
  obtain ⟨hreleased, error, hreached, hcheck, -⟩ :=
    waitUntil_misses_nobody (Machine.reaches_of_run hrun hallowed) hi' hpublished
  have hnone : error = none := hreached.mpr (by
    cases ht
    cases ht'
    cases hi'
    rfl)
  exact ⟨t, t', waiter, ht, hi, hblocked, ht', waiter', hi', hreleased, hnone ▸ hcheck⟩

/-! ### Waits that are missed -/

/-- The document is deleted, and the update goes through its phases without it. -/
def deletedEvents : List (AwaitEvent Ast) :=
  createdEvents ++ sleepEvents .validated ++ [.builder (.update [] [0] ⟨none, .unset⟩)] ++
    nextEvents 6 ++ phaseEvents 0 0 2 ++ phaseEvents 0 0 3 ++ phaseEvents 0 0 1

/-- A build is stopped when the document has reached the state, and an update follows. -/
def stoppedEvents : List (AwaitEvent Ast) :=
  createdEvents ++ sleepEvents .indexedContent ++ [.builder (.build [0] ⟨none, .unset⟩),
    .builder (.work (.task 0)), .requestCancel, .builder .stop,
    .builder (.update [] [] ⟨none, .unset⟩)] ++
    nextEvents 6 ++ phaseEvents 0 0 2 ++ phaseEvents 3 3 3 ++ phaseEvents 0 0 1

/-- **A wait is missed when its document is deleted, and when the call that gets it there is
stopped**: the builder is idle, everything is published, and the wait sleeps, although the
document is gone, or has reached the state. -/
theorem waitUntil_missed :
    (∃ t waiter, (machine Language.literal).run emptyStart deletedEvents = some t ∧
      t.builder.call = none ∧ t.currentState = .validated ∧ t.waiters 0 = some waiter ∧
      waiter.Blocked ∧ t.builder.workspace.documents 0 = none) ∧
    ∃ t waiter, (machine Language.literal).run emptyStart stoppedEvents = some t ∧
      t.builder.call = none ∧ t.currentState = .validated ∧ t.waiters 0 = some waiter ∧
      waiter.Blocked ∧ t.builder.workspace.reached 0 waiter.state = true :=
  ⟨⟨_, _, rfl, rfl, rfl, rfl, ⟨rfl, rfl⟩, rfl⟩, ⟨_, _, rfl, rfl, rfl, rfl, ⟨rfl, rfl⟩, rfl⟩⟩

end Missed

end Pegium
