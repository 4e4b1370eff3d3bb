/-
Pegium/Workspace/BookkeepingRuns.lean

Validation bookkeeping over whole runs.

A call that is in its phases has prepared a build for the documents it works on
(`Call.Prepared`), so a run keeps the accounts of a document, as long as `build()`
is not asked for it at a bad moment (`BuilderState.BuildsCleanly`).

`Call.Underway` follows one document through the phases of an update: it waits
below Validated under the options in force, until it is served.  A document
that is served already is left alone (`Call.Untouched`).

Main result: `validation_bookkeeping`.
-/
import Pegium.Workspace.Bookkeeping

namespace Pegium

open Function (update)

variable {τ δ : Type} {L : Language τ δ} {w w' : Workspace τ δ} {d : ℕ}

/-! ### Prepared builds -/

theorem DocumentState.lt_validated {s : DocumentState} : s < .validated ↔ s ≠ .validated := by
  cases s <;> decide

theorem Phase.Fits.of_validate {link : Bool} {phase : Phase} {rest : List Task} {s : DocumentState}
    (h : Phase.Fits link phase (.validate :: rest) s) :
    phase = .validation ∧ rest = [] ∧ s < .validated := by
  generalize htasks : Task.validate :: rest = tasks at h
  cases h with
  | validate _ h =>
    cases htasks
    exact ⟨rfl, rfl, h⟩
  | link is _ _ => cases is <;> cases htasks
  | _ => cases htasks

/-- The build states a task leaves alone. -/
theorem Task.run_buildStates {task : Task} (h : task ≠ .validate) :
    (task.run L d w).buildStateByDocumentId = w.buildStateByDocumentId := by
  cases task with
  | validate => exact absurd rfl h
  | _ => rfl

theorem Workspace.shouldValidate_of_eq
    (h : w'.buildStateByDocumentId d = w.buildStateByDocumentId d) :
    w'.shouldValidate d = w.shouldValidate d := by
  rw [shouldValidate, shouldValidate, getBuildOptions, getBuildOptions, h]

namespace Call

/-- A document that a phase has work for has a build that is not completed; in the
last phase it is one that validates. -/
def Prepared (w : Workspace τ δ) (phase : Phase) (documents : List ℕ) (jobs : ℕ → List Task) :
    Prop :=
  ∀ d ∈ documents, (phase = .validation → jobs d ≠ []) →
    w.Unfinished d ∧ (phase = .validation → w.shouldValidate d = true)

/-- A call in a phase has what it needs there. -/
def Orderly (w : Workspace τ δ) (call : Call) : Prop :=
  match call.stage with
  | .phase phase documents jobs =>
    Phase.Ready w phase documents jobs ∧ Prepared w phase documents jobs
  | _ => True

theorem Prepared.congr {phase : Phase} {documents : List ℕ} {jobs : ℕ → List Task}
    (h : Prepared w phase documents jobs)
    (states : w'.buildStateByDocumentId = w.buildStateByDocumentId) :
    Prepared w' phase documents jobs := by
  intro d hd hjobs
  have hboth := h d hd hjobs
  simp only [Workspace.Unfinished, Workspace.shouldValidate, Workspace.getBuildOptions, states]
  exact hboth

theorem Orderly.congr {call : Call} (h : call.Orderly w) (hdocuments : w'.documents = w.documents)
    (states : w'.buildStateByDocumentId = w.buildStateByDocumentId) : call.Orderly w' := by
  unfold Orderly at h ⊢
  split
  next hs =>
    rw [hs] at h
    exact ⟨h.1.congr hdocuments states, h.2.congr states⟩
  next => trivial

theorem unfinished_prepareBuild {documents : List ℕ} {options : BuildOptions} (hd : d ∈ documents) :
    (w.prepareBuild documents options).Unfinished d := by
  unfold Workspace.Unfinished Workspace.prepareBuild
  simp only [if_pos hd]
  split
  · exact ⟨_, rfl, rfl⟩
  · split
    · exact ⟨_, rfl, rfl⟩
    next hnot => exact ⟨_, rfl, by simpa using hnot⟩

theorem orderly_buildDocuments {call : Call} {documents : List ℕ} (options : BuildOptions)
    (inStore : ∀ d ∈ documents, (w.documents d).isSome) :
    (call.buildDocuments documents (w.prepareBuild documents options)).Orderly
      (w.prepareBuild documents options) :=
  ⟨.content inStore, fun _ hd _ => ⟨unfinished_prepareBuild hd, nofun⟩⟩

/-- A step of a phase, on the builds it has prepared. -/
theorem Prepared.run {phase : Phase} {documents : List ℕ} {jobs : ℕ → List Task}
    (ready : Phase.Ready w phase documents jobs) (h : Prepared w phase documents jobs) {task : Task}
    {rest : List Task} (hjobs : jobs d = task :: rest) :
    Prepared (task.run L d w) phase documents (Function.update jobs d rest) := by
  obtain ⟨hmem, document, hdocument, -⟩ := ready.entry hjobs
  intro d' hd' hleft
  by_cases htask : task = .validate
  · subst htask
    have hfits := ready.fits d hmem document hdocument
    rw [hjobs] at hfits
    obtain ⟨hphase, rfl, -⟩ := hfits.of_validate
    have hne : d' ≠ d := by
      rintro rfl
      exact hleft hphase (Function.update_self ..)
    obtain ⟨⟨build, hbuild, hnot⟩, henabled⟩ := h d' hd' fun hp => by
      have := hleft hp
      rwa [Function.update_of_ne hne] at this
    refine ⟨⟨build, ?_, hnot⟩, fun hp => ?_⟩
    · rw [← hbuild]
      exact (Task.run_sameElsewhere .validate).buildStates d' hne
    · rw [← henabled hp, Workspace.shouldValidate, Workspace.shouldValidate,
        Task.getBuildOptions_run]
  · refine Prepared.congr h (Task.run_buildStates htask) d' hd' fun hp => ?_
    have hleft' := hleft hp
    by_cases hdd : d' = d
    · rw [hdd, hjobs]
      exact List.cons_ne_nil _ _
    · rwa [Function.update_of_ne hdd] at hleft'

/-- Marking builds that do not validate leaves those that do. -/
theorem markAsCompleted_of_shouldValidate (documents : List ℕ) (h : w.shouldValidate d = true) :
    (w.markAsCompleted (documents.filter fun d => !w.shouldValidate d)).buildStateByDocumentId d
      = w.buildStateByDocumentId d := by
  refine if_neg fun hmem => ?_
  have hnot := (List.mem_filter.mp hmem).2
  rw [h] at hnot
  cases hnot

variable {call : Call} {call' : Option Call}

/-- **A step of a call keeps it orderly.** -/
theorem Does.orderly (h : Does L call w w' call') (hc : call.Orderly w) :
    ∀ next, call' = some next → next.Orderly w' := by
  cases h with
  | select documents h hdocuments =>
    rintro next ⟨⟩
    refine orderly_buildDocuments _ fun d hd => ?_
    rw [hdocuments] at hd
    exact (List.mem_filter.mp (List.mem_filter.mp hd).1).2
  | @task phase documents jobs d task rest h hjobs =>
    rintro next ⟨⟩
    simp only [Orderly, h] at hc
    exact ⟨hc.1.run hjobs, hc.2.run hc.1 hjobs⟩
  | @endPhase documents jobs phase h hover =>
    simp only [Orderly, h] at hc
    obtain ⟨ready, prepared⟩ := hc
    cases phase with
    | content =>
      rintro next ⟨⟩
      exact ⟨ready.references hover, fun d hd _ => ⟨(prepared d hd nofun).1, nofun⟩⟩
    | references =>
      rintro next ⟨⟩
      refine ⟨ready.validation hover _ fun d hd => (List.mem_filter.mp hd).1, fun d hd _ => ?_⟩
      obtain ⟨hmem, henabled⟩ := List.mem_filter.mp hd
      have hsame := markAsCompleted_of_shouldValidate documents henabled
      obtain ⟨build, hbuild, hnot⟩ := (prepared d hmem nofun).1
      exact ⟨⟨build, hsame.trans hbuild, hnot⟩, fun _ =>
        (Workspace.shouldValidate_of_eq hsame).trans henabled⟩
    | validation => exact fun next hnext => nomatch hnext
  | start h | delete d pending h | deleted h | change d pending h | changed h | relink d pending h
  | relinked h =>
    rintro next ⟨⟩
    trivial

/-- **A step of a call keeps the accounts of a document.** -/
theorem Does.accounted (hL : L.validationCategories ≠ []) (h : Does L call w w' call')
    (hc : call.Orderly w) (hd : w.Accounted L d) : w'.Accounted L d := by
  cases h with
  | start h => exact hd
  | delete d' pending h => exact hd.deleteDocument
  | deleted h => exact hd
  | change d' pending h => exact hd.changeDocument
  | changed h => exact hd
  | relink d' pending h => exact hd.relinkDocument _
  | relinked h => exact hd.congr rfl rfl
  | select documents h hdocuments =>
    refine hd.prepareBuild _ fun hmem => ?_
    rw [hdocuments] at hmem
    exact (List.mem_filter.mp (List.mem_filter.mp hmem).1).2
  | @task phase documents jobs d' task rest h hjobs =>
    by_cases hdd : d = d'
    · subst hdd
      simp only [Orderly, h] at hc
      obtain ⟨ready, prepared⟩ := hc
      obtain ⟨hmem, document, hdocument, entry⟩ := ready.entry hjobs
      refine hd.run hL hdocument entry ?_
      rintro rfl
      have hfits := ready.fits d hmem document hdocument
      rw [hjobs] at hfits
      obtain ⟨hphase, -, hs⟩ := hfits.of_validate
      obtain ⟨hunfinished, henabled⟩ := prepared d hmem fun _ => by
        rw [hjobs]
        exact List.cons_ne_nil _ _
      exact ⟨DocumentState.lt_validated.mp hs, hunfinished, henabled hphase⟩
    · exact hd.elsewhere task.run_sameElsewhere hdd
  | @endPhase documents jobs phase h hover =>
    cases phase with
    | content | validation => exact hd
    | references =>
      refine hd.markAsCompleted fun hmem => ?_
      simpa using (List.mem_filter.mp hmem).2

end Call

/-! ### Runs -/

namespace BuilderState

/-- The bad moments for `build()`: it names the document twice, or the document has
diagnostics and is not validated. -/
def BuildsCleanly (d : ℕ) (s : BuilderState τ δ) : BuilderEvent τ → Prop
  | .build documents _ => d ∈ documents → documents.Nodup ∧ s.workspace.Clean d
  | _ => True

/-- The call is orderly, and stored documents have a URI. -/
structure Regular (s : BuilderState τ δ) : Prop where
  orderly : ∀ call, s.call = some call → call.Orderly s.workspace
  registered : ∀ d, (s.workspace.documents d).isSome → d < s.workspace.nextDocumentId

theorem nextDocumentId_reopen (documents : List ℕ) (options : BuildOptions) :
    (w.reopen L documents options).nextDocumentId = w.nextDocumentId := by
  show (documents.foldl (Workspace.reopenBuild L options) w).nextDocumentId = _
  induction documents generalizing w with
  | nil => rfl
  | cons d' documents ih =>
    rw [List.foldl_cons, ih]
    exact (Workspace.sameElsewhere_reopenBuild options d').nextDocumentId

theorem Regular.congr {s : BuilderState τ δ} (h : s.Regular) {w : Workspace τ δ}
    (documents : w.documents = s.workspace.documents)
    (states : w.buildStateByDocumentId = s.workspace.buildStateByDocumentId)
    (ids : s.workspace.nextDocumentId ≤ w.nextDocumentId) : Regular ⟨w, s.call⟩ where
  orderly call hcall := (h.orderly call hcall).congr documents states
  registered d hd := by
    rw [documents] at hd
    exact Nat.lt_of_lt_of_le (h.registered d hd) ids

/-- Between calls only the store matters. -/
theorem regular_idle (h : ∀ d, (w.documents d).isSome → d < w.nextDocumentId) :
    Regular (⟨w, none⟩ : BuilderState τ δ) where
  orderly _ hcall := nomatch hcall
  registered := h

theorem registered_getOrCreateDocument (h : ∀ d, (w.documents d).isSome → d < w.nextDocumentId)
    {d' : ℕ} (hd : ((w.getOrCreateDocument L d').documents d).isSome) :
    d < (w.getOrCreateDocument L d').nextDocumentId := by
  have same := Workspace.sameElsewhere_getOrCreateDocument (L := L) (w := w) (d := d')
  rw [same.nextDocumentId]
  by_cases hdd : d = d'
  · subst hdd
    unfold Workspace.getOrCreateDocument at hd
    split at hd
    next hdoc => exact h d (by rw [hdoc]; rfl)
    next hdoc =>
      split at hd
      next hlt => exact hlt
      next => exact h d hd
  · rw [same.documents d hdd] at hd
    exact h d hd

theorem registered_resetToState (h : ∀ d, (w.documents d).isSome → d < w.nextDocumentId) {d' : ℕ}
    (state : DocumentState) (hd : ((w.resetToState d' state).documents d).isSome) :
    d < (w.resetToState d' state).nextDocumentId := by
  rw [Workspace.resetToState_documents, Workspace.isSome_update_map] at hd
  exact h d hd

/-- A step of a call stores no document without a URI. -/
theorem registered_of_does {call : Call} {call' : Option Call}
    (h : ∀ d, (w.documents d).isSome → d < w.nextDocumentId) (hdoes : call.Does L w w' call') :
    ∀ d, (w'.documents d).isSome → d < w'.nextDocumentId := by
  intro d hd
  cases hdoes with
  | delete d' pending _ =>
    refine h d ?_
    by_cases hdd : d = d'
    · subst hdd
      simp [Workspace.deleteDocument] at hd
    · rwa [Workspace.sameElsewhere_deleteDocument.documents d hdd] at hd
  | change d' pending _ =>
    unfold Workspace.changeDocument at hd ⊢
    dsimp only at hd ⊢
    split at hd
    next hsome =>
      rw [if_pos hsome]
      exact registered_resetToState (fun _ => registered_getOrCreateDocument h) _ hd
    next hnone =>
      rw [if_neg hnone]
      exact registered_getOrCreateDocument h hd
  | relink d' pending _ =>
    unfold Workspace.relinkDocument at hd ⊢
    split at hd
    next hrelink =>
      rw [if_pos hrelink]
      exact registered_resetToState h _ hd
    next hrelink =>
      rw [if_neg hrelink]
      exact h d hd
  | task d' task _ _ _ =>
    rw [task.run_sameElsewhere.nextDocumentId]
    rw [task.isSome_run_documents] at hd
    exact h d hd
  | endPhase phase _ _ => cases phase <;> exact h d hd
  | _ => exact h d hd

/-- **A step of the builder keeps it regular.** -/
theorem Regular.step {s s' : BuilderState τ δ} {event : BuilderEvent τ} (h : s.Regular)
    (hstep : (machine L).step s event = some s') : s'.Regular := by
  cases event with
  | getOrCreateDocumentId =>
    cases hstep
    exact h.congr rfl rfl (Nat.le_succ _)
  | setTextDocument d text =>
    cases hstep
    exact h.congr rfl rfl (Nat.le_refl _)
  | writeFile d text =>
    cases hstep
    exact h.congr rfl rfl (Nat.le_refl _)
  | getOrCreateDocument d =>
    obtain ⟨w, - | call⟩ := s
    · cases hstep
      exact regular_idle fun _ => registered_getOrCreateDocument h.registered
    · cases hstep
  | update changed deleted options =>
    obtain ⟨w, - | call⟩ := s
    · cases hstep
      refine ⟨?_, h.registered⟩
      rintro call ⟨⟩
      trivial
    · cases hstep
  | build documents options =>
    obtain ⟨w, - | call⟩ := s
    · simp only [machine, BuilderState.step, idleStep] at hstep
      split at hstep
      next hall =>
        cases hstep
        refine ⟨?_, fun d hd => ?_⟩
        · rintro call ⟨⟩
          refine Call.orderly_buildDocuments options fun d hd => ?_
          have hsome := Workspace.isSome_reopen (L := L) (w := w) documents options d
          rw [List.all_eq_true.mp hall d hd] at hsome
          exact hsome
        · rw [Workspace.isSome_reopen] at hd
          exact Nat.lt_of_lt_of_eq (h.registered d hd)
            (nextDocumentId_reopen documents options).symm
      next => cases hstep
    · cases hstep
  | resolve d i =>
    obtain ⟨w, - | call⟩ := s
    · cases hstep
      refine regular_idle fun d' hd => h.registered d' ?_
      exact (Workspace.isSome_update_map _ _ _ _).symm.trans hd
    · cases hstep
  | work work =>
    obtain ⟨w, - | call⟩ := s
    · cases hstep
    · obtain ⟨⟨w', call'⟩, hcall, rfl⟩ := Option.map_eq_some_iff.mp hstep
      have hdoes := Call.does_of_step hcall
      exact ⟨hdoes.orderly (h.orderly call rfl), registered_of_does h.registered hdoes⟩
  | stop =>
    obtain ⟨w, - | call⟩ := s
    · cases hstep
    · simp only [machine, BuilderState.step, callStep] at hstep
      split at hstep
      · cases hstep
        exact regular_idle h.registered
      · cases hstep

/-- **A step of the builder keeps the accounts of a document**, unless `build()` is asked
for it at a bad moment. -/
theorem accounted_step (hL : L.validationCategories ≠ []) {s s' : BuilderState τ δ}
    {event : BuilderEvent τ} (hs : s.Regular) (h : s.workspace.Accounted L d)
    (hclean : BuildsCleanly d s event) (hstep : (machine L).step s event = some s') :
    s'.workspace.Accounted L d := by
  cases event with
  | getOrCreateDocumentId | setTextDocument _ _ | writeFile _ _ =>
    cases hstep
    exact h.congr rfl rfl
  | getOrCreateDocument d' =>
    obtain ⟨w, - | call⟩ := s
    · cases hstep
      exact Workspace.Accounted.getOrCreateDocument h
    · cases hstep
  | update changed deleted options =>
    obtain ⟨w, - | call⟩ := s <;> cases hstep
    exact h
  | build documents options =>
    obtain ⟨w, - | call⟩ := s
    · simp only [machine, BuilderState.step, idleStep] at hstep
      split at hstep
      next hall =>
        cases hstep
        by_cases hmem : d ∈ documents
        · obtain ⟨hnodup, hclean⟩ := hclean hmem
          have hreopened := Workspace.Accounted.foldl_reopenBuild h options hnodup fun _ => hclean
          refine Workspace.Accounted.prepareBuild (hreopened.congr rfl rfl) options fun _ => ?_
          have hsome := Workspace.isSome_reopen (L := L) (w := w) documents options d
          rw [List.all_eq_true.mp hall d hmem] at hsome
          exact hsome
        · have hreopened := Workspace.Accounted.foldl_reopenBuild_of_not_mem h options hmem
          exact Workspace.Accounted.prepareBuild (hreopened.congr rfl rfl) options fun hd =>
            absurd hd hmem
      next => cases hstep
    · cases hstep
  | resolve d' i =>
    obtain ⟨w, - | call⟩ := s
    · cases hstep
      exact Workspace.Accounted.resolve h
    · cases hstep
  | work work =>
    obtain ⟨w, - | call⟩ := s
    · cases hstep
    · obtain ⟨⟨w', call'⟩, hcall, rfl⟩ := Option.map_eq_some_iff.mp hstep
      exact (Call.does_of_step hcall).accounted hL (hs.orderly call rfl) h
  | stop =>
    obtain ⟨w, - | call⟩ := s
    · cases hstep
    · simp only [machine, BuilderState.step, callStep] at hstep
      split at hstep
      · cases hstep
        exact h
      · cases hstep

end BuilderState

/-! ### How far an update brings a document -/

namespace Workspace

/-- The options a document is built under: those of its build, if one is left
unfinished, and otherwise those asked for. -/
def optionsInForce (w : Workspace τ δ) (d : ℕ) (options : BuildOptions) : BuildOptions :=
  match w.buildStateByDocumentId d with
  | some state => if state.completed then options else state.options
  | none => options

/-- A document waits below Validated for a build under these options. -/
def Awaiting (w : Workspace τ δ) (d : ℕ) (options : BuildOptions) : Prop :=
  (∃ document, w.documents d = some document ∧ document.state < .validated) ∧
    ∃ build, w.buildStateByDocumentId d = some build ∧ build.completed = false ∧
      build.options = options

/-- The build of a document is completed and no category that is asked for is missing;
if the options validate, the document is Validated. -/
def Served (L : Language τ δ) (w : Workspace τ δ) (d : ℕ) (options : BuildOptions) : Prop :=
  (∃ document, w.documents d = some document ∧
    (options.validation.isEnabled = true → document.state = .validated)) ∧
    (∃ build, w.buildStateByDocumentId d = some build ∧ build.completed = true) ∧
      w.findMissing L d options = []

variable {options : BuildOptions}

theorem Awaiting.congr (h : w.Awaiting d options) (documents : w'.documents d = w.documents d)
    (states : w'.buildStateByDocumentId d = w.buildStateByDocumentId d) :
    w'.Awaiting d options := by
  unfold Awaiting at h ⊢
  rw [documents, states]
  exact h

theorem Served.congr (h : w.Served L d options) (documents : w'.documents d = w.documents d)
    (states : w'.buildStateByDocumentId d = w.buildStateByDocumentId d) :
    w'.Served L d options := by
  unfold Served findMissing at h ⊢
  rw [documents, states]
  exact h

/-- Preparing a build settles the options. -/
theorem awaiting_prepareBuild {documents : List ℕ} (hd : d ∈ documents) {document : Document τ δ}
    (hdocument : w.documents d = some document) (hs : document.state < .validated) :
    (w.prepareBuild documents options).Awaiting d (w.optionsInForce d options) := by
  refine ⟨⟨document, hdocument, hs⟩, ?_⟩
  simp only [prepareBuild, optionsInForce, if_pos hd]
  cases w.buildStateByDocumentId d with
  | none => exact ⟨_, rfl, rfl, rfl⟩
  | some build =>
    dsimp only
    split
    · exact ⟨_, rfl, rfl, rfl⟩
    next hnot => exact ⟨build, rfl, by simpa using hnot, rfl⟩

theorem not_isEnabled_requestedCategories {option : BuildValidationOption}
    (h : option.isEnabled = false) : requestedCategories L option = [] := by
  cases option with
  | unset => rfl
  | enabled value =>
    cases value with
    | false => rfl
    | true => cases h
  | options options => cases h

/-- A build that does not validate is done when it is marked. -/
theorem Awaiting.markAsCompleted (h : w.Awaiting d options)
    (hoptions : options.validation.isEnabled = false) {documents : List ℕ} (hd : d ∈ documents) :
    (w.markAsCompleted documents).Served L d options := by
  obtain ⟨⟨document, hdocument, -⟩, build, hbuild, -⟩ := h
  refine ⟨⟨document, hdocument, fun henabled => ?_⟩,
    ⟨{ build with completed := true }, ?_, rfl⟩, ?_⟩
  · rw [hoptions] at henabled
    cases henabled
  · show (if d ∈ documents then _ else _) = _
    rw [if_pos hd, hbuild]
    rfl
  · rw [findMissing, not_isEnabled_requestedCategories hoptions]
    rfl

/-- A validated document has all that its build asks for. -/
theorem Awaiting.validate (h : w.Awaiting d options) : (w.validate L d).Served L d options := by
  obtain ⟨⟨document, hdocument, -⟩, build, hbuild, hnot, rfl⟩ := h
  have hstate := buildState_validate (L := L) hbuild
  have hvalidated := Task.run_document (L := L) .validate hdocument
  refine ⟨⟨_, hvalidated, fun _ => rfl⟩, ⟨_, hstate, rfl⟩, ?_⟩
  · rw [findMissing, hstate, List.filter_eq_nil_iff]
    intro category hcategory
    have hexecuted : category ∈ recordedChecks (some build) ∨
        category ∈ w.findMissing L d build.options := by
      by_cases hmem : category ∈ recordedChecks (some build)
      · exact .inl hmem
      · refine .inr (List.mem_filter.mpr ⟨hcategory, ?_⟩)
        rw [hbuild, executedCategories_of_not_completed hnot]
        simpa using hmem
    have hrecorded := mem_recordChecks.mpr hexecuted
    simpa using mem_executedCategories (L := L) hrecorded

end Workspace

namespace Call

/-- Where a call has brought a document that it serves under some options. -/
inductive Underway (L : Language τ δ) (d : ℕ) (options : BuildOptions) (w : Workspace τ δ)
    (call : Call) : Prop
  | selecting (h : call.stage = .selecting)
      (hd : ∃ document, w.documents d = some document ∧ document.state < .validated)
      (force : w.optionsInForce d call.options = options)
  | waits {phase : Phase} {documents : List ℕ} {jobs : ℕ → List Task}
      (h : call.stage = .phase phase documents jobs) (hd : d ∈ documents)
      (hjobs : phase = .validation → jobs d ≠ []) (awaits : w.Awaiting d options)
  | served {documents : List ℕ} {jobs : ℕ → List Task}
      (h : call.stage = .phase .validation documents jobs) (hjobs : jobs d = [])
      (served : w.Served L d options)

/-- A call that does not work on a document: it was served before. -/
inductive Untouched (L : Language τ δ) (d : ℕ) (w : Workspace τ δ) (call : Call) : Prop
  | selecting (h : call.stage = .selecting)
      (hd : ∃ document, w.documents d = some document ∧ document.state = .validated)
      (served : w.Served L d call.options)
  | phase {phase : Phase} {documents : List ℕ} {jobs : ℕ → List Task}
      (h : call.stage = .phase phase documents jobs) (hd : d ∉ documents)

/-- A call that has relinked. -/
inductive Late (call : Call) : Prop
  | selecting (h : call.stage = .selecting)
  | phase {phase : Phase} {documents : List ℕ} {jobs : ℕ → List Task}
      (h : call.stage = .phase phase documents jobs)

/-- What is left of a call, if it goes on. -/
def Left (P : Call → Prop) (done : Prop) : Option Call → Prop
  | some call => P call
  | none => done

variable {options : BuildOptions} {call : Call} {call' : Option Call}

theorem Underway.congr (h : call.Underway L d options w)
    (documents : w'.documents d = w.documents d)
    (states : w'.buildStateByDocumentId d = w.buildStateByDocumentId d) :
    call.Underway L d options w' := by
  cases h with
  | selecting h hd force =>
    refine .selecting h (documents ▸ hd) ?_
    rw [← force, Workspace.optionsInForce, Workspace.optionsInForce, states]
  | waits h hd hjobs awaits => exact .waits h hd hjobs (awaits.congr documents states)
  | served h hjobs served => exact .served h hjobs (served.congr documents states)

theorem Untouched.congr (h : call.Untouched L d w) (documents : w'.documents d = w.documents d)
    (states : w'.buildStateByDocumentId d = w.buildStateByDocumentId d) :
    call.Untouched L d w' := by
  cases h with
  | selecting h hd served => exact .selecting h (documents ▸ hd) (served.congr documents states)
  | phase h hd => exact .phase h hd

/-- No task but the last leaves a document Validated. -/
theorem state_onDocument_lt {task : Task} (htask : task ≠ .validate) {document : Document τ δ}
    (entry : Phase.Entry task document.state) :
    (task.onDocument L d w document).state < .validated := by
  cases task with
  | validate => exact absurd rfl htask
  | resolve i =>
    show (w.resolveLink L d i document).state < _
    rw [Workspace.resolveLink_state, entry]
    decide
  | _ => exact DocumentState.lt_validated.mpr nofun

theorem eq_validate_of_fits {link : Bool} {task : Task} {rest : List Task} {s : DocumentState}
    (h : Phase.Fits link .validation (task :: rest) s) : task = .validate := by
  generalize htasks : task :: rest = tasks at h
  cases h with
  | validate _ _ =>
    cases htasks
    rfl
  | validated _ => cases htasks

theorem shouldValidate_of_awaiting (h : w.Awaiting d options) :
    w.shouldValidate d = options.validation.isEnabled := by
  obtain ⟨-, build, hbuild, -, rfl⟩ := h
  rw [Workspace.shouldValidate, Workspace.getBuildOptions_of_some hbuild]

/-- A task of the document itself. -/
theorem underway_task {phase : Phase} {documents : List ℕ} {jobs : ℕ → List Task} {task : Task}
    {rest : List Task} (ready : Phase.Ready w phase documents jobs) (hjobs : jobs d = task :: rest)
    (awaits : w.Awaiting d options) :
    Underway L d options (task.run L d w)
      { call with stage := .phase phase documents (Function.update jobs d rest) } := by
  obtain ⟨hmem, document, hdocument, entry⟩ := ready.entry hjobs
  have hfits := ready.fits d hmem document hdocument
  rw [hjobs] at hfits
  by_cases htask : task = .validate
  · subst htask
    obtain ⟨rfl, rfl, -⟩ := hfits.of_validate
    exact .served rfl (Function.update_self ..) awaits.validate
  · refine .waits rfl hmem ?_
      ⟨⟨_, task.run_document hdocument, state_onDocument_lt htask entry⟩, ?_⟩
    · rintro rfl
      exact absurd (eq_validate_of_fits hfits) htask
    · rw [Task.run_buildStates htask]
      exact awaits.2

/-- The phase in which validation begins. -/
theorem underway_validation {documents : List ℕ} (hd : d ∈ documents) (h : w.Awaiting d options) :
    ∀ next, (call.endPhase w documents .references).2 = some next →
      next.Underway L d options (call.endPhase w documents .references).1 := by
  rintro next ⟨⟩
  have hshould := shouldValidate_of_awaiting h
  cases henabled : options.validation.isEnabled with
  | true =>
    rw [henabled] at hshould
    have hsame := markAsCompleted_of_shouldValidate documents hshould
    have awaits : (call.endPhase w documents .references).1.Awaiting d options := h.congr rfl hsame
    have hmem : d ∈ documents.filter fun d => w.shouldValidate d :=
      List.mem_filter.mpr ⟨hd, hshould⟩
    refine .waits rfl hmem (fun _ => ?_) awaits
    obtain ⟨⟨document, hdocument, hs⟩, -⟩ := awaits
    have hdocument' :
        (w.markAsCompleted (documents.filter fun d => !w.shouldValidate d)).documents d
          = some document := hdocument
    simp only [Phase.jobs, if_pos hmem, Phase.tasks, hdocument', validationTasks, if_pos hs]
    exact List.cons_ne_nil _ _
  | false =>
    rw [henabled] at hshould
    have hnot : d ∉ documents.filter fun d => w.shouldValidate d := by
      intro hmem
      rw [(List.mem_filter.mp hmem).2] at hshould
      cases hshould
    exact .served rfl (if_neg hnot) (h.markAsCompleted henabled (List.mem_filter.mpr
      ⟨hd, by rw [hshould]; rfl⟩))

/-- A call in a phase runs a task, or ends the phase. -/
theorem Does.of_phase {phase : Phase} {documents : List ℕ} {jobs : ℕ → List Task}
    (h : Does L call w w' call') (hstage : call.stage = .phase phase documents jobs) :
    (∃ d task rest, jobs d = task :: rest ∧ w' = Task.run L d task w ∧
      call' = some { call with stage := .phase phase documents (Function.update jobs d rest) }) ∨
    Phase.Over documents jobs ∧ w' = (call.endPhase w documents phase).1 ∧
      call' = (call.endPhase w documents phase).2 := by
  cases h with
  | task d task rest h hjobs =>
    cases hstage.symm.trans h
    exact .inl ⟨d, task, rest, hjobs, rfl, rfl⟩
  | endPhase phase' h hover =>
    cases hstage.symm.trans h
    exact .inr ⟨hover, rfl, rfl⟩
  | start h | deleted h | changed h | relinked h => cases hstage.symm.trans h
  | delete d pending h | change d pending h | relink d pending h => cases hstage.symm.trans h
  | select documents h hdocuments => cases hstage.symm.trans h

/-- A call that has relinked selects its documents. -/
theorem Does.of_selecting (h : Does L call w w' call') (hstage : call.stage = .selecting) :
    w' = w.prepareBuild (w.documentsToBuild L call.options) call.options ∧
      call' = some (call.buildDocuments (w.documentsToBuild L call.options) w') := by
  cases h with
  | select documents h hdocuments =>
    subst hdocuments
    exact ⟨rfl, rfl⟩
  | start h | deleted h | changed h | relinked h => cases hstage.symm.trans h
  | delete d pending h | change d pending h | relink d pending h => cases hstage.symm.trans h
  | task d task rest h hjobs => cases hstage.symm.trans h
  | endPhase phase h hover => cases hstage.symm.trans h

/-- **A step of a call, for a document that it serves.** -/
theorem Does.underway (h : Does L call w w' call') (hc : call.Orderly w)
    (registered : ∀ d, (w.documents d).isSome → d < w.nextDocumentId)
    (hu : call.Underway L d options w) :
    Left (Underway L d options w') (w'.Served L d options) call' := by
  cases hu with
  | selecting hstage hd force =>
    obtain ⟨document, hdocument, hs⟩ := hd
    obtain ⟨rfl, rfl⟩ := h.of_selecting hstage
    have hsome : (w.documents d).isSome := by rw [hdocument]; rfl
    have hmem : d ∈ w.documentsToBuild L call.options := by
      refine List.mem_filter.mpr ⟨List.mem_filter.mpr
        ⟨List.mem_range.mpr (registered d hsome), hsome⟩, ?_⟩
      simp only [hdocument, Option.map_some, Option.getD_some, hs, decide_true, Bool.true_or]
    refine .waits rfl hmem nofun ?_
    rw [← force]
    exact Workspace.awaiting_prepareBuild hmem hdocument hs
  | @waits phase documents jobs hstage hd hjobs awaits =>
    simp only [Orderly, hstage] at hc
    rcases h.of_phase hstage with ⟨d', task, rest, hjobs', rfl, rfl⟩ | ⟨hover, rfl, rfl⟩
    · by_cases hdd : d = d'
      · subst hdd
        exact underway_task hc.1 hjobs' awaits
      · have same := Task.run_sameElsewhere (L := L) (w := w) (d := d') task
        refine .waits rfl hd (fun hp => ?_) (awaits.congr (same.documents d hdd)
          (same.buildStates d hdd))
        rw [Function.update_of_ne hdd]
        exact hjobs hp
    · cases phase with
      | content => exact .waits rfl hd nofun awaits
      | references => exact underway_validation hd awaits _ rfl
      | validation => exact absurd (hover d hd) (hjobs rfl)
  | @served documents jobs hstage hjobs served =>
    rcases h.of_phase hstage with ⟨d', task, rest, hjobs', rfl, rfl⟩ | ⟨hover, rfl, rfl⟩
    · have hdd : d ≠ d' := by
        rintro rfl
        rw [hjobs] at hjobs'
        cases hjobs'
      have same := Task.run_sameElsewhere (L := L) (w := w) (d := d') task
      refine .served rfl ?_ (served.congr (same.documents d hdd) (same.buildStates d hdd))
      rw [Function.update_of_ne hdd]
      exact hjobs
    · exact served

/-- **A step of a call, for a document that it does not work on.** -/
theorem Does.untouched (h : Does L call w w' call') (hc : call.Orderly w)
    (hu : call.Untouched L d w) :
    w'.documents d = w.documents d ∧ w'.buildStateByDocumentId d = w.buildStateByDocumentId d ∧
      Left (Untouched L d w') True call' := by
  rcases hu with ⟨hstage, ⟨document, hdocument, hs⟩, served⟩ |
    @⟨phase, documents, jobs, hstage, hd⟩
  · obtain ⟨-, ⟨build, hbuild, hcompleted⟩, hmissing⟩ := served
    obtain ⟨rfl, rfl⟩ := h.of_selecting hstage
    have hnot : d ∉ w.documentsToBuild L call.options := by
      intro hmem
      have hselected := (List.mem_filter.mp hmem).2
      simp [hdocument, hs, hbuild, hcompleted, hmissing] at hselected
      exact absurd hselected (by decide)
    exact ⟨rfl, if_neg hnot, .phase rfl hnot⟩
  simp only [Orderly, hstage] at hc
  rcases h.of_phase hstage with ⟨d', task, rest, hjobs', rfl, rfl⟩ | ⟨hover, rfl, rfl⟩
  · obtain ⟨hmem, -⟩ := hc.1.entry hjobs'
    have hdd : d ≠ d' := by
      rintro rfl
      exact hd hmem
    have same := Task.run_sameElsewhere (L := L) (w := w) (d := d') task
    exact ⟨same.documents d hdd, same.buildStates d hdd, .phase rfl hd⟩
  · cases phase with
    | content => exact ⟨rfl, rfl, .phase rfl hd⟩
    | references =>
      refine ⟨rfl, if_neg fun hmem => hd (List.mem_filter.mp hmem).1, .phase rfl fun hmem => ?_⟩
      exact hd (List.mem_filter.mp hmem).1
    | validation => exact ⟨rfl, rfl, trivial⟩

/-- Once the documents are selected none is stored, and none deleted. -/
theorem Does.isSome_documents (h : Does L call w w' call') (hlate : call.Late) :
    (w'.documents d).isSome = (w.documents d).isSome ∧ Left Late True call' := by
  rcases hlate with hstage | @⟨phase, documents, jobs, hstage⟩
  · obtain ⟨rfl, rfl⟩ := h.of_selecting hstage
    exact ⟨rfl, .phase rfl⟩
  rcases h.of_phase hstage with ⟨d', task, rest, -, rfl, rfl⟩ | ⟨-, rfl, rfl⟩
  · exact ⟨task.isSome_run_documents d, .phase rfl⟩
  · cases phase with
    | content | references => exact ⟨rfl, .phase rfl⟩
    | validation => exact ⟨rfl, trivial⟩

end Call

/-! ### Updates that complete -/

namespace BuilderState

variable {s s' : BuilderState τ δ} {options : BuildOptions}

/-- The events that leave a call to its end. -/
def goesOn : BuilderEvent τ → Bool
  | .getOrCreateDocumentId | .setTextDocument _ _ | .writeFile _ _ | .work _ => true
  | _ => false

/-- **A step that goes on**: the texts and URIs change, or the call makes a step. -/
theorem step_of_goesOn {event : BuilderEvent τ} (he : goesOn event = true)
    (hstep : (machine L).step s event = some s') :
    (s'.workspace.documents = s.workspace.documents ∧
      s'.workspace.buildStateByDocumentId = s.workspace.buildStateByDocumentId ∧
      s'.call = s.call) ∨
    ∃ call, s.call = some call ∧ call.Does L s.workspace s'.workspace s'.call := by
  cases event with
  | getOrCreateDocumentId | setTextDocument _ _ | writeFile _ _ =>
    cases hstep
    exact .inl ⟨rfl, rfl, rfl⟩
  | work work =>
    obtain ⟨w, - | call⟩ := s
    · cases hstep
    · obtain ⟨⟨w', call'⟩, hcall, rfl⟩ := Option.map_eq_some_iff.mp hstep
      exact .inr ⟨call, rfl, Call.does_of_step hcall⟩
  | _ => cases he

theorem regular_empty (files : ℕ → τ) :
    Regular (⟨Workspace.empty files, none⟩ : BuilderState τ δ) :=
  regular_idle fun _ h => nomatch h

theorem regular_of_reaches {files : ℕ → τ} {Allowed : BuilderState τ δ → BuilderEvent τ → Prop}
    (h : (machine L).Reaches Allowed ⟨Workspace.empty files, none⟩ s) : s.Regular :=
  h.invariant (regular_empty files) fun _ _ _ hs _ hstep => hs.step hstep

theorem accounted_of_reaches (hL : L.validationCategories ≠ []) {files : ℕ → τ}
    (h : (machine L).Reaches (BuildsCleanly d) ⟨Workspace.empty files, none⟩ s) :
    s.workspace.Accounted L d := by
  have hboth : s.Regular ∧ s.workspace.Accounted L d := by
    refine @Machine.Reaches.invariant _ _ _ _ _ _
      (fun s => s.Regular ∧ s.workspace.Accounted L d) h ?_ ?_
    · exact ⟨regular_empty files, rfl⟩
    intro s e s' hs hclean hstep
    exact ⟨hs.1.step hstep, accounted_step hL hs.1 hs.2 hclean hstep⟩
  exact hboth.2

/-- The accounts are kept to the end of the call. -/
theorem accounted_of_goesOn (hL : L.validationCategories ≠ []) (hs : s.Regular)
    (h : s.workspace.Accounted L d)
    (hrun : (machine L).Reaches (fun _ event => goesOn event = true) s s') :
    s'.workspace.Accounted L d := by
  have hboth : s'.Regular ∧ s'.workspace.Accounted L d := by
    refine @Machine.Reaches.invariant _ _ _ _ _ _
      (fun s => s.Regular ∧ s.workspace.Accounted L d) hrun ?_ ?_
    · exact ⟨hs, h⟩
    intro s e s' hs he hstep
    refine ⟨hs.1.step hstep, accounted_step hL hs.1 hs.2 ?_ hstep⟩
    cases e with
    | build documents options => cases he
    | _ => trivial
  exact hboth.2

/-- A document below Validated is served when the update completes. -/
theorem served_of_goesOn (hs : s.Regular)
    (h : Call.Left (Call.Underway L d options s.workspace) (s.workspace.Served L d options) s.call)
    (hrun : (machine L).Reaches (fun _ event => goesOn event = true) s s')
    (hdone : s'.call = none) :
    s'.workspace.Served L d options := by
  have hboth : s'.Regular ∧ Call.Left (Call.Underway L d options s'.workspace)
      (s'.workspace.Served L d options) s'.call := by
    refine @Machine.Reaches.invariant _ _ _ _ _ _ (fun s => s.Regular ∧
      Call.Left (Call.Underway L d options s.workspace) (s.workspace.Served L d options) s.call)
      hrun ?_ ?_
    · exact ⟨hs, h⟩
    intro s e s' hs he hstep
    refine ⟨hs.1.step hstep, ?_⟩
    obtain ⟨hregular, hleft⟩ := hs
    rcases step_of_goesOn he hstep with ⟨documents, states, hcall⟩ | ⟨call, hcall, hdoes⟩
    · rw [hcall]
      cases hc : s.call with
      | none =>
        rw [hc] at hleft
        exact Workspace.Served.congr hleft (congrFun documents d) (congrFun states d)
      | some call =>
        rw [hc] at hleft
        exact Call.Underway.congr hleft (congrFun documents d) (congrFun states d)
    · rw [hcall] at hleft
      exact hdoes.underway (hregular.orderly call hcall) hregular.registered hleft
  have hleft := hboth.2
  rw [hdone] at hleft
  exact hleft

/-- A document that is served already is left as it is. -/
theorem untouched_of_goesOn (hs : s.Regular)
    (h : Call.Left (Call.Untouched L d s.workspace) True s.call)
    (hrun : (machine L).Reaches (fun _ event => goesOn event = true) s s') :
    s'.workspace.documents d = s.workspace.documents d ∧
      s'.workspace.buildStateByDocumentId d = s.workspace.buildStateByDocumentId d := by
  have hboth : s'.Regular ∧ Call.Left (Call.Untouched L d s'.workspace) True s'.call ∧
      s'.workspace.documents d = s.workspace.documents d ∧
      s'.workspace.buildStateByDocumentId d = s.workspace.buildStateByDocumentId d := by
    refine @Machine.Reaches.invariant _ _ _ _ _ _ (fun s' => s'.Regular ∧
      Call.Left (Call.Untouched L d s'.workspace) True s'.call ∧
      s'.workspace.documents d = s.workspace.documents d ∧
      s'.workspace.buildStateByDocumentId d = s.workspace.buildStateByDocumentId d) hrun ?_ ?_
    · exact ⟨hs, h, rfl, rfl⟩
    intro s₁ e s₂ hs₁ he hstep
    refine ⟨hs₁.1.step hstep, ?_⟩
    obtain ⟨hregular, hleft, hdocuments, hstates⟩ := hs₁
    rcases step_of_goesOn he hstep with ⟨documents, states, hcall⟩ | ⟨call, hcall, hdoes⟩
    · refine ⟨?_, (congrFun documents d).trans hdocuments, (congrFun states d).trans hstates⟩
      rw [hcall]
      cases hc : s₁.call with
      | none => trivial
      | some call =>
        rw [hc] at hleft
        exact Call.Untouched.congr hleft (congrFun documents d) (congrFun states d)
    · rw [hcall] at hleft
      obtain ⟨documents, states, hnext⟩ := hdoes.untouched (hregular.orderly call hcall) hleft
      exact ⟨hnext, documents.trans hdocuments, states.trans hstates⟩
  exact hboth.2.2

/-- The documents that are stored when the call is done were there when it selected. -/
theorem isSome_of_goesOn (h : Call.Left Call.Late True s.call)
    (hrun : (machine L).Reaches (fun _ event => goesOn event = true) s s') :
    (s'.workspace.documents d).isSome = (s.workspace.documents d).isSome := by
  have hboth : Call.Left Call.Late True s'.call ∧
      (s'.workspace.documents d).isSome = (s.workspace.documents d).isSome := by
    refine @Machine.Reaches.invariant _ _ _ _ _ _ (fun s' => Call.Left Call.Late True s'.call ∧
      (s'.workspace.documents d).isSome = (s.workspace.documents d).isSome) hrun ?_ ?_
    · exact ⟨h, rfl⟩
    intro s₁ e s₂ hs₁ he hstep
    obtain ⟨hlate, hsome⟩ := hs₁
    rcases step_of_goesOn he hstep with ⟨documents, -, hcall⟩ | ⟨call, hcall, hdoes⟩
    · rw [hcall, documents]
      exact ⟨hlate, hsome⟩
    · rw [hcall] at hlate
      obtain ⟨hkept, hnext⟩ := hdoes.isSome_documents (d := d) hlate
      exact ⟨hnext, hkept.trans hsome⟩
  exact hboth.2

/-- **The bookkeeping of an update that completes**, from where it selects its documents.
A document below Validated is served under the options in force for it; one that is
Validated and served under the options of the update is left as it is.  The diagnostics
are one copy for each category that is recorded, on the current AST, if no `build()` was
asked for the document at a bad moment. -/
theorem validation_bookkeeping (hL : L.validationCategories ≠ []) {files : ℕ → τ} {call : Call}
    (hreaches : (machine L).Reaches (fun _ _ => True) ⟨Workspace.empty files, none⟩ s)
    (hcall : s.call = some call) (hselecting : call.stage = .selecting)
    (hrun : (machine L).Reaches (fun _ event => goesOn event = true) s s') (hdone : s'.call = none)
    {document' : Document τ δ} (hdocument' : s'.workspace.documents d = some document') :
    (∃ document, s.workspace.documents d = some document ∧
      (document.state ≠ .validated →
        s'.workspace.Served L d (s.workspace.optionsInForce d call.options)) ∧
      (document.state = .validated → s.workspace.Served L d call.options →
        document' = document ∧ s'.workspace.Served L d call.options)) ∧
    ((machine L).Reaches (BuildsCleanly d) ⟨Workspace.empty files, none⟩ s →
      Copies L document' (recordedChecks (s'.workspace.buildStateByDocumentId d))) := by
  have hregular := regular_of_reaches hreaches
  constructor
  · have hsome := isSome_of_goesOn (d := d) (by rw [hcall]; exact .selecting hselecting) hrun
    rw [hdocument'] at hsome
    obtain ⟨document, hdocument⟩ := Option.isSome_iff_exists.mp hsome.symm
    refine ⟨document, hdocument, fun hs => ?_, fun hs hserved => ?_⟩
    · refine served_of_goesOn hregular ?_ hrun hdone
      rw [hcall]
      exact .selecting hselecting ⟨document, hdocument, DocumentState.lt_validated.mpr hs⟩ rfl
    · obtain ⟨hsame, hstates⟩ := untouched_of_goesOn (L := L) (d := d) hregular
        (by rw [hcall]; exact .selecting hselecting ⟨document, hdocument, hs⟩ hserved) hrun
      rw [hdocument', hdocument] at hsame
      exact ⟨Option.some.inj hsame, hserved.congr (by rw [hdocument', hdocument, hsame]) hstates⟩
  · intro hclean
    have haccounted := accounted_of_goesOn hL hregular (accounted_of_reaches hL hclean) hrun
    exact ((Workspace.accounted_of_some hdocument').mp haccounted).copies

/-! ### Two stopped calls -/

namespace Sample

open Call (steps tasks)

/-- A language whose validator reports the categories it is asked for. -/
def echo : Language Ast String :=
  { Language.literal with validateDocument := fun _ _ options => options.categories }

/-- One category is validated; and all of them. -/
def fastOnly : BuildOptions := ⟨none, .options ⟨["fast"], none, none⟩⟩

/-- Everything is validated. -/
def everything : BuildOptions := ⟨none, .enabled true⟩

def run (events : List (BuilderEvent Ast)) : Option (BuilderState Ast String) :=
  (machine echo).run ⟨Workspace.empty fun _ => ⟨1, [], []⟩, none⟩ events

/-- An update of one category is stopped when it begins to build, and the next update
asks for everything; up to where it selects. -/
def resumed : List (BuilderEvent Ast) :=
  [.getOrCreateDocumentId, .update [0] [] fastOnly] ++ (steps 7).map .work ++
    [.stop, .update [] [] everything] ++ (steps 5).map .work

/-- The rest of that update. -/
def resumedRest : List (BuilderEvent Ast) :=
  (steps 1 ++ tasks 0 3 ++ steps 1 ++ tasks 0 3 ++ steps 1 ++ tasks 0 1 ++ steps 1).map .work

/-- The same with a `build()` that does not validate. -/
def withheld : List (BuilderEvent Ast) :=
  [.getOrCreateDocumentId, .getOrCreateDocument 0, .build [0] ⟨none, .unset⟩, .stop,
    .update [] [] everything] ++ (steps 5).map .work

def withheldRest : List (BuilderEvent Ast) :=
  (steps 1 ++ tasks 0 1 ++ steps 1 ++ tasks 0 3 ++ steps 2).map .work

theorem goesOn_work (works : List Call.Work) (s : BuilderState Ast String) :
    (machine echo).AllowedRun (fun _ event => goesOn event = true) s (works.map .work) := by
  refine @Machine.allowedRun_of_invariant _ _ _ _ s _ (fun _ => True) (fun e he s _ => ?_)
    (fun _ _ _ _ _ _ => trivial) trivial
  obtain ⟨work, -, rfl⟩ := List.mem_map.mp he
  rfl

/-- A call at the point where it selects. -/
def selectingCall (s : BuilderState Ast String) : Option Call :=
  s.call.bind fun call =>
    match call.stage with
    | .selecting => some call
    | _ => none

theorem selecting_of_selectingCall {s : BuilderState Ast String} {call : Call}
    (h : selectingCall s = some call) : s.call = some call ∧ call.stage = .selecting := by
  obtain ⟨call', hcall, h⟩ := Option.bind_eq_some_iff.mp h
  split at h
  next hstage =>
    cases h
    exact ⟨hcall, hstage⟩
  next => cases h

/-- A call for a build. -/
def isBuild : BuilderEvent Ast → Bool
  | .build _ _ => true
  | _ => false

theorem buildsCleanly_of_no_build {events : List (BuilderEvent Ast)}
    (h : events.all (fun event => !isBuild event) = true) (s : BuilderState Ast String) :
    (machine echo).AllowedRun (BuildsCleanly 0) s events := by
  refine @Machine.allowedRun_of_invariant _ _ _ _ s _ (fun _ => True) (fun e he s _ => ?_)
    (fun _ _ _ _ _ _ => trivial) trivial
  have hnot := List.all_eq_true.mp h e he
  cases e with
  | build documents options => cases hnot
  | _ => trivial

end Sample

open Sample in
/-- The update that resumes the stopped one validates what that one asked for. -/
theorem validation_bookkeeping_resumed :
    ∃ (w : Workspace Ast String) (document : Document Ast String), w.documents 0 = some document ∧
      w.Served echo 0 fastOnly ∧ Copies echo document ["fast"] := by
  have hselecting : ((run resumed).bind selectingCall).map (·.options) = some everything := by
    decide +kernel
  have hdone : ((run resumed).bind fun s => (machine echo).run s resumedRest).map
      (fun s => (s.call.isNone, recordedChecks (s.workspace.buildStateByDocumentId 0)))
      = some (true, ["fast"]) := by decide +kernel
  have hbefore : (run resumed).map (fun s => ((s.workspace.documents 0).map (·.state),
      s.workspace.optionsInForce 0 everything)) = some (some .changed, fastOnly) := by
    decide +kernel
  have hstored : ((run resumed).bind fun s => (machine echo).run s resumedRest).map
      (fun s => (s.workspace.documents 0).isSome) = some true := by decide +kernel
  obtain ⟨call, hcall, hoptions⟩ := Option.map_eq_some_iff.mp hselecting
  obtain ⟨s, hs, hcall⟩ := Option.bind_eq_some_iff.mp hcall
  obtain ⟨hcall, hstage⟩ := selecting_of_selectingCall hcall
  rw [hs] at hdone hbefore hstored
  obtain ⟨s', hs', hdone⟩ := Option.map_eq_some_iff.mp hdone
  rw [show (some s).bind (fun s => (machine echo).run s resumedRest) = some s' from hs'] at hstored
  obtain ⟨document, hdocument⟩ := Option.isSome_iff_exists.mp (Option.some.inj hstored)
  obtain ⟨hnone, hchecks⟩ := Prod.mk.inj hdone
  obtain ⟨hstate, hforce⟩ := Prod.mk.inj (Option.some.inj hbefore)
  have hreaches := Machine.reaches_of_run hs (Machine.allowedRun_any _ _)
  have hclean := Machine.reaches_of_run hs (buildsCleanly_of_no_build (by decide) _)
  have hrun := Machine.reaches_of_run hs' (goesOn_work _ _)
  obtain ⟨⟨document₀, hdocument₀, hserved, -⟩, hcopies⟩ := validation_bookkeeping (d := 0)
    (show echo.validationCategories ≠ [] from List.cons_ne_nil _ _) hreaches hcall hstage hrun
    (Option.isNone_iff_eq_none.mp hnone) hdocument
  rw [hdocument₀] at hstate
  rw [hoptions, hforce] at hserved
  rw [← hchecks]
  refine ⟨s'.workspace, document, hdocument, hserved ?_, hcopies hclean⟩
  have hchanged : document₀.state = .changed := Option.some.inj hstate
  rw [hchanged]
  exact nofun

open Sample in
/-- A completed update need not leave the documents Validated. -/
theorem not_validation_bookkeeping :
    ¬ ∀ (s s' : BuilderState Ast String) (call : Call) (d : ℕ) (document : Document Ast String),
      (machine echo).Reaches (fun _ _ => True) ⟨Workspace.empty fun _ => ⟨1, [], []⟩, none⟩ s →
      s.call = some call → call.stage = .selecting →
      call.options.validation.isEnabled = true →
      (machine echo).Reaches (fun _ event => goesOn event = true) s s' → s'.call = none →
      s'.workspace.documents d = some document →
      document.state = .validated ∧ s'.workspace.Served echo d call.options ∧
        Copies echo document (recordedChecks (s'.workspace.buildStateByDocumentId d)) := by
  intro h
  have hselecting : ((run withheld).bind selectingCall).map (·.options) = some everything := by
    decide +kernel
  have hdone : ((run withheld).bind fun s => (machine echo).run s withheldRest).map
      (fun s => (s.call.isNone, (s.workspace.documents 0).map (·.state)))
      = some (true, some .indexedReferences) := by decide +kernel
  obtain ⟨call, hcall, hoptions⟩ := Option.map_eq_some_iff.mp hselecting
  obtain ⟨s, hs, hcall⟩ := Option.bind_eq_some_iff.mp hcall
  obtain ⟨hcall, hstage⟩ := selecting_of_selectingCall hcall
  rw [hs] at hdone
  obtain ⟨s', hs', hdone⟩ := Option.map_eq_some_iff.mp hdone
  obtain ⟨hnone, hstate⟩ := Prod.mk.inj hdone
  obtain ⟨document, hdocument, hstate⟩ := Option.map_eq_some_iff.mp hstate
  have hvalidated := (h s s' call 0 document
    (Machine.reaches_of_run hs (Machine.allowedRun_any _ _)) hcall hstage (by rw [hoptions]; rfl)
    (Machine.reaches_of_run hs' (goesOn_work _ _)) (Option.isNone_iff_eq_none.mp hnone)
    hdocument).1
  rw [hstate] at hvalidated
  cases hvalidated

end BuilderState

end Pegium
