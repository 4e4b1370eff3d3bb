/-
Pegium/Workspace/Bookkeeping.lean

The accounts of the validation of a document.

`Accounts` says what the diagnostics of a document are: one copy of what the
validator found for the categories recorded as run, on the current AST.  The
completion flag, the recorded categories, the options of a build that is to be
resumed, the state of the document and its diagnostics are kept apart by the
code, and each operation touches some of them; what relates them is the same
after every one of them.

There is one exception.  `build()` erases the record of a document that is not
validated and leaves its diagnostics, and a stopped `build()` may have left some;
`Workspace.Clean` excludes this.
-/
import Pegium.Workspace.Phases

namespace Pegium

open Function (update)

variable {τ δ : Type} {L : Language τ δ} {w w' : Workspace τ δ} {d : ℕ}

/-! ### One copy for each category -/

/-- A run of the validator: what it saw of the references, and its options. -/
structure ValidationRun where
  statuses : List LinkStatus
  options : ValidationOptions

/-- What the validator found in a run, on the AST of a document. -/
def ValidationRun.diagnostics (L : Language τ δ) (document : Document τ δ) (run : ValidationRun) :
    List δ :=
  (document.parseResult.map fun result =>
    L.validateDocument result.ast run.statuses run.options).getD []

/-- The diagnostics of a document are those of some runs on its current AST, one
after the other.  The runs share no category, and their categories are those
recorded in `checks`. -/
def Copies (L : Language τ δ) (document : Document τ δ) (checks : List String) : Prop :=
  ∃ runs : List ValidationRun,
    document.diagnostics = runs.flatMap (ValidationRun.diagnostics L document) ∧
      (∀ run ∈ runs, run.options.categories ≠ []) ∧
      runs.Pairwise (fun run run' => ∀ category ∈ run.options.categories,
        category ∉ run'.options.categories) ∧
      ∀ category, category ∈ checks ↔ ∃ run ∈ runs, category ∈ run.options.categories

/-- The checks recorded in a build state. -/
def recordedChecks (state : Option DocumentBuildState) : List String :=
  (state.bind DocumentBuildState.result).getD []

/-- With nothing recorded there are no diagnostics. -/
theorem copies_nil {document : Document τ δ} :
    Copies L document [] ↔ document.diagnostics = [] := by
  constructor
  · rintro ⟨runs, hdiagnostics, hcategories, -, hchecks⟩
    have hruns : runs = [] := by
      apply List.eq_nil_iff_forall_not_mem.mpr
      intro run hrun
      obtain ⟨category, hcategory⟩ := List.exists_mem_of_ne_nil _ (hcategories run hrun)
      exact absurd ((hchecks category).mpr ⟨run, hrun, hcategory⟩) List.not_mem_nil
    rw [hdiagnostics, hruns]
    rfl
  · intro h
    exact ⟨[], h, nofun, .nil, by simp⟩

theorem Copies.congr {document document' : Document τ δ} {checks : List String}
    (h : Copies L document checks) (hresult : document'.parseResult = document.parseResult)
    (hdiagnostics : document'.diagnostics = document.diagnostics) :
    Copies L document' checks := by
  obtain ⟨runs, hruns, hrest⟩ := h
  have hsame : ValidationRun.diagnostics L document' = ValidationRun.diagnostics L document := by
    funext run
    rw [ValidationRun.diagnostics, ValidationRun.diagnostics, hresult]
  exact ⟨runs, by rw [hdiagnostics, hruns, hsame], hrest⟩

theorem mem_recordChecks {checks categories : List String} {category : String} :
    category ∈ Workspace.recordChecks checks categories
      ↔ category ∈ checks ∨ category ∈ categories := by
  unfold Workspace.recordChecks
  induction categories generalizing checks with
  | nil => simp
  | cons c categories ih =>
    rw [List.foldl_cons, ih]
    split
    next hmem =>
      constructor
      · rintro (h | h)
        · exact .inl h
        · exact .inr (List.mem_cons_of_mem _ h)
      · rintro (h | h)
        · exact .inl h
        · rcases List.mem_cons.mp h with rfl | h
          · exact .inl hmem
          · exact .inr h
    next => simp [or_assoc]

/-- A run of categories that were not recorded adds its copy. -/
theorem Copies.validate {document : Document τ δ} {checks : List String}
    (h : Copies L document checks) {options : ValidationOptions}
    (hnonempty : options.categories ≠ [])
    (hnew : ∀ category ∈ options.categories, category ∉ checks) :
    Copies L
      { document with
        diagnostics := document.diagnostics ++ Workspace.validateDocument L document options
        state := .validated }
      (Workspace.recordChecks checks options.categories) := by
  obtain ⟨runs, hruns, hcategories, hapart, hchecks⟩ := h
  let run : ValidationRun := ⟨document.links.map LinkState.status, options⟩
  have hrun : Workspace.validateDocument L document options = run.diagnostics L document := by
    unfold Workspace.validateDocument ValidationRun.diagnostics
    cases document.parseResult with
    | none => rfl
    | some result => rfl
  refine ⟨runs ++ [run], ?_, ?_, ?_, fun category => ?_⟩
  · show document.diagnostics ++ _ = (runs ++ [run]).flatMap (ValidationRun.diagnostics L document)
    rw [hruns, hrun, List.flatMap_append, List.flatMap_singleton]
  · intro run' hmem
    rcases List.mem_append.mp hmem with hmem | hmem
    · exact hcategories run' hmem
    · cases List.mem_singleton.mp hmem
      exact hnonempty
  · refine List.pairwise_append.mpr ⟨hapart, List.pairwise_singleton _ _, ?_⟩
    intro run' hmem run'' hlast category hold hcategory
    cases List.mem_singleton.mp hlast
    exact hnew category hcategory ((hchecks category).mpr ⟨run', hmem, hold⟩)
  · rw [mem_recordChecks, hchecks]
    constructor
    · rintro (⟨run', hmem, hcategory⟩ | hcategory)
      · exact ⟨run', List.mem_append_left _ hmem, hcategory⟩
      · exact ⟨run, by simp, hcategory⟩
    · rintro ⟨run', hmem, hcategory⟩
      rcases List.mem_append.mp hmem with hmem | hmem
      · exact .inl ⟨run', hmem, hcategory⟩
      · cases List.mem_singleton.mp hmem
        exact .inr hcategory

/-! ### The accounts of a document -/

/-- The accounts of a document: its diagnostics are the recorded copies.  Something
is recorded only once the references are indexed; and if it is and the document is
not validated, a build is to be resumed that asks for other categories. -/
structure Accounts (L : Language τ δ) (document : Document τ δ)
    (state : Option DocumentBuildState) : Prop where
  copies : Copies L document (recordedChecks state)
  analysed : recordedChecks state ≠ [] → .indexedReferences ≤ document.state
  pending : recordedChecks state ≠ [] → document.state ≠ .validated → ∃ build options,
    state = some build ∧ build.completed = false ∧ build.options.validation = .options options ∧
      options.categories ≠ [] ∧ ∀ category ∈ options.categories, category ∉ recordedChecks state

/-- What is kept for an id: the accounts of its document, or nothing. -/
def Workspace.Accounted (L : Language τ δ) (d : ℕ) (w : Workspace τ δ) : Prop :=
  match w.documents d with
  | some document => Accounts L document (w.buildStateByDocumentId d)
  | none => w.buildStateByDocumentId d = none

section Accounts

variable {document document' : Document τ δ} {state : Option DocumentBuildState}

/-- A document with nothing to account for. -/
theorem Accounts.of_empty (hchecks : recordedChecks state = [])
    (hdiagnostics : document.diagnostics = []) : Accounts L document state where
  copies := by rw [hchecks, copies_nil, hdiagnostics]
  analysed h := absurd hchecks h
  pending h := absurd hchecks h

theorem Accounts.checks_eq_nil (h : Accounts L document state)
    (hs : document.state < .indexedReferences) : recordedChecks state = [] := by
  by_contra hne
  exact absurd (h.analysed hne) (Nat.not_le.mpr hs)

/-- Before the references are indexed nothing is recorded. -/
theorem Accounts.of_early (h : Accounts L document state)
    (hs : document.state < .indexedReferences)
    (hdiagnostics : document'.diagnostics = document.diagnostics ∨ document'.diagnostics = []) :
    Accounts L document' state := by
  have hchecks := h.checks_eq_nil hs
  have hcopies := h.copies
  rw [hchecks, copies_nil] at hcopies
  refine .of_empty hchecks ?_
  rcases hdiagnostics with heq | heq
  · rw [heq, hcopies]
  · exact heq

theorem Accounts.congr (h : Accounts L document state)
    (hresult : document'.parseResult = document.parseResult)
    (hdiagnostics : document'.diagnostics = document.diagnostics)
    (hstate : document'.state = document.state) : Accounts L document' state where
  copies := h.copies.congr hresult hdiagnostics
  analysed := by
    rw [hstate]
    exact h.analysed
  pending := by
    rw [hstate]
    exact h.pending

/-- The categories that count as run, of a build that is not completed. -/
theorem executedCategories_of_not_completed {build : DocumentBuildState}
    (h : build.completed = false) :
    Workspace.executedCategories L (some build) = recordedChecks (some build) := by
  show _ = build.result.getD []
  unfold Workspace.executedCategories
  cases hresult : build.result.getD [] with
  | nil => simp only [hresult, h, Bool.false_eq_true, if_false]
  | cons check checks => simp only [hresult]

/-- What is recorded counts as run. -/
theorem mem_executedCategories {category : String} (h : category ∈ recordedChecks state) :
    category ∈ Workspace.executedCategories L state := by
  cases state with
  | none => exact h
  | some build =>
    have hmem : category ∈ build.result.getD [] := h
    unfold Workspace.executedCategories
    cases hresult : build.result.getD [] with
    | nil => exact absurd (hresult ▸ hmem) List.not_mem_nil
    | cons check checks =>
      simp only [hresult]
      exact hresult ▸ hmem

end Accounts

/-! ### Steps outside the phases -/

namespace Workspace

theorem Accounted.congr (h : w.Accounted L d) (documents : w'.documents d = w.documents d)
    (states : w'.buildStateByDocumentId d = w.buildStateByDocumentId d) : w'.Accounted L d := by
  unfold Accounted
  rw [documents, states]
  exact h

theorem Accounted.elsewhere {d' : ℕ} (h : w.Accounted L d) (same : w.SameElsewhere d' w')
    (hd : d ≠ d') : w'.Accounted L d :=
  h.congr (same.documents d hd) (same.buildStates d hd)

theorem accounted_of_some {document : Document τ δ} (hd : w.documents d = some document) :
    w.Accounted L d ↔ Accounts L document (w.buildStateByDocumentId d) := by
  unfold Accounted
  rw [hd]

theorem accounted_of {document : Document τ δ} {state : Option DocumentBuildState}
    (hd : w.documents d = some document) (hs : w.buildStateByDocumentId d = state)
    (h : Accounts L document state) : w.Accounted L d := by
  rw [accounted_of_some hd, hs]
  exact h

theorem Accounted.of_none (h : w.Accounted L d) (hd : w.documents d = none) :
    w.buildStateByDocumentId d = none := by
  unfold Accounted at h
  rw [hd] at h
  exact h

/-- A reset that erases the build state empties the diagnostics. -/
theorem Accounted.resetToState (h : w.Accounted L d) {d' : ℕ} {state : DocumentState}
    (hs : state ≤ .indexedReferences) : (w.resetToState d' state).Accounted L d := by
  by_cases hd : d = d'
  · subst hd
    have hstate : (w.resetToState d state).buildStateByDocumentId d = none := by
      simp only [Workspace.resetToState, if_pos hs, Function.update_self]
    cases hdoc : w.documents d with
    | none =>
      unfold Accounted
      rw [resetToState_documents, Function.update_self, hdoc]
      exact hstate
    | some document =>
      have hreset : (w.resetToState d state).documents d = some (document.resetTo state) := by
        rw [resetToState_documents, Function.update_self, hdoc]
        rfl
      rw [accounted_of_some hreset, hstate]
      exact .of_empty rfl (if_pos hs)
  · exact h.elsewhere (sameElsewhere_resetToState state) hd

theorem Accounted.deleteDocument (h : w.Accounted L d) {d' : ℕ} :
    (w.deleteDocument d').Accounted L d := by
  by_cases hd : d = d'
  · subst hd
    unfold Accounted Workspace.deleteDocument
    simp only [Function.update_self]
  · exact h.elsewhere sameElsewhere_deleteDocument hd

/-- A new document has no build state. -/
theorem Accounted.getOrCreateDocument (h : w.Accounted L d) {d' : ℕ} :
    (w.getOrCreateDocument L d').Accounted L d := by
  by_cases hd : d = d'
  · subst hd
    unfold Workspace.getOrCreateDocument
    split
    · exact h
    next hnone =>
      split
      · refine (accounted_of_some (Function.update_self ..)).mpr (.of_empty ?_ rfl)
        rw [h.of_none hnone]
        rfl
      · exact h
  · exact h.elsewhere sameElsewhere_getOrCreateDocument hd

theorem Accounted.changeDocument (h : w.Accounted L d) {d' : ℕ} :
    (w.changeDocument L d').Accounted L d := by
  unfold Workspace.changeDocument
  dsimp only
  split
  · exact h.getOrCreateDocument.resetToState (by decide)
  · exact h.getOrCreateDocument

theorem Accounted.relinkDocument (h : w.Accounted L d) {d' : ℕ} (changed : List ℕ) :
    (w.relinkDocument changed d').Accounted L d := by
  unfold Workspace.relinkDocument
  split
  · exact h.resetToState (by decide)
  · exact h

/-- A prepared build keeps the record, and the build that is to be resumed. -/
theorem Accounted.prepareBuild (h : w.Accounted L d) {documents : List ℕ} (options : BuildOptions)
    (inStore : d ∈ documents → (w.documents d).isSome) :
    (w.prepareBuild documents options).Accounted L d := by
  by_cases hd : d ∈ documents
  · obtain ⟨document, hdoc⟩ := Option.isSome_iff_exists.mp (inStore hd)
    rw [accounted_of_some hdoc] at h
    have hprepared : (w.prepareBuild documents options).documents d = some document := hdoc
    rw [accounted_of_some hprepared]
    simp only [Workspace.prepareBuild, if_pos hd]
    cases hstate : w.buildStateByDocumentId d with
    | none =>
      rw [hstate] at h
      refine .of_empty rfl ?_
      have hcopies := h.copies
      rwa [show recordedChecks none = [] from rfl, copies_nil] at hcopies
    | some build =>
      rw [hstate] at h
      dsimp only
      split
      next hcompleted =>
        refine ⟨h.copies, h.analysed, fun hchecks hs => ?_⟩
        obtain ⟨build', -, heq, hnot, -⟩ := h.pending hchecks hs
        cases heq
        exact absurd (hcompleted.symm.trans hnot) (by rintro ⟨⟩)
      next => exact h
  · exact h.congr rfl (if_neg hd)

/-- `reopenBuild` works on one document. -/
theorem sameElsewhere_reopenBuild (options : BuildOptions) (d' : ℕ) :
    w.SameElsewhere d' (w.reopenBuild L options d') := by
  unfold reopenBuild
  split
  · exact .refl w
  · split
    · split
      · exact sameElsewhere_resetToState _
      · split
        · exact .refl w
        · constructor <;> intros <;>
            first
            | rfl
            | exact Function.update_of_ne ‹_› _ _
      · exact .refl w
    · constructor <;> intros <;>
        first
        | rfl
        | exact Function.update_of_ne ‹_› _ _

/-- A document that `build()` may be asked for: it is validated, or has no
diagnostics. -/
def Clean (w : Workspace τ δ) (d : ℕ) : Prop :=
  ∀ document, w.documents d = some document →
    document.state = .validated ∨ document.diagnostics = []

theorem Accounted.reopenBuild (h : w.Accounted L d) (options : BuildOptions) (hclean : w.Clean d) :
    (w.reopenBuild L options d).Accounted L d := by
  unfold Workspace.reopenBuild
  split
  · exact h
  next document hdoc =>
    split
    next hvalidated =>
      split
      · exact h.resetToState (by decide)
      next requested hrequested =>
        split
        · exact h
        next hne =>
          -- the missing categories are to be run next to the recorded ones
          rw [accounted_of_some hdoc] at h
          have hadvanced : (w.advance d .indexedReferences).documents d
              = some { document with state := .indexedReferences } := by
            simp [advance, mapDocument, hdoc]
          refine accounted_of hadvanced (Function.update_self ..)
            ⟨h.copies.congr rfl rfl, fun _ => DocumentState.le_refl _, fun _ _ =>
              ⟨_, _, rfl, rfl, rfl, hne, fun category hcategory hrecorded => ?_⟩⟩
          have hnot := (List.mem_filter.mp hcategory).2
          have hmem : category ∈ executedCategories L (w.buildStateByDocumentId d) :=
            mem_executedCategories hrecorded
          simp [hmem] at hnot
      · exact h
    next hnot =>
      exact accounted_of hdoc (Function.update_self ..)
        (.of_empty rfl ((hclean document hdoc).resolve_left hnot))

/-- `build()` up to its phases, if it names the document once. -/
theorem Accounted.foldl_reopenBuild {documents : List ℕ} (h : w.Accounted L d)
    (options : BuildOptions) (hnodup : documents.Nodup) (hclean : d ∈ documents → w.Clean d) :
    (documents.foldl (Workspace.reopenBuild L options) w).Accounted L d := by
  induction documents generalizing w with
  | nil => exact h
  | cons d' documents ih =>
    obtain ⟨hnot, hrest⟩ := List.nodup_cons.mp hnodup
    rw [List.foldl_cons]
    by_cases hd : d = d'
    · subst hd
      exact ih (h.reopenBuild options (hclean List.mem_cons_self)) hrest fun hmem =>
        absurd hmem hnot
    · have same := sameElsewhere_reopenBuild (L := L) (w := w) options d'
      refine ih (h.elsewhere same hd) hrest fun hmem document hdoc => ?_
      rw [same.documents d hd] at hdoc
      exact hclean (List.mem_cons_of_mem _ hmem) document hdoc

/-- `build()` of other documents. -/
theorem Accounted.foldl_reopenBuild_of_not_mem {documents : List ℕ} (h : w.Accounted L d)
    (options : BuildOptions) (hd : d ∉ documents) :
    (documents.foldl (Workspace.reopenBuild L options) w).Accounted L d := by
  induction documents generalizing w with
  | nil => exact h
  | cons d' documents ih =>
    rw [List.mem_cons, not_or] at hd
    exact ih (h.elsewhere (sameElsewhere_reopenBuild options d') hd.1) hd.2

/-! ### Validation -/

/-- A build of a document is prepared, and not completed. -/
def Unfinished (w : Workspace τ δ) (d : ℕ) : Prop :=
  ∃ build, w.buildStateByDocumentId d = some build ∧ build.completed = false

theorem getBuildOptions_of_some {build : DocumentBuildState}
    (h : w.buildStateByDocumentId d = some build) : w.getBuildOptions d = build.options := by
  unfold getBuildOptions
  rw [h]
  rfl

theorem categories_validationOptions (option : BuildValidationOption) (categories : List String) :
    (validationOptions option categories).categories = categories := by
  cases option with
  | options options => rfl
  | unset => rfl
  | enabled value => rfl

/-- Options that validate ask for a category. -/
theorem requestedCategories_ne_nil (hL : L.validationCategories ≠ [])
    {option : BuildValidationOption}
    (h : option.isEnabled = true) : requestedCategories L option ≠ [] := by
  cases option with
  | unset => cases h
  | enabled value =>
    cases value with
    | false => cases h
    | true => exact hL
  | options options =>
    show (if options.categories.isEmpty then L.validationCategories else options.categories) ≠ []
    split
    · exact hL
    next hne => exact fun hnil => hne (by rw [hnil]; rfl)

theorem not_mem_of_mem_findMissing {options : BuildOptions} {category : String}
    (h : category ∈ w.findMissing L d options) :
    category ∉ recordedChecks (w.buildStateByDocumentId d) := by
  intro hrecorded
  have hnot := (List.mem_filter.mp h).2
  have hmem : category ∈ executedCategories L (w.buildStateByDocumentId d) :=
    mem_executedCategories hrecorded
  simp [hmem] at hnot

/-- A document that is validated gets a category it does not have yet. -/
theorem findMissing_ne_nil (hL : L.validationCategories ≠ []) {document : Document τ δ}
    (h : Accounts L document (w.buildStateByDocumentId d)) (hs : document.state ≠ .validated)
    {build : DocumentBuildState} (hbuild : w.buildStateByDocumentId d = some build)
    (hnot : build.completed = false) (henabled : build.options.validation.isEnabled = true) :
    w.findMissing L d build.options ≠ [] := by
  have hrequested := requestedCategories_ne_nil hL henabled
  unfold findMissing
  rw [hbuild, executedCategories_of_not_completed hnot]
  rw [hbuild] at h
  by_cases hchecks : recordedChecks (some build) = []
  · rw [hchecks]
    simpa using hrequested
  · obtain ⟨build', options, heq, -, hoptions, hne, hnew⟩ := h.pending hchecks hs
    cases heq
    obtain ⟨category, hcategory⟩ := List.exists_mem_of_ne_nil _ hne
    have hmem : category ∈ requestedCategories L build.options.validation := by
      rw [hoptions]
      show category ∈ (if options.categories.isEmpty then L.validationCategories
        else options.categories)
      rwa [if_neg (by simpa using hne)]
    refine List.ne_nil_of_mem (List.mem_filter.mpr ⟨hmem, ?_⟩)
    simpa using hnew category hcategory

/-- What validation makes of the build of its document. -/
theorem buildState_validate {build : DocumentBuildState}
    (h : w.buildStateByDocumentId d = some build) :
    (w.validate L d).buildStateByDocumentId d = some { build with
      completed := true
      result := some (recordChecks (recordedChecks (some build))
        (w.findMissing L d build.options)) } := by
  simp only [Workspace.validate, Function.update_self, getBuildOptions_of_some h, h,
    Option.getD_some]
  rfl

/-- **Validation adds one copy of the categories that were missing.** -/
theorem Accounted.validate (hL : L.validationCategories ≠ []) (h : w.Accounted L d)
    {document : Document τ δ} (hd : w.documents d = some document)
    (hs : document.state ≠ .validated) (hunfinished : w.Unfinished d)
    (henabled : w.shouldValidate d = true) : (w.validate L d).Accounted L d := by
  obtain ⟨build, hbuild, hnot⟩ := hunfinished
  rw [accounted_of_some hd] at h
  have hoptions := getBuildOptions_of_some hbuild
  rw [shouldValidate, hoptions] at henabled
  have hmissing := findMissing_ne_nil hL h hs hbuild hnot henabled
  let options := validationOptions build.options.validation (w.findMissing L d build.options)
  have hcategories : options.categories = w.findMissing L d build.options :=
    categories_validationOptions _ _
  have hcopies := Copies.validate h.copies
    (show options.categories ≠ [] from hcategories ▸ hmissing)
    fun category hcategory => not_mem_of_mem_findMissing (hcategories ▸ hcategory)
  rw [hcategories] at hcopies
  have hvalidated : (w.validate L d).documents d = some { document with
      diagnostics := document.diagnostics ++ Workspace.validateDocument L document options
      state := .validated } := by
    simp only [Workspace.validate, mapDocument, Function.update_self, hd, hoptions, Option.map_some,
      options]
  rw [hbuild] at hcopies
  refine accounted_of hvalidated (buildState_validate hbuild)
    ⟨hcopies, fun _ => ?_, fun _ hne => absurd rfl hne⟩
  show DocumentState.indexedReferences ≤ DocumentState.validated
  decide

theorem resolveLink_diagnostics (i : ℕ) (document : Document τ δ) :
    (w.resolveLink L d i document).diagnostics = document.diagnostics := by
  rw [resolveLink]
  split <;> rfl

theorem Accounted.run (hL : L.validationCategories ≠ []) (h : w.Accounted L d) {task : Task}
    {document : Document τ δ} (hd : w.documents d = some document)
    (entry : Phase.Entry task document.state)
    (hvalidate : task = .validate →
      document.state ≠ .validated ∧ w.Unfinished d ∧ w.shouldValidate d = true) :
    (task.run L d w).Accounted L d := by
  have hdocument := task.run_document (L := L) hd
  rw [accounted_of_some hd] at h
  cases task with
  | validate =>
    obtain ⟨hs, hunfinished, henabled⟩ := hvalidate rfl
    exact Accounted.validate hL ((accounted_of_some hd).mpr h) hd hs hunfinished henabled
  | attach =>
    exact accounted_of hdocument rfl (h.of_early (by rw [entry]; decide) (.inr rfl))
  | resolve i =>
    exact accounted_of hdocument rfl (h.congr (resolveLink_parseResult i document)
      (resolveLink_diagnostics i document) (resolveLink_state i document))
  | _ => exact accounted_of hdocument rfl (h.of_early (by rw [entry]; decide) (.inl rfl))

/-- A reference that is read between calls is no matter of validation. -/
theorem Accounted.resolve (h : w.Accounted L d) {d' i : ℕ} :
    (w.resolve L d' i).Accounted L d := by
  by_cases hdd : d = d'
  · subst hdd
    cases hdocument : w.documents d with
    | none =>
      refine h.congr ?_ rfl
      show update w.documents d ((w.documents d).map _) d = _
      rw [Function.update_self, hdocument]
      rfl
    | some document =>
      rw [accounted_of_some hdocument] at h
      have hresolved : (w.resolve L d i).documents d = some (w.resolveLink L d i document) := by
        show update w.documents d ((w.documents d).map _) d = _
        rw [Function.update_self, hdocument]
        rfl
      exact accounted_of hresolved rfl (h.congr (resolveLink_parseResult i document)
        (resolveLink_diagnostics i document) (resolveLink_state i document))
  · exact h.congr (Function.update_of_ne hdd _ _) rfl

/-- Only builds that do not validate are marked without a run. -/
theorem Accounted.markAsCompleted (h : w.Accounted L d) {documents : List ℕ}
    (hmarked : d ∈ documents → w.shouldValidate d = false) :
    (w.markAsCompleted documents).Accounted L d := by
  by_cases hd : d ∈ documents
  · unfold Accounted at h ⊢
    have hstate : (w.markAsCompleted documents).buildStateByDocumentId d
        = (w.buildStateByDocumentId d).map fun state => { state with completed := true } :=
      if_pos hd
    rw [hstate]
    show match w.documents d with
      | some document => _
      | none => _
    split at h
    next document hdocument =>
      cases hbuild : w.buildStateByDocumentId d with
      | none =>
        rw [hbuild] at h
        exact h
      | some build =>
        rw [hbuild] at h
        refine ⟨h.copies, h.analysed, fun hchecks hs => ?_⟩
        obtain ⟨build', options, heq, -, hoptions, -⟩ := h.pending hchecks hs
        cases heq
        have hnot := hmarked hd
        rw [shouldValidate, getBuildOptions_of_some hbuild, hoptions] at hnot
        cases hnot
    next => rw [h]; rfl
  · exact h.congr rfl (if_neg hd)

end Workspace

end Pegium
