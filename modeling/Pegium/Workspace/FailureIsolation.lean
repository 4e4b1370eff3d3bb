/-
Pegium/Workspace/FailureIsolation.lean

What the documents whose texts fail do to the others.

A failing document does no harm while nobody asks for its text: it keeps its
parse result, and the calls on the other documents go on as if all were well.  It
does once it is left in the store without one.  Then every call meets it in its
first phase and throws, and the documents beside it are not linked any more.

So the failing documents are isolated exactly when none of them is left in the
store to be parsed (`failures_isolated_iff`).  Under the condition a call keeps
`Spared`; without it, it keeps `Held`, and so does the next one.
-/
import Pegium.Workspace.FactoryRuns

namespace Pegium

open Function (update)

variable {τ δ : Type} {L : Language τ δ} {w w' : Workspace τ δ} {d : ℕ}

/-! ### Failing documents that no call parses -/

variable {failures : ℕ → Option TextFailure} {aim : ℕ → Prop}

/-- The state of a workspace in a call, with the documents that it has still to delete and
those that it has still to reset: a failing document has a parse result, and nobody asks
for a new one; and the documents aimed at are there, or will be. -/
structure Spared (failures : ℕ → Option TextFailure) (aim : ℕ → Prop) (deleted changed : List ℕ)
    (w : Workspace τ δ) : Prop where
  parsed : ∀ d document, failures d ≠ none → w.documents d = some document →
    d ∈ deleted ∨ .parsed ≤ document.state
  absent : ∀ d ∈ changed, failures d ≠ none → w.documents d = none
  kept : ∀ d, aim d → d ∉ deleted ∧
    ((w.documents d).isSome ∨ failures d = none ∧ d ∈ changed ∧ d < w.nextDocumentId)

namespace Spared

variable {deleted changed : List ℕ}

theorem congr (h : Spared failures aim deleted changed w) (documents : w'.documents = w.documents)
    (ids : w.nextDocumentId ≤ w'.nextDocumentId) : Spared failures aim deleted changed w' where
  parsed d document hfails hd := h.parsed d document hfails (documents ▸ hd)
  absent d hd hfails := by
    rw [documents]
    exact h.absent d hd hfails
  kept d hd := by
    obtain ⟨hno, hkept⟩ := h.kept d hd
    rw [documents]
    exact ⟨hno, hkept.imp_right fun hlt => ⟨hlt.1, hlt.2.1, Nat.lt_of_lt_of_le hlt.2.2 ids⟩⟩

/-- A step that works on one document needs to be looked at there only. -/
theorem move {deleted' changed' : List ℕ} (h : Spared failures aim deleted changed w)
    (same : w.SameElsewhere d w') (hdeleted : ∀ d' ≠ d, d' ∈ deleted' ↔ d' ∈ deleted)
    (hchanged : ∀ d' ≠ d, d' ∈ changed' ↔ d' ∈ changed)
    (parsed : ∀ document, failures d ≠ none → w'.documents d = some document →
      d ∈ deleted' ∨ .parsed ≤ document.state)
    (absent : d ∈ changed' → failures d ≠ none → w'.documents d = none)
    (kept : aim d → d ∉ deleted' ∧
      ((w'.documents d).isSome ∨ failures d = none ∧ d ∈ changed' ∧ d < w'.nextDocumentId)) :
    Spared failures aim deleted' changed' w' where
  parsed d' document hfails hd' := by
    by_cases hdd : d' = d
    · subst hdd
      exact parsed document hfails hd'
    · rw [hdeleted d' hdd]
      exact h.parsed d' document hfails ((same.documents d' hdd).symm.trans hd')
  absent d' hd' hfails := by
    by_cases hdd : d' = d
    · subst hdd
      exact absent hd' hfails
    · rw [same.documents d' hdd]
      exact h.absent d' ((hchanged d' hdd).mp hd') hfails
  kept d' hd' := by
    by_cases hdd : d' = d
    · subst hdd
      exact kept hd'
    · rw [hdeleted d' hdd, hchanged d' hdd, same.documents d' hdd, same.nextDocumentId]
      exact h.kept d' hd'

theorem deleteDocument (h : Spared failures aim (d :: deleted) changed w) :
    Spared failures aim deleted changed (w.deleteDocument d) := by
  have hgone : (w.deleteDocument d).documents d = none := Function.update_self ..
  refine h.move Workspace.sameElsewhere_deleteDocument (fun d' hd' => by simp [hd'])
    (fun _ _ => Iff.rfl) (fun document _ hdocument => ?_) (fun _ _ => hgone) fun haim => ?_
  · rw [hgone] at hdocument
    cases hdocument
  · exact absurd List.mem_cons_self (h.kept d haim).1

/-- A changed document that cannot be created is skipped. -/
theorem skip (h : Spared failures aim [] (d :: changed) w)
    (hfails : w.creationFails failures d = true) : Spared failures aim [] changed w := by
  obtain ⟨hnone, hfailure⟩ := Bool.and_eq_true_iff.mp hfails
  rw [Option.isNone_iff_eq_none] at hnone
  refine h.move (.refl w) (fun _ _ => Iff.rfl) (fun d' hd' => by simp [hd'])
    (fun document _ hdocument => ?_) (fun _ _ => hnone) fun haim => ?_
  · rw [hnone] at hdocument
    cases hdocument
  · -- nothing is aimed at that fails and is not there
    rcases (h.kept d haim).2 with hsome | ⟨hgood, -⟩
    · rw [hnone] at hsome
      cases hsome
    · rw [hgood] at hfailure
      cases hfailure

theorem changeDocument (h : Spared failures aim [] (d :: changed) w)
    (hfails : w.creationFails failures d = false) :
    Spared failures aim [] changed (w.changeDocument L d) := by
  -- a failing document is not there, so it could not be created
  have hgood : failures d = none := by
    by_contra hfailure
    rw [Workspace.creationFails, h.absent d List.mem_cons_self hfailure,
      Option.isSome_iff_ne_none.mpr hfailure] at hfails
    cases hfails
  refine h.move Workspace.sameElsewhere_changeDocument (fun _ _ => Iff.rfl)
    (fun d' hd' => by simp [hd']) (fun document hfailure => absurd hgood hfailure)
    (fun _ hfailure => absurd hgood hfailure) fun haim => ⟨List.not_mem_nil, .inl ?_⟩
  have hcreated : ((w.getOrCreateDocument L d).documents d).isSome := by
    unfold Workspace.getOrCreateDocument
    split
    next document hdocument =>
      rw [hdocument]
      rfl
    next hnone =>
      rcases (h.kept d haim).2 with hsome | ⟨-, -, hlt⟩
      · rw [hnone] at hsome
        cases hsome
      · rw [if_pos hlt]
        simp only [Function.update_self, Option.isSome_some]
  rw [Workspace.changeDocument]
  simp only [if_pos hcreated]
  exact (Workspace.isSome_update_map _ _ _ _).trans hcreated

theorem resetToState (h : Spared failures aim [] [] w) {state : DocumentState}
    (hstate : .parsed ≤ state) : Spared failures aim [] [] (w.resetToState d state) := by
  refine h.move (Workspace.sameElsewhere_resetToState state) (fun _ _ => Iff.rfl)
    (fun _ _ => Iff.rfl) (fun document hfails hdocument => .inr ?_) nofun fun haim => ?_
  · rw [Workspace.resetToState_documents, Function.update_self] at hdocument
    obtain ⟨before, hbefore, rfl⟩ := Option.map_eq_some_iff.mp hdocument
    obtain hmem | hparsed := h.parsed d before hfails hbefore
    · cases hmem
    · show DocumentState.parsed ≤ if state < before.state then state else before.state
      split
      · exact hstate
      · exact hparsed
  · obtain ⟨-, hsome | ⟨-, hmem, -⟩⟩ := h.kept d haim
    · refine ⟨List.not_mem_nil, .inl ?_⟩
      rw [Workspace.resetToState_documents, Workspace.isSome_update_map]
      exact hsome
    · cases hmem

theorem relinkDocument (h : Spared failures aim [] [] w) (changed : List ℕ) :
    Spared failures aim [] [] (w.relinkDocument changed d) := by
  unfold Workspace.relinkDocument
  split
  · exact h.resetToState (by decide)
  · exact h

/-- Nothing but a parse is done to a document that has a parse result. -/
theorem run (h : Spared failures aim [] [] w) {task : Task}
    (hentry : ∀ document, w.documents d = some document → Phase.Entry task document.state) :
    Spared failures aim [] [] (task.run L d w) := by
  refine h.move task.run_sameElsewhere (fun _ _ => Iff.rfl) (fun _ _ => Iff.rfl)
    (fun document hfails hdocument => .inr ?_) nofun fun haim => ?_
  · rw [task.run_documents, Function.update_self] at hdocument
    obtain ⟨before, hbefore, rfl⟩ := Option.map_eq_some_iff.mp hdocument
    obtain hmem | hparsed := h.parsed d before hfails hbefore
    · cases hmem
    · have hstate := hentry before hbefore
      cases task with
      | attach | parse =>
        rw [show before.state = .changed from hstate] at hparsed
        exact absurd hparsed (by decide)
      | resolve i =>
        show _ ≤ (w.resolveLink L d i before).state
        rwa [Workspace.resolveLink_state]
      | _ => exact Nat.succ_le_succ (Nat.zero_le _)
  · obtain ⟨-, hsome | ⟨-, hmem, -⟩⟩ := h.kept d haim
    · refine ⟨List.not_mem_nil, .inl ?_⟩
      rw [task.isSome_run_documents]
      exact hsome
    · cases hmem

theorem weaken    (h : Spared failures aim deleted changed w) :
    Spared failures (fun _ => False) deleted changed w :=
  ⟨h.parsed, h.absent, fun _ => False.elim⟩

theorem getOrCreateDocument (h : Spared failures aim [] [] w)
    (sound : w.creationFails failures d = false) :
    Spared failures aim [] [] (w.getOrCreateDocument L d) := by
  cases hdocument : w.documents d with
  | some document =>
    have hsame : w.getOrCreateDocument L d = w := by
      simp only [Workspace.getOrCreateDocument, hdocument]
    rw [hsame]
    exact h
  | none =>
    have hgood : failures d = none := by
      rw [Workspace.creationFails, hdocument] at sound
      exact Option.not_isSome_iff_eq_none.mp (Bool.eq_false_iff.mp sound)
    refine h.move Workspace.sameElsewhere_getOrCreateDocument (fun _ _ => Iff.rfl)
      (fun _ _ => Iff.rfl) (fun _ hfails => absurd hgood hfails)
      (fun hmem => absurd hmem List.not_mem_nil) fun haim => ?_
    obtain ⟨-, hsome | ⟨-, hmem, -⟩⟩ := h.kept d haim
    · rw [hdocument] at hsome
      cases hsome
    · cases hmem

theorem resolve (h : Spared failures aim [] [] w) (i : ℕ) :
    Spared failures aim [] [] (w.resolve L d i) := by
  have hdocuments : ∀ d', (w.resolve L d i).documents d'
      = update w.documents d ((w.documents d).map (w.resolveLink L d i)) d' := fun _ => rfl
  refine ⟨fun d' document hfails hd' => ?_, nofun, fun d' haim => ?_⟩
  · rw [hdocuments] at hd'
    by_cases hdd : d' = d
    · subst hdd
      rw [Function.update_self] at hd'
      obtain ⟨before, hbefore, rfl⟩ := Option.map_eq_some_iff.mp hd'
      rw [Workspace.resolveLink_state]
      exact h.parsed d' before hfails hbefore
    · rw [Function.update_of_ne hdd] at hd'
      exact h.parsed d' document hfails hd'
  · rw [hdocuments, Workspace.isSome_update_map]
    exact h.kept d' haim

end Spared

/-! ### Target states -/

theorem targetState_le_validated : w.targetState d ≤ .validated := by
  unfold Workspace.targetState
  split
  · decide
  · split <;> decide

theorem targetState_congr (h : w'.getBuildOptions d = w.getBuildOptions d) :
    w'.targetState d = w.targetState d := by
  have hvalidate : w'.shouldValidate d = w.shouldValidate d :=
    congrArg (fun options => options.validation.isEnabled) h
  have hlink : w'.shouldLink d = w.shouldLink d :=
    congrArg (fun options => options.eagerLinking.getD true) h
  rw [Workspace.targetState, Workspace.targetState, hvalidate, hlink]

/-- What is not to be validated is done after the second phase. -/
theorem targetState_le_of_reached {state : DocumentState} (hvalidate : w.shouldValidate d = false)
    (h : Phase.Reached (w.shouldLink d) .references state) : w.targetState d ≤ state := by
  obtain ⟨hscopes, hreferences⟩ := h
  rw [Workspace.targetState, hvalidate, if_neg Bool.false_ne_true]
  split
  next hlink => exact hreferences hlink
  next => exact hscopes

theorem getBuildOptions_markAsCompleted (documents : List ℕ) :
    (w.markAsCompleted documents).getBuildOptions d = w.getBuildOptions d := by
  simp only [Workspace.getBuildOptions, Workspace.markAsCompleted]
  split
  · cases w.buildStateByDocumentId d <;> rfl
  · rfl

/-- A phase, and the documents aimed at: those outside it have reached their target. -/
structure Serves (aim : ℕ → Prop) (w : Workspace τ δ) (phase : Phase) (documents : List ℕ)
    (jobs : ℕ → List Task) : Prop where
  ready : Phase.Ready w phase documents jobs
  asked : phase = .validation → ∀ d ∈ documents, w.shouldValidate d = true
  beside : ∀ d, aim d → d ∉ documents → ∀ document, w.documents d = some document →
    w.targetState d ≤ document.state

namespace Serves

variable {phase : Phase} {documents : List ℕ} {jobs : ℕ → List Task}

theorem congr (h : Serves aim w phase documents jobs) (hdocuments : w'.documents = w.documents)
    (states : w'.buildStateByDocumentId = w.buildStateByDocumentId) :
    Serves aim w' phase documents jobs where
  ready := h.ready.congr hdocuments states
  asked hphase d hd := by
    simp only [Workspace.shouldValidate, Workspace.getBuildOptions, states]
    exact h.asked hphase d hd
  beside d haim hd document hdocument := by
    have hsame : w'.getBuildOptions d = w.getBuildOptions d := by
      simp only [Workspace.getBuildOptions, states]
    rw [targetState_congr hsame]
    exact h.beside d haim hd document (hdocuments ▸ hdocument)

theorem task (h : Serves aim w phase documents jobs) {task : Task} {rest : List Task}
    (hd : jobs d = task :: rest) :
    Serves aim (task.run L d w) phase documents (update jobs d rest) where
  ready := h.ready.run hd
  asked hphase d' hd' := by
    rw [Workspace.shouldValidate, Task.getBuildOptions_run]
    exact h.asked hphase d' hd'
  beside d' haim hd' document hdocument := by
    obtain ⟨hmem, -⟩ := h.ready.entry hd
    have hne : d' ≠ d := fun e => hd' (e ▸ hmem)
    rw [targetState_congr (Task.getBuildOptions_run task d')]
    exact h.beside d' haim hd' document ((task.run_documents_ne hne).symm.trans hdocument)

theorem references (h : Serves aim w .content documents jobs) (hover : Phase.Over documents jobs) :
    Serves aim w .references documents (Phase.references.jobs documents w) where
  ready := h.ready.references hover
  asked := nofun
  beside := h.beside

theorem validation (h : Serves aim w .references documents jobs)
    (hover : Phase.Over documents jobs) {marked validated : List ℕ}
    (hvalidated : validated = documents.filter fun d => w.shouldValidate d) :
    Serves aim (w.markAsCompleted marked) .validation validated
      (Phase.validation.jobs validated (w.markAsCompleted marked)) where
  ready := h.ready.validation hover marked fun d hd =>
    (List.mem_filter.mp (hvalidated ▸ hd)).1
  asked _ d hd := by
    rw [hvalidated] at hd
    rw [Workspace.shouldValidate, getBuildOptions_markAsCompleted]
    exact (List.mem_filter.mp hd).2
  beside d haim hd document hdocument := by
    rw [targetState_congr (getBuildOptions_markAsCompleted marked)]
    by_cases hmem : d ∈ documents
    · refine targetState_le_of_reached ?_ (h.ready.reached hover hmem hdocument)
      by_contra hvalidate
      refine hd ?_
      rw [hvalidated]
      exact List.mem_filter.mpr ⟨hmem, Bool.not_eq_false _ ▸ hvalidate⟩
    · exact h.beside d haim hmem document hdocument

/-- **After the last phase every document aimed at has reached its target.** -/
theorem targets (h : Serves aim w .validation documents jobs) (hover : Phase.Over documents jobs)
    (haim : aim d) {document : Document τ δ} (hdocument : w.documents d = some document) :
    w.targetState d ≤ document.state := by
  by_cases hd : d ∈ documents
  · have hvalidated : document.state = .validated := h.ready.reached hover hd hdocument
    rw [hvalidated]
    exact targetState_le_validated
  · exact h.beside d haim hd document hdocument

end Serves

/-! ### Calls that spare the failing documents -/

/-- What is stored and not selected is validated. -/
theorem validated_of_not_selected (hw : w.Registered) {options : BuildOptions}
    {document : Document τ δ} (hd : w.documents d = some document)
    (h : d ∉ w.documentsToBuild L options) : document.state = .validated := by
  have hsome : (w.documents d).isSome := by rw [hd]; rfl
  have hnot : ¬ document.state < .validated := by
    intro hlt
    refine h (List.mem_filter.mpr ⟨List.mem_filter.mpr
      ⟨List.mem_range.mpr (hw d hsome), hsome⟩, ?_⟩)
    simp only [hd, Option.map_some, Option.getD_some, hlt, decide_true, Bool.true_or]
  cases hs : document.state with
  | validated => rfl
  | _ => exact absurd (hs ▸ hnot) (by decide)

/-- A call whose failing documents stay as they are, at each of its stages. -/
def SparedStage (failures : ℕ → Option TextFailure) (aim : ℕ → Prop) (w : Workspace τ δ)
    (call : Call) : Stage → Prop
  | .starting => Spared failures aim call.deleted call.changed w
  | .deleting pending => Spared failures aim pending call.changed w
  | .changing pending => Spared failures aim [] pending w
  | .relinking _ | .selecting => Spared failures aim [] [] w
  | .phase phase documents jobs =>
    Spared failures aim [] [] w ∧ Serves aim w phase documents jobs

def SparedActivity (failures : ℕ → Option TextFailure) (aim : ℕ → Prop) (w : Workspace τ δ) :
    Activity → Prop
  | .running call _ => SparedStage failures aim w call call.stage
  | .returned => Spared failures aim [] [] w ∧ ∀ d, aim d → w.AtTarget d
  | .failing _ _ _ | .thrown => False

theorem SparedStage.congr {call : Call} {stage : Stage} (h : SparedStage failures aim w call stage)
    (documents : w'.documents = w.documents)
    (states : w'.buildStateByDocumentId = w.buildStateByDocumentId)
    (ids : w.nextDocumentId ≤ w'.nextDocumentId) : SparedStage failures aim w' call stage := by
  cases stage with
  | phase phase documents' jobs => exact ⟨h.1.congr documents ids, h.2.congr documents states⟩
  | _ => exact Spared.congr h documents ids

namespace FactoryState

variable {s s' : FactoryState τ δ}

/-- **A step of a call that spares the failing documents.** -/
theorem Moves.spared (h : Moves L s s') (hw : s.workspace.Registered)
    (hs : SparedActivity s.failures aim s.workspace s.activity) :
    SparedActivity s'.failures aim s'.workspace s'.activity := by
  cases h with
  | serial h does serial created =>
    rw [h] at hs
    simp only [SparedActivity] at hs
    cases does with
    | start hstage | deleted hstage | changed hstage =>
      rw [hstage] at hs
      exact hs
    | relinked hstage =>
      rw [hstage] at hs
      exact Spared.congr hs rfl (Nat.le_refl _)
    | delete d pending hstage =>
      rw [hstage] at hs
      exact Spared.deleteDocument hs
    | change d pending hstage =>
      rw [hstage] at hs
      exact Spared.changeDocument hs (created d pending hstage)
    | relink d pending hstage =>
      rw [hstage] at hs
      exact Spared.relinkDocument hs _
    | select documents hstage hdocuments =>
      rw [hstage] at hs
      refine ⟨Spared.congr hs rfl (Nat.le_refl _), .content fun d hd => ?_, nofun,
        fun d haim hd document hdocument => ?_⟩
      · rw [hdocuments] at hd
        exact (List.mem_filter.mp (List.mem_filter.mp hd).1).2
      · have hvalidated := validated_of_not_selected hw hdocument (hdocuments ▸ hd)
        rw [hvalidated]
        exact targetState_le_validated
    | task d task rest hstage _ => exact absurd hstage (serial _ _ _)
    | endPhase phase hstage _ => exact absurd hstage (serial _ _ _)
  | skipChanged h stage fails =>
    rw [h] at hs
    simp only [SparedActivity, stage] at hs
    exact Spared.skip hs fails
  | @task call begun phase documents jobs d task rest h stage job sound =>
    rw [h] at hs
    simp only [SparedActivity, stage] at hs
    obtain ⟨hspared, hserves⟩ := hs
    obtain ⟨-, before, hbefore, hentry⟩ := hserves.ready.entry job
    refine ⟨hspared.run fun document hdocument => ?_, hserves.task job⟩
    rw [hbefore] at hdocument
    cases hdocument
    exact hentry
  | @endPhase call begun phase documents jobs h stage hover =>
    rw [h] at hs
    simp only [SparedActivity, stage] at hs
    obtain ⟨hspared, hserves⟩ := hs
    cases phase with
    | content => exact ⟨hspared, hserves.references hover⟩
    | references => exact ⟨hspared.congr rfl (Nat.le_refl _), hserves.validation hover rfl⟩
    | validation =>
      refine ⟨hspared, fun d haim => ?_⟩
      obtain ⟨-, hsome | ⟨-, hmem, -⟩⟩ := hspared.kept d haim
      · obtain ⟨document, hdocument⟩ := Option.isSome_iff_exists.mp hsome
        exact ⟨document, hdocument, hserves.targets hover haim hdocument⟩
      · cases hmem
  | @throw call begun phase documents jobs d task rest h stage job throws =>
    -- a failing document has a parse result, and so no task that throws
    exfalso
    rw [h] at hs
    simp only [SparedActivity, stage] at hs
    obtain ⟨hspared, hserves⟩ := hs
    obtain ⟨-, document, hdocument, hentry⟩ := hserves.ready.entry job
    have hfails : s.failures d ≠ none := by
      intro hgood
      rw [hgood] at throws
      cases task <;> cases throws
    obtain hmem | hparsed := hspared.parsed d document hfails hdocument
    · cases hmem
    · cases task with
      | attach | parse =>
        rw [show document.state = .changed from hentry] at hparsed
        exact absurd hparsed (by decide)
      | _ => cases throws
  | goOn h job sound =>
    rw [h] at hs
    exact hs.elim
  | drop h job =>
    rw [h] at hs
    exact hs.elim
  | rethrow h hover =>
    rw [h] at hs
    exact hs.elim

end FactoryState

/-- **The condition**: no failing document is left in the store to be parsed. -/
def Request.Spares (failures : ℕ → Option TextFailure) (w : Workspace τ δ) : Request → Prop
  | update changed deleted _ => ∀ d document, failures d ≠ none → w.documents d = some document →
    d ∈ deleted ∨ d ∉ changed ∧ .parsed ≤ document.state
  | build _ _ => ∀ d document, failures d ≠ none → w.documents d = some document →
    .parsed ≤ document.state

/-- A request for other documents meets the condition, when no failing document is to be
parsed. -/
theorem Spared.spares_update {changed deleted : List ℕ} {options : BuildOptions}
    (h : Spared failures aim [] [] w) (hothers : ∀ d ∈ changed, failures d = none) :
    (Request.update changed deleted options).Spares failures w := by
  intro d document hfails hdocument
  obtain hmem | hparsed := h.parsed d document hfails hdocument
  · cases hmem
  · exact .inr ⟨fun hmem => hfails (hothers d hmem), hparsed⟩

namespace FactoryState

variable {s s' : FactoryState τ δ}

/-- `build` takes no document back before its parse result. -/
theorem parsed_reopenBuild (options : BuildOptions) (d' : ℕ) {document : Document τ δ}
    (h : (w.reopenBuild L options d).documents d' = some document) :
    ∃ before, w.documents d' = some before ∧
      (.parsed ≤ before.state → .parsed ≤ document.state) := by
  have mapped : ∀ f : Document τ δ → Document τ δ,
      (∀ before, .parsed ≤ before.state → .parsed ≤ (f before).state) →
      update w.documents d ((w.documents d).map f) d' = some document →
      ∃ before, w.documents d' = some before ∧
        (.parsed ≤ before.state → .parsed ≤ document.state) := by
    intro f hf hdocument
    by_cases hdd : d' = d
    · subst hdd
      rw [Function.update_self] at hdocument
      obtain ⟨before, hbefore, rfl⟩ := Option.map_eq_some_iff.mp hdocument
      exact ⟨before, hbefore, hf before⟩
    · rw [Function.update_of_ne hdd] at hdocument
      exact ⟨document, hdocument, id⟩
  simp only [Workspace.reopenBuild] at h
  split at h
  · exact ⟨document, h, id⟩
  · split at h
    · split at h
      · refine mapped _ (fun before hbefore => ?_) h
        show DocumentState.parsed ≤ if _ then _ else _
        split
        · decide
        · exact hbefore
      · split at h
        · exact ⟨document, h, id⟩
        · refine mapped (fun before => { before with state := .indexedReferences }) ?_ h
          exact fun _ _ => Nat.succ_le_succ (Nat.zero_le _)
      · exact ⟨document, h, id⟩
    · exact ⟨document, h, id⟩

theorem parsed_reopen (documents : List ℕ) (options : BuildOptions) {document : Document τ δ}
    (h : (w.reopen L documents options).documents d = some document) :
    ∃ before, w.documents d = some before ∧
      (.parsed ≤ before.state → .parsed ≤ document.state) := by
  have hfold : (documents.foldl (Workspace.reopenBuild L options) w).documents d = some document :=
    h
  clear h
  induction documents generalizing w with
  | nil => exact ⟨document, hfold, id⟩
  | cons d' documents ih =>
    obtain ⟨middle, hmiddle, hparsed⟩ := ih hfold
    obtain ⟨before, hbefore, hparsed'⟩ := parsed_reopenBuild options d hmiddle
    exact ⟨before, hbefore, fun h => hparsed (hparsed' h)⟩

/-- The documents that a request is to bring to their target. -/
def Aims (s : FactoryState τ δ) (request : Request) (d : ℕ) : Prop :=
  request.Covers s.workspace d ∧ s.failures d = none

/-- An update under the condition. -/
theorem spared_update {changed deleted : List ℕ} {options : BuildOptions}
    (h : (Request.update changed deleted options).Spares s.failures s.workspace) :
    SparedStage s.failures (s.Aims (.update changed deleted options)) s.workspace
      (Call.update changed deleted options) .starting := by
  refine ⟨fun d document hfails hd => ?_, fun d hd hfails => ?_, fun d haim => ?_⟩
  · rcases h d document hfails hd with hdeleted | ⟨-, hparsed⟩
    · exact .inl (List.mem_eraseDups.mpr hdeleted)
    · exact .inr hparsed
  · obtain ⟨hchanged, hdeleted⟩ := List.mem_filter.mp (List.mem_eraseDups.mp hd)
    by_contra hsome
    obtain ⟨document, hdocument⟩ := Option.ne_none_iff_exists'.mp hsome
    rcases h d document hfails hdocument with hmem | ⟨hno, -⟩
    · exact of_decide_eq_true hdeleted hmem
    · exact hno hchanged
  · obtain ⟨⟨hdeleted, hthere⟩, hgood⟩ := haim
    refine ⟨fun hmem => hdeleted (List.mem_eraseDups.mp hmem), hthere.imp_right fun hnew => ?_⟩
    refine ⟨hgood, List.mem_eraseDups.mpr (List.mem_filter.mpr ⟨hnew.1, ?_⟩), hnew.2⟩
    exact decide_eq_true hdeleted

/-- A build under the condition. -/
theorem spared_build {documents : List ℕ} {options : BuildOptions} {aim : ℕ → Prop}
    (stored : ∀ d ∈ documents, (s.workspace.documents d).isSome)
    (haim : ∀ d, aim d → d ∈ documents)
    (h : (Request.build documents options).Spares s.failures s.workspace) :
    SparedActivity s.failures aim (s.workspace.reopen L documents options)
      (.running (Call.build documents options (s.workspace.reopen L documents options)) []) := by
  have hstored : ∀ d ∈ documents,
      ((s.workspace.reopen L documents options).documents d).isSome := by
    intro d hd
    rw [Workspace.isSome_reopen]
    exact stored d hd
  refine ⟨⟨fun d document hfails hd => .inr ?_, nofun, fun d hd => ?_⟩, .content hstored, nofun,
    fun d hd hno => absurd (haim d hd) hno⟩
  · obtain ⟨before, hbefore, hparsed⟩ := parsed_reopen documents options hd
    exact hparsed (h d before hfails hbefore)
  · exact ⟨List.not_mem_nil, .inl (hstored d (haim d hd))⟩

/-- A request under the condition begins a call that spares the failing documents. -/
theorem spared_begins {request : Request} {s₀ : FactoryState τ δ} (hidle : s.Idle)
    (hbegins : (machine L).step s request.event = some s₀)
    (h : request.Spares s.failures s.workspace) :
    s₀.failures = s.failures ∧
      SparedActivity s₀.failures (s.Aims request) s₀.workspace s₀.activity := by
  cases request with
  | update changed deleted options =>
    cases asks_of_step hidle hbegins with
    | update => exact ⟨rfl, spared_update h⟩
    | text h _ _ _ => exact h.elim
  | build documents options =>
    cases asks_of_step hidle hbegins with
    | build _ _ stored => exact ⟨rfl, spared_build stored (fun d hd => hd.1) h⟩
    | text h _ _ _ => exact h.elim

/-! ### Isolation -/

/-- What happens to other documents: requests that name no failing document, and whatever
else goes on, while the same texts fail and nothing is cancelled. -/
def Others (s : FactoryState τ δ) : FactoryEvent τ → Prop
  | .builder (.update changed _ _) => ∀ d ∈ changed, s.failures d = none
  | .builder (.build documents _) => ∀ d ∈ documents, s.failures d = none
  | .builder .stop | .fails _ _ => False
  | _ => True

/-- A call that comes to its end, and returns. -/
structure Completes (L : Language τ δ) (s : FactoryState τ δ) : Prop where
  terminates : (machine L).Terminates OfCall s
  returns : ∀ s', (machine L).Reaches OfCall s s' → (machine L).Final OfCall s' →
    s'.activity = .returned

/-- **Isolation of the documents that fail**, for a request in the state `s` that begins its
call in `s₀`: the call comes to its end and brings the other documents to their targets,
and from then on every update of other documents completes. -/
structure Isolates (L : Language τ δ) (request : Request) (s s₀ : FactoryState τ δ) : Prop where
  terminates : (machine L).Terminates OfCall s₀
  targets : ∀ s', (machine L).Reaches OfCall s₀ s' → (machine L).Final OfCall s' →
    ∀ d, request.Covers s.workspace d → s.failures d = none → s'.workspace.AtTarget d
  later : ∀ s₁ s₂ changed deleted options s₃, (machine L).Reaches OfCall s₀ s₁ →
    (machine L).Final OfCall s₁ → (machine L).Reaches Others s₁ s₂ →
    (∀ d ∈ changed, s₂.failures d = none) →
    (machine L).step s₂ (.builder (.update changed deleted options)) = some s₃ →
    Completes L s₃

/-- What holds of a call that spares the failing documents, in each of its states. -/
structure Sparing (aim : ℕ → Prop) (s : FactoryState τ δ) : Prop where
  registered : s.workspace.Registered
  spared : SparedActivity s.failures aim s.workspace s.activity

theorem Moves.same_failures (h : Moves L s s') : s'.failures = s.failures := by
  cases h <;> rfl

theorem Sparing.moves {aim : ℕ → Prop} (h : Sparing aim s) (hmoves : Moves L s s') :
    Sparing aim s' := ⟨hmoves.registered h.registered, hmoves.spared h.registered h.spared⟩

/-- **A call that spares the failing documents**, from its beginning on. -/
theorem Sparing.reaches {aim : ℕ → Prop} (h : Sparing aim s)
    (hreach : (machine L).Reaches OfCall s s') : Sparing aim s' :=
  hreach.invariant h fun _ _ _ hs hcall hstep => hs.moves (moves_of_step hcall hstep)

/-- Where such a call cannot go on, it has returned and its documents are at their target. -/
theorem Sparing.returned {aim : ℕ → Prop} (h : Sparing aim s)
    (hfinal : (machine L).Final OfCall s) :
    s.activity = .returned ∧ ∀ d, aim d → s.workspace.AtTarget d := by
  have hspared := h.spared
  rcases idle_of_final hfinal with hactivity | hactivity
  · rw [hactivity] at hspared
    exact ⟨hactivity, hspared.2⟩
  · rw [hactivity] at hspared
    exact hspared.elim

/-! ### What other documents see of it later -/

/-- No document is aimed at in particular. -/
abbrev Untargeted (s : FactoryState τ δ) : Prop := Sparing (fun _ => False) s

theorem Untargeted.asks {event : BuilderEvent τ} (h : Untargeted s)
    (hactivity : s.activity = .returned) (hothers : s.Others (.builder event))
    (hasks : Asks L s event s') : Untargeted s' := by
  refine ⟨hasks.registered h.registered, ?_⟩
  have hspared := h.spared
  rw [hactivity] at hspared
  obtain ⟨hspared, -⟩ := hspared
  cases hasks with
  | refused d fails => exact h.spared
  | created d sound =>
    show SparedActivity _ _ _ s.activity
    rw [hactivity]
    exact ⟨hspared.getOrCreateDocument sound, fun _ => False.elim⟩
  | update changed deleted options => exact (spared_update (hspared.spares_update hothers)).weaken
  | build documents options stored =>
    refine spared_build stored (fun _ => False.elim) fun d document hfails hdocument => ?_
    obtain hmem | hparsed := hspared.parsed d document hfails hdocument
    · cases hmem
    · exact hparsed
  | resolve d i =>
    show SparedActivity _ _ _ s.activity
    rw [hactivity]
    exact ⟨hspared.resolve i, fun _ => False.elim⟩
  | text _ documents states ids =>
    show SparedActivity _ _ _ s.activity
    rw [hactivity]
    exact ⟨hspared.congr documents ids, fun _ => False.elim⟩

/-- **What happens to other documents leaves the failing ones alone.** -/
theorem Untargeted.step {event : FactoryEvent τ} (h : Untargeted s) (hothers : s.Others event)
    (hstep : (machine L).step s event = some s') : Untargeted s' := by
  by_cases hcall : s.OfCall event
  · exact h.moves (moves_of_step hcall hstep)
  cases event with
  | fails d failure => exact hothers.elim
  | skip d => exact absurd trivial hcall
  | builder event =>
    cases hactivity : s.activity with
    | returned => exact h.asks hactivity hothers (asks_of_step (.inl hactivity) hstep)
    | thrown =>
      have hspared := h.spared
      rw [hactivity] at hspared
      exact hspared.elim
    | failing documents jobs begun =>
      have hspared := h.spared
      rw [hactivity] at hspared
      exact hspared.elim
    | running call begun =>
      have hspared := h.spared
      rw [hactivity] at hspared
      refine ⟨registered_step h.registered hstep, ?_⟩
      cases event with
      | getOrCreateDocumentId =>
        cases hstep
        show SparedActivity _ _ _ s.activity
        rw [hactivity]
        exact SparedStage.congr hspared rfl rfl (Nat.le_succ _)
      | setTextDocument d text | writeFile d text =>
        cases hstep
        show SparedActivity _ _ _ s.activity
        rw [hactivity]
        exact SparedStage.congr hspared rfl rfl (Nat.le_refl _)
      | work work => exact absurd trivial hcall
      | stop => exact hothers.elim
      | _ =>
        simp only [machine, FactoryState.step, hactivity] at hstep
        cases hstep

/-- After a call that has returned, no document is aimed at in particular. -/
theorem Sparing.untargeted {aim : ℕ → Prop} (h : Sparing aim s)
    (hactivity : s.activity = .returned) : Untargeted s := by
  refine ⟨h.registered, ?_⟩
  have hspared := h.spared
  rw [hactivity] at hspared ⊢
  exact ⟨hspared.1.weaken, fun _ => False.elim⟩

/-- Without failing documents to parse, a later update completes. -/
theorem Untargeted.completes {changed deleted : List ℕ} {options : BuildOptions}
    (h : Untargeted s) (hidle : s.Idle) (hothers : ∀ d ∈ changed, s.failures d = none)
    (hstep : (machine L).step s (.builder (.update changed deleted options)) = some s') :
    Completes L s' where
  terminates := terminates (confined_of_asks hidle (asks_of_step hidle hstep))
  returns s₁ hreach hfinal := by
    have hbegun : Untargeted s' :=
      h.step (show s.Others (.builder (.update changed deleted options)) from hothers) hstep
    exact ((hbegun.reaches hreach).returned hfinal).1

end FactoryState

/-! ### A failing document that is to be parsed -/

/-- The document is there, and not parsed. -/
def Unparsed (d : ℕ) (w : Workspace τ δ) : Prop :=
  ∃ document, w.documents d = some document ∧ document.state = .changed

/-- The document is there, and not parsed or about to be reset. -/
def Resets (changed : List ℕ) (d : ℕ) (w : Workspace τ δ) : Prop :=
  (w.documents d).isSome ∧ (d ∈ changed ∨ Unparsed d w)

/-- The tasks of a failing document: the one that throws is among them. -/
def ToThrow (failure : Option TextFailure) (tasks : List Task) : Prop :=
  tasks = [.attach, .parse, .updateContent] ∨
    failure = some .parse ∧ tasks = [.parse, .updateContent]

/-- A call with a failing document in its way; `out` says that it may leave the document
out. -/
def HeldStage (out : Prop) (failure : Option TextFailure) (d : ℕ) (w : Workspace τ δ)
    (call : Call) : Stage → Prop
  | .starting => d ∉ call.deleted ∧ Resets call.changed d w
  | .deleting pending => d ∉ pending ∧ Resets call.changed d w
  | .changing pending => Resets pending d w
  | .relinking _ | .selecting => Unparsed d w
  | .phase phase documents jobs => Unparsed d w ∧
    (out ∧ d ∉ documents ∧ jobs d = [] ∨
      phase = .content ∧ d ∈ documents ∧ ToThrow failure (jobs d))

def HeldActivity (out : Prop) (failure : Option TextFailure) (d : ℕ) (w : Workspace τ δ) :
    Activity → Prop
  | .running call _ => HeldStage out failure d w call call.stage
  | .failing _ jobs _ => Unparsed d w ∧ (jobs d = [] ∨ ToThrow failure (jobs d))
  | .thrown => Unparsed d w
  | .returned => out ∧ Unparsed d w

theorem changed_of_not_parsed {state : DocumentState} (h : ¬ .parsed ≤ state) :
    state = .changed := by
  cases state with
  | changed => rfl
  | _ => exact absurd (Nat.succ_le_succ (Nat.zero_le _)) h

theorem Unparsed.elsewhere {d' : ℕ} (h : Unparsed d w) (same : w.SameElsewhere d' w')
    (hd : d ≠ d') : Unparsed d w' := by
  obtain ⟨document, hdocument, hstate⟩ := h
  exact ⟨document, (same.documents d hd).trans hdocument, hstate⟩

theorem Unparsed.isSome (h : Unparsed d w) : (w.documents d).isSome := by
  obtain ⟨document, hdocument, -⟩ := h
  rw [hdocument]
  rfl

theorem Resets.elsewhere {changed : List ℕ} {d' : ℕ} (h : Resets changed d w)
    (same : w.SameElsewhere d' w') (hd : d ≠ d') : Resets changed d w' := by
  refine ⟨?_, h.2.imp_right fun hunparsed => hunparsed.elsewhere same hd⟩
  rw [same.documents d hd]
  exact h.1

/-- A reset leaves an unparsed document as it is, and the one to `Changed` makes it one. -/
theorem unparsed_resetToState {state : DocumentState} (hsome : (w.documents d).isSome)
    (h : state = .changed ∨ Unparsed d w) : Unparsed d (w.resetToState d state) := by
  obtain ⟨document, hdocument⟩ := Option.isSome_iff_exists.mp hsome
  refine ⟨document.resetTo state, ?_, ?_⟩
  · rw [Workspace.resetToState_documents, Function.update_self, hdocument]
    rfl
  · show (if state < document.state then state else document.state) = .changed
    rcases h with rfl | ⟨document', hdocument', hstate⟩
    · split
      · rfl
      next hno => cases hs : document.state <;> first | rfl | exact absurd (hs ▸ hno) (by decide)
    · rw [hdocument] at hdocument'
      cases hdocument'
      rw [hstate]
      exact if_neg (show ¬ state < .changed from Nat.not_lt_zero _)

theorem Resets.changeDocument {changed : List ℕ} {d' : ℕ} (h : Resets (d' :: changed) d w) :
    Resets changed d (w.changeDocument L d') := by
  by_cases hdd : d = d'
  · subst hdd
    obtain ⟨document, hdocument⟩ := Option.isSome_iff_exists.mp h.1
    have hthere : w.getOrCreateDocument L d = w := by
      simp only [Workspace.getOrCreateDocument, hdocument]
    have hchanged : w.changeDocument L d = w.resetToState d .changed := by
      simp only [Workspace.changeDocument, hthere, if_pos h.1]
    rw [hchanged]
    have hunparsed := unparsed_resetToState h.1 (.inl rfl)
    exact ⟨hunparsed.isSome, .inr hunparsed⟩
  · refine Resets.elsewhere ⟨h.1, h.2.imp_left fun hmem => ?_⟩
      Workspace.sameElsewhere_changeDocument hdd
    exact (List.mem_cons.mp hmem).resolve_left hdd

theorem Unparsed.relinkDocument (h : Unparsed d w) (changed : List ℕ) (d' : ℕ) :
    Unparsed d (w.relinkDocument changed d') := by
  by_cases hdd : d = d'
  · subst hdd
    unfold Workspace.relinkDocument
    split
    · exact unparsed_resetToState h.isSome (.inr h)
    · exact h
  · exact h.elsewhere (Workspace.sameElsewhere_relinkDocument changed) hdd

/-- Up to the task that throws, a failing document stays unparsed. -/
theorem Unparsed.run {failure : Option TextFailure} {task : Task} {rest : List Task}
    (h : Unparsed d w) (hfails : failure ≠ none) (htasks : ToThrow failure (task :: rest))
    (sound : task.throws failure = false) :
    Unparsed d (task.run L d w) ∧ ToThrow failure rest := by
  obtain ⟨document, hdocument, -⟩ := h
  rcases htasks with htasks | ⟨rfl, htasks⟩
  · cases htasks
    have hparse : failure = some .parse := by
      rcases failure with - | - | -
      · exact absurd rfl hfails
      · cases sound
      · rfl
    exact ⟨⟨document.attach (w.latestText d), Task.run_document .attach hdocument, rfl⟩,
      .inr ⟨hparse, rfl⟩⟩
  · cases htasks
    cases sound

namespace FactoryState

variable {s s' : FactoryState τ δ}

/-- **A step of a call with a failing document in its way.** -/
theorem Moves.held {out : Prop} (h : Moves L s s') (hfails : s.failures d ≠ none)
    (hw : s.workspace.Registered) (hs : HeldActivity out (s.failures d) d s.workspace s.activity) :
    HeldActivity out (s'.failures d) d s'.workspace s'.activity := by
  cases h with
  | serial h does serial created =>
    rw [h] at hs
    simp only [HeldActivity] at hs
    cases does with
    | start hstage | relinked hstage =>
      rw [hstage] at hs
      exact hs
    | deleted hstage =>
      rw [hstage] at hs
      exact hs.2
    | changed hstage =>
      rw [hstage] at hs
      exact hs.2.resolve_left List.not_mem_nil
    | delete d' pending hstage =>
      rw [hstage] at hs
      obtain ⟨hno, hresets⟩ := hs
      obtain ⟨hne, hno⟩ := List.ne_and_not_mem_of_not_mem_cons hno
      exact ⟨hno, hresets.elsewhere Workspace.sameElsewhere_deleteDocument hne⟩
    | change d' pending hstage =>
      rw [hstage] at hs
      exact Resets.changeDocument hs
    | relink d' pending hstage =>
      rw [hstage] at hs
      exact Unparsed.relinkDocument hs _ d'
    | select documents hstage hdocuments =>
      rw [hstage] at hs
      obtain ⟨document, hdocument, hstate⟩ : Unparsed d s.workspace := hs
      have hselected : d ∈ documents := by
        by_contra hno
        rw [validated_of_not_selected hw hdocument (hdocuments ▸ hno)] at hstate
        cases hstate
      refine ⟨⟨document, hdocument, hstate⟩, .inr ⟨rfl, hselected, .inl ?_⟩⟩
      show (if d ∈ documents then _ else []) = _
      rw [if_pos hselected]
      simp only [Phase.tasks, Workspace.prepareBuild, hdocument, contentTasks, hstate]
      rfl
    | task d task rest hstage _ => exact absurd hstage (serial _ _ _)
    | endPhase phase hstage _ => exact absurd hstage (serial _ _ _)
  | @skipChanged call begun d' pending h stage fails =>
    rw [h] at hs
    simp only [HeldActivity, stage] at hs
    obtain ⟨hsome, hresets⟩ := hs
    -- the skipped document is not in the store
    have hne : d ≠ d' := by
      rintro rfl
      rw [Workspace.creationFails, Option.isNone_eq_false_iff.mpr hsome] at fails
      cases fails
    exact ⟨hsome, hresets.imp_left fun hmem => (List.mem_cons.mp hmem).resolve_left hne⟩
  | @task call begun phase documents jobs d' task rest h stage job sound =>
    rw [h] at hs
    simp only [HeldActivity, stage] at hs
    obtain ⟨hunparsed, hheld⟩ := hs
    by_cases hdd : d = d'
    · subst hdd
      rcases hheld with ⟨-, -, hnone⟩ | ⟨hphase, hmem, htasks⟩
      · rw [hnone] at job
        cases job
      · rw [job] at htasks
        obtain ⟨hunparsed, hrest⟩ := hunparsed.run hfails htasks sound
        refine ⟨hunparsed, .inr ⟨hphase, hmem, ?_⟩⟩
        rw [Function.update_self]
        exact hrest
    · refine ⟨hunparsed.elsewhere task.run_sameElsewhere hdd, ?_⟩
      rw [Function.update_of_ne hdd]
      exact hheld
  | @endPhase call begun phase documents jobs h stage hover =>
    rw [h] at hs
    simp only [HeldActivity, stage] at hs
    obtain ⟨hunparsed, hheld⟩ := hs
    rcases hheld with ⟨hout, hno, -⟩ | ⟨-, hmem, htasks⟩
    · cases phase with
      | content => exact ⟨hunparsed, .inl ⟨hout, hno, if_neg hno⟩⟩
      | references =>
        have hno' : d ∉ documents.filter fun d => s.workspace.shouldValidate d :=
          fun hmem => hno (List.mem_filter.mp hmem).1
        exact ⟨hunparsed, .inl ⟨hout, hno', if_neg hno'⟩⟩
      | validation => exact ⟨hout, hunparsed⟩
    · -- the phase cannot be over with the document in it
      rw [hover d hmem] at htasks
      rcases htasks with htasks | ⟨-, htasks⟩ <;> cases htasks
  | @throw call begun phase documents jobs d' task rest h stage job throws =>
    rw [h] at hs
    simp only [HeldActivity, stage] at hs
    obtain ⟨hunparsed, hheld⟩ := hs
    refine ⟨hunparsed, ?_⟩
    by_cases hdd : d = d'
    · subst hdd
      rw [Function.update_self]
      exact .inl rfl
    · rw [Function.update_of_ne hdd]
      exact hheld.imp (fun hout => hout.2.2) fun hin => hin.2.2
  | @goOn documents jobs begun d' task rest h job sound =>
    rw [h] at hs
    obtain ⟨hunparsed, hheld⟩ := hs
    by_cases hdd : d = d'
    · subst hdd
      rw [job] at hheld
      obtain ⟨hunparsed, hrest⟩ :=
        hunparsed.run hfails (hheld.resolve_left (List.cons_ne_nil _ _)) sound
      refine ⟨hunparsed, .inr ?_⟩
      rw [Function.update_self]
      exact hrest
    · refine ⟨hunparsed.elsewhere task.run_sameElsewhere hdd, ?_⟩
      rw [Function.update_of_ne hdd]
      exact hheld
  | @drop documents jobs begun d' h job =>
    rw [h] at hs
    obtain ⟨hunparsed, hheld⟩ := hs
    refine ⟨hunparsed, ?_⟩
    by_cases hdd : d = d'
    · subst hdd
      rw [Function.update_self]
      exact .inl rfl
    · rw [Function.update_of_ne hdd]
      exact hheld
  | rethrow h hover =>
    rw [h] at hs
    exact hs.1

/-- What holds of a call with a failing document in its way, in each of its states. -/
structure Held (out : Prop) (d : ℕ) (s : FactoryState τ δ) : Prop where
  registered : s.workspace.Registered
  fails : s.failures d ≠ none
  held : HeldActivity out (s.failures d) d s.workspace s.activity

theorem Held.reaches {out : Prop} (h : Held out d s) (hreach : (machine L).Reaches OfCall s s') :
    Held out d s' :=
  hreach.invariant h fun s₁ _ s₂ hs hcall hstep => by
    have hmoves : Moves L s₁ s₂ := moves_of_step hcall hstep
    have hfails : s₂.failures d ≠ none := by
      rw [hmoves.same_failures]
      exact hs.fails
    exact ⟨hmoves.registered hs.registered, hfails, hmoves.held hs.fails hs.registered hs.held⟩

/-- Where such a call cannot go on, the document is still there, and not parsed. -/
theorem Held.unparsed {out : Prop} (h : Held out d s) (hfinal : (machine L).Final OfCall s) :
    Unparsed d s.workspace := by
  have hheld := h.held
  rcases idle_of_final hfinal with hactivity | hactivity
  · rw [hactivity] at hheld
    exact hheld.2
  · rw [hactivity] at hheld
    exact hheld

/-- **An update does not complete while a failing document is to be parsed.** -/
theorem not_completes_of_unparsed {options : BuildOptions} (hw : s.workspace.Registered)
    (hfails : s.failures d ≠ none) (hunparsed : Unparsed d s.workspace) (hidle : s.Idle)
    (hstep : (machine L).step s (.builder (.update [] [] options)) = some s') :
    ¬ Completes L s' := by
  intro hcompletes
  have hheld : Held False d s' := by
    cases asks_of_step hidle hstep with
    | update => exact ⟨hw, hfails, List.not_mem_nil, hunparsed.isSome, .inr hunparsed⟩
    | text h _ _ _ => exact h.elim
  obtain ⟨s₁, hreach, hfinal⟩ := hcompletes.terminates.exists_final
  have hend := (hheld.reaches hreach).held
  rw [hcompletes.returns s₁ hreach hfinal] at hend
  exact hend.1

/-- A document without parse result is unparsed after `build` has taken back what it must. -/
theorem unparsed_reopen (documents : List ℕ) (options : BuildOptions) (h : Unparsed d w) :
    Unparsed d (w.reopen L documents options) := by
  suffices hfold : Unparsed d (documents.foldl (Workspace.reopenBuild L options) w) from hfold
  induction documents generalizing w with
  | nil => exact h
  | cons d' documents ih =>
    refine ih ?_
    by_cases hdd : d = d'
    · subst hdd
      obtain ⟨document, hdocument, hstate⟩ := h
      refine ⟨document, ?_, hstate⟩
      -- `build` only forgets the build state of a document that is not validated
      simp only [Workspace.reopenBuild, hdocument, hstate, reduceCtorEq, if_false]
    · exact h.elsewhere (Workspace.sameElsewhere_reopenBuild options d') hdd

/-- A request that does not meet the condition begins a call with a failing document in its
way, or leaves one unparsed. -/
theorem held_begins {request : Request} {s₀ : FactoryState τ δ} (hw : s.workspace.Registered)
    (hidle : s.Idle) (hbegins : (machine L).step s request.event = some s₀)
    (h : ¬ request.Spares s.failures s.workspace) : ∃ d, Held True d s₀ := by
  have hregistered := registered_step hw hbegins
  cases request with
  | update changed deleted options =>
    obtain ⟨d, document, hfails, hdocument, hno⟩ : ∃ d document, s.failures d ≠ none ∧
        s.workspace.documents d = some document ∧
        ¬ (d ∈ deleted ∨ d ∉ changed ∧ .parsed ≤ document.state) := by
      simpa only [Request.Spares, not_forall, exists_prop] using h
    obtain ⟨hdeleted, hstate⟩ := not_or.mp hno
    cases asks_of_step hidle hbegins with
    | text h _ _ _ => exact h.elim
    | update =>
      refine ⟨d, hregistered, hfails, fun hmem => hdeleted (List.mem_eraseDups.mp hmem), ?_, ?_⟩
      · rw [hdocument]
        rfl
      · by_cases hmem : d ∈ changed
        · refine .inl (List.mem_eraseDups.mpr (List.mem_filter.mpr ⟨hmem, ?_⟩))
          exact decide_eq_true hdeleted
        · refine .inr ⟨document, hdocument, ?_⟩
          exact changed_of_not_parsed fun hparsed => hstate ⟨hmem, hparsed⟩
  | build documents options =>
    obtain ⟨d, document, hfails, hdocument, hno⟩ : ∃ d document, s.failures d ≠ none ∧
        s.workspace.documents d = some document ∧ ¬ .parsed ≤ document.state := by
      simpa only [Request.Spares, not_forall, exists_prop] using h
    cases asks_of_step hidle hbegins with
    | text h _ _ _ => exact h.elim
    | build _ _ stored =>
      have hunparsed : Unparsed d (s.workspace.reopen L documents options) :=
        unparsed_reopen documents options ⟨document, hdocument, changed_of_not_parsed hno⟩
      refine ⟨d, hregistered, hfails, hunparsed, ?_⟩
      by_cases hmem : d ∈ documents
      · refine .inr ⟨rfl, hmem, .inl ?_⟩
        obtain ⟨document', hdocument', hstate⟩ := hunparsed
        show (if d ∈ documents then _ else []) = _
        rw [if_pos hmem]
        simp only [Phase.tasks, hdocument', contentTasks, hstate]
        rfl
      · exact .inl ⟨trivial, hmem, if_neg hmem⟩

end FactoryState

open FactoryState in
/-- Under the condition the failing documents are isolated. -/
theorem Request.Spares.isolates {s s₀ : FactoryState τ δ} {request : Request}
    (hw : s.workspace.Registered) (hbegins : (machine L).step s request.event = some s₀)
    (h : request.Spares s.failures s.workspace) : Isolates L request s s₀ := by
  have hidle : s.Idle := idle_of_begins hbegins
  obtain ⟨-, hspared⟩ := spared_begins hidle hbegins h
  have hbegun : Sparing (s.Aims request) s₀ := ⟨registered_step hw hbegins, hspared⟩
  refine ⟨terminates (confined_of_begins hidle hbegins), ?_, ?_⟩
  · intro s₁ hcall hfinal d hcovers hgood
    exact ((hbegun.reaches hcall).returned hfinal).2 d ⟨hcovers, hgood⟩
  · intro s₁ s₂ changed deleted options s₃ hcall hfinal hothers hchanged hstep
    have hspares := hbegun.reaches hcall
    have hlater : Untargeted s₂ :=
      hothers.invariant (hspares.untargeted (hspares.returned hfinal).1)
        fun _ _ _ hs hallowed hs' => hs.step hallowed hs'
    exact hlater.completes (idle_of_update hstep) hchanged hstep

open FactoryState in
/-- A failing document that is left to be parsed is met by the next update as well. -/
theorem not_isolates {s s₀ : FactoryState τ δ} {request : Request}
    (hw : s.workspace.Registered) (hbegins : (machine L).step s request.event = some s₀)
    (h : ¬ request.Spares s.failures s.workspace) : ¬ Isolates L request s s₀ := by
  intro hisolates
  obtain ⟨d, hheld⟩ := held_begins hw (idle_of_begins hbegins) hbegins h
  obtain ⟨s₁, hcall, hfinal⟩ := hisolates.terminates.exists_final
  have hend : Held True d s₁ := hheld.reaches hcall
  have hidle : s₁.Idle := idle_of_final hfinal
  obtain ⟨s₂, hs₂⟩ : ∃ s₂,
      (machine L).step s₁ (.builder (.update [] [] ⟨none, .unset⟩)) = some s₂ := by
    rcases hidle with hactivity | hactivity <;>
      · simp only [machine, step, hactivity]
        exact ⟨_, rfl⟩
  refine not_completes_of_unparsed hend.registered hend.fails (hend.unparsed hfinal) hidle hs₂ ?_
  exact hisolates.later s₁ s₁ [] [] _ s₂ hcall hfinal .refl (by rintro _ ⟨⟩) hs₂

open FactoryState in
/-- **The documents that fail are isolated from the others exactly when none of them is left
in the store to be parsed**: each one is deleted by the request, or has its parse result and
is not reset. -/
theorem failures_isolated_iff {files : ℕ → τ} {s s₀ : FactoryState τ δ} {request : Request}
    (hreach : (machine L).Reaches (fun _ _ => True) (initial files) s)
    (hbegins : (machine L).step s request.event = some s₀) :
    Isolates L request s s₀ ↔ request.Spares s.failures s.workspace := by
  have hw : s.workspace.Registered := registered_of_reaches hreach
  constructor
  · intro hisolates
    by_contra hno
    exact not_isolates hw hbegins hno hisolates
  · exact fun hspares => hspares.isolates hw hbegins

namespace FactoryState.Sample

/-- Two documents are created; then the text of the first one cannot be parsed any more. -/
def events : List (FactoryEvent Ast) :=
  [.builder .getOrCreateDocumentId, .builder .getOrCreateDocumentId,
    .builder (.getOrCreateDocument 0), .builder (.getOrCreateDocument 1), .fails 0 (some .parse)]

/-- Everything is validated. -/
def everything : BuildOptions := ⟨none, .enabled true⟩

/-- The workspace after that. -/
def workspace : Workspace Ast String :=
  let w : Workspace Ast String := .empty fun _ => ⟨1, [], []⟩
  (w.getOrCreateDocumentId.getOrCreateDocumentId.getOrCreateDocument .literal 0).getOrCreateDocument
    .literal 1

def idle : FactoryState Ast String := ⟨workspace, update (fun _ => none) 0 (some .parse), .returned⟩

/-- An update begins. -/
def begun (changed : List ℕ) : FactoryState Ast String :=
  { idle with activity := .running (Call.update changed [] everything) [] }

theorem reaches_idle :
    (machine .literal).Reaches (fun _ _ => True) (initial fun _ => ⟨1, [], []⟩) idle :=
  Machine.reaches_of_run (show (machine .literal).run _ events = some idle from rfl)
    (Machine.allowedRun_any _ _)

end FactoryState.Sample

open FactoryState FactoryState.Sample in
/-- The second document is built while the first one keeps its parse result. -/
theorem failures_isolated_iff_beside :
    Isolates .literal (.update [1] [] everything) idle (begun [1]) := by
  refine (failures_isolated_iff reaches_idle rfl).mpr fun d document hfails hdocument => .inr ?_
  have hd : d = 0 := by
    by_contra hne
    exact hfails (show update (fun _ => none) 0 _ d = none from Function.update_of_ne hne _ _)
  subst hd
  cases hdocument
  decide

namespace FactoryState.Sample

/-- The update of both documents: the first one throws, and the second is skipped. -/
def thrownEvents : List (FactoryEvent Ast) :=
  (Call.steps 9).map (fun work => .builder (.work work)) ++
    (Call.tasks 0 2).map (fun work => .builder (.work work)) ++
    [.skip 1, .builder (.work .next)]

theorem ofCall_thrownEvents (s : FactoryState Ast String) :
    (machine .literal).AllowedRun OfCall s thrownEvents := by
  refine @Machine.allowedRun_of_invariant _ _ _ _ s _ (fun _ => True) (fun e he s _ => ?_)
    (fun _ _ _ _ _ _ => trivial) trivial
  rcases List.mem_append.mp he with hwork | hlast
  · rcases List.mem_append.mp hwork with hmem | hmem
    · obtain ⟨work, -, rfl⟩ := List.mem_map.mp hmem
      trivial
    · obtain ⟨work, -, rfl⟩ := List.mem_map.mp hmem
      trivial
  · rcases List.mem_pair.mp hlast with rfl | rfl
    · trivial
    · trivial

theorem run_thrownEvents : ∃ s, (machine .literal).run (begun [0, 1]) thrownEvents = some s ∧
    s.activity = .thrown ∧ (s.workspace.documents 1).map (·.state) = some .changed ∧
      s.workspace.targetState 1 = .validated :=
  ⟨_, rfl, rfl, rfl, rfl⟩

end FactoryState.Sample

open FactoryState FactoryState.Sample in
/-- **An edit of both documents is lost on both**: the first one throws, so the second is not
built, and every later update throws again. -/
theorem failures_not_isolated :
    ¬ Isolates .literal (.update [0, 1] [] everything) idle (begun [0, 1]) ∧
      ∃ s, (machine .literal).Reaches OfCall (begun [0, 1]) s ∧ s.activity = .thrown ∧
        ¬ s.workspace.AtTarget 1 := by
  constructor
  · refine not_isolates (registered_of_reaches reaches_idle) rfl fun hspares => ?_
    rcases hspares 0 _ (by decide) rfl with hdeleted | ⟨hno, -⟩
    · cases hdeleted
    · exact hno List.mem_cons_self
  · obtain ⟨s, hrun, hthrown, hstate, htarget⟩ := run_thrownEvents
    refine ⟨s, Machine.reaches_of_run hrun (ofCall_thrownEvents _), hthrown, ?_⟩
    rintro ⟨document, hdocument, hle⟩
    rw [hdocument] at hstate
    have hchanged : document.state = .changed := Option.some.inj hstate
    rw [htarget, hchanged] at hle
    exact absurd hle (by decide)

end Pegium
