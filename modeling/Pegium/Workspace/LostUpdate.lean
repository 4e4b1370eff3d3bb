/-
Pegium/Workspace/LostUpdate.lean

When a change of content reaches its document.

An open document is *recorded* (`UpToDate`) when it has been parsed with its
latest text, or has been reset and will be parsed by the next update that gets
that far.  Otherwise an update for it must still be on its way: fired, waiting
for the lock, or running and not yet past the document.  `Tracks` says so, and
every step of a call keeps it.

Three things break it, and `Meets` excludes them: a write that is stopped before
it has recorded a document, with no other update for it on its way; a document
that is deleted while the client has it open; and a write that is skipped as
redundant, as the last one, while a stopped build has left documents unfinished.
-/
import Mathlib.Data.List.Basic
import Pegium.Workspace.UpdateHandler

namespace Pegium

open Function (update)

variable {τ δ : Type} {L : Language τ δ} {w w' : Workspace τ δ} {d : ℕ}

namespace Workspace

/-- The document is waiting to be parsed again, or has been parsed with this text. -/
def UpToDate (d : ℕ) (text : τ) (w : Workspace τ δ) : Prop :=
  ∃ document, w.documents d = some document ∧
    (document.state = .changed ∨
      ∃ result, document.parseResult = some result ∧ result.cstText = text)

/-- Only a document that is waiting to be parsed has no parse result. -/
def Parsed (w : Workspace τ δ) : Prop :=
  ∀ d document, w.documents d = some document → document.parseResult = none →
    document.state = .changed

theorem UpToDate.of_eq {text : τ} (h : w.UpToDate d text) (heq : w'.documents d = w.documents d) :
    w'.UpToDate d text := by
  obtain ⟨document, hdocument, htext⟩ := h
  exact ⟨document, heq.trans hdocument, htext⟩

/-! ### Operations on one document -/

theorem parsed_mapDocument (h : w.Parsed) {f : Document τ δ → Document τ δ}
    (hf : ∀ document, w.documents d = some document → (f document).parseResult = none →
      (f document).state = .changed) : (w.mapDocument d f).Parsed := by
  intro d' document' hd' hnone
  by_cases hdd : d' = d
  · subst hdd
    simp only [mapDocument, Function.update_self] at hd'
    obtain ⟨document, hdocument, rfl⟩ := Option.map_eq_some_iff.mp hd'
    exact hf document hdocument hnone
  · simp only [mapDocument, Function.update_of_ne hdd] at hd'
    exact h d' document' hd' hnone

/-- A reset keeps what is up to date, and a reset to `Changed` makes it so. -/
theorem UpToDate.resetToState {text : τ} (state : DocumentState)
    (h : w.UpToDate d text ∨ (w.documents d).isSome ∧ state = .changed) :
    (w.resetToState d state).UpToDate d text := by
  have reset : ∀ document : Document τ δ, w.documents d = some document →
      (w.resetToState d state).documents d = some (document.resetTo state) := by
    intro document hdocument
    rw [resetToState_documents, Function.update_self, hdocument]
    rfl
  rcases h with ⟨document, hdocument, hs | htext⟩ | ⟨hsome, rfl⟩
  · refine ⟨_, reset document hdocument, .inl ?_⟩
    simp only [Document.resetTo, hs]
    split
    · rename_i hlt
      exact absurd hlt (Nat.not_lt_zero _)
    · rfl
  · exact ⟨_, reset document hdocument, .inr htext⟩
  · obtain ⟨document, hdocument⟩ := Option.isSome_iff_exists.mp hsome
    refine ⟨_, reset document hdocument, .inl ?_⟩
    simp only [Document.resetTo]
    cases document.state <;> rfl

theorem parsed_resetToState (h : w.Parsed) (state : DocumentState) :
    (w.resetToState d state).Parsed := by
  refine parsed_mapDocument h fun document hdocument hnone => ?_
  have hs := h d document hdocument hnone
  simp only [Document.resetTo, hs]
  split
  · rename_i hlt
    exact absurd hlt (Nat.not_lt_zero _)
  · rfl

theorem parsed_deleteDocument (h : w.Parsed) : (w.deleteDocument d).Parsed := by
  intro d' document hd' hnone
  simp only [deleteDocument, Function.update_apply] at hd'
  split at hd'
  · cases hd'
  · exact h d' document hd' hnone

theorem parsed_getOrCreateDocument (h : w.Parsed) : (w.getOrCreateDocument L d).Parsed := by
  simp only [getOrCreateDocument]
  split
  · exact h
  · split
    · intro d' document hd' hnone
      simp only [Function.update_apply] at hd'
      split at hd'
      · cases hd'
        cases hnone
      · exact h d' document hd' hnone
    · exact h

theorem isSome_getOrCreateDocument (hd : d < w.nextDocumentId) :
    ((w.getOrCreateDocument L d).documents d).isSome := by
  simp only [getOrCreateDocument]
  split
  · rename_i hdocument
    rw [hdocument]
    rfl
  · rw [if_pos hd]
    simp only [Function.update_self, Option.isSome_some]

theorem parsed_changeDocument (h : w.Parsed) : (w.changeDocument L d).Parsed := by
  simp only [changeDocument]
  split
  · exact parsed_resetToState (parsed_getOrCreateDocument h) _
  · exact parsed_getOrCreateDocument h

/-- **A changed document is recorded.** -/
theorem upToDate_changeDocument (hd : d < w.nextDocumentId) (text : τ) :
    (w.changeDocument L d).UpToDate d text := by
  have hsome := @isSome_getOrCreateDocument _ _ L w d hd
  simp only [changeDocument, if_pos hsome]
  exact .resetToState _ (.inr ⟨hsome, rfl⟩)

theorem UpToDate.relinkDocument {text : τ} (h : w.UpToDate d text) (changed : List ℕ) :
    (w.relinkDocument changed d).UpToDate d text := by
  simp only [Workspace.relinkDocument]
  split
  · exact .resetToState _ (.inl h)
  · exact h

theorem parsed_relinkDocument (h : w.Parsed) (changed : List ℕ) :
    (w.relinkDocument changed d).Parsed := by
  simp only [relinkDocument]
  split
  · exact parsed_resetToState h _
  · exact h

theorem parsed_run (h : w.Parsed) {task : Task} {document : Document τ δ}
    (hdocument : w.documents d = some document) (hentry : Phase.Entry task document.state) :
    (task.run L d w).Parsed := by
  intro d' document' hd' hnone
  rw [task.run_documents] at hd'
  refine @parsed_mapDocument _ _ w d h (task.onDocument L d w) (fun document₁ h₁ hnone => ?_)
    d' document' hd' hnone
  cases hdocument.symm.trans h₁
  cases hp : task.parses with
  | true =>
    cases task with
    | attach => rfl
    | parse => cases hnone
    | _ => cases hp
  | false =>
    rw [Task.parseResult_onDocument hp] at hnone
    have hs := hentry.parsed_le hp
    rw [h d document hdocument hnone] at hs
    exact absurd hs (by decide)

/-- A task keeps its document up to date, if the text it parses is the latest. -/
theorem UpToDate.run {text : τ} {task : Task} {document : Document τ δ}
    (hdocument : w.documents d = some document) (hentry : Phase.Entry task document.state)
    (hparse : task = .parse → document.textDocument = text)
    (h : w.UpToDate d text) : (task.run L d w).UpToDate d text := by
  refine ⟨task.onDocument L d w document, ?_, ?_⟩
  · rw [task.run_documents, Function.update_self, hdocument]
    rfl
  cases hp : task.parses with
  | true =>
    cases task with
    | attach => exact .inl rfl
    | parse => exact .inr ⟨_, rfl, hparse rfl⟩
    | _ => cases hp
  | false =>
    obtain ⟨document₁, h₁, hs | htext⟩ := h
    · cases hdocument.symm.trans h₁
      have hle := hentry.parsed_le hp
      rw [hs] at hle
      exact absurd hle (by decide)
    · cases hdocument.symm.trans h₁
      exact .inr (by rwa [Task.parseResult_onDocument hp])

end Workspace

/-! ### Calls -/

namespace Call

open Workspace

variable {call : Call} {call' : Option Call} {W : ℕ → τ → Prop}

/-- The changed ids a call has not recorded yet. -/
def unrecorded (call : Call) : List ℕ :=
  match call.stage with
  | .starting | .deleting _ => call.changed
  | .changing pending => pending
  | _ => []

/-- What a call may be about to lose: the text that is attached for the next parse. -/
def Attached (W : ℕ → τ → Prop) (w : Workspace τ δ) (call : Call) : Prop :=
  ∀ documents jobs, call.stage = .phase .content documents jobs →
    ∀ d rest, jobs d = .parse :: rest → ∀ document, w.documents d = some document →
      ∀ text, w.textDocuments d = some text → document.textDocument = text ∨ W d text

/-- The latest text of each open document is recorded, on its way (`W`), or to be recorded
by the call. -/
structure Tracks (W : ℕ → τ → Prop) (w : Workspace τ δ) (call : Option Call) : Prop where
  registered : ∀ d text, w.textDocuments d = some text → d < w.nextDocumentId
  parsed : w.Parsed
  recorded : ∀ d text, w.textDocuments d = some text →
    w.UpToDate d text ∨ W d text ∨ ∃ c, call = some c ∧ d ∈ c.unrecorded
  attached : ∀ c, call = some c → c.Attached W w

/-- A step on one document, which must not lose it. -/
theorem Tracks.dealt {c c' : Call} (h : Tracks W w (some c)) (same : w.SameElsewhere d w')
    (parsed : w'.Parsed) (stage : ∀ documents jobs, c'.stage ≠ .phase .content documents jobs)
    (pending : ∀ d' ∈ c.unrecorded, d' ≠ d → d' ∈ c'.unrecorded)
    (own : ∀ text, w.textDocuments d = some text →
      w.UpToDate d text ∨ W d text ∨ d ∈ c.unrecorded →
      w'.UpToDate d text ∨ W d text ∨ d ∈ c'.unrecorded) : Tracks W w' (some c') where
  registered d' text h' := by
    rw [same.textDocuments] at h'
    rw [same.nextDocumentId]
    exact h.registered d' text h'
  parsed := parsed
  recorded d' text h' := by
    rw [same.textDocuments] at h'
    have hold := h.recorded d' text h'
    simp only [Option.some.injEq, exists_eq_left'] at hold ⊢
    by_cases hd : d' = d
    · subst hd
      exact own text h' hold
    · rcases hold with hup | hW | hmem
      · exact .inl (hup.of_eq (same.documents d' hd))
      · exact .inr (.inl hW)
      · exact .inr (.inr (pending d' hmem hd))
  attached c'' hc documents jobs hphase := by
    cases hc
    exact absurd hphase (stage documents jobs)

/-- A step that leaves the documents alone. -/
theorem Tracks.sameDocuments {c : Call} {call' : Option Call} (h : Tracks W w (some c))
    (documents : w'.documents = w.documents) (texts : w'.textDocuments = w.textDocuments)
    (ids : w'.nextDocumentId = w.nextDocumentId)
    (pending : ∀ d ∈ c.unrecorded, ∃ c', call' = some c' ∧ d ∈ c'.unrecorded)
    (attached : ∀ c', call' = some c' → c'.Attached W w') : Tracks W w' call' where
  registered d text h' := by
    rw [texts] at h'
    rw [ids]
    exact h.registered d text h'
  parsed := by
    rw [Workspace.Parsed, documents]
    exact h.parsed
  recorded d text h' := by
    rw [texts] at h'
    rcases h.recorded d text h' with hup | hW | ⟨c', hc, hmem⟩
    · exact .inl (hup.of_eq (congrFun documents d))
    · exact .inr (.inl hW)
    · cases hc
      exact .inr (.inr (pending d hmem))
  attached := attached

theorem Attached.of_stage {c : Call}
    (stage : ∀ documents jobs, c.stage ≠ .phase .content documents jobs) : c.Attached W w :=
  fun documents jobs h => absurd h (stage documents jobs)

/-- At the beginning of a phase no text is attached. -/
theorem attached_buildDocuments (c : Call) (documents : List ℕ) :
    (c.buildDocuments documents w).Attached W w := by
  intro documents' jobs' h d rest hjobs document hdocument
  cases h
  simp only [Phase.jobs] at hjobs
  split at hjobs
  · simp only [Phase.tasks, hdocument] at hjobs
    cases hs : document.state <;> rw [hs] at hjobs <;> cases hjobs
  · cases hjobs

/-- A task of a phase. -/
theorem Tracks.task {c : Call} {phase : Phase} {documents : List ℕ} {jobs : ℕ → List Task}
    {task : Task} {rest : List Task} (h : Tracks W w (some c))
    (ready : Phase.Ready w phase documents jobs) (hstage : c.stage = .phase phase documents jobs)
    (hjobs : jobs d = task :: rest) :
    Tracks W (task.run L d w)
      (some { c with stage := .phase phase documents (Function.update jobs d rest) }) := by
  obtain ⟨-, document, hdocument, hentry⟩ := ready.entry hjobs
  have same : w.SameElsewhere d (task.run L d w) := task.run_sameElsewhere
  have hnot : c.unrecorded = [] := by
    simp only [unrecorded, hstage]
  -- a text that is parsed was attached in the content phase
  have hattached : ∀ text, w.textDocuments d = some text → task = .parse →
      document.textDocument = text ∨ W d text := by
    rintro text htext rfl
    have hcontent : phase = .content := by
      have hfits := (ready.entry hjobs).1
      have hfits := ready.fits d hfits document hdocument
      rw [hjobs] at hfits
      exact hfits.content_of_parse
    subst hcontent
    exact h.attached c rfl documents jobs hstage d rest hjobs document hdocument text htext
  refine ⟨fun d' text h' => ?_, parsed_run h.parsed hdocument hentry, fun d' text h' => ?_,
    fun c' hc documents' jobs' hphase d' rest' hjobs' document' hdocument' text h' => ?_⟩
  · rw [same.textDocuments] at h'
    rw [same.nextDocumentId]
    exact h.registered d' text h'
  · rw [same.textDocuments] at h'
    rcases h.recorded d' text h' with hup | hW | ⟨c', hc, hmem⟩
    · by_cases hd : d' = d
      · subst hd
        by_cases hparse : task = .parse
        · rcases hattached text h' hparse with htext | hW
          · exact .inl (hup.run hdocument hentry fun _ => htext)
          · exact .inr (.inl hW)
        · exact .inl (hup.run hdocument hentry fun e => absurd e hparse)
      · exact .inl (hup.of_eq (same.documents d' hd))
    · exact .inr (.inl hW)
    · cases hc
      rw [hnot] at hmem
      cases hmem
  · cases hc
    cases hphase
    rw [same.textDocuments] at h'
    by_cases hd : d' = d
    · subst hd
      rw [Function.update_self] at hjobs'
      subst hjobs'
      -- the text that is to be parsed has just been attached
      have hattach : task = .attach := by
        have hfits := ready.fits d' (ready.entry hjobs).1 document hdocument
        rw [hjobs] at hfits
        exact hfits.attach_of_parse
      subst hattach
      rw [Task.run_documents, Function.update_self, hdocument] at hdocument'
      cases hdocument'
      refine .inl ?_
      show (w.textDocuments d').getD (w.files d') = text
      rw [h']
      rfl
    · rw [Function.update_of_ne hd] at hjobs'
      rw [same.documents d' hd] at hdocument'
      exact h.attached c rfl documents jobs hstage d' rest' hjobs' document' hdocument' text h'

variable {call : Call} {call' : Option Call}

/-- **A step of a call loses no text**, if it does not delete an open document that no
other update is on its way for. -/
theorem Does.tracks (hdoes : Does L call w w' call') (h : Tracks W w (some call))
    (covers : call.Covers w)
    (deletes : ∀ d pending, call.stage = .deleting (d :: pending) →
      ∀ text, w.textDocuments d = some text → W d text) : Tracks W w' call' := by
  cases hdoes with
  | start hs =>
    refine h.sameDocuments rfl rfl rfl (fun d hd => ⟨_, rfl, ?_⟩) fun c' hc => ?_
    · simpa only [unrecorded, hs] using hd
    · cases hc
      exact .of_stage (by rintro _ _ ⟨⟩)
  | delete d pending hs =>
    refine h.dealt sameElsewhere_deleteDocument (parsed_deleteDocument h.parsed) (by rintro _ _ ⟨⟩)
      (fun d' hd' _ => ?_) fun text htext _ => .inr (.inl (deletes d pending hs text htext))
    simpa only [unrecorded, hs] using hd'
  | deleted hs =>
    refine h.sameDocuments rfl rfl rfl (fun d hd => ⟨_, rfl, ?_⟩) fun c' hc => ?_
    · simpa only [unrecorded, hs] using hd
    · cases hc
      exact .of_stage (by rintro _ _ ⟨⟩)
  | change d pending hs =>
    refine h.dealt sameElsewhere_changeDocument (parsed_changeDocument h.parsed) (by rintro _ _ ⟨⟩)
      (fun d' hd' hne => ?_) fun text htext _ =>
        .inl (upToDate_changeDocument (h.registered d text htext) text)
    simp only [unrecorded, hs] at hd' ⊢
    exact (List.mem_cons.mp hd').resolve_left hne
  | changed hs =>
    refine h.sameDocuments rfl rfl rfl (fun d hd => ?_) fun c' hc => ?_
    · simp only [unrecorded, hs] at hd
      cases hd
    · cases hc
      exact .of_stage (by rintro _ _ ⟨⟩)
  | relink d pending hs =>
    have hnot : call.unrecorded = [] := by simp only [unrecorded, hs]
    refine h.dealt (sameElsewhere_relinkDocument _) (parsed_relinkDocument h.parsed _)
      (by rintro _ _ ⟨⟩)
      (fun d' hd' _ => ?_) fun text htext hold => ?_
    · rw [hnot] at hd'
      cases hd'
    · rcases hold with hup | hW | hmem
      · exact .inl (hup.relinkDocument _)
      · exact .inr (.inl hW)
      · rw [hnot] at hmem
        cases hmem
  | relinked hs =>
    refine h.sameDocuments rfl rfl rfl (fun d hd => ?_) fun c' hc => ?_
    · simp only [unrecorded, hs] at hd
      cases hd
    · cases hc
      exact .of_stage (by rintro _ _ ⟨⟩)
  | select documents hs _ =>
    refine h.sameDocuments rfl rfl rfl (fun d hd => ?_) fun c' hc => ?_
    · simp only [unrecorded, hs] at hd
      cases hd
    · cases hc
      exact attached_buildDocuments call documents
  | task d task rest hs hjobs =>
    simp only [Covers, hs] at covers
    exact h.task covers.1 hs hjobs
  | @endPhase documents jobs phase hs hover =>
    have hnot : call.unrecorded = [] := by simp only [unrecorded, hs]
    cases phase with
    | content =>
      refine h.sameDocuments rfl rfl rfl (fun d hd => ?_) fun c' hc => ?_
      · rw [hnot] at hd
        cases hd
      · cases hc
        exact .of_stage (by rintro _ _ ⟨⟩)
    | references =>
      refine h.sameDocuments rfl rfl rfl (fun d hd => ?_) fun c' hc => ?_
      · rw [hnot] at hd
        cases hd
      · cases hc
        exact .of_stage (by rintro _ _ ⟨⟩)
    | validation =>
      refine h.sameDocuments rfl rfl rfl (fun d hd => ?_) fun c' hc => ?_
      · rw [hnot] at hd
        cases hd
      · cases hc

end Call

/-! ### Runs -/

/-- The update brings the document to this text: it is not skipped before that. -/
def DocumentUpdate.Carries (u : DocumentUpdate τ) (d : ℕ) (text : τ) : Prop :=
  d ∈ u.changed ∧ ∀ d' text', u.redundantWhenUnchanged = some (d', text') → d' = d ∧ text' = text

theorem DocumentUpdate.carries_ofContent (d : ℕ) (text : τ) : (ofContent d text).Carries d text :=
  ⟨List.mem_cons_self, fun _ _ h => by cases h; exact ⟨rfl, rfl⟩⟩

namespace HandlerState

open Workspace

variable {configuration : ℕ → Option BuildValidationOption}
  {s s' : HandlerState τ δ}

/-- The updates that have not begun: fired, running but not begun, or waiting. -/
def pending (s : HandlerState τ δ) : List (DocumentUpdate τ) :=
  s.dispatches ++
    (if s.call.isNone then s.lock.running.toList.map (·.action) else []) ++
    s.lock.writeQueue.map (·.action)

/-- An update that has not begun brings the document to this text. -/
def OnItsWay (s : HandlerState τ δ) (d : ℕ) (text : τ) : Prop :=
  ∃ u ∈ s.pending, u.Carries d text

/-- Every open document of the store is validated. -/
def OpenValidated (w : Workspace τ δ) : Prop :=
  ∀ d text, w.textDocuments d = some text → ∀ document, w.documents d = some document →
    document.state = .validated

/-- The invariant of runs. -/
structure Inv (s : HandlerState τ δ) : Prop where
  tracks : Call.Tracks s.OnItsWay s.workspace s.call
  full : s.workspace.Full
  call : ∀ call, s.call = some call → call.Covers s.workspace ∧ call.options.Full
  running : s.lock.running = none → s.call = none
  superseding : s.lock.Superseding
  settled : s.Drained → OpenValidated s.workspace

theorem full_effectiveOptions (enabled : ∀ d option, configuration d = some option →
    option.isEnabled = true) (u : DocumentUpdate τ) (w : Workspace τ δ) :
    (w.effectiveOptions configuration u).Full := by
  have hdefault : updateBuildOptions.Full := ⟨rfl, rfl⟩
  simp only [effectiveOptions]
  split
  · split
    · rename_i hconfiguration
      exact ⟨rfl, enabled _ _ hconfiguration⟩
    · exact hdefault
  · exact hdefault

/-! ### The steps of the handler -/

/-- More on its way is no less tracked. -/
theorem tracks_mono {W W' : ℕ → τ → Prop} {call : Option Call} (h : Call.Tracks W w call)
    (hW : ∀ d text, W d text → W' d text) : Call.Tracks W' w call where
  registered := h.registered
  parsed := h.parsed
  recorded d text h' := by
    rcases h.recorded d text h' with hup | hw | hc
    · exact .inl hup
    · exact .inr (.inl (hW d text hw))
    · exact .inr (.inr hc)
  attached c hc documents jobs hs d rest hj document hd text h' :=
    (h.attached c hc documents jobs hs d rest hj document hd text h').imp_right (hW d text)

theorem inv_changeContent (h : s.Inv) {text : τ} (hd : d < s.workspace.nextDocumentId) :
    ({ s with
      workspace := { s.workspace with
        textDocuments := update s.workspace.textDocuments d (some text) }
      dispatches := s.dispatches ++ [.ofContent d text] } : HandlerState τ δ).Inv := by
  have hmono : ∀ d' text', s.OnItsWay d' text' →
      HandlerState.OnItsWay ({ s with dispatches := s.dispatches ++ [.ofContent d text] } :
        HandlerState τ δ) d' text' := by
    rintro d' text' ⟨u, hu, hc⟩
    refine ⟨u, ?_, hc⟩
    simp only [pending, List.mem_append] at hu ⊢
    tauto
  have hnew : HandlerState.OnItsWay ({ s with dispatches := s.dispatches ++ [.ofContent d text] } :
      HandlerState τ δ) d text :=
    ⟨.ofContent d text, by simp [pending], DocumentUpdate.carries_ofContent d text⟩
  have htracks := tracks_mono h.tracks hmono
  refine ⟨⟨fun d' text' h' => ?_, htracks.parsed, fun d' text' h' => ?_,
    fun c hc documents jobs hs d' rest hj document hdocument text' h' => ?_⟩,
    ⟨h.full.options, h.full.registered⟩,
    fun c hc => ⟨(h.call c hc).1.congr rfl rfl, (h.call c hc).2⟩, h.running, h.superseding,
    fun hdrained => ?_⟩
  · simp only [Function.update_apply] at h'
    split at h'
    · rename_i hdd
      exact hdd ▸ hd
    · exact htracks.registered d' text' h'
  · simp only [Function.update_apply] at h'
    split at h'
    · rename_i hdd
      cases h'
      exact .inr (.inl (hdd ▸ hnew))
    · exact htracks.recorded d' text' h'
  · simp only [Function.update_apply] at h'
    split at h'
    · rename_i hdd
      cases h'
      exact .inr (hdd ▸ hnew)
    · exact htracks.attached c hc documents jobs hs d' rest hj document hdocument text' h'
  · exact absurd hdrained.1 (List.append_ne_nil_of_right_ne_nil _ (List.cons_ne_nil _ _))

/-- What comes from outside and does not touch the documents. -/
theorem inv_environment (h : s.Inv) (documents : w'.documents = s.workspace.documents)
    (texts : w'.textDocuments = s.workspace.textDocuments)
    (states : w'.buildStateByDocumentId = s.workspace.buildStateByDocumentId)
    (ids : s.workspace.nextDocumentId ≤ w'.nextDocumentId) :
    ({ s with workspace := w' } : HandlerState τ δ).Inv where
  tracks := by
    refine ⟨fun d text h' => ?_, ?_, fun d text h' => ?_,
      fun c hc ds jobs hs d rest hj document hdocument text h' => ?_⟩
    · exact Nat.lt_of_lt_of_le (h.tracks.registered d text (texts ▸ h')) ids
    · show w'.Parsed
      rw [Workspace.Parsed, documents]
      exact h.tracks.parsed
    · rcases h.tracks.recorded d text (texts ▸ h') with hup | hrest
      · exact .inl (hup.of_eq (congrFun documents d))
      · exact .inr hrest
    · exact h.tracks.attached c hc ds jobs hs d rest hj document (documents ▸ hdocument) text
        (texts ▸ h')
  full := h.full.mono (fun d state hstate => ⟨state, states ▸ hstate, rfl⟩)
    (fun d hd => documents ▸ hd) ids
  call c hc := ⟨(h.call c hc).1.congr documents states, (h.call c hc).2⟩
  running := h.running
  superseding := h.superseding
  settled hdrained d text h' document hdocument :=
    h.settled hdrained d text (texts ▸ h') document (documents ▸ hdocument)

theorem inv_fire (h : s.Inv) (u : DocumentUpdate τ) :
    ({ s with dispatches := s.dispatches ++ [u] } : HandlerState τ δ).Inv where
  tracks := tracks_mono h.tracks fun d text ⟨u', hu', hc⟩ => by
    refine ⟨u', ?_, hc⟩
    simp only [pending, List.mem_append] at hu' ⊢
    tauto
  full := h.full
  call := h.call
  running := h.running
  superseding := h.superseding
  settled hdrained :=
    absurd hdrained.1 (List.append_ne_nil_of_right_ne_nil _ (List.cons_ne_nil _ _))

/-- A fired update reaches the lock. -/
theorem inv_write (h : s.Inv) {i : ℕ} {u : DocumentUpdate τ} (hu : s.dispatches[i]? = some u) :
    ({ s with dispatches := s.dispatches.eraseIdx i, lock := s.lock.write u } :
      HandlerState τ δ).Inv where
  tracks := by
    refine tracks_mono h.tracks fun d text ⟨u', hu', hc⟩ => ⟨u', ?_, hc⟩
    simp only [pending, List.mem_append] at hu' ⊢
    rcases hu' with (hdispatch | hrunning) | hqueue
    · obtain ⟨j, hj⟩ := List.mem_iff_getElem?.mp hdispatch
      by_cases hij : j = i
      · subst hij
        cases hu.symm.trans hj
        exact .inr (by simp [WorkspaceLock.write])
      · exact .inl (.inl (List.mem_eraseIdx_iff_getElem?.mpr ⟨j, hij, hj⟩))
    · refine .inl (.inr ?_)
      split at hrunning
      · rename_i hcall
        rw [if_pos hcall]
        simp only [WorkspaceLock.write]
        split
        · cases hr : s.lock.running with
          | none =>
            rw [hr] at hrunning
            cases hrunning
          | some entry =>
            rw [hr] at hrunning
            exact hrunning
        · exact hrunning
      · cases hrunning
    · refine .inr ?_
      obtain ⟨entry, hentry, rfl⟩ := List.mem_map.mp hqueue
      obtain ⟨entry', hentry', heq⟩ := WorkspaceLock.mem_stopLast.mpr ⟨entry, hentry, rfl⟩
      exact List.mem_map.mpr ⟨entry', List.mem_append_left _ hentry', heq⟩
  full := h.full
  call := h.call
  running hr := by
    refine h.running ?_
    simp only [WorkspaceLock.write] at hr
    split at hr
    · exact Option.map_eq_none_iff.mp hr
    · exact hr
  superseding := WorkspaceLock.superseding_write u
  settled hdrained :=
    absurd hdrained.2.1 (List.append_ne_nil_of_right_ne_nil _ (List.cons_ne_nil _ _))

/-- The worker takes a write. -/
theorem inv_pop (h : s.Inv) {lock : WorkspaceLock (DocumentUpdate τ)}
    (hpop : s.lock.pop = some lock) :
    ({ s with lock := lock, call := none } : HandlerState τ δ).Inv := by
  have hsuperseding := h.superseding.pop hpop
  simp only [WorkspaceLock.pop] at hpop
  split at hpop
  · rename_i entry queue hrunning hqueue
    cases hpop
    have hcall := h.running hrunning
    refine ⟨?_, h.full, by rintro _ ⟨⟩, by rintro ⟨⟩, hsuperseding, ?_⟩
    · have htracks := h.tracks
      rw [hcall] at htracks
      refine tracks_mono htracks ?_
      rintro d text ⟨u, hu, hc⟩
      refine ⟨u, ?_, hc⟩
      simp only [pending, hrunning, hqueue, List.mem_append, Option.toList_none, List.map_nil,
        ite_self, List.not_mem_nil, or_false, List.map_cons, List.mem_cons] at hu
      simp only [pending, Option.isNone_none, if_true, List.mem_append, Option.toList_some,
        List.map_cons, List.map_nil, List.mem_singleton]
      tauto
    · rintro ⟨-, -, ⟨⟩⟩
  · cases hpop

/-- The running write returns, or is given up. -/
theorem inv_finish (full : w'.Full) (superseding : s.lock.Superseding)
    (tracks : Call.Tracks (s.finish w').OnItsWay w' none)
    (settled : s.dispatches = [] → s.lock.writeQueue = [] → OpenValidated w') :
    (s.finish w').Inv where
  tracks := tracks
  full := full
  call _ hcall := absurd hcall (Option.some_ne_none _).symm
  running _ := rfl
  superseding := superseding.finish
  settled hdrained := settled hdrained.1 hdrained.2.1

theorem pending_of_call {call : Call} (hcall : s.call = some call) :
    s.pending = s.dispatches ++ s.lock.writeQueue.map (·.action) := by
  simp only [pending, hcall, Option.isNone_some, Bool.false_eq_true, if_false, List.append_nil]

theorem pending_finish (w : Workspace τ δ) :
    (s.finish w).pending = s.dispatches ++ s.lock.writeQueue.map (·.action) := by
  simp only [pending, finish, WorkspaceLock.finish, Option.toList_none, List.map_nil, ite_self,
    List.append_nil]

/-- A step of the running call. -/
theorem inv_work (h : s.Inv) {call : Call} {call' : Option Call} (hcall : s.call = some call)
    (hdoes : Call.Does L call s.workspace w' call')
    (deletes : ∀ d pending, call.stage = .deleting (d :: pending) →
      ∀ text, s.workspace.textDocuments d = some text → s.OnItsWay d text) :
    (match call' with
      | some call' => ({ s with workspace := w', call := some call' } : HandlerState τ δ)
      | none => s.finish w').Inv := by
  obtain ⟨covers, options⟩ := h.call call hcall
  have htracks := h.tracks
  rw [hcall] at htracks
  have htracks' := hdoes.tracks htracks covers deletes
  obtain ⟨full, result⟩ := hdoes.result h.full options covers
  cases call' with
  | some call' =>
    refine ⟨tracks_mono htracks' fun d text ⟨u, hu, hc⟩ => ⟨u, ?_, hc⟩, full, fun c hc => ?_,
      fun hr => ?_, h.superseding, fun hdrained => ?_⟩
    · rw [pending_of_call hcall] at hu
      rwa [pending_of_call rfl]
    · cases hc
      exact ⟨result.1, result.2 ▸ options⟩
    · cases hcall.symm.trans (h.running hr)
    · cases hcall.symm.trans (h.running hdrained.2.2)
  | none =>
    refine inv_finish full h.superseding
      (tracks_mono htracks' fun d text ⟨u, hu, hc⟩ => ⟨u, ?_, hc⟩)
      fun _ _ d text _ document hdocument => result d document hdocument
    rw [pending_of_call hcall] at hu
    rwa [pending_finish]

/-- The document is validated, and was parsed with this text. -/
def BuiltFrom (d : ℕ) (text : τ) (w : Workspace τ δ) : Prop :=
  ∃ document result, w.documents d = some document ∧ document.parseResult = some result ∧
    result.cstText = text ∧ document.state = .validated

/-- A workspace in which every open document is built. -/
structure Settled (w : Workspace τ δ) : Prop where
  full : w.Full
  parsed : w.Parsed
  registered : ∀ d text, w.textDocuments d = some text → d < w.nextDocumentId
  built : ∀ d text, w.textDocuments d = some text → BuiltFrom d text w

theorem settled_empty (files : ℕ → τ) : Settled (Workspace.empty files : Workspace τ δ) :=
  ⟨⟨nofun, nofun⟩, nofun, nofun, nofun⟩

theorem inv_initial (h : Settled w) : (initial w).Inv where
  tracks := by
    refine ⟨h.registered, h.parsed, fun d text h' => .inl ?_,
      fun _ hcall => absurd hcall (Option.some_ne_none _).symm⟩
    obtain ⟨document, result, hdocument, hresult, htext, -⟩ := h.built d text h'
    exact ⟨document, hdocument, .inr ⟨result, hresult, htext⟩⟩
  full := h.full
  call _ hcall := absurd hcall (Option.some_ne_none _).symm
  running _ := rfl
  superseding := ⟨fun _ hlast => absurd hlast (Option.some_ne_none _).symm,
    fun _ _ hrunning => absurd hrunning (Option.some_ne_none _).symm⟩
  settled _ d text h' document hdocument := by
    obtain ⟨document', result, hdocument', -, -, hs⟩ := h.built d text h'
    cases hdocument.symm.trans hdocument'
    exact hs

/-- When all is done, what is recorded is built. -/
theorem Inv.builtFrom (h : s.Inv) (hd : s.Drained) {text : τ}
    (htext : s.workspace.textDocuments d = some text) : BuiltFrom d text s.workspace := by
  obtain ⟨hdispatches, hqueue, hrunning⟩ := hd
  have hcall := h.running hrunning
  rcases h.tracks.recorded d text htext with ⟨document, hdocument, hup⟩ | ⟨u, hu, -⟩ | ⟨c, hc, -⟩
  · have hs := h.settled ⟨hdispatches, hqueue, hrunning⟩ d text htext document hdocument
    rcases hup with hchanged | ⟨result, hresult, htext⟩
    · rw [hs] at hchanged
      cases hchanged
    · exact ⟨document, result, hdocument, hresult, htext, hs⟩
  · simp [pending, hdispatches, hqueue, hrunning] at hu
  · rw [hcall] at hc
    cases hc

variable [DecidableEq τ]

/-- When nothing is lost: a write is stopped only if it has recorded its open documents,
or another update is on its way for them; a document that is open is deleted only if
one is; and a write is skipped as the last one only if the open documents are
validated: it builds nothing, also not what a write that was stopped before has left. -/
def Meets (s : HandlerState τ δ) : HandlerEvent τ → Prop
  | .begin => ∀ entry, s.lock.running = some entry → redundant entry.action s.workspace = true →
    s.dispatches = [] → s.lock.writeQueue = [] → OpenValidated s.workspace
  | .stop => ∀ d text, s.workspace.textDocuments d = some text →
    s.workspace.UpToDate d text ∨ (s.finish s.workspace).OnItsWay d text
  | .work _ => ∀ call d pending, s.call = some call → call.stage = .deleting (d :: pending) →
    ∀ text, s.workspace.textDocuments d = some text → s.OnItsWay d text
  | _ => True

/-- What is redundant is up to date. -/
theorem upToDate_of_redundant (hw : s.workspace.Parsed) {u : DocumentUpdate τ} {text : τ}
    (h : redundant u s.workspace = true) (hu : u.Carries d text)
    (hsome : u.redundantWhenUnchanged.isSome) : s.workspace.UpToDate d text := by
  obtain ⟨⟨d', text'⟩, hu'⟩ := Option.isSome_iff_exists.mp hsome
  obtain ⟨rfl, rfl⟩ := hu.2 d' text' hu'
  simp only [redundant, hu', isRedundant] at h
  split at h
  · cases h
  · rename_i document hdocument
    refine ⟨document, hdocument, ?_⟩
    split at h
    · rename_i result hresult
      exact .inr ⟨result, hresult, of_decide_eq_true h⟩
    · rename_i hnone
      exact .inl (hw d' document hdocument hnone)

theorem isSome_of_redundant {u : DocumentUpdate τ} {w : Workspace τ δ}
    (h : redundant u w = true) : u.redundantWhenUnchanged.isSome := by
  simp only [redundant] at h
  split at h
  · rename_i hu
    rw [hu]
    rfl
  · cases h

/-- The running write begins. -/
theorem inv_begin (h : s.Inv) (enabled : ∀ d option, configuration d = some option →
      option.isEnabled = true) (hm : s.Meets .begin)
    (hstep : (machine L configuration).step s .begin = some s') : s'.Inv := by
  simp only [machine, step] at hstep
  split at hstep
  · rename_i entry hrunning hcall
    have htracks := h.tracks
    rw [hcall] at htracks
    have hpending : s.pending
      = s.dispatches ++ [entry.action] ++ s.lock.writeQueue.map (·.action) := by
      simp only [pending, hcall, hrunning, Option.isNone_none, if_true, Option.toList_some,
        List.map_cons, List.map_nil]
    -- what was on its way still is, or it is the update that begins
    have hway : ∀ d text, s.OnItsWay d text → entry.action.Carries d text ∨
        ∃ u ∈ s.dispatches ++ s.lock.writeQueue.map (·.action), u.Carries d text := by
      rintro d text ⟨u, hu, hc⟩
      simp only [hpending, List.mem_append, List.mem_singleton] at hu
      rcases hu with (hu | rfl) | hu
      · exact .inr ⟨u, List.mem_append_left _ hu, hc⟩
      · exact .inl hc
      · exact .inr ⟨u, List.mem_append_right _ hu, hc⟩
    split at hstep
    · rename_i hredundant
      cases hstep
      refine inv_finish h.full h.superseding ?_ (hm entry hrunning hredundant)
      refine ⟨htracks.registered, htracks.parsed, fun d text h' => ?_,
        fun _ hcall => absurd hcall (Option.some_ne_none _).symm⟩
      rcases htracks.recorded d text h' with hup | hW | ⟨c, hc, -⟩
      · exact .inl hup
      · rcases hway d text hW with hc | ⟨u, hu, hc⟩
        · exact .inl (upToDate_of_redundant htracks.parsed hredundant hc
            (isSome_of_redundant hredundant))
        · exact .inr (.inl ⟨u, by rwa [pending_finish], hc⟩)
      · cases hc
    · cases hstep
      refine ⟨⟨htracks.registered, htracks.parsed, fun d text h' => ?_, fun c hc => ?_⟩, h.full,
        fun c hc => ?_, fun hr => ?_, h.superseding, fun hdrained => ?_⟩
      · rcases htracks.recorded d text h' with hup | hW | ⟨c, hc, -⟩
        · exact .inl hup
        · rcases hway d text hW with hc | ⟨u, hu, hc⟩
          · refine .inr (.inr ⟨_, rfl, ?_⟩)
            refine List.mem_eraseDups.mpr (List.mem_filter.mpr ⟨hc.1, ?_⟩)
            exact decide_eq_true (entry.action.disjoint d hc.1)
          · exact .inr (.inl ⟨u, by rwa [pending_of_call rfl], hc⟩)
        · cases hc
      · cases hc
        exact .of_stage nofun
      · cases hc
        exact ⟨trivial, full_effectiveOptions enabled _ _⟩
      · cases hrunning.symm.trans hr
      · cases hrunning.symm.trans hdrained.2.2
  · cases hstep

/-- The running write stops. -/
theorem inv_stop (h : s.Inv) (hm : s.Meets .stop)
    (hstep : (machine L configuration).step s .stop = some s') : s'.Inv := by
  have hfinish : ∀ entry, s.lock.running = some entry → entry.stopRequested = true →
      (s.finish s.workspace).Inv := by
    intro entry hrunning hstop
    refine inv_finish h.full h.superseding ?_ fun _ hqueue => ?_
    · refine ⟨h.tracks.registered, h.tracks.parsed, fun d text h' => ?_,
        fun _ hcall => absurd hcall (Option.some_ne_none _).symm⟩
      rcases hm d text h' with hup | hW
      · exact .inl hup
      · exact .inr (.inl hW)
    · rw [h.superseding.running hqueue entry hrunning] at hstop
      cases hstop
  simp only [machine, step] at hstep
  split at hstep
  · rename_i entry hrunning _
    split at hstep
    · rename_i hstop
      cases hstep
      exact hfinish entry hrunning hstop
    · cases hstep
  · rename_i entry call hrunning _
    split at hstep
    · rename_i hstop
      cases hstep
      exact hfinish entry hrunning (Bool.and_eq_true_iff.mp hstop).1
    · cases hstep
  · cases hstep

/-- **A step that loses nothing keeps the invariant.** -/
theorem inv_step (enabled : ∀ d option, configuration d = some option → option.isEnabled = true)
    {event : HandlerEvent τ} (h : s.Inv) (hm : s.Meets event)
    (hstep : (machine L configuration).step s event = some s') : s'.Inv := by
  cases event with
  | getOrCreateDocumentId =>
    cases hstep
    exact inv_environment h rfl rfl rfl (Nat.le_succ _)
  | changeContent d text =>
    simp only [machine, step] at hstep
    split at hstep
    · rename_i hd
      cases hstep
      exact inv_changeContent h hd
    · cases hstep
  | writeFile d text =>
    cases hstep
    exact inv_environment h rfl rfl rfl (Nat.le_refl _)
  | changeWatchedFiles changed deleted =>
    simp only [machine, step] at hstep
    split at hstep
    · cases hstep
      exact inv_fire h _
    · cases hstep
  | write i =>
    obtain ⟨u, hu, rfl⟩ := Option.map_eq_some_iff.mp hstep
    exact inv_write h hu
  | pop =>
    obtain ⟨lock, hpop, rfl⟩ := Option.map_eq_some_iff.mp hstep
    exact inv_pop h hpop
  | begin => exact inv_begin h enabled hm hstep
  | work work =>
    simp only [machine, step] at hstep
    split at hstep
    · rename_i call hcall
      obtain ⟨⟨w', call'⟩, hwork, rfl⟩ := Option.map_eq_some_iff.mp hstep
      have hinv := inv_work h hcall (Call.does_of_step hwork) fun d pending hs =>
        hm call d pending hcall hs
      cases call' <;> exact hinv
    · cases hstep
  | stop => exact inv_stop h hm hstep

/-! ### A document that is opened during an update -/

namespace Sample

open Call (steps tasks)

/-- Two texts. -/
def short : Ast := ⟨1, [], []⟩

def long : Ast := ⟨2, [], []⟩

/-- A change of content that is alone on its way to the lock, and begins there. -/
def change (d : ℕ) (text : Ast) : List (HandlerEvent Ast) :=
  [.changeContent d text, .write 0, .pop, .begin]

/-- The rest of an update of a document, when the store has `n` documents then. -/
def build (d n : ℕ) : List Call.Work :=
  steps (n + 6) ++ tasks d 3 ++ steps 1 ++ tasks d 3 ++ steps 1 ++ tasks d 1 ++ steps 1

/-- A run of the handler without documents on disk that say anything. -/
def run (events : List (HandlerEvent Ast)) : Option (HandlerState Ast String) :=
  (machine Language.literal fun _ => none).run (initial (Workspace.empty fun _ => short)) events

/-- A document is opened when the update of another one has recorded that, and goes on with the
documents to relink; the new update stops it. -/
def openedMeanwhile : List (HandlerEvent Ast) :=
  [.getOrCreateDocumentId, .getOrCreateDocumentId] ++ change 0 long ++ (steps 4).map .work ++
    [.changeContent 1 short, .write 0, .stop, .pop, .begin] ++
    (steps 8 ++ tasks 0 3 ++ tasks 1 3 ++ steps 1 ++ tasks 0 3 ++ tasks 1 3 ++ steps 1 ++
      tasks 0 1 ++ tasks 1 1 ++ steps 1).map .work

/-- No write is skipped or deletes, and one that is stopped has recorded what is open, as far as
it is not changed by an update on its way. -/
def calm (s : HandlerState Ast String) : HandlerEvent Ast → Bool
  | .begin => s.lock.running.all fun entry => !redundant entry.action s.workspace
  | .stop => (List.range s.workspace.nextDocumentId).all fun d =>
    (s.workspace.textDocuments d).all fun text =>
      (s.workspace.documents d).any (fun document => document.state = .changed) ||
        (s.finish s.workspace).pending.any fun u =>
          decide (d ∈ u.changed) && u.redundantWhenUnchanged.all fun r => r = (d, text)
  | .work _ => s.call.all fun call =>
    match call.stage with
    | .deleting (_ :: _) => false
    | _ => true
  | _ => true

theorem meets_of_calm {s : HandlerState Ast String} {event : HandlerEvent Ast}
    (registered : ∀ d text, s.workspace.textDocuments d = some text →
      d < s.workspace.nextDocumentId) (h : calm s event = true) : s.Meets event := by
  cases event with
  | begin =>
    intro entry hrunning hredundant
    simp only [calm, hrunning, Option.all_some, hredundant] at h
    cases h
  | stop =>
    intro d text htext
    have hd := List.all_eq_true.mp h d (List.mem_range.mpr (registered d text htext))
    simp only [htext, Option.all_some, Bool.or_eq_true] at hd
    rcases hd with hchanged | hpending
    · obtain ⟨document, hdocument, hstate⟩ := (Option.any_eq_true _ _).mp hchanged
      exact .inl ⟨document, hdocument, .inl (of_decide_eq_true hstate)⟩
    · obtain ⟨u, hu, hcarries⟩ := List.any_eq_true.mp hpending
      obtain ⟨hmem, hsame⟩ := Bool.and_eq_true_iff.mp hcarries
      refine .inr ⟨u, hu, of_decide_eq_true hmem, fun d' text' hu' => ?_⟩
      simp only [hu', Option.all_some] at hsame
      exact Prod.ext_iff.mp (of_decide_eq_true hsame)
  | work work =>
    intro call d pending hcall hstage
    simp only [calm, hcall, Option.all_some, hstage] at h
    cases h
  | _ => trivial

end Sample

/-- **No update is lost**: once the writes are done, every open document is validated and
was parsed with its latest text.  So in every run that meets the conditions, with the
changes, the tasks and the cancellations in any order. -/
theorem no_lost_update (enabled : ∀ d option, configuration d = some option →
      option.isEnabled = true) (hw : Settled w)
    (h : (machine L configuration).Reaches Meets (initial w) s) (hd : s.Drained) :
    ∀ d text, s.workspace.textDocuments d = some text → BuiltFrom d text s.workspace :=
  fun _ _ htext => (Machine.Reaches.invariant h (inv_initial hw)
    fun _ _ _ hs hm hstep => inv_step enabled hs hm hstep).builtFrom hd htext

open Sample in
/-- The update of one document is stopped by that of another, which builds both. -/
theorem no_lost_update_stopped :
    ∃ s : HandlerState Ast String, run openedMeanwhile = some s ∧ s.Drained ∧
      s.workspace.textDocuments 0 = some long ∧ s.workspace.textDocuments 1 = some short ∧
      ∀ d text, s.workspace.textDocuments d = some text → BuiltFrom d text s.workspace := by
  have hrun : (run openedMeanwhile).isSome = true := by decide +kernel
  obtain ⟨s, hs⟩ := Option.isSome_iff_exists.mp hrun
  have hdrained : (run openedMeanwhile).map (fun s => s.dispatches.isEmpty &&
      s.lock.writeQueue.isEmpty && s.lock.running.isNone) = some true := by decide +kernel
  have htexts : (run openedMeanwhile).map (fun s => (s.workspace.textDocuments 0,
      s.workspace.textDocuments 1)) = some (some long, some short) := by decide +kernel
  rw [hs] at hdrained htexts
  have hd : s.Drained := drained_iff.mpr (Option.some.inj hdrained)
  obtain ⟨hlong, hshort⟩ := Prod.ext_iff.mp (Option.some.inj htexts)
  have enabled : ∀ (d : ℕ) (option : BuildValidationOption),
      (fun _ : ℕ => (none : Option BuildValidationOption)) d = some option →
        option.isEnabled = true := nofun
  -- that the ids of open documents exist is a part of the invariant
  have hallowed : (machine Language.literal fun _ => none).AllowedRun Meets
      (initial (Workspace.empty fun _ => short)) openedMeanwhile :=
    Machine.allowedRun_of_tested (inv_initial (settled_empty _))
      (fun s event inv hcalm => meets_of_calm inv.tracks.registered hcalm)
      (fun s event s' inv hcalm hstep =>
        inv_step enabled inv (meets_of_calm inv.tracks.registered hcalm) hstep)
      (by decide +kernel)
  exact ⟨s, hs, hd, hlong, hshort,
    no_lost_update enabled (settled_empty _) (Machine.reaches_of_run hs hallowed) hd⟩

/-! ### Two documents that are changed at once -/

namespace Sample

/-- Both documents are open and built; both are changed before the lock runs the first of
the two writes, which the second one cancels. -/
def changedAtOnce : List (HandlerEvent Ast) :=
  [.getOrCreateDocumentId, .getOrCreateDocumentId] ++
    change 0 short ++ (build 0 1).map .work ++ change 1 short ++ (build 1 2).map .work ++
  [.changeContent 0 long, .changeContent 1 long, .write 0, .write 0, .pop, .begin, .stop,
    .pop, .begin] ++ (build 1 2).map .work

end Sample

open Sample in
/-- A change of content is lost when a change of another document cancels its write. -/
theorem lost_update_changed_at_once :
    ¬ ∀ (events : List (HandlerEvent Ast)) (s : HandlerState Ast String) (d : ℕ) (text : Ast),
      run events = some s → s.Drained → s.workspace.textDocuments d = some text →
        BuiltFrom d text s.workspace := by
  intro h
  have hrun : (run changedAtOnce).isSome = true := by decide +kernel
  obtain ⟨s, hs⟩ := Option.isSome_iff_exists.mp hrun
  have hdrained : (run changedAtOnce).map (fun s => s.dispatches.isEmpty &&
      s.lock.writeQueue.isEmpty && s.lock.running.isNone) = some true := by decide +kernel
  have htext : (run changedAtOnce).map (fun s => s.workspace.textDocuments 0)
      = some (some long) := by decide +kernel
  have hparsed : (run changedAtOnce).map (fun s => ((s.workspace.documents 0).bind
      (·.parseResult)).map (·.cstText)) = some (some short) := by decide +kernel
  rw [hs] at hdrained htext hparsed
  have hd : s.Drained := drained_iff.mpr (Option.some.inj hdrained)
  obtain ⟨document, result, hdocument, hresult, hlong, -⟩ :=
    h changedAtOnce s 0 long hs hd (Option.some.inj htext)
  simp only [Option.map_some, hdocument, Option.bind_some, hresult, hlong] at hparsed
  exact absurd hparsed (by decide)

end HandlerState

end Pegium
