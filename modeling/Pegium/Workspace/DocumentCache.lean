/-
Pegium/Workspace/DocumentCache.lean

Values that are computed from a document and kept while it stays as it is.

A cache keeps its values by document; it listens to the builder, and drops those
of the documents that an update names.  The builder calls its listeners once an
update has reset its documents, and an update can be stopped before.  So the
cache may keep values of a document that is to be parsed again, and nothing
drops them when another update parses it: each update has to name the documents
that wait for a parse and have values (`BuilderCacheState.Meets`).  With that, no
value is older than its document once an update is done.
-/
import Pegium.Workspace.DefaultDocuments
import Pegium.Workspace.Phases

namespace Pegium

open Function (update)

variable {τ δ K V : Type} {L : Language τ δ}

/-! ### The cache -/

/-- The text and the AST of a document; each parse builds an AST of its own. -/
def Document.content (document : Document τ δ) : τ × Option ℕ :=
  (document.textDocument, document.parseResult.map (·.generation))

/-- What a provider finds of a document. -/
def Workspace.content (w : Workspace τ δ) (d : ℕ) : Option (τ × Option ℕ) :=
  (w.documents d).map Document.content

/-- A value, and the content that it was computed from. -/
structure CachedValue (τ V : Type) where
  value : V
  source : Option (τ × Option ℕ)

/-- The values of each document, by key. -/
structure DocumentCache (τ K V : Type) where
  values : ℕ → K → Option (CachedValue τ V)

namespace DocumentCache

/-- Nothing is cached. -/
def empty : DocumentCache τ K V := ⟨fun _ _ => none⟩

/-- `clear` of a document. -/
def clear (cache : DocumentCache τ K V) (d : ℕ) : DocumentCache τ K V :=
  if d = invalidDocumentId then cache else ⟨update cache.values d fun _ => none⟩

/-- The listener: each document that is named is cleared. -/
def onUpdate (ids : List ℕ) (cache : DocumentCache τ K V) : DocumentCache τ K V :=
  ids.foldl clear cache

variable [DecidableEq K]

/-- `get` with a provider: a value that is there is returned, and another one is computed
and stored. -/
def get (cache : DocumentCache τ K V) (w : Workspace τ δ) (d : ℕ) (key : K)
    (provider : Workspace τ δ → V) : DocumentCache τ K V × CachedValue τ V :=
  let value := ⟨provider w, w.content d⟩
  if d = invalidDocumentId then (cache, value)
  else
    match cache.values d key with
    | some value => (cache, value)
    | none => (⟨update cache.values d (update (cache.values d) key (some value))⟩, value)

end DocumentCache

/-! ### The builder and a cache -/

/-- The ids that the update listeners are told of. -/
def BuilderState.emitUpdate (s : BuilderState τ δ) : BuilderEvent τ → List ℕ
  | .work .next =>
    match s.call with
    | some call =>
      match call.stage with
      | .relinking [] => call.changed ++ call.deleted
      | _ => []
    | none => []
  | .build documents _ => documents
  | _ => []

/-- The builder with a cache that listens to it. -/
structure BuilderCacheState (τ δ K V : Type) where
  builder : BuilderState τ δ
  cache : DocumentCache τ K V

/-- What happens to the builder, and a value that is asked for between calls. -/
inductive CacheEvent (τ δ K V : Type) where
  | builder (event : BuilderEvent τ)
  | get (documentId : ℕ) (key : K) (provider : Workspace τ δ → V)

namespace BuilderCacheState

variable [DecidableEq K]

/-- The builder's steps, and reads of the cache between builds. -/
def step (L : Language τ δ) (s : BuilderCacheState τ δ K V) :
    CacheEvent τ δ K V → Option (BuilderCacheState τ δ K V)
  | .builder event =>
    (s.builder.step L event).map fun b => ⟨b, s.cache.onUpdate (s.builder.emitUpdate event)⟩
  | .get d key provider =>
    match s.builder.call with
    | none => some { s with cache := (s.cache.get s.builder.workspace d key provider).1 }
    | some _ => none

/-- The document builder of a language, with a cache that listens to it. -/
def machine (L : Language τ δ) : Machine (BuilderCacheState τ δ K V) (CacheEvent τ δ K V) :=
  ⟨step L⟩

/-- A builder with nothing to do, and nothing in the cache. -/
def initial (w : Workspace τ δ) : BuilderCacheState τ δ K V := ⟨⟨w, none⟩, .empty⟩

/-! ### Runs of updates -/

/-- The events of a run of updates: no build is asked for, and no document is created
apart from them. -/
def OfUpdates : CacheEvent τ δ K V → Prop
  | .builder (.getOrCreateDocument _) | .builder (.build _ _) => False
  | _ => True

instance : DecidablePred (OfUpdates : CacheEvent τ δ K V → Prop) := fun event => by
  unfold OfUpdates
  split <;> infer_instance

/-- The values of a document that waits for a parse are dropped by the update that is about
to parse it. -/
def Meets (s : BuilderCacheState τ δ K V) (event : CacheEvent τ δ K V) : Prop :=
  OfUpdates event ∧
  ∀ call, event = .builder (.work .next) → s.builder.call = some call →
    call.stage = .relinking [] → ∀ d document key value,
      s.builder.workspace.documents d = some document → document.state < .parsed →
      s.cache.values d key = some value → d ∈ call.allChanged

/-- Whatever is asked for of a document is from its content now. -/
def Fresh (s : BuilderCacheState τ δ K V) : Prop :=
  ∀ d key provider, (s.builder.workspace.documents d).isSome →
    (s.cache.get s.builder.workspace d key provider).2.source = s.builder.workspace.content d

/-- An event that leaves the builder without a call. -/
def Idle (_ : BuilderCacheState τ δ K V) (event : CacheEvent τ δ K V) : Prop :=
  OfUpdates event ∧ ∀ changed deleted options, event ≠ .builder (.update changed deleted options)

/-- The last update is done, and no other has begun. -/
def UpdateDone (L : Language τ δ) (s s' : BuilderCacheState τ δ K V) : Prop :=
  ∃ work s₁, s.builder.call.isSome ∧ (machine L).step s (.builder (.work work)) = some s₁ ∧
    s₁.builder.call = none ∧ (machine L).Reaches Idle s₁ s'

end BuilderCacheState

/-! ### What the cache drops -/

namespace DocumentCache

variable {cache : DocumentCache τ K V} {d : ℕ} {key : K} {value : CachedValue τ V}

theorem values_of_clear {d' : ℕ} (h : (cache.clear d').values d key = some value) :
    cache.values d key = some value ∧ (d = d' → d = invalidDocumentId) := by
  rw [clear] at h
  split at h
  · rename_i hinvalid
    exact ⟨h, fun he => he.trans hinvalid⟩
  · by_cases hd : d = d'
    · subst hd
      simp only [Function.update_self] at h
      cases h
    · simp only [Function.update_of_ne hd] at h
      exact ⟨h, fun he => absurd he hd⟩

/-- What is left after an update was there before, of a document that it does not name. -/
theorem values_of_onUpdate {ids : List ℕ} (h : (cache.onUpdate ids).values d key = some value) :
    cache.values d key = some value ∧ (d ∈ ids → d = invalidDocumentId) := by
  induction ids generalizing cache with
  | nil => exact ⟨h, nofun⟩
  | cons d' ids ih =>
    obtain ⟨hcleared, hids⟩ := ih h
    obtain ⟨hvalue, hd'⟩ := values_of_clear hcleared
    refine ⟨hvalue, fun hd => ?_⟩
    rcases List.mem_cons.mp hd with he | hd
    · exact hd' he
    · exact hids hd

variable [DecidableEq K] {w : Workspace τ δ} {provider : Workspace τ δ → V}

/-- A value that is there after a `get` was there before, or is the one returned. -/
theorem values_of_get {d' : ℕ} {key' : K}
    (h : (cache.get w d' key' provider).1.values d key = some value) :
    cache.values d key = some value ∨
      d = d' ∧ d ≠ invalidDocumentId ∧ value.source = w.content d := by
  rw [get] at h
  split at h
  · exact .inl h
  · rename_i hvalid
    split at h
    · exact .inl h
    · by_cases hd : d = d'
      · subst hd
        simp only [Function.update_self, Function.update_apply] at h
        split at h
        · cases h
          exact .inr ⟨rfl, hvalid, rfl⟩
        · exact .inl h
      · simp only [Function.update_of_ne hd] at h
        exact .inl h

/-- What a `get` returns is from the cache, or from the content now. -/
theorem source_get :
    (∃ value, cache.values d key = some value ∧ (cache.get w d key provider).2 = value) ∨
      (cache.get w d key provider).2.source = w.content d := by
  rw [get]
  split
  · exact .inr rfl
  · split
    · rename_i value hvalue
      exact .inl ⟨value, hvalue, rfl⟩
    · exact .inr rfl

end DocumentCache

/-! ### The content of a document -/

/-- No document gets another content or state. -/
def Workspace.KeepsContent (w w' : Workspace τ δ) : Prop :=
  ∀ d document', w'.documents d = some document' → ∃ document, w.documents d = some document ∧
    document'.content = document.content ∧ document'.state = document.state

theorem Document.content_resetTo (state : DocumentState) (document : Document τ δ) :
    (document.resetTo state).content = document.content := rfl

theorem Document.resetTo_changed_state (document : Document τ δ) :
    (document.resetTo .changed).state = .changed := by
  show (if DocumentState.changed < document.state then .changed else document.state) = _
  cases document.state <;> rfl

namespace Task

variable {w : Workspace τ δ} {d : ℕ} {document : Document τ δ}

theorem textDocument_onDocument {task : Task} (h : task.parses = false) :
    (task.onDocument L d w document).textDocument = document.textDocument := by
  cases task with
  | attach | parse => cases h
  | resolve i =>
    show (w.resolveLink L d i document).textDocument = _
    rw [Workspace.resolveLink]
    split <;> rfl
  | _ => rfl

/-- **A task that does not parse keeps the content of its document.** -/
theorem content_onDocument {task : Task} (h : task.parses = false) :
    (task.onDocument L d w document).content = document.content := by
  rw [Document.content, textDocument_onDocument h, parseResult_onDocument h]
  rfl

/-- What is parsed stays so. -/
theorem parsed_le_onDocument {task : Task} (h : task.parses = false)
    (hle : .parsed ≤ document.state) : .parsed ≤ (task.onDocument L d w document).state := by
  cases task with
  | attach | parse => cases h
  | resolve i =>
    show .parsed ≤ (w.resolveLink L d i document).state
    rwa [Workspace.resolveLink_state]
  | _ =>
    simp only [onDocument]
    decide

end Task

theorem Workspace.keepsContent_resolve {w : Workspace τ δ} (d i : ℕ) :
    w.KeepsContent (w.resolve L d i) := by
  intro d' document' hd'
  change ((Task.resolve i).run L d w).documents d' = some document' at hd'
  by_cases hne : d' = d
  · subst hne
    rw [Task.run_documents, Function.update_self] at hd'
    obtain ⟨document, hdocument, rfl⟩ := Option.map_eq_some_iff.mp hd'
    exact ⟨document, hdocument, Task.content_onDocument rfl, resolveLink_state i document⟩
  · rw [Task.run_documents_ne _ hne] at hd'
    exact ⟨document', hd', rfl, rfl⟩

/-! ### The invariant -/

namespace DocumentCache

/-- A value is from the content of its document, or the document waits for a parse. -/
def Pending (cache : DocumentCache τ K V) (w : Workspace τ δ) : Prop :=
  ∀ d document key value, w.documents d = some document → cache.values d key = some value →
    document.state < .parsed ∨ value.source = some document.content

/-- A value is from the content of its document, which does not wait for a parse. -/
def Current (cache : DocumentCache τ K V) (w : Workspace τ δ) : Prop :=
  ∀ d document key value, w.documents d = some document → cache.values d key = some value →
    .parsed ≤ document.state ∧ value.source = some document.content

/-- A value is from the content of its document. -/
def Sourced (cache : DocumentCache τ K V) (w : Workspace τ δ) : Prop :=
  ∀ d document key value, w.documents d = some document → cache.values d key = some value →
    value.source = some document.content

variable {cache : DocumentCache τ K V} {w w' : Workspace τ δ} {d : ℕ}

theorem Current.sourced (h : cache.Current w) : cache.Sourced w :=
  fun d document key value hd hv => (h d document key value hd hv).2

theorem Sourced.keeps (h : cache.Sourced w) (keeps : w.KeepsContent w') : cache.Sourced w' := by
  intro d document' key value hd' hv
  obtain ⟨document, hd, hcontent, -⟩ := keeps d document' hd'
  rw [hcontent]
  exact h d document key value hd hv

theorem Pending.keeps (h : cache.Pending w) (keeps : w.KeepsContent w') : cache.Pending w' := by
  intro d document' key value hd' hv
  obtain ⟨document, hd, hcontent, hstate⟩ := keeps d document' hd'
  rw [hcontent, hstate]
  exact h d document key value hd hv

theorem Current.pending (h : cache.Current w) : cache.Pending w :=
  fun d document key value hd hv => .inr (h d document key value hd hv).2

theorem Pending.congr (h : cache.Pending w) (hdocuments : w'.documents = w.documents) :
    cache.Pending w' := by
  intro d document key value hd
  rw [hdocuments] at hd
  exact h d document key value hd

theorem Current.congr (h : cache.Current w) (hdocuments : w'.documents = w.documents) :
    cache.Current w' := by
  intro d document key value hd
  rw [hdocuments] at hd
  exact h d document key value hd

/-- One document changes: it waits for a parse then, or keeps its content. -/
theorem Pending.of_sameElsewhere (h : cache.Pending w) (same : w.SameElsewhere d w')
    (here : ∀ document', w'.documents d = some document' → document'.state < .parsed ∨
      ∃ document, w.documents d = some document ∧ document'.content = document.content ∧
        document'.state ≤ document.state) : cache.Pending w' := by
  intro d' document' key value hd' hv
  by_cases hne : d' = d
  · subst hne
    rcases here document' hd' with hchanged | ⟨document, hd, hcontent, hle⟩
    · exact .inl hchanged
    · rw [hcontent]
      exact (h d' document key value hd hv).imp_left fun hlt => Nat.lt_of_le_of_lt hle hlt
  · rw [same.documents d' hne] at hd'
    exact h d' document' key value hd' hv

theorem Pending.deleteDocument (h : cache.Pending w) : cache.Pending (w.deleteDocument d) := by
  refine h.of_sameElsewhere Workspace.sameElsewhere_deleteDocument fun document' hd => ?_
  simp only [Workspace.deleteDocument, Function.update_self] at hd
  cases hd

theorem Pending.changeDocument (h : cache.Pending w) : cache.Pending (w.changeDocument L d) := by
  refine h.of_sameElsewhere Workspace.sameElsewhere_changeDocument fun document' hd => .inl ?_
  simp only [Workspace.changeDocument] at hd
  split at hd
  · rw [Workspace.resetToState_documents, Function.update_self] at hd
    obtain ⟨document, -, rfl⟩ := Option.map_eq_some_iff.mp hd
    rw [Document.resetTo_changed_state]
    decide
  · rename_i hnone
    rw [hd] at hnone
    exact absurd rfl hnone

theorem Pending.relinkDocument (h : cache.Pending w) (changed : List ℕ) :
    cache.Pending (w.relinkDocument changed d) := by
  refine h.of_sameElsewhere (Workspace.sameElsewhere_relinkDocument changed)
    fun document' hd => .inr ?_
  simp only [Workspace.relinkDocument] at hd
  split at hd
  · rw [Workspace.resetToState_documents, Function.update_self] at hd
    obtain ⟨document, hdocument, rfl⟩ := Option.map_eq_some_iff.mp hd
    exact ⟨document, hdocument, document.content_resetTo _, document.resetTo_state_le _⟩
  · exact ⟨document', hd, rfl, DocumentState.le_refl _⟩

/-- **The listener leaves values of documents that need no parse**, when the update names
the others. -/
theorem Pending.onUpdate (h : cache.Pending w)
    (valid : ∀ key, cache.values invalidDocumentId key = none) {ids : List ℕ}
    (named : ∀ d document key value, w.documents d = some document →
      document.state < .parsed → cache.values d key = some value → d ∈ ids) :
    (cache.onUpdate ids).Current w := by
  intro d document key value hd hv
  obtain ⟨hvalue, hids⟩ := values_of_onUpdate hv
  have hparsed : .parsed ≤ document.state := by
    refine DocumentState.not_lt.mp fun hlt => ?_
    have hinvalid := hids (named d document key value hd hlt hvalue)
    rw [hinvalid, valid key] at hvalue
    cases hvalue
  refine ⟨hparsed, (h d document key value hd hvalue).resolve_left ?_⟩
  exact DocumentState.not_lt.mpr hparsed

/-- **A task parses no document that has values.** -/
theorem Current.run (h : cache.Current w) {phase : Phase} {documents : List ℕ}
    {jobs : ℕ → List Task} (ready : Phase.Ready w phase documents jobs) {task : Task}
    {rest : List Task} (hjobs : jobs d = task :: rest) : cache.Current (task.run L d w) := by
  intro d' document' key value hd' hv
  by_cases hne : d' = d
  · subst hne
    obtain ⟨-, document, hdocument, hentry⟩ := ready.entry hjobs
    obtain ⟨hparsed, hsource⟩ := h d' document key value hdocument hv
    have hkeeps : task.parses = false := by
      cases task with
      | attach | parse => exact absurd (hentry ▸ hparsed) (by decide)
      | _ => rfl
    rw [task.run_document hdocument] at hd'
    cases hd'
    refine ⟨Task.parsed_le_onDocument hkeeps hparsed, ?_⟩
    rw [Task.content_onDocument hkeeps, hsource]
  · rw [task.run_documents_ne hne] at hd'
    exact h d' document' key value hd' hv

/-- Between updates and before the listener a document that waits for a parse may have values;
after it, none has. -/
def Holds (cache : DocumentCache τ K V) (w : Workspace τ δ) : Option Call → Prop
  | none => cache.Pending w
  | some call =>
    match call.stage with
    | .selecting => cache.Current w
    | .phase phase documents jobs => Phase.Ready w phase documents jobs ∧ cache.Current w
    | _ => cache.Pending w

theorem Holds.pending {call : Option Call} (h : cache.Holds w call) : cache.Pending w := by
  cases call with
  | none => exact h
  | some call =>
    rw [Holds] at h
    split at h
    · exact h.pending
    · exact h.2.pending
    · exact h

theorem Holds.congr {call : Option Call} (h : cache.Holds w call)
    (hdocuments : w'.documents = w.documents)
    (states : w'.buildStateByDocumentId = w.buildStateByDocumentId) : cache.Holds w' call := by
  cases call with
  | none => exact Pending.congr h hdocuments
  | some call =>
    rw [Holds] at h ⊢
    split at h
    · exact h.congr hdocuments
    · exact ⟨h.1.congr hdocuments states, h.2.congr hdocuments⟩
    · exact Pending.congr h hdocuments

/-- **A step of a call that does not tell the listeners.** -/
theorem Holds.does {call : Call} {call' : Option Call} (h : cache.Holds w (some call))
    (hdoes : Call.Does L call w w' call') (hstage : call.stage ≠ .relinking []) :
    cache.Holds w' call' := by
  have hpending : cache.Pending w := h.pending
  rw [Holds] at h
  cases hdoes with
  | start hs => exact hpending
  | delete d pending hs => exact hpending.deleteDocument
  | deleted hs => exact hpending
  | change d pending hs => exact hpending.changeDocument
  | changed hs => exact hpending
  | relink d pending hs => exact hpending.relinkDocument _
  | relinked hs => exact absurd hs hstage
  | select documents hs hdocuments =>
    rw [hs] at h
    refine ⟨.content fun d hd => ?_, Current.congr h rfl⟩
    rw [hdocuments] at hd
    exact (List.mem_filter.mp (List.mem_filter.mp hd).1).2
  | task d task rest hs hjobs =>
    rw [hs] at h
    exact ⟨h.1.run hjobs, h.2.run h.1 hjobs⟩
  | endPhase phase hs hover =>
    rw [hs] at h
    cases phase with
    | content => exact ⟨h.1.references hover, h.2⟩
    | references =>
      exact ⟨h.1.validation hover _ fun d hd => (List.mem_filter.mp hd).1, Current.congr h.2 rfl⟩
    | validation => exact h.2.pending

/-- **A call returns from its last phase.** -/
theorem Holds.current_of_return {call : Call} (h : cache.Holds w (some call))
    (hdoes : Call.Does L call w w' none) : call.stage ≠ .relinking [] ∧ cache.Current w' := by
  generalize hnone : (none : Option Call) = call' at hdoes
  cases hdoes with
  | endPhase phase hs hover =>
    cases phase with
    | validation =>
      rw [Holds, hs] at h
      exact ⟨by rw [hs]; nofun, h.2⟩
    | _ => cases hnone
  | _ => cases hnone

end DocumentCache

namespace BuilderCacheState

open DocumentCache (Pending Current)

variable {s s' : BuilderCacheState τ δ K V}

/-- What holds of the builder and its cache along a run. -/
structure Inv (s : BuilderCacheState τ δ K V) : Prop where
  valid : ∀ key, s.cache.values invalidDocumentId key = none
  holds : s.cache.Holds s.builder.workspace s.builder.call

theorem inv_initial (w : Workspace τ δ) : (initial w : BuilderCacheState τ δ K V).Inv :=
  ⟨fun _ => rfl, fun _ _ _ _ _ h => nomatch h⟩

theorem emitUpdate_of_stage {w : Workspace τ δ} {call : Call} (work : Call.Work)
    (h : call.stage ≠ .relinking []) :
    (⟨w, some call⟩ : BuilderState τ δ).emitUpdate (.work work) = [] := by
  cases work with
  | task d => rfl
  | next =>
    simp only [BuilderState.emitUpdate]

/-- **A step of a call.** -/
theorem Inv.work {w : Workspace τ δ} {call : Call} {cache : DocumentCache τ K V}
    (h : (⟨⟨w, some call⟩, cache⟩ : BuilderCacheState τ δ K V).Inv) {work : Call.Work}
    (hm : Meets ⟨⟨w, some call⟩, cache⟩ (.builder (.work work) : CacheEvent τ δ K V))
    {w' : Workspace τ δ} {call' : Option Call} (hwork : call.step L w work = some (w', call')) :
    (⟨⟨w', call'⟩, cache.onUpdate ((⟨w, some call⟩ : BuilderState τ δ).emitUpdate (.work work))⟩ :
      BuilderCacheState τ δ K V).Inv := by
  by_cases hstage : call.stage = .relinking []
  · -- the listeners are told of the ids of the update
    cases work with
    | task d => simp only [Call.step, hstage, reduceCtorEq] at hwork
    | next =>
      simp only [Call.step, hstage] at hwork
      cases hwork
      have hids : (⟨w, some call⟩ : BuilderState τ δ).emitUpdate (.work .next)
          = call.allChanged := by
        simp only [BuilderState.emitUpdate, hstage, Call.allChanged]
      rw [hids]
      refine ⟨fun key => ?_, ?_⟩
      · rcases hv : (cache.onUpdate call.allChanged).values invalidDocumentId key with - | value
        · rfl
        · exact absurd (DocumentCache.values_of_onUpdate hv).1 (by rw [h.valid key]; rintro ⟨⟩)
      · exact Current.congr (h.holds.pending.onUpdate h.valid (hm.2 call rfl rfl hstage)) rfl
  · rw [emitUpdate_of_stage work hstage]
    exact ⟨h.valid, h.holds.does (Call.does_of_step hwork) hstage⟩

/-- **A step of the builder.** -/
theorem Inv.builder (h : s.Inv) {event : BuilderEvent τ} (hm : Meets s (.builder event))
    {b : BuilderState τ δ} (hstep : s.builder.step L event = some b) :
    (⟨b, s.cache.onUpdate (s.builder.emitUpdate event)⟩ : BuilderCacheState τ δ K V).Inv := by
  obtain ⟨⟨w, call⟩, cache⟩ := s
  cases event with
  | getOrCreateDocumentId =>
    cases hstep
    exact ⟨h.valid, h.holds.congr rfl rfl⟩
  | setTextDocument d text =>
    cases hstep
    exact ⟨h.valid, h.holds.congr rfl rfl⟩
  | writeFile d text =>
    cases hstep
    exact ⟨h.valid, h.holds.congr rfl rfl⟩
  | getOrCreateDocument d => exact hm.1.elim
  | build documents options => exact hm.1.elim
  | update changed deleted options =>
    cases call with
    | none =>
      cases hstep
      exact ⟨h.valid, h.holds⟩
    | some call => cases hstep
  | resolve d i =>
    cases call with
    | none =>
      cases hstep
      exact ⟨h.valid, Pending.keeps h.holds (Workspace.keepsContent_resolve d i)⟩
    | some call => cases hstep
  | stop =>
    cases call with
    | none => cases hstep
    | some call =>
      simp only [BuilderState.step, BuilderState.callStep] at hstep
      split at hstep
      · cases hstep
        exact ⟨h.valid, h.holds.pending⟩
      · cases hstep
  | work work =>
    cases call with
    | none => cases hstep
    | some call =>
      obtain ⟨⟨w', call'⟩, hwork, rfl⟩ := Option.map_eq_some_iff.mp hstep
      exact h.work hm hwork

variable [DecidableEq K] {event : CacheEvent τ δ K V}

/-- **A step of the builder and its cache.** -/
theorem inv_step (h : s.Inv) (hm : Meets s event) (hstep : step L s event = some s') : s'.Inv := by
  cases event with
  | builder event =>
    obtain ⟨b, hb, rfl⟩ := Option.map_eq_some_iff.mp hstep
    exact h.builder hm hb
  | get d key provider =>
    obtain ⟨⟨w, call⟩, cache⟩ := s
    cases call with
    | some call => cases hstep
    | none =>
      cases hstep
      refine ⟨fun key' => ?_, fun d' document key' value hd hv => ?_⟩
      · rcases hv : (cache.get w d key provider).1.values invalidDocumentId key' with - | value
        · rfl
        · rcases DocumentCache.values_of_get hv with hold | ⟨-, hvalid, -⟩
          · exact absurd hold (by rw [h.valid key']; nofun)
          · exact absurd rfl hvalid
      · rcases DocumentCache.values_of_get hv with hold | ⟨rfl, -, hsource⟩
        · exact h.holds d' document key' value hd hold
        · have hd : w.documents d' = some document := hd
          exact .inr (by rw [hsource, Workspace.content, hd]; rfl)

/-! ### After an update -/

/-- Between updates: the values are those of the documents. -/
structure AfterUpdate (s : BuilderCacheState τ δ K V) : Prop where
  idle : s.builder.call = none
  sourced : s.cache.Sourced s.builder.workspace

/-- What happens between updates keeps the values those of the documents. -/
theorem afterUpdate_step (h : s.AfterUpdate) (hi : Idle s event)
    (hstep : step L s event = some s') : s'.AfterUpdate := by
  obtain ⟨⟨w, call⟩, cache⟩ := s
  obtain ⟨rfl, h⟩ := h
  cases event with
  | get d key provider =>
    cases hstep
    refine ⟨rfl, fun d' document key' value hd hv => ?_⟩
    rcases DocumentCache.values_of_get hv with hold | ⟨rfl, -, hsource⟩
    · exact h d' document key' value hd hold
    · have hd : w.documents d' = some document := hd
      rw [hsource, Workspace.content, hd]
      rfl
  | builder event =>
    obtain ⟨b, hb, rfl⟩ := Option.map_eq_some_iff.mp hstep
    cases event with
    | getOrCreateDocumentId | setTextDocument d text | writeFile d text =>
      cases hb
      exact ⟨rfl, h⟩
    | getOrCreateDocument d => exact hi.1.elim
    | build documents options => exact hi.1.elim
    | update changed deleted options => exact absurd rfl (hi.2 changed deleted options)
    | resolve d i =>
      cases hb
      exact ⟨rfl, DocumentCache.Sourced.keeps h (Workspace.keepsContent_resolve d i)⟩
    | stop | work work => cases hb

omit [DecidableEq K] in
/-- The step that completes an update. -/
theorem Inv.returns {cache : DocumentCache τ K V} {w w' : Workspace τ δ} {call : Call}
    (h : (⟨⟨w, some call⟩, cache⟩ : BuilderCacheState τ δ K V).Inv) {work : Call.Work}
    (hwork : call.step L w work = some (w', none)) :
    (⟨⟨w', none⟩, cache.onUpdate ((⟨w, some call⟩ : BuilderState τ δ).emitUpdate (.work work))⟩ :
      BuilderCacheState τ δ K V).AfterUpdate := by
  obtain ⟨hstage, hcurrent⟩ := h.holds.current_of_return (Call.does_of_step hwork)
  rw [emitUpdate_of_stage work hstage]
  exact ⟨rfl, hcurrent.sourced⟩

theorem AfterUpdate.fresh (h : s.AfterUpdate) : s.Fresh := by
  intro d key provider hd
  obtain ⟨document, hdocument⟩ := Option.isSome_iff_exists.mp hd
  rcases @DocumentCache.source_get _ _ _ _ s.cache d key _ s.builder.workspace provider with
    ⟨value, hvalue, hget⟩ | hget
  · rw [hget, h.sourced d document key value hdocument hvalue, Workspace.content, hdocument]
    rfl
  · exact hget

/-! ### One document -/

namespace Sample

open Call (steps tasks)

/-- Two texts. -/
def short : Ast := ⟨1, [], []⟩

def long : Ast := ⟨2, [], []⟩

/-- Everything is validated. -/
def options : BuildOptions := ⟨none, .enabled true⟩

/-- The events of the example. -/
abbrev Event := CacheEvent Ast String Unit ℕ

/-- The states of the example. -/
abbrev State := BuilderCacheState Ast String Unit ℕ

/-- The number of symbols of a document. -/
def symbolCount (d : ℕ) : Event :=
  .get d () fun w => (((w.documents d).bind (·.parseResult)).map (·.ast.symbolCount)).getD 0

def builder (events : List (BuilderEvent Ast)) : List Event := events.map .builder

/-- Steps of the running call. -/
def works (works : List Call.Work) : List Event := works.map fun work => .builder (.work work)

/-- An update of the one document that there is, up to its last step. -/
def update : List Event :=
  builder [.update [0] [] options] ++
    works (steps 7 ++ tasks 0 3 ++ steps 1 ++ tasks 0 3 ++ steps 1 ++ tasks 0 1)

/-- The example from an empty workspace. -/
def run (events : List Event) : Option State :=
  (machine Language.literal).run (initial (Workspace.empty fun _ => short)) events

/-- The document is built, asked for, changed and built again. -/
def changedEvents : List Event :=
  builder [.getOrCreateDocumentId] ++ update ++ works (steps 1) ++ [symbolCount 0] ++
    builder [.setTextDocument 0 (some long)] ++ update

/-- The events of runs in which document 0 is the only one. -/
def OfOne : Event → Prop
  | .get d _ _ => d = 0
  | .builder (.update changed deleted _) => changed = [0] ∧ deleted = []
  | event => OfUpdates event

instance : DecidablePred OfOne := fun event => by
  unfold OfOne
  split <;> infer_instance

/-- The values are of document 0, and each update names it. -/
structure One (s : State) : Prop where
  values : ∀ d key value, s.cache.values d key = some value → d = 0
  changed : ∀ call, s.builder.call = some call → call.changed = [0]

theorem meets_of_one {s : State} (h : One s) {event : Event} (he : OfOne event) :
    Meets s event := by
  refine ⟨?_, fun call hevent hcall _ d document key value _ _ hv => ?_⟩
  · cases event with
    | get d key provider => trivial
    | builder event =>
      cases event with
      | update changed deleted options => trivial
      | _ => exact he
  · rw [h.values d key value hv, Call.allChanged, h.changed call hcall]
    exact List.mem_cons_self

theorem One.step {s s' : State} (h : One s) {event : Event} (he : OfOne event)
    (hstep : (machine Language.literal).step s event = some s') : One s' := by
  obtain ⟨⟨w, call⟩, cache⟩ := s
  cases event with
  | get d key provider =>
    cases call with
    | some call => cases hstep
    | none =>
      cases hstep
      refine ⟨fun d' key' value hv => ?_, fun _ hcall => absurd hcall (Option.some_ne_none _).symm⟩
      rcases DocumentCache.values_of_get hv with hold | ⟨hd, -, -⟩
      · exact h.values d' key' value hold
      · exact hd.trans he
  | builder event =>
    obtain ⟨b, hb, rfl⟩ := Option.map_eq_some_iff.mp hstep
    refine ⟨fun d key value hv => h.values d key value (DocumentCache.values_of_onUpdate hv).1,
      fun call' hcall' => ?_⟩
    cases event with
    | getOrCreateDocumentId | setTextDocument d text | writeFile d text =>
      cases hb
      exact h.changed call' hcall'
    | getOrCreateDocument d => exact he.elim
    | build documents options => exact he.elim
    | update changed deleted options =>
      cases call with
      | some call => cases hb
      | none =>
        cases hb
        cases hcall'
        obtain ⟨rfl, rfl⟩ := he
        rfl
    | resolve d i =>
      cases call with
      | some call => cases hb
      | none =>
        cases hb
        cases hcall'
    | stop =>
      cases call with
      | none => cases hb
      | some call =>
        simp only [BuilderState.step, BuilderState.callStep] at hb
        split at hb
        · cases hb
          cases hcall'
        · cases hb
    | work work =>
      cases call with
      | none => cases hb
      | some call =>
        obtain ⟨⟨w', call''⟩, hwork, rfl⟩ := Option.map_eq_some_iff.mp hb
        cases hcall'
        have hdoes := Call.does_of_step hwork
        generalize hsome : some call' = call'' at hdoes
        cases hdoes with
        | endPhase phase _ _ =>
          cases phase with
          | validation => cases hsome
          | _ =>
            cases hsome
            exact h.changed call rfl
        | _ =>
          cases hsome
          exact h.changed call rfl

theorem reaches_changed {s : State} (h : run changedEvents = some s) :
    (machine Language.literal).Reaches Meets
      (initial (Workspace.empty fun _ => short) : State) s := by
  have hevents : ∀ event ∈ changedEvents, OfOne event := by decide
  exact Machine.reaches_of_run h (Machine.allowedRun_of_invariant
    (fun event he _ hs => meets_of_one hs (hevents event he))
    (fun event he _ _ hs hstep => hs.step (hevents event he) hstep)
    ⟨fun _ _ _ hvalue => absurd hvalue (Option.some_ne_none _).symm,
      fun _ hcall => absurd hcall (Option.some_ne_none _).symm⟩)

end Sample

/-- **No value is older than its document after an update**, in every run whose updates name
the documents that wait for a parse and have values. -/
theorem fresh_after_update {w : Workspace τ δ}
    (h : (machine L).Reaches Meets (initial w : BuilderCacheState τ δ K V) s)
    (hdone : UpdateDone L s s') : s'.Fresh := by
  obtain ⟨work, s₁, hcall, hstep, hnone, hidle⟩ := hdone
  have inv : s.Inv := h.invariant (inv_initial w) fun _ _ _ hs hm hstep => inv_step hs hm hstep
  have hafter : s₁.AfterUpdate := by
    obtain ⟨⟨w, call⟩, cache⟩ := s
    obtain ⟨call, rfl⟩ := Option.isSome_iff_exists.mp hcall
    obtain ⟨b, hb, rfl⟩ := Option.map_eq_some_iff.mp hstep
    obtain ⟨⟨w', call'⟩, hwork, rfl⟩ := Option.map_eq_some_iff.mp hb
    cases hnone
    exact inv.returns hwork
  have hlast : s'.AfterUpdate :=
    hidle.invariant hafter fun _ _ _ hs hi hstep => afterUpdate_step hs hi hstep
  exact hlast.fresh

open Sample in
/-- The document is asked for before and after it changes. -/
theorem fresh_after_update_changed :
    ∃ s' : State, s'.Fresh ∧ (s'.builder.workspace.documents 0).map Document.content
      = some (long, some 2) := by
  have hbefore : (run changedEvents).isSome = true := by decide +kernel
  obtain ⟨s, hs⟩ := Option.isSome_iff_exists.mp hbefore
  have hafter : ((run changedEvents).bind fun s => (machine Language.literal).step s
      (.builder (.work .next))).isSome = true := by decide +kernel
  have hcall : (run changedEvents).map (·.builder.call.isSome) = some true := by decide +kernel
  have hreturns : ((run changedEvents).bind fun s => (machine Language.literal).step s
      (.builder (.work .next))).map (fun s => (s.builder.call.isNone,
        (s.builder.workspace.documents 0).map Document.content))
      = some (true, some (long, some 2)) := by decide +kernel
  rw [hs, Option.bind_some] at hafter hreturns
  rw [hs] at hcall
  obtain ⟨s', hstep⟩ := Option.isSome_iff_exists.mp hafter
  rw [hstep] at hreturns
  obtain ⟨hnone, hcontent⟩ := Prod.mk.inj (Option.some.inj hreturns)
  refine ⟨s', fresh_after_update (reaches_changed hs) ⟨.next, s', Option.some.inj hcall, hstep,
    Option.isNone_iff_eq_none.mp hnone, .refl⟩, hcontent⟩

/-! ### A document that is parsed again without being named -/

namespace Sample

open Call (steps tasks)

/-- The document is built and asked for; it changes, and its update is stopped before the
listeners are told; then another document is built, and this one with it. -/
def stopped : List Event :=
  builder [.getOrCreateDocumentId, .getOrCreateDocumentId] ++ update ++ works (steps 1) ++
    [symbolCount 0] ++
  builder [.setTextDocument 0 (some long), .update [0] [] options] ++ works (steps 4) ++
    builder [.stop, .update [1] [] options] ++
    works (steps 8 ++ tasks 0 3 ++ tasks 1 3 ++ steps 1 ++ tasks 0 3 ++ tasks 1 3 ++ steps 1 ++
      tasks 0 1 ++ tasks 1 1)

end Sample

open Sample in
/-- A value is older than its document, when the update that changed it was stopped. -/
theorem stale_value_stopped :
    ¬ ∀ s s' : State, (machine Language.literal).Reaches (fun _ event => OfUpdates event)
      (initial (Workspace.empty fun _ => short)) s → UpdateDone Language.literal s s' →
      s'.Fresh := by
  intro h
  have hevents : ∀ event ∈ stopped, OfUpdates event := by decide
  have hbefore : (run stopped).isSome = true := by decide +kernel
  obtain ⟨s, hs⟩ := Option.isSome_iff_exists.mp hbefore
  have hafter : ((run stopped).bind fun s => (machine Language.literal).step s
      (.builder (.work .next))).isSome = true := by decide +kernel
  have hcall : (run stopped).map (·.builder.call.isSome) = some true := by decide +kernel
  have hreturns : ((run stopped).bind fun s => (machine Language.literal).step s
      (.builder (.work .next))).map (fun s => (s.builder.call.isNone,
        (s.builder.workspace.documents 0).isSome,
        decide ((s.cache.get s.builder.workspace 0 () fun _ => 0).2.source
          = s.builder.workspace.content 0))) = some (true, true, false) := by decide +kernel
  rw [hs, Option.bind_some] at hafter hreturns
  rw [hs] at hcall
  obtain ⟨s', hstep⟩ := Option.isSome_iff_exists.mp hafter
  rw [hstep] at hreturns
  obtain ⟨hnone, hrest⟩ := Prod.mk.inj (Option.some.inj hreturns)
  obtain ⟨hsome, hstale⟩ := Prod.mk.inj hrest
  have hreaches : (machine Language.literal).Reaches (fun _ event => OfUpdates event)
      (initial (Workspace.empty fun _ => short)) s :=
    Machine.reaches_of_run hs (Machine.allowedRun_of_invariant
      (fun event he _ _ => hevents event he) (fun _ _ _ _ _ _ => trivial) trivial)
  have hfresh : s'.Fresh := h s s' hreaches ⟨.next, s', Option.some.inj hcall, hstep,
    Option.isNone_iff_eq_none.mp hnone, .refl⟩
  exact of_decide_eq_false hstale (hfresh 0 () _ hsome)

end BuilderCacheState

end Pegium
