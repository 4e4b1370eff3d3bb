/-
Pegium/Workspace/Staleness.lean

Resolved references and the nodes they point to.

`Document.getAstNode` relies on the build relinking every dependent of a changed
or deleted document.  `Sound C w` says what is true of a workspace while the ids
of `C` are being deleted and reset: a resolved reference that does not lead into
`C` points to a live node, and what the index and the scope cache say about other
documents is about parsed ones.  `Window C todo w` adds which documents still
depend on `C`; when the relink loop is done there are none, and `Sound [] w`
holds again.

The relink loop only finds the dependents that `shouldRelink` recognises, and only
if it is reached.  Both are hypotheses (`Meets`) of **`no_stale_reference`**; a run
that breaks one of them is at the end.
-/
import Pegium.Workspace.Phases

namespace Pegium

open Function (update)

variable {τ δ : Type} {L : Language τ δ} {w w' : Workspace τ δ} {d : ℕ} {C : List ℕ}

/-! ### Live targets -/

/-- The nodes that the resolved references of a document point to. -/
def Document.targets (document : Document τ δ) : List Target :=
  document.links.flatMap LinkState.targets

namespace Workspace

/-- The target is a node of the current AST of a document in the store. -/
def Current (w : Workspace τ δ) (target : Target) : Prop :=
  ∃ document result, w.documents target.documentId = some document ∧
    document.parseResult = some result ∧ result.generation = target.generation ∧
    target.symbolId < result.ast.symbolCount

/-- Every resolved reference of every document in the store has a current target. -/
def NoStaleReference (w : Workspace τ δ) : Prop :=
  ∀ d document, w.documents d = some document → ∀ target ∈ document.targets, w.Current target

/-- A document of the store is parsed, and no call will parse it again on its own. -/
def Analysed (w : Workspace τ δ) (d : ℕ) : Prop :=
  ∃ document, w.documents d = some document ∧ .parsed ≤ document.state

/-- A current target, in a document that is parsed. -/
def Live (w : Workspace τ δ) (target : Target) : Prop :=
  w.Current target ∧ w.Analysed target.documentId

/-- The documents that were parsed still are, with the same result. -/
def Keeps (C : List ℕ) (w w' : Workspace τ δ) : Prop :=
  ∀ d ∉ C, ∀ document, w.documents d = some document → .parsed ≤ document.state →
    ∃ document', w'.documents d = some document' ∧
      document'.parseResult = document.parseResult ∧ .parsed ≤ document'.state

theorem Analysed.keeps (h : w.Analysed d) (hd : d ∉ C) (hk : Keeps C w w') : w'.Analysed d := by
  obtain ⟨document, hdocument, hs⟩ := h
  obtain ⟨document', h', -, hs'⟩ := hk d hd document hdocument hs
  exact ⟨document', h', hs'⟩

theorem Live.keeps {target : Target} (h : w.Live target) (hd : target.documentId ∉ C)
    (hk : Keeps C w w') : w'.Live target := by
  obtain ⟨⟨document, result, hdocument, hresult, hgen, hsymbol⟩, hanalysed⟩ := h
  refine ⟨?_, hanalysed.keeps hd hk⟩
  obtain ⟨document₁, h₁, hs⟩ := hanalysed
  cases hdocument.symm.trans h₁
  obtain ⟨document', h', hparse, -⟩ := hk _ hd document hdocument hs
  exact ⟨document', result, h', hparse.trans hresult, hgen, hsymbol⟩

/-- What holds of a workspace while the documents of `C` are being reset. -/
structure Sound (C : List ℕ) (w : Workspace τ δ) : Prop where
  registered : ∀ d, (w.documents d).isSome → d < w.nextDocumentId
  targets : ∀ d document, w.documents d = some document → ∀ target ∈ document.targets,
    target.documentId ∉ C → w.Live target
  scopes : ∀ d document, w.documents d = some document → document.localSymbols = true →
    .parsed ≤ document.state
  exports : ∀ d es, w.exportsByDocument d = some es → ∀ e ∈ es,
    e.documentId = d ∧ w.Analysed d
  cache : ∀ type es, w.globalScopeCache type = some es → ∀ e ∈ es,
    e.documentId ∉ C → w.Analysed e.documentId

theorem Sound.empty (files : ℕ → τ) : Sound [] (Workspace.empty files : Workspace τ δ) :=
  ⟨nofun, nofun, nofun, nofun, nofun⟩

theorem Sound.weaken (h : Sound [] w) (C : List ℕ) : Sound C w where
  registered := h.registered
  targets d document hd target ht _ := h.targets d document hd target ht List.not_mem_nil
  scopes := h.scopes
  exports := h.exports
  cache type es hes e he _ := h.cache type es hes e he List.not_mem_nil

/-- **What soundness is for.** -/
theorem Sound.noStaleReference (h : Sound [] w) : w.NoStaleReference :=
  fun d document hd target ht => (h.targets d document hd target ht List.not_mem_nil).1

/-! ### Operations on one document -/

/-- A change of one document that keeps its parse result and leaves it parsed, and
has no new target but live ones. -/
theorem Sound.mapDocument (h : Sound C w) {f : Document τ δ → Document τ δ}
    (parse : ∀ document, w.documents d = some document → .parsed ≤ document.state →
      (f document).parseResult = document.parseResult)
    (state : ∀ document, w.documents d = some document → .parsed ≤ document.state →
      .parsed ≤ (f document).state)
    (targets : ∀ document, w.documents d = some document → ∀ target ∈ (f document).targets,
      target ∈ document.targets ∨ w.Live target)
    (scopes : ∀ document, w.documents d = some document → (f document).localSymbols = true →
      .parsed ≤ (f document).state) :
    Sound C (w.mapDocument d f) := by
  have keeps : Keeps [] w (w.mapDocument d f) := by
    intro d' _ document hdocument hs
    by_cases hd : d' = d
    · subst hd
      exact ⟨f document, by simp [Workspace.mapDocument, hdocument], parse _ hdocument hs,
        state _ hdocument hs⟩
    · exact ⟨document, by simp [Workspace.mapDocument, Function.update_of_ne hd, hdocument],
        rfl, hs⟩
  refine ⟨fun d' hd' => ?_, fun d' document' hd' target ht hC => ?_,
    fun d' document' hd' hl => ?_, fun d' es hes e he => ?_, fun type es hes e he hC => ?_⟩
  · refine h.registered d' ?_
    rwa [Workspace.mapDocument, isSome_update_map] at hd'
  · by_cases hd : d' = d
    · subst hd
      simp only [Workspace.mapDocument, Function.update_self] at hd'
      obtain ⟨document, hdocument, rfl⟩ := Option.map_eq_some_iff.mp hd'
      rcases targets document hdocument target ht with hold | hlive
      · exact (h.targets d' document hdocument target hold hC).keeps List.not_mem_nil keeps
      · exact hlive.keeps List.not_mem_nil keeps
    · simp only [Workspace.mapDocument, Function.update_of_ne hd] at hd'
      exact (h.targets d' document' hd' target ht hC).keeps List.not_mem_nil keeps
  · by_cases hd : d' = d
    · subst hd
      simp only [Workspace.mapDocument, Function.update_self] at hd'
      obtain ⟨document, hdocument, rfl⟩ := Option.map_eq_some_iff.mp hd'
      exact scopes document hdocument hl
    · simp only [Workspace.mapDocument, Function.update_of_ne hd] at hd'
      exact h.scopes d' document' hd' hl
  · obtain ⟨heq, hanalysed⟩ := h.exports d' es hes e he
    exact ⟨heq, hanalysed.keeps List.not_mem_nil keeps⟩
  · exact (h.cache type es hes e he hC).keeps List.not_mem_nil keeps

/-- Soundness is about the documents, their exports and the scope cache. -/
theorem Sound.congr (h : Sound C w) (documents : w'.documents = w.documents)
    (exports : w'.exportsByDocument = w.exportsByDocument)
    (cache : w'.globalScopeCache = w.globalScopeCache)
    (ids : w.nextDocumentId ≤ w'.nextDocumentId) : Sound C w' := by
  have keeps : Keeps [] w w' := fun d _ document hd hs =>
    ⟨document, documents ▸ hd, rfl, hs⟩
  refine ⟨fun d hd => ?_, fun d document hd target ht hC => ?_, ?_, fun d es hes e he => ?_,
    fun type es hes e he hC => ?_⟩
  · exact Nat.lt_of_lt_of_le (h.registered d (documents ▸ hd)) ids
  · exact (h.targets d document (documents ▸ hd) target ht hC).keeps List.not_mem_nil keeps
  · rw [documents]
    exact h.scopes
  · obtain ⟨heq, hanalysed⟩ := h.exports d es (exports ▸ hes) e he
    exact ⟨heq, hanalysed.keeps List.not_mem_nil keeps⟩
  · exact (h.cache type es (cache ▸ hes) e he hC).keeps List.not_mem_nil keeps

/-- A document that only changes its state, and stays parsed when it is. -/
theorem Sound.advance (h : Sound C w) {state : DocumentState} (hs : .parsed ≤ state) :
    Sound C (w.advance d state) :=
  h.mapDocument (fun _ _ _ => rfl) (fun _ _ _ => hs) (fun _ _ _ ht => .inl ht)
    fun _ _ _ => hs

theorem targets_unlink (document : Document τ δ) : document.unlink.targets = [] := by
  simp [Document.targets, Document.unlink, LinkState.targets]

theorem targets_parse (document : Document τ δ) (generation : ℕ) :
    (document.parse L generation).targets = [] := by
  simp [Document.targets, Document.parse, LinkState.targets]

theorem mem_targets_resetTo {document : Document τ δ} {state : DocumentState} {target : Target}
    (h : target ∈ (document.resetTo state).targets) : target ∈ document.targets := by
  simp only [Document.targets, Document.resetTo] at h
  split at h
  · have : target ∈ document.unlink.targets := h
    rw [targets_unlink] at this
    cases this
  · exact h

theorem targets_resetTo {document : Document τ δ} {state : DocumentState}
    (hs : state ≤ .computedScopes) : (document.resetTo state).targets = [] := by
  simp only [Document.targets, Document.resetTo, if_pos hs]
  exact targets_unlink document

/-- A reset to a state in which the document is still parsed. -/
theorem Sound.resetToState (h : Sound C w) {state : DocumentState} (hs : .parsed < state) :
    Sound C (w.resetToState d state) := by
  have hmap : Sound C (w.mapDocument d (Document.resetTo state)) := by
    refine h.mapDocument (fun _ _ _ => rfl) (fun document _ hd => ?_)
      (fun document _ target ht => .inl (mem_targets_resetTo ht)) (fun document hd hl => ?_)
    · simp only [Document.resetTo]
      split
      · exact Nat.le_of_lt hs
      · exact hd
    · simp only [Document.resetTo] at hl ⊢
      have hscopes := h.scopes d document hd
      split at hl
      · cases hl
      · split
        · exact Nat.le_of_lt hs
        · exact hscopes hl
  have hparsed : ¬ state ≤ .parsed := Nat.not_le.mpr hs
  exact hmap.congr rfl (if_neg hparsed) rfl (Nat.le_refl _)

/-- A reset of a document that was changed. -/
theorem Sound.reset_changed (h : Sound C w) (hd : d ∈ C) : Sound C (w.resetToState d .changed) := by
  have keeps : Keeps C w (w.resetToState d .changed) := by
    intro d' hd' document hdocument hs
    have hne : d' ≠ d := fun e => hd' (e ▸ hd)
    exact ⟨document, by rw [resetToState_documents, Function.update_of_ne hne, hdocument], rfl, hs⟩
  refine ⟨fun d' hd' => ?_, fun d' document' hd' target ht hC => ?_,
    fun d' document' hd' hl => ?_, fun d' es hes e he => ?_, fun type es hes e he hC => ?_⟩
  · refine h.registered d' ?_
    rwa [resetToState_documents, isSome_update_map] at hd'
  · rw [resetToState_documents, Function.update_apply] at hd'
    split at hd'
    · obtain ⟨document, -, rfl⟩ := Option.map_eq_some_iff.mp hd'
      rw [targets_resetTo (by decide)] at ht
      cases ht
    · exact (h.targets d' document' hd' target ht hC).keeps hC keeps
  · rw [resetToState_documents, Function.update_apply] at hd'
    split at hd'
    · obtain ⟨document, -, rfl⟩ := Option.map_eq_some_iff.mp hd'
      cases hl
    · exact h.scopes d' document' hd' hl
  · have hexports : (w.resetToState d .changed).exportsByDocument
        = update w.exportsByDocument d none := rfl
    rw [hexports, Function.update_apply] at hes
    split at hes
    · cases hes
    · rename_i hne
      obtain ⟨heq, document, hdocument, hs⟩ := h.exports d' es hes e he
      refine ⟨heq, document, ?_, hs⟩
      rw [resetToState_documents, Function.update_of_ne hne, hdocument]
  · exact (h.cache type es hes e he hC).keeps hC keeps

theorem Sound.deleteDocument (h : Sound C w) (hd : d ∈ C) : Sound C (w.deleteDocument d) := by
  have keeps : Keeps C w (w.deleteDocument d) := by
    intro d' hd' document hdocument hs
    have hne : d' ≠ d := fun e => hd' (e ▸ hd)
    exact ⟨document, (Function.update_of_ne hne _ _).trans hdocument, rfl, hs⟩
  have stored : ∀ d' document', (w.deleteDocument d).documents d' = some document' →
      w.documents d' = some document' := by
    intro d' document' h'
    simp only [Workspace.deleteDocument, Function.update_apply] at h'
    split at h'
    · cases h'
    · exact h'
  refine ⟨fun d' hd' => ?_, fun d' document' hd' target ht hC => ?_,
    fun d' document' hd' hl => ?_, fun d' es hes e he => ?_, fun type es hes e he hC => ?_⟩
  · obtain ⟨document', h'⟩ := Option.isSome_iff_exists.mp hd'
    exact h.registered d' (by rw [stored d' document' h']; rfl)
  · exact (h.targets d' document' (stored d' document' hd') target ht hC).keeps hC keeps
  · exact h.scopes d' document' (stored d' document' hd') hl
  · have hexports : (w.deleteDocument d).exportsByDocument
        = update w.exportsByDocument d none := rfl
    rw [hexports, Function.update_apply] at hes
    split at hes
    · cases hes
    · rename_i hne
      obtain ⟨heq, document, hdocument, hs⟩ := h.exports d' es hes e he
      exact ⟨heq, document, (Function.update_of_ne hne _ _).trans hdocument, hs⟩
  · exact (h.cache type es hes e he hC).keeps hC keeps

/-- A new document; nothing leads to it yet. -/
theorem Sound.getOrCreateDocument (h : Sound C w) : Sound C (w.getOrCreateDocument L d) := by
  rcases hd : w.documents d with - | document
  · by_cases hlt : d < w.nextDocumentId
    · have heq : w.getOrCreateDocument L d = { w with
          documents := update w.documents d
            (some (Document.create L w.nextGeneration (w.latestText d)))
          nextGeneration := w.nextGeneration + 1 } := by
        simp only [Workspace.getOrCreateDocument, hd, if_pos hlt]
      have keeps : Keeps [] w (w.getOrCreateDocument L d) := by
        intro d' _ document hdocument hs
        have hne : d' ≠ d := by
          rintro rfl
          cases hd.symm.trans hdocument
        rw [heq]
        exact ⟨document, (Function.update_of_ne hne _ _).trans hdocument, rfl, hs⟩
      have stored : ∀ d' document', (w.getOrCreateDocument L d).documents d' = some document' →
          d' = d ∧ document' = Document.create L w.nextGeneration (w.latestText d)
            ∨ w.documents d' = some document' := by
        intro d' document' h'
        rw [heq] at h'
        simp only [Function.update_apply] at h'
        split at h'
        · rename_i hdd
          cases h'
          exact .inl ⟨hdd, rfl⟩
        · exact .inr h'
      refine ⟨fun d' hd' => ?_, fun d' document' hd' target ht hC => ?_,
        fun d' document' hd' hl => ?_, fun d' es hes e he => ?_, fun type es hes e he hC => ?_⟩
      · obtain ⟨document', h'⟩ := Option.isSome_iff_exists.mp hd'
        rw [show (w.getOrCreateDocument L d).nextDocumentId = w.nextDocumentId by rw [heq]]
        rcases stored d' document' h' with ⟨rfl, -⟩ | hold
        · exact hlt
        · exact h.registered d' (by rw [hold]; rfl)
      · rcases stored d' document' hd' with ⟨-, rfl⟩ | hold
        · rw [Document.create, targets_parse] at ht
          cases ht
        · exact (h.targets d' document' hold target ht hC).keeps List.not_mem_nil keeps
      · rcases stored d' document' hd' with ⟨-, rfl⟩ | hold
        · exact DocumentState.le_refl _
        · exact h.scopes d' document' hold hl
      · obtain ⟨he₁, he₂⟩ := h.exports d' es (by rw [heq] at hes; exact hes) e he
        exact ⟨he₁, he₂.keeps List.not_mem_nil keeps⟩
      · exact (h.cache type es (by rw [heq] at hes; exact hes) e he hC).keeps
          List.not_mem_nil keeps
    · simpa only [Workspace.getOrCreateDocument, hd, if_neg hlt] using h
  · simpa only [Workspace.getOrCreateDocument, hd] using h

theorem Sound.changeDocument (h : Sound C w) (hd : d ∈ C) : Sound C (w.changeDocument L d) := by
  simp only [Workspace.changeDocument]
  split
  · exact h.getOrCreateDocument.reset_changed hd
  · exact h.getOrCreateDocument

theorem Sound.relinkDocument (h : Sound C w) (changed : List ℕ) :
    Sound C (w.relinkDocument changed d) := by
  simp only [Workspace.relinkDocument]
  split
  · exact h.resetToState (show DocumentState.parsed < .computedScopes by decide)
  · exact h

/-! ### Linking -/

theorem exists_of_mapM {α β : Type} {f : α → Option β} {as : List α} {bs : List β} {b : β}
    (h : as.mapM f = some bs) (hb : b ∈ bs) : ∃ a ∈ as, f a = some b := by
  induction as generalizing bs with
  | nil =>
    cases h
    cases hb
  | cons a as ih =>
    simp only [List.mapM_cons, Option.bind_eq_bind, Option.bind_eq_some_iff] at h
    obtain ⟨b', hb', bs', hbs, heq⟩ := h
    cases heq
    rcases List.mem_cons.mp hb with rfl | hb
    · exact ⟨a, List.mem_cons_self, hb'⟩
    · obtain ⟨a', ha', h'⟩ := ih hbs hb
      exact ⟨a', List.mem_cons_of_mem _ ha', h'⟩

/-- What the linker finds is a local symbol or an exported one. -/
theorem mem_candidates {locals : List NodeKey} {globals : List AstNodeDescription}
    {reference : ReferenceInfo} {key : NodeKey} (h : key ∈ candidates locals globals reference) :
    key ∈ locals ∨ ∃ e ∈ globals, e.key = key := by
  simp only [candidates] at h
  split at h
  · rw [getCandidates, List.mem_eraseDups, List.mem_append] at h
    rcases h with h | h
    · exact .inl h
    · obtain ⟨e, he, rfl⟩ := List.mem_map.mp h
      exact .inr ⟨e, (List.mem_filter.mp he).1, rfl⟩
  · rw [Option.mem_toList, getScopeEntry] at h
    split at h
    · cases h
    · rcases Option.or_eq_some_iff.mp h with h | ⟨-, h⟩
      · exact .inl (List.mem_of_head? h)
      · obtain ⟨e, he, rfl⟩ := Option.map_eq_some_iff.mp h
        exact .inr ⟨e, List.mem_of_find?_eq_some he, rfl⟩

theorem Sound.mem_allElements (h : Sound C w) {type : ℕ} {e : AstNodeDescription}
    (he : e ∈ w.allElements L type) : w.Analysed e.documentId := by
  obtain ⟨d, -, he⟩ := List.mem_flatMap.mp he
  obtain ⟨he, -⟩ := List.mem_filter.mp he
  rcases hes : w.exportsByDocument d with - | es
  · rw [hes] at he
    cases he
  · rw [hes] at he
    obtain ⟨rfl, hanalysed⟩ := h.exports d es hes e he
    exact hanalysed

theorem Sound.mem_getGlobalEntries (h : Sound [] w) {type : ℕ} {e : AstNodeDescription}
    (he : e ∈ w.getGlobalEntries L type) : w.Analysed e.documentId := by
  rw [getGlobalEntries] at he
  rcases hc : w.globalScopeCache type with - | es
  · rw [hc] at he
    exact h.mem_allElements he
  · rw [hc] at he
    exact h.cache type es hc e he List.not_mem_nil

theorem current_of_resolveAstNode {key : NodeKey} {target : Target}
    (h : w.resolveAstNode key = some target) :
    target.documentId = key.documentId ∧ w.Current target := by
  simp only [resolveAstNode, Option.bind_eq_some_iff] at h
  obtain ⟨document, hdocument, result, hresult, h⟩ := h
  split at h
  · rename_i hsymbol
    cases h
    exact ⟨rfl, document, result, hdocument, hresult, rfl, hsymbol⟩
  · cases h

/-- **A reference that gets resolved gets live targets.** -/
theorem Sound.live_of_linkState (h : Sound [] w) {document : Document τ δ}
    (hd : w.documents d = some document) {reference : ReferenceInfo} {targets : List Target}
    (hl : w.linkState L d document reference = .resolved targets) {target : Target}
    (ht : target ∈ targets) : w.Live target := by
  have hkeys : ∀ key ∈ candidates (localEntries d document reference)
      (w.getGlobalEntries L reference.referenceType) reference, w.Analysed key.documentId := by
    intro key hkey
    rcases mem_candidates hkey with hlocal | ⟨e, he, rfl⟩
    · -- a local symbol: the document has its scopes, so it is parsed
      simp only [localEntries] at hlocal
      split at hlocal
      · rename_i hscopes
        obtain ⟨symbol, -, rfl⟩ := List.mem_map.mp hlocal
        exact ⟨document, hd, h.scopes d document hd hscopes⟩
      · cases hlocal
    · exact h.mem_getGlobalEntries he
  simp only [linkState] at hl
  split at hl
  · split at hl <;> cases hl
  · split at hl
    · rename_i ts hts
      cases hl
      obtain ⟨key, hkey, hres⟩ := exists_of_mapM hts ht
      obtain ⟨heq, hcurrent⟩ := current_of_resolveAstNode hres
      exact ⟨hcurrent, heq ▸ hkeys key hkey⟩
    · cases hl

theorem mem_targets_set {document : Document τ δ} {i : ℕ} {link : LinkState} {target : Target}
    (h : target ∈ ({ document with links := document.links.set i link } : Document τ δ).targets) :
    target ∈ document.targets ∨ target ∈ link.targets := by
  obtain ⟨link', hlink, ht⟩ := List.mem_flatMap.mp h
  rcases List.mem_or_eq_of_mem_set hlink with hlink | rfl
  · exact .inl (List.mem_flatMap.mpr ⟨link', hlink, ht⟩)
  · exact .inr ht

theorem Sound.resolveLink (h : Sound [] w) (i : ℕ) :
    Sound [] (w.mapDocument d (w.resolveLink L d i)) := by
  refine h.mapDocument (fun document _ _ => ?_) (fun document _ hs => ?_)
    (fun document hd target ht => ?_) (fun document hd hl => ?_)
  · rw [resolveLink_parseResult]
  · rwa [resolveLink_state]
  · simp only [Workspace.resolveLink] at ht
    split at ht
    · rename_i reference _
      rcases mem_targets_set ht with ht | ht
      · exact .inl ht
      · cases hl : w.linkState L d document reference with
        | resolved targets =>
          rw [hl] at ht
          exact .inr (h.live_of_linkState hd hl ht)
        | _ =>
          rw [hl] at ht
          cases ht
    · exact .inl ht
  · rw [resolveLink_localSymbols] at hl
    rw [resolveLink_state]
    exact h.scopes d document hd hl

/-- The scope cache, filled from the index. -/
theorem Sound.cacheGlobalEntries (h : Sound [] w) (type : ℕ) :
    Sound [] { w with
      globalScopeCache := update w.globalScopeCache type (some (w.getGlobalEntries L type)) } := by
  refine ⟨h.registered, h.targets, h.scopes, h.exports, fun type' es hes e he _ => ?_⟩
  simp only [Function.update_apply] at hes
  split at hes
  · cases hes
    exact h.mem_getGlobalEntries he
  · exact h.cache type' es hes e he List.not_mem_nil

theorem Sound.resolve (h : Sound [] w) (i : ℕ) : Sound [] (w.resolve L d i) := by
  have hlink := @Sound.resolveLink _ _ L w d h i
  have hcache : Sound [] { w with globalScopeCache := (w.resolve L d i).globalScopeCache } := by
    simp only [Workspace.resolve]
    split
    · exact h.cacheGlobalEntries _
    · exact h
  -- the new cache only speaks of documents that the resolution leaves parsed
  refine ⟨hlink.registered, hlink.targets, hlink.scopes, hlink.exports,
    fun type es hes e he _ => ?_⟩
  obtain ⟨document, hdocument, hs⟩ := hcache.cache type es hes e he List.not_mem_nil
  by_cases hd : e.documentId = d
  · refine ⟨w.resolveLink L d i document, ?_, ?_⟩
    · show update w.documents d ((w.documents d).map (w.resolveLink L d i)) e.documentId = _
      rw [hd, Function.update_self, ← hd,
        show w.documents e.documentId = some document from hdocument]
      rfl
    · rwa [resolveLink_state]
  · exact ⟨document, (Function.update_of_ne hd _ _).trans hdocument, hs⟩

theorem Sound.updateContent (h : Sound C w) (hd : w.Analysed d) : Sound C (w.updateContent d) := by
  refine ⟨h.registered, h.targets, h.scopes, fun d' es hes e he => ?_, h.cache⟩
  simp only [Workspace.updateContent, Function.update_apply] at hes
  split at hes
  · rename_i heq
    cases hes
    subst heq
    refine ⟨?_, hd⟩
    rcases hresult : (w.documents d').bind (·.parseResult) with - | result
    · rw [hresult] at he
      cases he
    · rw [hresult] at he
      obtain ⟨symbol, -, rfl⟩ := List.mem_map.mp he
      rfl
  · exact h.exports d' es hes e he

/-- **A task keeps a workspace sound**, if it only parses what is not parsed and indexes
what is. -/
theorem Sound.run (h : Sound [] w) (task : Task)
    (unparsed : task.parses → ∀ document, w.documents d = some document →
      document.state = .changed)
    (parsed : task = .updateContent → w.Analysed d) : Sound [] (task.run L d w) := by
  have hchanged : ∀ s : DocumentState, s = .changed → ¬ .parsed ≤ s := by
    rintro _ rfl
    decide
  cases task with
  | attach =>
    refine h.mapDocument (fun document hd hs => ?_) (fun document hd hs => ?_)
      (fun _ _ _ ht => by cases ht) (fun _ _ hl => by cases hl)
    · exact absurd hs (hchanged _ (unparsed rfl document hd))
    · exact absurd hs (hchanged _ (unparsed rfl document hd))
  | parse =>
    refine Sound.congr (w := w.mapDocument d (Document.parse L w.nextGeneration))
      (h.mapDocument (fun document hd hs => ?_) (fun document hd hs => ?_)
        (fun document _ target ht => ?_) (fun document hd hl => ?_)) rfl rfl rfl (Nat.le_refl _)
    · exact absurd hs (hchanged _ (unparsed rfl document hd))
    · exact absurd hs (hchanged _ (unparsed rfl document hd))
    · rw [targets_parse] at ht
      cases ht
    · exact DocumentState.le_refl _
  | updateContent =>
    exact (h.updateContent (parsed rfl)).advance
      (show DocumentState.parsed ≤ .indexedContent by decide)
  | computeScopes =>
    exact h.mapDocument (fun _ _ _ => rfl)
      (fun _ _ _ => show DocumentState.parsed ≤ .computedScopes by decide)
      (fun _ _ _ ht => .inl ht) fun _ _ _ => show DocumentState.parsed ≤ .computedScopes by decide
  | resolve i => exact h.resolve i
  | linked => exact h.advance (show DocumentState.parsed ≤ .linked by decide)
  | updateReferences =>
    have hrefs : Sound [] (w.updateReferences d) := h.congr rfl rfl rfl (Nat.le_refl _)
    exact hrefs.advance (show DocumentState.parsed ≤ .indexedReferences by decide)
  | validate =>
    refine Sound.congr (w := w.mapDocument d (Task.onDocument L d w .validate))
      (h.mapDocument (fun _ _ _ => rfl) (fun _ _ _ => ?_) (fun _ _ _ ht => .inl ht)
        fun _ _ _ => ?_) rfl rfl rfl (Nat.le_refl _)
    all_goals exact show DocumentState.parsed ≤ .validated by decide

/-! ### Dependents -/

/-- A resolved reference leads from the document into `C`. -/
def DependsOn (C : List ℕ) (d : ℕ) (w : Workspace τ δ) : Prop :=
  ∃ document, w.documents d = some document ∧ ∃ target ∈ document.targets, target.documentId ∈ C

/-- The relink test recognises the documents that depend on the changed ones. -/
def Recognises (C : List ℕ) (w : Workspace τ δ) : Prop :=
  ∀ d ∉ C, w.DependsOn C d → w.shouldRelink C d = true

/-- While the ids of `todo` are still to be deleted or reset: who depends on `C`. -/
structure Window (C todo : List ℕ) (w : Workspace τ δ) : Prop where
  sound : Sound C w
  dependents : ∀ d, w.DependsOn C d → d ∈ todo ∨ d ∉ C ∧ w.shouldRelink C d = true

/-- In the relink loop: only documents that it still comes to depend on `C`. -/
structure Relinking (C pending : List ℕ) (w : Workspace τ δ) : Prop where
  sound : Sound C w
  dependents : ∀ d, w.DependsOn C d → d ∈ pending ∧ d ∉ C ∧ w.shouldRelink C d = true

theorem SameElsewhere.dependsOn (h : w.SameElsewhere d w') {d' : ℕ} (hd : d' ≠ d) :
    w'.DependsOn C d' ↔ w.DependsOn C d' := by
  simp only [DependsOn, h.documents d' hd]

theorem not_dependsOn_deleteDocument : ¬ (w.deleteDocument d).DependsOn C d := by
  rintro ⟨document, h, -⟩
  rw [Workspace.deleteDocument] at h
  cases (Function.update_self d none w.documents).symm.trans h

theorem not_dependsOn_resetToState {state : DocumentState} (hs : state ≤ .computedScopes) :
    ¬ (w.resetToState d state).DependsOn C d := by
  rintro ⟨document', h, target, ht, -⟩
  rw [resetToState_documents, Function.update_self] at h
  obtain ⟨document, -, rfl⟩ := Option.map_eq_some_iff.mp h
  rw [targets_resetTo hs] at ht
  cases ht

theorem not_dependsOn_changeDocument : ¬ (w.changeDocument L d).DependsOn C d := by
  simp only [Workspace.changeDocument]
  split
  · exact not_dependsOn_resetToState (by decide)
  · rename_i hnone
    rintro ⟨document, h, -⟩
    exact hnone (by rw [h]; rfl)

theorem Window.open (h : Sound [] w) {C todo : List ℕ} (recognised : w.Recognises C)
    (hC : ∀ d ∈ C, d ∈ todo) : Window C todo w := by
  refine ⟨h.weaken C, fun d hd => ?_⟩
  by_cases hmem : d ∈ C
  · exact .inl (hC d hmem)
  · exact .inr ⟨hmem, recognised d hmem hd⟩

/-- A document of the window is deleted or reset. -/
theorem Window.dealt {todo : List ℕ} (h : Window C (d :: todo) w) (same : w.SameElsewhere d w')
    (sound : Sound C w') (gone : ¬ w'.DependsOn C d) : Window C todo w' := by
  refine ⟨sound, fun d' hd' => ?_⟩
  have hne : d' ≠ d := by
    rintro rfl
    exact gone hd'
  rcases h.dependents d' ((same.dependsOn hne).mp hd') with hmem | ⟨hC, hrelink⟩
  · exact .inl ((List.mem_cons.mp hmem).resolve_left hne)
  · exact .inr ⟨hC, by rwa [same.shouldRelink hne]⟩

theorem Window.relinking (h : Window C [] w) : Relinking C w.all w := by
  refine ⟨h.sound, fun d hd => ?_⟩
  have hmem : d ∈ w.all := by
    obtain ⟨document, hdocument, -⟩ := hd
    have hsome : (w.documents d).isSome := by rw [hdocument]; rfl
    exact List.mem_filter.mpr ⟨List.mem_range.mpr (h.sound.registered d hsome), hsome⟩
  rcases h.dependents d hd with hnil | hrelink
  · cases hnil
  · exact ⟨hmem, hrelink⟩

/-- The relink loop comes to a document. -/
theorem Relinking.relink {pending : List ℕ} (h : Relinking C (d :: pending) w) :
    Relinking C pending (w.relinkDocument C d) := by
  have same : w.SameElsewhere d (w.relinkDocument C d) := sameElsewhere_relinkDocument C
  have gone : ¬ (w.relinkDocument C d).DependsOn C d := by
    intro hd
    simp only [Workspace.relinkDocument] at hd
    split at hd
    · exact not_dependsOn_resetToState (DocumentState.le_refl _) hd
    · rename_i hno
      obtain ⟨-, hC, hrelink⟩ := h.dependents d hd
      exact hno (by simp [hC, hrelink])
  refine ⟨h.sound.relinkDocument C, fun d' hd' => ?_⟩
  have hne : d' ≠ d := by
    rintro rfl
    exact gone hd'
  obtain ⟨hmem, hC, hrelink⟩ := h.dependents d' ((same.dependsOn hne).mp hd')
  exact ⟨(List.mem_cons.mp hmem).resolve_left hne, hC, by rwa [same.shouldRelink hne]⟩

/-- **The end of the relink loop**: nothing depends on the changed documents, and the
scope cache is dropped. -/
theorem Relinking.sound_emitUpdate (h : Relinking C [] w) : Sound [] w.emitUpdate where
  registered := h.sound.registered
  targets d document hd target ht _ := by
    refine h.sound.targets d document hd target ht fun hC => ?_
    cases (h.dependents d ⟨document, hd, target, ht, hC⟩).1
  scopes := h.sound.scopes
  exports := h.sound.exports
  cache := nofun

/-! ### `build()` -/

theorem Sound.reopenBuild (h : Sound [] w) (options : BuildOptions) :
    Sound [] (w.reopenBuild L options d) := by
  have hle : DocumentState.parsed < .indexedReferences := by decide
  simp only [Workspace.reopenBuild]
  split
  · exact h
  · split
    · split
      · exact h.resetToState hle
      · split
        · exact h
        · exact Sound.congr (h.advance (d := d) (Nat.le_of_lt hle)) rfl rfl rfl (Nat.le_refl _)
      · exact h
    · exact h.congr rfl rfl rfl (Nat.le_refl _)

theorem Sound.reopen (h : Sound [] w) (documents : List ℕ) (options : BuildOptions) :
    Sound [] (w.reopen L documents options) := by
  have hfold : Sound [] (documents.foldl (Workspace.reopenBuild L options) w) := by
    induction documents generalizing w with
    | nil => exact h
    | cons d documents ih => exact ih (h.reopenBuild options)
  exact ⟨hfold.registered, hfold.targets, hfold.scopes, hfold.exports, nofun⟩

end Workspace

/-! ### Calls -/

namespace Call

open Workspace

variable {call : Call} {call' : Option Call}

/-- Documents have been deleted or reset, and the relink loop is still to finish. -/
def halfway (call : Call) : Bool :=
  match call.stage with
  | .deleting pending => decide (pending ≠ call.deleted)
  | .changing pending => decide (pending ≠ call.changed) || !call.deleted.isEmpty
  | .relinking _ => !call.allChanged.isEmpty
  | _ => false

/-- What is deleted and no longer pending is not in the store. -/
def Gone (call : Call) (pending : List ℕ) (w : Workspace τ δ) : Prop :=
  ∀ d ∈ call.deleted, d ∉ pending → w.documents d = none

/-- What holds at a stage of a call. -/
def StageInv (call : Call) (w : Workspace τ δ) : Stage → Prop
  | .starting => Sound [] w ∧ w.Recognises call.allChanged
  | .deleting pending =>
    pending <:+ call.deleted ∧ Window call.allChanged (pending ++ call.changed) w ∧
      call.Gone pending w ∧ (pending = call.deleted → Sound [] w)
  | .changing pending =>
    pending <:+ call.changed ∧ Window call.allChanged pending w ∧ call.Gone [] w ∧
      (pending = call.changed → call.deleted = [] → Sound [] w)
  | .relinking pending => Relinking call.allChanged pending w ∧ call.Gone [] w
  | .selecting => Sound [] w ∧ call.Gone [] w
  | .phase phase documents jobs =>
    Sound [] w ∧ call.Gone [] w ∧ Phase.Ready w phase documents jobs

/-- The invariant of a call. -/
structure Inv (call : Call) (w : Workspace τ δ) : Prop where
  disjoint : ∀ d ∈ call.changed, d ∉ call.deleted
  stage : call.StageInv w call.stage

/-- What holds between calls, or of the call in progress. -/
def Holds (w : Workspace τ δ) : Option Call → Prop
  | none => Sound [] w
  | some call => call.Inv w

theorem ne_of_cons_suffix {α : Type} {a : α} {l l' : List α} (h : a :: l <:+ l') : l ≠ l' := by
  rintro rfl
  exact absurd h.length_le (Nat.not_succ_le_self _)

/-- A task fits its document, so it keeps the workspace sound. -/
theorem sound_task {phase : Phase} {documents : List ℕ} {jobs : ℕ → List Task} {task : Task}
    {rest : List Task} (h : Sound [] w) (ready : Phase.Ready w phase documents jobs)
    (hjobs : jobs d = task :: rest) : Sound [] (task.run L d w) := by
  obtain ⟨-, document, hdocument, hentry⟩ := ready.entry hjobs
  refine h.run task (fun hparses document' hdocument' => ?_) (fun htask => ?_)
  · cases hdocument.symm.trans hdocument'
    cases task with
    | attach | parse => exact hentry
    | _ => cases hparses
  · subst htask
    exact ⟨document, hdocument, hentry ▸ DocumentState.le_refl _⟩

/-- **A step of a call keeps its invariant**, and a call that returns leaves a sound
workspace. -/
theorem Does.holds (h : Does L call w w' call') (inv : call.Inv w) : Holds w' call' := by
  obtain ⟨disjoint, stage⟩ := inv
  cases h with
  | start h =>
    rw [h] at stage
    obtain ⟨sound, recognised⟩ := stage
    refine ⟨disjoint, List.suffix_refl _, .open sound recognised fun d hd => ?_,
      fun d hd hno => absurd hd hno, fun _ => sound⟩
    exact List.mem_append.mpr (List.mem_append.mp hd).symm
  | delete d pending h =>
    rw [h] at stage
    obtain ⟨suffix, window, gone, -⟩ := stage
    have hd : d ∈ call.deleted := suffix.subset List.mem_cons_self
    refine ⟨disjoint, (List.suffix_cons d pending).trans suffix,
      window.dealt sameElsewhere_deleteDocument
        (window.sound.deleteDocument (List.mem_append_right _ hd)) not_dependsOn_deleteDocument,
      fun d' hd' hno => ?_, fun e => absurd e (ne_of_cons_suffix suffix)⟩
    by_cases hdd : d' = d
    · exact hdd ▸ Function.update_self _ _ _
    · exact (Function.update_of_ne hdd _ _).trans
        (gone d' hd' fun hmem => hno ((List.mem_cons.mp hmem).resolve_left hdd))
  | deleted h =>
    rw [h] at stage
    obtain ⟨-, window, gone, sound⟩ := stage
    exact ⟨disjoint, List.suffix_refl _, window, gone, fun _ hdeleted => sound hdeleted.symm⟩
  | change d pending h =>
    rw [h] at stage
    obtain ⟨suffix, window, gone, -⟩ := stage
    have hd : d ∈ call.changed := suffix.subset List.mem_cons_self
    refine ⟨disjoint, (List.suffix_cons d pending).trans suffix,
      window.dealt sameElsewhere_changeDocument
        (window.sound.changeDocument (List.mem_append_left _ hd)) not_dependsOn_changeDocument,
      fun d' hd' hno => ?_, fun e => absurd e (ne_of_cons_suffix suffix)⟩
    have hdd : d' ≠ d := fun e => disjoint d hd (e ▸ hd')
    exact (sameElsewhere_changeDocument.documents d' hdd).trans (gone d' hd' hno)
  | changed h =>
    rw [h] at stage
    obtain ⟨-, window, gone, -⟩ := stage
    exact ⟨disjoint, window.relinking, gone⟩
  | relink d pending h =>
    rw [h] at stage
    obtain ⟨relinking, gone⟩ := stage
    refine ⟨disjoint, relinking.relink, fun d' hd' hno => ?_⟩
    have hnone := gone d' hd' hno
    simp only [Workspace.relinkDocument]
    split
    · rw [resetToState_documents, Function.update_apply]
      split
      · rename_i heq
        rw [← heq, hnone]
        rfl
      · exact hnone
    · exact hnone
  | relinked h =>
    rw [h] at stage
    exact ⟨disjoint, stage.1.sound_emitUpdate, stage.2⟩
  | select documents h hdocuments =>
    rw [h] at stage
    obtain ⟨sound, gone⟩ := stage
    refine ⟨disjoint, sound.congr rfl rfl rfl (Nat.le_refl _), gone, .content fun d hd => ?_⟩
    rw [hdocuments] at hd
    exact (List.mem_filter.mp (List.mem_filter.mp hd).1).2
  | task d task rest h hjobs =>
    rw [h] at stage
    obtain ⟨sound, gone, ready⟩ := stage
    refine ⟨disjoint, sound_task sound ready hjobs, fun d' hd' hno => ?_, ready.run hjobs⟩
    have hsome := task.isSome_run_documents (L := L) (w := w) (d := d) d'
    rw [gone d' hd' hno] at hsome
    exact Option.isNone_iff_eq_none.mp (by simpa using hsome)
  | @endPhase documents jobs phase h hover =>
    rw [h] at stage
    obtain ⟨sound, gone, ready⟩ := stage
    cases phase with
    | content => exact ⟨disjoint, sound, gone, ready.references hover⟩
    | references =>
      exact ⟨disjoint, sound.congr rfl rfl rfl (Nat.le_refl _), gone,
        ready.validation hover _ fun d hd => (List.mem_filter.mp hd).1⟩
    | validation => exact sound

/-- A call that is not halfway can be given up. -/
theorem Inv.sound (inv : call.Inv w) (h : call.halfway = false) : Sound [] w := by
  obtain ⟨-, stage⟩ := inv
  simp only [halfway] at h
  cases hs : call.stage with
  | starting =>
    rw [hs] at stage
    exact stage.1
  | deleting pending =>
    rw [hs] at stage h
    exact stage.2.2.2 (by simpa using h)
  | changing pending =>
    rw [hs] at stage h
    simp only [Bool.or_eq_false_iff, decide_eq_false_iff_not, Bool.not_eq_eq_eq_not, Bool.not_false,
      List.isEmpty_iff, not_not] at h
    exact stage.2.2.2 h.1 h.2
  | relinking pending =>
    rw [hs] at stage h
    have hnil : call.allChanged = [] := by simpa using h
    have sound := stage.1.sound
    rwa [hnil] at sound
  | selecting =>
    rw [hs] at stage
    exact stage.1
  | phase phase documents jobs =>
    rw [hs] at stage
    exact stage.1

/-- The invariant does not depend on the texts, nor on how many URIs are known. -/
theorem Inv.congr (inv : call.Inv w) (documents : w'.documents = w.documents)
    (exports : w'.exportsByDocument = w.exportsByDocument)
    (references : w'.referencesByDocument = w.referencesByDocument)
    (cache : w'.globalScopeCache = w.globalScopeCache)
    (states : w'.buildStateByDocumentId = w.buildStateByDocumentId)
    (ids : w.nextDocumentId ≤ w'.nextDocumentId) : call.Inv w' := by
  have sound : ∀ {C}, Sound C w → Sound C w' := fun h => h.congr documents exports cache ids
  have depends : ∀ {C d}, w'.DependsOn C d ↔ w.DependsOn C d := by
    intro C d
    rw [Workspace.DependsOn, Workspace.DependsOn, documents]
  have relink : ∀ {C d}, w'.shouldRelink C d = w.shouldRelink C d := by
    intro C d
    simp only [Workspace.shouldRelink, isAffected, documents, references]
  have gone : ∀ {pending}, call.Gone pending w → call.Gone pending w' := by
    intro pending h d hd hno
    rw [documents]
    exact h d hd hno
  have window : ∀ {C todo}, Window C todo w → Window C todo w' := by
    refine fun h => ⟨sound h.sound, fun d hd => ?_⟩
    rw [relink]
    exact h.dependents d (depends.mp hd)
  obtain ⟨disjoint, stage⟩ := inv
  refine ⟨disjoint, ?_⟩
  cases hs : call.stage with
  | starting =>
    rw [hs] at stage
    refine ⟨sound stage.1, fun d hd hdep => ?_⟩
    rw [relink]
    exact stage.2 d hd (depends.mp hdep)
  | deleting pending =>
    rw [hs] at stage
    exact ⟨stage.1, window stage.2.1, gone stage.2.2.1, fun e => sound (stage.2.2.2 e)⟩
  | changing pending =>
    rw [hs] at stage
    exact ⟨stage.1, window stage.2.1, gone stage.2.2.1, fun e e' => sound (stage.2.2.2 e e')⟩
  | relinking pending =>
    rw [hs] at stage
    refine ⟨⟨sound stage.1.sound, fun d hd => ?_⟩, gone stage.2⟩
    rw [relink]
    exact stage.1.dependents d (depends.mp hd)
  | selecting =>
    rw [hs] at stage
    exact ⟨sound stage.1, gone stage.2⟩
  | phase phase ds jobs =>
    rw [hs] at stage
    obtain ⟨hsound, hgone, ready⟩ := stage
    exact ⟨sound hsound, gone hgone, ready.congr documents states⟩

end Call

/-! ### Runs -/

namespace BuilderState

open Workspace

variable {s s' : BuilderState τ δ}

/-- What a caller does that the relink guarantee can live with: an update recognises the
documents that depend on what it changes and deletes, and no call is stopped halfway. -/
def Meets (s : BuilderState τ δ) : BuilderEvent τ → Prop
  | .update changed deleted options =>
    s.workspace.Recognises (Call.update changed deleted options).allChanged
  | .stop => ∀ call, s.call = some call → call.halfway = false
  | _ => True

/-- The invariant of runs. -/
def Inv (s : BuilderState τ δ) : Prop := Call.Holds s.workspace s.call

theorem holds_congr {w w' : Workspace τ δ} {call : Option Call} (h : Call.Holds w call)
    (documents : w'.documents = w.documents)
    (exports : w'.exportsByDocument = w.exportsByDocument)
    (references : w'.referencesByDocument = w.referencesByDocument)
    (cache : w'.globalScopeCache = w.globalScopeCache)
    (states : w'.buildStateByDocumentId = w.buildStateByDocumentId)
    (ids : w.nextDocumentId ≤ w'.nextDocumentId) : Call.Holds w' call := by
  cases call with
  | none => exact Sound.congr h documents exports cache ids
  | some call => exact Call.Inv.congr h documents exports references cache states ids

theorem inv_update {w : Workspace τ δ} (h : Sound [] w) {changed deleted : List ℕ}
    {options : BuildOptions} (hr : w.Recognises (Call.update changed deleted options).allChanged) :
    (Call.update changed deleted options).Inv w := by
  refine ⟨fun d hd hno => ?_, h, hr⟩
  have hd := (List.mem_filter.mp (List.mem_eraseDups.mp hd)).2
  exact (of_decide_eq_true hd) (List.mem_eraseDups.mp hno)

theorem inv_build {w : Workspace τ δ} (h : Sound [] w) {documents : List ℕ}
    (hstore : ∀ d ∈ documents, (w.documents d).isSome) (options : BuildOptions) :
    (Call.build documents options (w.reopen L documents options)).Inv
      (w.reopen L documents options) := by
  refine ⟨fun _ _ => List.not_mem_nil, h.reopen documents options, nofun, .content fun d hd => ?_⟩
  rw [isSome_reopen]
  exact hstore d hd

theorem inv_idleStep {event : BuilderEvent τ} {w : Workspace τ δ} (h : Sound [] w)
    (hm : Meets ⟨w, none⟩ event) (hstep : idleStep L w event = some s') : s'.Inv := by
  cases event with
  | getOrCreateDocument d =>
    cases hstep
    exact h.getOrCreateDocument
  | update changed deleted options =>
    cases hstep
    exact inv_update h hm
  | build documents options =>
    simp only [idleStep] at hstep
    split at hstep
    · rename_i hall
      cases hstep
      exact inv_build h (List.all_eq_true.mp hall) options
    · cases hstep
  | resolve d i =>
    cases hstep
    exact h.resolve i
  | _ => cases hstep

theorem inv_callStep {event : BuilderEvent τ} {w : Workspace τ δ} {call : Call} (h : call.Inv w)
    (hm : Meets ⟨w, some call⟩ event) (hstep : callStep L w call event = some s') : s'.Inv := by
  cases event with
  | work work =>
    obtain ⟨⟨w', call'⟩, hcall, rfl⟩ := Option.map_eq_some_iff.mp hstep
    exact (Call.does_of_step hcall).holds h
  | stop =>
    simp only [callStep] at hstep
    split at hstep
    · cases hstep
      exact Call.Inv.sound h (hm call rfl)
    · cases hstep
  | _ => cases hstep

/-- **A step that the caller may take keeps the invariant.** -/
theorem inv_step {event : BuilderEvent τ} (h : s.Inv) (hm : s.Meets event)
    (hstep : (machine L).step s event = some s') : s'.Inv := by
  cases event with
  | getOrCreateDocumentId =>
    cases hstep
    exact holds_congr h rfl rfl rfl rfl rfl (Nat.le_succ _)
  | setTextDocument d text =>
    cases hstep
    exact holds_congr h rfl rfl rfl rfl rfl (Nat.le_refl _)
  | writeFile d text =>
    cases hstep
    exact holds_congr h rfl rfl rfl rfl rfl (Nat.le_refl _)
  | _ =>
    obtain ⟨w, - | call⟩ := s
    · exact inv_idleStep (L := L) h hm hstep
    · exact inv_callStep (L := L) h hm hstep

theorem inv_of_reaches {files : ℕ → τ}
    (h : (machine L).Reaches Meets ⟨Workspace.empty files, none⟩ s) : s.Inv :=
  Machine.Reaches.invariant h (Sound.empty files) fun _ _ _ hs hm hstep => inv_step hs hm hstep

/-! ### Two documents -/

namespace Sample

open Call (steps tasks)

/-- A document that refers to `x`, and one that exports it. -/
def files : ℕ → Ast
  | 0 => ⟨1, [], [⟨"x", 0, false, 0, 1, []⟩]⟩
  | _ => ⟨1, [⟨"x", 0, 0⟩], []⟩

/-- Validation, without and with eager linking. -/
def lazyLinking : BuildOptions := ⟨some false, .enabled true⟩

def eagerLinking : BuildOptions := ⟨none, .enabled true⟩

/-- The start of an update that builds both documents. -/
def firstUpdate (options : BuildOptions) : List (BuilderEvent Ast) :=
  [.getOrCreateDocumentId, .getOrCreateDocumentId, .update [0, 1] [] options]

/-- The rest of that update, up to its last step. -/
def firstBuild : List Call.Work :=
  steps 9 ++ tasks 0 3 ++ tasks 1 3 ++ steps 1 ++ tasks 0 4 ++ tasks 1 3 ++ steps 1 ++
    tasks 0 1 ++ tasks 1 1

/-- The other document gets another symbol before `x`. -/
def moved : Ast := ⟨2, [⟨"y", 0, 0⟩, ⟨"x", 0, 1⟩], []⟩

/-- After that update, one for the document that has changed, up to its last step: the document
that refers to it is linked again. -/
def laterUpdate : List (BuilderEvent Ast) :=
  firstUpdate eagerLinking ++ (firstBuild ++ steps 1).map .work ++
    [.setTextDocument 1 (some moved), .update [1] [] eagerLinking] ++
    (steps 8 ++ tasks 1 3 ++ steps 1 ++ tasks 0 3 ++ tasks 1 3 ++ steps 1 ++ tasks 0 1 ++
      tasks 1 1).map .work

/-- The state before the later update returns, and the one after. -/
def relinked : Option (BuilderState Ast String) :=
  (machine Language.literal).run ⟨Workspace.empty files, none⟩ laterUpdate

def returned : Option (BuilderState Ast String) :=
  relinked.bind fun s => (machine Language.literal).step s (.work .next)

/-- Nothing is stopped, and an update between calls recognises the documents that there are. -/
def calm (s : BuilderState Ast String) : BuilderEvent Ast → Bool
  | .update changed deleted options =>
    let C := (Call.update changed deleted options).allChanged
    s.call.isNone && (List.range s.workspace.nextDocumentId).all fun d =>
      d ∈ C || s.workspace.shouldRelink C d ||
        (s.workspace.documents d).all fun document =>
          document.targets.all fun target => target.documentId ∉ C
  | .stop => false
  | _ => true

theorem meets_of_calm {s : BuilderState Ast String} {event : BuilderEvent Ast} (inv : s.Inv)
    (h : calm s event = true) : s.Meets event := by
  cases event with
  | update changed deleted options =>
    rintro d hd ⟨document, hdocument, target, htarget, hmem⟩
    obtain ⟨hidle, hall⟩ := Bool.and_eq_true_iff.mp h
    have sound : Sound [] s.workspace := by
      have holds : Call.Holds s.workspace s.call := inv
      rw [Option.isNone_iff_eq_none.mp hidle] at holds
      exact holds
    have hlt := sound.registered d (by rw [hdocument]; rfl)
    have hrelink := List.all_eq_true.mp hall d (List.mem_range.mpr hlt)
    simp only [hdocument, Option.all_some, Bool.or_eq_true, decide_eq_true_eq] at hrelink
    rcases hrelink with (hC | hrelink) | hnone
    · exact absurd hC hd
    · exact hrelink
    · exact absurd hmem (of_decide_eq_true (List.all_eq_true.mp hnone target htarget))
  | stop => cases h
  | _ => trivial

end Sample

/-- **No resolved reference is stale when an update completes**: each leads to a node of
the current AST of a document in the store, and none into a deleted document.  So in
every run that meets the conditions, whatever is changed, stopped or resolved. -/
theorem no_stale_reference {files : ℕ → τ} {call : Call} {work : Call.Work} {w : Workspace τ δ}
    (h : (machine L).Reaches Meets ⟨Workspace.empty files, none⟩ s) (hcall : s.call = some call)
    (hstep : (machine L).step s (.work work) = some ⟨w, none⟩) :
    w.NoStaleReference ∧ ∀ d ∈ call.deleted, w.documents d = none ∧
      ∀ d' document, w.documents d' = some document → ∀ target ∈ document.targets,
        target.documentId ≠ d := by
  have inv : s.Inv := inv_of_reaches h
  have sound : Sound [] w := @inv_step _ _ L s ⟨w, none⟩ (.work work) inv trivial hstep
  obtain ⟨w₀, call₀⟩ := s
  cases hcall
  obtain ⟨⟨w', call'⟩, hwork, heq⟩ := Option.map_eq_some_iff.mp hstep
  cases heq
  refine ⟨sound.noStaleReference, fun d hd => ?_⟩
  have hgone : w.documents d = none := by
    have hdoes := Call.does_of_step hwork
    generalize hnone : (none : Option Call) = call' at hdoes
    cases hdoes with
    | @endPhase documents jobs phase hphase hover =>
      have stage := inv.stage
      simp only at stage
      rw [hphase] at stage
      cases phase with
      | validation => exact stage.2.1 d hd List.not_mem_nil
      | _ => cases hnone
    | _ => cases hnone
  refine ⟨hgone, fun d' document hdocument target ht he => ?_⟩
  obtain ⟨document', result, hdocument', -⟩ :=
    sound.noStaleReference d' document hdocument target ht
  rw [he, hgone] at hdocument'
  cases hdocument'

open Sample in
/-- The reference of the one document leads to the new place of the symbol in the other. -/
theorem no_stale_reference_relinked :
    ∃ w : Workspace Ast String, w.NoStaleReference ∧
      (w.documents 0).map Document.targets = some [⟨1, 1, 4⟩] := by
  have hreturned : returned.isSome = true := by decide +kernel
  obtain ⟨⟨w, call'⟩, hw⟩ := Option.isSome_iff_exists.mp hreturned
  obtain ⟨s, hs, hstep⟩ := Option.bind_eq_some_iff.mp hw
  have hcall : relinked.map (·.call.isSome) = some true := by decide +kernel
  have hcall' : returned.map (·.call.isNone) = some true := by decide +kernel
  have htargets : returned.map (fun s => (s.workspace.documents 0).map Document.targets)
      = some (some [⟨1, 1, 4⟩]) := by decide +kernel
  rw [hw] at hcall' htargets
  rw [hs] at hcall
  cases call' with
  | some call' => cases hcall'
  | none =>
    obtain ⟨call, hcall⟩ := Option.isSome_iff_exists.mp (Option.some.inj hcall)
    have hallowed : (machine Language.literal).AllowedRun Meets ⟨Workspace.empty files, none⟩
        laterUpdate :=
      Machine.allowedRun_of_tested (Sound.empty files)
        (fun s event inv hcalm => meets_of_calm inv hcalm)
        (fun s event s' inv hcalm hstep => inv_step inv (meets_of_calm inv hcalm) hstep)
        (by decide +kernel)
    have hreaches := Machine.reaches_of_run hs hallowed
    exact ⟨w, (no_stale_reference hreaches hcall hstep).1, Option.some.inj htargets⟩

/-! ### A run that breaks the guarantee -/

namespace Sample

open Call (steps tasks)

/-- Both documents are built, the reference is resolved when it is read, and then the
document it leads to changes.  The reference is not in the index. -/
def events : List (BuilderEvent Ast) :=
  firstUpdate lazyLinking ++
    (steps 9 ++ tasks 0 3 ++ tasks 1 3 ++ steps 1 ++ tasks 0 1 ++ tasks 1 1 ++ steps 1 ++
      tasks 0 1 ++ tasks 1 1 ++ steps 1).map .work ++
  [.resolve 0 0, .update [1] [] lazyLinking] ++
    (steps 8 ++ tasks 1 3 ++ steps 1 ++ tasks 1 1 ++ steps 1 ++ tasks 1 1).map .work

/-- The state before the second update returns, and the one after. -/
def before : Option (BuilderState Ast String) :=
  (machine Language.literal).run ⟨Workspace.empty files, none⟩ events

def after : Option (BuilderState Ast String) :=
  before.bind fun s => (machine Language.literal).step s (.work .next)

end Sample

open Sample in
/-- A reference that is resolved when it is read is not relinked when its target changes. -/
theorem stale_reference_lazily_resolved :
    ¬ ∀ (events : List (BuilderEvent Ast)) (s : BuilderState Ast String) (work : Call.Work)
      (w : Workspace Ast String),
      (machine Language.literal).run ⟨Workspace.empty files, none⟩ events = some s →
      (machine Language.literal).step s (.work work) = some ⟨w, none⟩ → w.NoStaleReference := by
  intro h
  have hafter : after.isSome = true := by decide +kernel
  obtain ⟨⟨w, call⟩, hw⟩ := Option.isSome_iff_exists.mp hafter
  obtain ⟨s, hs, hstep⟩ := Option.bind_eq_some_iff.mp hw
  have hcall : after.map (·.call.isNone) = some true := by decide +kernel
  have htargets : after.map (fun s => (s.workspace.documents 0).map Document.targets)
      = some (some [⟨1, 0, 3⟩]) := by decide +kernel
  have hgeneration : after.map (fun s => ((s.workspace.documents 1).bind (·.parseResult)).map
      (·.generation)) = some (some 4) := by decide +kernel
  rw [hw] at hcall htargets hgeneration
  cases call with
  | some call => cases hcall
  | none =>
    obtain ⟨document, hdocument, ht⟩ := Option.map_eq_some_iff.mp (Option.some.inj htargets)
    obtain ⟨document', result, hdocument', hresult, hgen, -⟩ :=
      h events s .next w hs hstep 0 document hdocument ⟨1, 0, 3⟩
        (by rw [ht]; exact List.mem_cons_self)
    simp only [Option.map_some, hdocument', Option.bind_some, hresult, hgen] at hgeneration
    cases hgeneration

end BuilderState

end Pegium
