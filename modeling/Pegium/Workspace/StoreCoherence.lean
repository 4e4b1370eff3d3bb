/-
Pegium/Workspace/StoreCoherence.lean

The tables of the registry agree.

`Coherent` says that they do.  It is kept by every call of the registry but one:
`deleteDocument` cuts off the node of the trie, with every document filed below it,
and takes only the document itself out of the table by id.  The source asserts there
that nothing is below, and nothing makes it so.

Main result: `documents_coherent`, for runs that delete single documents only where
nothing is filed below them.  A URI with one slash more or less leads to the same
document and not to the same id, so the id found for a URI is the document's exactly
when the URI is the document's.
-/
import Pegium.Workspace.DefaultDocuments

namespace Pegium

open Function (update)

namespace DefaultDocuments

variable {fs : FileSystem} {s s' : DefaultDocuments} {d d' : ManagedDocument} {u v : Uri} {id : ℕ}

/-- The document is filed under its URI. -/
def Stored (s : DefaultDocuments) (d : ManagedDocument) : Prop :=
  s.documents.find (splitSegments d.uri) = some d

/-- A URI that can be a key: normalized and not empty. -/
structure Key (fs : FileSystem) (uri : Uri) : Prop where
  normalized : normalize_uri fs uri = .ok uri
  ne_nil : uri ≠ []

structure Coherent (fs : FileSystem) (s : DefaultDocuments) : Prop where
  unique : s.documents.Unique
  /-- A document is filed under its URI only, which is a key. -/
  filed : ∀ {path d}, s.documents.find path = some d → path = splitSegments d.uri ∧ Key fs d.uri
  byId : ∀ id d, s.documentsById id = some d ↔ s.Stored d ∧ s.id d = id
  bound : ∀ {d}, s.Stored d → s.documentIdsByUri d.uri = some (s.id d)
  ids : ∀ uri id, s.documentIdsByUri uri = some id ↔ s.documentUrisById id = some uri
  range : ∀ {uri id}, s.documentIdsByUri uri = some id →
    uri ≠ [] ∧ id ≠ invalidDocumentId ∧ id < 2 ^ 32 ∧ id < s.nextDocumentId
  counter : s.nextDocumentId < 2 ^ 32

theorem coherent_initial (state : ManagedDocument → DocumentState) :
    Coherent fs { state := state } where
  unique := Trie.unique_empty
  filed := by
    intro path d h
    rw [Trie.find_empty] at h
    cases h
  byId := by
    intro id d
    constructor
    · intro h
      cases h
    · rintro ⟨h, _⟩
      rw [Stored, Trie.find_empty] at h
      cases h
  bound := by
    intro d h
    rw [Stored, Trie.find_empty] at h
    cases h
  ids := by
    intro uri id
    constructor
    · intro h
      cases h
    · intro h
      cases h
  range := by
    intro uri id h
    cases h
  counter := by
    show 1 < 2 ^ 32
    decide

/-! ### Lookup in a coherent registry -/

theorem getDocument_of_normalize (hv : normalize_uri fs u = .ok v) (hne : v ≠ []) :
    s.getDocument fs u = .ok (s.documents.find (splitSegments v)) := by
  rw [getDocument, hv]
  show (if v = [] then _ else _) = _
  rw [if_neg hne]
  exact UriTrie.find_eq (normalize_uri_idempotent hv) _

namespace Coherent

variable (hs : Coherent fs s)
include hs

theorem key (h : s.Stored d) : Key fs d.uri := (hs.filed h).2

theorem find_iff (path : List (List UInt8)) :
    s.documents.find path = some d ↔ path = splitSegments d.uri ∧ s.Stored d := by
  constructor
  · intro h
    obtain ⟨rfl, _⟩ := hs.filed h
    exact ⟨rfl, h⟩
  · rintro ⟨rfl, h⟩
    exact h

theorem id_injective (h : s.documentIdsByUri u = some id) (h' : s.documentIdsByUri v = some id) :
    u = v :=
  Option.some.inj (((hs.ids u id).mp h).symm.trans ((hs.ids v id).mp h'))

/-- Different stored documents have different ids. -/
theorem eq_of_id_eq (h : s.Stored d) (h' : s.Stored d') (hid : s.id d = s.id d') : d = d' := by
  have huri : d.uri = d'.uri := hs.id_injective (hs.bound h) (hid ▸ hs.bound h')
  rw [Stored, huri] at h
  exact Option.some.inj (h.symm.trans h')

theorem mem_all : d ∈ s.all ↔ s.Stored d := by
  rw [all, Trie.mem_values hs.unique]
  constructor
  · rintro ⟨path, h⟩
    exact ((hs.find_iff path).mp h).2
  · exact fun h => ⟨_, h⟩

/-- The documents filed below a path. -/
theorem mem_findAll (path : List (List UInt8)) :
    d ∈ s.documents.findAll path ↔ s.Stored d ∧ path <+: splitSegments d.uri := by
  rw [Trie.mem_findAll hs.unique]
  constructor
  · rintro ⟨path', h⟩
    obtain ⟨hpath, h⟩ := (hs.find_iff _).mp h
    exact ⟨h, path', hpath⟩
  · rintro ⟨h, path', hpath⟩
    exact ⟨path', (hs.find_iff _).mpr ⟨hpath, h⟩⟩

theorem getDocument_uri_iff : s.getDocument fs d.uri = .ok (some d) ↔ s.Stored d := by
  constructor
  · intro h
    cases hv : normalize_uri fs d.uri with
    | error e =>
      rw [getDocument, hv] at h
      cases h
    | ok v =>
      have hne : v ≠ [] := by
        rintro rfl
        rw [getDocument, hv] at h
        cases h
      rw [getDocument_of_normalize hv hne] at h
      exact ((hs.find_iff _).mp (Except.ok.inj h)).2
  · intro h
    rw [getDocument_of_normalize (hs.key h).normalized (hs.key h).ne_nil, h]

theorem getDocumentById_iff : s.getDocumentById id = some d ↔ s.Stored d ∧ s.id d = id := by
  unfold getDocumentById
  split_ifs with hid
  · constructor
    · intro h
      cases h
    · rintro ⟨h, rfl⟩
      exact absurd hid (hs.range (hs.bound h)).2.1
  · exact hs.byId id d

end Coherent

/-! ### Ids -/

/-- A new id, if one is needed, is not the invalid one; the counter wraps after it. -/
def Counts (s : DefaultDocuments) (uri : Uri) : Prop :=
  s.documentIdsByUri uri = none → s.nextDocumentId ≠ invalidDocumentId

theorem ensure_of_some (h : s.documentIdsByUri u = some id) :
    s.ensureDocumentIdLocked u = (id, s) := by
  rw [ensureDocumentIdLocked, h]

@[simp] theorem ensure_documents :
    (s.ensureDocumentIdLocked u).2.documents = s.documents := by
  unfold ensureDocumentIdLocked
  split <;> rfl

@[simp] theorem ensure_documentsById :
    (s.ensureDocumentIdLocked u).2.documentsById = s.documentsById := by
  unfold ensureDocumentIdLocked
  split <;> rfl

@[simp] theorem ensure_id : (s.ensureDocumentIdLocked u).2.id = s.id := by
  unfold ensureDocumentIdLocked
  split <;> rfl

/-- The id is the one the URI has afterwards, and no other URI gets one. -/
theorem ensure_idsByUri (v : Uri) :
    (s.ensureDocumentIdLocked u).2.documentIdsByUri v
      = if v = u then some (s.ensureDocumentIdLocked u).1 else s.documentIdsByUri v := by
  cases h : s.documentIdsByUri u with
  | some id =>
    rw [ensure_of_some h]
    split_ifs with hv
    · rw [hv, h]
    · rfl
  | none =>
    rw [ensureDocumentIdLocked, h]
    show update s.documentIdsByUri u (some s.nextDocumentId) v = _
    rw [Function.update_apply]

namespace Coherent

variable (hs : Coherent fs s)
include hs

theorem fresh : s.documentUrisById s.nextDocumentId = none := by
  cases huri : s.documentUrisById s.nextDocumentId with
  | none => rfl
  | some uri =>
    have hlt := (hs.range ((hs.ids uri _).mpr huri)).2.2.2
    exact absurd hlt (Nat.lt_irrefl _)

theorem ensure (hu : u ≠ []) (hcounts : s.Counts u) :
    Coherent fs (s.ensureDocumentIdLocked u).2 := by
  cases h : s.documentIdsByUri u with
  | some id =>
    rw [ensure_of_some h]
    exact hs
  | none =>
    have hnext : s.nextDocumentId ≠ invalidDocumentId := hcounts h
    have hfresh : s.documentUrisById s.nextDocumentId = none := hs.fresh
    rw [ensureDocumentIdLocked, h]
    refine
      { unique := hs.unique, filed := hs.filed, byId := hs.byId, bound := ?_, ids := ?_,
        range := ?_, counter := Nat.mod_lt _ (by decide) }
    · intro d hd
      have hne : d.uri ≠ u := by
        rintro rfl
        rw [hs.bound hd] at h
        cases h
      show update s.documentIdsByUri u (some s.nextDocumentId) d.uri = some (s.id d)
      rw [Function.update_of_ne hne]
      exact hs.bound hd
    · intro uri id
      show update s.documentIdsByUri u (some s.nextDocumentId) uri = some id ↔
        (if (s.documentUrisById s.nextDocumentId).isSome then s.documentUrisById
          else update s.documentUrisById s.nextDocumentId (some u)) id = some uri
      rw [hfresh, if_neg (show ¬(none : Option Uri).isSome = true from Bool.false_ne_true),
        Function.update_apply, Function.update_apply]
      split_ifs with huri hid hid
      · rw [huri, hid]
        exact ⟨fun _ => rfl, fun _ => rfl⟩
      · constructor
        · intro heq
          exact absurd (Option.some.inj heq).symm hid
        · intro heq
          rw [huri, ← hs.ids, h] at heq
          cases heq
      · constructor
        · intro heq
          rw [hs.ids, hid, hfresh] at heq
          cases heq
        · intro heq
          exact absurd (Option.some.inj heq).symm huri
      · exact hs.ids uri id
    · intro uri id huri
      replace huri : update s.documentIdsByUri u (some s.nextDocumentId) uri = some id := huri
      show uri ≠ [] ∧ id ≠ invalidDocumentId ∧ id < 2 ^ 32 ∧
        id < (s.nextDocumentId + 1) % 2 ^ 32
      have hcounter : s.nextDocumentId < 2 ^ 32 := hs.counter
      have hsucc : (s.nextDocumentId + 1) % 2 ^ 32 = s.nextDocumentId + 1 := by
        unfold invalidDocumentId at hnext
        omega
      rw [Function.update_apply] at huri
      split_ifs at huri with heq
      · cases huri
        refine ⟨heq ▸ hu, hnext, hcounter, ?_⟩
        rw [hsucc]
        exact Nat.lt_succ_self _
      · obtain ⟨huri', hid, hlt, hbelow⟩ := hs.range huri
        refine ⟨huri', hid, hlt, ?_⟩
        rw [hsucc]
        exact Nat.lt_succ_of_lt hbelow

/-! ### Adding a document -/

omit hs in
theorem addDocumentLocked_eq (h : normalize_uri fs d.uri = .ok d.uri) :
    s.addDocumentLocked fs d = .ok (d, { (s.ensureDocumentIdLocked d.uri).2 with
      id := update s.id d (s.ensureDocumentIdLocked d.uri).1
      documents := s.documents.insert d (splitSegments d.uri)
      documentsById :=
        update s.documentsById (s.ensureDocumentIdLocked d.uri).1 (some d) }) := by
  unfold addDocumentLocked
  dsimp only
  rw [ensure_documents, ensure_documentsById, ensure_id, UriTrie.insert_eq h]
  rfl

theorem addDocumentLocked (hkey : Key fs d.uri) (hcounts : s.Counts d.uri)
    (habsent : s.documents.find (splitSegments d.uri) = none)
    (h : s.addDocumentLocked fs d = .ok (d', s')) : Coherent fs s' := by
  rw [addDocumentLocked_eq hkey.normalized] at h
  cases h
  have hs₁ : Coherent fs (s.ensureDocumentIdLocked d.uri).2 := hs.ensure hkey.ne_nil hcounts
  have hid : (s.ensureDocumentIdLocked d.uri).2.documentIdsByUri d.uri
      = some (s.ensureDocumentIdLocked d.uri).1 := by
    rw [ensure_idsByUri, if_pos rfl]
  generalize (s.ensureDocumentIdLocked d.uri).1 = id at *
  -- The document itself is stored, and what was stored before.
  have hfind : ∀ path e, (s.documents.insert d (splitSegments d.uri)).find path = some e ↔
      (path = splitSegments d.uri ∧ e = d) ∨ (path ≠ splitSegments d.uri ∧
        s.documents.find path = some e) := by
    intro path e
    rw [Trie.find_insert]
    split_ifs with hpath
    · constructor
      · intro heq
        exact .inl ⟨hpath, (Option.some.inj heq).symm⟩
      · rintro (⟨_, rfl⟩ | ⟨hne, _⟩)
        · rfl
        · exact absurd hpath hne
    · constructor
      · exact fun heq => .inr ⟨hpath, heq⟩
      · rintro (⟨heq, _⟩ | ⟨_, heq⟩)
        · exact absurd heq hpath
        · exact heq
  have hne : ∀ e, s.Stored e → e ≠ d := by
    rintro e he rfl
    rw [Stored, habsent] at he
    cases he
  have hold : ∀ e, s.Stored e → splitSegments e.uri ≠ splitSegments d.uri := by
    intro e he heq
    rw [Stored, heq, habsent] at he
    cases he
  have hbound : ∀ e, s.Stored e →
      (s.ensureDocumentIdLocked d.uri).2.documentIdsByUri e.uri = some (s.id e) := by
    intro e he
    have := hs₁.bound (d := e) (by rw [Stored, ensure_documents]; exact he)
    rwa [ensure_id] at this
  refine
    { unique := hs.unique.insert _ _, filed := ?_, byId := ?_, bound := ?_, ids := hs₁.ids,
      range := hs₁.range, counter := hs₁.counter }
  · intro path e he
    rcases (hfind path e).mp he with ⟨rfl, rfl⟩ | ⟨_, he⟩
    · exact ⟨rfl, hkey⟩
    · exact hs.filed he
  · intro id' e
    show update s.documentsById id (some d) id' = some e ↔
      (s.documents.insert d (splitSegments d.uri)).find (splitSegments e.uri) = some e ∧
        update s.id d id e = id'
    rw [hfind, Function.update_apply, Function.update_apply]
    constructor
    · intro heq
      split_ifs at heq with hid'
      · cases heq
        exact ⟨.inl ⟨rfl, rfl⟩, by rw [if_pos rfl, hid']⟩
      · obtain ⟨he, hide⟩ := (hs.byId id' e).mp heq
        exact ⟨.inr ⟨hold e he, he⟩, by rw [if_neg (hne e he), hide]⟩
    · rintro ⟨⟨_, rfl⟩ | ⟨_, he⟩, hide⟩
      · rw [if_pos rfl] at hide
        rw [if_pos hide.symm]
      · have he' : s.Stored e := he
        rw [if_neg (hne e he')] at hide
        have hid' : id' ≠ id := by
          rintro rfl
          have := hbound e he'
          rw [hide] at this
          exact hold e he' (by rw [hs₁.id_injective this hid])
        rw [if_neg hid']
        exact (hs.byId id' e).mpr ⟨he', hide⟩
  · intro e he
    show (s.ensureDocumentIdLocked d.uri).2.documentIdsByUri e.uri = some (update s.id d id e)
    rw [Function.update_apply]
    rcases (hfind _ e).mp he with ⟨_, rfl⟩ | ⟨_, he⟩
    · rw [if_pos rfl]
      exact hid
    · rw [if_neg (hne e he)]
      exact hbound e he

/-! ### Deleting -/

/-- The registry without what is filed below a path. -/
theorem erase (path : List (List UInt8)) (hdocuments : s'.documents = s.documents.erase path)
    (hbyId : ∀ id e, s'.documentsById id = some e ↔
      s.documentsById id = some e ∧ ¬ path <+: splitSegments e.uri)
    (hids : s'.documentIdsByUri = s.documentIdsByUri)
    (huris : s'.documentUrisById = s.documentUrisById)
    (hnext : s'.nextDocumentId = s.nextDocumentId) (hid : s'.id = s.id) : Coherent fs s' := by
  have hfind : ∀ path' e, s'.documents.find path' = some e ↔
      s.documents.find path' = some e ∧ ¬ path <+: path' := by
    intro path' e
    rw [hdocuments, Trie.find_erase]
    split_ifs with h
    · constructor
      · intro heq
        cases heq
      · exact fun heq => absurd h heq.2
    · exact ⟨fun heq => ⟨heq, h⟩, fun heq => heq.1⟩
  have hstored : ∀ e, s'.Stored e ↔ s.Stored e ∧ ¬ path <+: splitSegments e.uri :=
    fun e => hfind _ e
  refine
    { unique := hdocuments ▸ hs.unique.erase path, filed := ?_, byId := ?_, bound := ?_,
      ids := ?_, range := ?_, counter := hnext ▸ hs.counter }
  · intro path' e he
    exact hs.filed ((hfind path' e).mp he).1
  · intro id e
    rw [hbyId, hs.byId, hstored, hid, and_right_comm]
  · intro e he
    rw [hids, hid]
    exact hs.bound ((hstored e).mp he).1
  · intro uri id
    rw [hids, huris]
    exact hs.ids uri id
  · intro uri id
    rw [hids, hnext]
    exact fun h => hs.range h

end Coherent

/-- No other document is filed below the document of the URI. -/
def NothingBelow (s : DefaultDocuments) (uri : Uri) : Prop :=
  ∀ d, s.documents.find (splitSegments uri) = some d →
    ∀ d' ∈ s.documents.findAll (splitSegments uri), d' = d

/-- What deleting one document changes. -/
theorem deleteDocumentLocked_eq (hu : normalize_uri fs u = .ok u) :
    s.deleteDocumentLocked fs u = .ok
      (match s.documents.find (splitSegments u) with
        | none => (none, s)
        | some document => (some document, { s with
            state := update s.state document .changed
            documentsById := update s.documentsById (s.id document) none
            documents := s.documents.erase (splitSegments u) })) := by
  unfold deleteDocumentLocked
  rw [UriTrie.find_eq hu, UriTrie.erase_eq hu]
  show (match s.documents.find (splitSegments u) with
    | none => _
    | some document => _) = _
  cases s.documents.find (splitSegments u) with
  | none => rfl
  | some document => rfl

/-- A document that is deleted, the only one below its path. -/
structure Deletes (s : DefaultDocuments) (path : List (List UInt8)) (d : ManagedDocument)
    (s' : DefaultDocuments) : Prop where
  stored : s.Stored d
  path_eq : path = splitSegments d.uri
  alone : ∀ e, s.Stored e → (path <+: splitSegments e.uri ↔ e = d)
  eq : s' = { s with
    state := update s.state d .changed
    documentsById := update s.documentsById (s.id d) none
    documents := s.documents.erase path }

theorem Coherent.deletes_of_deleteDocumentLocked (hs : Coherent fs s)
    (hu : normalize_uri fs u = .ok u) (hbelow : s.NothingBelow u) {r : Option ManagedDocument}
    (h : s.deleteDocumentLocked fs u = .ok (r, s')) :
    (r = none ∧ s' = s) ∨ ∃ d, r = some d ∧ s.Deletes (splitSegments u) d s' := by
  rw [deleteDocumentLocked_eq hu] at h
  cases hfind : s.documents.find (splitSegments u) with
  | none =>
    rw [hfind] at h
    cases h
    exact .inl ⟨rfl, rfl⟩
  | some d =>
    rw [hfind] at h
    cases h
    obtain ⟨hpath, hstored⟩ := (hs.find_iff _).mp hfind
    refine .inr ⟨d, rfl, hstored, hpath, ?_, rfl⟩
    intro e he
    constructor
    · exact fun hinitial => hbelow d hfind e ((hs.mem_findAll _).mpr ⟨he, hinitial⟩)
    · rintro rfl
      rw [hpath]

theorem Deletes.stored_iff {path : List (List UInt8)} (h : s.Deletes path d s')
    (e : ManagedDocument) : s'.Stored e ↔ s.Stored e ∧ e ≠ d := by
  rw [h.eq]
  show (s.documents.erase path).find (splitSegments e.uri) = some e ↔ _
  rw [Trie.find_erase]
  split_ifs with hinitial
  · constructor
    · intro heq
      cases heq
    · rintro ⟨he, hne⟩
      exact absurd ((h.alone e he).mp hinitial) hne
  · constructor
    · intro he
      refine ⟨he, ?_⟩
      rintro rfl
      exact hinitial ((h.alone e he).mpr rfl)
    · exact fun he => he.1

theorem Deletes.coherent {path : List (List UInt8)} (h : s.Deletes path d s')
    (hs : Coherent fs s) : Coherent fs s' := by
  have hbyId : s'.documentsById = update s.documentsById (s.id d) none := by
    rw [h.eq]
  refine hs.erase path (by rw [h.eq]) ?_ (by rw [h.eq]) (by rw [h.eq]) (by rw [h.eq])
    (by rw [h.eq])
  intro id e
  rw [hbyId, Function.update_apply]
  split_ifs with hid
  · constructor
    · intro heq
      cases heq
    · rintro ⟨heq, hinitial⟩
      obtain ⟨he, hide⟩ := (hs.byId id e).mp heq
      have hed : e = d := hs.eq_of_id_eq he h.stored (hide.trans hid)
      exact absurd ((h.alone e he).mpr hed) hinitial
  · constructor
    · intro heq
      obtain ⟨he, hide⟩ := (hs.byId id e).mp heq
      refine ⟨heq, fun hinitial => hid ?_⟩
      rw [← hide, (h.alone e he).mp hinitial]
    · exact fun heq => heq.1

/-- The table by id without the documents of a list. -/
theorem foldl_update_none (ids : ManagedDocument → ℕ) (removed : List ManagedDocument)
    (byId : ℕ → Option ManagedDocument) (id : ℕ) :
    removed.foldl (fun byId d => update byId (ids d) none) byId id
      = if id ∈ removed.map ids then none else byId id := by
  induction removed generalizing byId with
  | nil => rfl
  | cons d removed ih =>
    rw [List.foldl_cons, ih, List.map_cons, Function.update_apply]
    by_cases hmem : id ∈ removed.map ids
    · rw [if_pos hmem, if_pos (List.mem_cons_of_mem _ hmem)]
    · rw [if_neg hmem]
      by_cases hid : id = ids d
      · rw [if_pos hid, if_pos (hid ▸ List.mem_cons_self)]
      · rw [if_neg hid, if_neg fun h => (List.mem_cons.mp h).elim hid hmem]

theorem Coherent.deleteDocuments (hs : Coherent fs s) {r : List ManagedDocument}
    (h : s.deleteDocuments fs u = .ok (r, s')) : Coherent fs s' := by
  cases hv : normalize_uri fs u with
  | error e =>
    rw [DefaultDocuments.deleteDocuments, hv] at h
    cases h
  | ok v =>
    rw [DefaultDocuments.deleteDocuments, hv] at h
    replace h : (if v = [] then _ else _) = Except.ok (r, s') := h
    split_ifs at h with hnil
    · cases h
      exact hs
    · have hvv : normalize_uri fs v = .ok v := normalize_uri_idempotent hv
      rw [UriTrie.findAll_eq hvv, UriTrie.erase_eq hvv] at h
      cases h
      refine hs.erase (splitSegments v) rfl ?_ rfl rfl rfl rfl
      intro id e
      show (s.documents.findAll (splitSegments v)).foldl
        (fun byId d => update byId (s.id d) none) s.documentsById id = some e ↔ _
      rw [foldl_update_none]
      split_ifs with hmem
      · constructor
        · intro heq
          cases heq
        · rintro ⟨heq, hinitial⟩
          obtain ⟨he, hide⟩ := (hs.byId id e).mp heq
          obtain ⟨d, hd, hdid⟩ := List.mem_map.mp hmem
          obtain ⟨hdstored, hdprefix⟩ := (hs.mem_findAll _).mp hd
          rw [hs.eq_of_id_eq he hdstored (hide.trans hdid.symm)] at hinitial
          exact absurd hdprefix hinitial
      · constructor
        · intro heq
          obtain ⟨he, hide⟩ := (hs.byId id e).mp heq
          refine ⟨heq, fun hinitial => hmem ?_⟩
          exact List.mem_map.mpr ⟨e, (hs.mem_findAll _).mpr ⟨he, hinitial⟩, hide⟩
        · exact fun heq => heq.1

/-! ### Calls -/

/-- An id that a URI has is kept. -/
theorem ensure_urisById (hs : Coherent fs s) {uri : Uri} (h : s.documentUrisById id = some uri) :
    (s.ensureDocumentIdLocked u).2.documentUrisById id = some uri := by
  cases hu : s.documentIdsByUri u with
  | some id' =>
    rw [ensure_of_some hu]
    exact h
  | none =>
    have hfresh : s.documentUrisById s.nextDocumentId = none := hs.fresh
    have hne : id ≠ s.nextDocumentId := by
      rintro rfl
      rw [hfresh] at h
      cases h
    rw [ensureDocumentIdLocked, hu]
    show (if (s.documentUrisById s.nextDocumentId).isSome then s.documentUrisById
      else update s.documentUrisById s.nextDocumentId (some u)) id = some uri
    rw [hfresh, if_neg (show ¬(none : Option Uri).isSome = true from Bool.false_ne_true),
      Function.update_of_ne hne]
    exact h

/-- What a call may do to a coherent registry. -/
inductive Changes (fs : FileSystem) (s : DefaultDocuments) : DefaultDocuments → Prop
  | same : Changes fs s s
  | ensure {u : Uri} : u ≠ [] → s.Counts u → Changes fs s (s.ensureDocumentIdLocked u).2
  | add {d d' : ManagedDocument} {s' : DefaultDocuments} : Key fs d.uri → s.Counts d.uri →
    s.documents.find (splitSegments d.uri) = none →
    s.addDocumentLocked fs d = .ok (d', s') → Changes fs s s'
  | delete {path : List (List UInt8)} {d : ManagedDocument} {s' : DefaultDocuments} :
    s.Deletes path d s' → Changes fs s s'
  | deleteAll {u : Uri} {r : List ManagedDocument} {s' : DefaultDocuments} :
    s.deleteDocuments fs u = .ok (r, s') → Changes fs s s'

/-- **A call that changes the registry keeps it coherent.** -/
theorem Changes.coherent (h : Changes fs s s') (hs : Coherent fs s) : Coherent fs s' := by
  cases h with
  | same => exact hs
  | ensure hu hcounts => exact hs.ensure hu hcounts
  | add hkey hcounts habsent h => exact hs.addDocumentLocked hkey hcounts habsent h
  | delete h => exact h.coherent hs
  | deleteAll h => exact hs.deleteDocuments h

theorem deleteDocuments_urisById {r : List ManagedDocument}
    (h : s.deleteDocuments fs u = .ok (r, s')) : s'.documentUrisById = s.documentUrisById := by
  cases hv : normalize_uri fs u with
  | error e =>
    rw [DefaultDocuments.deleteDocuments, hv] at h
    cases h
  | ok v =>
    rw [DefaultDocuments.deleteDocuments, hv] at h
    replace h : (if v = [] then _ else _) = Except.ok (r, s') := h
    split_ifs at h with hnil
    · cases h
      rfl
    · have hvv : normalize_uri fs v = .ok v := normalize_uri_idempotent hv
      rw [UriTrie.findAll_eq hvv, UriTrie.erase_eq hvv] at h
      cases h
      rfl

/-- **An id stays bound to its URI.** -/
theorem Changes.urisById (h : Changes fs s s') (hs : Coherent fs s) {uri : Uri}
    (huri : s.documentUrisById id = some uri) : s'.documentUrisById id = some uri := by
  cases h with
  | same => exact huri
  | ensure _ _ => exact ensure_urisById hs huri
  | add hkey hcounts _ h =>
    rw [Coherent.addDocumentLocked_eq hkey.normalized] at h
    cases h
    exact ensure_urisById hs huri
  | delete h =>
    rw [h.eq]
    exact huri
  | deleteAll h =>
    rw [deleteDocuments_urisById h]
    exact huri

end DefaultDocuments

/-- Where a call keeps the tables in agreement: a new id is not the invalid one, the
factory gives a document with a key for its URI, as it promises, and a single document is
deleted where nothing is filed below it. -/
def StoreCall.Safe (fs : FileSystem) (s : DefaultDocuments) : StoreCall → Prop
  | addDocument document => s.Counts document.uri
  | getOrCreateDocumentId uri => ∀ v, normalize_uri fs uri = .ok v → s.Counts v
  | getOrCreateDocument _ fromUri => ∀ d ∈ fromUri, DefaultDocuments.Key fs d.uri ∧ s.Counts d.uri
  | createDocument fromString => ∀ d ∈ fromString, DefaultDocuments.Key fs d.uri ∧ s.Counts d.uri
  | deleteDocument uri => ∀ v, normalize_uri fs uri = .ok v → s.NothingBelow v
  | deleteDocumentById documentId => ∀ d ∈ s.documentsById documentId, s.NothingBelow d.uri
  | deleteDocuments _ => True

namespace DefaultDocuments

variable {fs : FileSystem} {s s' : DefaultDocuments} {d d' : ManagedDocument} {u v : Uri} {id : ℕ}

theorem changes_of_addDocument (hcounts : s.Counts d.uri) (h : s.addDocument fs d = .ok s') :
    Changes fs s s' := by
  unfold addDocument at h
  split_ifs at h with hnil
  cases hv : normalize_uri fs d.uri with
  | error e =>
    rw [hv] at h
    cases h
  | ok v =>
    rw [hv] at h
    replace h : (if d.uri ≠ v then _ else _) = Except.ok s' := h
    split_ifs at h with hne
    have heq : v = d.uri := (not_not.mp hne).symm
    have hkey : Key fs d.uri := ⟨heq ▸ hv, hnil⟩
    rw [UriTrie.has_eq hkey.normalized] at h
    replace h : (if (s.documents.find (splitSegments d.uri)).isSome = true then _ else _)
      = Except.ok s' := h
    split_ifs at h with hsome
    have habsent : s.documents.find (splitSegments d.uri) = none :=
      Option.not_isSome_iff_eq_none.mp hsome
    cases hadd : s.addDocumentLocked fs d with
    | error e =>
      rw [hadd] at h
      cases h
    | ok r =>
      rw [hadd] at h
      cases h
      exact .add hkey hcounts habsent hadd

theorem changes_of_createDocument {made : FactoryResult}
    (hsafe : ∀ d ∈ made, Key fs d.uri ∧ s.Counts d.uri)
    (h : s.createDocument fs made = .ok (d', s')) : Changes fs s s' := by
  unfold createDocument at h
  cases made with
  | none => cases h
  | some d =>
    obtain ⟨hkey, hcounts⟩ := hsafe d rfl
    dsimp only at h
    rw [UriTrie.has_eq hkey.normalized] at h
    replace h : (if (s.documents.find (splitSegments d.uri)).isSome = true then _ else _)
      = Except.ok (d', s') := h
    split_ifs at h with hsome
    exact .add hkey hcounts (Option.not_isSome_iff_eq_none.mp hsome) h

theorem changes_of_getOrCreateDocument {made : FactoryResult} {r : Option ManagedDocument}
    (hsafe : ∀ d ∈ made, Key fs d.uri ∧ s.Counts d.uri)
    (h : s.getOrCreateDocument fs u made = .ok (r, s')) : Changes fs s s' := by
  unfold getOrCreateDocument at h
  cases hv : normalize_uri fs u with
  | error e =>
    rw [hv] at h
    cases h
  | ok v =>
    rw [hv] at h
    replace h : (if v = [] then _ else _) = Except.ok (r, s') := h
    split_ifs at h with hnil
    · cases h
      exact .same
    · rw [UriTrie.find_eq (normalize_uri_idempotent hv)] at h
      cases hfind : s.documents.find (splitSegments v) with
      | some existing =>
        rw [hfind] at h
        cases h
        exact .same
      | none =>
        rw [hfind] at h
        cases made with
        | none => cases h
        | some d =>
          obtain ⟨hkey, hcounts⟩ := hsafe d rfl
          dsimp only [bind, Except.bind] at h
          rw [UriTrie.find_eq hkey.normalized] at h
          cases hfind' : s.documents.find (splitSegments d.uri) with
          | some existing =>
            rw [hfind'] at h
            cases h
            exact .same
          | none =>
            rw [hfind'] at h
            cases hadd : s.addDocumentLocked fs d with
            | error e =>
              dsimp only at h
              rw [hadd] at h
              cases h
            | ok r =>
              dsimp only at h
              rw [hadd] at h
              cases h
              exact .add hkey hcounts hfind' hadd

/-- A call of `deleteDocument` ends in the locked part, or does nothing. -/
theorem deleteDocument_cases {r : Option ManagedDocument}
    (h : s.deleteDocument fs u = .ok (r, s')) :
    (r = none ∧ s' = s) ∨ ∃ v, normalize_uri fs u = .ok v ∧
      s.deleteDocumentLocked fs v = .ok (r, s') := by
  unfold deleteDocument at h
  cases hv : normalize_uri fs u with
  | error e =>
    rw [hv] at h
    cases h
  | ok v =>
    rw [hv] at h
    replace h : (if v = [] then _ else _) = Except.ok (r, s') := h
    split_ifs at h with hnil
    · cases h
      exact .inl ⟨rfl, rfl⟩
    · exact .inr ⟨v, rfl, h⟩

theorem deleteDocumentById_cases {r : Option ManagedDocument}
    (h : s.deleteDocumentById fs id = .ok (r, s')) :
    (r = none ∧ s' = s) ∨ ∃ d, s.documentsById id = some d ∧
      s.deleteDocumentLocked fs d.uri = .ok (r, s') := by
  unfold deleteDocumentById at h
  split_ifs at h with hid
  · cases h
    exact .inl ⟨rfl, rfl⟩
  · cases hd : s.documentsById id with
    | none =>
      rw [hd] at h
      cases h
      exact .inl ⟨rfl, rfl⟩
    | some d =>
      rw [hd] at h
      exact .inr ⟨d, rfl, h⟩

/-- What a safe deletion of one document does, by URI or by id. -/
theorem Coherent.deletes_of_deleteDocument (hs : Coherent fs s)
    (hsafe : (StoreCall.deleteDocument u).Safe fs s) {r : Option ManagedDocument}
    (h : s.deleteDocument fs u = .ok (r, s')) :
    (r = none ∧ s' = s) ∨ ∃ d path, r = some d ∧ s.Deletes path d s' := by
  rcases deleteDocument_cases h with hsame | ⟨v, hv, h⟩
  · exact .inl hsame
  · rcases hs.deletes_of_deleteDocumentLocked (normalize_uri_idempotent hv) (hsafe v hv) h
      with hsame | ⟨d, hr, hdeletes⟩
    · exact .inl hsame
    · exact .inr ⟨d, _, hr, hdeletes⟩

theorem Coherent.deletes_of_deleteDocumentById (hs : Coherent fs s)
    (hsafe : (StoreCall.deleteDocumentById id).Safe fs s) {r : Option ManagedDocument}
    (h : s.deleteDocumentById fs id = .ok (r, s')) :
    (r = none ∧ s' = s) ∨ ∃ d path, r = some d ∧ s.Deletes path d s' := by
  rcases deleteDocumentById_cases h with hsame | ⟨d, hd, h⟩
  · exact .inl hsame
  · have hkey : Key fs d.uri := hs.key ((hs.byId id d).mp hd).1
    rcases hs.deletes_of_deleteDocumentLocked hkey.normalized (hsafe d hd) h
      with hsame | ⟨d', hr, hdeletes⟩
    · exact .inl hsame
    · exact .inr ⟨d', _, hr, hdeletes⟩

theorem ok_of_map_snd {α : Type} {x : Except StoreError (α × DefaultDocuments)}
    (h : x.map Prod.snd = .ok s') : ∃ r, x = .ok (r, s') := by
  cases x with
  | error e => cases h
  | ok r =>
    cases h
    exact ⟨r.1, rfl⟩

/-- **A safe call changes a coherent registry in one of five ways.** -/
theorem Coherent.changes (hs : Coherent fs s) {call : StoreCall} (hsafe : call.Safe fs s)
    (h : call.perform fs s = .ok s') : Changes fs s s' := by
  cases call with
  | addDocument document => exact changes_of_addDocument hsafe h
  | getOrCreateDocumentId uri =>
    cases hv : normalize_uri fs uri with
    | error e =>
      rw [StoreCall.perform, getOrCreateDocumentId, hv] at h
      cases h
    | ok v =>
      rw [StoreCall.perform, getOrCreateDocumentId, hv] at h
      replace h : Except.map Prod.snd (if v = [] then .ok (invalidDocumentId, s)
        else .ok (s.ensureDocumentIdLocked v)) = Except.ok s' := h
      split_ifs at h with hnil
      · cases h
        exact .same
      · cases h
        exact .ensure hnil (hsafe v hv)
  | getOrCreateDocument uri fromUri =>
    obtain ⟨r, hr⟩ := ok_of_map_snd h
    exact changes_of_getOrCreateDocument hsafe hr
  | createDocument fromString =>
    obtain ⟨r, hr⟩ := ok_of_map_snd h
    exact changes_of_createDocument hsafe hr
  | deleteDocument uri =>
    obtain ⟨r, hr⟩ := ok_of_map_snd h
    rcases hs.deletes_of_deleteDocument hsafe hr with ⟨_, rfl⟩ | ⟨d, path, _, hdeletes⟩
    · exact .same
    · exact .delete hdeletes
  | deleteDocumentById documentId =>
    obtain ⟨r, hr⟩ := ok_of_map_snd h
    rcases hs.deletes_of_deleteDocumentById hsafe hr with ⟨_, rfl⟩ | ⟨d, path, _, hdeletes⟩
    · exact .same
    · exact .delete hdeletes
  | deleteDocuments uri =>
    obtain ⟨r, hr⟩ := ok_of_map_snd h
    exact .deleteAll hr

theorem Coherent.step (hs : Coherent fs s) {call : StoreCall} (hsafe : call.Safe fs s)
    (h : (documentsMachine fs).step s call = some s') : Changes fs s s' := by
  cases hperform : call.perform fs s with
  | ok s'' =>
    simp only [documentsMachine, hperform] at h
    cases h
    exact hs.changes hsafe hperform
  | error e =>
    simp only [documentsMachine, hperform] at h
    cases h
    exact .same

theorem Coherent.reaches (hs : Coherent fs s)
    (h : (documentsMachine fs).Reaches (fun s call => call.Safe fs s) s s') : Coherent fs s' :=
  h.invariant hs fun _ _ _ hs hsafe hstep => (hs.step hsafe hstep).coherent hs

theorem Coherent.reaches_urisById (hs : Coherent fs s)
    (h : (documentsMachine fs).Reaches (fun s call => call.Safe fs s) s s') {uri : Uri}
    (huri : s.documentUrisById id = some uri) : s'.documentUrisById id = some uri := by
  have hboth : Coherent fs s' ∧ s'.documentUrisById id = some uri := by
    refine @Machine.Reaches.invariant _ _ _ _ _ _
      (fun s => Coherent fs s ∧ s.documentUrisById id = some uri) h ⟨hs, huri⟩ ?_
    intro s call s' hboth hsafe hstep
    have hchanges : Changes fs s s' := hboth.1.step hsafe hstep
    exact ⟨hchanges.coherent hboth.1, hchanges.urisById hboth.1 hboth.2⟩
  exact hboth.2

/-- **The id found for a URI is that of the document found for it, unless the URI has a
slash more or less.** -/
theorem Coherent.getDocumentId_iff (hs : Coherent fs s)
    (h : s.getDocument fs u = .ok (some d)) :
    (s.getDocumentId fs u = .ok (s.id d) ↔ normalize_uri fs u = .ok d.uri) ∧
      ∃ v, normalize_uri fs u = .ok v ∧
        (v = d.uri ∨ v = d.uri ++ [slash] ∨ d.uri = v ++ [slash]) := by
  cases hv : normalize_uri fs u with
  | error e =>
    rw [getDocument, hv] at h
    cases h
  | ok v =>
    have hne : v ≠ [] := by
      rintro rfl
      rw [getDocument, hv] at h
      cases h
    rw [getDocument_of_normalize hv hne] at h
    obtain ⟨hpath, hstored⟩ := (hs.find_iff _).mp (Except.ok.inj h)
    have hbound : s.documentIdsByUri d.uri = some (s.id d) := hs.bound hstored
    have hid : s.getDocumentId fs u = .ok ((s.documentIdsByUri v).getD invalidDocumentId) := by
      rw [getDocumentId, hv]
      show (if v = [] then _ else _) = _
      rw [if_neg hne]
      rfl
    refine ⟨?_, v, rfl, eq_or_slash_of_splitSegments_eq hpath⟩
    rw [hid]
    constructor
    · intro heq
      cases hfound : s.documentIdsByUri v with
      | none =>
        rw [hfound] at heq
        exact absurd (Except.ok.inj heq).symm (hs.range hbound).2.1
      | some id =>
        rw [hfound] at heq
        have hid' : id = s.id d := Except.ok.inj heq
        have hvd : v = d.uri := hs.id_injective (hid' ▸ hfound) hbound
        rw [hvd]
    · intro heq
      have hvd : v = d.uri := Except.ok.inj heq
      rw [hvd, hbound]
      rfl

theorem Coherent.getDocumentUri_iff (hs : Coherent fs s) {uri : Uri} (hne : uri ≠ []) :
    s.getDocumentUri id = uri ↔ s.documentIdsByUri uri = some id := by
  rw [hs.ids, getDocumentUri]
  constructor
  · intro h
    split_ifs at h with hid
    · exact absurd h.symm hne
    · cases huri : s.documentUrisById id with
      | none =>
        rw [huri] at h
        exact absurd h.symm hne
      | some uri' =>
        rw [huri] at h
        exact congrArg some h
  · intro h
    rw [if_neg (hs.range ((hs.ids uri id).mpr h)).2.1, h]
    rfl

/-- A deletion of one document leaves the others where they are. -/
theorem Deletes.others {path : List (List UInt8)} (h : s.Deletes path d s') (hs : Coherent fs s)
    {e : ManagedDocument} (he : s.Stored e) (hne : e ≠ d) :
    s'.getDocument fs e.uri = .ok (some e) ∧ s'.getDocumentById (s.id e) = some e := by
  have hs' : Coherent fs s' := h.coherent hs
  have he' : s'.Stored e := (h.stored_iff e).mpr ⟨he, hne⟩
  have hid : s'.id e = s.id e := by
    rw [h.eq]
  exact ⟨hs'.getDocument_uri_iff.mpr he', hs'.getDocumentById_iff.mpr ⟨he', hid⟩⟩

end DefaultDocuments

open DefaultDocuments in
/-- **The registry is coherent in every run of safe calls**: its lookups by id, by URI
and of all documents agree; an id is bound to one URI for ever, and a URI to one id;
deleting one document leaves every other reachable; and the id found for a URI is the id
of the document found for it exactly when the URI is the document's, and otherwise there
is one slash more or less. -/
theorem documents_coherent {fs : FileSystem} {state : ManagedDocument → DocumentState}
    {s : DefaultDocuments}
    (h : (documentsMachine fs).Reaches (fun s call => call.Safe fs s) { state := state } s) :
    (∀ d, (s.getDocumentById (s.id d) = some d ↔ d ∈ s.all) ∧
      (s.getDocument fs d.uri = .ok (some d) ↔ d ∈ s.all)) ∧
    (∀ id d, s.getDocumentById id = some d → s.id d = id) ∧
    (∀ s', (documentsMachine fs).Reaches (fun s call => call.Safe fs s) s s' →
      ∀ id uri, uri ≠ [] → s.getDocumentUri id = uri →
        s'.getDocumentUri id = uri ∧ ∀ id', s'.getDocumentUri id' = uri → id' = id) ∧
    (∀ uri d s', (StoreCall.deleteDocument uri).Safe fs s →
      s.deleteDocument fs uri = .ok (some d, s') → ∀ e ∈ s.all, e ≠ d →
        s'.getDocument fs e.uri = .ok (some e) ∧ s'.getDocumentById (s.id e) = some e) ∧
    (∀ id d s', (StoreCall.deleteDocumentById id).Safe fs s →
      s.deleteDocumentById fs id = .ok (some d, s') → ∀ e ∈ s.all, e ≠ d →
        s'.getDocument fs e.uri = .ok (some e) ∧ s'.getDocumentById (s.id e) = some e) ∧
    (∀ uri d, s.getDocument fs uri = .ok (some d) →
      (s.getDocumentId fs uri = .ok (s.id d) ↔ normalize_uri fs uri = .ok d.uri) ∧
      ∃ v, normalize_uri fs uri = .ok v ∧
        (v = d.uri ∨ v = d.uri ++ [slash] ∨ d.uri = v ++ [slash])) := by
  have hs : Coherent fs s := (coherent_initial state).reaches h
  refine ⟨?_, ?_, ?_, ?_, ?_, ?_⟩
  · intro d
    rw [hs.getDocumentById_iff, hs.getDocument_uri_iff, hs.mem_all]
    exact ⟨⟨fun h => h.1, fun h => ⟨h, rfl⟩⟩, Iff.rfl⟩
  · exact fun id d hd => (hs.getDocumentById_iff.mp hd).2
  · intro s' h' id uri hne huri
    have hs' : Coherent fs s' := hs.reaches h'
    have hbound : s'.documentIdsByUri uri = some id :=
      (hs'.ids uri id).mpr (hs.reaches_urisById h'
        ((hs.ids uri id).mp ((hs.getDocumentUri_iff hne).mp huri)))
    refine ⟨(hs'.getDocumentUri_iff hne).mpr hbound, fun id' huri' => ?_⟩
    exact Option.some.inj (((hs'.getDocumentUri_iff hne).mp huri').symm.trans hbound)
  · intro uri d s' hsafe hdelete e he hne
    rcases hs.deletes_of_deleteDocument hsafe hdelete with ⟨hnone, _⟩ | ⟨d', path, hd', hdeletes⟩
    · cases hnone
    · cases hd'
      exact hdeletes.others hs (hs.mem_all.mp he) hne
  · intro id d s' hsafe hdelete e he hne
    rcases hs.deletes_of_deleteDocumentById hsafe hdelete
      with ⟨hnone, _⟩ | ⟨d', path, hd', hdeletes⟩
    · cases hnone
    · cases hd'
      exact hdeletes.others hs (hs.mem_all.mp he) hne
  · exact fun uri d hd => hs.getDocumentId_iff hd

/-! ### A document below another -/

theorem head?_slash : [slash].head? = some slash := rfl

def rootDirectory : FileSystem := ⟨[slash], true, head?_slash⟩

/-- `x:/a`. -/
def folderDocument : ManagedDocument := ⟨0, [120, 58, 47, 97]⟩

/-- `x:/a/b`. -/
def nestedDocument : ManagedDocument := ⟨1, [120, 58, 47, 97, 47, 98]⟩

/-- Both are created. -/
def nestedCalls : List StoreCall :=
  [.createDocument (some folderDocument), .createDocument (some nestedDocument)]

/-- The nested one is deleted, and the other one is still found. -/
theorem documents_coherent_nested_deleted :
    ∃ s s', (documentsMachine rootDirectory).run {} nestedCalls = some s ∧
      s.deleteDocument rootDirectory nestedDocument.uri = .ok (some nestedDocument, s') ∧
      s'.getDocument rootDirectory folderDocument.uri = .ok (some folderDocument) ∧
      s'.getDocumentById (s.id folderDocument) = some folderDocument := by
  have hfolder : DefaultDocuments.Key rootDirectory folderDocument.uri := ⟨rfl, by decide⟩
  have hnested : DefaultDocuments.Key rootDirectory nestedDocument.uri := ⟨rfl, by decide⟩
  have hsafe : (documentsMachine rootDirectory).AllowedRun
      (fun s call => call.Safe rootDirectory s) {} nestedCalls := by
    refine ⟨?_, fun s hs => ⟨?_, fun _ _ => trivial⟩⟩
    · intro d hd
      cases hd
      exact ⟨hfolder, fun _ => by decide⟩
    · intro d hd
      cases hd
      cases hs
      exact ⟨hnested, fun _ => by decide⟩
  obtain ⟨s, hs⟩ : ∃ s, (documentsMachine rootDirectory).run {} nestedCalls = some s := ⟨_, rfl⟩
  obtain ⟨s', hdelete⟩ : ∃ s', s.deleteDocument rootDirectory nestedDocument.uri
      = .ok (some nestedDocument, s') := by
    cases hs
    exact ⟨_, rfl⟩
  have hbelow : (StoreCall.deleteDocument nestedDocument.uri).Safe rootDirectory s := by
    cases hs
    intro v hv d hd d' hd'
    cases hv
    cases hd
    exact List.mem_singleton.mp hd'
  have hall : folderDocument ∈ s.all := by
    cases hs
    decide
  exact ⟨s, s', hs, hdelete, (documents_coherent (Machine.reaches_of_run hs hsafe)).2.2.2.1 _ _ _
    hbelow hdelete _ hall (by decide)⟩

/-- **Deleting a document loses the one below it**: it is still found by its id, and by
its URI no more. -/
theorem nested_document_lost :
    ∃ s, (documentsMachine rootDirectory).run {}
        (nestedCalls ++ [.deleteDocument folderDocument.uri]) = some s ∧
      s.getDocumentById 2 = some nestedDocument ∧
      s.getDocument rootDirectory nestedDocument.uri = .ok none ∧ nestedDocument ∉ s.all :=
  ⟨_, rfl, rfl, rfl, by decide⟩

end Pegium
