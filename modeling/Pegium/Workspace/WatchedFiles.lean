/-
Pegium/Workspace/WatchedFiles.lean

What a batch of watched-file events makes of the registry.

`didChangeWatchedFiles` goes over a batch twice: the deletions give the ids of the
documents at or below their URIs, the other events the ids of the files they expand
to, without those deleted.  The update deletes the former and then materializes what
is missing of the latter; what it does to the documents themselves is not looked at
here.

So the order of the events is not kept (`watched_files`): a document is gone when any
event of the batch deletes it, also one that comes before an event that creates it,
and a file without a document gets one when any other event names it.
-/
import Pegium.Workspace.Build
import Pegium.Workspace.DefaultWorkspaceManager
import Pegium.Workspace.StoreCoherence

namespace Pegium

open Function (update)

/-! ### Loops that may throw -/

/-- The invariant rule of a loop: what holds at its start and is kept by a pass holds at its
end. -/
theorem foldlM_invariant {α β ε : Type} {f : β → α → Except ε β} {P : List α → β → Prop} {b b' : β}
    (init : P [] b) (step : ∀ l a b b', P l b → f b a = .ok b' → P (l ++ [a]) b') {l : List α}
    (h : l.foldlM f b = .ok b') : P l b' := by
  -- the passes made so far are in front of those that are left
  have general : ∀ (rest done : List α) (b : β), P done b → rest.foldlM f b = .ok b' →
      P (done ++ rest) b' := by
    intro rest
    induction rest with
    | nil =>
      intro done b hb hrest
      cases hrest
      rwa [List.append_nil]
    | cons a rest ih =>
      intro done b hb hrest
      rw [List.foldlM_cons] at hrest
      cases ha : f b a with
      | error e =>
        rw [ha] at hrest
        cases hrest
      | ok b₁ =>
        rw [ha] at hrest
        have hdone := ih (done ++ [a]) b₁ (step done a b b₁ hb ha) hrest
        rwa [List.append_assoc] at hdone
  exact general l [] b init h

/-! ### Files and events -/

/-- The file system; a call that throws has no answer.  Directories are nested finitely deep. -/
structure FileSystemProvider where
  stat : Uri → Option FileSystemNode
  readDirectory : Uri → Option (List FileSystemNode)
  depth : Uri → ℕ
  nested : ∀ folder nodes, readDirectory folder = some nodes → ∀ entry ∈ nodes,
    entry.isDirectory = true → depth entry.uri < depth folder

inductive FileChangeType where
  | created
  | changed
  | deleted
  deriving DecidableEq

structure FileEvent where
  uri : Uri
  type : FileChangeType
  deriving DecidableEq

/-- What the handler asks of other services.  `isOpen` tells the URIs with an open text
document, `fromUri` is the document factory. -/
structure UpdateServices where
  fs : FileSystem
  provider : FileSystemProvider
  hasServices : Uri → Bool
  isOpen : Uri → Bool
  fromUri : Uri → DefaultDocuments.FactoryResult
  uri_of_fromUri : ∀ uri document, fromUri uri = some document → document.uri = uri

namespace UpdateServices

variable (e : UpdateServices)

/-- `traverseFolder`, of the workspace manager. -/
def traverseFolder (folder : Uri) : List Uri :=
  match _h : e.provider.readDirectory folder with
  | none => []
  | some nodes =>
    nodes.attach.flatMap fun entry =>
      if !shouldIncludeEntry e.hasServices entry.1 then []
      else if _hd : entry.1.isDirectory then traverseFolder entry.1.uri
      else if entry.1.isFile then [entry.1.uri] else []
termination_by e.provider.depth folder
decreasing_by exact e.provider.nested folder nodes _h entry.1 entry.2 _hd

/-- `searchFolder`. -/
def searchFolder (uri : Uri) : Except StoreError (List Uri) := do
  let root ← normalize_uri e.fs uri
  if root = [] then return [] else return e.traverseFolder root

/-- `find_changed_uris`: what throws while an unknown URI is expanded discards it. -/
def find_changed_uris (s : DefaultDocuments) (changedUri : Uri) :
    Except StoreError (List Uri) := do
  if (← s.hasDocument e.fs changedUri) || e.isOpen changedUri then return [changedUri]
  else
    match e.provider.stat changedUri with
    | none => return []
    | some stat =>
      if stat.isDirectory then
        match e.searchFolder changedUri with
        | .ok uris => return uris
        | .error _ => return []
      else if shouldIncludeEntry e.hasServices stat then return [changedUri]
      else return []

/-! ### The batch -/

/-- A document of a deleted URI is pushed once. -/
def pushDeleted (s : DefaultDocuments) (ids : List ℕ) (document : ManagedDocument) : List ℕ :=
  if s.id document ≠ invalidDocumentId ∧ s.id document ∉ ids then ids ++ [s.id document] else ids

/-- The first loop, at one event. -/
def collectDeleted (s : DefaultDocuments) (ids : List ℕ) (change : FileEvent) :
    Except StoreError (List ℕ) := do
  if change.type ≠ .deleted then return ids
  else
    let uri ← normalize_uri e.fs change.uri
    if uri = [] then return ids
    else return (← s.getDocuments e.fs uri).foldl (pushDeleted s) ids

/-- The second loop, at one file. -/
def collectFile (deleted : List ℕ) (state : DefaultDocuments × List ℕ) (fileUri : Uri) :
    Except StoreError (DefaultDocuments × List ℕ) := do
  let (id, s) ← state.1.getOrCreateDocumentId e.fs fileUri
  return (s, if id ∉ deleted ∧ id ∉ state.2 then state.2 ++ [id] else state.2)

/-- The second loop, at one event. -/
def collectChanged (deleted : List ℕ) (state : DefaultDocuments × List ℕ) (change : FileEvent) :
    Except StoreError (DefaultDocuments × List ℕ) := do
  if change.type = .deleted then return state
  else
    let uri ← normalize_uri e.fs change.uri
    if uri = [] then return state
    else (← e.find_changed_uris state.1 uri).foldlM (e.collectFile deleted) state

/-- `didChangeWatchedFiles`: the registry, and the ids that the update is given. -/
def didChangeWatchedFiles (s : DefaultDocuments) (changes : List FileEvent) :
    Except StoreError (DefaultDocuments × List ℕ × List ℕ) := do
  let deleted ← changes.foldlM (e.collectDeleted s) []
  let (s, changed) ← changes.foldlM (e.collectChanged deleted) (s, [])
  return (s, changed, deleted)

/-! ### The update -/

/-- A changed document that is not there is materialized, if it can be. -/
def materialize (s : DefaultDocuments) (id : ℕ) : DefaultDocuments :=
  match s.getDocumentById id with
  | some _ => s
  | none =>
    let uri := s.getDocumentUri id
    if uri = [] then s
    else
      match s.getOrCreateDocument e.fs uri (e.fromUri uri) with
      | .ok (_, s) => s
      | .error _ => s

/-- `update`, as far as it changes the registry. -/
def applyUpdate (s : DefaultDocuments) (changed deleted : List ℕ) (options : BuildOptions) :
    Except StoreError DefaultDocuments := do
  let call := Call.update changed deleted options
  let s ← call.deleted.foldlM (fun s id => (s.deleteDocumentById e.fs id).map Prod.snd) s
  return call.changed.foldl e.materialize s

/-! ### What an event is about -/

/-- A file that the workspace includes, in a folder or in one below it. -/
inductive Holds : Uri → Uri → Prop
  | file {folder : Uri} {nodes : List FileSystemNode} {entry : FileSystemNode}
      (hread : e.provider.readDirectory folder = some nodes) (hentry : entry ∈ nodes)
      (hinclude : shouldIncludeEntry e.hasServices entry = true)
      (hfile : entry.isDirectory = false ∧ entry.isFile = true) : Holds folder entry.uri
  | folder {folder : Uri} {nodes : List FileSystemNode} {entry : FileSystemNode} {file : Uri}
      (hread : e.provider.readDirectory folder = some nodes) (hentry : entry ∈ nodes)
      (hinclude : shouldIncludeEntry e.hasServices entry = true)
      (hfolder : entry.isDirectory = true) (hholds : Holds entry.uri file) : Holds folder file

/-- A file that a changed URI stands for: itself, when it has a document, is open or is a file
that the workspace includes, or what it holds as a folder. -/
inductive Expands (s : DefaultDocuments) (uri : Uri) : Uri → Prop
  | known (h : (s.documents.find (splitSegments uri)).isSome = true ∨ e.isOpen uri = true) :
      Expands s uri uri
  | file {stat : FileSystemNode} (hstat : e.provider.stat uri = some stat)
      (hfile : stat.isDirectory = false)
      (hinclude : shouldIncludeEntry e.hasServices stat = true) : Expands s uri uri
  | folder {stat : FileSystemNode} {file : Uri}
      (hunknown : s.documents.find (splitSegments uri) = none ∧ e.isOpen uri = false)
      (hstat : e.provider.stat uri = some stat) (hfolder : stat.isDirectory = true)
      (hholds : e.Holds uri file) : Expands s uri file

/-- Some event of the batch deletes the path, or a folder above it. -/
def Deletes (changes : List FileEvent) (path : List (List UInt8)) : Prop :=
  ∃ change ∈ changes, change.type = .deleted ∧ ∃ uri, normalize_uri e.fs change.uri = .ok uri ∧
    uri ≠ [] ∧ splitSegments uri <+: path

/-- Some other event of the batch stands for the file. -/
def Names (s : DefaultDocuments) (changes : List FileEvent) (file : Uri) : Prop :=
  ∃ change ∈ changes, change.type ≠ .deleted ∧ ∃ uri, normalize_uri e.fs change.uri = .ok uri ∧
    uri ≠ [] ∧ ∃ found, e.Expands s uri found ∧ normalize_uri e.fs found = .ok file

variable {e} {s s' : DefaultDocuments} {uri file : Uri}

theorem mem_traverseFolder_of_holds {folder : Uri} (h : e.Holds folder file) :
    file ∈ e.traverseFolder folder := by
  induction h with
  | file hread hentry hinclude hfile =>
    rw [traverseFolder]
    split
    · rename_i hnone
      rw [hread] at hnone
      cases hnone
    · rename_i nodes hnodes
      rw [hread] at hnodes
      cases hnodes
      refine List.mem_flatMap.mpr ⟨⟨_, hentry⟩, List.mem_attach _ _, ?_⟩
      simp [hinclude, hfile.1, hfile.2]
  | folder hread hentry hinclude hfolder hholds ih =>
    rw [traverseFolder]
    split
    · rename_i hnone
      rw [hread] at hnone
      cases hnone
    · rename_i nodes hnodes
      rw [hread] at hnodes
      cases hnodes
      refine List.mem_flatMap.mpr ⟨⟨_, hentry⟩, List.mem_attach _ _, ?_⟩
      simpa [hinclude, hfolder] using ih

theorem holds_of_mem_traverseFolder {folder : Uri} (h : file ∈ e.traverseFolder folder) :
    e.Holds folder file := by
  fun_induction traverseFolder e folder with
  | case1 => cases h
  | case2 folder nodes hread ih =>
    obtain ⟨⟨entry, hentry⟩, -, hfile⟩ := List.mem_flatMap.mp h
    dsimp only at hfile
    split at hfile
    · cases hfile
    · rename_i hinclude
      rw [Bool.not_eq_true, Bool.not_eq_false'] at hinclude
      split at hfile
      · rename_i hfolder
        exact .folder hread hentry hinclude hfolder (ih ⟨entry, hentry⟩ hfolder hfile)
      · rename_i hfolder
        split at hfile
        · rename_i hisFile
          cases List.mem_singleton.mp hfile
          exact .file hread hentry hinclude ⟨Bool.eq_false_iff.mpr hfolder, hisFile⟩
        · cases hfile

/-- **The files of a folder are those it holds.** -/
theorem mem_traverseFolder {folder : Uri} : file ∈ e.traverseFolder folder ↔ e.Holds folder file :=
  ⟨holds_of_mem_traverseFolder, mem_traverseFolder_of_holds⟩

theorem hasDocument_of_key {fs : FileSystem} (hu : DefaultDocuments.Key fs uri) :
    s.hasDocument fs uri = .ok (s.documents.find (splitSegments uri)).isSome := by
  rw [DefaultDocuments.hasDocument, hu.normalized]
  show (if uri = [] then _ else _) = _
  rw [if_neg hu.ne_nil]
  exact UriTrie.has_eq hu.normalized _

theorem getDocuments_of_key {fs : FileSystem} (hu : DefaultDocuments.Key fs uri) :
    s.getDocuments fs uri = .ok (s.documents.findAll (splitSegments uri)) := by
  rw [DefaultDocuments.getDocuments, hu.normalized]
  show (if uri = [] then _ else _) = _
  rw [if_neg hu.ne_nil]
  exact UriTrie.findAll_eq hu.normalized _

theorem searchFolder_of_key (hu : DefaultDocuments.Key e.fs uri) :
    e.searchFolder uri = .ok (e.traverseFolder uri) := by
  rw [searchFolder, hu.normalized]
  show (if uri = [] then _ else _) = _
  rw [if_neg hu.ne_nil]
  rfl

/-- **What an event is expanded to.** -/
theorem mem_find_changed_uris (hu : DefaultDocuments.Key e.fs uri) {files : List Uri}
    (h : e.find_changed_uris s uri = .ok files) : file ∈ files ↔ e.Expands s uri file := by
  rw [find_changed_uris, hasDocument_of_key hu] at h
  replace h : (if ((s.documents.find (splitSegments uri)).isSome || e.isOpen uri) = true then
      (Except.ok [uri] : Except StoreError (List Uri)) else _) = .ok files := h
  by_cases hknown : ((s.documents.find (splitSegments uri)).isSome || e.isOpen uri) = true
  · rw [if_pos hknown] at h
    cases h
    rw [Bool.or_eq_true] at hknown
    rw [List.mem_singleton]
    constructor
    · rintro rfl
      exact .known hknown
    · intro hexpands
      cases hexpands with
      | known => rfl
      | file => rfl
      | folder hunknown =>
        rw [hunknown.1, hunknown.2] at hknown
        rcases hknown with hnone | hclosed
        · cases hnone
        · cases hclosed
  · rw [if_neg hknown] at h
    rw [Bool.or_eq_true, not_or] at hknown
    have hunknown : s.documents.find (splitSegments uri) = none ∧ e.isOpen uri = false :=
      ⟨Option.not_isSome_iff_eq_none.mp hknown.1, Bool.eq_false_iff.mpr hknown.2⟩
    have hnot : ¬ ((s.documents.find (splitSegments uri)).isSome = true ∨ e.isOpen uri = true) :=
      not_or.mpr hknown
    cases hstat : e.provider.stat uri with
    | none =>
      rw [hstat] at h
      cases h
      refine iff_of_false List.not_mem_nil fun hexpands => ?_
      cases hexpands with
      | known hyes => exact hnot hyes
      | file hsome | folder _ hsome =>
        rw [hstat] at hsome
        cases hsome
    | some stat =>
      rw [hstat] at h
      dsimp only at h
      split_ifs at h with hfolder hinclude
      · rw [searchFolder_of_key hu] at h
        cases h
        rw [mem_traverseFolder]
        constructor
        · exact fun hholds => .folder hunknown hstat hfolder hholds
        · intro hexpands
          cases hexpands with
          | known hyes => exact absurd hyes hnot
          | file hsome hfile =>
            rw [hstat] at hsome
            cases hsome
            rw [hfolder] at hfile
            cases hfile
          | folder _ _ _ hholds => exact hholds
      · cases h
        rw [List.mem_singleton]
        constructor
        · rintro rfl
          exact .file hstat (Bool.eq_false_iff.mpr hfolder) hinclude
        · intro hexpands
          cases hexpands with
          | known => rfl
          | file => rfl
          | folder _ hsome hdir =>
            rw [hstat] at hsome
            cases hsome
            exact absurd hdir hfolder
      · cases h
        refine iff_of_false List.not_mem_nil fun hexpands => ?_
        cases hexpands with
        | known hyes => exact hnot hyes
        | file hsome _ hyes =>
          rw [hstat] at hsome
          cases hsome
          exact hinclude hyes
        | folder _ hsome hdir =>
          rw [hstat] at hsome
          cases hsome
          exact hfolder hdir

/-! ### The ids that are collected -/

section Collected

variable {deleted : List ℕ}

theorem mem_pushDeleted (documents : List ManagedDocument) (ids : List ℕ) (id : ℕ) :
    id ∈ documents.foldl (pushDeleted s) ids ↔
      id ∈ ids ∨ id ≠ invalidDocumentId ∧ ∃ d ∈ documents, s.id d = id := by
  induction documents generalizing ids with
  | nil => simp
  | cons d documents ih =>
    rw [List.foldl_cons, ih]
    have hpush : id ∈ pushDeleted s ids d ↔ id ∈ ids ∨ id ≠ invalidDocumentId ∧ s.id d = id := by
      rw [pushDeleted]
      split_ifs with h
      · rw [List.mem_append, List.mem_singleton]
        constructor
        · rintro (hold | rfl)
          · exact .inl hold
          · exact .inr ⟨h.1, rfl⟩
        · rintro (hold | ⟨-, rfl⟩)
          · exact .inl hold
          · exact .inr rfl
      · refine ⟨.inl, ?_⟩
        rintro (hold | ⟨hvalid, rfl⟩)
        · exact hold
        · by_contra hno
          exact h ⟨hvalid, hno⟩
    rw [hpush]
    constructor
    · rintro ((hold | ⟨hvalid, hid⟩) | ⟨hvalid, d', hd', hid⟩)
      · exact .inl hold
      · exact .inr ⟨hvalid, d, List.mem_cons_self, hid⟩
      · exact .inr ⟨hvalid, d', List.mem_cons_of_mem _ hd', hid⟩
    · rintro (hold | ⟨hvalid, d', hd', hid⟩)
      · exact .inl (.inl hold)
      · rcases List.mem_cons.mp hd' with rfl | hd'
        · exact .inl (.inr ⟨hvalid, hid⟩)
        · exact .inr ⟨hvalid, d', hd', hid⟩

theorem deletes_concat {changes : List FileEvent} {change : FileEvent}
    {path : List (List UInt8)} : e.Deletes (changes ++ [change]) path ↔
      e.Deletes changes path ∨ change.type = .deleted ∧ ∃ uri,
        normalize_uri e.fs change.uri = .ok uri ∧ uri ≠ [] ∧ splitSegments uri <+: path := by
  constructor
  · rintro ⟨change', hmem, hdeleted⟩
    rcases List.mem_append.mp hmem with hmem | hmem
    · exact .inl ⟨change', hmem, hdeleted⟩
    · cases List.mem_singleton.mp hmem
      exact .inr hdeleted
  · rintro (⟨change', hmem, hdeleted⟩ | hdeleted)
    · exact ⟨change', List.mem_append_left _ hmem, hdeleted⟩
    · exact ⟨change, List.mem_append_right _ List.mem_cons_self, hdeleted⟩

/-- What one event adds to the ids. -/
theorem mem_collectDeleted (hs : DefaultDocuments.Coherent e.fs s) {change : FileEvent}
    {ids ids' : List ℕ} (h : e.collectDeleted s ids change = .ok ids') (id : ℕ) :
    id ∈ ids' ↔ id ∈ ids ∨ ∃ d, s.Stored d ∧ s.id d = id ∧ change.type = .deleted ∧
      ∃ uri, normalize_uri e.fs change.uri = .ok uri ∧ uri ≠ [] ∧
        splitSegments uri <+: splitSegments d.uri := by
  rw [collectDeleted] at h
  split_ifs at h with htype
  · cases h
    refine ⟨.inl, ?_⟩
    rintro (hold | ⟨d, -, -, hdeleted, -⟩)
    · exact hold
    · exact absurd hdeleted htype
  · rw [Classical.not_not] at htype
    cases hv : normalize_uri e.fs change.uri with
    | error thrown =>
      rw [hv] at h
      cases h
    | ok v =>
      rw [hv] at h
      replace h : (if v = [] then _ else _) = Except.ok ids' := h
      split_ifs at h with hnil
      · cases h
        refine ⟨.inl, ?_⟩
        rintro (hold | ⟨d, -, -, -, uri, hok, hne, -⟩)
        · exact hold
        · cases hok
          exact absurd hnil hne
      · rw [getDocuments_of_key ⟨normalize_uri_idempotent hv, hnil⟩] at h
        cases h
        rw [mem_pushDeleted]
        constructor
        · rintro (hold | ⟨-, d, hd, hid⟩)
          · exact .inl hold
          · obtain ⟨hstored, hinitial⟩ := (hs.mem_findAll _).mp hd
            exact .inr ⟨d, hstored, hid, htype, v, rfl, hnil, hinitial⟩
        · rintro (hold | ⟨d, hstored, hid, -, uri, hok, -, hinitial⟩)
          · exact .inl hold
          · cases hok
            refine .inr ⟨?_, d, (hs.mem_findAll _).mpr ⟨hstored, hinitial⟩, hid⟩
            rw [← hid]
            exact (hs.range (hs.bound hstored)).2.1

/-- **The first loop collects the documents that the batch deletes.** -/
theorem mem_deleted (hs : DefaultDocuments.Coherent e.fs s) {changes : List FileEvent}
    (h : changes.foldlM (e.collectDeleted s) [] = .ok deleted) (id : ℕ) :
    id ∈ deleted ↔ ∃ d, s.Stored d ∧ s.id d = id ∧ e.Deletes changes (splitSegments d.uri) := by
  refine foldlM_invariant (P := fun changes ids => ∀ id, id ∈ ids ↔ ∃ d, s.Stored d ∧ s.id d = id ∧
    e.Deletes changes (splitSegments d.uri)) ?_ ?_ h id
  · intro id
    refine iff_of_false List.not_mem_nil ?_
    rintro ⟨d, -, -, change, hchange, -⟩
    cases hchange
  · intro changes change ids ids' ih hstep id
    rw [mem_collectDeleted hs hstep, ih]
    constructor
    · rintro (⟨d, hstored, hid, hdeletes⟩ | ⟨d, hstored, hid, hdeleted⟩)
      · exact ⟨d, hstored, hid, deletes_concat.mpr (.inl hdeletes)⟩
      · exact ⟨d, hstored, hid, deletes_concat.mpr (.inr hdeleted)⟩
    · rintro ⟨d, hstored, hid, hdeletes⟩
      rcases deletes_concat.mp hdeletes with hdeletes | hdeleted
      · exact .inl ⟨d, hstored, hid, hdeletes⟩
      · exact .inr ⟨d, hstored, hid, hdeleted⟩

/-- How far the second loop is: the URIs seen so far have ids, and the valid ids collected
are theirs, but for those that are deleted. -/
structure Collects (s t : DefaultDocuments) (deleted changed : List ℕ) (seen : Uri → Prop) :
    Prop where
  documents : t.documents = s.documents
  documentsById : t.documentsById = s.documentsById
  id : t.id = s.id
  kept : ∀ {uri id}, s.documentIdsByUri uri = some id → t.documentIdsByUri uri = some id
  assigned : ∀ {uri}, seen uri → uri ≠ [] → ∃ id, t.documentIdsByUri uri = some id
  mem : ∀ id, id ≠ invalidDocumentId → (id ∈ changed ↔ id ∉ deleted ∧
    ∃ uri, seen uri ∧ uri ≠ [] ∧ t.documentIdsByUri uri = some id)

theorem ensure_kept {u : Uri} {id : ℕ} (h : s.documentIdsByUri uri = some id) :
    (s.ensureDocumentIdLocked u).2.documentIdsByUri uri = some id := by
  rw [DefaultDocuments.ensure_idsByUri]
  split_ifs with heq
  · rw [← heq, DefaultDocuments.ensure_of_some h]
  · exact h

/-- The id of a file is collected, unless it is deleted or already there. -/
theorem mem_pushChanged {changed : List ℕ} (id new : ℕ) :
    id ∈ (if new ∉ deleted ∧ new ∉ changed then changed ++ [new] else changed) ↔
      id ∈ changed ∨ id = new ∧ new ∉ deleted := by
  split_ifs with h
  · rw [List.mem_append, List.mem_singleton]
    exact or_congr_right ⟨fun heq => ⟨heq, h.1⟩, fun heq => heq.1⟩
  · refine ⟨.inl, ?_⟩
    rintro (hold | ⟨rfl, hnot⟩)
    · exact hold
    · by_contra hno
      exact h ⟨hnot, hno⟩

variable {changed changed' : List ℕ} {t t' : DefaultDocuments} {seen : Uri → Prop}

/-- One file. -/
theorem Collects.oneFile (h : Collects s t deleted changed seen)
    (hstep : e.collectFile deleted (t, changed) file = .ok (t', changed')) :
    Collects s t' deleted changed' fun uri => seen uri ∨ normalize_uri e.fs file = .ok uri := by
  rw [collectFile, DefaultDocuments.getOrCreateDocumentId] at hstep
  cases hv : normalize_uri e.fs file with
  | error thrown =>
    rw [hv] at hstep
    cases hstep
  | ok v =>
    rw [hv] at hstep
    dsimp only [bind, Except.bind] at hstep
    split_ifs at hstep with hnil
    · -- a file without URI has the invalid id
      cases hstep
      refine ⟨h.documents, h.documentsById, h.id, h.kept, ?_, ?_⟩
      · rintro uri (hseen | hok) hne
        · exact h.assigned hseen hne
        · cases hok
          exact absurd hnil hne
      · intro id hvalid
        rw [mem_pushChanged, h.mem id hvalid]
        constructor
        · rintro (⟨hnot, uri, hseen, hne, hid⟩ | ⟨hinvalid, -⟩)
          · exact ⟨hnot, uri, .inl hseen, hne, hid⟩
          · exact absurd hinvalid hvalid
        · rintro ⟨hnot, uri, hseen | hok, hne, hid⟩
          · exact .inl ⟨hnot, uri, hseen, hne, hid⟩
          · cases hok
            exact absurd hnil hne
    · cases hstep
      have hnew : (t.ensureDocumentIdLocked v).2.documentIdsByUri v
          = some (t.ensureDocumentIdLocked v).1 := by
        rw [DefaultDocuments.ensure_idsByUri, if_pos rfl]
      refine ⟨?_, ?_, ?_, fun hid => ensure_kept (h.kept hid), ?_, ?_⟩
      · rw [DefaultDocuments.ensure_documents, h.documents]
      · rw [DefaultDocuments.ensure_documentsById, h.documentsById]
      · rw [DefaultDocuments.ensure_id, h.id]
      · rintro uri (hseen | hok) hne
        · obtain ⟨id, hid⟩ := h.assigned hseen hne
          exact ⟨id, ensure_kept hid⟩
        · cases hok
          exact ⟨_, hnew⟩
      · intro id hvalid
        rw [mem_pushChanged, h.mem id hvalid]
        constructor
        · rintro (⟨hnot, uri, hseen, hne, hid⟩ | ⟨rfl, hnot⟩)
          · exact ⟨hnot, uri, .inl hseen, hne, ensure_kept hid⟩
          · exact ⟨hnot, v, .inr rfl, hnil, hnew⟩
        · rintro ⟨hnot, uri, hseen | hok, hne, hid⟩
          · obtain ⟨id', hid'⟩ := h.assigned hseen hne
            rw [ensure_kept hid'] at hid
            cases hid
            exact .inl ⟨hnot, uri, hseen, hne, hid'⟩
          · cases hok
            rw [hnew] at hid
            cases hid
            exact .inr ⟨rfl, hnot⟩

theorem Collects.congr {seen' : Uri → Prop} (h : Collects s t deleted changed seen)
    (hseen : ∀ uri, seen uri ↔ seen' uri) : Collects s t deleted changed seen' := by
  rwa [show seen = seen' from funext fun uri => propext (hseen uri)] at h

/-- The files of an event. -/
theorem Collects.files (h : Collects s t deleted changed seen) {files : List Uri}
    (hrun : files.foldlM (e.collectFile deleted) (t, changed) = .ok (t', changed')) :
    Collects s t' deleted changed' fun uri =>
      seen uri ∨ ∃ file ∈ files, normalize_uri e.fs file = .ok uri := by
  refine foldlM_invariant (P := fun files (state : DefaultDocuments × List ℕ) =>
    Collects s state.1 deleted state.2 fun uri =>
      seen uri ∨ ∃ file ∈ files, normalize_uri e.fs file = .ok uri) ?_ ?_ hrun
  · refine h.congr fun uri => ⟨.inl, ?_⟩
    rintro (hseen | ⟨file, hmem, -⟩)
    · exact hseen
    · cases hmem
  · intro files file state state' ih hstep
    refine (ih.oneFile hstep).congr fun uri => ?_
    simp only [List.mem_append, List.mem_singleton, or_and_right, exists_or, exists_eq_left,
      or_assoc]

theorem find_changed_uris_congr (h : t.documents = s.documents) :
    e.find_changed_uris t = e.find_changed_uris s := by
  funext uri
  rw [find_changed_uris, find_changed_uris, DefaultDocuments.hasDocument,
    DefaultDocuments.hasDocument, h]

theorem names_concat {changes : List FileEvent} {change : FileEvent} :
    e.Names s (changes ++ [change]) file ↔ e.Names s changes file ∨ change.type ≠ .deleted ∧
      ∃ uri, normalize_uri e.fs change.uri = .ok uri ∧ uri ≠ [] ∧
        ∃ found, e.Expands s uri found ∧ normalize_uri e.fs found = .ok file := by
  simp only [Names, List.mem_append, List.mem_singleton, or_and_right, exists_or, exists_eq_left]

/-- One event. -/
theorem Collects.event (h : Collects s t deleted changed seen) {change : FileEvent}
    (hstep : e.collectChanged deleted (t, changed) change = .ok (t', changed')) :
    Collects s t' deleted changed' fun file => seen file ∨ change.type ≠ .deleted ∧
      ∃ uri, normalize_uri e.fs change.uri = .ok uri ∧ uri ≠ [] ∧
        ∃ found, e.Expands s uri found ∧ normalize_uri e.fs found = .ok file := by
  rw [collectChanged] at hstep
  split_ifs at hstep with htype
  · cases hstep
    refine h.congr fun file => ⟨.inl, ?_⟩
    rintro (hseen | ⟨hother, -⟩)
    · exact hseen
    · exact absurd htype hother
  · cases hv : normalize_uri e.fs change.uri with
    | error thrown =>
      rw [hv] at hstep
      cases hstep
    | ok v =>
      rw [hv] at hstep
      dsimp only [bind, Except.bind] at hstep
      split_ifs at hstep with hnil
      · cases hstep
        refine h.congr fun file => ⟨.inl, ?_⟩
        rintro (hseen | ⟨-, uri, hok, hne, -⟩)
        · exact hseen
        · cases hok
          exact absurd hnil hne
      · rw [find_changed_uris_congr h.documents] at hstep
        cases hfiles : e.find_changed_uris s v with
        | error thrown =>
          rw [hfiles] at hstep
          cases hstep
        | ok files =>
          rw [hfiles] at hstep
          refine (h.files hstep).congr fun file => or_congr_right ?_
          have hmem : ∀ found, found ∈ files ↔ e.Expands s v found := fun found =>
            mem_find_changed_uris ⟨normalize_uri_idempotent hv, hnil⟩ hfiles
          constructor
          · rintro ⟨found, hfound, hok⟩
            exact ⟨htype, v, rfl, hnil, found, (hmem found).mp hfound, hok⟩
          · rintro ⟨-, uri, hok, -, found, hexpands, hfile⟩
            cases hok
            exact ⟨found, (hmem found).mpr hexpands, hfile⟩

/-- **The second loop collects the files that the other events stand for.** -/
theorem collects {changes : List FileEvent}
    (h : changes.foldlM (e.collectChanged deleted) (s, []) = .ok (t, changed)) :
    Collects s t deleted changed (e.Names s changes) := by
  refine foldlM_invariant (P := fun changes (state : DefaultDocuments × List ℕ) =>
    Collects s state.1 deleted state.2 (e.Names s changes)) ?_ ?_ h
  · have hnone : ∀ file, ¬ e.Names s [] file := by
      rintro file ⟨change, hmem, -⟩
      cases hmem
    refine ⟨rfl, rfl, rfl, fun hid => hid, fun hseen => absurd hseen (hnone _), fun id _ => ?_⟩
    refine iff_of_false List.not_mem_nil ?_
    rintro ⟨-, uri, hseen, -⟩
    exact hnone uri hseen
  · intro changes change state state' ih hstep
    exact (ih.event hstep).congr fun file => names_concat.symm

end Collected

/-! ### What the update does -/

section Update

open DefaultDocuments (Key Coherent)

variable {t t' : DefaultDocuments} {ids : List ℕ} {c : ℕ}

/-- A document of an id in the list is filed at the path or above it. -/
def Below (s : DefaultDocuments) (ids : List ℕ) (path : List (List UInt8)) : Prop :=
  ∃ id ∈ ids, ∃ d, s.documentsById id = some d ∧ splitSegments d.uri <+: path

/-- The registry without the documents of the ids, and what is filed below them. -/
structure Removes (s : DefaultDocuments) (ids : List ℕ) (t : DefaultDocuments) : Prop where
  idsByUri : t.documentIdsByUri = s.documentIdsByUri
  urisById : t.documentUrisById = s.documentUrisById
  id : t.id = s.id
  byId : ∀ id, t.documentsById id = s.documentsById id ∨ t.documentsById id = none ∧ id ∈ ids
  find : ∀ path d, t.documents.find path = some d ↔
    s.documents.find path = some d ∧ ¬ Below s ids path

theorem below_concat {path : List (List UInt8)} : Below s (ids ++ [c]) path ↔
    Below s ids path ∨ ∃ d, s.documentsById c = some d ∧ splitSegments d.uri <+: path := by
  simp only [Below, List.mem_append, List.mem_singleton, or_and_right, exists_or, exists_eq_left]

/-- An id whose document is already gone, or that has none. -/
theorem Removes.idle (h : Removes s ids t)
    (hgone : ∀ d, s.documentsById c = some d → Below s ids (splitSegments d.uri)) :
    Removes s (ids ++ [c]) t := by
  refine ⟨h.idsByUri, h.urisById, h.id, fun id => ?_, fun path d => ?_⟩
  · exact (h.byId id).imp_right fun hnone => ⟨hnone.1, List.mem_append_left _ hnone.2⟩
  · rw [h.find, below_concat]
    refine and_congr_right fun _ => not_congr ⟨.inl, ?_⟩
    rintro (hbelow | ⟨d, hd, hinitial⟩)
    · exact hbelow
    · obtain ⟨id, hid, d', hd', hinitial'⟩ := hgone d hd
      exact ⟨id, hid, d', hd', hinitial'.trans hinitial⟩

/-- One deletion. -/
theorem Removes.delete {fs : FileSystem} (h : Removes s ids t) (hs : Coherent fs s)
    {r : Option ManagedDocument} (hstep : t.deleteDocumentById fs c = .ok (r, t')) :
    Removes s (ids ++ [c]) t' := by
  rw [DefaultDocuments.deleteDocumentById] at hstep
  split_ifs at hstep with hinvalid
  · cases hstep
    refine h.idle fun d hd => ?_
    -- no document has the invalid id
    obtain ⟨hstored, rfl⟩ := (hs.byId _ d).mp hd
    exact absurd hinvalid (hs.range (hs.bound hstored)).2.1
  · cases hbyId : t.documentsById c with
    | none =>
      rw [hbyId] at hstep
      cases hstep
      refine h.idle fun d hd => ?_
      rcases h.byId c with hsame | ⟨-, hmem⟩
      · rw [← hsame, hbyId] at hd
        cases hd
      · exact ⟨c, hmem, d, hd, List.prefix_rfl⟩
    | some d =>
      rw [hbyId] at hstep
      have hd : s.documentsById c = some d := by
        rcases h.byId c with hsame | ⟨hnone, -⟩
        · rw [← hsame, hbyId]
        · rw [hnone] at hbyId
          cases hbyId
      obtain ⟨hstored, hid⟩ := (hs.byId c d).mp hd
      replace hstep : t.deleteDocumentLocked fs d.uri = .ok (r, t') := hstep
      rw [DefaultDocuments.deleteDocumentLocked_eq (hs.key hstored).normalized] at hstep
      cases hfind : t.documents.find (splitSegments d.uri) with
      | none =>
        rw [hfind] at hstep
        cases hstep
        refine h.idle fun d' hd' => ?_
        rw [hd] at hd'
        cases hd'
        by_contra hnot
        have hstill := (h.find _ d).mpr ⟨hstored, hnot⟩
        rw [hfind] at hstill
        cases hstill
      | some d' =>
        rw [hfind] at hstep
        cases hstep
        -- the document found is the one of the id
        have hsame : d' = d := by
          have hfound := ((h.find _ d').mp hfind).1
          rw [hstored] at hfound
          exact (Option.some.inj hfound).symm
        subst hsame
        refine ⟨h.idsByUri, h.urisById, h.id, fun id => ?_, fun path d => ?_⟩
        · show update t.documentsById (t.id d') none id = s.documentsById id ∨
            update t.documentsById (t.id d') none id = none ∧ id ∈ ids ++ [c]
          rw [Function.update_apply, h.id, hid]
          split_ifs with heq
          · exact .inr ⟨rfl, heq ▸ List.mem_append_right _ List.mem_cons_self⟩
          · exact (h.byId id).imp_right fun hnone => ⟨hnone.1, List.mem_append_left _ hnone.2⟩
        · show (t.documents.erase (splitSegments d'.uri)).find path = some d ↔ _
          rw [Trie.find_erase, below_concat]
          split_ifs with hinitial
          · refine iff_of_false nofun ?_
            rintro ⟨-, hnot⟩
            exact hnot (.inr ⟨d', hd, hinitial⟩)
          · rw [h.find]
            refine and_congr_right fun _ => not_congr ⟨.inl, ?_⟩
            rintro (hbelow | ⟨d, hd', hinitial'⟩)
            · exact hbelow
            · rw [hd] at hd'
              cases hd'
              exact absurd hinitial' hinitial

/-- **The deletions take out the documents of the ids, and what is filed below them.** -/
theorem removes {fs : FileSystem} (hs : Coherent fs s)
    (h : ids.foldlM (fun t id => (t.deleteDocumentById fs id).map Prod.snd) s = .ok t) :
    Removes s ids t := by
  refine foldlM_invariant (P := fun ids t => Removes s ids t) ?_ ?_ h
  · refine ⟨rfl, rfl, rfl, fun _ => .inl rfl, fun path d => ⟨fun hd => ⟨hd, ?_⟩, fun hd => hd.1⟩⟩
    rintro ⟨id, hmem, -⟩
    cases hmem
  · intro ids c t t' ih hstep
    obtain ⟨r, hr⟩ := DefaultDocuments.ok_of_map_snd hstep
    exact ih.delete hs hr

/-- An id of a URI, in both tables. -/
structure Identifies (fs : FileSystem) (t : DefaultDocuments) (c : ℕ) (uri : Uri) : Prop where
  key : Key fs uri
  byUri : t.documentIdsByUri uri = some c
  byId : t.documentUrisById c = some uri
  valid : c ≠ invalidDocumentId

/-- What `materialize` makes of the registry. -/
structure Materializes (e : UpdateServices) (t : DefaultDocuments) (c : ℕ) (uri : Uri)
    (t' : DefaultDocuments) : Prop where
  idsByUri : t'.documentIdsByUri = t.documentIdsByUri
  urisById : t'.documentUrisById = t.documentUrisById
  byId : ∀ id, id ≠ c → t'.documentsById id = t.documentsById id
  linked : (t'.documentsById c).isSome = true →
    (t'.documents.find (splitSegments uri)).isSome = true
  find : ∀ path, (t'.documents.find path).isSome = true ↔
    (t.documents.find path).isSome = true ∨
      splitSegments uri = path ∧ (e.fromUri uri).isSome = true

theorem Materializes.same (hlinked : (t.documentsById c).isSome = true →
      (t.documents.find (splitSegments uri)).isSome = true)
    (h : (t.documents.find (splitSegments uri)).isSome = true ∨ e.fromUri uri = none) :
    Materializes e t c uri t := by
  refine ⟨rfl, rfl, fun _ _ => rfl, hlinked, fun path => ⟨.inl, ?_⟩⟩
  rintro (hfound | ⟨rfl, hmade⟩)
  · exact hfound
  · rcases h with hfound | hnone
    · exact hfound
    · rw [hnone] at hmade
      cases hmade

/-- **A changed document is materialized unless it is there**; an id with a document has it
filed. -/
theorem materializes (hid : Identifies e.fs t c uri)
    (hlinked : (t.documentsById c).isSome = true →
      (t.documents.find (splitSegments uri)).isSome = true) :
    Materializes e t c uri (e.materialize t c) := by
  rw [materialize, DefaultDocuments.getDocumentById, if_neg hid.valid]
  cases hbyId : t.documentsById c with
  | some d =>
    exact .same hlinked (.inl (hlinked (by rw [hbyId]; rfl)))
  | none =>
    have huri : t.getDocumentUri c = uri := by
      rw [DefaultDocuments.getDocumentUri, if_neg hid.valid, hid.byId]
      rfl
    dsimp only
    rw [huri, if_neg hid.key.ne_nil]
    unfold DefaultDocuments.getOrCreateDocument
    rw [hid.key.normalized]
    dsimp only [bind, Except.bind]
    rw [if_neg hid.key.ne_nil, UriTrie.find_eq hid.key.normalized]
    cases hfind : t.documents.find (splitSegments uri) with
    | some existing => exact .same hlinked (.inl (by rw [hfind]; rfl))
    | none =>
      cases hmade : e.fromUri uri with
      | none => exact .same hlinked (.inr hmade)
      | some d =>
        obtain rfl : d.uri = uri := e.uri_of_fromUri uri d hmade
        dsimp only
        rw [UriTrie.find_eq hid.key.normalized, hfind]
        dsimp only
        rw [Coherent.addDocumentLocked_eq hid.key.normalized,
          DefaultDocuments.ensure_of_some hid.byUri]
        have hinsert : ∀ path, (t.documents.insert d (splitSegments d.uri)).find path
            = if path = splitSegments d.uri then some d else t.documents.find path :=
          fun path => Trie.find_insert d _ path _
        refine ⟨rfl, rfl, fun id hne => Function.update_of_ne hne _ _, fun _ => ?_, fun path => ?_⟩
        · show ((t.documents.insert d (splitSegments d.uri)).find _).isSome = true
          rw [hinsert, if_pos rfl]
          rfl
        show ((t.documents.insert d (splitSegments d.uri)).find path).isSome = true ↔ _
        rw [hinsert]
        split_ifs with hpath
        · exact iff_of_true rfl (.inr ⟨hpath.symm, by rw [hmade]; rfl⟩)
        · refine ⟨.inl, ?_⟩
          rintro (hfound | ⟨heq, -⟩)
          · exact hfound
          · exact absurd heq.symm hpath

/-- **The changed documents that are missing are materialized.** -/
theorem find_materialize (hids : ∀ c ∈ ids, c ≠ invalidDocumentId →
      ∃ uri, Identifies e.fs t c uri ∧ ((t.documentsById c).isSome = true →
        (t.documents.find (splitSegments uri)).isSome = true))
    (path : List (List UInt8)) :
    ((ids.foldl e.materialize t).documents.find path).isSome = true ↔
      (t.documents.find path).isSome = true ∨ ∃ c ∈ ids, ∃ uri, Identifies e.fs t c uri ∧
        splitSegments uri = path ∧ (e.fromUri uri).isSome = true := by
  induction ids generalizing t with
  | nil => simp
  | cons c ids ih =>
    rw [List.foldl_cons]
    by_cases hvalid : c = invalidDocumentId
    · -- there is no such document, and no URI for one
      have hsame : e.materialize t c = t := by
        rw [materialize, DefaultDocuments.getDocumentById, if_pos hvalid,
          DefaultDocuments.getDocumentUri, if_pos hvalid]
        rfl
      rw [hsame, ih fun c' hc' => hids c' (List.mem_cons_of_mem _ hc')]
      refine or_congr_right ⟨?_, ?_⟩
      · rintro ⟨c', hc', hmade⟩
        exact ⟨c', List.mem_cons_of_mem _ hc', hmade⟩
      · rintro ⟨c', hc', uri, hid, hmade⟩
        rcases List.mem_cons.mp hc' with rfl | hc'
        · exact absurd hvalid hid.valid
        · exact ⟨c', hc', uri, hid, hmade⟩
    · obtain ⟨uri, hid, hlinked⟩ := hids c List.mem_cons_self hvalid
      have hstep : Materializes e t c uri (e.materialize t c) := materializes hid hlinked
      have hsame : ∀ c' uri', Identifies e.fs (e.materialize t c) c' uri' ↔
          Identifies e.fs t c' uri' := by
        intro c' uri'
        constructor
        · rintro ⟨hkey, hbyUri, hbyId, hvalid⟩
          exact ⟨hkey, hstep.idsByUri ▸ hbyUri, hstep.urisById ▸ hbyId, hvalid⟩
        · rintro ⟨hkey, hbyUri, hbyId, hvalid⟩
          exact ⟨hkey, hstep.idsByUri ▸ hbyUri, hstep.urisById ▸ hbyId, hvalid⟩
      have honly : ∀ {uri'}, Identifies e.fs t c uri' → uri' = uri := fun hid' =>
        Option.some.inj (hid'.byId.symm.trans hid.byId)
      rw [ih, hstep.find]
      · simp only [hsame]
        constructor
        · rintro ((hfound | ⟨hpath, hmade⟩) | ⟨c', hc', hmade⟩)
          · exact .inl hfound
          · exact .inr ⟨c, List.mem_cons_self, uri, hid, hpath, hmade⟩
          · exact .inr ⟨c', List.mem_cons_of_mem _ hc', hmade⟩
        · rintro (hfound | ⟨c', hc', uri', hid', hpath, hmade⟩)
          · exact .inl (.inl hfound)
          · rcases List.mem_cons.mp hc' with rfl | hc'
            · cases honly hid'
              exact .inl (.inr ⟨hpath, hmade⟩)
            · exact .inr ⟨c', hc', uri', hid', hpath, hmade⟩
      · intro c' hc' hvalid'
        obtain ⟨uri', hid', hlinked'⟩ := hids c' (List.mem_cons_of_mem _ hc') hvalid'
        refine ⟨uri', (hsame c' uri').mpr hid', fun hsome => ?_⟩
        by_cases hcc : c' = c
        · subst hcc
          cases honly hid'
          exact hstep.linked hsome
        · rw [hstep.byId c' hcc] at hsome
          exact (hstep.find _).mpr (.inl (hlinked' hsome))

end Update

/-! ### The batch -/

section Batch

open DefaultDocuments (Key Coherent)

variable {s₁ t : DefaultDocuments} {changes : List FileEvent} {changed deleted : List ℕ}

theorem deletes_of_prefix {path path' : List (List UInt8)} (h : e.Deletes changes path)
    (hinitial : path <+: path') : e.Deletes changes path' := by
  obtain ⟨change, hmem, htype, uri, hok, hne, hle⟩ := h
  exact ⟨change, hmem, htype, uri, hok, hne, hle.trans hinitial⟩

/-- What is there after the deletions. -/
theorem find_removed (hs : Coherent e.fs s)
    (hdeleted : ∀ id, id ∈ deleted ↔ ∃ d, s.Stored d ∧ s.id d = id ∧
      e.Deletes changes (splitSegments d.uri))
    (hdocuments : s₁.documents = s.documents) (hbyId : s₁.documentsById = s.documentsById)
    {ids : List ℕ} (hids : ∀ id, id ∈ ids ↔ id ∈ deleted) (h : Removes s₁ ids t)
    (path : List (List UInt8)) : (t.documents.find path).isSome = true ↔
      (s.documents.find path).isSome = true ∧ ¬ e.Deletes changes path := by
  -- a document at the path is deleted exactly when one at or above it is
  have hbelow : ∀ d, s.documents.find path = some d →
      (Below s₁ ids path ↔ e.Deletes changes path) := by
    intro d hd
    obtain ⟨hpath, hstored⟩ := (hs.find_iff path).mp hd
    constructor
    · rintro ⟨id, hid, d', hd', hinitial⟩
      obtain ⟨d'', hstored'', hid'', hdeletes⟩ := (hdeleted id).mp ((hids id).mp hid)
      rw [hbyId] at hd'
      obtain ⟨hstored', hid'⟩ := (hs.byId id d').mp hd'
      rw [hs.eq_of_id_eq hstored'' hstored' (hid''.trans hid'.symm)] at hdeletes
      exact deletes_of_prefix hdeletes hinitial
    · intro hdeletes
      have hmem : s.id d ∈ deleted := (hdeleted _).mpr ⟨d, hstored, rfl, hpath ▸ hdeletes⟩
      refine ⟨s.id d, (hids _).mpr hmem, d, ?_, hpath ▸ List.prefix_rfl⟩
      rw [hbyId]
      exact (hs.byId _ _).mpr ⟨hstored, rfl⟩
  rw [Option.isSome_iff_exists, Option.isSome_iff_exists]
  constructor
  · rintro ⟨d, hd⟩
    obtain ⟨hfound, hnot⟩ := (h.find path d).mp hd
    rw [hdocuments] at hfound
    exact ⟨⟨d, hfound⟩, (not_congr (hbelow d hfound)).mp hnot⟩
  · rintro ⟨⟨d, hd⟩, hnot⟩
    refine ⟨d, (h.find path d).mpr ⟨?_, (not_congr (hbelow d hd)).mpr hnot⟩⟩
    rw [hdocuments]
    exact hd

/-- The batch deletes the document of the URI itself. -/
def DeletesDocument (e : UpdateServices) (s : DefaultDocuments) (changes : List FileEvent)
    (uri : Uri) : Prop :=
  ∃ d, s.Stored d ∧ d.uri = uri ∧ e.Deletes changes (splitSegments uri)

/-- An id that the URI has after the second loop is deleted with its document. -/
theorem mem_deleted_iff (hs : Coherent e.fs s) (hs₁ : Coherent e.fs s₁)
    (hdeleted : ∀ id, id ∈ deleted ↔ ∃ d, s.Stored d ∧ s.id d = id ∧
      e.Deletes changes (splitSegments d.uri))
    (hkept : ∀ {uri id}, s.documentIdsByUri uri = some id → s₁.documentIdsByUri uri = some id)
    {id : ℕ} (hid : s₁.documentIdsByUri uri = some id) :
    id ∈ deleted ↔ e.DeletesDocument s changes uri := by
  rw [hdeleted]
  constructor
  · rintro ⟨d, hstored, rfl, hdeletes⟩
    have huri : d.uri = uri := hs₁.id_injective (hkept (hs.bound hstored)) hid
    exact ⟨d, hstored, huri, huri ▸ hdeletes⟩
  · rintro ⟨d, hstored, rfl, hdeletes⟩
    refine ⟨d, hstored, ?_, hdeletes⟩
    exact Option.some.inj ((hkept (hs.bound hstored)).symm.trans hid)

/-- The batch wants a document for the file: an event stands for it, and nothing deletes the
document it has. -/
def Wants (e : UpdateServices) (s : DefaultDocuments) (changes : List FileEvent) (file : Uri) :
    Prop :=
  file ≠ [] ∧ e.Names s changes file ∧ ¬ e.DeletesDocument s changes file

theorem normalized_of_names (h : e.Names s changes file) : normalize_uri e.fs file = .ok file := by
  obtain ⟨_, _, _, _, _, _, _, _, hok⟩ := h
  exact normalize_uri_idempotent hok

theorem didChangeWatchedFiles_spec (hs : Coherent e.fs s)
    (h : e.didChangeWatchedFiles s changes = .ok (s₁, changed, deleted)) :
    (∀ id, id ∈ deleted ↔ ∃ d, s.Stored d ∧ s.id d = id ∧
      e.Deletes changes (splitSegments d.uri)) ∧
      Collects s s₁ deleted changed (e.Names s changes) := by
  rw [didChangeWatchedFiles] at h
  cases hfirst : changes.foldlM (e.collectDeleted s) [] with
  | error thrown =>
    rw [hfirst] at h
    cases h
  | ok ids =>
    rw [hfirst] at h
    dsimp only [bind, Except.bind] at h
    cases hsecond : changes.foldlM (e.collectChanged ids) (s, []) with
    | error thrown =>
      rw [hsecond] at h
      cases h
    | ok state =>
      rw [hsecond] at h
      cases h
      exact ⟨mem_deleted hs hfirst, collects hsecond⟩

theorem applyUpdate_spec {s₂ : DefaultDocuments} {options : BuildOptions}
    (hs₁ : Coherent e.fs s₁) (h : e.applyUpdate s₁ changed deleted options = .ok s₂) :
    ∃ t, Removes s₁ (Call.update changed deleted options).deleted t ∧
      s₂ = (Call.update changed deleted options).changed.foldl e.materialize t := by
  rw [applyUpdate] at h
  dsimp only [bind, Except.bind] at h
  split at h
  · cases h
  · rename_i t ht
    cases h
    exact ⟨t, removes hs₁ ht, rfl⟩

end Batch

end UpdateServices

open DefaultDocuments in
/-- **What a batch makes of the registry, in whatever order its events come.**  A document
stays unless an event deletes its path or one above it; and a file that an event stands for
gets one, if it can be read, unless it had one that is deleted. -/
theorem watched_files {e : UpdateServices} {s s₁ s₂ : DefaultDocuments}
    {changes : List FileEvent} {changed deleted : List ℕ} {options : BuildOptions}
    (hs : Coherent e.fs s) (hs₁ : Coherent e.fs s₁)
    (hhandler : e.didChangeWatchedFiles s changes = .ok (s₁, changed, deleted))
    (hupdate : e.applyUpdate s₁ changed deleted options = .ok s₂) {f : Uri} (hf : Key e.fs f) :
    (∃ d, s₂.getDocument e.fs f = .ok (some d)) ↔
      ((∃ d, s.getDocument e.fs f = .ok (some d)) ∧ ¬ e.Deletes changes (splitSegments f)) ∨
      ∃ file, e.Wants s changes file ∧ splitSegments file = splitSegments f ∧
        (e.fromUri file).isSome = true := by
  have hlookup : ∀ s : DefaultDocuments, (∃ d, s.getDocument e.fs f = .ok (some d)) ↔
      (s.documents.find (splitSegments f)).isSome = true := by
    intro s
    rw [getDocument_of_normalize hf.normalized hf.ne_nil, Option.isSome_iff_exists]
    exact exists_congr fun d => ⟨Except.ok.inj, congrArg Except.ok⟩
  obtain ⟨hdeleted, hcollects⟩ := UpdateServices.didChangeWatchedFiles_spec hs hhandler
  obtain ⟨t, hremoves, hs₂⟩ := UpdateServices.applyUpdate_spec hs₁ hupdate
  have hremoved := UpdateServices.find_removed hs hdeleted hcollects.documents
    hcollects.documentsById (fun id => List.mem_eraseDups) hremoves
  have hmem : ∀ {c file}, s₁.documentIdsByUri file = some c →
      (c ∈ deleted ↔ e.DeletesDocument s changes file) :=
    UpdateServices.mem_deleted_iff hs hs₁ hdeleted hcollects.kept
  have hidentifies : ∀ c file, UpdateServices.Identifies e.fs t c file ↔
      Key e.fs file ∧ s₁.documentIdsByUri file = some c := by
    intro c file
    constructor
    · exact fun hid => ⟨hid.key, hremoves.idsByUri ▸ hid.byUri⟩
    · rintro ⟨hkey, hid⟩
      refine ⟨hkey, ?_, ?_, (hs₁.range hid).2.1⟩
      · rw [hremoves.idsByUri, hid]
      · rw [hremoves.urisById, (hs₁.ids _ _).mp hid]
  have hchanged : ∀ c file, UpdateServices.Identifies e.fs t c file →
      (c ∈ (Call.update changed deleted options).changed ↔ e.Wants s changes file) := by
    intro c file hid
    have hbyUri : s₁.documentIdsByUri file = some c := ((hidentifies c file).mp hid).2
    have hcall : c ∈ (Call.update changed deleted options).changed ↔ c ∈ changed := by
      show c ∈ (changed.filter (· ∉ deleted)).eraseDups ↔ c ∈ changed
      rw [List.mem_eraseDups, List.mem_filter, decide_eq_true_eq]
      exact ⟨fun h => h.1, fun h => ⟨h, ((hcollects.mem c hid.valid).mp h).1⟩⟩
    rw [hcall, hcollects.mem c hid.valid, hmem hbyUri]
    constructor
    · rintro ⟨hnot, uri, hnames, hne, huri⟩
      cases hs₁.id_injective huri hbyUri
      exact ⟨hne, hnames, hnot⟩
    · rintro ⟨hne, hnames, hnot⟩
      exact ⟨hnot, file, hnames, hne, hbyUri⟩
  rw [hlookup, hlookup, hs₂, UpdateServices.find_materialize, hremoved]
  · refine or_congr_right ⟨?_, ?_⟩
    · rintro ⟨c, hc, file, hid, hpath, hmade⟩
      exact ⟨file, (hchanged c file hid).mp hc, hpath, hmade⟩
    · rintro ⟨file, hwants, hpath, hmade⟩
      obtain ⟨c, hc⟩ := hcollects.assigned hwants.2.1 hwants.1
      have hid : UpdateServices.Identifies e.fs t c file :=
        (hidentifies c file).mpr ⟨⟨UpdateServices.normalized_of_names hwants.2.1, hwants.1⟩, hc⟩
      exact ⟨c, (hchanged c file hid).mpr hwants, file, hid, hpath, hmade⟩
  · intro c hc hvalid
    -- the id is that of a file which is named, so it has a URI
    have hc' : c ∈ changed :=
      (List.mem_filter.mp (List.mem_eraseDups.mp hc)).1
    obtain ⟨hnot, file, hnames, hne, huri⟩ := (hcollects.mem c hvalid).mp hc'
    refine ⟨file, (hidentifies c file).mpr
      ⟨⟨UpdateServices.normalized_of_names hnames, hne⟩, huri⟩, fun hsome => ?_⟩
    obtain ⟨d, hd⟩ := Option.isSome_iff_exists.mp hsome
    have hbyId : s.documentsById c = some d := by
      rcases hremoves.byId c with hsame | ⟨hnone, -⟩
      · rw [← hcollects.documentsById, ← hsame, hd]
      · rw [hnone] at hd
        cases hd
    obtain ⟨hstored, rfl⟩ := (hs.byId c d).mp hbyId
    have hfile : d.uri = file := hs₁.id_injective (hcollects.kept (hs.bound hstored)) huri
    subst hfile
    refine (hremoved _).mpr ⟨by rw [hstored]; rfl, fun hdeletes => hnot ?_⟩
    exact (hmem huri).mpr ⟨d, hstored, rfl, hdeletes⟩

/-! ### A file that is deleted and created again -/

/-- Every path is a file of the language, and can be read. -/
def oneFileServices : UpdateServices where
  fs := rootDirectory
  provider :=
    { stat := fun uri => some { isFile := true, uri := uri }
      readDirectory := fun _ => none
      depth := fun _ => 0
      nested := by
        intro folder nodes h
        cases h }
  hasServices := fun _ => true
  isOpen := fun _ => false
  fromUri := fun uri => some ⟨1, uri⟩
  uri_of_fromUri := by
    rintro uri document ⟨⟩
    rfl

/-- The file is deleted and created. -/
def recreated : List FileEvent :=
  [⟨folderDocument.uri, .deleted⟩, ⟨folderDocument.uri, .created⟩]

/-- The registry with the document of the file. -/
def folderCalls : List StoreCall := [.createDocument (some folderDocument)]

theorem coherent_folderCalls {s : DefaultDocuments}
    (h : (documentsMachine rootDirectory).run {} folderCalls = some s) :
    DefaultDocuments.Coherent rootDirectory s := by
  have hsafe : (documentsMachine rootDirectory).AllowedRun
      (fun s call => call.Safe rootDirectory s) {} folderCalls := by
    refine ⟨?_, fun _ _ => trivial⟩
    intro d hd
    cases hd
    exact ⟨⟨rfl, by decide⟩, fun _ => by decide⟩
  exact (DefaultDocuments.coherent_initial _).reaches (Machine.reaches_of_run h hsafe)

theorem watched_files_recreated : ∃ s s₁ s₂ changed deleted,
    oneFileServices.didChangeWatchedFiles s recreated = .ok (s₁, changed, deleted) ∧
    oneFileServices.applyUpdate s₁ changed deleted ⟨none, .unset⟩ = .ok s₂ ∧
    ((∃ d, s₂.getDocument rootDirectory folderDocument.uri = .ok (some d)) ↔
      ((∃ d, s.getDocument rootDirectory folderDocument.uri = .ok (some d)) ∧
        ¬ oneFileServices.Deletes recreated (splitSegments folderDocument.uri)) ∨
      ∃ file, oneFileServices.Wants s recreated file ∧
        splitSegments file = splitSegments folderDocument.uri ∧
        (oneFileServices.fromUri file).isSome = true) := by
  obtain ⟨s, hs⟩ : ∃ s, (documentsMachine rootDirectory).run {} folderCalls = some s := ⟨_, rfl⟩
  have hcoherent : DefaultDocuments.Coherent rootDirectory s := coherent_folderCalls hs
  have hkey : DefaultDocuments.Key rootDirectory folderDocument.uri := ⟨rfl, by decide⟩
  obtain ⟨changed, deleted, hhandler⟩ : ∃ changed deleted,
      oneFileServices.didChangeWatchedFiles s recreated = .ok (s, changed, deleted) := by
    cases hs
    exact ⟨_, _, rfl⟩
  obtain ⟨s₂, hupdate⟩ : ∃ s₂,
      oneFileServices.applyUpdate s changed deleted ⟨none, .unset⟩ = .ok s₂ := by
    cases hs
    cases hhandler
    exact ⟨_, rfl⟩
  exact ⟨s, s, s₂, changed, deleted, hhandler, hupdate,
    watched_files hcoherent hcoherent hhandler hupdate hkey⟩

/-- **A file that is deleted and created in one batch has no document after it**, although
its last event creates it and the workspace includes it. -/
theorem recreated_file_dropped : ∃ s s₁ s₂ changed deleted,
    (documentsMachine rootDirectory).run {} folderCalls = some s ∧
    oneFileServices.didChangeWatchedFiles s recreated = .ok (s₁, changed, deleted) ∧
    oneFileServices.applyUpdate s₁ changed deleted ⟨none, .unset⟩ = .ok s₂ ∧
    recreated.getLast? = some ⟨folderDocument.uri, .created⟩ ∧
    (∃ stat, oneFileServices.provider.stat folderDocument.uri = some stat ∧
      shouldIncludeEntry oneFileServices.hasServices stat = true) ∧
    (oneFileServices.fromUri folderDocument.uri).isSome = true ∧
    s₂.getDocument rootDirectory folderDocument.uri = .ok none :=
  ⟨_, _, _, _, _, rfl, rfl, rfl, rfl, ⟨_, rfl, by decide⟩, rfl, rfl⟩

end Pegium
