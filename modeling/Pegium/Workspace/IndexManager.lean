/-
Pegium/Workspace/IndexManager.lean

The index of exported symbols and references.

`DefaultIndexManager` keeps the exports and the references of each document, and
two caches that its queries fill: the exports of a document by type, and the
references by target.  A change of a document drops its exports by type, or marks
the references by target as dirty.

The exports are in an ordered map.  The references are in a hash map: a list of
entries in the order it goes over them, which is not specified when an entry is
added (`HashOrder`).  What scope computation and the linker collect for a document
comes with the call.

Over it stands what the index is for (`Stored`): the latest exports and references
of each document.  Main result: `queries_scan`, every query of every run answers
what a scan of these finds, whatever was asked before.
-/
import Std.Data.TreeMap
import Mathlib.Data.List.Basic
import Mathlib.Logic.Function.Basic
import Pegium.Workspace.Symbol

namespace Pegium.Symbol

open Function (update update_self update_of_ne)

/-- The order in which a hash map goes over its entries after one is added. -/
structure HashOrder (α : Type*) where
  arrange : List α → List α
  perm : ∀ entries, (arrange entries).Perm entries

/-- The state of the index. -/
structure DefaultIndexManager where
  exportsByDocument : Std.TreeMap ℕ (List AstNodeDescription)
  referencesByDocument : List (ℕ × List ReferenceDescription)
  referenceTargetCacheDirty : Bool
  exportsByTypeCache : ℕ → TypeIndex → Option (List AstNodeDescription)
  referencesByTargetKeyCache : NodeKey → List ReferenceDescription

namespace DefaultIndexManager

/-! ### Changes -/

/-- The index at the beginning. -/
def empty : DefaultIndexManager where
  exportsByDocument := ∅
  referencesByDocument := []
  referenceTargetCacheDirty := true
  exportsByTypeCache _ _ := none
  referencesByTargetKeyCache _ := []

/-- The exports of a document are to be filtered anew. -/
def clearTypeCache (s : DefaultIndexManager) (documentId : ℕ) : DefaultIndexManager :=
  { s with exportsByTypeCache := update s.exportsByTypeCache documentId fun _ => none }

/-- A document exports other descriptions. -/
def updateContent (s : DefaultIndexManager) (documentId : ℕ)
    (exported : List AstNodeDescription) : DefaultIndexManager :=
  { s with exportsByDocument := s.exportsByDocument.insert documentId exported }.clearTypeCache
    documentId

/-- `insert_or_assign` of a hash map. -/
def insert_or_assign (order : HashOrder (ℕ × List ReferenceDescription)) (documentId : ℕ)
    (descriptions : List ReferenceDescription) (entries : List (ℕ × List ReferenceDescription)) :
    List (ℕ × List ReferenceDescription) :=
  if documentId ∈ entries.map Prod.fst then
    entries.map fun entry => if entry.1 = documentId then (documentId, descriptions) else entry
  else order.arrange ((documentId, descriptions) :: entries)

/-- A document refers to other targets; each description is stamped with its
document. -/
def updateReferences (order : HashOrder (ℕ × List ReferenceDescription))
    (s : DefaultIndexManager) (documentId : ℕ) (descriptions : List ReferenceDescription) :
    DefaultIndexManager :=
  let descriptions := descriptions.map fun reference =>
    { reference with sourceDocumentId := documentId }
  { s with
    referencesByDocument := insert_or_assign order documentId descriptions s.referencesByDocument
    referenceTargetCacheDirty := true }

/-- A document exports nothing any more; whether it did. -/
def removeContent (s : DefaultIndexManager) (documentId : ℕ) : DefaultIndexManager × Bool :=
  if documentId = InvalidDocumentId then (s, false)
  else if documentId ∈ s.exportsByDocument then
    ({ s with exportsByDocument := s.exportsByDocument.erase documentId }.clearTypeCache documentId,
      true)
  else (s, false)

/-- A document refers to nothing any more; whether it did. -/
def removeReferences (s : DefaultIndexManager) (documentId : ℕ) : DefaultIndexManager × Bool :=
  if documentId = InvalidDocumentId then (s, false)
  else if documentId ∈ s.referencesByDocument.map Prod.fst then
    ({ s with
        referencesByDocument := s.referencesByDocument.filter (·.1 ≠ documentId)
        referenceTargetCacheDirty := true }, true)
  else (s, false)

/-- Both, each with its own flag. -/
def remove (s : DefaultIndexManager) (documentId : ℕ) : DefaultIndexManager × Bool :=
  let (s, removedContent) := s.removeContent documentId
  let (s, removedReferences) := s.removeReferences documentId
  (s, removedContent || removedReferences)

/-! ### Queries -/

section Queries

variable (reflection : AstReflection)

/-- The exports whose type is the one asked for or below it. -/
def filterDescriptionsByType (exported : List AstNodeDescription) (type : TypeIndex) :
    List AstNodeDescription :=
  exported.filter fun description =>
    AstReflection.type_is_assignable description.type type reflection

/-- `getFileDescriptionsLocked`: the exports of a document, by type through the cache. -/
def getFileDescriptions (s : DefaultIndexManager) (documentId : ℕ) (type : Option TypeIndex) :
    DefaultIndexManager × List AstNodeDescription :=
  match s.exportsByDocument[documentId]?, type with
  | none, _ => (s, [])
  | some exported, none => (s, exported)
  | some exported, some type =>
    match s.exportsByTypeCache documentId type with
    | some cached => (s, cached)
    | none =>
      let filtered := filterDescriptionsByType reflection exported type
      let cache := update (s.exportsByTypeCache documentId) type (some filtered)
      ({ s with exportsByTypeCache := update s.exportsByTypeCache documentId cache }, filtered)

/-- The loop of `allElements`. -/
def collect (s : DefaultIndexManager) (type : Option TypeIndex) :
    List ℕ → DefaultIndexManager × List AstNodeDescription
  | [] => (s, [])
  | documentId :: documentIds =>
    let (s, descriptions) := s.getFileDescriptions reflection documentId type
    let (s, rest) := s.collect type documentIds
    (s, descriptions ++ rest)

/-- Without documents it goes over all of them. -/
def allElements (s : DefaultIndexManager) (type : Option TypeIndex) (documentIds : List ℕ) :
    DefaultIndexManager × List AstNodeDescription :=
  if documentIds.isEmpty then s.collect reflection type s.exportsByDocument.keys
  else s.collect reflection type documentIds

/-- The first export of the name and the type, by document. -/
def findByName (s : DefaultIndexManager) (name : String) (type : Option TypeIndex) :
    Option AstNodeDescription :=
  s.exportsByDocument.toList.findSome? fun (_, exported) =>
    exported.find? fun description =>
      description.name == name &&
        type.all fun type => AstReflection.type_is_assignable description.type type reflection

end Queries

/-- `rebuildReferenceTargetCacheLocked`. -/
def rebuildReferenceTargetCache (s : DefaultIndexManager) : DefaultIndexManager :=
  if !s.referenceTargetCacheDirty then s
  else
    { s with
      referencesByTargetKeyCache :=
        s.referencesByDocument.foldl (fun cache entry =>
          entry.2.foldl (fun cache reference =>
            match reference.targetKey with
            | none => cache
            | some key => update cache key (cache key ++ [reference])) cache) fun _ => []
      referenceTargetCacheDirty := false }

/-- The references to a target, out of the cache. -/
def findAllReferences (s : DefaultIndexManager) (targetKey : NodeKey) :
    DefaultIndexManager × List ReferenceDescription :=
  if targetKey.empty then (s, [])
  else
    let s := s.rebuildReferenceTargetCache
    (s, s.referencesByTargetKeyCache targetKey)

/-- Some reference of the document goes to a changed one. -/
def isAffected (s : DefaultIndexManager) (documentId : ℕ) (changedDocumentIds : List ℕ) : Bool :=
  if changedDocumentIds.isEmpty then false
  else
    match s.referencesByDocument.lookup documentId with
    | none => false
    | some references => references.any fun reference =>
      !reference.local && reference.targetDocumentId.any changedDocumentIds.contains

/-! ### Runs -/

/-- The calls of the index; queries fill its caches.  The order of the hash map may be another
one at each call. -/
inductive Call where
  | updateContent (documentId : ℕ) (exported : List AstNodeDescription)
  | updateReferences (documentId : ℕ) (descriptions : List ReferenceDescription)
      (order : HashOrder (ℕ × List ReferenceDescription))
  | removeContent (documentId : ℕ)
  | removeReferences (documentId : ℕ)
  | remove (documentId : ℕ)
  | allElements (type : Option TypeIndex) (documentIds : List ℕ)
  | findByName (name : String) (type : Option TypeIndex)
  | findAllReferences (targetKey : NodeKey)
  | isAffected (documentId : ℕ) (changedDocumentIds : List ℕ)

section Runs

variable (reflection : AstReflection)

/-- The manager after a call, whatever it answers. -/
def call (s : DefaultIndexManager) : Call → DefaultIndexManager
  | .updateContent documentId exported => s.updateContent documentId exported
  | .updateReferences documentId descriptions order =>
    s.updateReferences order documentId descriptions
  | .removeContent documentId => (s.removeContent documentId).1
  | .removeReferences documentId => (s.removeReferences documentId).1
  | .remove documentId => (s.remove documentId).1
  | .allElements type documentIds => (s.allElements reflection type documentIds).1
  | .findByName _ _ | .isAffected _ _ => s
  | .findAllReferences targetKey => (s.findAllReferences targetKey).1

/-- The index after some calls. -/
def run (calls : List Call) : DefaultIndexManager := calls.foldl (call reflection) empty

end Runs

/-! ### What the index is for -/

/-- The latest exports and references of each document. -/
structure Stored where
  exported : ℕ → Option (List AstNodeDescription)
  references : ℕ → Option (List ReferenceDescription)

namespace Stored

/-- Nothing is stored. -/
def empty : Stored := ⟨fun _ => none, fun _ => none⟩

/-- Drop what a document exports. -/
def removeContent (t : Stored) (documentId : ℕ) : Stored :=
  if documentId = InvalidDocumentId then t
  else { t with exported := update t.exported documentId none }

/-- Drop what a document refers to. -/
def removeReferences (t : Stored) (documentId : ℕ) : Stored :=
  if documentId = InvalidDocumentId then t
  else { t with references := update t.references documentId none }

/-- A query changes nothing, and the invalid document cannot be removed. -/
def call (t : Stored) : Call → Stored
  | .updateContent documentId exported =>
    { t with exported := update t.exported documentId (some exported) }
  | .updateReferences documentId descriptions _ =>
    let descriptions := descriptions.map fun reference =>
      { reference with sourceDocumentId := documentId }
    { t with references := update t.references documentId (some descriptions) }
  | .removeContent documentId => t.removeContent documentId
  | .removeReferences documentId => t.removeReferences documentId
  | .remove documentId => (t.removeContent documentId).removeReferences documentId
  | .allElements _ _ | .findByName _ _ | .findAllReferences _ | .isAffected _ _ => t

/-- What stands after the calls. -/
def run (calls : List Call) : Stored := calls.foldl call empty

/-- The exports of a document that have a type. -/
def elements (reflection : AstReflection) (t : Stored) (type : Option TypeIndex) (documentId : ℕ) :
    List AstNodeDescription :=
  ((t.exported documentId).getD []).filter fun description =>
    type.all fun type => AstReflection.type_is_assignable description.type type reflection

/-- The references of a document to a target. -/
def referencesTo (t : Stored) (targetKey : NodeKey) (documentId : ℕ) : List ReferenceDescription :=
  ((t.references documentId).getD []).filter fun reference => reference.targetKey = some targetKey

end Stored

/-! ### Entries of a hash map -/

section Entries

variable {order : HashOrder (ℕ × List ReferenceDescription)}
variable {entries : List (ℕ × List ReferenceDescription)} {documentId : ℕ}
variable {descriptions : List ReferenceDescription}

theorem mem_insert_or_assign {d : ℕ} {v : List ReferenceDescription} :
    (d, v) ∈ insert_or_assign order documentId descriptions entries
      ↔ if d = documentId then v = descriptions else (d, v) ∈ entries := by
  unfold insert_or_assign
  split
  next hmem =>
    rw [List.mem_map]
    constructor
    · rintro ⟨entry, hentry, heq⟩
      split at heq
      next hkey =>
        cases heq
        rw [if_pos rfl]
      next hkey =>
        subst heq
        rw [if_neg hkey]
        exact hentry
    · intro h
      split at h
      next heq =>
        subst heq h
        obtain ⟨entry, hentry, hkey⟩ := List.mem_map.mp hmem
        exact ⟨entry, hentry, if_pos hkey⟩
      next hne => exact ⟨(d, v), h, if_neg hne⟩
  next hfresh =>
    rw [(order.perm _).mem_iff, List.mem_cons, Prod.mk.injEq]
    split
    next heq =>
      subst heq
      refine ⟨?_, fun h => .inl ⟨rfl, h⟩⟩
      rintro (⟨-, h⟩ | h)
      · exact h
      · exact absurd (List.mem_map_of_mem h) hfresh
    next hne =>
      exact or_iff_right fun h => hne h.1

theorem nodup_insert_or_assign (h : (entries.map Prod.fst).Nodup) :
    ((insert_or_assign order documentId descriptions entries).map Prod.fst).Nodup := by
  unfold insert_or_assign
  split
  · -- the keys stay
    have hkeys : (entries.map fun entry =>
        if entry.1 = documentId then (documentId, descriptions) else entry).map Prod.fst
          = entries.map Prod.fst := by
      rw [List.map_map]
      apply List.map_congr_left
      intro entry _
      show (if entry.1 = documentId then (documentId, descriptions) else entry).1 = entry.1
      split
      next hkey => exact hkey.symm
      next => rfl
    exact hkeys ▸ h
  next hfresh =>
    apply ((order.perm _).map Prod.fst).nodup_iff.mpr
    exact List.nodup_cons.mpr ⟨hfresh, h⟩

/-- With one entry for each key, a lookup finds the entry. -/
theorem lookup_eq_some_iff (h : (entries.map Prod.fst).Nodup) {v : List ReferenceDescription} :
    entries.lookup documentId = some v ↔ (documentId, v) ∈ entries := by
  induction entries with
  | nil => simp
  | cons entry entries ih =>
    obtain ⟨d, w⟩ := entry
    rw [List.map_cons, List.nodup_cons] at h
    rw [List.lookup_cons, List.mem_cons, Prod.mk.injEq]
    rcases eq_or_ne documentId d with rfl | hne
    · simp only [beq_self_eq_true, true_and]
      refine ⟨fun hw => .inl (Option.some.inj hw).symm, ?_⟩
      rintro (rfl | hmem)
      · rfl
      · exact absurd (List.mem_map_of_mem hmem) h.1
    · rw [beq_false_of_ne hne]
      exact (ih h.2).trans (or_iff_right fun hd => hne hd.1).symm

end Entries

/-! ### The invariant -/

/-- **The index holds what was stored**, and its caches hold nothing else. -/
structure Holds (reflection : AstReflection) (s : DefaultIndexManager) (t : Stored) : Prop where
  exported : ∀ d, s.exportsByDocument[d]? = t.exported d
  nodup : (s.referencesByDocument.map Prod.fst).Nodup
  references : ∀ d v, (d, v) ∈ s.referencesByDocument ↔ t.references d = some v
  byType : ∀ d type cached, s.exportsByTypeCache d type = some cached →
    ∃ exported, t.exported d = some exported ∧
      cached = filterDescriptionsByType reflection exported type
  byTarget : s.referenceTargetCacheDirty = false → ∀ key,
    s.referencesByTargetKeyCache key
      = s.referencesByDocument.flatMap fun entry => entry.2.filter (·.targetKey = some key)

section Invariant

variable {reflection : AstReflection}
variable {s : DefaultIndexManager} {t : Stored}

theorem holds_empty : Holds reflection empty Stored.empty where
  exported d := by simp [empty, Stored.empty]
  nodup := .nil
  references d v := by simp [empty, Stored.empty]
  byType _ _ _ := nofun
  byTarget := nofun

/-- The exports of a document change, and its entries by type go. -/
theorem Holds.setExported (h : Holds reflection s t) {documentId : ℕ}
    {m : Std.TreeMap ℕ (List AstNodeDescription)} {v : Option (List AstNodeDescription)}
    (hm : ∀ d, m[d]? = update t.exported documentId v d) :
    Holds reflection ({ s with exportsByDocument := m }.clearTypeCache documentId)
      { t with exported := update t.exported documentId v } where
  exported := hm
  nodup := h.nodup
  references := h.references
  byTarget := h.byTarget
  byType d type cached hcached := by
    have hcache : update s.exportsByTypeCache documentId (fun _ => none) d type = some cached :=
      hcached
    rcases eq_or_ne d documentId with rfl | hne
    · rw [update_self] at hcache
      cases hcache
    · rw [update_of_ne hne] at hcache
      show ∃ exported, update t.exported documentId v d = some exported ∧ _
      rw [update_of_ne hne]
      exact h.byType d type cached hcache

theorem Holds.updateContent (h : Holds reflection s t) (documentId : ℕ)
    (exported : List AstNodeDescription) :
    Holds reflection (s.updateContent documentId exported)
      (t.call (.updateContent documentId exported)) := by
  refine h.setExported fun d => ?_
  rw [Std.TreeMap.getElem?_insert, h.exported]
  rcases eq_or_ne d documentId with rfl | hne
  · rw [update_self, if_pos (Std.compare_self)]
  · rw [update_of_ne hne, if_neg]
    exact fun heq => hne (Nat.compare_eq_eq.mp heq).symm

theorem Holds.removeContent (h : Holds reflection s t) (documentId : ℕ) :
    Holds reflection (s.removeContent documentId).1 (t.removeContent documentId) := by
  unfold DefaultIndexManager.removeContent Stored.removeContent
  split
  · exact h
  split
  · refine h.setExported fun d => ?_
    rw [Std.TreeMap.getElem?_erase, h.exported]
    rcases eq_or_ne d documentId with rfl | hne
    · rw [update_self, if_pos (Std.compare_self)]
    · rw [update_of_ne hne, if_neg]
      exact fun heq => hne (Nat.compare_eq_eq.mp heq).symm
  next hmem =>
    -- the document has no exports
    have hnone : t.exported documentId = none := by
      rw [← h.exported]
      exact Std.TreeMap.getElem?_eq_none hmem
    have hsame : update t.exported documentId none = t.exported := by
      rw [← hnone, Function.update_eq_self]
    rw [hsame]
    exact h

/-- The references of a document change, and the cache is dirty. -/
theorem Holds.setReferences (h : Holds reflection s t) {documentId : ℕ}
    {entries : List (ℕ × List ReferenceDescription)} {v : Option (List ReferenceDescription)}
    (hnodup : (entries.map Prod.fst).Nodup)
    (hentries : ∀ d w, (d, w) ∈ entries ↔ update t.references documentId v d = some w) :
    Holds reflection { s with referencesByDocument := entries, referenceTargetCacheDirty := true }
      { t with references := update t.references documentId v } where
  exported := h.exported
  nodup := hnodup
  references := hentries
  byType := h.byType
  byTarget := nofun

theorem Holds.updateReferences (h : Holds reflection s t) (documentId : ℕ)
    (descriptions : List ReferenceDescription)
    (order : HashOrder (ℕ × List ReferenceDescription)) :
    Holds reflection (s.updateReferences order documentId descriptions)
      (t.call (.updateReferences documentId descriptions order)) := by
  refine h.setReferences (nodup_insert_or_assign h.nodup) fun d w => ?_
  rw [mem_insert_or_assign]
  split
  next heq =>
    rw [heq, update_self, Option.some.injEq]
    exact eq_comm
  next hne => rw [update_of_ne hne, h.references]

theorem Holds.removeReferences (h : Holds reflection s t) (documentId : ℕ) :
    Holds reflection (s.removeReferences documentId).1 (t.removeReferences documentId) := by
  unfold DefaultIndexManager.removeReferences Stored.removeReferences
  split
  · exact h
  split
  · refine h.setReferences (h.nodup.sublist (List.filter_sublist.map _)) fun d w => ?_
    rw [List.mem_filter, h.references, decide_eq_true_iff]
    rcases eq_or_ne d documentId with rfl | hne
    · rw [update_self]
      exact iff_of_false (fun hd => hd.2 rfl) nofun
    · rw [update_of_ne hne]
      exact and_iff_left hne
  next hmem =>
    have hnone : t.references documentId = none := by
      rw [Option.eq_none_iff_forall_ne_some]
      exact fun v hv => hmem (List.mem_map_of_mem ((h.references documentId v).mpr hv))
    have hsame : update t.references documentId none = t.references := by
      rw [← hnone, Function.update_eq_self]
    rw [hsame]
    exact h

/-- **The exports of a document by type**: a cached answer is the one the filter gives. -/
theorem Holds.getFileDescriptions (h : Holds reflection s t) (documentId : ℕ)
    (type : Option TypeIndex) :
    Holds reflection (s.getFileDescriptions reflection documentId type).1 t ∧
      (s.getFileDescriptions reflection documentId type).2
        = t.elements reflection type documentId := by
  unfold DefaultIndexManager.getFileDescriptions Stored.elements
  rw [h.exported]
  rcases hexported : t.exported documentId with - | exported
  · exact ⟨h, rfl⟩
  cases type with
  | none => exact ⟨h, by simp⟩
  | some type =>
    dsimp only
    rcases hcache : s.exportsByTypeCache documentId type with - | cached
    · refine ⟨⟨h.exported, h.nodup, h.references, fun d u cached hcached => ?_, h.byTarget⟩, rfl⟩
      -- the new entry, or one that was there
      have hentry : update s.exportsByTypeCache documentId (update
          (s.exportsByTypeCache documentId) type
            (some (filterDescriptionsByType reflection exported type))) d u = some cached := hcached
      rcases eq_or_ne d documentId with rfl | hd
      · rw [update_self] at hentry
        rcases eq_or_ne u type with rfl | hu
        · rw [update_self] at hentry
          exact ⟨exported, hexported, (Option.some.inj hentry).symm⟩
        · rw [update_of_ne hu] at hentry
          exact h.byType d u cached hentry
      · rw [update_of_ne hd] at hentry
        exact h.byType d u cached hentry
    · obtain ⟨exported', hexported', rfl⟩ := h.byType documentId type cached hcache
      rw [hexported, Option.some.injEq] at hexported'
      exact ⟨h, by rw [hexported']; rfl⟩

theorem Holds.collect (h : Holds reflection s t) (type : Option TypeIndex)
    (documentIds : List ℕ) :
    Holds reflection (s.collect reflection type documentIds).1 t ∧
      (s.collect reflection type documentIds).2
        = documentIds.flatMap (t.elements reflection type) := by
  induction documentIds generalizing s with
  | nil => exact ⟨h, rfl⟩
  | cons documentId documentIds ih =>
    obtain ⟨hfile, hanswer⟩ := h.getFileDescriptions documentId type
    obtain ⟨hrest, hanswers⟩ := ih hfile
    refine ⟨hrest, ?_⟩
    rw [List.flatMap_cons, ← hanswer, ← hanswers]
    rfl

theorem Holds.allElements (h : Holds reflection s t) (type : Option TypeIndex)
    (documentIds : List ℕ) : Holds reflection (s.allElements reflection type documentIds).1 t := by
  unfold DefaultIndexManager.allElements
  split
  · exact (h.collect type _).1
  · exact (h.collect type _).1

theorem foldl_references (references : List ReferenceDescription)
    (cache : NodeKey → List ReferenceDescription) (key : NodeKey) :
    references.foldl (fun cache reference =>
      match reference.targetKey with
      | none => cache
      | some key => update cache key (cache key ++ [reference])) cache key
      = cache key ++ references.filter (·.targetKey = some key) := by
  induction references generalizing cache with
  | nil => exact (List.append_nil _).symm
  | cons reference references ih =>
    rw [List.foldl_cons, ih]
    rcases htarget : reference.targetKey with - | target
    · simp [htarget]
    · rcases eq_or_ne key target with rfl | hne
      · simp [htarget]
      · simp [htarget, update_of_ne hne, hne.symm]

theorem foldl_entries (entries : List (ℕ × List ReferenceDescription))
    (cache : NodeKey → List ReferenceDescription) (key : NodeKey) :
    entries.foldl (fun cache entry =>
      entry.2.foldl (fun cache reference =>
        match reference.targetKey with
        | none => cache
        | some key => update cache key (cache key ++ [reference])) cache) cache key
      = cache key ++ entries.flatMap fun entry => entry.2.filter (·.targetKey = some key) := by
  induction entries generalizing cache with
  | nil => exact (List.append_nil _).symm
  | cons entry entries ih =>
    rw [List.foldl_cons, ih, foldl_references, List.flatMap_cons, List.append_assoc]

theorem Holds.rebuild (h : Holds reflection s t) :
    Holds reflection s.rebuildReferenceTargetCache t ∧
      s.rebuildReferenceTargetCache.referenceTargetCacheDirty = false := by
  unfold rebuildReferenceTargetCache
  split
  next hclean =>
    rw [Bool.not_eq_true'] at hclean
    exact ⟨h, hclean⟩
  next =>
    refine ⟨⟨h.exported, h.nodup, h.references, h.byType, fun _ key => ?_⟩, rfl⟩
    exact (foldl_entries _ _ key).trans (List.nil_append _)

theorem Holds.findAllReferences (h : Holds reflection s t) (targetKey : NodeKey) :
    Holds reflection (s.findAllReferences targetKey).1 t := by
  unfold DefaultIndexManager.findAllReferences
  split
  · exact h
  · exact h.rebuild.1

theorem Holds.call (h : Holds reflection s t) (c : Call) :
    Holds reflection (s.call reflection c) (t.call c) := by
  cases c with
  | updateContent documentId exported => exact h.updateContent documentId exported
  | updateReferences documentId descriptions order =>
    exact h.updateReferences documentId descriptions order
  | removeContent documentId => exact h.removeContent documentId
  | removeReferences documentId => exact h.removeReferences documentId
  | remove documentId => exact (h.removeContent documentId).removeReferences documentId
  | allElements type documentIds => exact h.allElements type documentIds
  | findByName name type => exact h
  | findAllReferences targetKey => exact h.findAllReferences targetKey
  | isAffected documentId changed => exact h

theorem holds_run (reflection : AstReflection) (calls : List Call) :
    Holds reflection (run reflection calls) (Stored.run calls) := by
  have hstep : ∀ (calls : List Call) (s : DefaultIndexManager) (t : Stored),
      Holds reflection s t →
        Holds reflection (calls.foldl (call reflection) s) (calls.foldl Stored.call t) := by
    intro calls
    induction calls with
    | nil => exact fun _ _ h => h
    | cons c calls ih => exact fun s t h => ih _ _ (h.call c)
  exact hstep calls _ _ holds_empty

end Invariant

/-! ### Queries and scans -/

/-- Every query answers what a scan of the stored documents finds: exports by
document id and then in their own order, or by the documents asked for; references
document by document, in the order of the hash map. -/
structure Scans (reflection : AstReflection) (s : DefaultIndexManager) (t : Stored) : Prop where
  exported : ∃ documents : List ℕ, documents.Pairwise (· < ·) ∧
    (∀ d, d ∈ documents ↔ (t.exported d).isSome) ∧ ∀ type,
      (s.allElements reflection type []).2 = documents.flatMap (t.elements reflection type) ∧
        ∀ name, s.findByName reflection name type
          = (s.allElements reflection type []).2.find? (·.name == name)
  selected : ∀ type documentIds, documentIds ≠ [] →
    (s.allElements reflection type documentIds).2
      = documentIds.flatMap (t.elements reflection type)
  references : ∃ documents : List ℕ, documents.Nodup ∧
    (∀ d, d ∈ documents ↔ (t.references d).isSome) ∧
      ∀ key, (s.findAllReferences key).2 = documents.flatMap (t.referencesTo key)
  affected : ∀ d changed, s.isAffected d changed
    = ((t.references d).getD []).any fun reference =>
        !reference.local && reference.targetDocumentId.any changed.contains

section Answers

variable {reflection : AstReflection} {s : DefaultIndexManager} {t : Stored}

theorem Holds.allElements_eq (h : Holds reflection s t) (type : Option TypeIndex) :
    (s.allElements reflection type []).2
      = s.exportsByDocument.keys.flatMap (t.elements reflection type) :=
  (h.collect type _).2

/-- The entries of the ordered map, by their keys. -/
theorem Holds.toList_eq (h : Holds reflection s t) :
    s.exportsByDocument.toList
      = s.exportsByDocument.keys.map fun d => (d, (t.exported d).getD []) := by
  rw [← Std.TreeMap.map_fst_toList_eq_keys, List.map_map]
  refine ((List.map_id _).symm.trans ?_)
  apply List.map_congr_left
  rintro ⟨d, exported⟩ hmem
  have hd := Std.TreeMap.mem_toList_iff_getElem?_eq_some.mp hmem
  rw [h.exported] at hd
  show (d, exported) = (d, (t.exported d).getD [])
  rw [hd]
  rfl

/-- The first export of a name is the first of that name among all exports. -/
theorem Holds.findByName_eq (h : Holds reflection s t) (name : String) (type : Option TypeIndex) :
    s.findByName reflection name type
      = (s.allElements reflection type []).2.find? (·.name == name) := by
  rw [h.allElements_eq, List.find?_flatMap, findByName, h.toList_eq, List.findSome?_map]
  congr 1
  funext d
  show List.find? _ ((t.exported d).getD []) = List.find? _ (List.filter _ _)
  rw [List.find?_filter]
  congr 1
  funext description
  rw [Bool.and_comm, Bool.decide_and, Bool.decide_eq_true, Bool.decide_eq_true]

theorem Holds.findAllReferences_eq (h : Holds reflection s t) (key : NodeKey) :
    (s.findAllReferences key).2
      = (s.referencesByDocument.map Prod.fst).flatMap (t.referencesTo key) := by
  have hentries : s.referencesByDocument.flatMap
      (fun entry => entry.2.filter (·.targetKey = some key))
        = (s.referencesByDocument.map Prod.fst).flatMap (t.referencesTo key) := by
    rw [List.flatMap_map]
    apply List.flatMap_congr
    rintro ⟨d, references⟩ hmem
    unfold Stored.referencesTo
    rw [(h.references d references).mp hmem]
    rfl
  rw [← hentries]
  unfold DefaultIndexManager.findAllReferences
  split
  next hempty =>
    -- no reference leads to an invalid node
    refine (List.flatMap_eq_nil_iff.mpr fun entry _ => ?_).symm
    refine List.filter_eq_nil_iff.mpr fun reference _ hkey => ?_
    have hvalid := ReferenceDescription.not_empty_of_targetKey (of_decide_eq_true hkey)
    rw [hempty] at hvalid
    cases hvalid
  next =>
    obtain ⟨hrebuilt, hclean⟩ := h.rebuild
    have hsame : s.rebuildReferenceTargetCache.referencesByDocument = s.referencesByDocument := by
      unfold rebuildReferenceTargetCache
      split
      · rfl
      · rfl
    exact hsame ▸ hrebuilt.byTarget hclean key

theorem Holds.isAffected_eq (h : Holds reflection s t) (d : ℕ) (changed : List ℕ) :
    s.isAffected d changed = ((t.references d).getD []).any fun reference =>
      !reference.local && reference.targetDocumentId.any changed.contains := by
  have hlookup : s.referencesByDocument.lookup d = t.references d := by
    apply Option.ext
    intro v
    rw [lookup_eq_some_iff h.nodup, h.references]
  unfold isAffected
  split
  next hnone =>
    rw [List.isEmpty_iff] at hnone
    subst hnone
    refine (List.any_eq_false.mpr fun reference _ => ?_).symm
    cases reference.targetDocumentId <;> simp
  next =>
    rw [hlookup]
    rcases t.references d with - | references
    · rfl
    · rfl

theorem Holds.scans (h : Holds reflection s t) : Scans reflection s t where
  exported := by
    refine ⟨s.exportsByDocument.keys, ?_, fun d => ?_, fun type =>
      ⟨h.allElements_eq type, fun name => h.findByName_eq name type⟩⟩
    · exact Std.TreeMap.ordered_keys.imp fun hlt => Nat.compare_eq_lt.mp hlt
    · rw [Std.TreeMap.mem_keys, Std.TreeMap.mem_iff_isSome_getElem?, h.exported]
  selected type documentIds hne := by
    unfold DefaultIndexManager.allElements
    rw [if_neg (by simpa using hne)]
    exact (h.collect type documentIds).2
  references := by
    refine ⟨s.referencesByDocument.map Prod.fst, h.nodup, fun d => ?_,
      h.findAllReferences_eq⟩
    rw [Option.isSome_iff_exists, List.mem_map]
    constructor
    · rintro ⟨⟨d, references⟩, hmem, rfl⟩
      exact ⟨references, (h.references d references).mp hmem⟩
    · rintro ⟨references, hreferences⟩
      exact ⟨(d, references), (h.references d references).mpr hreferences, rfl⟩
  affected := h.isAffected_eq

end Answers

/-- **The index is its scan**: after any calls, queries among them, every query
answers what a scan of the latest exports and references finds. -/
theorem queries_scan (reflection : AstReflection) (calls : List Call) :
    Scans reflection (run reflection calls) (Stored.run calls) :=
  (holds_run reflection calls).scans

/-- **References do not come in document-id order**: the hash map may go over the
newest entry first. -/
theorem not_findAllReferences_ordered :
    ¬ ∀ (calls : List Call) (key : NodeKey),
      (((run .empty calls).findAllReferences key).2.map (·.sourceDocumentId)).Pairwise
        (· ≤ ·) := by
  intro h
  let newestFirst : HashOrder (ℕ × List ReferenceDescription) := ⟨id, fun _ => .refl _⟩
  have hnewest := h
    [.updateReferences 1 [{ targetDocumentId := some 0, targetSymbolId := some 0 }] newestFirst,
      .updateReferences 2 [{ targetDocumentId := some 0, targetSymbolId := some 0 }] newestFirst]
    ⟨0, 0⟩
  exact absurd hnewest (by decide)

end DefaultIndexManager

end Pegium.Symbol
