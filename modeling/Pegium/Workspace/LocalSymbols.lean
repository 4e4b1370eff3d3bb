/-
Pegium/Workspace/LocalSymbols.lean

The local symbols of a document.

The symbols of a container are grouped into buckets, one for each type, and a
bucket has an index from names to its symbols.  Symbols are added in document
order, so the buckets come in the order of the first symbol of each type, and
each bucket keeps the order of its own symbols.

Main results: `lists_of`, the entries of a name in a bucket, and `forContainer_of`,
the buckets of a container.
-/
import Mathlib.Data.List.Basic
import Mathlib.Data.List.Induction
import Mathlib.Data.List.Nodup
import Mathlib.Logic.Function.Basic
import Pegium.Workspace.Symbol

namespace Pegium.Symbol

open Function (update update_self update_of_ne)

/-- The scope entries of a name, the first one apart. -/
structure NamedScopeEntries where
  first : Option AstNodeDescription := none
  duplicates : List AstNodeDescription := []
  deriving DecidableEq

namespace NamedScopeEntries

/-- The first entry of a name is kept apart from the ones behind it. -/
def add (entries : NamedScopeEntries) (entry : AstNodeDescription) : NamedScopeEntries :=
  match entries.first with
  | none => { entries with first := some entry }
  | some _ => { entries with duplicates := entries.duplicates ++ [entry] }

/-- The entry a name is linked to. -/
def firstEntry (entries : NamedScopeEntries) : Option AstNodeDescription := entries.first

/-- All entries, the first one first. -/
def toList (entries : NamedScopeEntries) : List AstNodeDescription :=
  entries.first.toList ++ entries.duplicates

end NamedScopeEntries

/-- `NamedScopeEntryIndex`: from names to their entries. -/
abbrev NamedScopeEntryIndex := String → Option NamedScopeEntries

namespace NamedScopeEntryIndex

/-- `try_emplace(name).first->second.add(entry)`. -/
def add (index : NamedScopeEntryIndex) (entry : AstNodeDescription) : NamedScopeEntryIndex :=
  update index entry.name (some (((index entry.name).getD {}).add entry))

/-- The index of some entries, added one after the other. -/
def of (entries : List AstNodeDescription) : NamedScopeEntryIndex :=
  entries.foldl add fun _ => none

end NamedScopeEntryIndex

/-- The scope entries of a type. -/
structure ScopeEntryBucket where
  type : TypeIndex
  ownedEntries : List AstNodeDescription := []
  entriesByName : NamedScopeEntryIndex := fun _ => none

/-- The entries of a container, by type. -/
abbrev BucketedScopeEntries := List ScopeEntryBucket

/-- The buckets of each container. -/
structure LocalSymbols where
  byContainer : ℕ → Option BucketedScopeEntries

namespace LocalSymbols

/-- No container has entries. -/
def empty : LocalSymbols := ⟨fun _ => none⟩

/-- Put an entry into the bucket. -/
def store (bucket : ScopeEntryBucket) (description : AstNodeDescription) : ScopeEntryBucket :=
  { bucket with
    ownedEntries := bucket.ownedEntries ++ [description]
    entriesByName := bucket.entriesByName.add description }

/-- The bucket of the type, or a fresh one after the others. -/
def insert (description : AstNodeDescription) : BucketedScopeEntries → BucketedScopeEntries
  | [] => [store { type := description.type } description]
  | bucket :: buckets =>
    if bucket.type = description.type then store bucket description :: buckets
    else bucket :: insert description buckets

/-- Put an entry into its container. -/
def emplace (symbols : LocalSymbols) (container : ℕ) (description : AstNodeDescription) :
    LocalSymbols :=
  ⟨update symbols.byContainer container
    (some (insert description ((symbols.byContainer container).getD [])))⟩

/-- The entries of a container. -/
def forContainer (symbols : LocalSymbols) (container : ℕ) : Option BucketedScopeEntries :=
  symbols.byContainer container

/-- The local symbols of a document: each with its container, in document order. -/
def of (declared : List (ℕ × AstNodeDescription)) : LocalSymbols :=
  declared.foldl (fun symbols declaration => symbols.emplace declaration.1 declaration.2) empty

end LocalSymbols

/-! ### The index of a bucket -/

namespace NamedScopeEntryIndex

theorem toList_add (entries : NamedScopeEntries) (entry : AstNodeDescription)
    (h : entries.first = none → entries.duplicates = []) :
    (entries.add entry).toList = entries.toList ++ [entry] ∧
      ((entries.add entry).first = none → (entries.add entry).duplicates = []) := by
  obtain ⟨first, duplicates⟩ := entries
  unfold NamedScopeEntries.add
  cases first with
  | none =>
    obtain rfl : duplicates = [] := h rfl
    exact ⟨rfl, fun _ => rfl⟩
  | some first => exact ⟨rfl, nofun⟩

/-- What the index has for a name. -/
structure Lists (entries : List AstNodeDescription) (named : Option NamedScopeEntries) : Prop where
  none : named = none ↔ entries = []
  toList : ∀ e, named = some e → e.toList = entries ∧ (e.first = .none → e.duplicates = [])

/-- **The index lists the entries of each name** in their order. -/
theorem lists_of (entries : List AstNodeDescription) (name : String) :
    Lists (entries.filter (·.name = name)) (of entries name) := by
  induction entries using List.reverseRecOn with
  | nil => exact ⟨iff_of_true rfl rfl, nofun⟩
  | append_singleton entries entry ih =>
    have hof : of (entries ++ [entry]) = (of entries).add entry := by
      unfold of
      rw [List.foldl_append]
      rfl
    rw [hof, List.filter_append, List.filter_singleton]
    rcases eq_or_ne entry.name name with rfl | hne
    · have hadd : (of entries).add entry entry.name
          = some (((of entries entry.name).getD {}).add entry) := update_self ..
      have hstored : ((of entries entry.name).getD {}).toList
            = entries.filter (·.name = entry.name) ∧
          (((of entries entry.name).getD {}).first = none →
            ((of entries entry.name).getD {}).duplicates = []) := by
        rcases hcase : of entries entry.name with - | e
        · exact ⟨(ih.none.mp hcase).symm, fun _ => rfl⟩
        · exact ih.toList e hcase
      obtain ⟨hlist, hdup⟩ := toList_add _ entry hstored.2
      rw [hadd, decide_eq_true rfl]
      refine ⟨iff_of_false nofun (by simp), ?_⟩
      rintro e ⟨⟩
      exact ⟨by rw [hlist, hstored.1]; rfl, hdup⟩
    · have hadd : (of entries).add entry name = of entries name := update_of_ne hne.symm ..
      rw [hadd, decide_eq_false hne]
      simpa using ih

end NamedScopeEntryIndex

/-! ### The buckets of a container -/

namespace LocalSymbols

/-- The types of some symbols, by the first symbol of each. -/
def types (declared : List AstNodeDescription) : List TypeIndex :=
  declared.foldl (fun types d => if d.type ∈ types then types else types ++ [d.type]) []

/-- The bucket of a type. -/
def bucket (declared : List AstNodeDescription) (type : TypeIndex) : ScopeEntryBucket where
  type := type
  ownedEntries := declared.filter (·.type = type)
  entriesByName := .of (declared.filter (·.type = type))

/-- The symbols of a container. -/
def declaredIn (declared : List (ℕ × AstNodeDescription)) (container : ℕ) :
    List AstNodeDescription :=
  (declared.filter (·.1 = container)).map Prod.snd

section Buckets

variable (declared : List AstNodeDescription) (d : AstNodeDescription)

theorem types_append : types (declared ++ [d])
    = if d.type ∈ types declared then types declared else types declared ++ [d.type] := by
  unfold types
  rw [List.foldl_append]
  rfl

theorem mem_types {type : TypeIndex} : type ∈ types declared ↔ ∃ d ∈ declared, d.type = type := by
  induction declared using List.reverseRecOn with
  | nil => exact iff_of_false List.not_mem_nil (by simp)
  | append_singleton declared d ih =>
    rw [types_append]
    split
    next hmem =>
      constructor
      · intro htype
        obtain ⟨e, he, htype⟩ := ih.mp htype
        exact ⟨e, List.mem_append_left _ he, htype⟩
      · rintro ⟨e, he, rfl⟩
        rcases List.mem_append.mp he with he | he
        · exact ih.mpr ⟨e, he, rfl⟩
        · rwa [List.mem_singleton.mp he]
    next hnew => simp [ih, or_and_right, exists_or, eq_comm]

/-- A search through the types is one through the symbols. -/
theorem find?_types (p : TypeIndex → Bool) :
    (types declared).find? p = (declared.map (·.type)).find? p := by
  induction declared using List.reverseRecOn with
  | nil => rfl
  | append_singleton declared d ih =>
    rw [types_append, List.map_append, List.find?_append, ← ih]
    split
    next hmem =>
      rcases hfind : (types declared).find? p with - | type
      · -- the type of the new symbol was there, and it was not chosen
        have hnot : ¬ p d.type := List.find?_eq_none.mp hfind d.type hmem
        simp [hnot]
      · rfl
    next hnew => rw [List.find?_append]; rfl

theorem bucket_store : store (bucket declared d.type) d = bucket (declared ++ [d]) d.type := by
  unfold store bucket
  simp only [List.filter_append, List.filter_singleton, decide_true]
  unfold NamedScopeEntryIndex.of
  rw [List.foldl_append]
  rfl

theorem bucket_append_of_ne {type : TypeIndex} (h : d.type ≠ type) :
    bucket (declared ++ [d]) type = bucket declared type := by
  unfold bucket
  simp [List.filter_append, h]

/-- **One symbol more**: its bucket grows, or a fresh one comes last. -/
theorem insert_buckets (types : List TypeIndex) (hnodup : types.Nodup)
    (hnew : d.type ∉ types → declared.filter (·.type = d.type) = []) :
    insert d (types.map (bucket declared))
      = (if d.type ∈ types then types else types ++ [d.type]).map (bucket (declared ++ [d])) := by
  induction types with
  | nil =>
    have hfresh : bucket declared d.type = { type := d.type } := by
      unfold bucket
      rw [hnew List.not_mem_nil]
      rfl
    show [store { type := d.type } d] = _
    rw [← hfresh, bucket_store]
    rfl
  | cons type types ih =>
    obtain ⟨hhead, htail⟩ := List.nodup_cons.mp hnodup
    show (if type = d.type then store (bucket declared type) d :: types.map (bucket declared)
      else bucket declared type :: insert d (types.map (bucket declared))) = _
    rcases eq_or_ne type d.type with rfl | hne
    · rw [if_pos rfl, if_pos List.mem_cons_self, List.map_cons, bucket_store]
      congr 1
      refine List.map_congr_left fun u hu => (bucket_append_of_ne declared d ?_).symm
      exact fun heq => hhead (heq ▸ hu)
    · rw [if_neg hne, ih htail fun h => hnew (by simpa [hne.symm] using h)]
      have hiff : d.type ∈ type :: types ↔ d.type ∈ types := by simp [hne.symm]
      rw [if_congr hiff rfl rfl, ← bucket_append_of_ne declared d hne.symm]
      split
      · rfl
      · rfl

theorem nodup_types : (types declared).Nodup := by
  induction declared using List.reverseRecOn with
  | nil => exact List.nodup_nil
  | append_singleton declared d ih =>
    rw [types_append]
    split
    · exact ih
    next hnew => exact ih.append (List.nodup_singleton _) (by simpa using hnew)

end Buckets

/-- **The buckets of a container**: one for each type, by its first symbol. -/
theorem forContainer_of (declared : List (ℕ × AstNodeDescription)) (container : ℕ) :
    ((of declared).forContainer container).getD []
      = (types (declaredIn declared container)).map (bucket (declaredIn declared container)) := by
  unfold forContainer
  induction declared using List.reverseRecOn with
  | nil => rfl
  | append_singleton declared declaration ih =>
    have hof : of (declared ++ [declaration])
        = (of declared).emplace declaration.1 declaration.2 := by
      unfold of
      rw [List.foldl_append]
      rfl
    have hin : declaredIn (declared ++ [declaration]) container
        = declaredIn declared container
          ++ if declaration.1 = container then [declaration.2] else [] := by
      unfold declaredIn
      rw [List.filter_append, List.map_append, List.filter_singleton]
      congr 1
      by_cases h : declaration.1 = container
      · simp [h]
      · simp [h]
    rw [hof, hin]
    unfold emplace
    rcases eq_or_ne declaration.1 container with rfl | hne
    · rw [if_pos rfl, types_append]
      show (update (of declared).byContainer declaration.1 _ declaration.1).getD [] = _
      rw [update_self, Option.getD_some, ih]
      refine insert_buckets _ _ _ (nodup_types _) fun hnew => ?_
      rw [List.filter_eq_nil_iff]
      exact fun e he htype => hnew ((mem_types _).mpr ⟨e, he, by simpa using htype⟩)
    · rw [if_neg hne, List.append_nil, ← ih]
      show (update (of declared).byContainer declaration.1 _ container).getD [] = _
      rw [update_of_ne hne.symm]

end LocalSymbols

end Pegium.Symbol
