/-
Pegium/References/ScopeProvider.lean

The scope of a reference.

A reference sees the symbols of the containers around it, innermost first, and then
the exports of the workspace.  Entries are visited bucket by bucket, and the exports
a type accepts are compiled once and then taken from a cache.

A visitor is a function from what it has seen so far and an entry to what it has
seen then and whether it goes on; every loop over entries is `visitAll`.  Visiting
the scope is visiting one list (`visibleEntries`), and `getScopeEntry` is the first
entry of it.

Main result: `lexical_iff`, when the first entry is the first declaration.  In a
container the order is by the first symbol of each type, so a declaration is passed
over for a later one whose type was there before.
-/
import Mathlib.Data.List.Sort
import Pegium.Workspace.IndexManager
import Pegium.Workspace.LocalSymbols

namespace Pegium.Symbol

open Function (update update_self update_of_ne)

/-- A reference: its text, the type it accepts, and the containers around it. -/
structure ReferenceInfo where
  containers : List ℕ := []
  referenceText : String
  referenceType : TypeIndex
  deriving DecidableEq

/-- The exports a type accepts. -/
structure CompiledGlobalEntries where
  elements : List AstNodeDescription := []
  allEntries : List AstNodeDescription := []
  entriesByName : NamedScopeEntryIndex := fun _ => none

/-- The provider: the index it asks, and what it has compiled. -/
structure DefaultScopeProvider where
  indexManager : DefaultIndexManager
  globalScopeCache : TypeIndex → Option CompiledGlobalEntries

namespace DefaultScopeProvider

/-! ### Visitors -/

section Visitors

variable {σ α β : Type}

/-- `std::ranges::all_of` with a visitor. -/
def visitAll (visitor : σ → α → σ × Bool) (s : σ) : List α → σ × Bool
  | [] => (s, true)
  | x :: xs =>
    match visitor s x with
    | (s, false) => (s, false)
    | (s, true) => visitAll visitor s xs

variable (visitor : σ → α → σ × Bool)

theorem visitAll_append (s : σ) (xs ys : List α) :
    visitAll visitor s (xs ++ ys)
      = match visitAll visitor s xs with
        | (s, false) => (s, false)
        | (s, true) => visitAll visitor s ys := by
  induction xs generalizing s with
  | nil => rfl
  | cons x xs ih =>
    rw [List.cons_append, visitAll, visitAll]
    rcases visitor s x with ⟨s', _ | _⟩
    · rfl
    · exact ih s'

theorem visitAll_map (f : β → α) (s : σ) (xs : List β) :
    visitAll visitor s (xs.map f) = visitAll (fun s x => visitor s (f x)) s xs := by
  induction xs generalizing s with
  | nil => rfl
  | cons x xs ih =>
    rw [List.map_cons, visitAll, visitAll]
    rcases visitor s (f x) with ⟨s', _ | _⟩
    · rfl
    · exact ih s'

/-- Lists visited one after the other. -/
theorem visitAll_flatMap (f : β → List α) (s : σ) (xs : List β) :
    visitAll visitor s (xs.flatMap f) = visitAll (fun s x => visitAll visitor s (f x)) s xs := by
  induction xs generalizing s with
  | nil => rfl
  | cons x xs ih =>
    rw [List.flatMap_cons, visitAll_append, visitAll]
    rcases visitAll visitor s (f x) with ⟨s', _ | _⟩
    · rfl
    · exact ih s'

theorem visitAll_congr {visitor visitor' : σ → α → σ × Bool} {xs : List α}
    (h : ∀ s, ∀ x ∈ xs, visitor s x = visitor' s x) (s : σ) :
    visitAll visitor s xs = visitAll visitor' s xs := by
  induction xs generalizing s with
  | nil => rfl
  | cons x xs ih =>
    rw [visitAll, visitAll, h s x List.mem_cons_self]
    rcases visitor' s x with ⟨s', _ | _⟩
    · rfl
    · exact ih (fun s x hx => h s x (List.mem_cons_of_mem _ hx)) s'

theorem findSome?_eq_bind (f : α → Option β) (xs : List α) :
    xs.findSome? f = (xs.find? fun x => (f x).isSome).bind f := by
  induction xs with
  | nil => rfl
  | cons x xs ih =>
    rw [List.findSome?_cons, List.find?_cons]
    rcases hx : f x with - | y
    · exact ih
    · exact hx.symm

/-- A visitor that keeps the first thing it sees. -/
theorem visitAll_first (xs : List α) :
    (visitAll (fun _ x => (some x, false)) none xs).1 = xs.head? := by
  cases xs with
  | nil => rfl
  | cons x xs => rfl

end Visitors

/-! ### Entries -/

section Entries

variable (reflection : AstReflection)

/-- Visit the first entry of a name and then the ones behind it. -/
def visit_named_entries {σ : Type} (entries : NamedScopeEntries)
    (visitor : σ → AstNodeDescription → σ × Bool) (s : σ) : σ × Bool :=
  match entries.first with
  | none => (s, true)
  | some first =>
    match visitor s first with
    | (s, false) => (s, false)
    | (s, true) => visitAll visitor s entries.duplicates

/-- The type of the bucket is the one referred to or below it. -/
def accepts_bucket (referenceType : TypeIndex) (bucket : ScopeEntryBucket) : Bool :=
  AstReflection.type_is_assignable bucket.type referenceType reflection

/-- The first entry of the name in a bucket of an accepted type. -/
def find_scope_entry (entries : BucketedScopeEntries) (referenceType : TypeIndex)
    (name : String) : Option AstNodeDescription :=
  match entries with
  | [] => none
  | bucket :: buckets =>
    match bucket.entriesByName name with
    | none => find_scope_entry buckets referenceType name
    | some named =>
      if accepts_bucket reflection referenceType bucket then named.firstEntry
      else find_scope_entry buckets referenceType name

/-- A reference without text sees all entries of a type. -/
def visit_entries {σ : Type} (entries : BucketedScopeEntries) (referenceType : TypeIndex)
    (name : String) (visitor : σ → AstNodeDescription → σ × Bool) (s : σ) : σ × Bool :=
  visitAll (fun s bucket =>
    if name.isEmpty then
      if accepts_bucket reflection referenceType bucket then
        visitAll visitor s bucket.ownedEntries
      else (s, true)
    else
      match bucket.entriesByName name with
      | none => (s, true)
      | some named =>
        if accepts_bucket reflection referenceType bucket then
          visit_named_entries named visitor s
        else (s, true)) s entries

/-- Visit the containers from the inside out. -/
def visit_local_scope_levels {σ : Type} (localSymbols : LocalSymbols) (containers : List ℕ)
    (visitor : σ → BucketedScopeEntries → σ × Bool) (s : σ) : σ × Bool :=
  visitAll (fun s current =>
    match localSymbols.forContainer current with
    | none => (s, true)
    | some entries => visitor s entries) s containers

end Entries

/-! ### The provider -/

section Provider

variable (reflection : AstReflection)

/-- The exports of the index by name. -/
def compile (elements : List AstNodeDescription) : CompiledGlobalEntries where
  elements := elements
  allEntries := elements
  entriesByName := .of elements

/-- Through the cache. -/
def getGlobalEntries (p : DefaultScopeProvider) (referenceType : TypeIndex) :
    DefaultScopeProvider × CompiledGlobalEntries :=
  match p.globalScopeCache referenceType with
  | some compiled => (p, compiled)
  | none =>
    if referenceType = .void then
      ({ p with globalScopeCache := update p.globalScopeCache referenceType (some {}) }, {})
    else
      let (indexManager, elements) := p.indexManager.allElements reflection (some referenceType) []
      let compiled := compile elements
      ({ indexManager := indexManager
         globalScopeCache := update p.globalScopeCache referenceType (some compiled) }, compiled)

/-- The entry of the innermost container, or an exported one. -/
def getScopeEntry (p : DefaultScopeProvider) (localSymbols : LocalSymbols)
    (context : ReferenceInfo) : DefaultScopeProvider × Option AstNodeDescription :=
  if context.referenceText.isEmpty then (p, none)
  else
    let (entry, _) := visit_local_scope_levels localSymbols context.containers
      (fun _ entries =>
        let entry := find_scope_entry reflection entries context.referenceType
          context.referenceText
        (entry, entry.isNone)) none
    match entry with
    | some entry => (p, some entry)
    | none =>
      let (p, globalEntries) := p.getGlobalEntries reflection context.referenceType
      match globalEntries.entriesByName context.referenceText with
      | none => (p, none)
      | some named => (p, named.firstEntry)

/-- Visit the local entries and then the exported ones. -/
def visitScopeEntries {σ : Type} (p : DefaultScopeProvider) (localSymbols : LocalSymbols)
    (context : ReferenceInfo) (visitor : σ → AstNodeDescription → σ × Bool) (s : σ) :
    DefaultScopeProvider × σ × Bool :=
  match visit_local_scope_levels localSymbols context.containers
      (fun s entries => visit_entries reflection entries context.referenceType
        context.referenceText visitor s) s with
  | (s, false) => (p, s, false)
  | (s, true) =>
    let (p, globalEntries) := p.getGlobalEntries reflection context.referenceType
    if context.referenceText.isEmpty then (p, visitAll visitor s globalEntries.allEntries)
    else
      match globalEntries.entriesByName context.referenceText with
      | none => (p, s, true)
      | some named => (p, visit_named_entries named visitor s)

/-- The entry a visitor that stops at once has seen. -/
def firstVisited (p : DefaultScopeProvider) (localSymbols : LocalSymbols)
    (context : ReferenceInfo) : Option AstNodeDescription :=
  (p.visitScopeEntries reflection localSymbols context (fun _ d => (some d, false)) none).2.1

/-- The provider after an update: its cache is empty. -/
def updated (indexManager : DefaultIndexManager) : DefaultScopeProvider :=
  ⟨indexManager, fun _ => none⟩

/-- The provider after some lookups. -/
def after (earlier : List (LocalSymbols × ReferenceInfo)) (p : DefaultScopeProvider) :
    DefaultScopeProvider :=
  earlier.foldl (fun p lookup => (p.getScopeEntry reflection lookup.1 lookup.2).1) p

end Provider

/-! ### The visible entries -/

section Visible

variable (reflection : AstReflection)

/-- An entry a reference sees. -/
def Sees (context : ReferenceInfo) (d : AstNodeDescription) : Bool :=
  (context.referenceText.isEmpty || d.name = context.referenceText) &&
    AstReflection.type_is_assignable d.type context.referenceType reflection

/-- The visible symbols of a container, bucket by bucket. -/
def visibleIn (context : ReferenceInfo) (declared : List AstNodeDescription) :
    List AstNodeDescription :=
  (LocalSymbols.types declared).flatMap fun type =>
    (declared.filter (·.type = type)).filter (Sees reflection context)

/-- The visible entries: the containers from the innermost one, and the exports. -/
def visibleEntries (declared : List (ℕ × AstNodeDescription)) (exported : List AstNodeDescription)
    (context : ReferenceInfo) : List AstNodeDescription :=
  (context.containers.flatMap fun container =>
    visibleIn reflection context (LocalSymbols.declaredIn declared container))
  ++ exported.filter (Sees reflection context)

variable {reflection} {context : ReferenceInfo}

theorem visit_named_entries_eq {σ : Type} {entries : List AstNodeDescription}
    {named : NamedScopeEntries} (h : NamedScopeEntryIndex.Lists entries (some named))
    (visitor : σ → AstNodeDescription → σ × Bool) (s : σ) :
    visit_named_entries named visitor s = visitAll visitor s entries := by
  obtain ⟨hlist, hduplicates⟩ := h.toList named rfl
  rw [← hlist]
  unfold visit_named_entries NamedScopeEntries.toList
  rcases hfirst : named.first with - | first
  · rw [hduplicates hfirst]
    rfl
  · rfl

theorem firstEntry_eq {entries : List AstNodeDescription} {named : NamedScopeEntries}
    (h : NamedScopeEntryIndex.Lists entries (some named)) :
    named.firstEntry = entries.head? := by
  obtain ⟨hlist, hduplicates⟩ := h.toList named rfl
  rw [← hlist]
  unfold NamedScopeEntries.firstEntry NamedScopeEntries.toList
  rcases hfirst : named.first with - | first
  · rw [hduplicates hfirst]
    rfl
  · rfl

/-- The visible symbols of a bucket. -/
theorem filter_sees (declared : List AstNodeDescription) (type : TypeIndex) :
    (declared.filter (·.type = type)).filter (Sees reflection context)
      = if AstReflection.type_is_assignable type context.referenceType reflection then
          if context.referenceText.isEmpty then declared.filter (·.type = type)
          else (declared.filter (·.type = type)).filter (·.name = context.referenceText)
        else [] := by
  have hsees : ∀ d ∈ declared.filter (·.type = type), Sees reflection context d
      = ((context.referenceText.isEmpty || decide (d.name = context.referenceText)) &&
        AstReflection.type_is_assignable type context.referenceType reflection) := by
    intro d hd
    obtain rfl : d.type = type := by simpa using (List.mem_filter.mp hd).2
    rfl
  rw [List.filter_congr hsees]
  split
  next htype =>
    split
    next hempty => simp [hempty, htype]
    next hname => simp [hname, htype]
  next htype => simp [htype]

/-- **A container is visited** bucket by bucket. -/
theorem visit_entries_eq {σ : Type} (declared : List AstNodeDescription)
    (visitor : σ → AstNodeDescription → σ × Bool) (s : σ) :
    visit_entries reflection ((LocalSymbols.types declared).map (LocalSymbols.bucket declared))
        context.referenceType context.referenceText visitor s
      = visitAll visitor s (visibleIn reflection context declared) := by
  unfold visit_entries visibleIn
  rw [visitAll_flatMap, visitAll_map]
  refine visitAll_congr (fun s type _ => ?_) s
  rw [filter_sees]
  have hlists := NamedScopeEntryIndex.lists_of (declared.filter (·.type = type))
    context.referenceText
  show (if context.referenceText.isEmpty then
      if AstReflection.type_is_assignable type context.referenceType reflection then
        visitAll visitor s (declared.filter (·.type = type))
      else (s, true)
    else
      match NamedScopeEntryIndex.of (declared.filter (·.type = type)) context.referenceText with
      | none => (s, true)
      | some named =>
        if AstReflection.type_is_assignable type context.referenceType reflection then
          visit_named_entries named visitor s
        else (s, true)) = _
  split
  · split
    · rfl
    · rfl
  · rcases hnamed : NamedScopeEntryIndex.of (declared.filter (·.type = type))
        context.referenceText with - | named
    · rw [hnamed] at hlists
      rw [hlists.none.mp rfl, ite_self]
      rfl
    · rw [hnamed] at hlists
      dsimp only
      split
      · exact visit_named_entries_eq hlists visitor s
      · rfl

/-- **The entry of a container** is the first visible one. -/
theorem find_scope_entry_eq (hname : context.referenceText.isEmpty = false)
    (declared : List AstNodeDescription) :
    find_scope_entry reflection
        ((LocalSymbols.types declared).map (LocalSymbols.bucket declared))
        context.referenceType context.referenceText
      = (visibleIn reflection context declared).head? := by
  unfold visibleIn
  induction LocalSymbols.types declared with
  | nil => rfl
  | cons type types ih =>
    have hlists := NamedScopeEntryIndex.lists_of (declared.filter (·.type = type))
      context.referenceText
    rw [List.flatMap_cons, List.head?_append, ← ih, filter_sees, hname, if_neg Bool.false_ne_true]
    show (match NamedScopeEntryIndex.of (declared.filter (·.type = type)) context.referenceText with
      | none => find_scope_entry reflection (types.map (LocalSymbols.bucket declared))
          context.referenceType context.referenceText
      | some named =>
        if AstReflection.type_is_assignable type context.referenceType reflection then
          named.firstEntry
        else find_scope_entry reflection (types.map (LocalSymbols.bucket declared))
          context.referenceType context.referenceText) = _
    rcases hnamed : NamedScopeEntryIndex.of (declared.filter (·.type = type))
        context.referenceText with - | named
    · rw [hnamed] at hlists
      rw [hlists.none.mp rfl, ite_self]
      rfl
    · rw [hnamed] at hlists
      dsimp only
      split
      · obtain ⟨first, hfirst⟩ : ∃ first, named.firstEntry = some first := by
          rw [firstEntry_eq hlists]
          rcases hempty : (declared.filter (·.type = type)).filter
              (·.name = context.referenceText) with - | ⟨first, rest⟩
          · exact absurd (hlists.none.mpr hempty) nofun
          · exact ⟨first, by rw [hempty]; rfl⟩
        rw [← firstEntry_eq hlists, hfirst]
        rfl
      · rfl

/-- An empty container is passed over. -/
theorem visit_local_scope_levels_eq {σ : Type} (declared : List (ℕ × AstNodeDescription))
    (containers : List ℕ) {visitor : σ → BucketedScopeEntries → σ × Bool}
    (hnil : ∀ s, visitor s [] = (s, true)) (s : σ) :
    visit_local_scope_levels (.of declared) containers visitor s
      = visitAll (fun s container =>
          visitor s ((LocalSymbols.types (LocalSymbols.declaredIn declared container)).map
            (LocalSymbols.bucket (LocalSymbols.declaredIn declared container)))) s containers := by
  unfold visit_local_scope_levels
  refine visitAll_congr (fun s container _ => ?_) s
  rw [← LocalSymbols.forContainer_of]
  rcases (LocalSymbols.of declared).forContainer container with - | entries
  · exact (hnil s).symm
  · rfl

/-- The local levels of a visit. -/
theorem visit_levels_eq {σ : Type} (declared : List (ℕ × AstNodeDescription))
    (visitor : σ → AstNodeDescription → σ × Bool) (s : σ) :
    visit_local_scope_levels (.of declared) context.containers
        (fun s entries => visit_entries reflection entries context.referenceType
          context.referenceText visitor s) s
      = visitAll visitor s (context.containers.flatMap fun container =>
          visibleIn reflection context (LocalSymbols.declaredIn declared container)) := by
  rw [visit_local_scope_levels_eq declared _ fun _ => rfl, visitAll_flatMap]
  exact visitAll_congr (fun s container _ => visit_entries_eq _ visitor s) s

/-- The local levels of a lookup. -/
theorem find_levels_eq (hname : context.referenceText.isEmpty = false)
    (declared : List (ℕ × AstNodeDescription)) :
    (visit_local_scope_levels (.of declared) context.containers
        (fun _ entries =>
          let entry := find_scope_entry reflection entries context.referenceType
            context.referenceText
          (entry, entry.isNone)) none).1
      = context.containers.findSome? fun container =>
          (visibleIn reflection context (LocalSymbols.declaredIn declared container)).head? := by
  unfold visit_local_scope_levels
  induction context.containers with
  | nil => rfl
  | cons container containers ih =>
    rw [visitAll, List.findSome?_cons, ← find_scope_entry_eq hname, ← LocalSymbols.forContainer_of]
    rcases (LocalSymbols.of declared).forContainer container with - | entries
    · exact ih
    · dsimp only [Option.getD_some]
      rcases find_scope_entry reflection entries context.referenceType
          context.referenceText with - | entry
      · exact ih
      · rfl

end Visible

/-! ### The exports -/

section Exports

/-- The exports in document-id order, and those of a document in their own. -/
def InOrder (t : DefaultIndexManager.Stored) (exported : List AstNodeDescription) : Prop :=
  ∃ documents : List ℕ, documents.Pairwise (· < ·) ∧
    (∀ d, d ∈ documents ↔ (t.exported d).isSome) ∧
      exported = documents.flatMap fun d => (t.exported d).getD []

/-- There is one such order. -/
theorem InOrder.unique {t : DefaultIndexManager.Stored}
    {exported exported' : List AstNodeDescription} (h : InOrder t exported)
    (h' : InOrder t exported') : exported = exported' := by
  obtain ⟨documents, hsorted, hmem, rfl⟩ := h
  obtain ⟨documents', hsorted', hmem', rfl⟩ := h'
  rw [hsorted.eq_of_mem_iff hsorted' fun d => (hmem d).trans (hmem' d).symm]

variable (reflection : AstReflection)

/-- What is compiled for a type. -/
def compiled (exported : List AstNodeDescription) (type : TypeIndex) : CompiledGlobalEntries :=
  if type = .void then {}
  else compile (exported.filter fun d =>
    AstReflection.type_is_assignable d.type type reflection)

/-- The invariant of the provider: its index holds the exports, and what is in its cache
was compiled from them. -/
structure Compiles (t : DefaultIndexManager.Stored) (exported : List AstNodeDescription)
    (p : DefaultScopeProvider) : Prop where
  holds : p.indexManager.Holds reflection t
  inOrder : InOrder t exported
  cache : ∀ type entries, p.globalScopeCache type = some entries →
    entries = compiled reflection exported type

variable {reflection} {t : DefaultIndexManager.Stored} {exported : List AstNodeDescription}
  {p : DefaultScopeProvider}

/-- The exports of the index that have a type. -/
theorem Compiles.allElements (h : Compiles reflection t exported p) (type : TypeIndex) :
    (p.indexManager.allElements reflection (some type) []).2
      = exported.filter fun d => AstReflection.type_is_assignable d.type type reflection := by
  obtain ⟨documents, hsorted, hmem, hall⟩ := h.holds.scans.exported
  rw [(hall (some type)).1, h.inOrder.unique ⟨documents, hsorted, hmem, rfl⟩, List.filter_flatMap]
  rfl

/-- **What the cache answers** is compiled from the exports. -/
theorem Compiles.getGlobalEntries (h : Compiles reflection t exported p) (type : TypeIndex) :
    Compiles reflection t exported (p.getGlobalEntries reflection type).1 ∧
      (p.getGlobalEntries reflection type).2 = compiled reflection exported type := by
  have hentry : ∀ u entries, update p.globalScopeCache type
      (some (compiled reflection exported type)) u = some entries →
        entries = compiled reflection exported u := by
    intro u entries hu
    rcases eq_or_ne u type with rfl | hne
    · rw [update_self] at hu
      exact (Option.some.inj hu).symm
    · rw [update_of_ne hne] at hu
      exact h.cache u entries hu
  unfold DefaultScopeProvider.getGlobalEntries
  rcases hcache : p.globalScopeCache type with - | entries
  · dsimp only
    split
    next hvoid =>
      have hcompiled : compiled reflection exported type = {} := if_pos hvoid
      rw [hcompiled] at hentry ⊢
      exact ⟨⟨h.holds, h.inOrder, hentry⟩, rfl⟩
    next hvalid =>
      have hcompiled : compiled reflection exported type
          = compile (p.indexManager.allElements reflection (some type) []).2 := by
        rw [h.allElements]
        exact if_neg hvalid
      rw [hcompiled] at hentry ⊢
      exact ⟨⟨h.holds.allElements (some type) [], h.inOrder, hentry⟩, rfl⟩
  · exact ⟨h, h.cache type entries hcache⟩

theorem Compiles.getScopeEntry (h : Compiles reflection t exported p) (localSymbols : LocalSymbols)
    (context : ReferenceInfo) :
    Compiles reflection t exported (p.getScopeEntry reflection localSymbols context).1 := by
  unfold DefaultScopeProvider.getScopeEntry
  split
  · exact h
  dsimp only
  split
  · exact h
  · split
    · exact (h.getGlobalEntries context.referenceType).1
    · exact (h.getGlobalEntries context.referenceType).1

theorem Compiles.after (h : Compiles reflection t exported p)
    (earlier : List (LocalSymbols × ReferenceInfo)) :
    Compiles reflection t exported (p.after reflection earlier) := by
  unfold DefaultScopeProvider.after
  induction earlier generalizing p with
  | nil => exact h
  | cons lookup earlier ih => exact ih (h.getScopeEntry lookup.1 lookup.2)

/-- The exports a reference sees. -/
theorem filter_compiled (reflection : AstReflection) (exported : List AstNodeDescription)
    (context : ReferenceInfo) (hname : context.referenceText.isEmpty = false) :
    NamedScopeEntryIndex.Lists (exported.filter (Sees reflection context))
      ((compiled reflection exported context.referenceType).entriesByName
        context.referenceText) := by
  unfold compiled
  split
  next hvoid =>
    have hnone : exported.filter (Sees reflection context) = [] := by
      rw [List.filter_eq_nil_iff]
      intro d _
      simp [Sees, hvoid, AstReflection.type_is_assignable]
    rw [hnone]
    exact ⟨iff_of_true rfl rfl, nofun⟩
  next hvalid =>
    have hsees : exported.filter (Sees reflection context)
        = (exported.filter fun d =>
            AstReflection.type_is_assignable d.type context.referenceType reflection).filter
              (·.name = context.referenceText) := by
      rw [List.filter_filter]
      refine List.filter_congr fun d _ => ?_
      unfold Sees
      rw [hname, Bool.false_or]
    rw [hsees]
    exact NamedScopeEntryIndex.lists_of _ _

theorem filter_compiled_all (context : ReferenceInfo)
    (hname : context.referenceText.isEmpty = true) :
    (compiled reflection exported context.referenceType).allEntries
      = exported.filter (Sees reflection context) := by
  have hsees : ∀ d ∈ exported, Sees reflection context d
      = AstReflection.type_is_assignable d.type context.referenceType reflection := by
    intro d _
    unfold Sees
    rw [hname, Bool.true_or, Bool.true_and]
  rw [List.filter_congr hsees]
  unfold compiled
  split
  next hvoid => simp [hvoid, AstReflection.type_is_assignable]
  next hvalid => rfl

variable (declared : List (ℕ × AstNodeDescription)) (context : ReferenceInfo)

/-- **A visit of the scope** goes over the visible entries. -/
theorem Compiles.visitScopeEntries_eq (h : Compiles reflection t exported p) {σ : Type}
    (visitor : σ → AstNodeDescription → σ × Bool) (s : σ) :
    (p.visitScopeEntries reflection (.of declared) context visitor s).2
      = visitAll visitor s (visibleEntries reflection declared exported context) := by
  unfold DefaultScopeProvider.visitScopeEntries visibleEntries
  rw [visitAll_append, visit_levels_eq]
  rcases visitAll visitor s _ with ⟨s', _ | _⟩
  · rfl
  dsimp only
  have hglobal := (h.getGlobalEntries context.referenceType).2
  rcases hglobals : p.getGlobalEntries reflection context.referenceType with ⟨p', entries⟩
  rw [hglobals] at hglobal
  obtain rfl : entries = compiled reflection exported context.referenceType := hglobal
  dsimp only
  split
  next hempty => rw [filter_compiled_all context hempty]
  next hname =>
    have hlists := filter_compiled reflection exported context
      (Bool.not_eq_true _ ▸ hname)
    rcases hnamed : (compiled reflection exported context.referenceType).entriesByName
        context.referenceText with - | named
    · rw [hnamed] at hlists
      rw [hlists.none.mp rfl]
      rfl
    · rw [hnamed] at hlists
      exact visit_named_entries_eq hlists visitor s'

/-- **A lookup** finds the first visible entry. -/
theorem Compiles.getScopeEntry_eq (h : Compiles reflection t exported p)
    (hname : context.referenceText.isEmpty = false) :
    (p.getScopeEntry reflection (.of declared) context).2
      = (visibleEntries reflection declared exported context).head? := by
  unfold DefaultScopeProvider.getScopeEntry visibleEntries
  rw [if_neg (by simp [hname]), List.head?_append, List.head?_flatMap,
    ← find_levels_eq hname declared]
  dsimp only
  rcases visit_local_scope_levels (σ := Option AstNodeDescription) _ _ _ _ with ⟨_ | entry, _⟩
  · dsimp only
    have hglobal := (h.getGlobalEntries context.referenceType).2
    rcases hglobals : p.getGlobalEntries reflection context.referenceType with ⟨p', entries⟩
    rw [hglobals] at hglobal
    obtain rfl : entries = compiled reflection exported context.referenceType := hglobal
    have hlists := filter_compiled reflection exported context hname
    dsimp only
    rcases hnamed : (compiled reflection exported context.referenceType).entriesByName
        context.referenceText with - | named
    · rw [hnamed] at hlists
      rw [hlists.none.mp rfl]
      rfl
    · rw [hnamed] at hlists
      exact firstEntry_eq hlists
  · rfl

/-- **A lookup is the first visit.** -/
theorem Compiles.firstVisited_eq (h : Compiles reflection t exported p) :
    p.firstVisited reflection (.of declared) context
      = (visibleEntries reflection declared exported context).head? := by
  unfold firstVisited
  rw [h.visitScopeEntries_eq]
  exact visitAll_first _

end Exports

/-! ### What the scope is for -/

section Lexical

variable (reflection : AstReflection)

/-- A declaration a reference is about. -/
def Matches (context : ReferenceInfo) (d : AstNodeDescription) : Bool :=
  d.name = context.referenceText &&
    AstReflection.type_is_assignable d.type context.referenceType reflection

/-- The first declaration in the innermost container that has one. -/
def localEntry (declared : List (ℕ × AstNodeDescription)) (context : ReferenceInfo) :
    Option AstNodeDescription :=
  context.containers.findSome? fun container =>
    (LocalSymbols.declaredIn declared container).find? (Matches reflection context)

/-- The first declaration in the innermost container that has one, or else the first
export. -/
def lexicalEntry (declared : List (ℕ × AstNodeDescription)) (exported : List AstNodeDescription)
    (context : ReferenceInfo) : Option AstNodeDescription :=
  (localEntry reflection declared context).or (exported.find? (Matches reflection context))

/-- A declaration whose type some match of the container has. -/
def Shares (context : ReferenceInfo) (declared : List AstNodeDescription)
    (d : AstNodeDescription) : Bool :=
  declared.any fun e => Matches reflection context e && decide (e.type = d.type)

/-- The first declaration whose type some match has is of the type of the first match. -/
def Leads (context : ReferenceInfo) (declared : List AstNodeDescription) : Prop :=
  (declared.find? (Shares reflection context declared)).map (·.type)
    = (declared.find? (Matches reflection context)).map (·.type)

instance (context : ReferenceInfo) (declared : List AstNodeDescription) :
    Decidable (Leads reflection context declared) :=
  inferInstanceAs (Decidable (_ = _))

/-- The declarations of the innermost container that has a match. -/
def innermost (declared : List (ℕ × AstNodeDescription)) (context : ReferenceInfo) :
    List AstNodeDescription :=
  ((context.containers.map (LocalSymbols.declaredIn declared)).find? fun declared =>
    declared.any (Matches reflection context)).getD []

/-- What a lookup is for: the first visible entry, which is the lexically first one. -/
structure Lexical (declared : List (ℕ × AstNodeDescription)) (t : DefaultIndexManager.Stored)
    (p : DefaultScopeProvider) (context : ReferenceInfo) : Prop where
  first : (p.getScopeEntry reflection (.of declared) context).2
    = p.firstVisited reflection (.of declared) context
  lexical : ∃ exported, InOrder t exported ∧
    (p.getScopeEntry reflection (.of declared) context).2
      = lexicalEntry reflection declared exported context

variable {reflection} {context : ReferenceInfo}

/-- With a text, a reference sees its matches. -/
theorem sees_eq (hname : context.referenceText.isEmpty = false) :
    Sees reflection context = Matches reflection context := by
  funext d
  unfold Sees Matches
  rw [hname, Bool.false_or]

/-- The first match of a type. -/
def firstOf (reflection : AstReflection) (context : ReferenceInfo)
    (declared : List AstNodeDescription) (type : TypeIndex) : Option AstNodeDescription :=
  declared.find? fun d => Matches reflection context d && decide (d.type = type)

/-- **The first visible symbol of a container**: the first match of the type of the first
declaration that shares its type with a match. -/
theorem head?_visibleIn (hname : context.referenceText.isEmpty = false)
    (declared : List AstNodeDescription) :
    (visibleIn reflection context declared).head?
      = (declared.find? (Shares reflection context declared)).bind fun d =>
          firstOf reflection context declared d.type := by
  have hfirst : ∀ type, ((declared.filter (·.type = type)).filter (Sees reflection context)).head?
      = firstOf reflection context declared type := by
    intro type
    rw [List.filter_filter, List.head?_filter, sees_eq hname]
    rfl
  have hshares : (fun d => (firstOf reflection context declared d.type).isSome)
      = Shares reflection context declared := by
    funext d
    exact Bool.eq_iff_iff.mpr (List.find?_isSome.trans List.any_eq_true.symm)
  unfold visibleIn
  rw [List.head?_flatMap, funext hfirst, findSome?_eq_bind, LocalSymbols.find?_types,
    List.find?_map, Option.bind_map]
  exact congrArg (fun p => (declared.find? p).bind _) hshares

theorem head?_visibleIn_eq_iff (hname : context.referenceText.isEmpty = false)
    (declared : List AstNodeDescription) :
    (visibleIn reflection context declared).head? = declared.find? (Matches reflection context)
      ↔ Leads reflection context declared := by
  rw [head?_visibleIn hname]
  unfold Leads
  rcases hmatch : declared.find? (Matches reflection context) with - | d
  · -- without a match no declaration shares its type with one
    have hnone : declared.find? (Shares reflection context declared) = none := by
      rw [List.find?_eq_none] at hmatch ⊢
      intro d _ hshares
      obtain ⟨e, he, hboth⟩ := List.any_eq_true.mp hshares
      exact hmatch e he (Bool.and_eq_true_iff.mp hboth).1
    rw [hnone]
    exact iff_of_true rfl rfl
  · obtain ⟨hd, before, rest, hdeclared, hbefore⟩ := List.find?_eq_some_iff_append.mp hmatch
    rcases hlead : declared.find? (Shares reflection context declared) with - | e
    · have hmem : d ∈ declared := List.mem_of_find?_eq_some hmatch
      refine absurd (List.any_eq_true.mpr ⟨d, hmem, ?_⟩) (List.find?_eq_none.mp hlead d hmem)
      rw [hd, Bool.true_and, decide_eq_true_iff]
    · show firstOf reflection context declared e.type = some d ↔ some e.type = some d.type
      rw [Option.some.injEq]
      constructor
      · intro hfirst
        have hboth := List.find?_some hfirst
        exact (of_decide_eq_true (Bool.and_eq_true_iff.mp hboth).2).symm
      · -- the first match is the first one of its own type
        intro htype
        refine List.find?_eq_some_iff_append.mpr ⟨?_, before, rest, hdeclared, fun a ha => ?_⟩
        · rw [hd, Bool.true_and, htype, decide_eq_true_iff]
        · rw [Bool.not_eq_true', Bool.and_eq_false_iff]
          exact .inl ((Bool.not_eq_true' _).mp (hbefore a ha))

/-- A container without a match shows nothing. -/
theorem visibleIn_eq_nil_iff (hname : context.referenceText.isEmpty = false)
    (declared : List AstNodeDescription) :
    visibleIn reflection context declared = []
      ↔ declared.any (Matches reflection context) = false := by
  unfold visibleIn
  rw [List.flatMap_eq_nil_iff, List.any_eq_false, sees_eq hname]
  constructor
  · intro hnone d hd hmatch
    have htype := List.filter_eq_nil_iff.mp
      (hnone d.type ((LocalSymbols.mem_types declared).mpr ⟨d, hd, rfl⟩))
    exact htype d (List.mem_filter.mpr ⟨hd, decide_eq_true rfl⟩) hmatch
  · intro hnone type _
    rw [List.filter_eq_nil_iff]
    exact fun d hd => hnone d (List.mem_filter.mp hd).1

/-- **The local entry is the lexically first one** exactly if the innermost container leads. -/
theorem local_iff (hname : context.referenceText.isEmpty = false)
    (declared : List (ℕ × AstNodeDescription)) (rest : Option AstNodeDescription) :
    ((context.containers.findSome? fun container =>
        (visibleIn reflection context (LocalSymbols.declaredIn declared container)).head?).or rest
      = (localEntry reflection declared context).or rest)
      ↔ Leads reflection context (innermost reflection declared context) := by
  unfold localEntry innermost
  induction context.containers with
  | nil => exact iff_of_true rfl rfl
  | cons container containers ih =>
    rw [List.findSome?_cons, List.findSome?_cons, List.map_cons, List.find?_cons]
    generalize LocalSymbols.declaredIn declared container = inner
    rcases hany : inner.any (Matches reflection context) with _ | _
    · -- nothing here, and the search goes on
      have hvisible := (visibleIn_eq_nil_iff hname inner).mpr hany
      have hfind : inner.find? (Matches reflection context) = none := by
        rw [List.find?_eq_none]
        exact List.any_eq_false.mp hany
      rw [hvisible, hfind]
      exact ih
    · obtain ⟨first, hfirst⟩ :
          ∃ first, (visibleIn reflection context inner).head? = some first := by
        rw [← Option.isSome_iff_exists, List.isSome_head?, Ne, visibleIn_eq_nil_iff hname, hany]
        exact nofun
      obtain ⟨d, hd⟩ : ∃ d, inner.find? (Matches reflection context) = some d := by
        rw [← Option.isSome_iff_exists, List.find?_isSome]
        exact List.any_eq_true.mp hany
      show _ ↔ Leads reflection context inner
      rw [← head?_visibleIn_eq_iff hname, hfirst, hd]
      rfl

variable {t : DefaultIndexManager.Stored} {exported : List AstNodeDescription}
  {p : DefaultScopeProvider}

/-- The first visible entry. -/
theorem head?_visibleEntries (hname : context.referenceText.isEmpty = false)
    (declared : List (ℕ × AstNodeDescription)) (exported : List AstNodeDescription) :
    (visibleEntries reflection declared exported context).head?
      = (context.containers.findSome? fun container =>
          (visibleIn reflection context (LocalSymbols.declaredIn declared container)).head?).or
        (exported.find? (Matches reflection context)) := by
  unfold visibleEntries
  rw [List.head?_append, List.head?_flatMap, List.head?_filter, sees_eq hname]

theorem Compiles.lexical_iff_leads (h : Compiles reflection t exported p)
    (hname : context.referenceText.isEmpty = false) (declared : List (ℕ × AstNodeDescription)) :
    Lexical reflection declared t p context
      ↔ Leads reflection context (innermost reflection declared context) := by
  have hentry := h.getScopeEntry_eq declared context hname
  rw [← local_iff hname declared (exported.find? (Matches reflection context)),
    ← head?_visibleEntries hname declared exported, ← hentry]
  constructor
  · rintro ⟨-, exported', hinOrder, hlexical⟩
    obtain rfl : exported' = exported := hinOrder.unique h.inOrder
    exact hlexical
  · intro hlexical
    exact ⟨hentry.trans (h.firstVisited_eq declared context).symm, exported, h.inOrder, hlexical⟩

/-- After an update, and any lookups. -/
theorem compiles_after (reflection : AstReflection) (calls : List DefaultIndexManager.Call)
    (earlier : List (LocalSymbols × ReferenceInfo)) :
    ∃ exported, Compiles reflection (DefaultIndexManager.Stored.run calls) exported
      ((updated (DefaultIndexManager.run reflection calls)).after reflection earlier) := by
  have hholds := DefaultIndexManager.holds_run reflection calls
  obtain ⟨documents, hsorted, hmem, -⟩ := hholds.scans.exported
  have hupdated : Compiles reflection (DefaultIndexManager.Stored.run calls) _
      (updated (DefaultIndexManager.run reflection calls)) :=
    ⟨hholds, ⟨documents, hsorted, hmem, rfl⟩, nofun⟩
  exact ⟨_, hupdated.after earlier⟩

/-- **When a lookup is lexical**: among the declarations of the innermost container with a
match, the first one that shares its type with a match has the type of the first match. -/
theorem lexical_iff (reflection : AstReflection) (calls : List DefaultIndexManager.Call)
    (earlier : List (LocalSymbols × ReferenceInfo)) (declared : List (ℕ × AstNodeDescription))
    (context : ReferenceInfo) (hname : context.referenceText ≠ "") :
    Lexical reflection declared (DefaultIndexManager.Stored.run calls)
        ((updated (DefaultIndexManager.run reflection calls)).after reflection earlier)
        context
      ↔ Leads reflection context (innermost reflection declared context) := by
  have hempty : context.referenceText.isEmpty = false := by simpa using hname
  obtain ⟨exported, hcompiles⟩ := compiles_after reflection calls earlier
  exact hcompiles.lexical_iff_leads hempty declared

/-- An inner declaration hides an outer one and an export. -/
theorem lexical_iff_hidden :
    Lexical (.run [.registerSubtype (.type 1) (.type 0)])
      [(1, ⟨"x", .type 1, 0, 0⟩), (0, ⟨"x", .type 0, 0, 1⟩)]
      (DefaultIndexManager.Stored.run [.updateContent 3 [⟨"x", .type 0, 3, 0⟩]])
      ((updated (DefaultIndexManager.run (.run [.registerSubtype (.type 1) (.type 0)])
        [.updateContent 3 [⟨"x", .type 0, 3, 0⟩]])).after
          (.run [.registerSubtype (.type 1) (.type 0)]) [])
      ⟨[1, 0], "x", .type 0⟩ :=
  (lexical_iff _ _ [] _ _ (by decide)).mpr (by decide)

/-- **A later declaration is chosen**: `x` of a type that has a symbol `y` before. -/
theorem not_lexical :
    ¬ ∀ (reflection : AstReflection) (calls : List DefaultIndexManager.Call)
      (earlier : List (LocalSymbols × ReferenceInfo))
      (declared : List (ℕ × AstNodeDescription)) (context : ReferenceInfo),
      context.referenceText ≠ "" →
        Lexical reflection declared (DefaultIndexManager.Stored.run calls)
          ((updated (DefaultIndexManager.run reflection calls)).after reflection earlier)
          context := by
  intro h
  let reflection : AstReflection := .run [.registerSubtype (.type 1) (.type 0),
    .registerSubtype (.type 2) (.type 0)]
  have hlexical := h reflection [] []
    [(0, ⟨"y", .type 1, 0, 0⟩), (0, ⟨"x", .type 2, 0, 1⟩), (0, ⟨"x", .type 1, 0, 2⟩)]
    ⟨[0], "x", .type 0⟩ (by decide)
  obtain ⟨exported, hcompiles⟩ := compiles_after reflection [] []
  exact absurd ((hcompiles.lexical_iff_leads rfl _).mp hlexical) (by decide)

end Lexical

end DefaultScopeProvider

end Pegium.Symbol
