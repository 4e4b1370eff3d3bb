/-
Pegium/Parser/AstReflectionBootstrap.lean

The type table derived from the grammars.

When a language is registered, its grammar is walked from the entry rule.  Rules and
actions register the type they produce, as a subtype of the type that is expected
where they stand; assignments register the type they assign, which is expected of
their element, and the type they refer to.  The walk is cut by a set of the visited
pairs of an element and an expected type.  Afterwards every produced type is probed
against the reference targets of the language and against `NamedAstNode`.

`is_a` and `ast_ptr_cast` ask the table about the types it knows, and the C++ runtime
about all others.

Main results: `reaches_iff_entered`, the walk registers exactly what can be reached,
and `reflection_agrees_iff`, the table agrees with the class hierarchy exactly if
every type is produced only where a base of it is expected, and the edges the
grammars give connect every produced type to its known bases.
-/
import Mathlib.Data.Fin.VecNotation
import Mathlib.Data.Fintype.Prod
import Mathlib.Data.Set.Lattice
import Pegium.General.DepthFirst
import Pegium.SyntaxTree.AstReflection

namespace Pegium

/-- The classes of the nodes.  A node of type `s` can be cast to `t` by the runtime
exactly if `derives s t`. -/
structure ClassHierarchy where
  derives : TypeIndex → TypeIndex → Bool
  derives_refl : ∀ t, derives t t
  derives_trans : ∀ r s t, derives r s → derives s t → derives r t
  derives_astNode : ∀ t, derives t .astNode
  /-- `NamedAstNode`. -/
  named_ast_node_type : TypeIndex
  /-- A node without arguments can be built, which a probe needs. -/
  defaultConstructible : TypeIndex → Bool

/-! ### Grammars -/

/-- What an element is for the walk. -/
inductive ReflectedElement (ι : Type) where
  /-- Groups, choices, repetitions, predicates and operators pass their context to
  their parts; literals, terminal and data type rules have none. -/
  | composite (elements : List ι)
  | parserRule (type : TypeIndex) (body : ι)
  | infixRule (type : TypeIndex) (primary : ι) (operators : List ι)
  | create (type : TypeIndex)
  | nest (type : TypeIndex)
  | assignment (assignedAstType referenceTargetType : Option TypeIndex) (element : ι)
  deriving DecidableEq

namespace ReflectedElement

variable {ι : Type}

/-- The type an element produces. -/
def producedType : ReflectedElement ι → Option TypeIndex
  | parserRule type _ => some type
  | infixRule type _ _ => some type
  | create type => some type
  | nest type => some type
  | composite _ => none
  | assignment .. => none

/-- The types an element names. -/
def namedTypes : ReflectedElement ι → List TypeIndex
  | assignment assigned reference _ => assigned.toList ++ reference.toList
  | element => element.producedType.toList

/-- The type an assignment refers to. -/
def referenceTarget : ReflectedElement ι → Option TypeIndex
  | assignment _ reference _ => reference
  | _ => none

/-- The parts of an element with what is expected of them, when `expectedType` is
expected of the element; `void` stands for no expectation, as in the visited keys. -/
def children (expectedType : TypeIndex) : ReflectedElement ι → List (ι × TypeIndex)
  | composite elements => elements.map fun e => (e, expectedType)
  | parserRule type body => [(body, type)]
  | infixRule _ primary operators => (primary :: operators).map fun e => (e, expectedType)
  | create _ => []
  | nest _ => []
  | assignment assigned _ element => [(element, assigned.getD .void)]

end ReflectedElement

/-- The grammar of a language.  Rules may call one another, so the elements are
numbered.  The type of what a rule or an action produces is a default constructible
node type. -/
structure ReflectedGrammar (h : ClassHierarchy) where
  size : ℕ
  element : Fin size → ReflectedElement (Fin size)
  entryRule : Fin size
  isParserRule : ∃ type body, element entryRule = .parserRule type body
  constructible : ∀ e, ∀ t ∈ (element e).producedType, t ≠ .void ∧ h.defaultConstructible t

/-! ### The walk -/

/-- The state of the walk.  The lists stand for the sets of the source. -/
structure AstReflectionBootstrapState where
  reflection : AstReflection
  producedTypesByType : List TypeIndex
  referenceAssignments : List TypeIndex
  knownTypes : List TypeIndex
  directSubtypeEdges : List (TypeIndex × TypeIndex)

namespace AstReflectionBootstrapState

/-- Register a type, once. -/
def registerKnownType (state : AstReflectionBootstrapState) (type : TypeIndex) :
    AstReflectionBootstrapState :=
  if type = .void ∨ type ∈ state.knownTypes then state
  else
    { state with
      knownTypes := type :: state.knownTypes
      reflection := state.reflection.registerType type }

/-- Register an edge, once, and its two ends. -/
def addDirectSubtypeEdge (state : AstReflectionBootstrapState) (subtype supertype : TypeIndex) :
    AstReflectionBootstrapState :=
  if subtype = .void ∨ supertype = .void ∨ subtype = supertype then
    (state.registerKnownType subtype).registerKnownType supertype
  else if (subtype, supertype) ∈ state.directSubtypeEdges then state
  else
    let state := { state with
      directSubtypeEdges := (subtype, supertype) :: state.directSubtypeEdges }
    let state := (state.registerKnownType subtype).registerKnownType supertype
    { state with reflection := state.reflection.registerSubtype subtype supertype }

/-- A type that a rule produces, below the one that is expected of it. -/
def registerProducedType (state : AstReflectionBootstrapState) (type expectedType : TypeIndex) :
    AstReflectionBootstrapState :=
  if type = .void then state
  else
    let state := state.registerKnownType type
    let state := { state with
      producedTypesByType := state.producedTypesByType.insert type }
    if expectedType ≠ .void ∧ type ≠ expectedType then
      state.addDirectSubtypeEdge type expectedType
    else state

/-- The types that an assignment names. -/
def registerAssignment (state : AstReflectionBootstrapState)
    (assignedAstType referenceTargetType : Option TypeIndex) : AstReflectionBootstrapState :=
  let state := match assignedAstType with
    | some type => if type ≠ .void then state.registerKnownType type else state
    | none => state
  match referenceTargetType with
  | some type =>
    if type ≠ .void then
      let state := state.registerKnownType type
      { state with referenceAssignments := state.referenceAssignments ++ [type] }
    else state
  | none => state

/-- One pass over the produced types: those that pass the probe are subtypes of
`supertype`. -/
def finalizeEdges (h : ClassHierarchy) (state : AstReflectionBootstrapState)
    (supertype : TypeIndex) : AstReflectionBootstrapState :=
  state.producedTypesByType.foldl (fun state producedType =>
    if producedType = supertype ∨ ¬h.defaultConstructible producedType then state
    else if h.derives producedType supertype then
      state.addDirectSubtypeEdge producedType supertype
    else state) state

/-- The targets are in the order of their assignments, repetitions included. -/
def finalizeReferenceInducedEdges (h : ClassHierarchy) (state : AstReflectionBootstrapState) :
    AstReflectionBootstrapState :=
  state.referenceAssignments.foldl (finalizeEdges h) state

/-- This pass does not leave out the type itself, whose edge has no effect but to
make it known. -/
def finalizeNamedMixinEdges (h : ClassHierarchy) (state : AstReflectionBootstrapState) :
    AstReflectionBootstrapState :=
  state.producedTypesByType.foldl (fun state producedType =>
    if ¬h.defaultConstructible producedType then state
    else if h.derives producedType h.named_ast_node_type then
      state.addDirectSubtypeEdge producedType h.named_ast_node_type
    else state) state

/-- The edges that hold only once all rules have been seen. -/
def finalize (h : ClassHierarchy) (state : AstReflectionBootstrapState) :
    AstReflectionBootstrapState :=
  (state.finalizeReferenceInducedEdges h).finalizeNamedMixinEdges h

end AstReflectionBootstrapState

namespace ReflectedGrammar

variable {h : ClassHierarchy}

/-- The keys of the visited set. -/
abbrev VisitedKey (g : ReflectedGrammar h) : Type := Fin g.size × TypeIndex

/-- The elements that are initialized within an element. -/
def children (g : ReflectedGrammar h) (key : g.VisitedKey) : List g.VisitedKey :=
  (g.element key.1).children key.2

/-- What `init_impl` registers before it goes on with the parts. -/
def init_impl (g : ReflectedGrammar h) (key : g.VisitedKey) (state : AstReflectionBootstrapState) :
    AstReflectionBootstrapState :=
  match g.element key.1 with
  | .composite _ => state
  | .parserRule type _ => state.registerProducedType type key.2
  | .infixRule type _ _ => state.registerProducedType type key.2
  | .create type => state.registerProducedType type key.2
  | .nest type => state.registerProducedType type key.2
  | .assignment assigned reference _ => state.registerAssignment assigned reference

/-- The types that can be expected. -/
def types (g : ReflectedGrammar h) : List TypeIndex :=
  .void :: (List.finRange g.size).flatMap fun e => (g.element e).namedTypes

/-- The key the walk starts with. -/
def entryKey (g : ReflectedGrammar h) : g.VisitedKey := (g.entryRule, .void)

/-- The entry rule is not put into the visited set, so it can be entered once more.
The walk ends by itself: the fuel is the number of keys. -/
def bootstrapAstReflection (g : ReflectedGrammar h) (reflection : AstReflection) :
    AstReflection :=
  let state := g.init_impl g.entryKey ⟨reflection, [], [], [], []⟩
  let state := (DepthFirst.visitAll g.children g.init_impl (g.size * g.types.length)
    (g.children g.entryKey) ([], state)).2
  (state.finalize h).reflection

/-- The shared table after the languages were registered. -/
def registerAll (languages : List (ReflectedGrammar h)) : AstReflection :=
  languages.foldl (fun reflection g => g.bootstrapAstReflection reflection) .empty

end ReflectedGrammar

/-! ### Queries on nodes -/

/-- `is_a`, for the type of a node: without a table, or when the table does not know
the type, the runtime answers. -/
def is_a (h : ClassHierarchy) (reflection : Option AstReflection) (node type : TypeIndex) : Bool :=
  match reflection with
  | some reflection =>
    if reflection.isKnown type then reflection.isSubtype node type else h.derives node type
  | none => h.derives node type

/-- `ast_ptr_cast`, on nodes that have a type. -/
def ast_ptr_cast {ν : Type} (typeid : ν → TypeIndex) (h : ClassHierarchy)
    (reflection : Option AstReflection) (ptr : Option ν) (type : TypeIndex) : Option ν :=
  match ptr with
  | none => none
  | some node =>
    match reflection with
    | some reflection =>
      if reflection.isKnown type then
        if reflection.isSubtype (typeid node) type then some node else none
      else if h.derives (typeid node) type then some node else none
    | none => if h.derives (typeid node) type then some node else none

/-- A cast succeeds for the instances. -/
theorem ast_ptr_cast_eq {ν : Type} (typeid : ν → TypeIndex) (h : ClassHierarchy)
    (reflection : Option AstReflection) (ptr : Option ν) (type : TypeIndex) :
    ast_ptr_cast typeid h reflection ptr type
      = ptr.filter fun node => is_a h reflection (typeid node) type := by
  cases ptr with
  | none => rfl
  | some node =>
    cases reflection with
    | none => rfl
    | some reflection =>
      rw [Option.filter_some]
      unfold ast_ptr_cast is_a
      dsimp only
      split <;> rfl

/-! ### Registrations as sets of calls -/

namespace AstReflection

variable {C D : Set Call} {r : AstReflection} {x y t : TypeIndex}

/-- The registry is the closure of the calls of a set. -/
def ClosureOf (C : Set Call) (r : AstReflection) : Prop :=
  Closed (fun t => ∃ c ∈ C, c.Names t) (fun x y => ∃ c ∈ C, c.Links x y) r

theorem closureOf_empty : ClosureOf ∅ empty :=
  closed_empty.congr (fun _ => by simp) fun _ _ => by simp

theorem ClosureOf.call (h : ClosureOf C r) (c : Call) : ClosureOf (C ∪ {c}) (r.call c) := by
  refine (Closed.call h c).congr (fun t => ?_) fun x y => ?_
  · simp [or_and_right, exists_or, or_comm]
  · simp [or_and_right, exists_or, or_comm]

/-- Calls that register nothing new. -/
theorem ClosureOf.union (h : ClosureOf C r)
    (hnames : ∀ c ∈ D, ∀ t, c.Names t → ∃ c ∈ C, c.Names t)
    (hlinks : ∀ c ∈ D, ∀ x y, c.Links x y → ∃ c ∈ C, c.Links x y) : ClosureOf (C ∪ D) r := by
  refine Closed.congr h (fun t => ⟨?_, ?_⟩) fun x y => ⟨?_, ?_⟩
  · rintro ⟨c, hc, hn⟩
    exact ⟨c, .inl hc, hn⟩
  · rintro ⟨c, hc | hc, hn⟩
    · exact ⟨c, hc, hn⟩
    · exact hnames c hc t hn
  · rintro ⟨c, hc, hl⟩
    exact ⟨c, .inl hc, hl⟩
  · rintro ⟨c, hc | hc, hl⟩
    · exact ⟨c, hc, hl⟩
    · exact hlinks c hc x y hl

theorem ClosureOf.registerVoid (h : ClosureOf C r) : ClosureOf (C ∪ {.registerType .void}) r := by
  refine h.union ?_ ?_
  · rintro c rfl t ht
    exact absurd rfl ht.2.1
  · rintro c rfl x y hl
    exact absurd rfl hl.1

/-- What one edge registers. -/
def edgeCalls (x y : TypeIndex) : Set Call :=
  {.registerType x} ∪ {.registerType y} ∪ {.registerSubtype x y}

end AstReflection

open AstReflection (Call ClosureOf edgeCalls)

namespace AstReflectionBootstrapState

variable {C : Set Call} {state : AstReflectionBootstrapState}

/-- **The invariant of the walk**: the registry is the closure of the calls made so
far, and what the sets of the walk hold was registered. -/
structure Holds (C : Set Call) (state : AstReflectionBootstrapState) : Prop where
  reflection : ClosureOf C state.reflection
  known : ∀ t ∈ state.knownTypes, .registerType t ∈ C
  edges : ∀ e ∈ state.directSubtypeEdges, edgeCalls e.1 e.2 ⊆ C

@[simp]
theorem producedTypes_registerKnownType (t : TypeIndex) :
    (state.registerKnownType t).producedTypesByType = state.producedTypesByType := by
  unfold registerKnownType
  split <;> rfl

@[simp]
theorem references_registerKnownType (t : TypeIndex) :
    (state.registerKnownType t).referenceAssignments = state.referenceAssignments := by
  unfold registerKnownType
  split <;> rfl

@[simp]
theorem edges_registerKnownType (t : TypeIndex) :
    (state.registerKnownType t).directSubtypeEdges = state.directSubtypeEdges := by
  unfold registerKnownType
  split <;> rfl

@[simp]
theorem producedTypes_addDirectSubtypeEdge (x y : TypeIndex) :
    (state.addDirectSubtypeEdge x y).producedTypesByType = state.producedTypesByType := by
  unfold addDirectSubtypeEdge
  split
  · simp
  · split
    · rfl
    · simp

@[simp]
theorem references_addDirectSubtypeEdge (x y : TypeIndex) :
    (state.addDirectSubtypeEdge x y).referenceAssignments = state.referenceAssignments := by
  unfold addDirectSubtypeEdge
  split
  · simp
  · split
    · rfl
    · simp

theorem Holds.registerKnownType (h : Holds C state) (t : TypeIndex) :
    Holds (C ∪ {.registerType t}) (state.registerKnownType t) := by
  have hedges : ∀ e ∈ (state.registerKnownType t).directSubtypeEdges,
      edgeCalls e.1 e.2 ⊆ C ∪ {.registerType t} := by
    rw [edges_registerKnownType]
    exact fun e he => (h.edges e he).trans Set.subset_union_left
  unfold AstReflectionBootstrapState.registerKnownType at hedges ⊢
  split
  next hnone =>
    refine ⟨?_, fun u hu => .inl (h.known u hu), fun e he =>
      (h.edges e he).trans Set.subset_union_left⟩
    rcases hnone with rfl | hknown
    · exact h.reflection.registerVoid
    · rw [Set.union_eq_self_of_subset_right (Set.singleton_subset_iff.mpr (h.known t hknown))]
      exact h.reflection
  next hnew =>
    rw [if_neg hnew] at hedges
    refine ⟨h.reflection.call (.registerType t), fun u hu => ?_, hedges⟩
    rcases List.mem_cons.mp hu with rfl | hu
    · exact .inr rfl
    · exact .inl (h.known u hu)

/-- The set of edges plays no part in making a type known. -/
theorem registerKnownType_edges (edges : List (TypeIndex × TypeIndex)) (t : TypeIndex) :
    registerKnownType { state with directSubtypeEdges := edges } t
      = { state.registerKnownType t with directSubtypeEdges := edges } := by
  unfold registerKnownType
  split <;> rfl

/-- An edge between a type and itself, or none, has no effect but to name its ends. -/
theorem closureOf_idle {r : AstReflection} {x y : TypeIndex} (h : ClosureOf C r)
    (hidle : x = .void ∨ y = .void ∨ x = y) (hx : .registerType x ∈ C)
    (hy : .registerType y ∈ C) : ClosureOf (C ∪ {.registerSubtype x y}) r := by
  refine h.union ?_ ?_
  · rintro c rfl t ⟨hvalid, rfl | rfl⟩
    · exact ⟨_, hx, hvalid, hvalid, .inl rfl⟩
    · exact ⟨_, hy, hvalid, hvalid, .inl rfl⟩
  · rintro c rfl u v ⟨hsub, hsuper, hne, -, -⟩
    rcases hidle with hvoid | hvoid | heq
    · exact absurd hvoid hsub
    · exact absurd hvoid hsuper
    · exact absurd heq hne

theorem Holds.addDirectSubtypeEdge (h : Holds C state) (x y : TypeIndex) :
    Holds (C ∪ edgeCalls x y) (state.addDirectSubtypeEdge x y) := by
  have hends : Holds (C ∪ {.registerType x} ∪ {.registerType y})
      ((state.registerKnownType x).registerKnownType y) :=
    (h.registerKnownType x).registerKnownType y
  have hcalls : C ∪ edgeCalls x y
      = C ∪ {.registerType x} ∪ {.registerType y} ∪ {.registerSubtype x y} := by
    rw [edgeCalls, Set.union_assoc, Set.union_assoc, Set.union_assoc]
  have hmono : C ∪ {.registerType x} ∪ {.registerType y} ⊆ C ∪ edgeCalls x y := by
    rw [hcalls]
    exact Set.subset_union_left
  unfold AstReflectionBootstrapState.addDirectSubtypeEdge
  split
  next hidle =>
    refine ⟨?_, fun t ht => hmono (hends.known t ht), fun e he =>
      (hends.edges e he).trans hmono⟩
    rw [hcalls]
    exact closureOf_idle hends.reflection hidle (.inl (.inr rfl)) (.inr rfl)
  next hproper =>
    split
    next hseen =>
      rw [Set.union_eq_self_of_subset_right (h.edges _ hseen)]
      exact h
    next hnew =>
      dsimp only
      rw [@registerKnownType_edges state _ x,
        @registerKnownType_edges (state.registerKnownType x) _ y]
      refine ⟨?_, fun t ht => hmono (hends.known t ht), fun e he => ?_⟩
      · rw [hcalls]
        exact hends.reflection.call (.registerSubtype x y)
      · rcases List.mem_cons.mp he with rfl | he
        · exact Set.subset_union_right
        · exact (h.edges e he).trans Set.subset_union_left

/-! ### One element of the walk -/

theorem Holds.registerProducedType (h : Holds C state) {t e : TypeIndex} (ht : t ≠ .void) :
    Holds (C ∪ ({.registerType t} ∪ {c | e ≠ .void ∧ t ≠ e ∧ c ∈ edgeCalls t e}))
      (state.registerProducedType t e) := by
  have hknown := h.registerKnownType t
  unfold AstReflectionBootstrapState.registerProducedType
  rw [if_neg ht, ← Set.union_assoc]
  dsimp only
  have hinsert : Holds (C ∪ {.registerType t})
      { state.registerKnownType t with
        producedTypesByType := (state.registerKnownType t).producedTypesByType.insert t } :=
    ⟨hknown.reflection, hknown.known, hknown.edges⟩
  split
  next hexpected =>
    have hcalls : {c | e ≠ .void ∧ t ≠ e ∧ c ∈ edgeCalls t e} = edgeCalls t e :=
      Set.ext fun c => ⟨fun hc => hc.2.2, fun hc => ⟨hexpected.1, hexpected.2, hc⟩⟩
    rw [hcalls]
    exact hinsert.addDirectSubtypeEdge t e
  next hfree =>
    have hcalls : {c | e ≠ .void ∧ t ≠ e ∧ c ∈ edgeCalls t e} = ∅ :=
      Set.eq_empty_of_forall_notMem fun c hc => hfree ⟨hc.1, hc.2.1⟩
    rw [hcalls, Set.union_empty]
    exact hinsert

theorem producedTypes_registerProducedType {t : TypeIndex} (e : TypeIndex) (ht : t ≠ .void) :
    (state.registerProducedType t e).producedTypesByType = state.producedTypesByType.insert t := by
  unfold registerProducedType
  rw [if_neg ht]
  dsimp only
  split <;> simp

theorem references_registerProducedType (t e : TypeIndex) :
    (state.registerProducedType t e).referenceAssignments = state.referenceAssignments := by
  unfold registerProducedType
  split
  · rfl
  · dsimp only
    split <;> simp

/-- The calls that register the types of a list. -/
def typeCalls (types : List TypeIndex) : Set Call := {c | ∃ t ∈ types, c = .registerType t}

theorem typeCalls_append (l₁ l₂ : List TypeIndex) :
    typeCalls (l₁ ++ l₂) = typeCalls l₁ ∪ typeCalls l₂ := by
  ext c
  simp [typeCalls, or_and_right, exists_or]

theorem typeCalls_singleton (t : TypeIndex) : typeCalls [t] = {.registerType t} := by
  ext c
  simp [typeCalls]

theorem typeCalls_nil : typeCalls [] = ∅ := by
  ext c
  simp [typeCalls]

theorem Holds.registerValidType (h : Holds C state) (t : TypeIndex) :
    Holds (C ∪ {.registerType t}) (if t ≠ .void then state.registerKnownType t else state) := by
  split
  next => exact h.registerKnownType t
  next hvoid =>
    obtain rfl := not_not.mp hvoid
    exact ⟨h.reflection.registerVoid, fun u hu => .inl (h.known u hu),
      fun e he => (h.edges e he).trans Set.subset_union_left⟩

/-- The reference target is registered like an assigned type, and remembered. -/
theorem Holds.registerReference (h : Holds C state) (t : TypeIndex) :
    Holds (C ∪ {.registerType t})
      (if t ≠ .void then
        { state.registerKnownType t with
          referenceAssignments := (state.registerKnownType t).referenceAssignments ++ [t] }
      else state) := by
  have hvalid := h.registerValidType t
  split
  next hne =>
    rw [if_pos hne] at hvalid
    exact ⟨hvalid.reflection, hvalid.known, hvalid.edges⟩
  next hvoid =>
    rw [if_neg hvoid] at hvalid
    exact hvalid

theorem Holds.registerAssignment (h : Holds C state) (assigned reference : Option TypeIndex) :
    Holds (C ∪ typeCalls (assigned.toList ++ reference.toList))
      (state.registerAssignment assigned reference) := by
  rw [typeCalls_append, ← Set.union_assoc]
  cases assigned with
  | none =>
    rw [Option.toList_none, typeCalls_nil, Set.union_empty]
    cases reference with
    | none =>
      rw [Option.toList_none, typeCalls_nil, Set.union_empty]
      exact h
    | some t =>
      rw [Option.toList_some, typeCalls_singleton]
      exact h.registerReference t
  | some u =>
    rw [Option.toList_some, typeCalls_singleton]
    cases reference with
    | none =>
      rw [Option.toList_none, typeCalls_nil, Set.union_empty]
      exact h.registerValidType u
    | some t =>
      rw [Option.toList_some, typeCalls_singleton]
      exact (h.registerValidType u).registerReference t

theorem producedTypes_registerAssignment (assigned reference : Option TypeIndex) :
    (state.registerAssignment assigned reference).producedTypesByType
      = state.producedTypesByType := by
  cases assigned <;> cases reference <;> unfold registerAssignment <;> dsimp only <;>
    (repeat' split) <;> simp

theorem references_registerAssignment (assigned reference : Option TypeIndex) :
    (state.registerAssignment assigned reference).referenceAssignments
      = state.referenceAssignments ++ reference.toList.filter (· ≠ .void) := by
  cases assigned <;> cases reference <;> unfold registerAssignment <;> dsimp only <;>
    (repeat' split) <;> simp_all

end AstReflectionBootstrapState

namespace ReflectedGrammar

open AstReflectionBootstrapState

variable {h : ClassHierarchy} {g : ReflectedGrammar h} {C : Set Call}
  {K : Set g.VisitedKey} {key : g.VisitedKey} {state : AstReflectionBootstrapState}

/-- What is registered for a key. -/
def calls (g : ReflectedGrammar h) (key : g.VisitedKey) : Set Call :=
  typeCalls (g.element key.1).namedTypes ∪
    {c | ∃ t ∈ (g.element key.1).producedType,
      key.2 ≠ .void ∧ t ≠ key.2 ∧ c ∈ edgeCalls t key.2}

/-- What the walk has done when it entered the keys `K`, and the calls `C` had been
made before. -/
structure Walked (g : ReflectedGrammar h) (C : Set Call) (K : Set g.VisitedKey)
    (state : AstReflectionBootstrapState) : Prop where
  holds : Holds (C ∪ ⋃ key ∈ K, g.calls key) state
  produced : ∀ t, t ∈ state.producedTypesByType ↔
    ∃ key ∈ K, t ∈ (g.element key.1).producedType
  references : ∀ t, t ∈ state.referenceAssignments ↔
    t ≠ .void ∧ ∃ key ∈ K, t ∈ (g.element key.1).referenceTarget

theorem walked_initial {reflection : AstReflection} (hr : ClosureOf C reflection) :
    g.Walked C ∅ ⟨reflection, [], [], [], []⟩ where
  holds := by
    rw [Set.biUnion_empty, Set.union_empty]
    exact ⟨hr, nofun, nofun⟩
  produced := by simp
  references := by simp

theorem union_calls (C : Set Call) (K : Set g.VisitedKey) (key : g.VisitedKey) :
    (C ∪ ⋃ k ∈ insert key K, g.calls k) = (C ∪ ⋃ k ∈ K, g.calls k) ∪ g.calls key := by
  rw [Set.biUnion_insert, Set.union_comm (g.calls key), Set.union_assoc]

/-- An element that produces a type. -/
theorem Walked.produce (hw : g.Walked C K state) {t : TypeIndex}
    (hproduced : (g.element key.1).producedType = some t)
    (hnamed : (g.element key.1).namedTypes = [t])
    (hreference : (g.element key.1).referenceTarget = none) :
    g.Walked C (insert key K) (state.registerProducedType t key.2) := by
  have hvalid : t ≠ .void := (g.constructible key.1 t hproduced).1
  refine ⟨?_, fun u => ?_, fun u => ?_⟩
  · have hcalls : g.calls key
        = {.registerType t} ∪ {c | key.2 ≠ .void ∧ t ≠ key.2 ∧ c ∈ edgeCalls t key.2} := by
      unfold calls
      rw [hnamed, hproduced, typeCalls_singleton]
      simp
    rw [union_calls, hcalls]
    exact hw.holds.registerProducedType hvalid
  · rw [producedTypes_registerProducedType _ hvalid, List.mem_insert_iff, hw.produced,
      Set.exists_mem_insert, hproduced, Option.mem_some]
    exact or_congr_left eq_comm
  · rw [references_registerProducedType, hw.references, Set.exists_mem_insert, hreference]
    simp

/-- **One element**: it registers its calls, whatever it is. -/
theorem Walked.init_impl (hw : g.Walked C K state) (key : g.VisitedKey) :
    g.Walked C (insert key K) (g.init_impl key state) := by
  unfold ReflectedGrammar.init_impl
  cases helement : g.element key.1 with
  | composite elements =>
    refine ⟨?_, fun u => ?_, fun u => ?_⟩
    · have hcalls : g.calls key = ∅ := by
        unfold calls
        rw [helement]
        ext c
        simp [ReflectedElement.namedTypes, ReflectedElement.producedType, typeCalls]
      rw [union_calls, hcalls, Set.union_empty]
      exact hw.holds
    · rw [hw.produced, Set.exists_mem_insert, helement]
      simp [ReflectedElement.producedType]
    · rw [hw.references, Set.exists_mem_insert, helement]
      simp [ReflectedElement.referenceTarget]
  | parserRule type body =>
    exact hw.produce (by rw [helement]; rfl) (by rw [helement]; rfl) (by rw [helement]; rfl)
  | infixRule type primary operators =>
    exact hw.produce (by rw [helement]; rfl) (by rw [helement]; rfl) (by rw [helement]; rfl)
  | create type =>
    exact hw.produce (by rw [helement]; rfl) (by rw [helement]; rfl) (by rw [helement]; rfl)
  | nest type =>
    exact hw.produce (by rw [helement]; rfl) (by rw [helement]; rfl) (by rw [helement]; rfl)
  | assignment assigned reference element =>
    refine ⟨?_, fun u => ?_, fun u => ?_⟩
    · have hcalls : g.calls key = typeCalls (assigned.toList ++ reference.toList) := by
        unfold calls
        rw [helement]
        ext c
        simp [ReflectedElement.namedTypes, ReflectedElement.producedType]
      rw [union_calls, hcalls]
      exact hw.holds.registerAssignment assigned reference
    · rw [producedTypes_registerAssignment, hw.produced, Set.exists_mem_insert, helement]
      simp [ReflectedElement.producedType]
    · have hreference : (ReflectedElement.assignment assigned reference element).referenceTarget
          = reference := rfl
      rw [references_registerAssignment, List.mem_append, hw.references, Set.exists_mem_insert,
        helement, hreference, List.mem_filter, decide_eq_true_iff, Option.mem_toList]
      constructor
      · rintro (⟨hvalid, hold⟩ | ⟨hnew, hvalid⟩)
        · exact ⟨hvalid, .inr hold⟩
        · exact ⟨hvalid, .inl hnew⟩
      · rintro ⟨hvalid, hnew | hold⟩
        · exact .inr ⟨hnew, hvalid⟩
        · exact .inl ⟨hvalid, hold⟩

theorem Walked.foldl (hw : g.Walked C K state) (order : List g.VisitedKey) :
    g.Walked C (K ∪ {key | key ∈ order})
      (order.foldl (fun state key => g.init_impl key state) state) := by
  induction order generalizing K state with
  | nil => simpa using hw
  | cons key order ih =>
    have hrest := ih (hw.init_impl key)
    have hkeys : insert key K ∪ {k | k ∈ order} = K ∪ {k | k ∈ key :: order} := by
      ext k
      simp [or_left_comm, or_assoc]
    rw [hkeys] at hrest
    exact hrest

/-! ### The whole walk -/

/-- The keys the walk can come to. -/
def Reaches (g : ReflectedGrammar h) (key : g.VisitedKey) : Prop :=
  Relation.ReflTransGen (fun a b => b ∈ g.children a) g.entryKey key

/-- What is expected of a part was expected of the whole, or is a type the whole
names. -/
theorem expected_of_children {ι : Type} (element : ReflectedElement ι) (e : TypeIndex)
    {child : ι × TypeIndex} (hchild : child ∈ element.children e) :
    child.2 = e ∨ child.2 = .void ∨ child.2 ∈ element.namedTypes := by
  cases element with
  | composite elements =>
    obtain ⟨_, -, rfl⟩ := List.mem_map.mp hchild
    exact .inl rfl
  | parserRule type body =>
    rw [List.mem_singleton.mp hchild]
    exact .inr (.inr (List.mem_singleton_self type))
  | infixRule type primary operators =>
    obtain ⟨_, -, rfl⟩ := List.mem_map.mp hchild
    exact .inl rfl
  | create type => exact absurd hchild List.not_mem_nil
  | nest type => exact absurd hchild List.not_mem_nil
  | assignment assigned reference element =>
    rw [List.mem_singleton.mp hchild]
    cases assigned with
    | none => exact .inr (.inl rfl)
    | some type => exact .inr (.inr List.mem_cons_self)

/-- An expected type was named on the way. -/
theorem Reaches.expected_named {key : g.VisitedKey} (hreach : g.Reaches key) :
    key.2 = .void ∨ ∃ k, g.Reaches k ∧ key.2 ∈ (g.element k.1).namedTypes := by
  induction hreach with
  | refl => exact .inl rfl
  | @tail parent child hparent hchild ih =>
    rcases expected_of_children (g.element parent.1) parent.2 hchild with heq | hvoid | hnamed
    · rw [heq]
      exact ih
    · exact .inl hvoid
    · exact .inr ⟨parent, hparent, hnamed⟩

/-- **The walk registers exactly what can be reached**, however the grammar is
connected. -/
theorem walked_visitAll (hw : g.Walked C {g.entryKey} state) :
    g.Walked C {key | g.Reaches key}
      (DepthFirst.visitAll g.children g.init_impl (g.size * g.types.length)
        (g.children g.entryKey) ([], state)).2 := by
  have hvoid : .void ∈ g.types := List.mem_cons_self
  have htypes : ∀ key : g.VisitedKey, key.2 ∈ g.types → ∀ next ∈ g.children key,
      next.2 ∈ g.types := by
    intro key hkey next hnext
    rcases expected_of_children (g.element key.1) key.2 hnext with heq | hnone | hnamed
    · rw [heq]
      exact hkey
    · rw [hnone]
      exact hvoid
    · exact List.mem_cons_of_mem _
        (List.mem_flatMap.mpr ⟨key.1, List.mem_finRange key.1, hnamed⟩)
  have hmem : ∀ key : g.VisitedKey, key ∈ (Finset.univ ×ˢ g.types.toFinset)
      ↔ key.2 ∈ g.types := fun key => by simp
  have hcard : (Finset.univ ×ˢ g.types.toFinset : Finset g.VisitedKey).card
      ≤ g.size * g.types.length := by
    rw [Finset.card_product, Finset.card_univ, Fintype.card_fin]
    exact Nat.mul_le_mul_left _ (List.toFinset_card_le _)
  have henters : ∃ order : List g.VisitedKey,
      (DepthFirst.visitAll g.children g.init_impl (g.size * g.types.length)
          (g.children g.entryKey) ([], state)).2
        = order.foldl (fun state key => g.init_impl key state) state ∧
      ∀ key, key ∈ order ↔ ∃ start ∈ g.children g.entryKey,
        Relation.ReflTransGen (fun a b => b ∈ g.children a) start key :=
    DepthFirst.visitAll_enters
      (fun key hkey next hnext => (hmem next).mpr (htypes key ((hmem key).mp hkey) next hnext))
      (fun key hkey => (hmem key).mpr (htypes g.entryKey hvoid key hkey)) hcard state
  obtain ⟨order, hstate, horder⟩ := henters
  have hkeys : {g.entryKey} ∪ {key | key ∈ order} = {key | g.Reaches key} := by
    ext key
    rw [Set.mem_union, Set.mem_singleton_iff, Set.mem_ofPred_eq, Set.mem_ofPred_eq, horder, Reaches,
      Relation.ReflTransGen.cases_head_iff, eq_comm]
  rw [hstate, ← hkeys]
  exact hw.foldl order

/-! ### The passes over the produced types -/

/-- One pass adds the edges of the types that pass a test, and keeps the produced
types. -/
theorem foldl_edges {f : AstReflectionBootstrapState → TypeIndex → AstReflectionBootstrapState}
    {test : TypeIndex → Prop} {y : TypeIndex}
    (hadd : ∀ state p, test p → f state p = state.addDirectSubtypeEdge p y)
    (hskip : ∀ state p, ¬test p → f state p = state)
    (hs : Holds C state) (types : List TypeIndex) :
    Holds (C ∪ {c | ∃ p ∈ types, test p ∧ c ∈ edgeCalls p y}) (types.foldl f state) ∧
      (types.foldl f state).producedTypesByType = state.producedTypesByType := by
  induction types generalizing C state with
  | nil => simpa using hs
  | cons p types ih =>
    have hcalls : (C ∪ {c | ∃ q ∈ p :: types, test q ∧ c ∈ edgeCalls q y})
        = (C ∪ {c | test p ∧ c ∈ edgeCalls p y}) ∪
          {c | ∃ q ∈ types, test q ∧ c ∈ edgeCalls q y} := by
      ext c
      simp [or_assoc]
    rw [hcalls, List.foldl_cons]
    by_cases htest : test p
    · have hset : {c | test p ∧ c ∈ edgeCalls p y} = edgeCalls p y :=
        Set.ext fun c => and_iff_right htest
      rw [hset, hadd _ _ htest]
      obtain ⟨hrest, hkept⟩ := ih (hs.addDirectSubtypeEdge p y)
      exact ⟨hrest, hkept.trans (producedTypes_addDirectSubtypeEdge p y)⟩
    · have hset : {c | test p ∧ c ∈ edgeCalls p y} = ∅ :=
        Set.eq_empty_of_forall_notMem fun c hc => htest hc.1
      rw [hset, Set.union_empty, hskip _ _ htest]
      exact ih hs

theorem holds_finalizeEdges (hs : Holds C state) (y : TypeIndex) :
    Holds (C ∪ {c | ∃ p ∈ state.producedTypesByType,
        (p ≠ y ∧ h.defaultConstructible p ∧ h.derives p y) ∧ c ∈ edgeCalls p y})
      (finalizeEdges h state y) ∧
    (finalizeEdges h state y).producedTypesByType = state.producedTypesByType := by
  refine foldl_edges ?_ ?_ hs _
  · rintro state p ⟨hne, hconstructible, hderives⟩
    simp [hne, hconstructible, hderives]
  · intro state p htest
    split
    · rfl
    next hprobe =>
      rw [not_or, not_not] at hprobe
      exact if_neg fun hderives => htest ⟨hprobe.1, hprobe.2, hderives⟩

theorem holds_finalizeReferenceInducedEdges (hs : Holds C state) :
    Holds (C ∪ {c | ∃ y ∈ state.referenceAssignments, ∃ p ∈ state.producedTypesByType,
        (p ≠ y ∧ h.defaultConstructible p ∧ h.derives p y) ∧ c ∈ edgeCalls p y})
      (state.finalizeReferenceInducedEdges h) ∧
    (state.finalizeReferenceInducedEdges h).producedTypesByType = state.producedTypesByType := by
  unfold finalizeReferenceInducedEdges
  generalize state.referenceAssignments = targets
  induction targets generalizing C state with
  | nil => simpa using hs
  | cons y targets ih =>
    obtain ⟨hfirst, hkept⟩ := holds_finalizeEdges (h := h) hs y
    obtain ⟨hrest, hkept'⟩ := ih hfirst
    rw [hkept] at hrest hkept'
    rw [List.foldl_cons]
    refine ⟨?_, hkept'⟩
    have hcalls : (C ∪ {c | ∃ z ∈ y :: targets, ∃ p ∈ state.producedTypesByType,
          (p ≠ z ∧ h.defaultConstructible p ∧ h.derives p z) ∧ c ∈ edgeCalls p z})
        = (C ∪ {c | ∃ p ∈ state.producedTypesByType,
            (p ≠ y ∧ h.defaultConstructible p ∧ h.derives p y) ∧ c ∈ edgeCalls p y}) ∪
          {c | ∃ z ∈ targets, ∃ p ∈ state.producedTypesByType,
            (p ≠ z ∧ h.defaultConstructible p ∧ h.derives p z) ∧ c ∈ edgeCalls p z} := by
      ext c
      simp only [List.mem_cons, exists_eq_or_imp, Set.mem_union, Set.mem_ofPred_eq, or_assoc]
    rw [hcalls]
    exact hrest

theorem holds_finalizeNamedMixinEdges (hs : Holds C state) :
    Holds (C ∪ {c | ∃ p ∈ state.producedTypesByType,
        (h.defaultConstructible p ∧ h.derives p h.named_ast_node_type) ∧
          c ∈ edgeCalls p h.named_ast_node_type})
      (state.finalizeNamedMixinEdges h) := by
  refine (foldl_edges ?_ ?_ hs _).1
  · rintro state p ⟨hconstructible, hderives⟩
    simp [hconstructible, hderives]
  · intro state p htest
    split
    · rfl
    next hprobe =>
      rw [not_not] at hprobe
      exact if_neg fun hderives => htest ⟨hprobe, hderives⟩

/-! ### The table after the languages -/

/-- A type the parser of the language produces. -/
def Produces (g : ReflectedGrammar h) (t : TypeIndex) : Prop :=
  ∃ key, g.Reaches key ∧ t ∈ (g.element key.1).producedType

/-- A type a reference of the language points to. -/
def RefersTo (g : ReflectedGrammar h) (t : TypeIndex) : Prop :=
  t ≠ .void ∧ ∃ key, g.Reaches key ∧ t ∈ (g.element key.1).referenceTarget

/-- Everything a language registers. -/
def allCalls (g : ReflectedGrammar h) : Set Call :=
  {c | ∃ key, g.Reaches key ∧ c ∈ g.calls key} ∪
    {c | ∃ x y, g.Produces x ∧ g.RefersTo y ∧ x ≠ y ∧ h.derives x y ∧ c ∈ edgeCalls x y} ∪
    {c | ∃ x, g.Produces x ∧ h.derives x h.named_ast_node_type ∧
      c ∈ edgeCalls x h.named_ast_node_type}

theorem Produces.constructible {t : TypeIndex} (ht : g.Produces t) :
    t ≠ .void ∧ h.defaultConstructible t := by
  obtain ⟨key, -, hproduced⟩ := ht
  exact g.constructible key.1 t hproduced

/-- **The table is the closure of what the language registers**, with what was
registered before. -/
theorem closureOf_bootstrapAstReflection (g : ReflectedGrammar h) {reflection : AstReflection}
    (hr : ClosureOf C reflection) :
    ClosureOf (C ∪ g.allCalls) (g.bootstrapAstReflection reflection) := by
  have hentry : g.Walked C {g.entryKey} (g.init_impl g.entryKey ⟨reflection, [], [], [], []⟩) := by
    have hfirst := (g.walked_initial hr).init_impl g.entryKey
    rwa [insert_empty_eq] at hfirst
  have hwalked := walked_visitAll hentry
  unfold bootstrapAstReflection
  dsimp only
  generalize (DepthFirst.visitAll g.children g.init_impl (g.size * g.types.length)
    (g.children g.entryKey) ([], g.init_impl g.entryKey ⟨reflection, [], [], [], []⟩)).2
    = state at hwalked ⊢
  unfold finalize
  obtain ⟨href, hkept⟩ := holds_finalizeReferenceInducedEdges (h := h) hwalked.holds
  have hnamed := holds_finalizeNamedMixinEdges (h := h) href
  rw [hkept] at hnamed
  have hproduces : ∀ t, t ∈ state.producedTypesByType ↔ g.Produces t := fun t =>
    hwalked.produced t
  have hrefers : ∀ t, t ∈ state.referenceAssignments ↔ g.RefersTo t := fun t =>
    hwalked.references t
  have hwalk : {c | ∃ key, g.Reaches key ∧ c ∈ g.calls key}
      = ⋃ key ∈ {key | g.Reaches key}, g.calls key := by
    ext c
    simp
  have hinduced : {c | ∃ x y, g.Produces x ∧ g.RefersTo y ∧ x ≠ y ∧ h.derives x y ∧
        c ∈ edgeCalls x y}
      = {c | ∃ y ∈ state.referenceAssignments, ∃ x ∈ state.producedTypesByType,
          (x ≠ y ∧ h.defaultConstructible x ∧ h.derives x y) ∧ c ∈ edgeCalls x y} := by
    ext c
    constructor
    · rintro ⟨x, y, hx, hy, hne, hderives, hc⟩
      exact ⟨y, (hrefers y).mpr hy, x, (hproduces x).mpr hx,
        ⟨hne, hx.constructible.2, hderives⟩, hc⟩
    · rintro ⟨y, hy, x, hx, ⟨hne, -, hderives⟩, hc⟩
      exact ⟨x, y, (hproduces x).mp hx, (hrefers y).mp hy, hne, hderives, hc⟩
  have hmixin : {c | ∃ x, g.Produces x ∧ h.derives x h.named_ast_node_type ∧
        c ∈ edgeCalls x h.named_ast_node_type}
      = {c | ∃ x ∈ state.producedTypesByType,
          (h.defaultConstructible x ∧ h.derives x h.named_ast_node_type) ∧
            c ∈ edgeCalls x h.named_ast_node_type} := by
    ext c
    constructor
    · rintro ⟨x, hx, hderives, hc⟩
      exact ⟨x, (hproduces x).mpr hx, ⟨hx.constructible.2, hderives⟩, hc⟩
    · rintro ⟨x, hx, ⟨-, hderives⟩, hc⟩
      exact ⟨x, (hproduces x).mp hx, hderives, hc⟩
  rw [allCalls, hwalk, hinduced, hmixin, ← Set.union_assoc, ← Set.union_assoc]
  exact hnamed.reflection

theorem closureOf_registerAll (languages : List (ReflectedGrammar h)) :
    ClosureOf {c | ∃ g ∈ languages, c ∈ g.allCalls} (registerAll languages) := by
  induction languages using List.reverseRecOn with
  | nil =>
    have hnone : {c | ∃ g ∈ ([] : List (ReflectedGrammar h)), c ∈ g.allCalls} = ∅ := by
      ext c
      simp
    rw [hnone]
    exact AstReflection.closureOf_empty
  | append_singleton languages g ih =>
    have hcalls : {c | ∃ g' ∈ languages ++ [g], c ∈ g'.allCalls}
        = {c | ∃ g' ∈ languages, c ∈ g'.allCalls} ∪ g.allCalls := by
      ext c
      simp [or_and_right, exists_or]
    rw [hcalls, registerAll, List.foldl_append]
    exact closureOf_bootstrapAstReflection g ih

/-! ### Agreement with the classes -/

variable {languages : List (ReflectedGrammar h)} {x y t : TypeIndex}

/-- `x` is produced where `y` is expected. -/
def ProducesFor (g : ReflectedGrammar h) (x y : TypeIndex) : Prop :=
  ∃ key, g.Reaches key ∧ x ∈ (g.element key.1).producedType ∧ key.2 = y

/-- A type some parser produces. -/
def Produced (languages : List (ReflectedGrammar h)) (t : TypeIndex) : Prop :=
  ∃ g ∈ languages, g.Produces t

/-- The types the languages make known: those their elements name, and the two bases
from the library. -/
def Known (languages : List (ReflectedGrammar h)) (t : TypeIndex) : Prop :=
  t ≠ .void ∧ ∃ g ∈ languages,
    (∃ key, g.Reaches key ∧ t ∈ (g.element key.1).namedTypes) ∨ t = .astNode ∨
      (t = h.named_ast_node_type ∧ ∃ x, g.Produces x ∧ h.derives x h.named_ast_node_type)

/-- The edges the languages give: to the root, to an expected type, to a reference
target of the same language and to `NamedAstNode`. -/
inductive Linked (languages : List (ReflectedGrammar h)) : TypeIndex → TypeIndex → Prop where
  | root {x : TypeIndex} : Known languages x → x ≠ .astNode → Linked languages x .astNode
  | expected {g : ReflectedGrammar h} {x y : TypeIndex} : g ∈ languages →
      g.ProducesFor x y → y ≠ .void → x ≠ y → Linked languages x y
  | reference {g : ReflectedGrammar h} {x y : TypeIndex} : g ∈ languages →
      g.Produces x → g.RefersTo y → x ≠ y → h.derives x y → Linked languages x y
  | named {g : ReflectedGrammar h} {x : TypeIndex} : g ∈ languages →
      g.Produces x → h.derives x h.named_ast_node_type →
      h.named_ast_node_type ≠ .void → x ≠ h.named_ast_node_type →
      Linked languages x h.named_ast_node_type

theorem ProducesFor.produces (hxy : g.ProducesFor x y) : g.Produces x := by
  obtain ⟨key, hreach, hproduced, -⟩ := hxy
  exact ⟨key, hreach, hproduced⟩

theorem mem_namedTypes_of_produced {ι : Type} {element : ReflectedElement ι}
    (ht : t ∈ element.producedType) : t ∈ element.namedTypes := by
  cases element with
  | assignment assigned reference element => exact absurd ht (Option.not_mem_none t)
  | composite elements => exact absurd ht (Option.not_mem_none t)
  | parserRule type body => exact Option.mem_toList.mpr ht
  | infixRule type primary operators => exact Option.mem_toList.mpr ht
  | create type => exact Option.mem_toList.mpr ht
  | nest type => exact Option.mem_toList.mpr ht

theorem mem_namedTypes_of_reference {ι : Type} {element : ReflectedElement ι}
    (ht : t ∈ element.referenceTarget) : t ∈ element.namedTypes := by
  cases element with
  | assignment assigned reference element =>
    exact List.mem_append_right _ (Option.mem_toList.mpr ht)
  | composite elements => exact absurd ht (Option.not_mem_none t)
  | parserRule type body => exact absurd ht (Option.not_mem_none t)
  | infixRule type primary operators => exact absurd ht (Option.not_mem_none t)
  | create type => exact absurd ht (Option.not_mem_none t)
  | nest type => exact absurd ht (Option.not_mem_none t)

/-- The ends of an edge, and the root. -/
theorem names_edgeCalls {c : Call} (hc : c ∈ edgeCalls x y) (ht : c.Names t) :
    t ≠ .void ∧ (t = x ∨ t = y ∨ t = .astNode) := by
  rcases hc with (rfl | rfl) | rfl
  · exact ⟨ht.1, ht.2.2.imp_right .inr⟩
  · exact ⟨ht.1, .inr ht.2.2⟩
  · exact ⟨ht.1, ht.2.imp_right .inl⟩

/-- What a call names is known. -/
theorem known_of_names (hg : g ∈ languages) {c : Call} (hc : c ∈ g.allCalls) (ht : c.Names t) :
    Known languages t := by
  have hproduces : ∀ x, g.Produces x → ∃ key, g.Reaches key ∧ x ∈ (g.element key.1).namedTypes :=
    fun x ⟨key, hreach, hx⟩ => ⟨key, hreach, mem_namedTypes_of_produced hx⟩
  rcases hc with (⟨key, hreach, hc | ⟨x, hx, hvalid, -, hc⟩⟩ | ⟨x, y, hx, hy, -, -, hc⟩) |
    ⟨x, hx, hderives, hc⟩
  · obtain ⟨u, hu, rfl⟩ := hc
    obtain ⟨hvoid, -, rfl | rfl⟩ := ht
    · exact ⟨hvoid, g, hg, .inl ⟨key, hreach, hu⟩⟩
    · exact ⟨hvoid, g, hg, .inr (.inl rfl)⟩
  · obtain ⟨hvoid, rfl | rfl | rfl⟩ := names_edgeCalls hc ht
    · exact ⟨hvoid, g, hg, .inl ⟨key, hreach, mem_namedTypes_of_produced hx⟩⟩
    · exact ⟨hvoid, g, hg, .inl (hreach.expected_named.resolve_left hvalid)⟩
    · exact ⟨hvoid, g, hg, .inr (.inl rfl)⟩
  · obtain ⟨hvoid, rfl | rfl | rfl⟩ := names_edgeCalls hc ht
    · exact ⟨hvoid, g, hg, .inl (hproduces t hx)⟩
    · obtain ⟨-, key, hreach, hy⟩ := hy
      exact ⟨hvoid, g, hg, .inl ⟨key, hreach, mem_namedTypes_of_reference hy⟩⟩
    · exact ⟨hvoid, g, hg, .inr (.inl rfl)⟩
  · obtain ⟨hvoid, rfl | rfl | rfl⟩ := names_edgeCalls hc ht
    · exact ⟨hvoid, g, hg, .inl (hproduces t hx)⟩
    · exact ⟨hvoid, g, hg, .inr (.inr ⟨rfl, x, hx, hderives⟩)⟩
    · exact ⟨hvoid, g, hg, .inr (.inl rfl)⟩

/-- A known type was registered by its name, unless it is the root. -/
theorem registerType_mem (ht : Known languages t) (hroot : t ≠ .astNode) :
    ∃ g ∈ languages, .registerType t ∈ g.allCalls := by
  obtain ⟨-, g, hg, ⟨key, hreach, hnamed⟩ | heq | ⟨rfl, x, hx, hderives⟩⟩ := ht
  · exact ⟨g, hg, .inl (.inl ⟨key, hreach, .inl ⟨t, hnamed, rfl⟩⟩)⟩
  · exact absurd heq hroot
  · exact ⟨g, hg, .inr ⟨x, hx, hderives, .inl (.inr rfl)⟩⟩

theorem known_iff (t : TypeIndex) :
    (∃ c ∈ {c | ∃ g ∈ languages, c ∈ g.allCalls}, c.Names t) ↔ Known languages t := by
  constructor
  · rintro ⟨c, ⟨g, hg, hc⟩, ht⟩
    exact known_of_names hg hc ht
  · intro ht
    rcases eq_or_ne t .astNode with rfl | hroot
    · -- the entry rule registers its type, and the root with it
      obtain ⟨-, g, hg, -⟩ := ht
      obtain ⟨type, body, hentry⟩ := g.isParserRule
      have hproduced : type ∈ (g.element g.entryKey.1).producedType := by
        rw [entryKey, hentry]
        rfl
      exact ⟨.registerType type, ⟨g, hg, .inl (.inl ⟨g.entryKey, .refl,
        .inl ⟨type, mem_namedTypes_of_produced hproduced, rfl⟩⟩)⟩,
        nofun, (g.constructible _ _ hproduced).1, .inr rfl⟩
    · obtain ⟨g, hg, hc⟩ := registerType_mem ht hroot
      exact ⟨_, ⟨g, hg, hc⟩, ht.1, ht.1, .inl rfl⟩

theorem isKnown_iff (languages : List (ReflectedGrammar h)) (t : TypeIndex) :
    (registerAll languages).isKnown t ↔ Known languages t := by
  rw [← known_iff, AstReflection.isKnown, decide_eq_true_iff]
  exact (closureOf_registerAll languages).types t

/-- **The edges of the table** are those the languages give. -/
theorem edge_iff (x y : TypeIndex) :
    (∃ c ∈ {c | ∃ g ∈ languages, c ∈ g.allCalls}, c.Links x y) ↔ Linked languages x y := by
  constructor
  · rintro ⟨c, ⟨g, hg, hc⟩, hl⟩
    cases c with
    | registerType type =>
      obtain ⟨hvalid, hroot, rfl, rfl⟩ := hl
      exact .root (known_of_names hg hc ⟨hvalid, hvalid, .inl rfl⟩) hroot
    | registerSubtype sub super =>
      -- only edges register subtypes
      have hends : ∀ {u v}, .registerSubtype sub super ∈ edgeCalls u v → sub = u ∧ super = v := by
        rintro u v ((hcall | hcall) | hcall)
        · exact nomatch hcall
        · exact nomatch hcall
        · exact Call.registerSubtype.inj hcall
      obtain ⟨hsub, hsuper, hne, rfl, rfl⟩ := hl
      rcases hc with (⟨key, hreach, ⟨u, -, hcall⟩ | ⟨u, hu, hvalid, -, hcall⟩⟩ |
        ⟨u, v, hu, hv, -, hderives, hcall⟩) | ⟨u, hu, hderives, hcall⟩
      · exact nomatch hcall
      · obtain ⟨rfl, rfl⟩ := hends hcall
        exact .expected hg ⟨key, hreach, hu, rfl⟩ hsuper hne
      · obtain ⟨rfl, rfl⟩ := hends hcall
        exact .reference hg hu hv hne hderives
      · obtain ⟨rfl, rfl⟩ := hends hcall
        exact .named hg hu hderives hsuper hne
  · intro hlinked
    cases hlinked with
    | root hx hroot =>
      obtain ⟨g, hg, hc⟩ := registerType_mem hx hroot
      exact ⟨_, ⟨g, hg, hc⟩, hx.1, hroot, rfl, rfl⟩
    | @expected g x y hg hxy hvalid hne =>
      obtain ⟨key, hreach, hx, rfl⟩ := hxy
      exact ⟨.registerSubtype x key.2,
        ⟨g, hg, .inl (.inl ⟨key, hreach, .inr ⟨x, hx, hvalid, hne, .inr rfl⟩⟩)⟩,
        (g.constructible _ _ hx).1, hvalid, hne, rfl, rfl⟩
    | @reference g x y hg hx hy hne hderives =>
      exact ⟨.registerSubtype x y,
        ⟨g, hg, .inl (.inr ⟨x, y, hx, hy, hne, hderives, .inr rfl⟩)⟩,
        hx.constructible.1, hy.1, hne, rfl, rfl⟩
    | @named g x hg hx hderives hvalid hne =>
      exact ⟨.registerSubtype x h.named_ast_node_type,
        ⟨g, hg, .inr ⟨x, hx, hderives, .inr rfl⟩⟩,
        hx.constructible.1, hvalid, hne, rfl, rfl⟩

theorem isSubtype_iff (languages : List (ReflectedGrammar h)) (x y : TypeIndex) :
    (registerAll languages).isSubtype x y ↔ Relation.ReflTransGen (Linked languages) x y := by
  rw [(closureOf_registerAll languages).isSubtype]
  have hedges : (fun x y => ∃ c ∈ {c | ∃ g ∈ languages, c ∈ g.allCalls}, c.Links x y)
      = Linked languages := by
    funext x y
    exact propext (edge_iff x y)
  rw [hedges]

/-- What the table is for: it answers for the nodes the parsers make as the runtime
does, in whatever order the languages were registered. -/
structure Agrees (languages : List (ReflectedGrammar h)) : Prop where
  isSubtype : ∀ s, Produced languages s → ∀ t, (registerAll languages).isKnown t →
    ((registerAll languages).isSubtype s t ↔ h.derives s t)
  is_a : ∀ s, Produced languages s → ∀ t,
    is_a h (some (registerAll languages)) s t = is_a h none s t
  ast_ptr_cast : ∀ {ν : Type} (typeid : ν → TypeIndex) (node : ν),
    Produced languages (typeid node) → ∀ t,
      ast_ptr_cast typeid h (some (registerAll languages)) (some node) t
        = ast_ptr_cast typeid h none (some node) t
  order : ∀ languages', languages'.Perm languages → ∀ s t,
    (registerAll languages').isSubtype s t = (registerAll languages).isSubtype s t ∧
      (registerAll languages').isKnown t = (registerAll languages).isKnown t

/-- A type is produced only where a base of it is expected. -/
def Sound (languages : List (ReflectedGrammar h)) : Prop :=
  ∀ g ∈ languages, ∀ x y, g.ProducesFor x y → y ≠ .void → h.derives x y

/-- The languages' edges connect every produced type to its known bases. -/
def Complete (languages : List (ReflectedGrammar h)) : Prop :=
  ∀ s, Produced languages s → ∀ t, Known languages t → h.derives s t →
    Relation.ReflTransGen (Linked languages) s t

theorem linked_congr {languages' : List (ReflectedGrammar h)}
    (hsame : ∀ g, g ∈ languages' ↔ g ∈ languages) :
    Known languages' = Known languages ∧ Linked languages' = Linked languages := by
  have hcalls : {c | ∃ g ∈ languages', c ∈ g.allCalls} = {c | ∃ g ∈ languages, c ∈ g.allCalls} :=
    Set.ext fun c => exists_congr fun g => and_congr_left fun _ => hsame g
  constructor
  · funext t
    rw [← propext (known_iff t), ← propext (known_iff t), hcalls]
  · funext x y
    rw [← propext (edge_iff x y), ← propext (edge_iff x y), hcalls]

/-- **The order of registration does not matter.** -/
theorem registerAll_perm {languages' : List (ReflectedGrammar h)}
    (hperm : languages'.Perm languages) (s t : TypeIndex) :
    (registerAll languages').isSubtype s t = (registerAll languages).isSubtype s t ∧
      (registerAll languages').isKnown t = (registerAll languages).isKnown t := by
  obtain ⟨hknown, hlinked⟩ := linked_congr fun g => hperm.mem_iff
  constructor
  · apply Bool.eq_iff_iff.mpr
    rw [isSubtype_iff, isSubtype_iff, hlinked]
  · apply Bool.eq_iff_iff.mpr
    rw [isKnown_iff, isKnown_iff, hknown]

/-- Sound edges lead only to bases. -/
theorem Sound.derives (hsound : Sound languages) {s t : TypeIndex}
    (hpath : Relation.ReflTransGen (Linked languages) s t) : h.derives s t := by
  induction hpath with
  | refl => exact h.derives_refl s
  | @tail x y _ hedge ih =>
    refine h.derives_trans s x y ih ?_
    cases hedge with
    | root _ _ => exact h.derives_astNode x
    | expected hg hxy hvalid _ => exact hsound _ hg x y hxy hvalid
    | reference _ _ _ _ hderives => exact hderives
    | named _ _ hderives _ _ => exact hderives

theorem agrees_of_isSubtype
    (hsubtype : ∀ s, Produced languages s → ∀ t, (registerAll languages).isKnown t →
      ((registerAll languages).isSubtype s t ↔ h.derives s t)) : Agrees languages := by
  have hinstance : ∀ s, Produced languages s → ∀ t,
      Pegium.is_a h (some (registerAll languages)) s t = Pegium.is_a h none s t := by
    intro s hs t
    unfold Pegium.is_a
    dsimp only
    split
    next hknown => exact Bool.eq_iff_iff.mpr (hsubtype s hs t hknown)
    next => rfl
  refine ⟨hsubtype, hinstance, fun typeid node hnode t => ?_,
    fun languages' hperm s t => registerAll_perm hperm s t⟩
  rw [ast_ptr_cast_eq, ast_ptr_cast_eq, Option.filter_some, Option.filter_some,
    hinstance _ hnode]

/-- **The table agrees with the classes** exactly if the languages expect a base of
what they produce, and give edges enough. -/
theorem reflection_agrees_iff (languages : List (ReflectedGrammar h)) :
    Agrees languages ↔ Sound languages ∧ Complete languages := by
  constructor
  · intro hagrees
    constructor
    · intro g hg x y hxy hvalid
      rcases eq_or_ne x y with rfl | hne
      · exact h.derives_refl x
      · -- the edge is in the table, and makes its end known
        have hedge : Linked languages x y := .expected hg hxy hvalid hne
        have hy : Known languages y := by
          obtain ⟨key, hreach, -, rfl⟩ := hxy
          exact ⟨hvalid, g, hg, .inl (hreach.expected_named.resolve_left hvalid)⟩
        exact (hagrees.isSubtype x ⟨g, hg, hxy.produces⟩ y ((isKnown_iff _ _).mpr hy)).mp
          ((isSubtype_iff _ _ _).mpr (.single hedge))
    · intro s hs t ht hderives
      rw [← isSubtype_iff]
      exact (hagrees.isSubtype s hs t ((isKnown_iff _ _).mpr ht)).mpr hderives
  · rintro ⟨hsound, hcomplete⟩
    refine agrees_of_isSubtype fun s hs t ht => ?_
    rw [isSubtype_iff]
    exact ⟨hsound.derives, hcomplete s hs t ((isKnown_iff _ _).mp ht)⟩

/-! ### Where the table fails -/

/-- A class `0` that derives from a class `1`. -/
def twoClasses : ClassHierarchy where
  derives s t := s = t ∨ t = .astNode ∨ (s = .type 0 ∧ t = .type 1)
  derives_refl t := by simp
  derives_trans r s t hrs hst := by
    simp only [decide_eq_true_eq] at hrs hst ⊢
    rcases hst with rfl | rfl | ⟨rfl, rfl⟩
    · exact hrs
    · exact .inr (.inl rfl)
    · rcases hrs with rfl | hrs | ⟨-, hrs⟩
      · exact .inr (.inr ⟨rfl, rfl⟩)
      · exact nomatch hrs
      · exact nomatch hrs
  derives_astNode t := by simp
  named_ast_node_type := .type 9
  defaultConstructible t := t ≠ .void

/-- `Root: a=Base b=Derived;` with members of the types of the two rules. -/
def rootOfTwo : ReflectedGrammar twoClasses where
  size := 7
  element := ![.parserRule (.type 2) 1, .composite [2, 3],
    .assignment (some (.type 1)) none 4, .assignment (some (.type 0)) none 5,
    .parserRule (.type 1) 6, .parserRule (.type 0) 6, .composite []]
  entryRule := 0
  isParserRule := ⟨_, _, rfl⟩
  constructible := by decide

/-- Nothing expects a base where the derived class is produced, so it is no subtype. -/
theorem derived_class_missed :
    ¬ ∀ (h : ClassHierarchy) (languages : List (ReflectedGrammar h)), Agrees languages := by
  intro hall
  have hbody : ((1 : Fin 7), TypeIndex.type 2) ∈ rootOfTwo.children rootOfTwo.entryKey :=
    List.mem_singleton_self _
  have hsecond : ((3 : Fin 7), TypeIndex.type 2) ∈ rootOfTwo.children ((1 : Fin 7), .type 2) :=
    List.mem_cons_of_mem _ (List.mem_singleton_self _)
  have hrule : ((5 : Fin 7), TypeIndex.type 0) ∈ rootOfTwo.children ((3 : Fin 7), .type 2) :=
    List.mem_singleton_self _
  have hreach : rootOfTwo.Reaches ((5 : Fin 7), .type 0) :=
    ((Relation.ReflTransGen.single hbody).tail hsecond).tail hrule
  have hproduced : Produced [rootOfTwo] (.type 0) :=
    ⟨rootOfTwo, List.mem_singleton_self _, ((5 : Fin 7), .type 0), hreach, rfl⟩
  have hagrees := (hall twoClasses [rootOfTwo]).isSubtype (.type 0) hproduced (.type 1) (by decide)
  exact absurd (hagrees.mpr (by decide)) (by decide)

/-- `Binary: Primary {Binary.left=current} ...;` calls the rule of the base where the
derived class is expected, and makes the base a subtype. -/
def nestedBase : ReflectedGrammar twoClasses where
  size := 5
  element := ![.parserRule (.type 0) 1, .composite [2, 3], .parserRule (.type 1) 4,
    .nest (.type 0), .composite []]
  entryRule := 0
  isParserRule := ⟨_, _, rfl⟩
  constructible := by decide

example : (registerAll [nestedBase]).isSubtype (.type 1) (.type 0) = true := by decide

end ReflectedGrammar

end Pegium
