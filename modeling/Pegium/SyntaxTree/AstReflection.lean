/-
Pegium/SyntaxTree/AstReflection.lean

The registry of AST types.

Types are registered with edges from subtypes to supertypes, and the registry
keeps the transitive closure in two maps that mirror one another: the supertypes
of each type, and its subtypes.  An edge is propagated from every known subtype of
its lower end to every known supertype of its upper end.

A set of types is a list without repetitions; its order stands for the unspecified
order of the source's sets, and the results are about membership.  A key without
an entry has the empty set.

Main results: `isSubtype_iff`, the registry is the closure of the edges it was
given, and `reflects_iff`, it treats `AstNode` as the root of every
registered type exactly if each of them leads there along these edges.
-/
import Mathlib.Data.List.Induction
import Mathlib.Data.List.Nodup
import Mathlib.Data.List.ProdSigma
import Pegium.General.Reachability

namespace Pegium

/-- The index of a type; `void` is the invalid one. -/
inductive TypeIndex where
  | void
  | astNode
  | type (id : ℕ)
  deriving DecidableEq

/-- The registry. -/
structure AstReflection where
  types : List TypeIndex
  supertypesByType : TypeIndex → List TypeIndex
  subtypesByType : TypeIndex → List TypeIndex

namespace AstReflection

/-! ### Registration -/

/-- The registry at the beginning. -/
def empty : AstReflection := ⟨[], fun _ => [], fun _ => []⟩

/-- Every registered type is a subtype of itself. -/
def registerTypeInternal (r : AstReflection) (type : TypeIndex) : AstReflection :=
  if type = .void then r
  else
    { r with
      types := r.types.insert type
      subtypesByType :=
        Function.update r.subtypesByType type ((r.subtypesByType type).insert type) }

/-- One pair of the closure. -/
def link (r : AstReflection) (knownSubtype knownSupertype : TypeIndex) : AstReflection :=
  if knownSubtype = knownSupertype then r
  else if knownSupertype ∈ r.supertypesByType knownSubtype then r
  else
    { r with
      supertypesByType := Function.update r.supertypesByType knownSubtype
        ((r.supertypesByType knownSubtype).insert knownSupertype)
      subtypesByType := Function.update r.subtypesByType knownSupertype
        ((r.subtypesByType knownSupertype).insert knownSubtype) }

/-- Each known subtype of the lower end is linked to each known supertype of the
upper end.  Through a cycle the loop links into the set it goes over; what it adds
there is in the set already. -/
def registerSubtype (r : AstReflection) (subtype supertype : TypeIndex) : AstReflection :=
  let r := (r.registerTypeInternal subtype).registerTypeInternal supertype
  if subtype = .void ∨ supertype = .void ∨ subtype = supertype then r
  else
    let allSubtypes := r.subtypesByType subtype
    let allSupertypes := supertype :: r.supertypesByType supertype
    allSubtypes.foldl (fun r knownSubtype =>
      allSupertypes.foldl (fun r knownSupertype => r.link knownSubtype knownSupertype) r) r

/-- Register a type below the root. -/
def registerType (r : AstReflection) (type : TypeIndex) : AstReflection :=
  if type = .void then r
  else if type = .astNode then r.registerTypeInternal type
  else r.registerSubtype type .astNode

/-! ### Queries -/

/-- The type is registered. -/
def isKnown (r : AstReflection) (type : TypeIndex) : Bool := type ∈ r.types

/-- A type is a subtype of itself and of its supertypes. -/
def isSubtype (r : AstReflection) (subtype supertype : TypeIndex) : Bool :=
  if subtype = supertype then true else supertype ∈ r.supertypesByType subtype

/-- The subtypes of a registered type. -/
def getAllSubTypes (r : AstReflection) (type : TypeIndex) : List TypeIndex :=
  if type = .void ∨ type ∉ r.types then [] else r.subtypesByType type

/-- `type_is_assignable`. -/
def type_is_assignable (candidate expected : TypeIndex) (reflection : AstReflection) : Bool :=
  if expected = .void ∨ candidate = .void then false
  else if candidate = expected then true
  else reflection.isSubtype candidate expected

/-! ### Sequences of registrations -/

/-- The calls that change the registry. -/
inductive Call where
  | registerType (type : TypeIndex)
  | registerSubtype (subtype supertype : TypeIndex)
  deriving DecidableEq

/-- The reflection after a call. -/
def call (r : AstReflection) : Call → AstReflection
  | .registerType type => r.registerType type
  | .registerSubtype subtype supertype => r.registerSubtype subtype supertype

/-- The registry after some calls. -/
def run (calls : List Call) : AstReflection := calls.foldl call empty

/-- The types a call registers. -/
def Call.Names : Call → TypeIndex → Prop
  | .registerType type, t => t ≠ .void ∧ type ≠ .void ∧ (t = type ∨ t = .astNode)
  | .registerSubtype subtype supertype, t => t ≠ .void ∧ (t = subtype ∨ t = supertype)

/-- The edge a call adds. -/
def Call.Links : Call → TypeIndex → TypeIndex → Prop
  | .registerType type, x, y => type ≠ .void ∧ type ≠ .astNode ∧ x = type ∧ y = .astNode
  | .registerSubtype subtype supertype, x, y =>
    subtype ≠ .void ∧ supertype ≠ .void ∧ subtype ≠ supertype ∧ x = subtype ∧ y = supertype

/-- The registered types. -/
def Registered (calls : List Call) (t : TypeIndex) : Prop := ∃ c ∈ calls, c.Names t

/-- The registered edges. -/
def Edge (calls : List Call) (x y : TypeIndex) : Prop := ∃ c ∈ calls, c.Links x y

/-- The registered edges, and the root over every registered type. -/
def RootedEdge (calls : List Call) (x y : TypeIndex) : Prop :=
  Edge calls x y ∨ (Registered calls x ∧ y = .astNode)

/-! ### The two maps mirror one another -/

/-- A type above another one has it below itself. -/
def Mirrored (r : AstReflection) : Prop :=
  ∀ x y, y ∈ r.supertypesByType x ↔ x ∈ r.subtypesByType y ∧ x ≠ y

variable {r : AstReflection} {a b x y : TypeIndex}

theorem Mirrored.registerTypeInternal (h : r.Mirrored) (t : TypeIndex) :
    (r.registerTypeInternal t).Mirrored := by
  unfold AstReflection.registerTypeInternal
  split
  · exact h
  intro x y
  show y ∈ r.supertypesByType x ↔ x ∈ Function.update r.subtypesByType t _ y ∧ x ≠ y
  rcases eq_or_ne y t with rfl | hne
  · -- the new entry is the type itself
    rw [Function.update_self, List.mem_insert_iff, h x y]
    constructor
    · exact fun hxy => ⟨.inr hxy.1, hxy.2⟩
    · rintro ⟨rfl | hxy, hne⟩
      · exact absurd rfl hne
      · exact ⟨hxy, hne⟩
  · rw [Function.update_of_ne hne, h x y]

theorem mem_supertypes_link :
    y ∈ (r.link a b).supertypesByType x ↔ y ∈ r.supertypesByType x ∨ (x = a ∧ y = b ∧ a ≠ b) := by
  unfold link
  split
  next heq =>
    refine ⟨.inl, ?_⟩
    rintro (h | ⟨-, -, hne⟩)
    · exact h
    · exact absurd heq hne
  next hne =>
    split
    next hmem =>
      refine ⟨.inl, ?_⟩
      rintro (h | ⟨rfl, rfl, -⟩)
      · exact h
      · exact hmem
    next hmem =>
      show y ∈ Function.update r.supertypesByType a _ x ↔ _
      rcases eq_or_ne x a with rfl | hx
      · rw [Function.update_self, List.mem_insert_iff]
        constructor
        · rintro (rfl | h)
          · exact .inr ⟨rfl, rfl, hne⟩
          · exact .inl h
        · rintro (h | ⟨-, rfl, -⟩)
          · exact .inr h
          · exact .inl rfl
      · rw [Function.update_of_ne hx]
        refine ⟨.inl, ?_⟩
        rintro (h | ⟨heq, -, -⟩)
        · exact h
        · exact absurd heq hx

theorem Mirrored.link (h : r.Mirrored) (a b : TypeIndex) : (r.link a b).Mirrored := by
  intro x y
  rw [mem_supertypes_link, h x y]
  unfold AstReflection.link
  split
  next heq =>
    refine ⟨?_, .inl⟩
    rintro (h | ⟨-, -, hne⟩)
    · exact h
    · exact absurd heq hne
  next hne =>
    split
    next hmem =>
      refine ⟨?_, .inl⟩
      rintro (h' | ⟨rfl, rfl, -⟩)
      · exact h'
      · exact (h x y).mp hmem
    next hmem =>
      show _ ↔ x ∈ Function.update r.subtypesByType b _ y ∧ x ≠ y
      rcases eq_or_ne y b with rfl | hy
      · rw [Function.update_self, List.mem_insert_iff]
        constructor
        · rintro (h' | ⟨rfl, -, hne'⟩)
          · exact ⟨.inr h'.1, h'.2⟩
          · exact ⟨.inl rfl, hne'⟩
        · rintro ⟨rfl | h', hne'⟩
          · exact .inr ⟨rfl, rfl, hne'⟩
          · exact .inl ⟨h', hne'⟩
      · rw [Function.update_of_ne hy]
        refine ⟨?_, .inl⟩
        rintro (h' | ⟨-, heq, -⟩)
        · exact h'
        · exact absurd heq hy

theorem types_link : (r.link a b).types = r.types := by
  unfold link
  split
  · rfl
  · split
    · rfl
    · rfl

/-- A link is between two types. -/
theorem mem_self_link {t : TypeIndex} :
    t ∈ (r.link a b).subtypesByType t ↔ t ∈ r.subtypesByType t := by
  unfold link
  split
  · exact Iff.rfl
  next hne =>
    split
    · exact Iff.rfl
    · show t ∈ Function.update r.subtypesByType b _ t ↔ _
      rcases eq_or_ne t b with rfl | ht
      · rw [Function.update_self, List.mem_insert_iff]
        exact or_iff_right (Ne.symm hne)
      · rw [Function.update_of_ne ht]

/-! ### The loop -/

/-- The loop over pairs. -/
def linkAll (r : AstReflection) (pairs : List (TypeIndex × TypeIndex)) : AstReflection :=
  pairs.foldl (fun r pair => r.link pair.1 pair.2) r

theorem foldl_link (subs sups : List TypeIndex) (r : AstReflection) :
    subs.foldl (fun r x => sups.foldl (fun r y => r.link x y) r) r
      = r.linkAll (subs ×ˢ sups) := by
  induction subs generalizing r with
  | nil => rfl
  | cons x subs ih =>
    rw [List.foldl_cons, ih, linkAll, linkAll, List.product_cons, List.foldl_append,
      List.foldl_map]

/-- What the loop adds: the pairs of two types. -/
structure Adds (pairs : List (TypeIndex × TypeIndex)) (r r' : AstReflection) : Prop where
  mirrored : r'.Mirrored
  types : r'.types = r.types
  self : ∀ t, t ∈ r'.subtypesByType t ↔ t ∈ r.subtypesByType t
  above : ∀ x y, y ∈ r'.supertypesByType x
    ↔ y ∈ r.supertypesByType x ∨ ((x, y) ∈ pairs ∧ x ≠ y)

theorem adds_linkAll (h : r.Mirrored) (pairs : List (TypeIndex × TypeIndex)) :
    Adds pairs r (r.linkAll pairs) := by
  induction pairs generalizing r with
  | nil => exact ⟨h, rfl, fun _ => Iff.rfl, fun x y => by simp [linkAll]⟩
  | cons pair pairs ih =>
    have hrest : Adds pairs (r.link pair.1 pair.2) (r.linkAll (pair :: pairs)) :=
      ih (h.link pair.1 pair.2)
    refine ⟨hrest.mirrored, hrest.types.trans types_link,
      fun t => (hrest.self t).trans mem_self_link, fun x y => ?_⟩
    rw [hrest.above, mem_supertypes_link, List.mem_cons, Prod.ext_iff]
    constructor
    · rintro ((h | ⟨rfl, rfl, hne⟩) | ⟨hmem, hne⟩)
      · exact .inl h
      · exact .inr ⟨.inl ⟨rfl, rfl⟩, hne⟩
      · exact .inr ⟨.inr hmem, hne⟩
    · rintro (h | ⟨⟨hx, hy⟩ | hmem, hne⟩)
      · exact .inl (.inl h)
      · exact .inl (.inr ⟨hx, hy, hx ▸ hy ▸ hne⟩)
      · exact .inr ⟨hmem, hne⟩

/-! ### The closure -/

/-- **The invariant of the registry**: it holds the closure of the edges `E` between
the types `Known`. -/
structure Closed (Known : TypeIndex → Prop) (E : TypeIndex → TypeIndex → Prop)
    (r : AstReflection) : Prop where
  mirrored : r.Mirrored
  types : ∀ t, t ∈ r.types ↔ Known t
  self : ∀ t, t ∈ r.subtypesByType t ↔ Known t
  above : ∀ x y, x ≠ y → (y ∈ r.supertypesByType x ↔ Relation.ReflTransGen E x y)

variable {Known : TypeIndex → Prop} {E : TypeIndex → TypeIndex → Prop}

theorem Closed.congr {Known' : TypeIndex → Prop} {E' : TypeIndex → TypeIndex → Prop}
    (h : Closed Known E r) (hknown : ∀ t, Known t ↔ Known' t) (hedge : ∀ x y, E x y ↔ E' x y) :
    Closed Known' E' r := by
  obtain rfl : Known = Known' := funext fun t => propext (hknown t)
  obtain rfl : E = E' := funext fun x => funext fun y => propext (hedge x y)
  exact h

theorem Closed.registerTypeInternal (h : Closed Known E r) (t : TypeIndex) :
    Closed (fun u => Known u ∨ (u ≠ .void ∧ u = t)) E (r.registerTypeInternal t) := by
  have hmirrored := h.mirrored.registerTypeInternal t
  unfold AstReflection.registerTypeInternal at hmirrored ⊢
  split
  next hvoid =>
    refine h.congr (fun u => ⟨.inl, ?_⟩) fun _ _ => Iff.rfl
    rintro (hu | ⟨hne, rfl⟩)
    · exact hu
    · exact absurd hvoid hne
  next hvoid =>
    rw [if_neg hvoid] at hmirrored
    refine ⟨hmirrored, fun u => ?_, fun u => ?_, h.above⟩
    · rw [List.mem_insert_iff, h.types]
      constructor
      · rintro (rfl | hu)
        · exact .inr ⟨hvoid, rfl⟩
        · exact .inl hu
      · rintro (hu | ⟨-, rfl⟩)
        · exact .inr hu
        · exact .inl rfl
    · show u ∈ Function.update r.subtypesByType t _ u ↔ _
      rcases eq_or_ne u t with rfl | hu
      · rw [Function.update_self, List.mem_insert_iff]
        exact iff_of_true (.inl rfl) (.inr ⟨hvoid, rfl⟩)
      · rw [Function.update_of_ne hu, h.self]
        refine ⟨.inl, ?_⟩
        rintro (hknown | ⟨-, heq⟩)
        · exact hknown
        · exact absurd heq hu

/-- What lies above a type, itself included. -/
theorem Closed.mem_supertypes (h : Closed Known E r) (x y : TypeIndex) :
    y ∈ x :: r.supertypesByType x ↔ Relation.ReflTransGen E x y := by
  rw [List.mem_cons]
  rcases eq_or_ne x y with rfl | hne
  · exact iff_of_true (.inl rfl) .refl
  · rw [h.above x y hne]
    exact or_iff_right (Ne.symm hne)

/-- What lies below a registered type, itself included. -/
theorem Closed.mem_subtypes (h : Closed Known E r) {y : TypeIndex} (hy : Known y)
    (x : TypeIndex) : x ∈ r.subtypesByType y ↔ Relation.ReflTransGen E x y := by
  rcases eq_or_ne x y with rfl | hne
  · exact iff_of_true ((h.self x).mpr hy) .refl
  · rw [← h.above x y hne, h.mirrored x y]
    exact (and_iff_left hne).symm

theorem Closed.isSubtype (h : Closed Known E r) (x y : TypeIndex) :
    r.isSubtype x y ↔ Relation.ReflTransGen E x y := by
  unfold AstReflection.isSubtype
  split
  next heq =>
    subst heq
    exact iff_of_true rfl .refl
  next hne =>
    rw [decide_eq_true_iff]
    exact h.above x y hne

/-- **An edge is propagated**: the closure of the edges with one more. -/
theorem Closed.registerSubtype (h : Closed Known E r) (subtype supertype : TypeIndex) :
    Closed (fun t => Known t ∨ (t ≠ .void ∧ (t = subtype ∨ t = supertype)))
      (fun x y => E x y ∨ (Call.registerSubtype subtype supertype).Links x y)
      (r.registerSubtype subtype supertype) := by
  have hboth : Closed (fun t => Known t ∨ (t ≠ .void ∧ (t = subtype ∨ t = supertype))) E
      ((r.registerTypeInternal subtype).registerTypeInternal supertype) := by
    refine ((h.registerTypeInternal subtype).registerTypeInternal supertype).congr
      (fun t => ?_) fun _ _ => Iff.rfl
    rw [or_assoc, ← and_or_left]
  unfold AstReflection.registerSubtype
  dsimp only
  generalize (r.registerTypeInternal subtype).registerTypeInternal supertype = r' at hboth ⊢
  split
  next hnone =>
    refine hboth.congr (fun _ => Iff.rfl) fun x y => ⟨.inl, ?_⟩
    rintro (hxy | ⟨hsub, hsuper, hne, -, -⟩)
    · exact hxy
    · rcases hnone with hvoid | hvoid | heq
      · exact absurd hvoid hsub
      · exact absurd hvoid hsuper
      · exact absurd heq hne
  next hedge =>
    rw [not_or, not_or] at hedge
    obtain ⟨hsub, hsuper, hne⟩ := hedge
    rw [foldl_link]
    have hadds := adds_linkAll hboth.mirrored
      (r'.subtypesByType subtype ×ˢ (supertype :: r'.supertypesByType supertype))
    have hlinks : ∀ x y, (E x y ∨ (Call.registerSubtype subtype supertype).Links x y)
        ↔ Relation.AddEdge E subtype supertype x y := by
      intro x y
      refine or_congr Iff.rfl ⟨fun hl => hl.2.2.2, fun hl => ⟨hsub, hsuper, hne, hl⟩⟩
    refine Closed.congr ?_ (fun _ => Iff.rfl) fun x y => (hlinks x y).symm
    refine ⟨hadds.mirrored, fun t => hadds.types ▸ hboth.types t,
      fun t => (hadds.self t).trans (hboth.self t), fun x y hxy => ?_⟩
    rw [hadds.above, Relation.reflTransGen_addEdge, hboth.above x y hxy, List.mem_product,
      hboth.mem_subtypes (.inr ⟨hsub, .inl rfl⟩), hboth.mem_supertypes, and_iff_left hxy]

theorem Closed.registerType (h : Closed Known E r) (type : TypeIndex) :
    Closed (fun t => Known t ∨ (Call.registerType type).Names t)
      (fun x y => E x y ∨ (Call.registerType type).Links x y) (r.registerType type) := by
  unfold AstReflection.registerType
  split
  next hvoid =>
    refine h.congr (fun t => ⟨.inl, ?_⟩) fun x y => ⟨.inl, ?_⟩
    · rintro (ht | ⟨-, hne, -⟩)
      · exact ht
      · exact absurd hvoid hne
    · rintro (hxy | ⟨hne, -⟩)
      · exact hxy
      · exact absurd hvoid hne
  next hvalid =>
    split
    next hroot =>
      subst hroot
      refine (h.registerTypeInternal .astNode).congr (fun t => or_congr Iff.rfl ?_)
        fun x y => ⟨.inl, ?_⟩
      · exact ⟨fun ht => ⟨ht.1, hvalid, .inl ht.2⟩, fun ht => ⟨ht.1, ht.2.2.elim id id⟩⟩
      · rintro (hxy | ⟨-, hne, -⟩)
        · exact hxy
        · exact absurd rfl hne
    next hnode =>
      refine (h.registerSubtype type .astNode).congr (fun t => or_congr Iff.rfl ?_)
        fun x y => or_congr Iff.rfl ?_
      · exact ⟨fun ht => ⟨ht.1, hvalid, ht.2⟩, fun ht => ⟨ht.1, ht.2.2⟩⟩
      · exact ⟨fun hl => ⟨hvalid, hnode, hl.2.2.2⟩, fun hl => ⟨hvalid, nofun, hnode, hl.2.2⟩⟩

theorem Closed.call (h : Closed Known E r) (c : Call) :
    Closed (fun t => Known t ∨ c.Names t) (fun x y => E x y ∨ c.Links x y) (r.call c) := by
  cases c with
  | registerType type => exact h.registerType type
  | registerSubtype subtype supertype => exact h.registerSubtype subtype supertype

theorem closed_empty : Closed (fun _ => False) (fun _ _ => False) empty where
  mirrored x y := by simp [empty]
  types t := by simp [empty]
  self t := by simp [empty]
  above x y hne := by
    refine iff_of_false (by simp [empty]) fun h => ?_
    obtain ⟨⟨_, hedge⟩, -⟩ := h.exists_edges hne
    exact hedge

/-- **The registry is the closure of the registered edges.** -/
theorem closed_run (calls : List Call) : Closed (Registered calls) (Edge calls) (run calls) := by
  induction calls using List.reverseRecOn with
  | nil =>
    exact closed_empty.congr (fun t => by simp [Registered]) fun x y => by simp [Edge]
  | append_singleton calls c ih =>
    have hstep := ih.call c
    rw [run, List.foldl_append]
    refine hstep.congr (fun t => ?_) fun x y => ?_
    · simp [Registered, or_and_right, exists_or]
    · simp [Edge, or_and_right, exists_or]

/-! ### Sets without repetitions -/

/-- No subtype is listed twice. -/
def Distinct (r : AstReflection) : Prop := ∀ t, (r.subtypesByType t).Nodup

theorem Distinct.insert (h : r.Distinct) (a b : TypeIndex) (t : TypeIndex) :
    (Function.update r.subtypesByType a ((r.subtypesByType a).insert b) t).Nodup := by
  rcases eq_or_ne t a with rfl | hne
  · rw [Function.update_self]
    exact List.Nodup.insert (h t)
  · rw [Function.update_of_ne hne]
    exact h t

theorem Distinct.registerTypeInternal (h : r.Distinct) (t : TypeIndex) :
    (r.registerTypeInternal t).Distinct := by
  unfold AstReflection.registerTypeInternal
  split
  next => exact h
  next => exact h.insert t t

theorem Distinct.link (h : r.Distinct) (a b : TypeIndex) : (r.link a b).Distinct := by
  unfold AstReflection.link
  split
  next => exact h
  next =>
    split
    next => exact h
    next => exact h.insert b a

theorem Distinct.registerSubtype (h : r.Distinct) (subtype supertype : TypeIndex) :
    (r.registerSubtype subtype supertype).Distinct := by
  unfold AstReflection.registerSubtype
  split
  next => exact (h.registerTypeInternal _).registerTypeInternal _
  next =>
    refine List.foldlRecOn _ _ ((h.registerTypeInternal _).registerTypeInternal _) ?_
    intro r hr knownSubtype _
    exact List.foldlRecOn _ _ hr fun r hr knownSupertype _ => hr.link _ _

theorem Distinct.registerType (h : r.Distinct) (t : TypeIndex) : (r.registerType t).Distinct := by
  unfold AstReflection.registerType
  split
  next => exact h
  next =>
    split
    next => exact h.registerTypeInternal _
    next => exact h.registerSubtype _ _

theorem distinct_run (calls : List Call) : (run calls).Distinct := by
  refine List.foldlRecOn _ _ (fun _ => List.nodup_nil) fun r hr c _ => ?_
  cases c with
  | registerType t => exact Distinct.registerType hr t
  | registerSubtype subtype supertype => exact Distinct.registerSubtype hr subtype supertype

theorem nodup_getAllSubTypes (calls : List Call) (t : TypeIndex) :
    ((run calls).getAllSubTypes t).Nodup := by
  unfold getAllSubTypes
  split
  next => exact List.nodup_nil
  next => exact distinct_run calls t

/-! ### Queries after any calls -/

variable {calls calls' : List Call}

theorem registered_ne_void (h : Registered calls x) : x ≠ .void := by
  obtain ⟨c, -, hc⟩ := h
  cases c with
  | registerType type => exact hc.1
  | registerSubtype subtype supertype => exact hc.1

/-- The ends of an edge are registered. -/
theorem edge_registered (h : Edge calls x y) : Registered calls x ∧ Registered calls y := by
  obtain ⟨c, hmem, hc⟩ := h
  cases c with
  | registerType type =>
    obtain ⟨hvalid, -, rfl, rfl⟩ := hc
    exact ⟨⟨_, hmem, hvalid, hvalid, .inl rfl⟩, ⟨_, hmem, nofun, hvalid, .inr rfl⟩⟩
  | registerSubtype subtype supertype =>
    obtain ⟨hsub, hsuper, -, rfl, rfl⟩ := hc
    exact ⟨⟨_, hmem, hsub, .inl rfl⟩, ⟨_, hmem, hsuper, .inr rfl⟩⟩

/-- **Subtypes are reachability along the registered edges.** -/
theorem isSubtype_iff (calls : List Call) (x y : TypeIndex) :
    (run calls).isSubtype x y ↔ Relation.ReflTransGen (Edge calls) x y :=
  (closed_run calls).isSubtype x y

theorem mem_getAllSubTypes (calls : List Call) (x y : TypeIndex) :
    x ∈ (run calls).getAllSubTypes y ↔ Registered calls x ∧ (run calls).isSubtype x y := by
  rw [isSubtype_iff]
  -- both ends of a path that is not empty are registered
  have hends : Registered calls x → Relation.ReflTransGen (Edge calls) x y →
      Registered calls y := by
    intro hx hpath
    rcases eq_or_ne x y with rfl | hne
    · exact hx
    · obtain ⟨-, z, hz⟩ := hpath.exists_edges hne
      exact (edge_registered hz).2
  unfold getAllSubTypes
  split
  next hnone =>
    refine iff_of_false List.not_mem_nil fun h => ?_
    have hy := hends h.1 h.2
    rcases hnone with hvoid | hunknown
    · exact registered_ne_void hy hvoid
    · exact hunknown (((closed_run calls).types y).mpr hy)
  next hsome =>
    rw [not_or, not_not] at hsome
    have hy := ((closed_run calls).types y).mp hsome.2
    rw [(closed_run calls).mem_subtypes hy]
    refine ⟨fun hpath => ⟨?_, hpath⟩, And.right⟩
    rcases eq_or_ne x y with rfl | hne
    · exact hy
    · obtain ⟨⟨z, hz⟩, -⟩ := hpath.exists_edges hne
      exact (edge_registered hz).1

/-- A proper subtype is always listed, as both ends of a path are registered. -/
theorem mem_getAllSubTypes_of_ne (calls : List Call) (hne : x ≠ y) :
    x ∈ (run calls).getAllSubTypes y ↔ (run calls).isSubtype x y := by
  rw [mem_getAllSubTypes]
  refine and_iff_right_of_imp fun h => ?_
  obtain ⟨⟨z, hz⟩, -⟩ := ((isSubtype_iff calls x y).mp h).exists_edges hne
  exact (edge_registered hz).1

/-- The order of the calls, and their repetition, do not matter. -/
theorem queries_congr (h : ∀ c, c ∈ calls' ↔ c ∈ calls) (x y : TypeIndex) :
    (run calls').isSubtype x y = (run calls).isSubtype x y ∧
      (x ∈ (run calls').getAllSubTypes y ↔ x ∈ (run calls).getAllSubTypes y) := by
  have hedge : Edge calls' = Edge calls := by
    funext u v
    exact propext (exists_congr fun c => and_congr_left fun _ => h c)
  have hregistered : Registered calls' x ↔ Registered calls x :=
    exists_congr fun c => and_congr_left fun _ => h c
  have hsubtype : (run calls').isSubtype x y = (run calls).isSubtype x y := by
    apply Bool.eq_iff_iff.mpr
    rw [isSubtype_iff, isSubtype_iff, hedge]
  refine ⟨hsubtype, ?_⟩
  rw [mem_getAllSubTypes, mem_getAllSubTypes, hsubtype, hregistered]

/-- What the registry is for: the closure of the registered edges and of the root
over every registered type, in whatever order they were registered. -/
structure Reflects (calls : List Call) : Prop where
  isSubtype : ∀ x y, (run calls).isSubtype x y ↔ Relation.ReflTransGen (RootedEdge calls) x y
  getAllSubTypes : ∀ x y,
    x ∈ (run calls).getAllSubTypes y ↔ Registered calls x ∧ (run calls).isSubtype x y
  order : ∀ calls', (∀ c, c ∈ calls' ↔ c ∈ calls) → ∀ x y,
    (run calls').isSubtype x y = (run calls).isSubtype x y ∧
      (x ∈ (run calls').getAllSubTypes y ↔ x ∈ (run calls).getAllSubTypes y)

/-- **The registry reflects its types** exactly if each of them leads to `AstNode`
along the registered edges: a type that was only named by an edge is put under the
root by no one. -/
theorem reflects_iff (calls : List Call) :
    Reflects calls ↔
      ∀ t, Registered calls t → Relation.ReflTransGen (Edge calls) t .astNode := by
  constructor
  · intro h t ht
    rw [← isSubtype_iff, h.isSubtype]
    exact .single (.inr ⟨ht, rfl⟩)
  · intro h
    refine ⟨fun x y => ?_, mem_getAllSubTypes calls, fun calls' hsame => queries_congr hsame⟩
    rw [isSubtype_iff]
    refine (Relation.reflTransGen_or_iff ?_).symm
    rintro u v ⟨hu, rfl⟩
    exact h u hu

/-- The types a grammar names are registered before the edges between them. -/
theorem reflects_of_registerType
    (h : ∀ subtype supertype, .registerSubtype subtype supertype ∈ calls →
      .registerType subtype ∈ calls ∧ .registerType supertype ∈ calls) : Reflects calls := by
  rw [reflects_iff]
  have hroot : ∀ t, t ≠ .void → .registerType t ∈ calls →
      Relation.ReflTransGen (Edge calls) t .astNode := by
    intro t hvalid hmem
    rcases eq_or_ne t .astNode with rfl | hne
    · exact .refl
    · exact .single ⟨_, hmem, hvalid, hne, rfl, rfl⟩
  rintro t ⟨c, hmem, hc⟩
  cases c with
  | registerType type =>
    obtain ⟨hvalid, -, rfl | rfl⟩ := hc
    · exact hroot t hvalid hmem
    · exact .refl
  | registerSubtype subtype supertype =>
    obtain ⟨hsub, hsuper⟩ := h subtype supertype hmem
    obtain ⟨hvalid, rfl | rfl⟩ := hc
    · exact hroot t hvalid hsub
    · exact hroot t hvalid hsuper

/-- **The root is not implicit**: an edge between two types puts neither under it. -/
theorem not_reflects : ¬ ∀ calls, Reflects calls := by
  intro h
  have hroot := (h [.registerSubtype (.type 0) (.type 1)]).isSubtype (.type 0) .astNode
  have hreach : Relation.ReflTransGen (RootedEdge [.registerSubtype (.type 0) (.type 1)])
      (.type 0) .astNode :=
    .single (.inr ⟨⟨_, List.mem_singleton_self _, nofun, .inl rfl⟩, rfl⟩)
  exact absurd (hroot.mpr hreach) (by decide)

end AstReflection

end Pegium
