/-
Pegium/Validation/DefaultValidationRegistry.lean

The registry of validation checks, and the dispatch of the checks of a node.

Checks are registered for a type and a category.  The registry compiles them: every
check is listed under its type and under each of the subtypes that the reflection
knows, so that a dispatch is one lookup.  What is compiled is kept until the next
registration.

A check is any function of the node and of a state `σ`, which is everything the checks
share: diagnostics, validators with a state of their own, the cancellation token.

Main result: `runChecks_dispatches`, whatever was called before, a dispatch runs the
checks that are registered for the type of the node or for a supertype of it, in the
order of their registration and each of them once; a check that throws is reported,
and only a cancellation ends the dispatch early.
-/
import Pegium.General.Machine
import Pegium.SyntaxTree.AstReflection

namespace Pegium

/-! ### The registry -/

/-- How a check ends: it returns, or it throws an exception with a message, something
else, or `OperationCancelled`. -/
inductive CheckResult where
  | returned
  | threw (what : String)
  | threwUnknown
  | cancelled
  deriving DecidableEq

variable {σ ν : Type}

/-- A check reads a node and may change the state. -/
abbrev ValidationCheck (σ ν : Type) := ν → σ → CheckResult × σ

/-- A registration; the check may be an empty function. -/
structure ValidationCheckRegistration (σ ν : Type) where
  targetType : TypeIndex
  check : Option (ValidationCheck σ ν)

/-- A check with the type and the category it is registered for. -/
structure RegisteredValidationCheckEntry (σ ν : Type) where
  targetType : TypeIndex
  check : ValidationCheck σ ν
  category : String

/-- The checks of each type, those of its supertypes included. -/
structure CompiledValidationRegistry (σ ν : Type) where
  knownCategories : List String
  checksByType : TypeIndex → List (RegisteredValidationCheckEntry σ ν)

/-- What is compiled is read only when it is clean; at first it is nothing. -/
structure DefaultValidationRegistry (σ ν : Type) where
  registeredChecks : List (RegisteredValidationCheckEntry σ ν)
  knownCategories : List String
  compiled : CompiledValidationRegistry σ ν
  compileClean : Bool

/-- The category of inexpensive checks. -/
def kFastValidationCategory : String := "fast"

/-- The category of expensive checks. -/
def kSlowValidationCategory : String := "slow"

/-- The category of what the parser and the linker report. -/
def kBuiltInValidationCategory : String := "built-in"

/-- What a dispatch meets outside the registry: the cancellation token, the sink of the
observations, the acceptor of the diagnostics, and the dynamic types. -/
structure ValidationHost (σ ν : Type) where
  throw_if_cancelled : σ → Bool × σ
  publish_validation_observation : ν → String → String → σ → σ
  acceptorError : ν → String → σ → σ
  typeid : ν → TypeIndex

namespace DefaultValidationRegistry

/-- No check is registered. -/
def empty : DefaultValidationRegistry σ ν where
  registeredChecks := []
  knownCategories :=
    [kFastValidationCategory, kSlowValidationCategory, kBuiltInValidationCategory]
  compiled := ⟨[], fun _ => []⟩
  compileClean := false

/-- The error of a reserved category. -/
def validate_category (category : String) : Except String Unit :=
  if category = kBuiltInValidationCategory then
    .error "The 'built-in' category is reserved for parser/linking diagnostics."
  else .ok ()

/-- Register a check; the compiled registry is out of date. -/
def registerTypedCheck (r : DefaultValidationRegistry σ ν)
    (registration : ValidationCheckRegistration σ ν) (category : String) :
    Except String (DefaultValidationRegistry σ ν) :=
  match registration.check with
  | none => .ok r
  | some check =>
    if category = "" then .ok r
    else do
      validate_category category
      return { r with
        registeredChecks := r.registeredChecks ++ [⟨registration.targetType, check, category⟩]
        knownCategories :=
          if category ∈ r.knownCategories then r.knownCategories
          else r.knownCategories ++ [category]
        compileClean := false }

/-- `registerBeforeDocument`, as far as the compiled checks go: a preparation that is not
empty makes them dirty. -/
def registerBeforeDocument (r : DefaultValidationRegistry σ ν) (check : Bool) :
    DefaultValidationRegistry σ ν :=
  if check then { r with compileClean := false } else r

/-- `registerAfterDocument`, likewise. -/
def registerAfterDocument (r : DefaultValidationRegistry σ ν) (check : Bool) :
    DefaultValidationRegistry σ ν :=
  if check then { r with compileClean := false } else r

/-- A check is added to the list of a type. -/
def pushCheck (checksByType : TypeIndex → List (RegisteredValidationCheckEntry σ ν))
    (type : TypeIndex) (entry : RegisteredValidationCheckEntry σ ν) :
    TypeIndex → List (RegisteredValidationCheckEntry σ ν) :=
  Function.update checksByType type (checksByType type ++ [entry])

/-- A check is added for its type, and for the subtypes of it. -/
def compileCheck (reflection : AstReflection)
    (checksByType : TypeIndex → List (RegisteredValidationCheckEntry σ ν))
    (entry : RegisteredValidationCheckEntry σ ν) :
    TypeIndex → List (RegisteredValidationCheckEntry σ ν) :=
  (reflection.getAllSubTypes entry.targetType).foldl
    (fun checksByType subtype =>
      if subtype = entry.targetType then checksByType else pushCheck checksByType subtype entry)
    (pushCheck checksByType entry.targetType entry)

/-- `compiledRegistry`: the registry afterwards has the compiled checks. -/
def compiledRegistry (reflection : AstReflection) (r : DefaultValidationRegistry σ ν) :
    DefaultValidationRegistry σ ν :=
  if r.compileClean then r
  else
    { r with
      compiled :=
        { knownCategories := r.knownCategories
          checksByType := r.registeredChecks.foldl (compileCheck reflection) fun _ => [] }
      compileClean := true }

/-- The categories in use. -/
def getAllValidationCategories (reflection : AstReflection) (r : DefaultValidationRegistry σ ν) :
    List String × DefaultValidationRegistry σ ν :=
  let r := r.compiledRegistry reflection
  (r.compiled.knownCategories, r)

/-- The checks that a dispatch ran, in order, the state, and whether it came to the end of
the list. -/
structure Dispatched (σ ν : Type) where
  ran : List (RegisteredValidationCheckEntry σ ν)
  state : σ
  finished : Bool

/-- What is said of a check that threw. -/
def CheckResult.message : CheckResult → Option String
  | .threw what => some ("An error occurred during validation: " ++ what)
  | .threwUnknown => some "An unknown error occurred during validation."
  | .returned | .cancelled => none

/-- A check that threw is observed, and becomes a diagnostic of the node. -/
def report (host : ValidationHost σ ν) (node : ν) (category : String) (result : CheckResult)
    (state : σ) : σ :=
  match CheckResult.message result with
  | none => state
  | some message =>
    host.acceptorError node message
      (host.publish_validation_observation node message category state)

/-- The loop over the checks of a type. -/
def runEntries (host : ValidationHost σ ν) (node : ν) (categories : List String) :
    List (RegisteredValidationCheckEntry σ ν) → σ → Dispatched σ ν
  | [], state => ⟨[], state, true⟩
  | entry :: entries, state =>
    let (cancelled, state) := host.throw_if_cancelled state
    if cancelled then ⟨[], state, false⟩
    else if categories ≠ [] ∧ entry.category ∉ categories then
      runEntries host node categories entries state
    else
      let (result, state) := entry.check node state
      if result = .cancelled then ⟨[entry], state, false⟩
      else
        let rest := runEntries host node categories entries
          (report host node entry.category result state)
        { rest with ran := entry :: rest.ran }

/-- The checks of the node's type that the categories ask for. -/
def runChecks (host : ValidationHost σ ν) (reflection : AstReflection) (node : ν)
    (categories : List String) (state : σ) (r : DefaultValidationRegistry σ ν) :
    Dispatched σ ν × DefaultValidationRegistry σ ν :=
  let r := r.compiledRegistry reflection
  (runEntries host node categories (r.compiled.checksByType (host.typeid node)) state, r)

/-! ### What is compiled -/

variable {reflection : AstReflection} {edges : List AstReflection.Call}
  {entries : List (RegisteredValidationCheckEntry σ ν)}
  {checksByType : TypeIndex → List (RegisteredValidationCheckEntry σ ν)}

theorem pushCheck_apply (type t : TypeIndex) (entry : RegisteredValidationCheckEntry σ ν) :
    pushCheck checksByType type entry t
      = checksByType t ++ if t = type then [entry] else [] := by
  unfold pushCheck
  rcases eq_or_ne t type with rfl | hne
  · rw [Function.update_self, if_pos rfl]
  · rw [Function.update_of_ne hne, if_neg hne, List.append_nil]

/-- The loop over the subtypes adds the check once to each of them. -/
theorem foldl_pushCheck {subtypes : List TypeIndex} (hnodup : subtypes.Nodup)
    (entry : RegisteredValidationCheckEntry σ ν) (t : TypeIndex) :
    subtypes.foldl (fun checksByType subtype =>
        if subtype = entry.targetType then checksByType else pushCheck checksByType subtype entry)
        checksByType t
      = checksByType t ++ if t ∈ subtypes ∧ t ≠ entry.targetType then [entry] else [] := by
  induction subtypes generalizing checksByType with
  | nil => simp
  | cons subtype subtypes ih =>
    obtain ⟨hnot, hnodup⟩ := List.nodup_cons.mp hnodup
    rw [List.foldl_cons, ih hnodup]
    rcases eq_or_ne subtype entry.targetType with heq | hne
    · -- the type itself has the check already
      rw [if_pos heq]
      congr 2
      simp only [List.mem_cons, eq_iff_iff]
      refine ⟨fun h => ⟨.inr h.1, h.2⟩, fun h => ⟨h.1.resolve_left ?_, h.2⟩⟩
      exact fun ht => h.2 (ht.trans heq)
    · rw [if_neg hne, pushCheck_apply]
      rcases eq_or_ne t subtype with rfl | ht
      · rw [if_pos rfl, if_neg fun h => hnot h.1, List.append_nil,
          if_pos ⟨List.mem_cons_self, hne⟩]
      · rw [if_neg ht, List.append_nil]
        simp only [List.mem_cons, ht, false_or]

/-- A check is listed for a type exactly when the type is below its own. -/
theorem compileCheck_apply (entry : RegisteredValidationCheckEntry σ ν) (t : TypeIndex) :
    compileCheck (.run edges) checksByType entry t
      = checksByType t ++
        if (AstReflection.run edges).isSubtype t entry.targetType then [entry] else [] := by
  rw [compileCheck, foldl_pushCheck (AstReflection.nodup_getAllSubTypes edges _), pushCheck_apply]
  rcases eq_or_ne t entry.targetType with rfl | hne
  · have hself : (AstReflection.run edges).isSubtype entry.targetType entry.targetType = true :=
      if_pos rfl
    rw [if_pos rfl, if_neg fun h => h.2 rfl, List.append_nil, if_pos hself]
  · rw [if_neg hne, List.append_nil]
    refine congrArg _ (if_congr ?_ rfl rfl)
    rw [AstReflection.mem_getAllSubTypes_of_ne edges hne]
    exact and_iff_left hne

theorem foldl_compileCheck (t : TypeIndex) :
    entries.foldl (compileCheck (.run edges)) checksByType t
      = checksByType t ++
        entries.filter fun entry => (AstReflection.run edges).isSubtype t entry.targetType := by
  induction entries generalizing checksByType with
  | nil => simp
  | cons entry entries ih =>
    rw [List.foldl_cons, ih, compileCheck_apply, List.filter_cons, List.append_assoc]
    split <;> rfl

/-! ### What a dispatch runs -/

/-- The category of a check is selected; no selection selects all. -/
def selected (categories : List String) (entry : RegisteredValidationCheckEntry σ ν) : Bool :=
  categories = [] ∨ entry.category ∈ categories

/-- The state when the loop has gone past a check, and has run it if it is selected. -/
def passed (host : ValidationHost σ ν) (node : ν) (categories : List String) (state : σ)
    (entry : RegisteredValidationCheckEntry σ ν) : σ :=
  let state := (host.throw_if_cancelled state).2
  if selected categories entry then
    let (result, state) := entry.check node state
    report host node entry.category result state
  else state

/-- Only a cancellation ends a dispatch early: the token is found cancelled before a check, in
the state that those before it have left, or the check itself is cancelled there. -/
def Cancelled (host : ValidationHost σ ν) (node : ν) (categories : List String)
    (entries : List (RegisteredValidationCheckEntry σ ν)) (state : σ)
    (ran : List (RegisteredValidationCheckEntry σ ν)) : Prop :=
  ∃ before entry after, entries = before ++ entry :: after ∧
    let asked := host.throw_if_cancelled (before.foldl (passed host node categories) state)
    asked.1 = true ∧ ran = before.filter (selected categories) ∨
      selected categories entry = true ∧ (entry.check node asked.2).1 = .cancelled ∧
        ran = before.filter (selected categories) ++ [entry]

/-- The checks that ran are the selected ones, or the first of them. -/
structure Runs (host : ValidationHost σ ν) (node : ν) (categories : List String)
    (entries : List (RegisteredValidationCheckEntry σ ν)) (state : σ) (d : Dispatched σ ν) :
    Prop where
  inOrder : d.ran <+: entries.filter (selected categories)
  finished : d.finished = true → d.ran = entries.filter (selected categories)
  cancelled : d.finished = false → Cancelled host node categories entries state d.ran

section Loop

variable {host : ValidationHost σ ν} {node : ν} {categories : List String} {state : σ}
  {d : Dispatched σ ν} {entry : RegisteredValidationCheckEntry σ ν}

/-- The loop goes past a check that is not selected. -/
theorem Runs.skip (h : Runs host node categories entries (host.throw_if_cancelled state).2 d)
    (hselected : selected categories entry = false) :
    Runs host node categories (entry :: entries) state d := by
  have hnot : ¬ selected categories entry = true := Bool.not_eq_true _ ▸ hselected
  have hpassed : passed host node categories state entry = (host.throw_if_cancelled state).2 :=
    if_neg hnot
  refine ⟨?_, ?_, fun hfinished => ?_⟩
  · rw [List.filter_cons_of_neg hnot]
    exact h.inOrder
  · rw [List.filter_cons_of_neg hnot]
    exact h.finished
  · obtain ⟨before, last, after, heq, hends⟩ := h.cancelled hfinished
    refine ⟨entry :: before, last, after, congrArg (entry :: ·) heq, ?_⟩
    rw [List.foldl_cons, hpassed, List.filter_cons_of_neg hnot]
    exact hends

/-- A check that is run goes before the checks that are run after it. -/
theorem Runs.cons
    (h : Runs host node categories entries (passed host node categories state entry) d)
    (hselected : selected categories entry = true) :
    Runs host node categories (entry :: entries) state { d with ran := entry :: d.ran } := by
  refine ⟨?_, fun hfinished => ?_, fun hfinished => ?_⟩
  · rw [List.filter_cons_of_pos hselected]
    exact List.cons_prefix_cons.mpr ⟨rfl, h.inOrder⟩
  · rw [List.filter_cons_of_pos hselected]
    exact congrArg (entry :: ·) (h.finished hfinished)
  · obtain ⟨before, last, after, heq, hends⟩ := h.cancelled hfinished
    refine ⟨entry :: before, last, after, congrArg (entry :: ·) heq, ?_⟩
    rw [List.foldl_cons, List.filter_cons_of_pos hselected]
    rcases hends with ⟨htoken, hran⟩ | ⟨hlast, hcancelled, hran⟩
    · exact .inl ⟨htoken, congrArg (entry :: ·) hran⟩
    · exact .inr ⟨hlast, hcancelled, congrArg (entry :: ·) hran⟩

end Loop

/-- The loop runs the selected checks. -/
theorem runs_runEntries (host : ValidationHost σ ν) (node : ν) (categories : List String)
    (state : σ) :
    Runs host node categories entries state (runEntries host node categories entries state) := by
  induction entries generalizing state with
  | nil => exact ⟨List.prefix_refl _, fun _ => rfl, fun h => absurd h.symm Bool.false_ne_true⟩
  | cons entry entries ih =>
    simp only [runEntries]
    split
    next htoken =>
      exact ⟨List.nil_prefix, fun h => absurd h Bool.false_ne_true,
        fun _ => ⟨[], entry, entries, rfl, .inl ⟨htoken, rfl⟩⟩⟩
    split
    next hskipped =>
      have hselected : selected categories entry = false := by
        simpa only [selected, decide_eq_false_iff_not, not_or] using hskipped
      exact (ih _).skip hselected
    next hskipped =>
      have hselected : selected categories entry = true := by
        simpa only [selected, decide_eq_true_eq, not_and_or, not_not] using hskipped
      split
      next hcancelled =>
        refine ⟨?_, fun h => absurd h Bool.false_ne_true,
          fun _ => ⟨[], entry, entries, rfl, .inr ⟨hselected, hcancelled, rfl⟩⟩⟩
        rw [List.filter_cons_of_pos hselected]
        exact List.cons_prefix_cons.mpr ⟨rfl, List.nil_prefix⟩
      next =>
        have hpassed : passed host node categories state entry
            = report host node entry.category
              (entry.check node (host.throw_if_cancelled state).2).1
              (entry.check node (host.throw_if_cancelled state).2).2 := if_pos hselected
        rw [← hpassed]
        exact (ih _).cons hselected

/-! ### Sequences of calls -/

/-- The calls of the registry. -/
inductive Call (σ ν : Type) where
  | registerTypedCheck (registration : ValidationCheckRegistration σ ν) (category : String)
  | registerBeforeDocument (check : Bool)
  | registerAfterDocument (check : Bool)
  | getAllValidationCategories
  | runChecks (node : ν) (categories : List String) (state : σ)

/-- A call; a registration that throws changes nothing. -/
def call (host : ValidationHost σ ν) (reflection : AstReflection)
    (r : DefaultValidationRegistry σ ν) : Call σ ν → DefaultValidationRegistry σ ν
  | .registerTypedCheck registration category =>
    match r.registerTypedCheck registration category with
    | .ok r' => r'
    | .error _ => r
  | .registerBeforeDocument check => r.registerBeforeDocument check
  | .registerAfterDocument check => r.registerAfterDocument check
  | .getAllValidationCategories => (r.getAllValidationCategories reflection).2
  | .runChecks node categories state => (r.runChecks host reflection node categories state).2

/-- The registry after some calls. -/
def run (host : ValidationHost σ ν) (reflection : AstReflection) (calls : List (Call σ ν)) :
    DefaultValidationRegistry σ ν :=
  calls.foldl (call host reflection) empty

/-- The check that a call registers: one with a function, under a category that is not
empty and not reserved. -/
def Call.registered : Call σ ν → List (RegisteredValidationCheckEntry σ ν)
  | .registerTypedCheck registration category =>
    match registration.check with
    | none => []
    | some check =>
      if category = "" ∨ category = kBuiltInValidationCategory then []
      else [⟨registration.targetType, check, category⟩]
  | _ => []

/-- What is clean is what would be compiled. -/
def Compiled (reflection : AstReflection) (r : DefaultValidationRegistry σ ν) : Prop :=
  r.compileClean = true →
    r.compiled.checksByType = r.registeredChecks.foldl (compileCheck reflection) fun _ => []

variable {host : ValidationHost σ ν} {r : DefaultValidationRegistry σ ν}

theorem registeredChecks_compiledRegistry :
    (r.compiledRegistry reflection).registeredChecks = r.registeredChecks := by
  unfold compiledRegistry
  split <;> rfl

/-- The lists that a dispatch looks at. -/
theorem Compiled.lookup (h : Compiled reflection r) :
    (r.compiledRegistry reflection).compiled.checksByType
      = r.registeredChecks.foldl (compileCheck reflection) fun _ => [] := by
  unfold compiledRegistry
  split
  next hclean => exact h hclean
  next => rfl

theorem Compiled.compiledRegistry (h : Compiled reflection r) :
    Compiled reflection (r.compiledRegistry reflection) := by
  intro _
  rw [h.lookup, registeredChecks_compiledRegistry]

variable (host reflection r) in
/-- What a registration does. -/
theorem registerTypedCheck_eq (registration : ValidationCheckRegistration σ ν)
    (category : String) :
    r.call host reflection (.registerTypedCheck registration category) = r ∧
        (Call.registerTypedCheck registration category).registered = [] ∨
      ∃ entry, (Call.registerTypedCheck registration category).registered = [entry] ∧
        r.call host reflection (.registerTypedCheck registration category)
          = { r with
              registeredChecks := r.registeredChecks ++ [entry]
              knownCategories :=
                if category ∈ r.knownCategories then r.knownCategories
                else r.knownCategories ++ [category]
              compileClean := false } := by
  obtain ⟨type, - | check⟩ := registration
  · exact .inl ⟨rfl, rfl⟩
  by_cases hempty : category = ""
  · refine .inl ⟨?_, if_pos (.inl hempty)⟩
    simp only [call, registerTypedCheck, if_pos hempty]
  by_cases hbuiltIn : category = kBuiltInValidationCategory
  · refine .inl ⟨?_, if_pos (.inr hbuiltIn)⟩
    simp only [call, registerTypedCheck, validate_category, if_neg hempty, if_pos hbuiltIn]
    rfl
  · refine .inr ⟨_, if_neg (not_or.mpr ⟨hempty, hbuiltIn⟩), ?_⟩
    simp only [call, registerTypedCheck, validate_category, if_neg hempty, if_neg hbuiltIn]
    rfl

variable (host) in
/-- What each call leaves: its own check, if any, at the end of the list. -/
theorem call_spec (h : Compiled reflection r) (c : Call σ ν) :
    (r.call host reflection c).registeredChecks = r.registeredChecks ++ c.registered ∧
      Compiled reflection (r.call host reflection c) := by
  have hdirty : ∀ {r' : DefaultValidationRegistry σ ν}, r'.compileClean = false →
      Compiled reflection r' :=
    fun hfalse htrue => absurd (hfalse.symm.trans htrue) Bool.false_ne_true
  cases c with
  | registerTypedCheck registration category =>
    obtain ⟨heq, hnone⟩ | ⟨entry, hone, heq⟩ :=
      registerTypedCheck_eq reflection host r registration category
    · rw [heq, hnone, List.append_nil]
      exact ⟨rfl, h⟩
    · rw [heq, hone]
      exact ⟨rfl, hdirty rfl⟩
  | registerBeforeDocument check =>
    cases check with
    | false => exact ⟨(List.append_nil _).symm, h⟩
    | true => exact ⟨(List.append_nil _).symm, hdirty rfl⟩
  | registerAfterDocument check =>
    cases check with
    | false => exact ⟨(List.append_nil _).symm, h⟩
    | true => exact ⟨(List.append_nil _).symm, hdirty rfl⟩
  | getAllValidationCategories =>
    exact ⟨registeredChecks_compiledRegistry.trans (List.append_nil _).symm, h.compiledRegistry⟩
  | runChecks node categories state =>
    exact ⟨registeredChecks_compiledRegistry.trans (List.append_nil _).symm, h.compiledRegistry⟩

variable (host reflection) in
theorem run_spec (calls : List (Call σ ν)) :
    (run host reflection calls).registeredChecks = calls.flatMap Call.registered ∧
      Compiled reflection (run host reflection calls) := by
  induction calls using List.reverseRecOn with
  | nil => exact ⟨rfl, fun h => absurd h Bool.false_ne_true⟩
  | append_singleton calls c ih =>
    obtain ⟨hregistered, hcompiled⟩ := call_spec host ih.2 c
    rw [run, List.foldl_append]
    refine ⟨?_, hcompiled⟩
    rw [List.flatMap_append, List.flatMap_singleton, ← ih.1]
    exact hregistered

/-- **A dispatch runs the applicable checks, each once and in the order of their
registration.**  Applicable are those registered, by any of the calls before, for a type
that the type of the node is or is below, under a selected category.  Checks that throw do
not end the dispatch; a cancellation does. -/
theorem runChecks_dispatches (host : ValidationHost σ ν) (edges : List AstReflection.Call)
    (calls : List (Call σ ν)) (node : ν) (categories : List String) (state : σ) :
    Runs host node categories
      ((calls.flatMap Call.registered).filter fun entry =>
        (AstReflection.run edges).isSubtype (host.typeid node) entry.targetType)
      state
      ((run host (.run edges) calls).runChecks host (.run edges) node categories state).1 := by
  obtain ⟨hregistered, hcompiled⟩ := run_spec (.run edges) host calls
  have happlicable :
      ((run host (.run edges) calls).compiledRegistry (.run edges)).compiled.checksByType
        (host.typeid node)
      = (calls.flatMap Call.registered).filter fun entry =>
        (AstReflection.run edges).isSubtype (host.typeid node) entry.targetType := by
    rw [hcompiled.lookup, hregistered, foldl_compileCheck, List.nil_append]
  rw [← happlicable]
  exact runs_runEntries host node categories state

end DefaultValidationRegistry

end Pegium
