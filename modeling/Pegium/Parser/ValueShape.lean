/-
Pegium/Parser/ValueShape.lean

When a rule node has a value.

The value builder relies on the shape a parser gives the CST: an infix child
follows the child whose object is its left operand; an infix node has its
operator, its right operand and then the infix nodes that continue it; an
ordered choice has selected one of its elements, or has been recovered.
`value_of_builds` says that it relies on nothing else.
-/
import Pegium.Parser.AstSimulation

namespace Pegium

variable {G : Type}

namespace AstGrammar

variable (Γ : AstGrammar G)

/-- A visible assignment child. -/
def isAssignment (child : CstItem G) : Bool :=
  !child.isHidden &&
    match Γ.kind child.grammarElement with
    | .assignment _ _ => true
    | _ => false

/-- The assignment children, in source order. -/
def assignments (f : Forest (CstItem G)) : List (G × ℕ) :=
  (f.roots.filter Γ.isAssignment).map fun child => (child.grammarElement, child.id)

theorem assignments_cons (child : CstItem G) (below rest : Forest (CstItem G)) :
    Γ.assignments (.cons child below rest)
      = Γ.assignments (.tree child .nil) ++ Γ.assignments rest := by
  rw [assignments, assignments, assignments, ← List.map_append, ← List.filter_append]
  rfl

variable {Γ}

theorem assignments_tree {child : CstItem G} {feature : String} {element : AssignedElement G}
    (hvisible : ¬ child.isHidden = true)
    (hkind : Γ.kind child.grammarElement = .assignment feature element) :
    Γ.assignments (.tree child .nil) = [(child.grammarElement, child.id)] := by
  simp [assignments, Forest.roots, Forest.tree, isAssignment, hvisible, hkind]

theorem assignments_tree_of_hidden {child : CstItem G} (hhidden : child.isHidden = true) :
    Γ.assignments (.tree child .nil) = [] := by
  simp [assignments, Forest.roots, Forest.tree, isAssignment, hhidden]

theorem assignments_tree_of_ne {child : CstItem G}
    (hkind : ∀ feature element, Γ.kind child.grammarElement ≠ .assignment feature element) :
    Γ.assignments (.tree child .nil) = [] := by
  simp only [assignments, Forest.tree, Forest.roots, List.map_eq_nil_iff, List.filter_eq_nil_iff,
    List.mem_singleton, isAssignment]
  rintro a rfl
  cases hk : Γ.kind a.grammarElement with
  | assignment feature element => exact absurd hk (hkind feature element)
  | _ => simp

variable (Γ) [DecidableEq G]

mutual

/-- The children of a rule node have the shape the value builder relies on;
`hasObject` tells whether a child before them has given an object. -/
def buildsRule : Forest (CstItem G) → Bool → Bool
  | .nil, _ => true
  | .cons child below rest, hasObject =>
    if child.isHidden then buildsRule rest hasObject
    else
      match Γ.kind child.grammarElement with
      | .assignment _ element =>
        (match element with
          | .parserRule => child.isLeaf || buildsRule below false
          | .orderedChoice choices =>
            buildsChoice choices (containsRecovery ⟨child, below⟩) below
          | .data => true) && buildsRule rest hasObject
      | .create => buildsRule rest true
      | .nest => buildsRule rest true
      | .parserRule => (child.isLeaf || buildsRule below false) && buildsRule rest true
      | .infixRule primary operators =>
        hasObject && buildsOperands child.grammarElement primary operators below false false
          && buildsRule rest true
      | .other => buildsRule rest hasObject

/-- The children of an infix node: the operator, the right operand and the infix
nodes that continue it. -/
def buildsOperands (owner primary : G) (operators : List G) :
    Forest (CstItem G) → Bool → Bool → Bool
  | .nil, hasOperator, hasRight => hasOperator && hasRight
  | .cons child below rest, hasOperator, hasRight =>
    if child.isHidden then buildsOperands owner primary operators rest hasOperator hasRight
    else
      match hasOperator, hasRight with
      | false, hasRight =>
        decide (child.grammarElement ∈ operators)
          && buildsOperands owner primary operators rest true hasRight
      | true, false =>
        decide (child.grammarElement = primary) && (child.isLeaf || buildsRule below false)
          && buildsOperands owner primary operators rest true true
      | true, true =>
        decide (child.grammarElement = owner)
          && buildsOperands owner primary operators below false false
          && buildsOperands owner primary operators rest true true

/-- One of the choices is selected among the children, or the node is recovered. -/
def buildsChoice (choices : List G) (recovered : Bool) : Forest (CstItem G) → Bool
  | .nil => recovered
  | .cons child below rest =>
    if child.isHidden then buildsChoice choices recovered rest
    else if child.grammarElement ∈ choices then
      match Γ.kind child.grammarElement with
      | .parserRule => child.isLeaf || buildsRule below false
      | _ => true
    else buildsChoice choices recovered rest

end

/-- The rule node has the shape the value builder relies on. -/
def builds (node : CstSubtree G) : Bool := node.node.isLeaf || Γ.buildsRule node.children false

end AstGrammar

/-! ### Steps -/

namespace TreeState

/-- What the loop can rely on: an object when there has to be one, and a value
for every assignment that waits. -/
structure Ready (hasObject : Bool) (s : TreeState G) : Prop where
  current : hasObject = true → ∃ t, s.current = some t
  values : ∀ e ∈ s.pending, ∃ v, e.value = some v

variable {s : TreeState G} {hasObject : Bool}

theorem Ready.initial : Ready false (initial : TreeState G) where
  current h := absurd h Bool.false_ne_true
  values := List.forall_mem_nil _

theorem Ready.of_values (h : ∀ e ∈ s.pending, ∃ v, e.value = some v) : s.Ready false where
  current hfalse := absurd hfalse Bool.false_ne_true
  values := h

theorem Ready.weaken (h : s.Ready hasObject) : s.Ready false := .of_values h.values

theorem Ready.wait {e : PendingTree G} (h : s.Ready hasObject) (he : ∃ v, e.value = some v) :
    (s.wait e).Ready hasObject where
  current := h.current
  values x hx := by
    rcases List.mem_append.mp hx with hx | hx
    · exact h.values x hx
    · obtain rfl := List.mem_singleton.mp hx
      exact he

theorem Ready.replace (h : s.Ready hasObject) (t : AstTree G) (d : Forest (AstData G)) :
    (s.replace t d).Ready true where
  current _ := ⟨t, rfl⟩
  values := h.values

theorem Ready.ensureCurrent (h : s.Ready hasObject) (node : CstSubtree G) :
    (s.ensureCurrent node).Ready true := by
  rw [TreeState.ensureCurrent]
  cases ht : s.current with
  | none => exact h.replace _ _
  | some t => exact ⟨fun _ => ⟨t, ht⟩, h.values⟩

theorem pending_ensureCurrent (s : TreeState G) (node : CstSubtree G) :
    (s.ensureCurrent node).pending = s.pending := by
  rw [TreeState.ensureCurrent]
  split <;> rfl

theorem Ready.of_ensureCurrent {node : CstSubtree G}
    (h : (s.ensureCurrent node).Ready hasObject) : s.Ready false :=
  .of_values (s.pending_ensureCurrent node ▸ h.values)

theorem executeAll_total {es : List (PendingTree G)} (h : ∀ e ∈ es, ∃ v, e.value = some v)
    (t : AstTree G) (d : Forest (AstData G)) : ∃ done, executeAll es t d = some done := by
  induction es generalizing t d with
  | nil => exact ⟨_, rfl⟩
  | cons e es ih =>
    obtain ⟨⟨v, hv⟩, hrest⟩ := List.forall_mem_cons.mp h
    rw [executeAll, hv, Option.bind_some]
    exact ih hrest _ _

/-- Only assignments with a value are executed. -/
theorem values_of_executeAll {es : List (PendingTree G)} {t : AstTree G} {d : Forest (AstData G)}
    {done : AstTree G × Forest (AstData G)} (h : executeAll es t d = some done) :
    ∀ e ∈ es, ∃ v, e.value = some v := by
  induction es generalizing t d with
  | nil => exact List.forall_mem_nil _
  | cons e es ih =>
    rw [executeAll, Option.bind_eq_some_iff] at h
    obtain ⟨v, hv, h⟩ := h
    exact List.forall_mem_cons.mpr ⟨⟨v, hv⟩, ih h⟩

theorem Ready.of_flush {s' : TreeState G} (h : s.flush = some s') : s.Ready false := by
  apply of_values
  rw [TreeState.flush] at h
  split at h
  next hpending =>
    rw [hpending]
    exact List.forall_mem_nil _
  next e es hpending =>
    rw [Option.bind_eq_some_iff] at h
    obtain ⟨t, _, h⟩ := h
    rw [Option.map_eq_some_iff] at h
    obtain ⟨done, hdone, _⟩ := h
    rw [hpending]
    exact values_of_executeAll hdone

theorem Ready.flush (h : s.Ready true) : ∃ s', s.flush = some s' ∧ s'.Ready true := by
  obtain ⟨t, ht⟩ := h.current rfl
  rw [TreeState.flush]
  split
  next => exact ⟨s, rfl, h⟩
  next e es hpending =>
    have hvalues := h.values
    rw [hpending] at hvalues
    obtain ⟨done, hdone⟩ := executeAll_total hvalues t s.dropped
    rw [ht, Option.bind_some, hdone]
    exact ⟨_, rfl, fun _ => ⟨_, rfl⟩, List.forall_mem_nil _⟩

theorem Ready.nest (h : s.Ready true) (node : CstSubtree G) :
    ∃ s', s.nest node = some s' ∧ s'.Ready true := by
  obtain ⟨t, ht⟩ := h.current rfl
  rw [TreeState.nest, ht]
  exact ⟨_, rfl, fun _ => ⟨_, rfl⟩, h.values⟩

end TreeState

/-! ### Values -/

theorem ruleTree_total {node : CstSubtree G} {loop : TreeState G → Option (TreeState G)}
    (h : node.node.isLeaf = true ∨
      ∃ s, loop .initial = some s ∧ s.Ready false) : ∃ v, ruleTree node loop = some v := by
  rw [ruleTree]
  split
  · exact ⟨_, rfl⟩
  next hleaf =>
    obtain hleaf' | ⟨s, hs, hready⟩ := h
    · exact absurd hleaf' hleaf
    · obtain ⟨s', hs', hready'⟩ := (hready.ensureCurrent node).flush
      obtain ⟨t, ht⟩ := hready'.current rfl
      rw [hs, Option.bind_some, TreeState.finish, hs', Option.bind_some, ht]
      exact ⟨_, rfl⟩

namespace AstGrammar

variable [DecidableEq G] (Γ : AstGrammar G)

/-- **The loops go through**, by induction on the CST. -/
theorem loops_total (f : Forest (CstItem G)) :
    (∀ node hasObject s, Γ.buildsRule f hasObject = true → s.Ready hasObject →
      ∃ s', Γ.treeLoop node f s = some s' ∧ s'.Ready false) ∧
    (∀ owner primary operators op rhs d,
      Γ.buildsOperands owner primary operators f op.isSome rhs.isSome = true →
      (∀ o, op = some o → o.grammarElement ∈ operators) →
      ∃ read, Γ.operandTrees owner primary operators f op rhs d = some read ∧
        read.1.grammarElement ∈ operators) ∧
    ∀ choices recovered, Γ.buildsChoice choices recovered f = true →
      ∃ v, Γ.selectedTree choices recovered f = some v := by
  induction f with
  | nil =>
    refine ⟨fun node hasObject s _ hs => ⟨s, rfl, hs.weaken⟩, ?_, ?_⟩
    · intro owner primary operators op rhs d h hop
      rw [buildsOperands, Bool.and_eq_true] at h
      obtain ⟨o, rfl⟩ := Option.isSome_iff_exists.mp h.1
      obtain ⟨t, rfl⟩ := Option.isSome_iff_exists.mp h.2
      exact ⟨_, rfl, hop o rfl⟩
    · intro choices recovered h
      rw [buildsChoice] at h
      rw [selectedTree, if_pos h]
      exact ⟨_, rfl⟩
  | cons child below rest ihb ihr =>
    obtain ⟨hbelow, hoperands, hselected⟩ := ihb
    obtain ⟨hrest, horest, hsrest⟩ := ihr
    -- the rule call of this child
    have hcall : (child.isLeaf || Γ.buildsRule below false) = true →
        ∃ v, ruleTree ⟨child, below⟩ (Γ.treeLoop ⟨child, below⟩ below) = some v := by
      intro h
      refine ruleTree_total ((Bool.or_eq_true _ _ ▸ h).imp id fun hb => ?_)
      exact hbelow _ _ _ hb .initial
    refine ⟨?_, ?_, ?_⟩
    · intro node hasObject s h hs
      rw [buildsRule] at h
      rw [treeLoop]
      by_cases hhidden : child.isHidden = true
      · rw [if_pos hhidden] at h ⊢
        exact hrest node _ s h hs
      · rw [if_neg hhidden] at h ⊢
        cases hkind : Γ.kind child.grammarElement with
        | assignment feature element =>
          rw [hkind, Bool.and_eq_true] at h
          refine hrest node _ _ h.2 (hs.wait ?_)
          cases element with
          | parserRule =>
            obtain ⟨v, hv⟩ := hcall h.1
            exact ⟨(some v.1, v.2), by rw [hv]; rfl⟩
          | orderedChoice choices => exact hselected choices _ h.1
          | data => exact ⟨_, rfl⟩
        | create =>
          rw [hkind] at h
          exact hrest node _ _ h (hs.replace _ _)
        | nest =>
          rw [hkind] at h
          obtain ⟨s₁, hs₁, hready₁⟩ := (hs.ensureCurrent node).flush
          obtain ⟨s₂, hs₂, hready₂⟩ := hready₁.nest node
          simp only [hs₁, hs₂, Option.bind_some]
          exact hrest node _ _ h hready₂
        | parserRule =>
          rw [hkind, Bool.and_eq_true] at h
          obtain ⟨v, hv⟩ := hcall h.1
          simp only [hv, Option.bind_some]
          exact hrest node _ _ h.2 (hs.replace _ _)
        | infixRule primary operators =>
          rw [hkind, Bool.and_eq_true, Bool.and_eq_true] at h
          obtain ⟨⟨rfl, hbuilds⟩, hrestBuilds⟩ := h
          obtain ⟨s₁, hs₁, hready₁⟩ := hs.flush
          obtain ⟨t, ht⟩ := hready₁.current rfl
          obtain ⟨read, hread, hop⟩ := hoperands child.grammarElement primary operators none none
            .nil hbuilds (fun o ho => by cases ho)
          simp only [hs₁, ht, hread, Option.bind_some, infixTree, if_pos hop]
          exact hrest node _ _ hrestBuilds ⟨fun _ => ⟨_, rfl⟩, hready₁.values⟩
        | other =>
          rw [hkind] at h
          exact hrest node _ s h hs
    · intro owner primary operators op rhs d h hop
      by_cases hhidden : child.isHidden = true
      · rw [Γ.operandTrees_hidden hhidden]
        refine horest owner primary operators op rhs d ?_ hop
        cases op <;> cases rhs <;> simpa [buildsOperands, hhidden] using h
      · cases op with
        | none =>
          rw [Option.isSome_none, buildsOperands, if_neg hhidden, Bool.and_eq_true,
            decide_eq_true_iff] at h
          rw [operandTrees, if_neg hhidden]
          refine horest owner primary operators (some child) rhs d h.2 fun o ho => ?_
          obtain rfl := Option.some.inj ho
          exact h.1
        | some op =>
          cases rhs with
          | none =>
            rw [Option.isSome_none, Option.isSome_some, buildsOperands, if_neg hhidden,
              Bool.and_eq_true, Bool.and_eq_true, decide_eq_true_iff] at h
            obtain ⟨⟨hprimary, hbuilds⟩, hrestBuilds⟩ := h
            obtain ⟨v, hv⟩ := hcall hbuilds
            rw [operandTrees, if_neg hhidden, if_pos hprimary, hv, Option.bind_some]
            exact horest owner primary operators (some op) (some v.1) _ hrestBuilds hop
          | some t =>
            rw [Option.isSome_some, Option.isSome_some, buildsOperands, if_neg hhidden,
              Bool.and_eq_true, Bool.and_eq_true, decide_eq_true_iff] at h
            obtain ⟨⟨howner, hbuilds⟩, hrestBuilds⟩ := h
            obtain ⟨read, hread, hop'⟩ := hoperands owner primary operators none none .nil
              hbuilds (fun o ho => by cases ho)
            rw [operandTrees, if_neg hhidden, if_pos howner, hread, Option.bind_some,
              infixTree, if_pos hop', Option.bind_some]
            exact horest owner primary operators (some op) (some _) _ hrestBuilds hop
    · intro choices recovered h
      rw [buildsChoice] at h
      rw [selectedTree]
      by_cases hhidden : child.isHidden = true
      · rw [if_pos hhidden] at h ⊢
        exact hsrest choices recovered h
      · rw [if_neg hhidden] at h ⊢
        by_cases hchoice : child.grammarElement ∈ choices
        · rw [if_pos hchoice] at h ⊢
          cases hkind : Γ.kind child.grammarElement with
          | parserRule =>
            rw [hkind] at h
            obtain ⟨v, hv⟩ := hcall h
            exact ⟨(some v.1, v.2), by rw [hv]; rfl⟩
          | _ => exact ⟨_, rfl⟩
        · rw [if_neg hchoice] at h ⊢
          exact hsrest choices recovered h

/-- **A rule node of the shape a parser leaves has a value.** -/
theorem value_of_builds {node : CstSubtree G} (h : Γ.builds node = true) :
    ∃ t d, Γ.value node = some (t, d) := by
  rw [builds, Bool.or_eq_true] at h
  have hloop := h.imp id fun hb => (Γ.loops_total node.children).1 node _ _ hb .initial
  obtain ⟨⟨t, d⟩, hv⟩ := ruleTree_total hloop
  exact ⟨t, d, hv⟩

/-- The object built in an arena, with the nodes that hold its value. -/
theorem get_raw_value_of_builds {node : CstSubtree G} (h : Γ.builds node = true)
    (arena : AstArena G) :
    ∃ object arena' t d, Γ.get_raw_value node arena = some (object, arena') ∧
      Γ.value node = some (t, d) ∧ Holding arena arena' (some object) (some t) d := by
  obtain ⟨t, d, hv⟩ := Γ.value_of_builds h
  have hsimulates := Γ.get_raw_value_simulates node arena
  rw [hv] at hsimulates
  cases hr : Γ.get_raw_value node arena with
  | none =>
    rw [hr] at hsimulates
    cases hsimulates
  | some r =>
    rw [hr] at hsimulates
    cases hsimulates with
    | some hholding => exact ⟨r.1, r.2, t, d, rfl, hv, hholding⟩

end AstGrammar

end Pegium
