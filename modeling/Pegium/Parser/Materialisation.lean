/-
Pegium/Parser/Materialisation.lean

What becomes of the assignments and objects of a rule.

An assignment waits for the next nest or infix child, or for the end of the rule,
and is executed there on the object that is current.  So the child loop executes
each assignment child once and in source order (`childLoop_order`,
`executed_on_current`), as often as the buffer of eight overflows.

An object stays in the tree as long as it is put under the next one.  A create
child and a rule call replace the current object instead, and with it whatever it
has received.  `keeps` says of which CST nodes this loses nothing.
-/
import Pegium.Parser.ValueShape

namespace Pegium

variable {G : Type}

/-! ### What waits and what is done -/

namespace BuildState

/-- The waiting assignments, with the ids of their CST nodes. -/
def waiting (s : BuildState G) : List (G × ℕ) :=
  (s.pendingInline ++ s.pendingOverflow).map fun e => (e.assignment, e.nodeId)

/-- The executed assignments, with the ids of their CST nodes. -/
def done (s : BuildState G) : List (G × ℕ) := s.executed.map fun e => (e.assignment, e.nodeId)

/-- The further assignments wait only when there is no room for eight. -/
def InlineFirst (s : BuildState G) : Prop :=
  s.pendingOverflow ≠ [] → 8 ≤ s.pendingInline.length

variable {s s' : BuildState G}

theorem waiting_addPendingAssignment (h : s.InlineFirst) (e : PendingAssignment G) :
    (s.addPendingAssignment e).waiting = s.waiting ++ [(e.assignment, e.nodeId)] ∧
      (s.addPendingAssignment e).InlineFirst := by
  rw [addPendingAssignment]
  split
  next hroom =>
    have hnone : s.pendingOverflow = [] := by
      by_contra hne
      exact absurd (h hne) (Nat.not_le.mpr hroom)
    refine ⟨by simp [waiting, hnone], fun hne => absurd hnone hne⟩
  next hfull => exact ⟨by simp [waiting], fun _ => Nat.le_of_not_lt hfull⟩

/-- One assignment after the other is executed on the same object. -/
theorem executeAll_eq_some {target : ℕ} {es : List (PendingAssignment G)}
    (h : executeAll target es s = some s') :
    s'.executed = s.executed ++ es.map (fun e => ⟨target, e.assignment, e.nodeId⟩) ∧
      s'.currentNode = s.currentNode ∧ s'.pendingInline = s.pendingInline ∧
      s'.pendingOverflow = s.pendingOverflow := by
  induction es generalizing s with
  | nil =>
    obtain rfl := Option.some.inj h
    exact ⟨(List.append_nil _).symm, rfl, rfl, rfl⟩
  | cons e es ih =>
    rw [executeAll, Option.bind_eq_some_iff] at h
    obtain ⟨t, ht, h⟩ := h
    rw [execute, Option.bind_eq_some_iff] at ht
    obtain ⟨value, _, ht⟩ := ht
    rw [Option.map_eq_some_iff] at ht
    obtain ⟨arena, _, rfl⟩ := ht
    obtain ⟨hexecuted, hrest⟩ := ih h
    refine ⟨?_, hrest⟩
    rw [hexecuted, List.append_assoc]
    rfl

/-- The waiting assignments are executed in their order, on the current object. -/
theorem applyPendingAssignments_eq_some (h : s.applyPendingAssignments = some s') :
    ∃ executions : List (Execution G), s'.executed = s.executed ++ executions ∧
      executions.map (fun e => (e.assignment, e.nodeId)) = s.waiting ∧
      (∀ e ∈ executions, s.currentNode = some e.target) ∧ s'.currentNode = s.currentNode := by
  rw [applyPendingAssignments] at h
  rw [waiting]
  split at h
  next hnone =>
    obtain rfl := Option.some.inj h
    rw [hnone]
    exact ⟨[], (List.append_nil _).symm, rfl, List.forall_mem_nil _, rfl⟩
  next e es hsome =>
    rw [Option.bind_eq_some_iff] at h
    obtain ⟨target, htarget, h⟩ := h
    obtain ⟨hexecuted, hcurrent, _⟩ := executeAll_eq_some h
    rw [hsome]
    refine ⟨_, hexecuted, ?_, ?_, hcurrent⟩
    · simp
    · intro x hx
      rw [List.mem_map] at hx
      obtain ⟨_, _, rfl⟩ := hx
      exact htarget

/-- What waits is executed on the current object. -/
theorem mem_executed_of_waiting {p : G × ℕ} (h : s.applyPendingAssignments = some s')
    (hp : p ∈ s.waiting) :
    ∃ o, s.currentNode = some o ∧ (⟨o, p.1, p.2⟩ : Execution G) ∈ s'.executed := by
  obtain ⟨executions, hexecuted, hmap, htarget, _⟩ := applyPendingAssignments_eq_some h
  rw [← hmap, List.mem_map] at hp
  obtain ⟨e, he, rfl⟩ := hp
  refine ⟨e.target, htarget e he, ?_⟩
  rw [hexecuted]
  exact List.mem_append_right _ he

theorem applyAndClearPendingAssignments_eq_some
    (h : s.applyAndClearPendingAssignments = some s') :
    (∃ executions : List (Execution G), s'.executed = s.executed ++ executions ∧
      executions.map (fun e => (e.assignment, e.nodeId)) = s.waiting ∧
      ∀ e ∈ executions, s.currentNode = some e.target) ∧
      s'.currentNode = s.currentNode ∧ s'.waiting = [] ∧ s'.InlineFirst := by
  rw [applyAndClearPendingAssignments, Option.map_eq_some_iff] at h
  obtain ⟨t, ht, rfl⟩ := h
  obtain ⟨executions, hexecuted, hmap, htarget, hcurrent⟩ := applyPendingAssignments_eq_some ht
  exact ⟨⟨executions, hexecuted, hmap, htarget⟩, hcurrent, rfl, fun hne => absurd rfl hne⟩

theorem ensureCurrent_fields (s : BuildState G) (node : CstSubtree G) :
    (s.ensureCurrent node).executed = s.executed ∧
      (s.ensureCurrent node).waiting = s.waiting ∧
      ((s.ensureCurrent node).InlineFirst ↔ s.InlineFirst) := by
  rw [ensureCurrent]
  split
  · exact ⟨rfl, rfl, Iff.rfl⟩
  · exact ⟨rfl, rfl, Iff.rfl⟩

theorem ensureCurrent_of_isSome {o : ℕ} (h : s.currentNode = some o) (node : CstSubtree G) :
    s.ensureCurrent node = s := by
  rw [ensureCurrent, h]

theorem nestCurrent_eq_some {node : CstSubtree G} (h : s.nestCurrent node = some s') :
    s'.executed = s.executed ∧ s'.waiting = s.waiting ∧ (s'.InlineFirst ↔ s.InlineFirst) := by
  rw [nestCurrent, Option.bind_eq_some_iff] at h
  obtain ⟨previous, _, h⟩ := h
  rw [Option.map_eq_some_iff] at h
  obtain ⟨arena, _, rfl⟩ := h
  exact ⟨rfl, rfl, Iff.rfl⟩

end BuildState

/-! ### The assignments of a rule node -/

namespace AstGrammar

variable (Γ : AstGrammar G)

/-- A visible nest or infix child. -/
def isBoundary (child : CstItem G) : Bool :=
  !child.isHidden &&
    match Γ.kind child.grammarElement with
    | .nest => true
    | .infixRule _ _ => true
    | _ => false

/-- No nest or infix child. -/
def BoundaryFree (f : Forest (CstItem G)) : Prop := ∀ child ∈ f.roots, Γ.isBoundary child = false

/-- What the child loop does at a child: it notes an assignment and executes
those that wait, in their order, and only at a nest or infix child. -/
structure Passes (s s' : BuildState G) (child : CstItem G) : Prop where
  inlineFirst : s'.InlineFirst
  order : s'.done ++ s'.waiting = s.done ++ s.waiting ++ Γ.assignments (.tree child .nil)
  quiet : Γ.isBoundary child = false → s'.executed = s.executed
  grows : s.executed <+: s'.executed

variable {Γ} in
theorem Passes.of_same {s s' : BuildState G} {child : CstItem G} (hs : s'.InlineFirst)
    (hexecuted : s'.executed = s.executed) (hwaiting : s'.waiting = s.waiting)
    (hnone : Γ.assignments (.tree child .nil) = []) : Γ.Passes s s' child where
  inlineFirst := hs
  order := by rw [BuildState.done, BuildState.done, hexecuted, hwaiting, hnone, List.append_nil]
  quiet _ := hexecuted
  grows := ⟨[], by rw [List.append_nil, hexecuted]⟩

variable {Γ} in
theorem Passes.of_flush {s s₁ u s' : BuildState G} {child : CstItem G}
    (hexecuted : s₁.executed = s.executed) (hwaiting : s₁.waiting = s.waiting)
    (hu : s₁.applyAndClearPendingAssignments = some u) (hs : s'.InlineFirst)
    (hexecuted' : s'.executed = u.executed) (hwaiting' : s'.waiting = u.waiting)
    (hboundary : Γ.isBoundary child = true)
    (hnone : Γ.assignments (.tree child .nil) = []) : Γ.Passes s s' child := by
  obtain ⟨⟨executions, happend, hmap, _⟩, _, hcleared, _⟩ :=
    BuildState.applyAndClearPendingAssignments_eq_some hu
  have hall : s'.executed = s.executed ++ executions := by rw [hexecuted', happend, hexecuted]
  refine ⟨hs, ?_, fun hquiet => absurd (hquiet.symm.trans hboundary) Bool.false_ne_true, ?_⟩
  · rw [hwaiting', hcleared, hnone, BuildState.done, hall, List.map_append, hmap, hwaiting,
      List.append_nil, List.append_nil]
    rfl
  · rw [hall]
    exact List.prefix_append _ _

variable [DecidableEq G]

/-- The loop takes one child after the other. -/
theorem childLoop_cons (node : CstSubtree G) (child : CstItem G) (below rest : Forest (CstItem G))
    (s : BuildState G) :
    Γ.childLoop node (.cons child below rest) s
      = (Γ.childLoop node (.tree child below) s).bind (Γ.childLoop node rest) := by
  rw [Forest.tree, childLoop, childLoop]
  by_cases hhidden : child.isHidden = true
  · rw [if_pos hhidden, if_pos hhidden]
    rfl
  · rw [if_neg hhidden, if_neg hhidden]
    cases Γ.kind child.grammarElement with
    | assignment feature element => rfl
    | create => rfl
    | nest => simp only [Option.bind_assoc, childLoop, Option.bind_some]
    | parserRule => simp only [Option.bind_assoc, childLoop, Option.bind_some]
    | infixRule primary operators => simp only [Option.bind_assoc, childLoop, Option.bind_some]
    | other => rfl

theorem childLoop_append (node : CstSubtree G) (f g : Forest (CstItem G)) (s : BuildState G) :
    Γ.childLoop node (f ++ g) s = (Γ.childLoop node f s).bind (Γ.childLoop node g) := by
  induction f generalizing s with
  | nil => rw [Forest.nil_append, childLoop, Option.bind_some]
  | cons child below rest _ ih =>
    rw [Forest.cons_append, childLoop_cons, childLoop_cons, Option.bind_assoc]
    congr 1
    funext t
    exact ih t

/-- The step at a child. -/
theorem childLoop_passes {node : CstSubtree G} {child : CstItem G} {below : Forest (CstItem G)}
    {s s' : BuildState G} (hs : s.InlineFirst)
    (h : Γ.childLoop node (.tree child below) s = some s') : Γ.Passes s s' child := by
  rw [Forest.tree, childLoop] at h
  by_cases hhidden : child.isHidden = true
  · rw [if_pos hhidden] at h
    obtain rfl := Option.some.inj h
    refine ⟨hs, ?_, fun _ => rfl, List.prefix_rfl⟩
    rw [assignments_tree_of_hidden hhidden, List.append_nil]
  · rw [if_neg hhidden] at h
    cases hkind : Γ.kind child.grammarElement with
    | assignment feature element =>
      rw [hkind] at h
      obtain rfl := Option.some.inj h
      obtain ⟨hwaiting, hfirst⟩ := BuildState.waiting_addPendingAssignment hs _
      have hexecuted : ∀ e, (s.addPendingAssignment e).executed = s.executed := by
        intro e
        rw [BuildState.addPendingAssignment]
        split <;> rfl
      refine ⟨hfirst, ?_, fun _ => hexecuted _, ?_⟩
      · rw [hwaiting, assignments_tree hhidden hkind, BuildState.done, hexecuted, List.append_assoc]
        rfl
      · exact ⟨[], by rw [List.append_nil, hexecuted]⟩
    | create =>
      rw [hkind] at h
      obtain rfl := Option.some.inj h
      exact .of_same hs rfl rfl (assignments_tree_of_ne (by simp [hkind]))
    | nest =>
      have hboundary : Γ.isBoundary child = true := by simp [isBoundary, hhidden, hkind]
      rw [hkind, Option.bind_eq_some_iff] at h
      obtain ⟨u, hu, h⟩ := h
      rw [Option.bind_eq_some_iff] at h
      obtain ⟨v, hv, h⟩ := h
      obtain rfl := Option.some.inj h
      obtain ⟨hexecuted, hwaiting, _⟩ := s.ensureCurrent_fields node
      obtain ⟨hexecuted', hwaiting', hfirst⟩ := BuildState.nestCurrent_eq_some hv
      obtain ⟨_, _, _, hu'⟩ := BuildState.applyAndClearPendingAssignments_eq_some hu
      exact .of_flush hexecuted hwaiting hu (hfirst.mpr hu') hexecuted' hwaiting' hboundary
        (assignments_tree_of_ne (by simp [hkind]))
    | parserRule =>
      rw [hkind, Option.bind_eq_some_iff] at h
      obtain ⟨value, _, h⟩ := h
      obtain rfl := Option.some.inj h
      exact .of_same hs rfl rfl (assignments_tree_of_ne (by simp [hkind]))
    | infixRule primary operators =>
      have hboundary : Γ.isBoundary child = true := by simp [isBoundary, hhidden, hkind]
      rw [hkind, Option.bind_eq_some_iff] at h
      obtain ⟨u, hu, h⟩ := h
      simp only [Option.bind_eq_some_iff] at h
      obtain ⟨lhs, _, read, _, value, _, h⟩ := h
      obtain rfl := Option.some.inj h
      obtain ⟨_, _, _, hu'⟩ := BuildState.applyAndClearPendingAssignments_eq_some hu
      exact .of_flush rfl rfl hu hu' rfl rfl hboundary (assignments_tree_of_ne (by simp [hkind]))
    | other =>
      rw [hkind] at h
      obtain rfl := Option.some.inj h
      exact .of_same hs rfl rfl (assignments_tree_of_ne (by simp [hkind]))

/-- **Each assignment child is executed once and in source order**: after some
children the executed assignments, followed by the waiting ones, are those of the
children. -/
theorem childLoop_order {node : CstSubtree G} {f : Forest (CstItem G)} {s s' : BuildState G}
    (hs : s.InlineFirst) (h : Γ.childLoop node f s = some s') :
    s'.done ++ s'.waiting = s.done ++ s.waiting ++ Γ.assignments f ∧ s'.InlineFirst ∧
      s.executed <+: s'.executed ∧ (Γ.BoundaryFree f → s'.executed = s.executed) := by
  induction f generalizing s with
  | nil =>
    obtain rfl := Option.some.inj h
    exact ⟨(List.append_nil _).symm, hs, List.prefix_rfl, fun _ => rfl⟩
  | cons child below rest _ ih =>
    rw [childLoop_cons, Option.bind_eq_some_iff] at h
    obtain ⟨t, ht, h⟩ := h
    have hstep := Γ.childLoop_passes hs ht
    obtain ⟨horder, hfirst, hgrows, hquiet⟩ := ih hstep.inlineFirst h
    refine ⟨?_, hfirst, hstep.grows.trans hgrows, fun hfree => ?_⟩
    · rw [horder, hstep.order, assignments_cons, List.append_assoc]
    · obtain ⟨hchild, hrest⟩ := List.forall_mem_cons.mp hfree
      rw [hquiet hrest, hstep.quiet hchild]

/-- Without a nest or infix child only the waiting assignments grow. -/
theorem waiting_of_boundaryFree {node : CstSubtree G} {f : Forest (CstItem G)}
    {s s' : BuildState G} (hs : s.InlineFirst) (h : Γ.childLoop node f s = some s')
    (hfree : Γ.BoundaryFree f) : s'.waiting = s.waiting ++ Γ.assignments f := by
  obtain ⟨horder, _, _, hquiet⟩ := Γ.childLoop_order hs h
  rw [BuildState.done, BuildState.done, hquiet hfree, List.append_assoc] at horder
  exact List.append_cancel_left horder

/-- At a nest or infix child the waiting assignments are executed on the current
object, which a nest child creates when there is none. -/
theorem mem_executed_of_boundary {node : CstSubtree G} {child : CstItem G}
    {below : Forest (CstItem G)} {s s' : BuildState G} {p : G × ℕ}
    (hboundary : Γ.isBoundary child = true)
    (h : Γ.childLoop node (.tree child below) s = some s') (hp : p ∈ s.waiting) :
    ∃ o, (s.ensureCurrent node).currentNode = some o ∧
      (⟨o, p.1, p.2⟩ : Execution G) ∈ s'.executed := by
  rw [isBoundary, Bool.and_eq_true, Bool.not_eq_true'] at hboundary
  obtain ⟨hvisible, hkind⟩ := hboundary
  rw [Forest.tree, childLoop, if_neg (by simp [hvisible])] at h
  cases hk : Γ.kind child.grammarElement with
  | nest =>
    rw [hk, BuildState.applyAndClearPendingAssignments, Option.bind_map,
      Option.bind_eq_some_iff] at h
    obtain ⟨u, hu, h⟩ := h
    rw [Function.comp_apply, Option.bind_eq_some_iff] at h
    obtain ⟨v, hv, h⟩ := h
    obtain rfl := Option.some.inj h
    rw [← (s.ensureCurrent_fields node).2.1] at hp
    obtain ⟨o, ho, hmem⟩ := BuildState.mem_executed_of_waiting hu hp
    refine ⟨o, ho, ?_⟩
    rw [(BuildState.nestCurrent_eq_some hv).1]
    exact hmem
  | infixRule primary operators =>
    rw [hk, Option.bind_eq_some_iff] at h
    obtain ⟨w, hw, h⟩ := h
    simp only [Option.bind_eq_some_iff] at h
    obtain ⟨lhs, _, read, _, value, _, h⟩ := h
    obtain rfl := Option.some.inj h
    rw [BuildState.applyAndClearPendingAssignments, Option.map_eq_some_iff] at hw
    obtain ⟨u, hu, rfl⟩ := hw
    obtain ⟨o, ho, hmem⟩ := BuildState.mem_executed_of_waiting hu hp
    refine ⟨o, ?_, hmem⟩
    rw [BuildState.ensureCurrent_of_isSome ho]
    exact ho
  | _ =>
    rw [hk] at hkind
    cases hkind

/-- **An assignment is executed on the object that is current at the next nest or
infix child**, or at the end of the rule. -/
theorem executed_on_current {node : CstSubtree G} {f g h below : Forest (CstItem G)}
    {child : CstItem G} {s₀ s s' : BuildState G} (hs₀ : s₀.InlineFirst)
    (hchild : Γ.isAssignment child = true) (hfree : Γ.BoundaryFree g)
    (hnext : ∀ next ∈ h.roots.head?, Γ.isBoundary next = true)
    (hrun : Γ.childLoop node ((f ++ .cons child below g) ++ h) s₀ = some s)
    (hfinish : s.finish node = some s') :
    ∃ t o, Γ.childLoop node (f ++ .cons child below g) s₀ = some t ∧
      (t.ensureCurrent node).currentNode = some o ∧
      (⟨o, child.grammarElement, child.id⟩ : Execution G) ∈ s'.executed := by
  rw [childLoop_append, Option.bind_eq_some_iff] at hrun
  obtain ⟨t, ht, hrest⟩ := hrun
  have hrun := ht
  rw [childLoop_append, Option.bind_eq_some_iff] at hrun
  obtain ⟨u, hu, hrun⟩ := hrun
  rw [childLoop_cons, Option.bind_eq_some_iff] at hrun
  obtain ⟨v, hv, hg⟩ := hrun
  have huFirst := (Γ.childLoop_order hs₀ hu).2.1
  have hvFirst := (Γ.childLoop_order huFirst hv).2.1
  have htFirst := (Γ.childLoop_order hvFirst hg).2.1
  -- the assignment waits until the next boundary
  have hquiet : Γ.BoundaryFree (.tree child below) := by
    intro a ha
    obtain rfl := List.mem_singleton.mp ha
    rw [isAssignment, Bool.and_eq_true] at hchild
    rw [isBoundary, hchild.1, Bool.true_and]
    cases hk : Γ.kind a.grammarElement with
    | assignment feature element => rfl
    | _ => simp [hk] at hchild
  have hwaits : (child.grammarElement, child.id) ∈ t.waiting := by
    rw [Γ.waiting_of_boundaryFree hvFirst hg hfree, Γ.waiting_of_boundaryFree huFirst hv hquiet]
    simp [assignments, Forest.roots, Forest.tree, hchild]
  refine ⟨t, ?_⟩
  have hexecuted : ∃ o, (t.ensureCurrent node).currentNode = some o ∧
      (⟨o, child.grammarElement, child.id⟩ : Execution G) ∈ s'.executed := by
    cases h with
    | nil =>
      obtain rfl := Option.some.inj hrest
      rw [← (t.ensureCurrent_fields node).2.1] at hwaits
      exact BuildState.mem_executed_of_waiting hfinish hwaits
    | cons next below' rest =>
      rw [childLoop_cons, Option.bind_eq_some_iff] at hrest
      obtain ⟨w, hw, hrest⟩ := hrest
      obtain ⟨o, ho, hmem⟩ := Γ.mem_executed_of_boundary (hnext next rfl) hw hwaits
      refine ⟨o, ho, ?_⟩
      -- what has been executed stays
      have hwFirst := (Γ.childLoop_order htFirst hw).2.1
      have hgrows := (Γ.childLoop_order hwFirst hrest).2.2.1
      obtain ⟨executions, hlast, _⟩ := BuildState.applyPendingAssignments_eq_some hfinish
      rw [hlast, (s.ensureCurrent_fields node).1]
      exact List.mem_append_left _ (hgrows.subset hmem)
  obtain ⟨o, ho⟩ := hexecuted
  exact ⟨o, ht, ho⟩

end AstGrammar

/-! ### What is replaced -/

/-- Something has been assigned to the object, or put below it. -/
def received : Option (AstTree G) → Bool
  | none => false
  | some t => !t.data.assigned.isEmpty || !t.content.roots.isEmpty

/-- Trees of single objects that have received nothing. -/
def Bare : Forest (AstData G) → Prop
  | .nil => True
  | .cons v c r => (v.assigned = [] ∧ c = .nil) ∧ Bare r

theorem bare_append {f g : Forest (AstData G)} : Bare (f ++ g) ↔ Bare f ∧ Bare g := by
  induction f with
  | nil => simp [Bare]
  | cons v c r _ ih => simp only [Forest.cons_append, Bare, ih, and_assoc]

theorem bare_optionForest (t : Option (AstTree G)) :
    Bare (optionForest t) ↔ received t = false := by
  cases t with
  | none => simp [optionForest, Bare, received]
  | some t =>
    obtain ⟨v, c⟩ := t
    cases c <;> simp [optionForest, AstTree.forest, Forest.tree, Bare, received, Forest.roots]

namespace TreeState

variable {s s' : TreeState G}

/-- Nothing that has been replaced so far had received anything. -/
def Neat (s : TreeState G) : Prop :=
  Bare s.dropped ∧ ∀ e ∈ s.pending, ∀ v, e.value = some v → Bare v.2

theorem neat_wait {e : PendingTree G} :
    (s.wait e).Neat ↔ s.Neat ∧ ∀ v, e.value = some v → Bare v.2 := by
  simp only [Neat, wait, List.forall_mem_append, List.forall_mem_singleton, and_assoc]

theorem neat_replace {t : AstTree G} {d : Forest (AstData G)} :
    (s.replace t d).Neat ↔ s.Neat ∧ received s.current = false ∧ Bare d := by
  simp only [Neat, replace, bare_append, bare_optionForest]
  tauto

theorem neat_ensureCurrent (node : CstSubtree G) :
    ((s.ensureCurrent node).Neat ↔ s.Neat) ∧
      received (s.ensureCurrent node).current = received s.current := by
  rw [TreeState.ensureCurrent]
  cases ht : s.current with
  | none => exact ⟨by simp [neat_replace, ht, received, Bare], rfl⟩
  | some t => exact ⟨Iff.rfl, by rw [ht]⟩

theorem executeAll_neat {es : List (PendingTree G)} {t : AstTree G} {d : Forest (AstData G)}
    {done : AstTree G × Forest (AstData G)} (h : executeAll es t d = some done) :
    (Bare done.2 ↔ Bare d ∧ ∀ e ∈ es, ∀ v, e.value = some v → Bare v.2) ∧
      received (some done.1) = (received (some t) || !es.isEmpty) := by
  induction es generalizing t d with
  | nil =>
    obtain rfl := Option.some.inj h
    exact ⟨by simp, by simp⟩
  | cons e es ih =>
    rw [executeAll, Option.bind_eq_some_iff] at h
    obtain ⟨v, hv, h⟩ := h
    obtain ⟨hbare, hreceived⟩ := ih h
    refine ⟨?_, ?_⟩
    · rw [hbare, bare_append, List.forall_mem_cons, hv]
      simp only [Option.some.injEq, forall_eq']
      tauto
    · -- the assignment is noted on the object
      rw [hreceived]
      simp [received, AstTree.record]

theorem flush_neat (h : s.flush = some s') :
    (s'.Neat ↔ s.Neat) ∧ received s'.current = (received s.current || !s.pending.isEmpty) ∧
      s'.pending = [] := by
  rw [flush] at h
  split at h
  next hpending =>
    obtain rfl := Option.some.inj h
    exact ⟨Iff.rfl, by simp [hpending], hpending⟩
  next e es hpending =>
    rw [Option.bind_eq_some_iff] at h
    obtain ⟨t, ht, h⟩ := h
    rw [Option.map_eq_some_iff] at h
    obtain ⟨done, hdone, rfl⟩ := h
    obtain ⟨hbare, hreceived⟩ := executeAll_neat hdone
    refine ⟨?_, ?_, rfl⟩
    · rw [Neat, Neat, hpending, hbare]
      simp only [List.not_mem_nil, false_imp_iff, implies_true, and_true]
    · rw [hreceived, ht, hpending]

theorem nest_neat {node : CstSubtree G} (h : s.nest node = some s') :
    (s'.Neat ↔ s.Neat) ∧ received s'.current = true ∧ s'.pending = s.pending := by
  rw [nest, Option.map_eq_some_iff] at h
  obtain ⟨t, _, rfl⟩ := h
  exact ⟨Iff.rfl, rfl, rfl⟩

end TreeState

namespace AstGrammar

variable (Γ : AstGrammar G)

/-- Whether the object of a rule has received something at the end: before these
children the current object has (`full`), or assignments wait (`waits`). -/
def fills : Forest (CstItem G) → Bool → Bool → Bool
  | .nil, full, waits => full || waits
  | .cons child below rest, full, waits =>
    if child.isHidden then fills rest full waits
    else
      match Γ.kind child.grammarElement with
      | .assignment _ _ => fills rest full true
      | .create => fills rest false waits
      | .nest => fills rest true false
      | .parserRule => fills rest (!child.isLeaf && fills below false false) waits
      | .infixRule _ _ => fills rest true false
      | .other => fills rest full waits

variable [DecidableEq G]

mutual

/-- No create child and no rule call among the children comes while the current
object has received something, here and in the rule nodes built below. -/
def keepsRule : Forest (CstItem G) → Bool → Bool
  | .nil, _ => true
  | .cons child below rest, full =>
    if child.isHidden then keepsRule rest full
    else
      match Γ.kind child.grammarElement with
      | .assignment _ element =>
        (match element with
          | .parserRule => child.isLeaf || keepsRule below false
          | .orderedChoice choices => keepsChoice choices below
          | .data => true) && keepsRule rest full
      | .create => !full && keepsRule rest false
      | .nest => keepsRule rest true
      | .parserRule =>
        !full && (child.isLeaf || keepsRule below false)
          && keepsRule rest (!child.isLeaf && Γ.fills below false false)
      | .infixRule _ _ => keepsOperands below false false && keepsRule rest true
      | .other => keepsRule rest full

/-- The same in the operands of an infix node. -/
def keepsOperands : Forest (CstItem G) → Bool → Bool → Bool
  | .nil, _, _ => true
  | .cons child below rest, hasOperator, hasRight =>
    if child.isHidden then keepsOperands rest hasOperator hasRight
    else
      match hasOperator, hasRight with
      | false, hasRight => keepsOperands rest true hasRight
      | true, false => (child.isLeaf || keepsRule below false) && keepsOperands rest true true
      | true, true => keepsOperands below false false && keepsOperands rest true true

/-- The same in the selected choice. -/
def keepsChoice (choices : List G) : Forest (CstItem G) → Bool
  | .nil => true
  | .cons child below rest =>
    if child.isHidden then keepsChoice choices rest
    else if child.grammarElement ∈ choices then
      match Γ.kind child.grammarElement with
      | .parserRule => child.isLeaf || keepsRule below false
      | _ => true
    else keepsChoice choices rest

end

/-- No object that has received something is replaced. -/
def keeps (node : CstSubtree G) : Bool := node.node.isLeaf || Γ.keepsRule node.children false

/-- What the value of a rule node drops, when its child loop is as `hloop` says. -/
theorem ruleTree_keeps {child : CstItem G} {below : Forest (CstItem G)}
    {v : AstTree G × Forest (AstData G)}
    (hloop : ∀ s', Γ.treeLoop ⟨child, below⟩ below .initial = some s' → s'.Ready false →
      (s'.Neat ↔ Γ.keepsRule below false = true) ∧
        (received s'.current || !s'.pending.isEmpty) = Γ.fills below false false)
    (h : ruleTree ⟨child, below⟩ (Γ.treeLoop ⟨child, below⟩ below) = some v) :
    (Bare v.2 ↔ (child.isLeaf || Γ.keepsRule below false) = true) ∧
      received (some v.1) = (!child.isLeaf && Γ.fills below false false) := by
  rw [ruleTree] at h
  cases hleaf : child.isLeaf with
  | true =>
    rw [if_pos hleaf] at h
    obtain rfl := Option.some.inj h
    exact ⟨by simp [Bare], rfl⟩
  | false =>
    rw [if_neg (by simp [hleaf]), Option.bind_eq_some_iff] at h
    obtain ⟨s₂, h, hv⟩ := h
    rw [Option.bind_eq_some_iff] at h
    obtain ⟨s₁, hs₁, hfinish⟩ := h
    rw [Option.map_eq_some_iff] at hv
    obtain ⟨t, ht, rfl⟩ := hv
    obtain ⟨hneat, hfills⟩ := hloop s₁ hs₁ (TreeState.Ready.of_flush hfinish).of_ensureCurrent
    obtain ⟨hensure, hcurrent⟩ := TreeState.neat_ensureCurrent (s := s₁) ⟨child, below⟩
    obtain ⟨hflush, hreceived, hcleared⟩ := TreeState.flush_neat hfinish
    rw [hensure] at hflush
    rw [hcurrent, TreeState.pending_ensureCurrent, hfills, ht] at hreceived
    refine ⟨?_, hreceived⟩
    rw [Bool.false_or, ← hneat, ← hflush, TreeState.Neat, hcleared]
    simp

/-- **What the loops drop**, by induction on the CST. -/
theorem loops_keep (f : Forest (CstItem G)) :
    (∀ node s s', Γ.treeLoop node f s = some s' → s'.Ready false →
      s.Ready false ∧ (s'.Neat ↔ s.Neat ∧ Γ.keepsRule f (received s.current) = true) ∧
        (received s'.current || !s'.pending.isEmpty)
          = Γ.fills f (received s.current) (!s.pending.isEmpty)) ∧
    (∀ owner primary operators op rhs d read,
      Γ.operandTrees owner primary operators f op rhs d = some read →
      (Bare read.2.2 ↔ Bare d ∧ Γ.keepsOperands f op.isSome rhs.isSome = true)) ∧
    ∀ choices recovered v, Γ.selectedTree choices recovered f = some v →
      (Bare v.2 ↔ Γ.keepsChoice choices f = true) := by
  induction f with
  | nil =>
    refine ⟨?_, ?_, ?_⟩
    · intro node s s' h hs'
      obtain rfl := Option.some.inj h
      exact ⟨hs', by simp [keepsRule], rfl⟩
    · intro owner primary operators op rhs d read h
      rw [operandTrees, Option.bind_eq_some_iff] at h
      obtain ⟨o, _, h⟩ := h
      rw [Option.map_eq_some_iff] at h
      obtain ⟨t, _, rfl⟩ := h
      simp [keepsOperands]
    · intro choices recovered v h
      rw [selectedTree] at h
      split at h
      · obtain rfl := Option.some.inj h
        simp [keepsChoice, Bare]
      · cases h
  | cons child below rest ihb ihr =>
    obtain ⟨hbelow, hoperands, hselected⟩ := ihb
    obtain ⟨hrest, horest, hsrest⟩ := ihr
    -- the rule call of this child
    have hcall : ∀ v, ruleTree ⟨child, below⟩ (Γ.treeLoop ⟨child, below⟩ below) = some v →
        (Bare v.2 ↔ (child.isLeaf || Γ.keepsRule below false) = true) ∧
          received (some v.1) = (!child.isLeaf && Γ.fills below false false) := by
      intro v hv
      refine Γ.ruleTree_keeps (fun s' hs' hready => ?_) hv
      obtain ⟨_, hneat, hfills⟩ := hbelow _ _ _ hs' hready
      refine ⟨?_, hfills⟩
      rw [hneat]
      simp [TreeState.Neat, TreeState.initial, Bare, received]
    refine ⟨?_, ?_, ?_⟩
    · intro node s s' h hs'
      rw [treeLoop] at h
      rw [keepsRule, fills]
      by_cases hhidden : child.isHidden = true
      · rw [if_pos hhidden] at h ⊢
        rw [if_pos hhidden]
        exact hrest node s s' h hs'
      · rw [if_neg hhidden] at h ⊢
        rw [if_neg hhidden]
        cases hkind : Γ.kind child.grammarElement with
        | assignment feature element =>
          rw [hkind] at h
          obtain ⟨hready, hneat, hfills⟩ := hrest node _ s' h hs'
          obtain ⟨hvalues, hvalue⟩ := List.forall_mem_append.mp hready.values
          obtain ⟨v, hv⟩ := List.forall_mem_singleton.mp hvalue
          refine ⟨.of_values hvalues, ?_, ?_⟩
          · rw [hneat, TreeState.neat_wait, Bool.and_eq_true, and_assoc]
            refine and_congr_right fun _ => and_congr_left fun _ => ?_
            rw [hv]
            simp only [Option.some.injEq, forall_eq']
            -- what is dropped while the value is built
            cases element with
            | parserRule =>
              obtain ⟨w, hw, rfl⟩ := Option.map_eq_some_iff.mp hv
              exact (hcall w hw).1
            | orderedChoice choices => exact hselected choices _ v hv
            | data =>
              obtain rfl := Option.some.inj hv
              simp [Bare]
          · have hwaits : ∀ e, (s.wait e).pending.isEmpty = false := by simp [TreeState.wait]
            rw [hfills, hwaits]
            rfl
        | create =>
          rw [hkind] at h
          obtain ⟨hready, hneat, hfills⟩ := hrest node _ s' h hs'
          refine ⟨.of_values hready.values, ?_, hfills⟩
          rw [hneat, TreeState.neat_replace]
          simp [Bare, TreeState.replace, received, AstTree.new, Forest.roots, and_assoc]
        | nest =>
          rw [hkind, Option.bind_eq_some_iff] at h
          obtain ⟨s₁, hs₁, h⟩ := h
          rw [Option.bind_eq_some_iff] at h
          obtain ⟨s₂, hs₂, h⟩ := h
          obtain ⟨_, hneat, hfills⟩ := hrest node _ s' h hs'
          obtain ⟨hneat₂, hreceived₂, hpending₂⟩ := TreeState.nest_neat hs₂
          obtain ⟨hneat₁, _, hpending₁⟩ := TreeState.flush_neat hs₁
          rw [hreceived₂, hpending₂, hpending₁] at hfills
          rw [hreceived₂, hneat₂, hneat₁, (TreeState.neat_ensureCurrent node).1] at hneat
          exact ⟨(TreeState.Ready.of_flush hs₁).of_ensureCurrent, hneat, hfills⟩
        | parserRule =>
          rw [hkind, Option.bind_eq_some_iff] at h
          obtain ⟨v, hv, h⟩ := h
          obtain ⟨hready, hneat, hfills⟩ := hrest node _ s' h hs'
          obtain ⟨hbare, hreceived⟩ := hcall v hv
          have hcurrent : received (s.replace v.1 v.2).current
              = (!child.isLeaf && Γ.fills below false false) := hreceived
          rw [hcurrent] at hneat hfills
          refine ⟨.of_values hready.values, ?_, hfills⟩
          rw [hneat, TreeState.neat_replace, hbare]
          simp only [Bool.and_eq_true, Bool.not_eq_true', and_assoc]
        | infixRule primary operators =>
          rw [hkind, Option.bind_eq_some_iff] at h
          obtain ⟨s₁, hs₁, h⟩ := h
          simp only [Option.bind_eq_some_iff] at h
          obtain ⟨t, ht, read, hread, value, hvalue, h⟩ := h
          obtain ⟨_, hneat, hfills⟩ := hrest node _ s' h hs'
          obtain ⟨hneat₁, _, hpending₁⟩ := TreeState.flush_neat hs₁
          have hbare := hoperands _ _ _ _ _ _ _ hread
          have hvalueFull : received (some value) = true := by
            rw [infixTree] at hvalue
            split at hvalue
            · obtain rfl := Option.some.inj hvalue
              rfl
            · cases hvalue
          rw [hvalueFull] at hneat hfills
          rw [hpending₁] at hfills
          refine ⟨.of_flush hs₁, ?_, hfills⟩
          rw [hneat, ← hneat₁, TreeState.Neat, TreeState.Neat, bare_append, hbare]
          simp only [Bare, true_and, Option.isSome_none, Bool.and_eq_true]
          tauto
        | other =>
          rw [hkind] at h
          exact hrest node s s' h hs'
    · intro owner primary operators op rhs d read h
      by_cases hhidden : child.isHidden = true
      · rw [Γ.operandTrees_hidden hhidden] at h
        rw [horest _ _ _ _ _ _ _ h]
        cases op <;> cases rhs <;> simp [keepsOperands, hhidden]
      · cases op with
        | none =>
          rw [operandTrees, if_neg hhidden] at h
          rw [horest _ _ _ _ _ _ _ h, Option.isSome_none, keepsOperands, if_neg hhidden]
          rfl
        | some op =>
          cases rhs with
          | none =>
            rw [operandTrees, if_neg hhidden] at h
            split at h
            · rw [Option.bind_eq_some_iff] at h
              obtain ⟨v, hv, h⟩ := h
              rw [horest _ _ _ _ _ _ _ h, bare_append, (hcall v hv).1]
              simp only [Option.isSome_some, Option.isSome_none, keepsOperands, if_neg hhidden,
                Bool.and_eq_true]
              tauto
            · cases h
          | some t =>
            rw [operandTrees, if_neg hhidden] at h
            split at h
            · simp only [Option.bind_eq_some_iff] at h
              obtain ⟨inner, hinner, value, _, h⟩ := h
              rw [horest _ _ _ _ _ _ _ h, bare_append, hoperands _ _ _ _ _ _ _ hinner]
              simp only [Option.isSome_some, Option.isSome_none, keepsOperands, if_neg hhidden,
                Bool.and_eq_true, Bare, true_and]
              tauto
            · cases h
    · intro choices recovered v h
      rw [selectedTree] at h
      rw [keepsChoice]
      by_cases hhidden : child.isHidden = true
      · rw [if_pos hhidden] at h ⊢
        exact hsrest choices recovered v h
      · rw [if_neg hhidden] at h ⊢
        by_cases hchoice : child.grammarElement ∈ choices
        · rw [if_pos hchoice] at h ⊢
          cases hkind : Γ.kind child.grammarElement with
          | parserRule =>
            rw [hkind, Option.map_eq_some_iff] at h
            obtain ⟨w, hw, rfl⟩ := h
            exact (hcall w hw).1
          | _ =>
            rw [hkind] at h
            obtain rfl := Option.some.inj h
            simp [Bare]
        · rw [if_neg hchoice] at h ⊢
          exact hsrest choices recovered v h

/-- What a rule node drops. -/
theorem value_keeps {node : CstSubtree G} {t : AstTree G} {d : Forest (AstData G)}
    (h : Γ.value node = some (t, d)) : Bare d ↔ Γ.keeps node = true := by
  refine (Γ.ruleTree_keeps (fun s' hs' hready => ?_) h).1
  obtain ⟨_, hneat, hfills⟩ := (Γ.loops_keep node.children).1 _ _ _ hs' hready
  refine ⟨?_, hfills⟩
  rw [hneat]
  simp [TreeState.Neat, TreeState.initial, Bare, received]

end AstGrammar

/-! ### The nodes of the arena -/

/-- Something has been assigned to the node, or attached below it. -/
def AstArena.received (arena : AstArena G) (node : ℕ) : Bool :=
  arena.nodes[node]?.any fun n => !n.value.assigned.isEmpty || n.firstChild.isSome

/-- The node is `object` or a descendant of it. -/
def AstArena.IsBelow (arena : AstArena G) (object node : ℕ) : Prop :=
  node = object ∨ ∃ below, arena.getAllContent object = some below ∧ node ∈ below

theorem bare_iff_not_received {A : AstArena G} {f : Forest (ℕ × AstData G)}
    (h : Linked.HoldsRoots A.nodes f) :
    Bare (f.map Prod.snd) ↔ ∀ x ∈ Linked.ids f, A.received x = false := by
  induction f with
  | nil => exact ⟨fun _ => List.forall_mem_nil _, fun _ => trivial⟩
  | cons x c r _ ih =>
    obtain ⟨⟨hx, _, _⟩, hr⟩ := h
    have hreceived : A.received x.1 = false ↔ x.2.assigned = [] ∧ c = .nil := by
      rw [AstArena.received, hx, Option.any_some, Bool.or_eq_false_iff, Bool.not_eq_false',
        List.isEmpty_iff, Option.isSome_eq_false_iff, Option.isNone_iff_eq_none,
        Linked.firstId_eq_none]
    have hmap : c.map Prod.snd = .nil ↔ c = .nil := by cases c <;> simp [Forest.map]
    rw [Forest.map, Bare, ih hr, hmap, Linked.ids_cons, List.forall_mem_cons, hreceived]
    constructor
    · rintro ⟨hbare, hrest⟩
      refine ⟨hbare, ?_⟩
      rw [hbare.2]
      exact hrest
    · rintro ⟨hbare, hrest⟩
      exact ⟨hbare, fun y hy => hrest y (List.mem_append_right _ hy)⟩

/-- Nothing is lost when what is replaced is bare. -/
theorem Holding.bare_iff {A A' : AstArena G} {o : ℕ} {t : AstTree G} {d : Forest (AstData G)}
    (h : Holding A A' (some o) (some t) d) :
    Bare d ↔ ∀ x, A.size ≤ x → x < A'.size → A'.received x = true → A'.IsBelow o x := by
  obtain ⟨c, d', hadded, _, rfl⟩ := h.exists_tree
  have hbelow : ∀ x, A'.IsBelow o x ↔ x ∈ Linked.ids (.tree (o, t.data) c) := by
    intro x
    rw [AstArena.IsBelow, hadded.getAllContent, Linked.ids_tree, List.mem_cons]
    simp only [Option.some.injEq, exists_eq_left']
  rw [bare_iff_not_received (Linked.holdsRoots_append.mp hadded.holds).2]
  constructor
  · intro hbare x hlow hhigh hreceived
    have hmem := hadded.mem_ids.mpr ⟨hlow, hhigh⟩
    rw [Linked.ids_append, List.mem_append] at hmem
    rw [hbelow]
    refine hmem.resolve_right fun hx => ?_
    exact absurd ((hbare x hx).symm.trans hreceived) Bool.false_ne_true
  · intro hall x hx
    obtain ⟨hlow, hhigh⟩ := hadded.mem_ids.mp (by
      rw [Linked.ids_append]
      exact List.mem_append_right _ hx)
    have hnodup := hadded.nodup
    rw [Linked.ids_append] at hnodup
    -- the trees of the result and of what is replaced are disjoint
    cases hreceived : A'.received x with
    | false => rfl
    | true =>
      have hin := (hbelow x).mp (hall x hlow hhigh hreceived)
      exact absurd rfl ((List.nodup_append.mp hnodup).2.2 x hin x hx)

namespace AstGrammar

variable [DecidableEq G] (Γ : AstGrammar G)

/-- **The assignments of a rule node are executed once each and in source order,
each on the object that is current at the next nest or infix child or at the end
of the rule; and nothing that an object has received is lost exactly when no
create child and no rule call comes while the current object has received
something.** -/
theorem get_raw_value_executes_and_keeps {node : CstSubtree G} (hbuilds : Γ.builds node = true)
    (arena : AstArena G) :
    ∃ object arena', Γ.get_raw_value node arena = some (object, arena') ∧
      (node.node.isLeaf = false → ∃ s s',
        Γ.childLoop node node.children (.initial arena) = some s ∧ s.finish node = some s' ∧
        s'.currentNode = some object ∧ s'.arena = arena' ∧
        s'.done = Γ.assignments node.children ∧
        ∀ f child below g h, node.children = (f ++ .cons child below g) ++ h →
          Γ.isAssignment child = true → Γ.BoundaryFree g →
          (∀ next ∈ h.roots.head?, Γ.isBoundary next = true) →
          ∃ t o, Γ.childLoop node (f ++ .cons child below g) (.initial arena) = some t ∧
            (t.ensureCurrent node).currentNode = some o ∧
            (⟨o, child.grammarElement, child.id⟩ : Execution G) ∈ s'.executed) ∧
      (Γ.keeps node = true ↔
        ∀ x, arena.size ≤ x → x < arena'.size → arena'.received x = true →
          arena'.IsBelow object x) := by
  obtain ⟨object, arena', t, d, hr, hvalue, hholding⟩ := Γ.get_raw_value_of_builds hbuilds arena
  refine ⟨object, arena', hr, fun hleaf => ?_, ?_⟩
  · rw [get_raw_value, ruleValue, if_neg (by simp [hleaf]), Option.bind_eq_some_iff] at hr
    obtain ⟨s', hs', hobject⟩ := hr
    rw [Option.bind_eq_some_iff] at hs'
    obtain ⟨s, hs, hfinish⟩ := hs'
    rw [Option.map_eq_some_iff] at hobject
    obtain ⟨o, ho, hpair⟩ := hobject
    obtain ⟨rfl, rfl⟩ := Prod.mk.inj hpair
    have hfirst : (BuildState.initial arena).InlineFirst := fun hne => absurd rfl hne
    refine ⟨s, s', hs, hfinish, ho, rfl, ?_, ?_⟩
    · obtain ⟨horder, _⟩ := Γ.childLoop_order hfirst hs
      obtain ⟨executions, hexecuted, hmap, _⟩ :=
        BuildState.applyPendingAssignments_eq_some hfinish
      obtain ⟨hsame, hwaiting, _⟩ := s.ensureCurrent_fields node
      rw [BuildState.done, hexecuted, List.map_append, hmap, hsame, hwaiting]
      exact horder
    · intro f child below g h hchildren hchild hfree hnext
      rw [hchildren] at hs
      exact Γ.executed_on_current hfirst hchild hfree hnext hs hfinish
  · rw [← hholding.bare_iff, Γ.value_keeps hvalue]

end AstGrammar

/-- The kinds of a grammar whose elements are an assignment, a nest and a create
action. -/
def actionKind : ℕ → ElementKind ℕ
  | 0 => .assignment "name" .data
  | 1 => .nest
  | 2 => .create
  | _ => .other

theorem actionKind_ne_infixRule (g primary : ℕ) (operators : List ℕ) :
    actionKind g ≠ .infixRule primary operators := by
  rcases g with _ | _ | _ | g <;> simp [actionKind]

/-- The grammar of these elements. -/
def actionGrammar : AstGrammar ℕ where
  kind := actionKind
  primary_kind g primary operators h := absurd h (actionKind_ne_infixRule g primary operators)
  operator_kind g primary operators h := absurd h (actionKind_ne_infixRule g primary operators)

/-- A rule node over leaves of these elements. -/
def actionNode (elements : List ℕ) : CstSubtree ℕ :=
  ⟨⟨0, 0, elements.length, 9, false, false, false⟩,
    numbered 1 (elements.foldr (fun g f => .cons ⟨0, 0, g, false, false⟩ .nil f) .nil)⟩

/-- Two assignments, then a nest and another assignment. -/
theorem get_raw_value_executes_and_keeps_nest :
    ∃ object arena', actionGrammar.get_raw_value (actionNode [0, 0, 1, 0]) .empty
        = some (object, arena') ∧
      ∀ x < arena'.size, arena'.received x = true → arena'.IsBelow object x := by
  obtain ⟨object, arena', hr, _, hkeeps⟩ := @AstGrammar.get_raw_value_executes_and_keeps ℕ _
    actionGrammar (actionNode [0, 0, 1, 0]) rfl .empty
  exact ⟨object, arena', hr, fun x hx => hkeeps.mp rfl x (Nat.zero_le _) hx⟩

/-- An assignment, a nest and a create action: the object put in place by the nest
is lost, with the object that has received the assignment below it. -/
theorem nest_before_create_lost :
    actionGrammar.builds (actionNode [0, 1, 2]) = true ∧
      ∃ object arena', actionGrammar.get_raw_value (actionNode [0, 1, 2]) .empty
          = some (object, arena') ∧
        ∃ x < arena'.size, arena'.received x = true ∧ ¬ arena'.IsBelow object x := by
  refine ⟨rfl, 2, _, rfl, 0, by decide, rfl, ?_⟩
  rintro (h | ⟨below, hbelow, hmem⟩)
  · cases h
  · obtain rfl := Option.some.inj hbelow
    exact absurd hmem (List.not_mem_nil)

end Pegium
