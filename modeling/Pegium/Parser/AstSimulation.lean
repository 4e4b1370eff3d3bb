/-
Pegium/Parser/AstSimulation.lean

The arena holds the value.

`get_raw_value` and the value of `AstValue.lean` take the same steps.  The state
of the one stands for the state of the other when the nodes added so far hold the
current tree and the replaced objects, and the waiting assignments compute the
values that wait.  Every step of the child loop keeps this (`Stands`), so the
results correspond: the build succeeds exactly when there is a value, from every
arena, and the nodes it adds hold exactly the value.
-/
import Pegium.Parser.AstValue

namespace Pegium

variable {G : Type*}

theorem rel_bind {α β γ δ : Type*} {R : α → β → Prop} {S : γ → δ → Prop} {x : Option α}
    {y : Option β} {f : α → Option γ} {g : β → Option δ} (h : Option.Rel R x y)
    (hf : ∀ a b, R a b → Option.Rel S (f a) (g b)) : Option.Rel S (x.bind f) (y.bind g) := by
  cases h with
  | none => exact .none
  | some hab => exact hf _ _ hab

theorem rel_map {α β γ δ : Type*} {R : α → β → Prop} {S : γ → δ → Prop} {x : Option α}
    {y : Option β} {f : α → γ} {g : β → δ} (h : Option.Rel R x y)
    (hf : ∀ a b, R a b → S (f a) (g b)) : Option.Rel S (x.map f) (y.map g) := by
  cases h with
  | none => exact .none
  | some hab => exact .some (hf _ _ hab)

/-! ### States -/

/-- The nodes added from `arena` on hold the object `object`, which stands for
`current`, and the objects of `dropped`. -/
def Holding (arena arena' : AstArena G) (object : Option ℕ) (current : Option (AstTree G))
    (dropped : Forest (AstData G)) : Prop :=
  ∃ f d, Added arena arena' (f ++ d) ∧ Linked.firstId f = object ∧
    f.map Prod.snd = optionForest current ∧ d.map Prod.snd = dropped

/-- An assigned value is built as it should be, in every arena. -/
def BuildsValue (build : AstArena G → Option (Option ℕ × AstArena G))
    (value : Option (Option (AstTree G) × Forest (AstData G))) : Prop :=
  ∀ arena, Option.Rel (fun r v => Holding arena r.2 r.1 v.1 v.2) (build arena) value

/-- An object is built as it should be, in every arena. -/
def Builds (build : ValueBuilder G) (value : Option (AstTree G × Forest (AstData G))) : Prop :=
  ∀ arena, Option.Rel (fun r v => Holding arena r.2 (some r.1) (some v.1) v.2) (build arena) value

/-- The waiting assignment `e` stands for `t`. -/
structure WaitsFor (e : PendingAssignment G) (t : PendingTree G) : Prop where
  assignment : e.assignment = t.assignment
  nodeId : e.nodeId = t.nodeId
  value : BuildsValue e.value t.value

/-- The state of the loop, started in `arena`, stands for the state of the value. -/
structure Stands (arena : AstArena G) (s : BuildState G) (t : TreeState G) : Prop where
  holding : Holding arena s.arena s.currentNode t.current t.dropped
  pending : List.Forall₂ WaitsFor (s.pendingInline ++ s.pendingOverflow) t.pending
  inline_full : s.pendingOverflow ≠ [] → 8 ≤ s.pendingInline.length

namespace Holding

variable {A A' : AstArena G} {object : Option ℕ} {current : Option (AstTree G)}
variable {dropped : Forest (AstData G)}

theorem start (A : AstArena G) : Holding A A none none .nil :=
  ⟨.nil, .nil, .refl A, rfl, rfl, rfl⟩

theorem eq_none (h : Holding A A' object current dropped) : object = none ↔ current = none := by
  obtain ⟨f, d, _, hfirst, hf, _⟩ := h
  cases f with
  | nil =>
    cases current with
    | none => exact ⟨fun _ => rfl, fun _ => hfirst.symm⟩
    | some t => cases hf
  | cons x c r =>
    cases current with
    | none => cases hf
    | some t =>
      subst hfirst
      refine ⟨fun h => ?_, fun h => ?_⟩ <;> cases h

/-- An object that stands for a tree is the root of the nodes that hold it. -/
theorem exists_tree {o : ℕ} {t : AstTree G} (h : Holding A A' (some o) (some t) dropped) :
    ∃ c d, Added A A' (.tree (o, t.data) c ++ d) ∧ c.map Prod.snd = t.content ∧
      d.map Prod.snd = dropped := by
  obtain ⟨f, d, hadded, hfirst, hf, hd⟩ := h
  cases f with
  | nil => cases hf
  | cons x c r =>
    obtain ⟨x, v⟩ := x
    rw [optionForest, AstTree.forest, Forest.tree, Forest.map] at hf
    injection hf with hv hc hr
    obtain rfl : r = .nil := by
      cases r with
      | nil => rfl
      | cons y c' r' => cases hr
    obtain rfl := Option.some.inj hfirst
    obtain rfl : v = t.data := hv
    exact ⟨c, d, hadded, hc, hd⟩

theorem of_tree {o : ℕ} {t : AstTree G} {c d : Forest (ℕ × AstData G)}
    (h : Added A A' (.tree (o, t.data) c ++ d)) (hc : c.map Prod.snd = t.content)
    (hd : d.map Prod.snd = dropped) : Holding A A' (some o) (some t) dropped := by
  refine ⟨.tree (o, t.data) c, d, h, rfl, ?_, hd⟩
  show Forest.cons t.data (c.map Prod.snd) .nil = _
  rw [hc]
  rfl

/-- Another object becomes the current one. -/
theorem replace {A'' : AstArena G} {o : ℕ} {t : AstTree G} {dropped' : Forest (AstData G)}
    (h : Holding A A' object current dropped)
    (h' : Holding A' A'' (some o) (some t) dropped') :
    Holding A A'' (some o) (some t) (dropped' ++ (optionForest current ++ dropped)) := by
  obtain ⟨f, d, hadded, _, hf, hd⟩ := h
  obtain ⟨g, d', hadded', hfirst, hg, hd'⟩ := h'
  refine ⟨g, d' ++ (f ++ d), ?_, hfirst, hg, ?_⟩
  · rw [← Forest.append_assoc]
    exact (hadded.trans hadded').swap
  · rw [Forest.map_append, Forest.map_append, hf, hd, hd']

/-- A value is attached to the current object and noted there. -/
theorem assign {o : ℕ} {t : AstTree G} {value : Option ℕ × AstArena G}
    {v : Option (AstTree G) × Forest (AstData G)} (entry : G × ℕ)
    (h : Holding A A' (some o) (some t) dropped) (hv : Holding A' value.2 value.1 v.1 v.2) :
    ∃ A₁, BuildState.attachValue o value = some A₁ ∧
      Holding A (A₁.record o entry) (some o)
        (some ((t.attach (optionForest v.1)).record entry)) (v.2 ++ dropped) := by
  obtain ⟨c, d, hadded, hc, hd⟩ := h.exists_tree
  obtain ⟨object', built⟩ := value
  obtain ⟨child, dropped'⟩ := v
  cases child with
  | none =>
    obtain rfl : object' = none := hv.eq_none.mpr rfl
    obtain ⟨f, d', hadded', hfirst, _, hd'⟩ := hv
    obtain rfl := Linked.firstId_eq_none.mp hfirst
    have hall : Added A built (.tree (o, t.data) c ++ (d' ++ d)) := by
      refine (hadded.trans hadded').perm ?_ ?_
      · have hboth := (hadded.trans hadded').holds
        simp only [Linked.holdsRoots_append] at hboth ⊢
        tauto
      · simp only [Linked.ids_append, List.perm_iff_count, List.count_append, Linked.ids_nil,
          List.count_nil]
        omega
    refine ⟨built, rfl, of_tree (c := c) (d := d' ++ d) (Added.record entry hall) ?_ ?_⟩
    · rw [hc]
      exact (Forest.append_nil _).symm
    · rw [Forest.map_append, hd, hd']
  | some t' =>
    cases hobj : object' with
    | none =>
      subst hobj
      exact absurd (hv.eq_none.mp rfl) (by simp)
    | some x =>
      subst hobj
      obtain ⟨c', d', hadded', hc', hd'⟩ := hv.exists_tree
      have hall : Added A built (.tree (o, t.data) c ++ (.tree (x, t'.data) c' ++ (d' ++ d))) := by
        refine (hadded.trans hadded').perm ?_ ?_
        · have hboth := (hadded.trans hadded').holds
          simp only [Linked.holdsRoots_append] at hboth ⊢
          tauto
        · simp only [Linked.ids_append, List.perm_iff_count, List.count_append]
          omega
      obtain ⟨A₁, hattach, hadded₁⟩ := hall.setContainer
      refine ⟨A₁, hattach, of_tree (c := c ++ .tree (x, t'.data) c') (d := d' ++ d)
        (Added.record entry hadded₁) ?_ ?_⟩
      · rw [Forest.map_append, hc]
        show _ ++ Forest.cons t'.data (c'.map Prod.snd) .nil = _
        rw [hc']
        rfl
      · rw [Forest.map_append, hd, hd']

end Holding

/-! ### Steps of the loop -/

section Steps

variable {A : AstArena G} {s : BuildState G} {t : TreeState G}

theorem Stands.initial (A : AstArena G) : Stands A (.initial A) (.initial : TreeState G) where
  holding := .start A
  pending := .nil
  inline_full h := absurd rfl h

theorem Stands.wait {e : PendingAssignment G} {v : PendingTree G} (h : Stands A s t)
    (he : WaitsFor e v) : Stands A (s.addPendingAssignment e) (t.wait v) := by
  have hpending : (s.addPendingAssignment e).pendingInline
      ++ (s.addPendingAssignment e).pendingOverflow
      = (s.pendingInline ++ s.pendingOverflow) ++ [e] := by
    rw [BuildState.addPendingAssignment]
    split
    next hroom =>
      -- there is room, so nothing has overflowed yet
      have hnone : s.pendingOverflow = [] := by
        by_contra hne
        exact absurd (h.inline_full hne) (Nat.not_le.mpr hroom)
      simp [hnone]
    next => simp
  refine ⟨?_, ?_, ?_⟩
  · rw [BuildState.addPendingAssignment]
    split <;> exact h.holding
  · rw [hpending]
    exact List.rel_append h.pending (.cons he .nil)
  · rw [BuildState.addPendingAssignment]
    split
    next hroom =>
      intro hne
      exact absurd (h.inline_full hne) (Nat.not_le.mpr hroom)
    next hfull => exact fun _ => Nat.le_of_not_lt hfull

theorem Stands.createCurrent (h : Stands A s t) (node : CstSubtree G) :
    Stands A (s.createCurrent node) (t.replace (.new node) .nil) := by
  refine ⟨?_, h.pending, h.inline_full⟩
  exact h.holding.replace (.of_tree (c := .nil) (d := .nil) (t := .new node)
    (Added.create s.arena node) rfl rfl)

theorem Stands.ensureCurrent (h : Stands A s t) (node : CstSubtree G) :
    Stands A (s.ensureCurrent node) (t.ensureCurrent node) := by
  rw [BuildState.ensureCurrent, TreeState.ensureCurrent]
  have hnone := h.holding.eq_none
  cases hs : s.currentNode with
  | none =>
    rw [hnone.mp hs]
    exact h.createCurrent node
  | some o =>
    cases ht : t.current with
    | none => exact absurd (hnone.mpr ht) (by rw [hs]; simp)
    | some _ => exact h

/-- Executing assignments on the current object. -/
theorem executeAll_stands {es : List (PendingAssignment G)} {vs : List (PendingTree G)}
    (hpending : List.Forall₂ WaitsFor es vs) {o : ℕ} {tree : AstTree G}
    {dropped : Forest (AstData G)} (hs : Holding A s.arena (some o) (some tree) dropped) :
    Option.Rel (fun s' done => Holding A s'.arena (some o) (some done.1) done.2 ∧
        s'.currentNode = s.currentNode)
      (BuildState.executeAll o es s) (TreeState.executeAll vs tree dropped) := by
  induction hpending generalizing s tree dropped with
  | nil => exact .some ⟨hs, rfl⟩
  | @cons e v es vs he _ ih =>
    rw [BuildState.executeAll, TreeState.executeAll, BuildState.execute, Option.bind_assoc]
    refine rel_bind (he.value s.arena) fun value tv hv => ?_
    obtain ⟨A₁, hattach, hholding⟩ := hs.assign (v.assignment, v.nodeId) hv
    rw [hattach, he.assignment, he.nodeId, Option.map_some, Option.bind_some]
    let s' : BuildState G :=
      { s with
        arena := A₁.record o (v.assignment, v.nodeId)
        executed := s.executed ++ [⟨o, v.assignment, v.nodeId⟩] }
    exact @ih s' _ _ hholding

/-- The state with nothing waiting. -/
def BuildState.cleared (s : BuildState G) : BuildState G :=
  { s with pendingInline := [], pendingOverflow := [] }

theorem Stands.apply (h : Stands A s t) :
    Option.Rel (fun s t => Stands A s.cleared t) s.applyPendingAssignments t.flush := by
  rw [BuildState.applyPendingAssignments, TreeState.flush]
  have hpending := h.pending
  cases he : s.pendingInline ++ s.pendingOverflow with
  | nil =>
    rw [he, List.forall₂_nil_left_iff] at hpending
    rw [hpending]
    refine .some ⟨h.holding, ?_, fun hne => absurd rfl hne⟩
    show List.Forall₂ WaitsFor [] t.pending
    rw [hpending]
    exact .nil
  | cons e es =>
    rw [he] at hpending
    cases hv : t.pending with
    | nil =>
      rw [hv] at hpending
      cases hpending
    | cons v vs =>
      rw [hv] at hpending
      have hnone := h.holding.eq_none
      cases ho : s.currentNode with
      | none =>
        rw [hnone.mp ho]
        exact .none
      | some o =>
        cases hc : t.current with
        | none => exact absurd (hnone.mpr hc) (by rw [ho]; simp)
        | some tree =>
          have hholding := h.holding
          rw [ho, hc] at hholding
          have hall := executeAll_stands hpending hholding
          show Option.Rel _ (BuildState.executeAll o (e :: es) s)
            ((TreeState.executeAll (v :: vs) tree t.dropped).map _)
          rw [← Option.map_id' (x := BuildState.executeAll o (e :: es) s)]
          refine rel_map hall fun s' done hdone => ?_
          refine ⟨?_, .nil, fun hne => absurd rfl hne⟩
          show Holding A s'.arena s'.currentNode _ _
          rw [hdone.2, ho]
          exact hdone.1

theorem Stands.flush (h : Stands A s t) :
    Option.Rel (Stands A) s.applyAndClearPendingAssignments t.flush := by
  rw [BuildState.applyAndClearPendingAssignments, ← Option.map_id' (x := t.flush)]
  exact rel_map h.apply fun _ _ h => h

theorem Stands.nest (h : Stands A s t) (node : CstSubtree G) :
    Option.Rel (Stands A) (s.nestCurrent node) (t.nest node) := by
  rw [BuildState.nestCurrent, TreeState.nest]
  have hholding := h.holding
  have hnone := hholding.eq_none
  cases ho : s.currentNode with
  | none =>
    rw [hnone.mp ho]
    exact .none
  | some o =>
    cases ht : t.current with
    | none => exact absurd (hnone.mpr ht) (by rw [ho]; simp)
    | some tree =>
      rw [ho, ht] at hholding
      obtain ⟨c, d, hadded, hc, hd⟩ := hholding.exists_tree
      -- the new object comes first, the current one is attached to it
      have hnew := (hadded.trans (Added.create s.arena node)).swap
      obtain ⟨A₁, hset, hadded₁⟩ := hnew.setContainer
      have hcontainer : (s.createCurrent node).arena.setContainer o s.arena.size = some A₁ := hset
      rw [Option.bind_some, hcontainer]
      refine .some ⟨?_, h.pending, h.inline_full⟩
      refine Holding.of_tree (t := (AstTree.new node).attach tree.forest) hadded₁ ?_ hd
      show Forest.cons tree.data (c.map Prod.snd) .nil = _
      rw [hc]
      rfl

end Steps

/-! ### Objects -/

/-- The object of an infix node. -/
theorem createInfixNode_holding [DecidableEq G] {A A₁ A₂ : AstArena G} {l r : ℕ}
    {left right : AstTree G} {d d' : Forest (AstData G)} (cstNode : CstSubtree G)
    (operators : List G) (op : CstItem G) (hl : Holding A A₁ (some l) (some left) d)
    (hr : Holding A₁ A₂ (some r) (some right) d') :
    Option.Rel (fun v tree => Holding A v.2 (some v.1) (some tree) (d' ++ d))
      (createInfixNode cstNode operators l op r A₂)
      (infixTree cstNode operators left op right) := by
  obtain ⟨cl, f, haddedl, hcl, hf⟩ := hl.exists_tree
  obtain ⟨cr, f', haddedr, hcr, hf'⟩ := hr.exists_tree
  have hcreate := (haddedl.trans haddedr).trans (Added.create A₂ cstNode)
  have hall : Added A (A₂.create cstNode).2 (.tree ((A₂.create cstNode).1, ⟨cstNode, []⟩) .nil
      ++ (.tree (l, left.data) cl ++ (.tree (r, right.data) cr ++ (f' ++ f)))) := by
    refine hcreate.perm ?_ ?_
    · have hboth := hcreate.holds
      simp only [Linked.holdsRoots_append] at hboth ⊢
      tauto
    · simp only [Linked.ids_append, List.perm_iff_count, List.count_append]
      omega
  obtain ⟨A₃, hleft, hadded₃⟩ := hall.setContainer
  rw [createInfixNode, infixTree, hleft, Option.bind_some]
  by_cases hop : op.grammarElement ∈ operators
  · rw [if_pos hop, if_pos hop]
    obtain ⟨A₄, hright, hadded₄⟩ := hadded₃.setContainer
    rw [hright]
    refine .some (Holding.of_tree (t := (AstTree.new cstNode).attach _) hadded₄ ?_ ?_)
    · rw [Forest.map_append]
      show Forest.cons left.data (cl.map Prod.snd) .nil ++
        Forest.cons right.data (cr.map Prod.snd) .nil = _
      rw [hcl, hcr]
      rfl
    · rw [Forest.map_append, hf, hf']
  · rw [if_neg hop, if_neg hop]
    exact .none

/-- The object of a rule, when its child loop is as it should be. -/
theorem ruleValue_builds {node : CstSubtree G} {loop : BuildState G → Option (BuildState G)}
    {treeLoop : TreeState G → Option (TreeState G)}
    (hloop : ∀ A, Option.Rel (Stands A) (loop (.initial A)) (treeLoop .initial)) :
    Builds (ruleValue node loop) (ruleTree node treeLoop) := by
  intro A
  rw [ruleValue, ruleTree]
  by_cases hleaf : node.node.isLeaf = true
  · rw [if_pos hleaf, if_pos hleaf]
    exact .some (.of_tree (c := .nil) (d := .nil) (t := .new node) (Added.create A node) rfl rfl)
  · rw [if_neg hleaf, if_neg hleaf]
    have hfinish := rel_bind (hloop A) fun s t h => (h.ensureCurrent node).apply
    refine rel_bind hfinish fun s t h => ?_
    have hholding : Holding A s.arena s.currentNode t.current t.dropped := h.holding
    have hnone := hholding.eq_none
    cases ho : s.currentNode with
    | none =>
      rw [hnone.mp ho]
      exact .none
    | some o =>
      cases ht : t.current with
      | none => exact absurd (hnone.mpr ht) (by rw [ho]; simp)
      | some tree =>
        rw [ho, ht] at hholding
        exact .some hholding

namespace AstGrammar

variable [DecidableEq G] (Γ : AstGrammar G)

theorem operandLoop_hidden {owner primary : G} {operators : List G} {child : CstItem G}
    (hhidden : child.isHidden = true) (below rest : Forest (CstItem G)) (op : Option (CstItem G))
    (rhs : Option ℕ) (A : AstArena G) :
    Γ.operandLoop owner primary operators (.cons child below rest) op rhs A
      = Γ.operandLoop owner primary operators rest op rhs A := by
  cases op with
  | none => rw [operandLoop, if_pos hhidden]
  | some op => cases rhs <;> rw [operandLoop, if_pos hhidden]

theorem operandTrees_hidden {owner primary : G} {operators : List G} {child : CstItem G}
    (hhidden : child.isHidden = true) (below rest : Forest (CstItem G)) (op : Option (CstItem G))
    (rhs : Option (AstTree G)) (d : Forest (AstData G)) :
    Γ.operandTrees owner primary operators (.cons child below rest) op rhs d
      = Γ.operandTrees owner primary operators rest op rhs d := by
  cases op with
  | none => rw [operandTrees, if_pos hhidden]
  | some op => cases rhs <;> rw [operandTrees, if_pos hhidden]

/-- **The loops correspond**, by induction on the CST: an assigned value, a rule
call and an operand are built below the child they belong to. -/
theorem loops_simulate (f : Forest (CstItem G)) :
    (∀ node A s t, Stands A s t →
      Option.Rel (Stands A) (Γ.childLoop node f s) (Γ.treeLoop node f t)) ∧
    (∀ owner primary operators op A A₁ rhs right d, Holding A A₁ rhs right d →
      Option.Rel (fun read v => read.1 = v.1 ∧
          Holding A read.2.2 (some read.2.1) (some v.2.1) v.2.2)
        (Γ.operandLoop owner primary operators f op rhs A₁)
        (Γ.operandTrees owner primary operators f op right d)) ∧
    ∀ choices recovered, BuildsValue (Γ.selectedValue choices recovered f)
      (Γ.selectedTree choices recovered f) := by
  induction f with
  | nil =>
    refine ⟨fun node A s t h => .some h, ?_, ?_⟩
    · intro owner primary operators op A A₁ rhs right d h
      have hnone := h.eq_none
      rw [operandLoop, operandTrees]
      cases op with
      | none => exact .none
      | some op =>
        cases rhs with
        | none =>
          rw [hnone.mp rfl]
          exact .none
        | some r =>
          cases right with
          | none => exact absurd (hnone.mpr rfl) (by simp)
          | some t => exact .some ⟨rfl, h⟩
    · intro choices recovered A
      rw [selectedValue, selectedTree]
      split
      · exact .some (.start A)
      · exact .none
  | cons child below rest ihb ihr =>
    obtain ⟨hbelow, hoperands, hselected⟩ := ihb
    obtain ⟨hrest, horest, hsrest⟩ := ihr
    -- the rule call of this child
    have hcall : Builds (ruleValue ⟨child, below⟩ (Γ.childLoop ⟨child, below⟩ below))
        (ruleTree ⟨child, below⟩ (Γ.treeLoop ⟨child, below⟩ below)) :=
      ruleValue_builds fun A => hbelow ⟨child, below⟩ A _ _ (.initial A)
    have hvalue : BuildsValue
        (fun arena => (ruleValue ⟨child, below⟩ (Γ.childLoop ⟨child, below⟩ below) arena).map
          fun value => (some value.1, value.2))
        ((ruleTree ⟨child, below⟩ (Γ.treeLoop ⟨child, below⟩ below)).map
          fun value => (some value.1, value.2)) :=
      fun A => rel_map (hcall A) fun _ _ h => h
    refine ⟨?_, ?_, ?_⟩
    · intro node A s t h
      rw [childLoop, treeLoop]
      by_cases hhidden : child.isHidden = true
      · rw [if_pos hhidden, if_pos hhidden]
        exact hrest node A s t h
      · rw [if_neg hhidden, if_neg hhidden]
        cases Γ.kind child.grammarElement with
        | assignment feature element =>
          apply hrest
          refine h.wait ⟨rfl, rfl, ?_⟩
          cases element with
          | parserRule => exact hvalue
          | orderedChoice choices => exact hselected choices _
          | data => exact fun A => .some (.start A)
        | create => exact hrest node A _ _ (h.createCurrent node)
        | nest =>
          refine rel_bind (h.ensureCurrent node).flush fun s t h => ?_
          exact rel_bind (h.nest node) fun s t h => hrest node A s t h
        | parserRule =>
          refine rel_bind (hcall s.arena) fun r v hv => ?_
          exact hrest node A _ _ ⟨h.holding.replace hv, h.pending, h.inline_full⟩
        | infixRule primary operators =>
          refine rel_bind h.flush fun s t h => ?_
          have hholding := h.holding
          have hnone := hholding.eq_none
          cases ho : s.currentNode with
          | none =>
            rw [hnone.mp ho]
            exact .none
          | some o =>
            cases ht : t.current with
            | none => exact absurd (hnone.mpr ht) (by rw [ho]; simp)
            | some tree =>
              rw [ho, ht] at hholding
              rw [Option.bind_some, Option.bind_some]
              refine rel_bind (hoperands _ primary operators none _ _ none none .nil
                (.start s.arena)) fun read v hread => ?_
              rw [hread.1]
              refine rel_bind (createInfixNode_holding ⟨child, below⟩ operators v.1 hholding
                hread.2) fun r value hr => ?_
              exact hrest node A _ _ ⟨hr, h.pending, h.inline_full⟩
        | other => exact hrest node A s t h
    · intro owner primary operators op A A₁ rhs right d h
      have hnone := h.eq_none
      by_cases hhidden : child.isHidden = true
      · rw [Γ.operandLoop_hidden hhidden, Γ.operandTrees_hidden hhidden]
        exact horest owner primary operators op A A₁ rhs right d h
      · cases op with
        | none =>
          rw [operandLoop, operandTrees, if_neg hhidden, if_neg hhidden]
          exact horest owner primary operators _ A A₁ rhs right d h
        | some op =>
          cases rhs with
          | none =>
            obtain rfl := hnone.mp rfl
            rw [operandLoop, operandTrees, if_neg hhidden, if_neg hhidden]
            by_cases hprimary : child.grammarElement = primary
            · rw [if_pos hprimary, if_pos hprimary]
              refine rel_bind (hcall A₁) fun r v hv => ?_
              exact horest owner primary operators _ A _ _ _ _ (h.replace hv)
            · rw [if_neg hprimary, if_neg hprimary]
              exact .none
          | some l =>
            cases right with
            | none => exact absurd (hnone.mpr rfl) (by simp)
            | some tree =>
              rw [operandLoop, operandTrees, if_neg hhidden, if_neg hhidden]
              by_cases howner : child.grammarElement = owner
              · rw [if_pos howner, if_pos howner]
                refine rel_bind (hoperands owner primary operators none _ _ none none .nil
                  (.start A₁)) fun read v hread => ?_
                rw [hread.1]
                refine rel_bind (createInfixNode_holding ⟨child, below⟩ operators v.1 h
                  hread.2) fun r value hr => ?_
                exact horest owner primary operators _ A _ _ _ _ hr
              · rw [if_neg howner, if_neg howner]
                exact .none
    · intro choices recovered A
      rw [selectedValue, selectedTree]
      by_cases hhidden : child.isHidden = true
      · rw [if_pos hhidden, if_pos hhidden]
        exact hsrest choices recovered A
      · rw [if_neg hhidden, if_neg hhidden]
        by_cases hchoice : child.grammarElement ∈ choices
        · rw [if_pos hchoice, if_pos hchoice]
          cases Γ.kind child.grammarElement with
          | parserRule => exact hvalue A
          | _ => exact .some (.start A)
        · rw [if_neg hchoice, if_neg hchoice]
          exact hsrest choices recovered A

/-- **The arena holds the value**: from every arena `get_raw_value` succeeds when
the rule node has a value, and the nodes it adds are the tree of the value and the
objects replaced on the way. -/
theorem get_raw_value_simulates (node : CstSubtree G) :
    Builds (Γ.get_raw_value node) (Γ.value node) :=
  ruleValue_builds fun A => (Γ.loops_simulate node.children).1 node A _ _ (.initial A)

end AstGrammar

end Pegium
