/-
Pegium/References/DefaultNameProvider.lean

The CST nodes of a feature, and the name node of an object.

The lookups read an object's CST node: the children that assign the feature.  The
value builder records on each object the assignments it executes on it.  Several
objects can be made for one rule node, and an object that comes from below keeps
its own CST node, so the two need not agree.

`find_nodes_for_feature_iff` says when they do, for all objects of a rule node:
where a rule node has assignment children, exactly one object is made for it and
all of them are executed on that one.
-/
import Mathlib.Data.List.Sublists
import Pegium.Parser.Materialisation
import Pegium.Parser.RuleObjects
import Pegium.SyntaxTree.AstUtils

namespace Pegium

variable {G : Type}

namespace AstGrammar

variable (Γ : AstGrammar G)

/-- `child_assigns_feature`. -/
def child_assigns_feature (child : CstItem G) (feature : String) : Bool :=
  !child.isHidden &&
    match Γ.kind child.grammarElement with
    | .assignment name _ => decide (name = feature)
    | _ => false

/-- `find_nodes_for_feature`, which collects among the direct children. -/
def find_nodes_for_feature (node : CstSubtree G) (feature : String) : List (CstItem G) :=
  node.children.roots.filter fun child => Γ.child_assigns_feature child feature

/-- The loop of `find_node_for_feature`. -/
def findFrom (feature : String) (index : ℕ) : List (CstItem G) → ℕ → Option (CstItem G)
  | [], _ => none
  | child :: rest, seen =>
    if Γ.child_assigns_feature child feature then
      if seen = index then some child else findFrom feature index rest (seen + 1)
    else findFrom feature index rest seen

/-- `find_node_for_feature`. -/
def find_node_for_feature (node : CstSubtree G) (feature : String) (index : ℕ) :
    Option (CstItem G) :=
  Γ.findFrom feature index node.children.roots 0

/-- `getNameNode` of an object. -/
def getNameNode (v : AstData G) : Option (CstItem G) := Γ.find_node_for_feature v.cstNode "name" 0

theorem findFrom_eq {feature : String} {index seen : ℕ} (h : seen ≤ index)
    (children : List (CstItem G)) :
    Γ.findFrom feature index children seen
      = (children.filter fun child => Γ.child_assigns_feature child feature)[index - seen]? := by
  induction children generalizing seen with
  | nil => rfl
  | cons child rest ih =>
    rw [findFrom, List.filter_cons]
    by_cases hchild : Γ.child_assigns_feature child feature = true
    · rw [if_pos hchild, if_pos hchild]
      by_cases hseen : seen = index
      · simp [hseen]
      · have hsub : index - seen = index - (seen + 1) + 1 := by omega
        rw [if_neg hseen, ih (by omega), hsub, List.getElem?_cons_succ]
    · rw [if_neg hchild, if_neg hchild, ih h]

/-- The indexed lookup picks from the collected nodes. -/
theorem find_node_for_feature_eq (node : CstSubtree G) (feature : String) (index : ℕ) :
    Γ.find_node_for_feature node feature index
      = (Γ.find_nodes_for_feature node feature)[index]? :=
  Γ.findFrom_eq (Nat.zero_le index) _

/-! ### The assignments executed on an object -/

/-- The feature an element assigns. -/
def featureOf (element : G) : Option String :=
  match Γ.kind element with
  | .assignment feature _ => some feature
  | _ => none

/-- The assignments to a feature among some assignments. -/
def toFeature (feature : String) (entries : List (G × ℕ)) : List (G × ℕ) :=
  entries.filter fun e => decide (Γ.featureOf e.1 = some feature)

/-- The lookups agree with what was executed on the object: the nodes of a feature
are those of its assignments, in this order, and the name node is that of the last
assignment to the name. -/
structure Agrees (v : AstData G) : Prop where
  nodes : ∀ feature, (Γ.find_nodes_for_feature v.cstNode feature).map
    (fun child => (child.grammarElement, child.id)) = Γ.toFeature feature v.assigned
  name : (Γ.getNameNode v).map (fun child => (child.grammarElement, child.id))
    = (Γ.toFeature "name" v.assigned).getLast?

/-- The lookups see the assignment children. -/
theorem find_nodes_for_feature_eq (node : CstSubtree G) (feature : String) :
    (Γ.find_nodes_for_feature node feature).map (fun child => (child.grammarElement, child.id))
      = Γ.toFeature feature (Γ.assignments node.children) := by
  rw [find_nodes_for_feature, toFeature, assignments, List.filter_map, List.filter_filter]
  congr 1
  refine List.filter_congr fun child _ => ?_
  rw [child_assigns_feature, isAssignment, Function.comp_apply, featureOf]
  cases hk : Γ.kind child.grammarElement <;> simp [Bool.and_comm]

theorem getNameNode_eq (v : AstData G) :
    (Γ.getNameNode v).map (fun child => (child.grammarElement, child.id))
      = (Γ.toFeature "name" (Γ.assignments v.cstNode.children)).head? := by
  rw [getNameNode, find_node_for_feature_eq, ← find_nodes_for_feature_eq, List.head?_map,
    List.head?_eq_getElem?]

variable {Γ}

theorem exists_feature_of_mem_assignments {f : Forest (CstItem G)} {e : G × ℕ}
    (h : e ∈ Γ.assignments f) : ∃ feature, Γ.featureOf e.1 = some feature := by
  rw [assignments, List.mem_map] at h
  obtain ⟨child, hchild, rfl⟩ := h
  have hassigns := (List.mem_filter.mp hchild).2
  rw [isAssignment, Bool.and_eq_true] at hassigns
  rw [featureOf]
  cases hk : Γ.kind child.grammarElement with
  | assignment feature element => exact ⟨feature, rfl⟩
  | _ => simp [hk] at hassigns

theorem id_mem_roots_of_mem_assignments {f : Forest (CstItem G)} {e : G × ℕ}
    (h : e ∈ Γ.assignments f) : e.2 ∈ f.roots.map CstItem.id := by
  rw [assignments, List.mem_map] at h
  obtain ⟨child, hchild, rfl⟩ := h
  exact List.mem_map_of_mem (List.mem_filter.mp hchild).1

theorem nodup_assignments {f : Forest (CstItem G)} (h : (f.roots.map CstItem.id).Nodup) :
    (Γ.assignments f).Nodup := by
  have hnodup : ((Γ.assignments f).map Prod.snd).Nodup := by
    rw [assignments, List.map_map]
    exact h.sublist ((List.filter_sublist).map _)
  exact hnodup.of_map

/-- Every child that assigns something has been executed on an object that agrees. -/
theorem Agrees.subset {v : AstData G} (h : Γ.Agrees v) :
    Γ.assignments v.cstNode.children ⊆ v.assigned := by
  intro e he
  obtain ⟨feature, hfeature⟩ := exists_feature_of_mem_assignments he
  have hmem : e ∈ Γ.toFeature feature (Γ.assignments v.cstNode.children) :=
    List.mem_filter.mpr ⟨he, by simp [hfeature]⟩
  rw [← find_nodes_for_feature_eq, h.nodes] at hmem
  exact (List.mem_filter.mp hmem).1

/-- Only its own children have been executed on an object that agrees. -/
theorem Agrees.mem_assignments {v : AstData G} (h : Γ.Agrees v) {f : Forest (CstItem G)}
    {e : G × ℕ} (he : e ∈ Γ.assignments f) (hassigned : e ∈ v.assigned) :
    e ∈ Γ.assignments v.cstNode.children := by
  obtain ⟨feature, hfeature⟩ := exists_feature_of_mem_assignments he
  have hmem : e ∈ Γ.toFeature feature v.assigned :=
    List.mem_filter.mpr ⟨hassigned, by simp [hfeature]⟩
  rw [← h.nodes, find_nodes_for_feature_eq] at hmem
  exact (List.mem_filter.mp hmem).1

/-- An object that has got the assignment children of its node agrees when at most
one of them is to the name. -/
theorem agrees_iff {v : AstData G} (hnodup : (v.cstNode.children.roots.map CstItem.id).Nodup)
    (h : v.assigned = Γ.assignments v.cstNode.children) :
    Γ.Agrees v ↔ (Γ.toFeature "name" v.assigned).length ≤ 1 := by
  have hnames : (Γ.toFeature "name" v.assigned).Nodup :=
    (h ▸ nodup_assignments hnodup).sublist List.filter_sublist
  have hname := Γ.getNameNode_eq v
  rw [← h] at hname
  constructor
  · intro hagrees
    have hends := hname.symm.trans hagrees.name
    -- the first and the last one are the same
    cases hlist : Γ.toFeature "name" v.assigned with
    | nil => simp
    | cons e es =>
      rw [hlist] at hends hnames
      cases es with
      | nil => simp
      | cons e' es' =>
        rw [List.head?_cons, List.getLast?_cons_cons] at hends
        have hmem := List.mem_of_getLast? hends.symm
        exact absurd hmem (List.nodup_cons.mp hnames).1
  · intro hlength
    refine ⟨fun feature => ?_, ?_⟩
    · rw [find_nodes_for_feature_eq, h]
    · rw [hname]
      cases hlist : Γ.toFeature "name" v.assigned with
      | nil => rfl
      | cons e es =>
        rw [hlist, List.length_cons] at hlength
        obtain rfl : es = [] := List.eq_nil_of_length_eq_zero (by omega)
        rfl

end AstGrammar

/-! ### The objects of one rule node -/

/-- The nodes among the children of an object's CST node have these ids. -/
def BuiltWithin (ids : List ℕ) (v : AstData G) : Prop :=
  ∀ child ∈ v.cstNode.children.roots, child.id ∈ ids

theorem BuiltWithin.mono {ids ids' : List ℕ} {v : AstData G} (h : BuiltWithin ids v)
    (hsub : ids ⊆ ids') : BuiltWithin ids' v := fun child hchild => hsub (h child hchild)

section HeldObject

variable {held : List (HeldObject G)} {entries : List (G × ℕ)}

/-- When only own objects are given something, and there is none, nothing is given. -/
theorem given_eq_nil (hcount : held.countP HeldObject.own = 0)
    (hgiven : ∀ h ∈ held, h.own = false → h.given = []) : held.flatMap HeldObject.given = [] := by
  rw [List.flatMap_eq_nil_iff]
  intro h hh
  apply hgiven h hh
  rw [← Bool.not_eq_true]
  exact List.countP_eq_zero.mp hcount h hh

/-- When only own objects are given something, and there is one, it is given all. -/
theorem given_of_countP_eq_one (hcount : held.countP HeldObject.own = 1)
    (hgiven : ∀ h ∈ held, h.own = false → h.given = []) :
    ∀ h ∈ held, h.own = true → h.given = held.flatMap HeldObject.given := by
  induction held with
  | nil => exact List.forall_mem_nil _
  | cons x xs ih =>
    obtain ⟨hx, hxs⟩ := List.forall_mem_cons.mp hgiven
    rw [List.countP_cons] at hcount
    rw [List.flatMap_cons]
    cases hown : x.own with
    | true =>
      rw [hown, if_pos rfl, Nat.add_eq_right] at hcount
      rw [given_eq_nil hcount hxs, List.append_nil]
      intro h hh htrue
      rcases List.mem_cons.mp hh with rfl | hh
      · rfl
      · exact absurd htrue (List.countP_eq_zero.mp hcount h hh)
    | false =>
      rw [hown, if_neg Bool.false_ne_true, Nat.add_zero] at hcount
      rw [hx hown, List.nil_append]
      intro h hh htrue
      rcases List.mem_cons.mp hh with rfl | hh
      · exact absurd (hown.symm.trans htrue) Bool.false_ne_true
      · exact ih hcount hxs h hh htrue

theorem countP_mul_le {n : ℕ} (hall : ∀ h ∈ held, h.own = true → n ≤ h.given.length) :
    held.countP HeldObject.own * n ≤ (held.flatMap HeldObject.given).length := by
  induction held with
  | nil => simp
  | cons x xs ih =>
    obtain ⟨hx, hxs⟩ := List.forall_mem_cons.mp hall
    have hrest := ih hxs
    rw [List.countP_cons, List.flatMap_cons, List.length_append]
    cases hown : x.own with
    | true =>
      rw [if_pos rfl, Nat.add_mul, Nat.one_mul]
      have hgiven := hx hown
      omega
    | false =>
      rw [if_neg Bool.false_ne_true, Nat.add_zero]
      omega

/-- When each own object is given all of it, and there is something to give, there
is only one. -/
theorem countP_le_one (hne : held.flatMap HeldObject.given ≠ [])
    (hall : ∀ h ∈ held, h.own = true → (held.flatMap HeldObject.given).length ≤ h.given.length) :
    held.countP HeldObject.own ≤ 1 := by
  have hpos : 0 < (held.flatMap HeldObject.given).length := List.length_pos_iff.mpr hne
  by_contra hmany
  have htwo := Nat.mul_le_mul_right (held.flatMap HeldObject.given).length
    (show 2 ≤ held.countP HeldObject.own by omega)
  have hle := countP_mul_le hall
  omega

end HeldObject

namespace AstGrammar

variable (Γ : AstGrammar G)

/-- The rule node has no assignment children; or exactly one object is made for it,
no assignment is executed on an object from below, and at most one is to the name. -/
def OneTarget (o : Outline) (f : Forest (CstItem G)) : Prop :=
  Γ.assignments f = [] ∨
    o.own = 1 ∧ o.astray = false ∧ (Γ.toFeature "name" (Γ.assignments f)).length ≤ 1

instance (o : Outline) (f : Forest (CstItem G)) [DecidableEq G] : Decidable (Γ.OneTarget o f) :=
  inferInstanceAs (Decidable (_ ∨ _))

variable {Γ}

theorem label_of_given_nil {h : HeldObject G} (hnil : h.given = []) : h.label = h.data := by
  rw [HeldObject.label, hnil, List.append_nil]

/-- **The objects of a rule node agree** when there is one target for its
assignments, and what is built below agrees. -/
theorem agrees_of_tracks {node : CstSubtree G} {o : Outline} {built : List (AstData G)}
    {s : TreeState G} (hids : (node.children.preorder.map CstItem.id).Nodup)
    (htracks : Tracks node o (Γ.assignments node.children) built s) (hpending : s.pending = [])
    (hwithin : ∀ v ∈ built, BuiltWithin (node.children.deeper.map CstItem.id) v) :
    (∀ v ∈ labels s.current s.dropped, Γ.Agrees v) ↔
      Γ.OneTarget o node.children ∧ ∀ v ∈ built, Γ.Agrees v := by
  obtain ⟨held, inner, hlevel, hfits, horder, hbelow⟩ := htracks
  rw [hpending, List.map_nil, List.append_nil] at horder
  have hperm := (node.children.preorder_perm.map CstItem.id).nodup_iff.mp hids
  rw [List.map_append] at hperm
  obtain ⟨hroots, _, hdisjoint⟩ := List.nodup_append.mp hperm
  -- what is built below has other children
  have hother : ∀ v ∈ built, ∀ e ∈ Γ.assignments node.children,
      e ∉ Γ.assignments v.cstNode.children := by
    intro v hv e he he'
    obtain ⟨child, hchild, hid⟩ := List.mem_map.mp (id_mem_roots_of_mem_assignments he')
    have hdeep := hwithin v hv child hchild
    rw [hid] at hdeep
    exact hdisjoint _ (id_mem_roots_of_mem_assignments he) _ hdeep rfl
  have hmem : ∀ h ∈ held, h.given ⊆ Γ.assignments node.children := by
    intro h hh e he
    rw [← horder]
    exact List.mem_flatMap.mpr ⟨h, List.mem_reverse.mpr hh, he⟩
  have hdata : ∀ h ∈ held, h.own = false → h.data ∈ built := fun h hh hown =>
    (hbelow h.data).mp (.inr (.inl ⟨h, hh, hown, rfl⟩))
  have hlabel : ∀ h ∈ held, h.own = true → h.label = ⟨node, h.given⟩ := by
    intro h hh hown
    rw [HeldObject.label, hlevel.own h hh hown, List.nil_append]
  have hastray := hfits.astray
  have hcount := hfits.own
  rw [← List.countP_reverse] at hcount
  constructor
  · intro hall
    have hagrees : ∀ h ∈ held, Γ.Agrees h.label := fun h hh =>
      hall _ (hlevel.mem_labels.mpr (.inl (List.mem_map_of_mem hh)))
    have hnil : ∀ h ∈ held, h.own = false → h.given = [] := by
      intro h hh hown
      apply List.eq_nil_iff_forall_not_mem.mpr
      intro e he
      have hassigned : e ∈ h.label.assigned := List.mem_append_right _ he
      exact hother _ (hdata h hh hown) e (hmem h hh he)
        ((hagrees h hh).mem_assignments (hmem h hh he) hassigned)
    refine ⟨?_, fun v hv => ?_⟩
    · rcases eq_or_ne (Γ.assignments node.children) [] with hnone | hsome
      · exact .inl hnone
      · right
        have hnilReverse : ∀ h ∈ held.reverse, h.own = false → h.given = [] := fun h hh =>
          hnil h (List.mem_reverse.mp hh)
        have hone : o.own = 1 := by
          apply Nat.le_antisymm
          · rw [hcount]
            refine countP_le_one (horder ▸ hsome) fun h hh hown => ?_
            rw [List.mem_reverse] at hh
            have hsubset := (hagrees h hh).subset
            rw [hlabel h hh hown] at hsubset
            rw [horder]
            exact (List.subperm_of_subset (nodup_assignments hroots) hsubset).length_le
          · obtain ⟨e, he⟩ := List.exists_mem_of_ne_nil _ hsome
            rw [← horder] at he
            obtain ⟨h, hh, he⟩ := List.mem_flatMap.mp he
            rw [hcount]
            refine List.countP_pos_iff.mpr ⟨h, hh, ?_⟩
            by_contra hown
            rw [hnilReverse h hh (Bool.not_eq_true _ ▸ hown)] at he
            exact List.not_mem_nil he
        refine ⟨hone, ?_, ?_⟩
        · rw [hastray, List.any_eq_false]
          intro h hh
          cases hown : h.own with
          | true => simp
          | false => simp [hnil h hh hown]
        · rw [hone] at hcount
          have hpos : 0 < held.reverse.countP HeldObject.own := by omega
          obtain ⟨h, hh, hown⟩ := List.countP_pos_iff.mp hpos
          have hgiven := given_of_countP_eq_one hcount.symm hnilReverse h hh hown
          rw [horder] at hgiven
          rw [List.mem_reverse] at hh
          have hlast := hagrees h hh
          rw [hlabel h hh hown, hgiven] at hlast
          exact (agrees_iff hroots rfl).mp hlast
    · rcases (hbelow v).mpr hv with hinner | ⟨h, hh, hown, rfl⟩ | ⟨e, he, _⟩
      · exact hall v (hlevel.mem_labels.mpr (.inr hinner))
      · rw [← label_of_given_nil (hnil h hh hown)]
        exact hagrees h hh
      · rw [hpending] at he
        exact absurd he List.not_mem_nil
  · rintro ⟨htarget, hbuilt⟩ v hv
    -- the objects made for the node have got everything, the others nothing
    have hgiven : ∀ h ∈ held, if h.own then h.given = Γ.assignments node.children
        else h.given = [] := by
      intro h hh
      rcases htarget with hnone | ⟨hone, hnotAstray, _⟩
      · have hnil := hmem h hh
        rw [hnone, List.subset_nil] at hnil
        rw [hnone, hnil, ite_self]
      · have hnil : ∀ h ∈ held.reverse, h.own = false → h.given = [] := by
          intro h hh hown
          rw [hnotAstray, eq_comm, List.any_eq_false] at hastray
          have hgiven := hastray h (List.mem_reverse.mp hh)
          simpa [hown] using hgiven
        cases hown : h.own with
        | false => exact hnil h (List.mem_reverse.mpr hh) hown
        | true =>
          rw [hone] at hcount
          rw [if_pos rfl, ← horder]
          exact given_of_countP_eq_one hcount.symm hnil h (List.mem_reverse.mpr hh) hown
    have hnames : (Γ.toFeature "name" (Γ.assignments node.children)).length ≤ 1 := by
      rcases htarget with hnone | ⟨_, _, hnames⟩
      · rw [hnone]
        exact Nat.zero_le 1
      · exact hnames
    rcases hlevel.mem_labels.mp hv with hheld | hinner
    · obtain ⟨h, hh, rfl⟩ := List.mem_map.mp hheld
      have hgiven := hgiven h hh
      cases hown : h.own with
      | true =>
        rw [hown, if_pos rfl] at hgiven
        rw [hlabel h hh hown, hgiven]
        exact (agrees_iff hroots rfl).mpr hnames
      | false =>
        rw [hown, if_neg Bool.false_ne_true] at hgiven
        rw [label_of_given_nil hgiven]
        exact hbuilt _ (hdata h hh hown)
    · exact hbuilt v ((hbelow v).mp (.inl hinner))

/-- An object that nothing has been executed on. -/
theorem agrees_new {node : CstSubtree G} :
    Γ.Agrees ⟨node, []⟩ ↔ Γ.assignments node.children = [] := by
  constructor
  · intro h
    exact List.subset_nil.mp h.subset
  · intro h
    refine ⟨fun feature => ?_, ?_⟩
    · rw [find_nodes_for_feature_eq, h]
    · rw [getNameNode_eq, h]
      rfl

/-- Whatever is built for a rule node has its CST node there. -/
theorem within_of_tracks {node : CstSubtree G} {o : Outline} {entries : List (G × ℕ)}
    {built : List (AstData G)} {s : TreeState G} (htracks : Tracks node o entries built s)
    (hwithin : ∀ v ∈ built, BuiltWithin (node.children.deeper.map CstItem.id) v) :
    ∀ v ∈ labels s.current s.dropped, BuiltWithin (node.children.preorder.map CstItem.id) v := by
  obtain ⟨held, inner, hlevel, _, _, hbelow⟩ := htracks
  have hdeeper : node.children.deeper.map CstItem.id ⊆ node.children.preorder.map CstItem.id := by
    apply List.map_subset
    intro x hx
    exact (node.children.preorder_perm.mem_iff).mpr (List.mem_append_right _ hx)
  intro v hv
  rcases hlevel.mem_labels.mp hv with hheld | hinner
  · obtain ⟨h, hh, rfl⟩ := List.mem_map.mp hheld
    cases hown : h.own with
    | true =>
      intro child hchild
      rw [HeldObject.label, hlevel.own h hh hown] at hchild
      exact List.mem_map_of_mem (node.children.roots_subset_preorder hchild)
    | false =>
      exact (hwithin _ ((hbelow h.data).mp (.inr (.inl ⟨h, hh, hown, rfl⟩)))).mono hdeeper
  · exact (hwithin v ((hbelow v).mp (.inl hinner))).mono hdeeper

/-! ### The objects of all rule nodes -/

variable (Γ) [DecidableEq G]

/-- One target for the assignments of the rule node, if it has any. -/
def targetsNode (isLeaf : Bool) (f : Forest (CstItem G)) : Bool :=
  if isLeaf then (Γ.assignments f).isEmpty
  else decide (Γ.OneTarget (Γ.outline f .initial).finish f)

mutual

/-- One target in each rule node built below a rule node with these children. -/
def targetsRule : Forest (CstItem G) → Bool
  | .nil => true
  | .cons child below rest =>
    if child.isHidden then targetsRule rest
    else
      match Γ.kind child.grammarElement with
      | .assignment _ element =>
        (match element with
          | .parserRule =>
            Γ.targetsNode child.isLeaf below && (child.isLeaf || targetsRule below)
          | .orderedChoice choices => targetsChoice choices below
          | .data => true) && targetsRule rest
      | .parserRule =>
        Γ.targetsNode child.isLeaf below && (child.isLeaf || targetsRule below)
          && targetsRule rest
      | .infixRule _ _ => targetsOperands below false false && targetsRule rest
      | _ => targetsRule rest

/-- The same in the operands of an infix node. -/
def targetsOperands : Forest (CstItem G) → Bool → Bool → Bool
  | .nil, _, _ => true
  | .cons child below rest, hasOperator, hasRight =>
    if child.isHidden then targetsOperands rest hasOperator hasRight
    else
      match hasOperator, hasRight with
      | false, hasRight => targetsOperands rest true hasRight
      | true, false =>
        Γ.targetsNode child.isLeaf below && (child.isLeaf || targetsRule below)
          && targetsOperands rest true true
      | true, true => targetsOperands below false false && targetsOperands rest true true

/-- The same in the selected choice. -/
def targetsChoice (choices : List G) : Forest (CstItem G) → Bool
  | .nil => true
  | .cons child below rest =>
    if child.isHidden then targetsChoice choices rest
    else if child.grammarElement ∈ choices then
      match Γ.kind child.grammarElement with
      | .parserRule => Γ.targetsNode child.isLeaf below && (child.isLeaf || targetsRule below)
      | _ => true
    else targetsChoice choices rest

end

/-- Every rule node built has one target for its assignments, if it has any. -/
def targets (node : CstSubtree G) : Bool :=
  Γ.targetsNode node.node.isLeaf node.children
    && (node.node.isLeaf || Γ.targetsRule node.children)

variable {Γ}

/-- The operands of an infix node are no assignments. -/
theorem assignments_of_buildsOperands {owner primary : G} {operators : List G}
    (howner : Γ.kind owner = .infixRule primary operators) {f : Forest (CstItem G)}
    {hasOperator hasRight : Bool}
    (h : Γ.buildsOperands owner primary operators f hasOperator hasRight = true) :
    Γ.assignments f = [] := by
  induction f generalizing hasOperator hasRight with
  | nil => rfl
  | cons child below rest _ ih =>
    rw [assignments_cons]
    by_cases hhidden : child.isHidden = true
    · rw [assignments_tree_of_hidden hhidden, List.nil_append]
      cases hasOperator <;> cases hasRight <;> rw [buildsOperands, if_pos hhidden] at h <;>
        exact ih h
    · have hnone : Γ.kind child.grammarElement = .other ∨
          Γ.kind child.grammarElement = .parserRule ∨
          Γ.kind child.grammarElement = .infixRule primary operators →
          Γ.assignments (.tree child .nil) = [] := by
        intro hkind
        apply assignments_tree_of_ne
        rcases hkind with hkind | hkind | hkind <;> simp [hkind]
      cases hasOperator with
      | false =>
        rw [buildsOperands, if_neg hhidden, Bool.and_eq_true, decide_eq_true_iff] at h
        rw [hnone (.inl (Γ.operator_kind _ _ _ howner _ h.1)), ih h.2]
        rfl
      | true =>
        cases hasRight with
        | false =>
          rw [buildsOperands, if_neg hhidden, Bool.and_eq_true, Bool.and_eq_true,
            decide_eq_true_iff] at h
          rw [hnone (.inr (.inl (h.1.1 ▸ Γ.primary_kind _ _ _ howner))), ih h.2]
          rfl
        | true =>
          rw [buildsOperands, if_neg hhidden, Bool.and_eq_true, Bool.and_eq_true,
            decide_eq_true_iff] at h
          rw [hnone (.inr (.inr (h.1.1 ▸ howner))), ih h.2]
          rfl

/-- The objects of a rule call, when those built below it are as `hbelow` says. -/
theorem ruleTree_agrees {child : CstItem G} {below : Forest (CstItem G)}
    {v : AstTree G × Forest (AstData G)} (hids : (below.preorder.map CstItem.id).Nodup)
    (hbelow : child.isLeaf = false →
      ((∀ x ∈ Γ.builtBelow below, Γ.Agrees x) ↔ Γ.targetsRule below = true) ∧
        ∀ x ∈ Γ.builtBelow below, BuiltWithin (below.deeper.map CstItem.id) x)
    (hv : ruleTree ⟨child, below⟩ (Γ.treeLoop ⟨child, below⟩ below) = some v) :
    ((∀ x ∈ labels (some v.1) v.2, Γ.Agrees x) ↔
        (Γ.targetsNode child.isLeaf below && (child.isLeaf || Γ.targetsRule below)) = true) ∧
      ∀ x ∈ labels (some v.1) v.2, BuiltWithin (below.preorder.map CstItem.id) x := by
  have hown : ∀ entries, BuiltWithin (below.preorder.map CstItem.id) ⟨⟨child, below⟩, entries⟩ :=
    fun _ x hx => List.mem_map_of_mem (below.roots_subset_preorder hx)
  cases hleaf : child.isLeaf with
  | true =>
    rw [ruleTree, if_pos hleaf] at hv
    obtain rfl := Option.some.inj hv
    have hsingle : ∀ x, x ∈ labels (some (AstTree.new ⟨child, below⟩)) .nil ↔
        x = ⟨⟨child, below⟩, []⟩ := by
      intro x
      simp [mem_labels_some, AstTree.new, Forest.preorder]
    refine ⟨?_, fun x hx => ?_⟩
    · simp only [hsingle, forall_eq, agrees_new, targetsNode, if_true, Bool.true_or, Bool.and_true,
        List.isEmpty_iff]
    · rw [(hsingle x).mp hx]
      exact hown []
  | false =>
    obtain ⟨s, htracks, hpending, hcurrent, hdropped⟩ := Γ.ruleTree_tracks hleaf hv
    obtain ⟨htargets, hwithin⟩ := hbelow hleaf
    have hlevel := agrees_of_tracks hids htracks hpending hwithin
    rw [hcurrent, hdropped] at hlevel
    refine ⟨?_, fun x hx => ?_⟩
    · rw [hlevel, htargets, targetsNode, if_neg Bool.false_ne_true, Bool.false_or,
        Bool.and_eq_true, decide_eq_true_iff]
    · have hscope := within_of_tracks htracks hwithin x
      rw [hcurrent, hdropped] at hscope
      exact hscope hx

variable (Γ)

/-- What is built below a rule node with these children agrees exactly when there
is one target in each rule node there. -/
def RuleAgrees (f : Forest (CstItem G)) : Prop :=
  ∀ hasObject, Γ.buildsRule f hasObject = true →
    ((∀ x ∈ Γ.builtBelow f, Γ.Agrees x) ↔ Γ.targetsRule f = true) ∧
      ∀ x ∈ Γ.builtBelow f, BuiltWithin (f.deeper.map CstItem.id) x

/-- The same for the operands of an infix node. -/
def OperandsAgree (f : Forest (CstItem G)) : Prop :=
  ∀ owner primary operators op rhs d read, Γ.kind owner = .infixRule primary operators →
    Γ.buildsOperands owner primary operators f op.isSome rhs.isSome = true →
    Γ.operandTrees owner primary operators f op rhs d = some read →
    ((∀ x ∈ labels (some read.2.1) read.2.2, Γ.Agrees x) ↔
      (∀ x ∈ labels rhs d, Γ.Agrees x) ∧ Γ.targetsOperands f op.isSome rhs.isSome = true) ∧
      ∀ x ∈ labels (some read.2.1) read.2.2, x ∈ labels rhs d ∨
        BuiltWithin (f.preorder.map CstItem.id) x

/-- The same for a selected choice. -/
def ChoiceAgrees (f : Forest (CstItem G)) : Prop :=
  ∀ choices recovered v, Γ.buildsChoice choices recovered f = true →
    Γ.selectedTree choices recovered f = some v →
    ((∀ x ∈ labels v.1 v.2, Γ.Agrees x) ↔ Γ.targetsChoice choices f = true) ∧
      ∀ x ∈ labels v.1 v.2, BuiltWithin (f.preorder.map CstItem.id) x

/-- The same for a rule call. -/
def CallAgrees (child : CstItem G) (below : Forest (CstItem G)) : Prop :=
  ∀ v, (child.isLeaf || Γ.buildsRule below false) = true →
    ruleTree ⟨child, below⟩ (Γ.treeLoop ⟨child, below⟩ below) = some v →
    ((∀ x ∈ labels (some v.1) v.2, Γ.Agrees x) ↔
      (Γ.targetsNode child.isLeaf below && (child.isLeaf || Γ.targetsRule below)) = true) ∧
      ∀ x ∈ labels (some v.1) v.2, BuiltWithin (below.preorder.map CstItem.id) x

variable {Γ} {child : CstItem G} {below rest : Forest (CstItem G)}

theorem RuleAgrees.call (h : Γ.RuleAgrees below)
    (hids : (below.preorder.map CstItem.id).Nodup) : Γ.CallAgrees child below := by
  intro v hbuilds hv
  refine ruleTree_agrees hids (fun hleaf => h false ?_) hv
  rwa [hleaf, Bool.false_or] at hbuilds

theorem ruleTree_of_builds (h : (child.isLeaf || Γ.buildsRule below false) = true) :
    ∃ v, ruleTree ⟨child, below⟩ (Γ.treeLoop ⟨child, below⟩ below) = some v := by
  refine ruleTree_total ((Bool.or_eq_true _ _ ▸ h).imp id fun hb => ?_)
  exact (Γ.loops_total below).1 _ _ _ hb .initial

omit [DecidableEq G] in
theorem ids_rest_subset : rest.preorder.map CstItem.id
    ⊆ (Forest.cons child below rest).preorder.map CstItem.id :=
  List.map_subset _ fun _ hy => List.mem_cons_of_mem _ (List.mem_append_right _ hy)

omit [DecidableEq G] in
theorem ids_below_subset : below.preorder.map CstItem.id
    ⊆ (Forest.cons child below rest).preorder.map CstItem.id :=
  List.map_subset _ fun _ hy => List.mem_cons_of_mem _ (List.mem_append_left _ hy)

/-- What is built for a visible child, then the rest. -/
theorem RuleAgrees.both (hrest : Γ.RuleAgrees rest) {b c : Bool}
    (hb : Γ.buildsRule rest b = true)
    (hagrees : (∀ x ∈ Γ.builtFor child below, Γ.Agrees x) ↔ c = true)
    (hwithin : ∀ x ∈ Γ.builtFor child below, BuiltWithin (below.preorder.map CstItem.id) x) :
    ((∀ x ∈ Γ.builtFor child below ++ Γ.builtBelow rest, Γ.Agrees x) ↔
      (c && Γ.targetsRule rest) = true) ∧
    ∀ x ∈ Γ.builtFor child below ++ Γ.builtBelow rest,
      BuiltWithin (below.preorder.map CstItem.id ++ rest.deeper.map CstItem.id) x := by
  obtain ⟨hagrees', hwithin'⟩ := hrest b hb
  refine ⟨?_, List.forall_mem_append.mpr ⟨fun x hx => ?_, fun x hx => ?_⟩⟩
  · rw [List.forall_mem_append, hagrees, hagrees', Bool.and_eq_true]
  · exact (hwithin x hx).mono (List.subset_append_left _ _)
  · exact (hwithin' x hx).mono (List.subset_append_right _ _)

/-- Nothing is built for the child. -/
theorem RuleAgrees.skip (hrest : Γ.RuleAgrees rest) {b : Bool}
    (hb : Γ.buildsRule rest b = true) (hnil : Γ.builtFor child below = []) :
    ((∀ x ∈ Γ.builtFor child below ++ Γ.builtBelow rest, Γ.Agrees x) ↔
      Γ.targetsRule rest = true) ∧
    ∀ x ∈ Γ.builtFor child below ++ Γ.builtBelow rest,
      BuiltWithin (below.preorder.map CstItem.id ++ rest.deeper.map CstItem.id) x := by
  have hempty := @RuleAgrees.both _ _ _ child below rest hrest b true hb
  rw [hnil, Bool.true_and] at hempty
  rw [hnil]
  exact hempty ⟨fun _ => rfl, fun _ => List.forall_mem_nil _⟩ (List.forall_mem_nil _)

theorem RuleAgrees.cons (hcall : Γ.CallAgrees child below) (hoperands : Γ.OperandsAgree below)
    (hselected : Γ.ChoiceAgrees below) (hrest : Γ.RuleAgrees rest) :
    Γ.RuleAgrees (.cons child below rest) := by
  intro hasObject hbuilds
  rw [buildsRule] at hbuilds
  rw [builtBelow, targetsRule, Forest.deeper, List.map_append]
  by_cases hhidden : child.isHidden = true
  · rw [if_pos hhidden] at hbuilds ⊢
    rw [if_pos hhidden, List.nil_append]
    obtain ⟨hagrees, hwithin⟩ := hrest _ hbuilds
    exact ⟨hagrees, fun x hx => (hwithin x hx).mono (List.subset_append_right _ _)⟩
  · rw [if_neg hhidden] at hbuilds ⊢
    rw [if_neg hhidden]
    cases hkind : Γ.kind child.grammarElement with
    | assignment feature element =>
      rw [hkind, Bool.and_eq_true] at hbuilds
      cases element with
      | parserRule =>
        obtain ⟨v, hv⟩ := ruleTree_of_builds hbuilds.1
        obtain ⟨hagrees, hwithin⟩ := hcall v hbuilds.1 hv
        have hbuilt : Γ.builtFor child below = labels (some v.1) v.2 := by
          simp [builtFor, hkind, assignedTree, hv]
        rw [← hbuilt] at hagrees hwithin
        exact hrest.both hbuilds.2 hagrees hwithin
      | orderedChoice choices =>
        obtain ⟨v, hv⟩ := (Γ.loops_total below).2.2 choices _ hbuilds.1
        obtain ⟨hagrees, hwithin⟩ := hselected choices _ v hbuilds.1 hv
        have hbuilt : Γ.builtFor child below = labels v.1 v.2 := by
          simp [builtFor, hkind, assignedTree, hv]
        rw [← hbuilt] at hagrees hwithin
        exact hrest.both hbuilds.2 hagrees hwithin
      | data =>
        have hbuilt : Γ.builtFor child below = [] := by
          simp [builtFor, hkind, assignedTree, labels, optionForest, Forest.preorder]
        exact hrest.skip hbuilds.2 hbuilt
    | parserRule =>
      rw [hkind, Bool.and_eq_true] at hbuilds
      obtain ⟨v, hv⟩ := ruleTree_of_builds hbuilds.1
      obtain ⟨hagrees, hwithin⟩ := hcall v hbuilds.1 hv
      have hbuilt : Γ.builtFor child below = labels (some v.1) v.2 := by
        simp [builtFor, hkind, hv]
      rw [← hbuilt] at hagrees hwithin
      exact hrest.both hbuilds.2 hagrees hwithin
    | infixRule primary operators =>
      rw [hkind, Bool.and_eq_true, Bool.and_eq_true] at hbuilds
      obtain ⟨⟨_, hoperandsBuild⟩, hrestBuild⟩ := hbuilds
      obtain ⟨read, hread, _⟩ := (Γ.loops_total below).2.1 child.grammarElement primary
        operators none none .nil hoperandsBuild (fun o ho => by cases ho)
      obtain ⟨hagrees, hwithin⟩ := hoperands child.grammarElement primary operators none none
        .nil read hkind hoperandsBuild hread
      have hbuilt : Γ.builtFor child below
          = ⟨⟨child, below⟩, []⟩ :: labels (some read.2.1) read.2.2 := by
        simp [builtFor, hkind, hread]
      have hnone : Γ.assignments below = [] := assignments_of_buildsOperands hkind hoperandsBuild
      refine hrest.both hrestBuild ?_ ?_
      · rw [hbuilt, List.forall_mem_cons, agrees_new, hagrees]
        simp [hnone, mem_labels_none, Forest.preorder]
      · rw [hbuilt, List.forall_mem_cons]
        refine ⟨fun x hx => List.mem_map_of_mem (below.roots_subset_preorder hx), ?_⟩
        intro x hx
        exact (hwithin x hx).resolve_left
          (by simp [mem_labels_none, Forest.preorder])
    | create => exact hrest.skip (b := true) (by rwa [hkind] at hbuilds) (by simp [builtFor, hkind])
    | nest => exact hrest.skip (b := true) (by rwa [hkind] at hbuilds) (by simp [builtFor, hkind])
    | other => exact hrest.skip (by rwa [hkind] at hbuilds) (by simp [builtFor, hkind])

theorem OperandsAgree.cons (hcall : Γ.CallAgrees child below) (hoperands : Γ.OperandsAgree below)
    (horest : Γ.OperandsAgree rest) : Γ.OperandsAgree (.cons child below rest) := by
  intro owner primary operators op rhs d read howner hbuilds h
  by_cases hhidden : child.isHidden = true
  · rw [Γ.operandTrees_hidden hhidden] at h
    have hsame : Γ.targetsOperands (.cons child below rest) op.isSome rhs.isSome
        = Γ.targetsOperands rest op.isSome rhs.isSome := by
      cases op <;> cases rhs <;> simp [targetsOperands, hhidden]
    have hbuildsRest : Γ.buildsOperands owner primary operators rest op.isSome rhs.isSome
        = true := by
      cases op <;> cases rhs <;> simpa [buildsOperands, hhidden] using hbuilds
    obtain ⟨hagrees, hwithin⟩ := horest _ _ _ _ _ _ _ howner hbuildsRest h
    rw [hsame]
    exact ⟨hagrees, fun x hx => (hwithin x hx).imp_right fun hx => hx.mono ids_rest_subset⟩
  · cases op with
    | none =>
      rw [Option.isSome_none, buildsOperands, if_neg hhidden, Bool.and_eq_true] at hbuilds
      rw [operandTrees, if_neg hhidden] at h
      obtain ⟨hagrees, hwithin⟩ := horest _ _ _ (some child) _ _ _ howner hbuilds.2 h
      rw [Option.isSome_none, targetsOperands, if_neg hhidden]
      exact ⟨hagrees, fun x hx => (hwithin x hx).imp_right fun hx => hx.mono ids_rest_subset⟩
    | some op =>
      cases rhs with
      | none =>
        rw [Option.isSome_none, Option.isSome_some, buildsOperands, if_neg hhidden,
          Bool.and_eq_true, Bool.and_eq_true, decide_eq_true_iff] at hbuilds
        obtain ⟨⟨hprimary, hrule⟩, hbuildsRest⟩ := hbuilds
        rw [operandTrees, if_neg hhidden, if_pos hprimary, Option.bind_eq_some_iff] at h
        obtain ⟨v, hv, h⟩ := h
        obtain ⟨hagrees, hwithin⟩ := hcall v hrule hv
        obtain ⟨hagreesRest, hwithinRest⟩ :=
          horest _ _ _ (some op) (some v.1) _ _ howner hbuildsRest h
        have hparts : ∀ x, x ∈ labels (some v.1) (v.2 ++ d) ↔
            x ∈ labels (some v.1) v.2 ∨ x ∈ labels none d := by
          intro x
          simp [mem_labels_some, mem_labels_none, or_assoc]
        refine ⟨?_, fun x hx => ?_⟩
        · rw [hagreesRest, Option.isSome_none, Option.isSome_some, Option.isSome_some,
            targetsOperands, if_neg hhidden, Bool.and_eq_true, ← hagrees]
          simp only [hparts, or_imp, forall_and]
          tauto
        · rcases hwithinRest x hx with hx | hx
          · rcases (hparts x).mp hx with hx | hx
            · exact .inr ((hwithin x hx).mono ids_below_subset)
            · exact .inl hx
          · exact .inr (hx.mono ids_rest_subset)
      | some t =>
        rw [Option.isSome_some, Option.isSome_some, buildsOperands, if_neg hhidden,
          Bool.and_eq_true, Bool.and_eq_true, decide_eq_true_iff] at hbuilds
        obtain ⟨⟨howner', hinnerBuilds⟩, hbuildsRest⟩ := hbuilds
        rw [operandTrees, if_neg hhidden, if_pos howner', Option.bind_eq_some_iff] at h
        obtain ⟨inner, hinner, h⟩ := h
        rw [infixTree] at h
        split at h
        · rw [Option.bind_some] at h
          obtain ⟨hagrees, hwithin⟩ :=
            hoperands _ _ _ none none _ _ howner hinnerBuilds hinner
          obtain ⟨hagreesRest, hwithinRest⟩ :=
            horest _ _ _ (some op) (some _) _ _ howner hbuildsRest h
          have hnew : Γ.Agrees ⟨⟨child, below⟩, []⟩ :=
            agrees_new.mpr (assignments_of_buildsOperands howner hinnerBuilds)
          have hnone : ∀ x : AstData G, x ∉ labels none .nil := by
            simp [mem_labels_none, Forest.preorder]
          have hinnerAgrees : (∀ x ∈ labels (some inner.2.1) inner.2.2, Γ.Agrees x) ↔
              Γ.targetsOperands below false false = true := by
            rw [hagrees]
            exact and_iff_right fun x hx => absurd hx (hnone x)
          refine ⟨?_, fun x hx => ?_⟩
          · rw [hagreesRest, Option.isSome_some, Option.isSome_some, Option.isSome_some,
              targetsOperands, if_neg hhidden, Bool.and_eq_true, forall_labels_infix,
              and_iff_right hnew, hinnerAgrees, and_assoc]
          · rcases hwithinRest x hx with hx | hx
            · rcases mem_labels_operator.mp hx with rfl | hx | hx
              · refine .inr fun y hy => ids_below_subset ?_
                exact List.mem_map_of_mem (below.roots_subset_preorder hy)
              · exact .inl hx
              · exact .inr (((hwithin x hx).resolve_left (hnone x)).mono ids_below_subset)
            · exact .inr (hx.mono ids_rest_subset)
        · cases h

theorem ChoiceAgrees.cons (hcall : Γ.CallAgrees child below) (hsrest : Γ.ChoiceAgrees rest) :
    Γ.ChoiceAgrees (.cons child below rest) := by
  intro choices recovered v hbuilds h
  rw [buildsChoice] at hbuilds
  rw [selectedTree] at h
  rw [targetsChoice]
  by_cases hhidden : child.isHidden = true
  · rw [if_pos hhidden] at hbuilds h ⊢
    obtain ⟨hagrees, hwithin⟩ := hsrest choices recovered v hbuilds h
    exact ⟨hagrees, fun x hx => (hwithin x hx).mono ids_rest_subset⟩
  · rw [if_neg hhidden] at hbuilds h ⊢
    by_cases hchoice : child.grammarElement ∈ choices
    · rw [if_pos hchoice] at hbuilds h ⊢
      cases hkind : Γ.kind child.grammarElement with
      | parserRule =>
        rw [hkind] at hbuilds
        rw [hkind, Option.map_eq_some_iff] at h
        obtain ⟨w, hw, rfl⟩ := h
        obtain ⟨hagrees, hwithin⟩ := hcall w hbuilds hw
        exact ⟨hagrees, fun x hx => (hwithin x hx).mono ids_below_subset⟩
      | _ =>
        rw [hkind] at h
        obtain rfl := Option.some.inj h
        exact ⟨⟨fun _ => rfl, fun _ => List.forall_mem_nil _⟩, List.forall_mem_nil _⟩
    · rw [if_neg hchoice] at hbuilds h ⊢
      obtain ⟨hagrees, hwithin⟩ := hsrest choices recovered v hbuilds h
      exact ⟨hagrees, fun x hx => (hwithin x hx).mono ids_rest_subset⟩

/-- **Everything built agrees exactly when each rule node has one target**, by
induction on the CST. -/
theorem loops_agree (f : Forest (CstItem G)) (hids : (f.preorder.map CstItem.id).Nodup) :
    Γ.RuleAgrees f ∧ Γ.OperandsAgree f ∧ Γ.ChoiceAgrees f := by
  induction f with
  | nil =>
    refine ⟨?_, ?_, ?_⟩
    · intro hasObject _
      exact ⟨⟨fun _ => rfl, fun _ => List.forall_mem_nil _⟩, List.forall_mem_nil _⟩
    · intro owner primary operators op rhs d read _ _ h
      rw [operandTrees, Option.bind_eq_some_iff] at h
      obtain ⟨o, _, h⟩ := h
      rw [Option.map_eq_some_iff] at h
      obtain ⟨t, ht, rfl⟩ := h
      rw [ht]
      exact ⟨by simp [targetsOperands], fun x hx => .inl hx⟩
    · intro choices recovered v _ h
      rw [selectedTree] at h
      split at h
      · obtain rfl := Option.some.inj h
        exact ⟨⟨fun _ => rfl, fun _ => List.forall_mem_nil _⟩, List.forall_mem_nil _⟩
      · cases h
  | cons child below rest ihb ihr =>
    rw [Forest.preorder, List.map_cons, List.map_append, List.nodup_cons, List.nodup_append] at hids
    obtain ⟨_, hidsBelow, hidsRest, _⟩ := hids
    obtain ⟨hbelow, hoperands, hselected⟩ := ihb hidsBelow
    obtain ⟨hrest, horest, hsrest⟩ := ihr hidsRest
    have hcall : Γ.CallAgrees child below := hbelow.call hidsBelow
    exact ⟨.cons hcall hoperands hselected hrest, .cons hcall hoperands horest, .cons hcall hsrest⟩

/-- **The lookups agree with what has been executed exactly when each rule node has
one target**: for the objects of a rule node of a parsed document, with those of
the rule nodes built below it. -/
theorem find_nodes_for_feature_iff (Γ : AstGrammar G) (base : ℕ) (l : CstLabel G)
    (c : Forest (CstLabel G))
    (hbuilds : Γ.builds ⟨l.item base c, numbered (base + 1) c⟩ = true) (arena : AstArena G) :
    ∃ object arena',
      Γ.get_raw_value ⟨l.item base c, numbered (base + 1) c⟩ arena = some (object, arena') ∧
      ((∀ x v, arena.size ≤ x → arena'.data x = some v → Γ.Agrees v) ↔
        Γ.targets ⟨l.item base c, numbered (base + 1) c⟩ = true) := by
  obtain ⟨object, arena', t, d, hr, hvalue, hholding⟩ := Γ.get_raw_value_of_builds hbuilds arena
  refine ⟨object, arena', hr, ?_⟩
  have hids : ((numbered (base + 1) c).preorder.map CstItem.id).Nodup := by
    rw [preorder_numbered]
    exact List.nodup_range'
  have hagrees := ((loops_agree _ hids).1.call hids (t, d) hbuilds hvalue).1
  obtain ⟨f, d', hadded, _, hf, hd⟩ := hholding
  rw [hadded.forall_data_iff, Forest.map_append, hf, hd, Forest.preorder_append]
  exact hagrees

end AstGrammar

/-- A name, and an assigned rule call with a nest of its own. -/
def nestedBelow : Forest (CstLabel ℕ) :=
  .cons ⟨0, 1, 0, false, false⟩ .nil
    (.cons ⟨1, 2, 2, false, false⟩ (.cons ⟨1, 2, 1, false, false⟩ .nil .nil) .nil)

/-- The nest does not come between the two assignments of the rule around it. -/
theorem find_nodes_for_feature_iff_below :
    ∃ object arena' v, operandGrammar.get_raw_value
        ⟨(⟨0, 2, 9, false, false⟩ : CstLabel ℕ).item 0 nestedBelow, numbered 1 nestedBelow⟩ .empty
        = some (object, arena') ∧
      arena'.data object = some v ∧ v.assigned = [(0, 1), (2, 2)] ∧
      ∀ x v, arena'.data x = some v → operandGrammar.Agrees v := by
  obtain ⟨object, arena', hr, hagrees⟩ := AstGrammar.find_nodes_for_feature_iff operandGrammar 0
    ⟨0, 2, 9, false, false⟩ nestedBelow rfl .empty
  have hboth := fun x v => hagrees.mpr rfl x v (Nat.zero_le x)
  cases hr
  exact ⟨_, _, _, rfl, rfl, rfl, hboth⟩

/-- A name, a nest and another name: the object put in place by the nest has got the
second name, but the name node found for it is the first one. -/
theorem nested_name_node_wrong :
    actionGrammar.builds (actionNode [0, 1, 0]) = true ∧
      ∃ object arena' v,
        actionGrammar.get_raw_value (actionNode [0, 1, 0]) .empty = some (object, arena') ∧
        arena'.data object = some v ∧ v.assigned = [(0, 3)] ∧
        (actionGrammar.getNameNode v).map CstItem.id = some 1 ∧ ¬ actionGrammar.Agrees v := by
  refine ⟨rfl, 1, _, _, rfl, rfl, rfl, rfl, fun h => ?_⟩
  have hname := congrArg (Option.map Prod.snd) h.name
  rw [Option.map_map] at hname
  exact absurd hname (by decide)

end Pegium
