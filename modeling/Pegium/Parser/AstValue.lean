/-
Pegium/Parser/AstValue.lean

The AST of a rule as a value.

What `get_raw_value` builds in an arena by linking nodes is described here
without one: an object is its data with the forest of what is attached to it, and
a waiting assignment is kept with its value.  An object that is replaced while it
is current stays in no tree; the value keeps these objects in a forest of their
own.

`get_raw_value_simulates` is the refinement: the arena holds exactly the tree and
the replaced objects of the value, on the nodes added by the call.
-/
import Mathlib.Data.List.Perm.Basic
import Mathlib.Data.Option.Basic
import Pegium.Parser.ParserRuleSupport

namespace Pegium

variable {G : Type*}

/-! ### Trees -/

/-- An object with what is attached below it. -/
structure AstTree (G : Type*) where
  data : AstData G
  content : Forest (AstData G)
  deriving DecidableEq

namespace AstTree

/-- A new object. -/
def new (node : CstSubtree G) : AstTree G := ⟨⟨node, []⟩, .nil⟩

/-- The forest of one tree. -/
def forest (t : AstTree G) : Forest (AstData G) := .tree t.data t.content

/-- Attach trees at the end. -/
def attach (t : AstTree G) (f : Forest (AstData G)) : AstTree G := ⟨t.data, t.content ++ f⟩

/-- Note an assignment executed on the object. -/
def record (t : AstTree G) (entry : G × ℕ) : AstTree G :=
  ⟨{ t.data with assigned := t.data.assigned ++ [entry] }, t.content⟩

end AstTree

/-- The forest of an object that may be missing. -/
def optionForest : Option (AstTree G) → Forest (AstData G)
  | none => .nil
  | some t => t.forest

/-- An assignment that waits with its value: the object it assigns, if any, and
the objects replaced while building it. -/
structure PendingTree (G : Type*) where
  assignment : G
  nodeId : ℕ
  value : Option (Option (AstTree G) × Forest (AstData G))

/-- The state of the child loop. -/
structure TreeState (G : Type*) where
  current : Option (AstTree G)
  pending : List (PendingTree G)
  dropped : Forest (AstData G)

namespace TreeState

/-- The state before the first child. -/
def initial : TreeState G := ⟨none, [], .nil⟩

/-- A tree waits for its parent. -/
def wait (s : TreeState G) (e : PendingTree G) : TreeState G :=
  { s with pending := s.pending ++ [e] }

/-- Execute assignments one after the other. -/
def executeAll : List (PendingTree G) → AstTree G → Forest (AstData G) →
    Option (AstTree G × Forest (AstData G))
  | [], t, dropped => some (t, dropped)
  | e :: es, t, dropped =>
    e.value.bind fun value =>
      executeAll es ((t.attach (optionForest value.1)).record (e.assignment, e.nodeId))
        (value.2 ++ dropped)

/-- Execute the waiting assignments on the current object. -/
def flush (s : TreeState G) : Option (TreeState G) :=
  match s.pending with
  | [] => some s
  | e :: es =>
    s.current.bind fun t =>
      (executeAll (e :: es) t s.dropped).map fun done => ⟨some done.1, [], done.2⟩

/-- Replace the current object. -/
def replace (s : TreeState G) (t : AstTree G) (dropped : Forest (AstData G)) : TreeState G :=
  { s with current := some t, dropped := dropped ++ (optionForest s.current ++ s.dropped) }

/-- A node without an object gets one. -/
def ensureCurrent (s : TreeState G) (node : CstSubtree G) : TreeState G :=
  match s.current with
  | some _ => s
  | none => s.replace (.new node) .nil

/-- Put the current object under a new one. -/
def nest (s : TreeState G) (node : CstSubtree G) : Option (TreeState G) :=
  s.current.map fun previous =>
    { s with current := some ((AstTree.new node).attach previous.forest) }

/-- The end of a rule: what waits is assigned. -/
def finish (s : TreeState G) (node : CstSubtree G) : Option (TreeState G) :=
  (s.ensureCurrent node).flush

end TreeState

/-! ### The value of a rule -/

/-- The value of a rule, around its child loop. -/
def ruleTree (node : CstSubtree G) (loop : TreeState G → Option (TreeState G)) :
    Option (AstTree G × Forest (AstData G)) :=
  if node.node.isLeaf then some (.new node, .nil)
  else
    ((loop .initial).bind fun s => s.finish node).bind fun s =>
      s.current.map fun t => (t, s.dropped)

/-- The object of an infix node over its operands. -/
def infixTree [DecidableEq G] (cstNode : CstSubtree G) (operators : List G) (left : AstTree G)
    (operatorNode : CstItem G) (right : AstTree G) : Option (AstTree G) :=
  if operatorNode.grammarElement ∈ operators then
    some ((AstTree.new cstNode).attach (left.forest ++ right.forest))
  else none

namespace AstGrammar

variable [DecidableEq G] (Γ : AstGrammar G)

mutual

/-- The child loop of a rule at `node`. -/
def treeLoop (node : CstSubtree G) : Forest (CstItem G) → TreeState G → Option (TreeState G)
  | .nil, s => some s
  | .cons child below rest, s =>
    if child.isHidden then treeLoop node rest s
    else
      match Γ.kind child.grammarElement with
      | .assignment _ element =>
        treeLoop node rest <| s.wait
          { assignment := child.grammarElement
            nodeId := child.id
            value :=
              match element with
              | .parserRule =>
                (ruleTree ⟨child, below⟩ (treeLoop ⟨child, below⟩ below)).map fun value =>
                  (some value.1, value.2)
              | .orderedChoice choices =>
                selectedTree choices (containsRecovery ⟨child, below⟩) below
              | .data => some (none, .nil) }
      | .create => treeLoop node rest (s.replace (.new node) .nil)
      | .nest =>
        (s.ensureCurrent node).flush.bind fun s => (s.nest node).bind (treeLoop node rest)
      | .parserRule =>
        (ruleTree ⟨child, below⟩ (treeLoop ⟨child, below⟩ below)).bind fun value =>
          treeLoop node rest (s.replace value.1 value.2)
      | .infixRule primary operators =>
        s.flush.bind fun s =>
          s.current.bind fun lhs =>
            (operandTrees child.grammarElement primary operators below none none .nil).bind
              fun read =>
                (infixTree ⟨child, below⟩ operators lhs read.1 read.2.1).bind fun value =>
                  treeLoop node rest
                    { s with current := some value, dropped := read.2.2 ++ s.dropped }
      | .other => treeLoop node rest s

/-- The operator and the right operand of an infix node, and the objects replaced
while building the operands. -/
def operandTrees (owner primary : G) (operators : List G) :
    Forest (CstItem G) → Option (CstItem G) → Option (AstTree G) → Forest (AstData G) →
      Option (CstItem G × AstTree G × Forest (AstData G))
  | .nil, operatorNode, rhs, dropped =>
    operatorNode.bind fun op => rhs.map fun rhs => (op, rhs, dropped)
  | .cons child below rest, operatorNode, rhs, dropped =>
    if child.isHidden then operandTrees owner primary operators rest operatorNode rhs dropped
    else
      match operatorNode, rhs with
      | none, rhs => operandTrees owner primary operators rest (some child) rhs dropped
      | some op, none =>
        if child.grammarElement = primary then
          (ruleTree ⟨child, below⟩ (treeLoop ⟨child, below⟩ below)).bind fun value =>
            operandTrees owner primary operators rest (some op) (some value.1)
              (value.2 ++ dropped)
        else none
      | some op, some lhs =>
        if child.grammarElement = owner then
          (operandTrees owner primary operators below none none .nil).bind fun read =>
            (infixTree ⟨child, below⟩ operators lhs read.1 read.2.1).bind fun value =>
              operandTrees owner primary operators rest (some op) (some value)
                (read.2.2 ++ dropped)
        else none

/-- The value of the choice selected among the children. -/
def selectedTree (choices : List G) (recovered : Bool) :
    Forest (CstItem G) → Option (Option (AstTree G) × Forest (AstData G))
  | .nil => if recovered then some (none, .nil) else none
  | .cons child below rest =>
    if child.isHidden then selectedTree choices recovered rest
    else if child.grammarElement ∈ choices then
      match Γ.kind child.grammarElement with
      | .parserRule =>
        (ruleTree ⟨child, below⟩ (treeLoop ⟨child, below⟩ below)).map fun value =>
          (some value.1, value.2)
      | _ => some (none, .nil)
    else selectedTree choices recovered rest

end

/-- The value of a rule node: its object, and the objects replaced on the way. -/
def value (node : CstSubtree G) : Option (AstTree G × Forest (AstData G)) :=
  ruleTree node (Γ.treeLoop node node.children)

end AstGrammar

/-! ### The nodes added to an arena -/

/-- The nodes added from `arena` to `arena'` hold the trees of `f`, and the nodes
of `arena` are as they were. -/
structure Added (arena arena' : AstArena G) (f : Forest (ℕ × AstData G)) : Prop where
  size_le : arena.size ≤ arena'.size
  old : ∀ x < arena.size, arena'.nodes[x]? = arena.nodes[x]?
  holds : Linked.HoldsRoots arena'.nodes f
  ids : (Linked.ids f).Perm (List.range' arena.size (arena'.size - arena.size))

namespace Added

variable {A A' A'' : AstArena G} {f g : Forest (ℕ × AstData G)}

theorem refl (A : AstArena G) : Added A A .nil where
  size_le := Nat.le_refl _
  old _ _ := rfl
  holds := trivial
  ids := by rw [Nat.sub_self]; exact List.Perm.refl _

theorem nodup (h : Added A A' f) : (Linked.ids f).Nodup :=
  h.ids.nodup_iff.mpr List.nodup_range'

theorem mem_ids (h : Added A A' f) {x : ℕ} :
    x ∈ Linked.ids f ↔ A.size ≤ x ∧ x < A'.size := by
  have hle := h.size_le
  rw [h.ids.mem_iff, List.mem_range'_1]
  omega

/-- The trees in another order. -/
theorem perm (h : Added A A' f) (hholds : Linked.HoldsRoots A'.nodes g)
    (hids : (Linked.ids g).Perm (Linked.ids f)) : Added A A' g :=
  { h with holds := hholds, ids := hids.trans h.ids }

theorem swap (h : Added A A' (f ++ g)) : Added A A' (g ++ f) := by
  refine h.perm ?_ ?_
  · exact Linked.holdsRoots_append.mpr (Linked.holdsRoots_append.mp h.holds).symm
  · rw [Linked.ids_append, Linked.ids_append]
    exact List.perm_append_comm

/-- One extension after the other. -/
theorem trans (h : Added A A' f) (h' : Added A' A'' g) : Added A A'' (f ++ g) where
  size_le := Nat.le_trans h.size_le h'.size_le
  old x hx := (h'.old x (Nat.lt_of_lt_of_le hx h.size_le)).trans (h.old x hx)
  holds := by
    refine Linked.holdsRoots_append.mpr ⟨h.holds.congr fun y hy => ?_, h'.holds⟩
    exact h'.old y (h.mem_ids.mp hy).2
  ids := by
    have hle := h.size_le
    have hle' := h'.size_le
    rw [Linked.ids_append]
    refine (h.ids.append h'.ids).trans ?_
    have hsum : A.size + (A'.size - A.size) = A'.size := by omega
    have hlength : A''.size - A.size = (A'.size - A.size) + (A''.size - A'.size) := by omega
    rw [hlength, ← List.range'_append_1, hsum]

/-- A new node. -/
theorem create (A : AstArena G) (node : CstSubtree G) :
    Added A (A.create node).2 (.tree ((A.create node).1, ⟨node, []⟩) .nil) where
  size_le := by simp [AstArena.create, AstArena.size]
  old x hx := List.getElem?_append_left hx
  holds := Linked.holdsRoots_single _ _
  ids := by
    have hsize : (A.create node).2.size - A.size = 1 := by simp [AstArena.create, AstArena.size]
    rw [hsize]
    exact List.Perm.refl _

/-- The data of the added nodes are the labels of the forest. -/
theorem forall_data_iff (h : Added A A' f) {P : AstData G → Prop} :
    (∀ x v, A.size ≤ x → A'.data x = some v → P v) ↔ ∀ v ∈ (f.map Prod.snd).preorder, P v := by
  rw [Forest.preorder_map]
  constructor
  · intro hall v hv
    obtain ⟨p, hp, rfl⟩ := List.mem_map.mp hv
    have hmem : p.1 ∈ Linked.ids f := List.mem_map_of_mem hp
    exact hall p.1 p.2 (h.mem_ids.mp hmem).1 (h.holds.value_of_mem p hp)
  · intro hall x v hx hv
    have hlt : x < A'.size := by
      rw [AstArena.data, Option.map_eq_some_iff] at hv
      obtain ⟨n, hn, _⟩ := hv
      exact (List.getElem?_eq_some_iff.mp hn).1
    obtain ⟨p, hp, rfl⟩ := List.mem_map.mp (h.mem_ids.mpr ⟨hx, hlt⟩)
    have hdata : A'.data p.1 = some p.2 := h.holds.value_of_mem p hp
    obtain rfl := Option.some.inj (hdata.symm.trans hv)
    exact hall p.2 (List.mem_map_of_mem hp)

/-- The traversal of the descendants of a root ends, and lists them in preorder. -/
theorem getAllContent {x : ℕ × AstData G} {c : Forest (ℕ × AstData G)}
    (h : Added A A' (.tree x c ++ f)) : A'.getAllContent x.1 = some (Linked.ids c) := by
  obtain ⟨⟨hx, hc, _⟩, _⟩ := h.holds
  have hnodup := h.nodup
  rw [Linked.ids_append, Linked.ids_tree, List.cons_append, List.nodup_cons] at hnodup
  obtain ⟨fuel, hfuel⟩ := Nat.exists_eq_add_of_le
    (hc.size_le (List.nodup_append.mp hnodup.2).1)
  have hdescend : Linked.descend A'.nodes (c.size + fuel) ((Linked.firstId c).toList ++ [])
      = (Linked.descend A'.nodes fuel []).map (Linked.ids c ++ ·) := Linked.descend_of_holds hc []
  rw [List.append_nil, ← hfuel] at hdescend
  rw [AstArena.getAllContent, hx, Option.bind_some, AstArena.size, hdescend]
  cases fuel <;> simp [Linked.descend]

/-- Attaching a tree to the root of another one. -/
theorem setContainer {p x : ℕ × AstData G} {c d : Forest (ℕ × AstData G)}
    (h : Added A A' (.tree p c ++ (.tree x d ++ f))) :
    ∃ A'', A'.setContainer x.1 p.1 = some A'' ∧ Added A A'' (.tree p (c ++ .tree x d) ++ f) := by
  obtain ⟨nodes', hattach, hholds, hlength, hframe⟩ := h.holds.attach h.nodup
  have hsize : (⟨nodes'⟩ : AstArena G).size = A'.size := hlength
  refine ⟨⟨nodes'⟩, by rw [AstArena.setContainer, hattach]; rfl, ?_, ?_, hholds, ?_⟩
  · exact Nat.le_trans h.size_le (Nat.le_of_eq hsize.symm)
  · intro y hy
    refine (hframe y fun hmem => ?_).trans (h.old y hy)
    have hin : y ∈ Linked.ids (.tree p c ++ (.tree x d ++ f)) := by
      rw [← Forest.append_assoc, Linked.ids_append]
      exact List.mem_append_left _ hmem
    exact absurd (h.mem_ids.mp hin).1 (Nat.not_le.mpr hy)
  · rw [hsize]
    refine List.Perm.trans (List.Perm.of_eq ?_) h.ids
    simp

/-- Noting an assignment on a root. -/
theorem record {x : ℕ} {v : AstData G} {c : Forest (ℕ × AstData G)} (entry : G × ℕ)
    (h : Added A A' (.tree (x, v) c ++ f)) :
    Added A (A'.record x entry)
      (.tree (x, { v with assigned := v.assigned ++ [entry] }) c ++ f) := by
  have hx : A'.nodes[x]?.map Linked.value = some v := by
    obtain ⟨⟨hx, _⟩, _⟩ := h.holds
    rw [hx]
    rfl
  have hmem : x ∈ Linked.ids (.tree (x, v) c ++ f) := by simp
  have hsize : (A'.record x entry).size = A'.size := List.length_modify _ _ _
  -- on the node itself the two updates agree
  have hnodes : (A'.record x entry).nodes = A'.nodes.modify x fun n =>
      { n with value := { v with assigned := v.assigned ++ [entry] } } := by
    apply List.ext_getElem?
    intro y
    show (A'.nodes.modify x _)[y]? = _
    rcases eq_or_ne x y with rfl | hne
    · rw [List.getElem?_modify_eq, List.getElem?_modify_eq]
      cases hn : A'.nodes[x]? with
      | none => rfl
      | some n =>
        rw [hn, Option.map_some, Option.some.injEq] at hx
        simp [hx]
    · rw [List.getElem?_modify_ne _ _ hne, List.getElem?_modify_ne _ _ hne]
  refine ⟨Nat.le_trans h.size_le (Nat.le_of_eq hsize.symm), ?_, ?_, ?_⟩
  · intro y hy
    have hne : x ≠ y := by
      rintro rfl
      exact absurd (h.mem_ids.mp hmem).1 (Nat.not_le.mpr hy)
    rw [hnodes, List.getElem?_modify_ne _ _ hne]
    exact h.old y hy
  · rw [hnodes]
    exact h.holds.modify_value h.nodup _
  · rw [hsize]
    refine List.Perm.trans (List.Perm.of_eq ?_) h.ids
    simp

end Added

end Pegium
