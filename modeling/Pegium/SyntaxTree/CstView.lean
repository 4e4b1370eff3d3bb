/-
Pegium/SyntaxTree/CstView.lean

Reading a built array through the views.

`numbered` is the forest a reader should see: each node with its preorder id, a
leaf flag that holds exactly when the node has no children, and its own label.
`readFrom_layout` says that the iterators recover it from the layout, and that
one step per node is enough to reach the end iterator.
-/
import Pegium.General.ForestOrder
import Pegium.SyntaxTree.TreeBuilder

namespace Pegium

variable {G : Type*}

/-- The item of a node with label `l`, id `id` and children `c`. -/
def CstLabel.item (l : CstLabel G) (id : ℕ) (c : Forest (CstLabel G)) : CstItem G :=
  ⟨id, l.begin, l.end, l.grammarElement, (c.headId 0 none).isNone, l.isHidden, l.isRecovered⟩

/-- A forest with its nodes numbered in preorder from `base`. -/
def numbered (base : ℕ) : Forest (CstLabel G) → Forest (CstItem G)
  | .nil => .nil
  | .cons l c r =>
    .cons (l.item base c) (numbered (base + 1) c) (numbered (base + 1 + c.size) r)

/-- The ids in preorder are consecutive. -/
theorem preorder_numbered (base : ℕ) (f : Forest (CstLabel G)) :
    (numbered base f).preorder.map CstItem.id = List.range' base f.size := by
  induction f generalizing base with
  | nil => rfl
  | cons l c r ihc ihr =>
    simp only [numbered, Forest.preorder, List.map_cons, List.map_append, ihc, ihr,
      Forest.size_cons]
    rw [List.range'_append_1, Nat.add_assoc 1, Nat.add_comm 1, List.range'_succ]
    rfl

/-- The label of an item. -/
def CstItem.label (item : CstItem G) : CstLabel G :=
  ⟨item.begin, item.end, item.grammarElement, item.isHidden, item.isRecovered⟩

/-- Forgetting the numbers gives the forest back. -/
theorem map_label_numbered (base : ℕ) (f : Forest (CstLabel G)) :
    (numbered base f).map CstItem.label = f := by
  induction f generalizing base with
  | nil => rfl
  | cons l c r ihc ihr =>
    rw [numbered, Forest.map, ihc, ihr]
    rfl

/-- The view of the first node of a stored forest. -/
theorem node_layout {text : List UInt8} {pre post : List (Option (CstNode G))}
    {l : CstLabel G} {c r : Forest (CstLabel G)} :
    (⟨text, pre ++ (Forest.cons l c r).layout TreeBuilder.cell pre.length none ++ post⟩ :
        RootCstNode G).node pre.length
      = TreeBuilder.cell l (c.headId 0 none).isNone
          (r.headId (pre.length + 1 + c.size) none) := by
  simp [RootCstNode.node, Forest.layout, TreeBuilder.cell]

/-- **The views recover a stored forest**, whatever is stored around it. -/
theorem readFrom_layout {text : List UInt8} {fuel : ℕ} (f : Forest (CstLabel G))
    (pre post : List (Option (CstNode G))) (hfuel : f.size ≤ fuel) :
    (⟨text, pre ++ f.layout TreeBuilder.cell pre.length none ++ post⟩ : RootCstNode G).readFrom
        fuel (f.headId pre.length none)
      = some (numbered pre.length f) := by
  induction f generalizing pre post fuel with
  | nil => cases fuel <;> rfl
  | cons l c r ihc ihr =>
    obtain ⟨fuel, rfl⟩ : ∃ n, fuel = n + 1 := by
      simp only [Forest.size_cons] at hfuel
      exact ⟨fuel - 1, by omega⟩
    simp only [Forest.size_cons] at hfuel
    generalize hroot : (⟨text, pre ++ (Forest.cons l c r).layout TreeBuilder.cell pre.length none
      ++ post⟩ : RootCstNode G) = root
    have hnode : root.node pre.length = TreeBuilder.cell l (c.headId 0 none).isNone
        (r.headId (pre.length + 1 + c.size) none) := hroot ▸ node_layout
    -- the children are stored after the node, the siblings after the children
    let preC := pre ++ [TreeBuilder.cell l (c.headId 0 none).isNone
      (r.headId (pre.length + 1 + c.size) none)]
    let preR := preC ++ c.layout TreeBuilder.cell (pre.length + 1) none
    have hpreC : preC.length = pre.length + 1 := by simp [preC]
    have hpreR : preR.length = pre.length + 1 + c.size := by simp [preR, hpreC]
    have hc : root.readFrom fuel (c.headId (pre.length + 1) none)
        = some (numbered (pre.length + 1) c) := by
      have h := @ihc fuel preC
        (r.layout TreeBuilder.cell (pre.length + 1 + c.size) none ++ post) (by omega)
      rw [hpreC] at h
      rw [← hroot, ← h]
      simp [preC, Forest.layout]
    have hr : root.readFrom fuel (r.headId (pre.length + 1 + c.size) none)
        = some (numbered (pre.length + 1 + c.size) r) := by
      have h := @ihr fuel preR post (by omega)
      rw [hpreR] at h
      rw [← hroot, ← h]
      simp [preR, preC, Forest.layout]
    have hbegin : CstNodeView.begin root pre.length = c.headId (pre.length + 1) none := by
      rw [CstNodeView.begin, hnode]
      cases c <;> rfl
    have hnext : CstNodeView.next root pre.length
        = r.headId (pre.length + 1 + c.size) none := by
      rw [CstNodeView.next, hnode]
      rfl
    have hitem : CstNodeView.item root pre.length = some (l.item pre.length c) := by
      rw [CstNodeView.item, hnode]
      rfl
    rw [Forest.headId_cons, RootCstNode.readFrom, hitem, hbegin, hnext, hc, hr]
    rfl

/-- With no node left open, the views read the tree of the tree builder. -/
theorem read_toCstBuilder (text : List UInt8) {tb : TreeBuilder G} (h : tb.depth = 0) :
    (tb.toCstBuilder.toRoot text).read = some (numbered 0 tb.top) := by
  obtain ⟨f, below⟩ := tb
  obtain rfl : below = [] := List.length_eq_zero_iff.mp h
  have hcount : ((TreeBuilder.toCstBuilder ⟨f, []⟩).toRoot text).nodeCount = f.size := by
    simp [RootCstNode.nodeCount, CstBuilder.toRoot, TreeBuilder.toCstBuilder,
      TreeBuilder.levelsNodes, levelsSize]
  have hbegin : ((TreeBuilder.toCstBuilder ⟨f, []⟩).toRoot text).begin = f.headId 0 none := by
    rw [RootCstNode.begin, hcount]
    cases f with
    | nil => rfl
    | cons l c r => rw [if_neg (by simp only [Forest.size_cons]; omega), Forest.headId_cons]
  have key := @readFrom_layout G text _ f [] [] (Nat.le_refl f.size)
  have hroot : (TreeBuilder.toCstBuilder ⟨f, []⟩).toRoot text
      = ⟨text, [] ++ f.layout TreeBuilder.cell 0 none ++ []⟩ := by
    simp [CstBuilder.toRoot, TreeBuilder.toCstBuilder, TreeBuilder.levelsNodes, levelsSize]
  rw [RootCstNode.read, hcount, hbegin, hroot]
  exact key

end Pegium
