/-
Pegium/SyntaxTree/TreeBuilder.lean

The ordinary tree builder, and the builder state it stands for.

A `TreeBuilder` keeps, for every open node, the forest of its finished
children.  It knows nothing of ids, links or arrays: a leaf appends a tree, an
exit turns the innermost forest into the children of a new tree.

`toCstBuilder` says what the streaming builder of `CstBuilder.lean` holds when
the tree builder holds `tb`: the forests laid out one after the other, each
followed by the unwritten slot of the node open after it.  The two step
together: enter, leaf, exit and override commute with `toCstBuilder`.
-/
import Pegium.SyntaxTree.CstBuilder

namespace Pegium

variable {G : Type*}

/-- The data of a CST node other than its place in the tree. -/
structure CstLabel (G : Type*) where
  begin : ℕ
  «end» : ℕ
  grammarElement : G
  isHidden : Bool
  isRecovered : Bool
  deriving DecidableEq

/-- The forests of finished siblings: `top` under the open node, `below` under
the enclosing ones, innermost first. -/
structure TreeBuilder (G : Type*) where
  top : Forest (CstLabel G)
  below : List (Forest (CstLabel G))
  deriving DecidableEq

/-- The number of nodes in a stack of enclosing levels, open nodes included. -/
def levelsSize : List (Forest (CstLabel G)) → ℕ
  | [] => 0
  | f :: fs => levelsSize fs + f.size + 1

/-- Replace the grammar element of the node with preorder index `id` in a stack
of levels.  The node opened after a level has no label yet. -/
def overrideLevels (id : ℕ) (ge : G) :
    List (Forest (CstLabel G)) → List (Forest (CstLabel G))
  | [] => []
  | f :: fs =>
    if id < levelsSize fs then f :: overrideLevels id ge fs
    else f.modify (fun l => { l with grammarElement := ge }) (id - levelsSize fs) :: fs

namespace TreeBuilder

/-- The builder of the empty tree. -/
def empty : TreeBuilder G := ⟨.nil, []⟩

/-- The number of open nodes. -/
def depth (tb : TreeBuilder G) : ℕ := tb.below.length

/-- The number of nodes, open ones included. -/
def nodeCount (tb : TreeBuilder G) : ℕ := levelsSize tb.below + tb.top.size

/-- Open a node. -/
def enter (tb : TreeBuilder G) : TreeBuilder G := ⟨.nil, tb.top :: tb.below⟩

/-- Close the open node over its finished children. -/
def exit (tb : TreeBuilder G) (beginOffset endOffset : ℕ) (ge : G) : TreeBuilder G :=
  match tb.below with
  | [] => tb
  | f :: fs => ⟨f ++ .tree ⟨beginOffset, endOffset, ge, false, false⟩ tb.top, fs⟩

/-- Append a forest of finished nodes. -/
def append (tb : TreeBuilder G) (f : Forest (CstLabel G)) : TreeBuilder G :=
  { tb with top := tb.top ++ f }

/-- Append a childless node. -/
def leaf (tb : TreeBuilder G) (beginOffset endOffset : ℕ) (ge : G)
    (hidden recovered : Bool := false) : TreeBuilder G :=
  tb.append (.tree ⟨beginOffset, endOffset, ge, hidden, recovered⟩ .nil)

/-- Replace the grammar element of the node with preorder index `id`. -/
def overrideGrammarElement (tb : TreeBuilder G) (id : ℕ) (ge : G) : TreeBuilder G :=
  if id < levelsSize tb.below then { tb with below := overrideLevels id ge tb.below }
  else
    { tb with
      top := tb.top.modify (fun l => { l with grammarElement := ge }) (id - levelsSize tb.below) }

@[simp] theorem append_below (tb : TreeBuilder G) (f : Forest (CstLabel G)) :
    (tb.append f).below = tb.below := rfl

@[simp] theorem append_top (tb : TreeBuilder G) (f : Forest (CstLabel G)) :
    (tb.append f).top = tb.top ++ f := rfl

@[simp] theorem append_nil (tb : TreeBuilder G) : tb.append .nil = tb := by
  simp [append]

theorem append_append (tb : TreeBuilder G) (f g : Forest (CstLabel G)) :
    (tb.append f).append g = tb.append (f ++ g) := by
  simp [append, Forest.append_assoc]

@[simp] theorem nodeCount_append (tb : TreeBuilder G) (f : Forest (CstLabel G)) :
    (tb.append f).nodeCount = tb.nodeCount + f.size := by
  simp [nodeCount, Nat.add_assoc]

@[simp] theorem enter_append_exit (tb : TreeBuilder G) (f : Forest (CstLabel G))
    (b e : ℕ) (ge : G) :
    ((tb.enter).append f).exit b e ge = tb.append (.tree ⟨b, e, ge, false, false⟩ f) := rfl

/-- Overriding the first node of an appended forest. -/
theorem override_append (tb : TreeBuilder G) (f : Forest (CstLabel G)) (ge : G) :
    (tb.append f).overrideGrammarElement tb.nodeCount ge
      = tb.append (f.modifyHead fun l => { l with grammarElement := ge }) := by
  have hge : ¬ tb.nodeCount < levelsSize tb.below := by simp [nodeCount]
  have hsub : tb.nodeCount - levelsSize tb.below = tb.top.size + 0 := by simp [nodeCount]
  rw [overrideGrammarElement, append_below, if_neg hge, hsub, append_top,
    Forest.modify_append_right, Forest.modify_zero]
  rfl

/-! ### The builder state a tree builder stands for -/

/-- The record of a finished node. -/
def cell (l : CstLabel G) (isLeaf : Bool) (next : Option ℕ) : Option (CstNode G) :=
  some ⟨l.begin, l.end, l.grammarElement, next, isLeaf, l.isHidden, l.isRecovered⟩

/-- The slots of a stack of levels. -/
def levelsNodes : List (Forest (CstLabel G)) → List (Option (CstNode G))
  | [] => []
  | f :: fs => levelsNodes fs ++ f.layout cell (levelsSize fs) none ++ [none]

/-- The id of the node opened after a stack of levels. -/
def openNode : List (Forest (CstLabel G)) → Option ℕ
  | [] => none
  | f :: fs => some (levelsSize fs + f.size)

/-- The frame of the level `f` above the levels `fs`. -/
def frameOf (fs : List (Forest (CstLabel G))) (f : Forest (CstLabel G)) : Frame :=
  ⟨openNode fs, f.lastRoot (levelsSize fs)⟩

/-- The frames of a stack of levels. -/
def levelsFrames : List (Forest (CstLabel G)) → List Frame
  | [] => []
  | f :: fs => frameOf fs f :: levelsFrames fs

/-- The state of the streaming builder for the state `tb` of the tree builder. -/
def toCstBuilder (tb : TreeBuilder G) : CstBuilder G where
  nodes := levelsNodes tb.below ++ tb.top.layout cell (levelsSize tb.below) none
  current := openNode tb.below
  frame := frameOf tb.below tb.top
  outer := levelsFrames tb.below

@[simp] theorem length_levelsNodes (fs : List (Forest (CstLabel G))) :
    (levelsNodes fs).length = levelsSize fs := by
  induction fs with
  | nil => rfl
  | cons f fs ih => simp [levelsNodes, levelsSize, ih]; omega

@[simp] theorem length_levelsFrames (fs : List (Forest (CstLabel G))) :
    (levelsFrames fs).length = fs.length := by
  induction fs with
  | nil => rfl
  | cons f fs ih => simp [levelsFrames, ih]

@[simp] theorem toCstBuilder_nodeCount (tb : TreeBuilder G) :
    tb.toCstBuilder.nodeCount = tb.nodeCount := by
  simp [toCstBuilder, CstBuilder.nodeCount, nodeCount]

@[simp] theorem toCstBuilder_depth (tb : TreeBuilder G) :
    tb.toCstBuilder.depth = tb.depth := by
  simp [toCstBuilder, CstBuilder.depth, depth]

/-! ### The two builders step together -/

theorem setNext_cell (l : CstLabel G) (isLeaf : Bool) (n m : Option ℕ) :
    CstBuilder.setNext m (cell l isLeaf n) = cell l isLeaf m := rfl

/-- Linking the last root of a stored forest. -/
theorem linkLast_layout (pre post : List (Option (CstNode G))) (f : Forest (CstLabel G))
    (nx m : Option ℕ) :
    CstBuilder.linkLast (pre ++ f.layout cell pre.length nx ++ post)
        (f.lastRoot pre.length) m
      = pre ++ f.layout cell pre.length m ++ post := by
  rcases h : f.lastRoot pre.length with - | i
  · rw [Forest.lastRoot_eq_none.mp h]
    rfl
  · exact Forest.modify_layout setNext_cell h nx m post

/-- A new last root: the old last root is linked to it. -/
theorem layout_append_tree (base : ℕ) (f c : Forest (CstLabel G)) (l : CstLabel G) :
    (f ++ .tree l c).layout cell base none
      = f.layout cell base (some (base + f.size))
        ++ cell l (c.headId 0 none).isNone none
          :: c.layout cell (base + f.size + 1) none := by
  rw [Forest.layout_append]
  simp [Forest.tree, Forest.layout]

theorem toCstBuilder_enter (tb : TreeBuilder G) :
    tb.enter.toCstBuilder = tb.toCstBuilder.enter := by
  simp [toCstBuilder, enter, CstBuilder.enter, levelsNodes, levelsSize, openNode, frameOf,
    levelsFrames, Forest.lastRoot]

theorem toCstBuilder_leaf (tb : TreeBuilder G) (b e : ℕ) (ge : G)
    (hidden recovered : Bool) :
    (tb.leaf b e ge hidden recovered).toCstBuilder
      = tb.toCstBuilder.leaf b e ge hidden recovered := by
  have link := linkLast_layout (levelsNodes tb.below)
    [cell (⟨b, e, ge, hidden, recovered⟩ : CstLabel G) true none] tb.top none
    (some (levelsSize tb.below + tb.top.size))
  rw [length_levelsNodes] at link
  simp only [toCstBuilder, leaf, append, CstBuilder.leaf, frameOf, layout_append_tree,
    Forest.lastRoot_append_tree, List.length_append, length_levelsNodes, Forest.length_layout]
  congr 1
  exact (List.append_assoc _ _ _).symm.trans link.symm

theorem isNone_lastRoot (base : ℕ) (f : Forest (CstLabel G)) :
    (f.lastRoot base).isNone = (f.headId 0 none).isNone := by
  cases f <;> rfl

theorem toCstBuilder_exit (tb : TreeBuilder G) (b e : ℕ) (ge : G) :
    (tb.exit b e ge).toCstBuilder = tb.toCstBuilder.exit b e ge := by
  obtain ⟨top, below⟩ := tb
  rcases below with - | ⟨f, fs⟩
  · rfl
  · -- write the open slot, then link it under the enclosing level
    let id := levelsSize fs + f.size
    let l : CstLabel G := ⟨b, e, ge, false, false⟩
    let pre := levelsNodes fs ++ f.layout cell (levelsSize fs) none
    let tail := top.layout cell (id + 1) none
    have hpre : pre.length = id := by simp [pre, id]
    have write : (pre ++ none :: tail).set id (cell l (top.headId 0 none).isNone none)
        = pre ++ cell l (top.headId 0 none).isNone none :: tail := by
      rw [List.set_append_right id _ (Nat.le_of_eq hpre), hpre, Nat.sub_self]
      rfl
    have link := linkLast_layout (levelsNodes fs)
      (cell l (top.headId 0 none).isNone none :: tail) f none (some id)
    rw [length_levelsNodes] at link
    simp only [toCstBuilder, exit, CstBuilder.exit, openNode, levelsFrames, levelsNodes,
      levelsSize, frameOf, layout_append_tree, Forest.lastRoot_append_tree, isNone_lastRoot]
    congr 1
    have goal_nodes : levelsNodes fs ++ f.layout cell (levelsSize fs) none ++ [none]
        ++ top.layout cell (levelsSize fs + f.size + 1) none = pre ++ none :: tail := by
      simp [pre, tail, id]
    rw [goal_nodes]
    exact (List.append_assoc _ _ _).symm.trans
      (link.symm.trans (congrArg (CstBuilder.linkLast · _ _) write.symm))

@[simp] theorem levelsSize_override (id : ℕ) (ge : G)
    (fs : List (Forest (CstLabel G))) :
    levelsSize (overrideLevels id ge fs) = levelsSize fs := by
  induction fs with
  | nil => rfl
  | cons f fs ih => rw [overrideLevels]; split <;> simp [levelsSize, ih]

@[simp] theorem openNode_override (id : ℕ) (ge : G) (fs : List (Forest (CstLabel G))) :
    openNode (overrideLevels id ge fs) = openNode fs := by
  rcases fs with - | ⟨f, fs⟩
  · rfl
  · rw [overrideLevels]; split <;> simp [openNode]

@[simp] theorem levelsFrames_override (id : ℕ) (ge : G)
    (fs : List (Forest (CstLabel G))) :
    levelsFrames (overrideLevels id ge fs) = levelsFrames fs := by
  induction fs with
  | nil => rfl
  | cons f fs ih => rw [overrideLevels]; split <;> simp [levelsFrames, frameOf, ih]

/-- The slot update behind an override. -/
def overrideSlot (ge : G) : Option (CstNode G) → Option (CstNode G) :=
  Option.map fun n => { n with grammarElement := ge }

theorem overrideSlot_cell (ge : G) (l : CstLabel G) (isLeaf : Bool) (n : Option ℕ) :
    overrideSlot ge (cell l isLeaf n) = cell { l with grammarElement := ge } isLeaf n := rfl

theorem levelsNodes_override {id : ℕ} (ge : G) {fs : List (Forest (CstLabel G))}
    (h : id < levelsSize fs) :
    levelsNodes (overrideLevels id ge fs) = (levelsNodes fs).modify id (overrideSlot ge) := by
  induction fs with
  | nil => simp [levelsSize] at h
  | cons f fs ih =>
    rw [overrideLevels]
    split
    next hlt =>
      have hlen : id < (levelsNodes fs ++ f.layout cell (levelsSize fs) none).length := by
        rw [List.length_append, length_levelsNodes]
        omega
      rw [levelsNodes, levelsNodes, ih hlt, levelsSize_override,
        List.modify_append_of_lt _ hlen, List.modify_append_of_lt _ (by simpa using hlt)]
    next hge =>
      have hge' : (levelsNodes fs).length ≤ id := by simpa using hge
      have hlen : (levelsNodes fs ++ f.layout cell (levelsSize fs) none).length
          = levelsSize fs + f.size := by simp
      rw [levelsNodes, levelsNodes, Forest.layout_modify (overrideSlot_cell ge)]
      rcases Nat.lt_or_ge id (levelsSize fs + f.size) with hf | hf
      · rw [List.modify_append_of_lt _ (hlen ▸ hf), List.modify_append_of_le _ hge',
          length_levelsNodes]
      · -- the open node itself: its slot is unwritten
        have hout : (f.layout cell (levelsSize fs) none).length ≤ id - levelsSize fs := by
          rw [Forest.length_layout]
          omega
        have hslot : id - (levelsNodes fs ++ f.layout cell (levelsSize fs) none).length = 0 := by
          rw [hlen]
          simp only [levelsSize] at h
          omega
        rw [List.modify_append_of_le _ (hlen ▸ hf), hslot, List.modify_eq_self hout]
        rfl

theorem toCstBuilder_override (tb : TreeBuilder G) (id : ℕ) (ge : G) :
    (tb.overrideGrammarElement id ge).toCstBuilder
      = tb.toCstBuilder.overrideGrammarElement id ge := by
  rw [overrideGrammarElement]
  split
  next h =>
    have key := levelsNodes_override ge h
    have hlen : id < (levelsNodes tb.below).length := by simpa using h
    simp only [toCstBuilder, CstBuilder.overrideGrammarElement, frameOf, levelsSize_override,
      openNode_override, levelsFrames_override, key]
    rw [List.modify_append_of_lt _ hlen]
    rfl
  next h =>
    have hle : (levelsNodes tb.below).length ≤ id := by simpa using Nat.le_of_not_lt h
    simp only [toCstBuilder, CstBuilder.overrideGrammarElement, frameOf,
      Forest.lastRoot_modify, Forest.layout_modify (overrideSlot_cell ge)]
    rw [List.modify_append_of_le _ hle, length_levelsNodes]
    rfl

theorem toCstBuilder_empty : (empty : TreeBuilder G).toCstBuilder = CstBuilder.empty := rfl

end TreeBuilder

end Pegium
