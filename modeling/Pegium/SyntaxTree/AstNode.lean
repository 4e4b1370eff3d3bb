/-
Pegium/SyntaxTree/AstNode.lean

The nodes of the abstract syntax tree.

An arena owns the nodes; a node is known by its position, its symbol id.  The
links of a node are those of `Linked`: its container, its first and last child
and its next sibling.  Members of the concrete node types are not modelled one by
one: a node keeps the assignments executed on it, with the CST nodes their values
were read from.
-/
import Pegium.General.ChildLists
import Pegium.SyntaxTree.CstView

namespace Pegium

variable {G : Type*}

/-- A node of the CST with what is below it, as a `CstNodeView` shows it. -/
structure CstSubtree (G : Type*) where
  node : CstItem G
  children : Forest (CstItem G)
  deriving DecidableEq

/-- The data of an AST node other than its links: the CST node it was built from
and the assignments executed on it, each with the id of its CST node. -/
structure AstData (G : Type*) where
  cstNode : CstSubtree G
  assigned : List (G × ℕ)
  deriving DecidableEq

/-- The owner of the AST nodes. -/
structure AstArena (G : Type*) where
  nodes : List (Linked (AstData G))
  deriving DecidableEq

namespace AstArena

/-- The arena without nodes. -/
def empty : AstArena G := ⟨[]⟩

/-- The number of nodes. -/
def size (arena : AstArena G) : ℕ := arena.nodes.length

/-- `create` and the `setCstNode` that follows it. -/
def create (arena : AstArena G) (cstNode : CstSubtree G) : ℕ × AstArena G :=
  (arena.size, ⟨arena.nodes ++ [Linked.single ⟨cstNode, []⟩]⟩)

/-- Attach `node` to `container` as its last child; `none` when it has a container
already, which the source asserts it has not. -/
def setContainer (arena : AstArena G) (node container : ℕ) : Option (AstArena G) :=
  (Linked.attach arena.nodes node container).map AstArena.mk

/-- Note that an assignment has been executed on `node`. -/
def record (arena : AstArena G) (node : ℕ) (entry : G × ℕ) : AstArena G :=
  ⟨arena.nodes.modify node fun n =>
    { n with value := { n.value with assigned := n.value.assigned ++ [entry] } }⟩

/-- The data of a node. -/
def data (arena : AstArena G) (node : ℕ) : Option (AstData G) :=
  arena.nodes[node]?.map Linked.value

/-- The CST node a node was built from. -/
def getCstNode (arena : AstArena G) (node : ℕ) : Option (CstSubtree G) :=
  (arena.data node).map AstData.cstNode

/-- The direct children of a node, read off its `ChildRange`; `none` when the
sibling links do not end. -/
def getContent (arena : AstArena G) (node : ℕ) : Option (List ℕ) :=
  arena.nodes[node]?.bind fun n => Linked.siblings arena.nodes arena.size n.firstChild

/-- The descendants of a node, read off its `DescendantRange`; `none` when the
traversal does not end. -/
def getAllContent (arena : AstArena G) (node : ℕ) : Option (List ℕ) :=
  arena.nodes[node]?.bind fun n => Linked.descend arena.nodes arena.size n.firstChild.toList

end AstArena

end Pegium
