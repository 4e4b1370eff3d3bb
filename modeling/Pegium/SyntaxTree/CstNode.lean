/-
Pegium/SyntaxTree/CstNode.lean

The storage of a concrete syntax tree and the views that read it.

A `RootCstNode` owns the source text and one array of records.  A record is
allocated uninitialized and is filled in later, so a slot of the array is an
`Option`: `none` is a slot that was handed out and not written yet.

The views walk the array through two fields only: `isLeaf` decides whether the
next slot is the first child, and `nextSiblingId` is the link to the following
sibling (`kNoNode` is `none`).  Node ids and byte offsets (`NodeId`,
`TextOffset`) are natural numbers.
-/
import Pegium.General.LinkedLayout

namespace Pegium

variable {G : Type*}

/-- One storage record of the CST; `G` is the type of grammar elements. -/
structure CstNode (G : Type*) where
  begin : ℕ
  «end» : ℕ
  grammarElement : G
  nextSiblingId : Option ℕ
  isLeaf : Bool
  isHidden : Bool
  isRecovered : Bool
  deriving DecidableEq

/-- The owner of a CST: the source text and the node array. -/
structure RootCstNode (G : Type*) where
  text : List UInt8
  nodes : List (Option (CstNode G))
  deriving DecidableEq

namespace RootCstNode

/-- The number of allocated nodes. -/
def nodeCount (root : RootCstNode G) : ℕ := root.nodes.length

/-- The record of node `id`, when it has been written. -/
def node (root : RootCstNode G) (id : ℕ) : Option (CstNode G) :=
  (root.nodes[id]?).join

/-- The iterator over the top-level nodes (`none` is the end iterator). -/
def begin (root : RootCstNode G) : Option ℕ :=
  if root.nodeCount = 0 then none else some 0

end RootCstNode

/-! ### Views -/

namespace CstNodeView

/-- The iterator over the direct children of node `id`. -/
def begin (root : RootCstNode G) (id : ℕ) : Option ℕ :=
  match root.node id with
  | some n => if n.isLeaf then none else some (id + 1)
  | none => none

/-- `ChildIterator::operator++` at node `id`. -/
def next (root : RootCstNode G) (id : ℕ) : Option ℕ :=
  match root.node id with
  | some n => n.nextSiblingId
  | none => none

end CstNodeView

/-- What a view shows of one node: its id and the fields of its record other
than the sibling link. -/
structure CstItem (G : Type*) where
  id : ℕ
  begin : ℕ
  «end» : ℕ
  grammarElement : G
  isLeaf : Bool
  isHidden : Bool
  isRecovered : Bool
  deriving DecidableEq

/-- The fields of node `id` as a view reads them. -/
def CstNodeView.item (root : RootCstNode G) (id : ℕ) : Option (CstItem G) :=
  (root.node id).map fun n =>
    ⟨id, n.begin, n.end, n.grammarElement, n.isLeaf, n.isHidden, n.isRecovered⟩

/-- The siblings met by incrementing the iterator `it` up to the end, each with
its children read in the same way.  `none` when `fuel` iterator steps do not
reach the end or a slot is unwritten. -/
def RootCstNode.readFrom (root : RootCstNode G) :
    ℕ → Option ℕ → Option (Forest (CstItem G))
  | _, none => some .nil
  | 0, some _ => none
  | fuel + 1, some id => do
    let item ← CstNodeView.item root id
    let children ← root.readFrom fuel (CstNodeView.begin root id)
    let rest ← root.readFrom fuel (CstNodeView.next root id)
    return .cons item children rest

/-- The whole CST as seen through the views. -/
def RootCstNode.read (root : RootCstNode G) : Option (Forest (CstItem G)) :=
  root.readFrom root.nodeCount root.begin

end Pegium
