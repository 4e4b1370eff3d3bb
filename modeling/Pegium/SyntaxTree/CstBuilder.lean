/-
Pegium/SyntaxTree/CstBuilder.lean

The streaming CST builder.

The builder keeps a stack of frames, one per open node, each holding the open
node (`parent`) and the last child linked under it (`last`).  Nodes are linked
as they are completed: a leaf at once, an inner node when it is exited.  The
frames above the current depth are never read, so the frame array is the
current frame and the list of the enclosing ones, innermost first.
-/
import Pegium.SyntaxTree.CstNode

namespace Pegium

variable {G : Type*}

/-- One level of the builder's stack. -/
structure Frame where
  parent : Option ℕ
  last : Option ℕ
  deriving DecidableEq

/-- The builder state: the node array, the open node, and the frames. -/
structure CstBuilder (G : Type*) where
  nodes : List (Option (CstNode G))
  current : Option ℕ
  frame : Frame
  outer : List Frame
  deriving DecidableEq

/-- Snapshot of the builder state used for backtracking. -/
structure CstBuilder.Checkpoint where
  nodeCount : ℕ
  current : Option ℕ
  depth : ℕ
  lastAtLevel : Option ℕ
  parentAtLevel : Option ℕ
  deriving DecidableEq

namespace CstBuilder

/-- The builder over an empty root. -/
def empty : CstBuilder G := ⟨[], none, ⟨none, none⟩, []⟩

/-- The number of currently committed CST nodes. -/
def nodeCount (b : CstBuilder G) : ℕ := b.nodes.length

/-- The number of open nodes. -/
def depth (b : CstBuilder G) : ℕ := b.outer.length

/-- Set the sibling link of a written record. -/
def setNext (next : Option ℕ) (slot : Option (CstNode G)) : Option (CstNode G) :=
  slot.map fun n => { n with nextSiblingId := next }

/-- Set `nextSiblingId` of node `last`, when there is one. -/
def linkLast (nodes : List (Option (CstNode G))) (last next : Option ℕ) :
    List (Option (CstNode G)) :=
  match last with
  | some i => nodes.modify i (setNext next)
  | none => nodes

/-- Opens a new non-leaf node. -/
def enter (b : CstBuilder G) : CstBuilder G where
  nodes := b.nodes ++ [none]
  current := some b.nodes.length
  frame := ⟨some b.nodes.length, none⟩
  outer := b.frame :: b.outer

/-- Finalizes the node opened by the last unmatched `enter` and links it among
its siblings.  With no open node the source asserts; the state is left alone. -/
def exit (b : CstBuilder G) (beginOffset endOffset : ℕ) (ge : G) : CstBuilder G :=
  match b.current, b.outer with
  | some id, up :: outer =>
    let finished : CstNode G :=
      { begin := beginOffset, «end» := endOffset, grammarElement := ge,
        nextSiblingId := none, isLeaf := b.frame.last.isNone,
        isHidden := false, isRecovered := false }
    { nodes := linkLast (b.nodes.set id (some finished)) up.last (some id)
      current := up.parent
      frame := { up with last := some id }
      outer := outer }
  | _, _ => b

/-- Appends a complete leaf and links it among its siblings. -/
def leaf (b : CstBuilder G) (beginOffset endOffset : ℕ) (ge : G)
    (hidden recovered : Bool := false) : CstBuilder G :=
  let id := b.nodes.length
  let node : CstNode G :=
    { begin := beginOffset, «end» := endOffset, grammarElement := ge,
      nextSiblingId := none, isLeaf := true, isHidden := hidden, isRecovered := recovered }
  { b with
    nodes := linkLast (b.nodes ++ [some node]) b.frame.last (some id)
    frame := { b.frame with last := some id } }

/-- Replaces the grammar element of an allocated node. -/
def overrideGrammarElement (b : CstBuilder G) (id : ℕ) (ge : G) : CstBuilder G :=
  { b with nodes := b.nodes.modify id (Option.map fun n => { n with grammarElement := ge }) }

/-- A checkpoint of the current state. -/
def mark (b : CstBuilder G) : Checkpoint :=
  { nodeCount := b.nodeCount, current := b.current, depth := b.depth,
    lastAtLevel := b.frame.last, parentAtLevel := b.frame.parent }

/-- Restores a checkpoint.  When no node was appended since it was taken the
state is left as it is. -/
def rewind (b : CstBuilder G) (cp : Checkpoint) : CstBuilder G :=
  if b.nodeCount = cp.nodeCount then b
  else
    { nodes := linkLast (b.nodes.take cp.nodeCount) cp.lastAtLevel none
      current := cp.current
      frame := ⟨cp.parentAtLevel, cp.lastAtLevel⟩
      outer := (b.frame :: b.outer).drop (b.depth + 1 - cp.depth) }

/-- The root as it stands, over the source text. -/
def toRoot (b : CstBuilder G) (text : List UInt8) : RootCstNode G := ⟨text, b.nodes⟩

end CstBuilder

end Pegium
