/-
Pegium/Parser/ParseContext.lean

The strict parse context.

A context is the cursor, the end of the last visible leaf, and the CST builder.
Its text and its skipper do not change during a call and are parameters; the
RAII guard that installs a local skipper is a change of that parameter.
-/
import Pegium.Parser.Terminal
import Pegium.SyntaxTree.CstBuilder

namespace Pegium

/-- The mutable state of a strict parse. -/
structure ParseContext where
  cursor : ℕ
  lastVisibleCursor : ℕ
  builder : CstBuilder GrammarElement
  deriving DecidableEq

/-- Snapshot of a context. -/
structure ParseContext.Checkpoint where
  cursor : ℕ
  lastVisibleCursor : ℕ
  builder : CstBuilder.Checkpoint

namespace ParseContext

/-- The context at the beginning of a text. -/
def initial : ParseContext := ⟨0, 0, .empty⟩

/-- The context is marked by its places and the state of the builder. -/
def mark (ctx : ParseContext) : Checkpoint :=
  ⟨ctx.cursor, ctx.lastVisibleCursor, ctx.builder.mark⟩

/-- Go back to a mark. -/
def rewind (ctx : ParseContext) (checkpoint : Checkpoint) : ParseContext :=
  ⟨checkpoint.cursor, checkpoint.lastVisibleCursor, ctx.builder.rewind checkpoint.builder⟩

/-- Opens a node; the source returns the cursor as the node's begin. -/
def enter (ctx : ParseContext) : ParseContext :=
  { ctx with builder := ctx.builder.enter }

/-- Closes the open node: it spans from `checkpoint` to the end of the last
visible leaf. -/
def exit (ctx : ParseContext) (checkpoint : ℕ) (element : GrammarElement) : ParseContext :=
  { ctx with builder := ctx.builder.exit checkpoint ctx.lastVisibleCursor element }

/-- Records a leaf from the cursor to `stop` and moves the cursor there. -/
def leaf (ctx : ParseContext) (stop : ℕ) (element : GrammarElement) (hidden : Bool := false) :
    ParseContext where
  cursor := stop
  lastVisibleCursor := if hidden then ctx.lastVisibleCursor else stop
  builder := ctx.builder.leaf ctx.cursor stop element hidden false

/-- The number of nodes recorded so far. -/
def node_count (ctx : ParseContext) : ℕ := ctx.builder.nodeCount

/-- Let another grammar element stand for a node. -/
def override_grammar_element (ctx : ParseContext) (id : ℕ) (element : GrammarElement) :
    ParseContext :=
  { ctx with builder := ctx.builder.overrideGrammarElement id element }

/-- The builder after the hidden leaves of a skip. -/
def hiddenLeaves (b : CstBuilder GrammarElement) :
    List (GrammarElement × ℕ × ℕ) → CstBuilder GrammarElement
  | [] => b
  | (ge, p, q) :: leaves => hiddenLeaves (b.leaf p q ge true false) leaves

/-- `skip`: the skipper moves the cursor and records hidden leaves.  The last
visible cursor stays. -/
def skip (text : List UInt8) (rec : Matcher) (sk : Skipper) (ctx : ParseContext) :
    Option ParseContext :=
  match skipFrom text rec sk ctx.cursor with
  | none => none
  | some (leaves, q) =>
    some { ctx with cursor := q, builder := hiddenLeaves ctx.builder leaves }

end ParseContext

end Pegium
