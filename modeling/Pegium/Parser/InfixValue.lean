/-
Pegium/Parser/InfixValue.lean

The value of an infix rule.

The CST of an infix rule is flat where the value is nested: the first operand,
then one node for each operator of the outer loop, holding the operator, its
right operand and the nodes of the loop over that.  The value builder folds it
from the left: `buildTypedFromCst` gives each infix node the value built so far
as its left operand.

A value keeps the CST nodes it was built from, so that its operators and operands
can be compared with the tokens the parser has consumed.
-/
import Pegium.General.ForestOrder
import Pegium.General.PrecedenceClimbing
import Pegium.Parser.Peg
import Pegium.SyntaxTree.CstView

namespace Pegium

namespace Expr

mutual

/-- `expression_raw_compliant_v`: the expression has a raw value of its own, or is
an ordered choice of such expressions.  An infix operator asserts it. -/
def rawCompliant : Expr → Bool
  | literal _ _ _ | characterRange _ _ | anyCharacter _ => true
  | terminalRule _ | dataTypeRule _ | parserRule _ => true
  | orderedChoice choices => allRawCompliant choices
  | skipperWrapped _ (orderedChoice choices) => allRawCompliant choices
  | _ => false

def allRawCompliant : List Expr → Bool
  | [] => true
  | e :: es => rawCompliant e && allRawCompliant es

end

end Expr

/-! ### Building the value -/

/-- A node of the CST with its children, as a `CstNodeView` shows it. -/
structure NodeView where
  node : CstItem GrammarElement
  children : Forest (CstItem GrammarElement)
  deriving DecidableEq

/-- The AST of an infix rule: an operand is the value of its parser rule node; a
node keeps its CST node, its operands, and the operator (its index in the rule
and the CST node its value is read from). -/
inductive InfixValue where
  | operand (cstNode : NodeView)
  | node (cstNode : NodeView) (left : InfixValue) (op : ℕ) (operatorNode : NodeView)
      (right : InfixValue)
  deriving DecidableEq

/-- `assign_operator_from_node`: the operator whose element the node records. -/
def assignOperatorFromNode (rule : ℕ) (defn : InfixDef) (operatorNode : NodeView) : Option ℕ :=
  (List.range defn.operators.length).find? fun index =>
    operatorNode.node.grammarElement == .infixOperator rule index

/-- `createNode`. -/
def createNode (rule : ℕ) (defn : InfixDef) (cstNode : NodeView) (left : InfixValue)
    (operatorNode : NodeView) (right : InfixValue) : Option InfixValue :=
  (assignOperatorFromNode rule defn operatorNode).map fun op =>
    .node cstNode left op operatorNode right

/-- The child loop of `buildTypedFromCst`: the operator node and the right operand
read so far, and those at the end of the loop (`none` is a failed assertion). -/
def buildOperands (rule : ℕ) (defn : InfixDef) :
    Forest (CstItem GrammarElement) → Option NodeView → Option InfixValue →
      Option (NodeView × InfixValue)
  | .nil, operatorNode, rhs => operatorNode.bind fun op => rhs.map fun rhs => (op, rhs)
  | .cons child children rest, operatorNode, rhs =>
    if child.isHidden then buildOperands rule defn rest operatorNode rhs
    else
      match operatorNode, rhs with
      | none, rhs => buildOperands rule defn rest (some ⟨child, children⟩) rhs
      | some op, none =>
        if child.grammarElement = .parserRule defn.primary then
          buildOperands rule defn rest (some op) (some (.operand ⟨child, children⟩))
        else none
      | some op, some lhs =>
        if child.grammarElement = .infixRule rule then
          -- the recursive call: this child, with the value so far on its left
          (buildOperands rule defn children none none).bind fun inner =>
            (createNode rule defn ⟨child, children⟩ lhs inner.1 inner.2).bind fun rhs =>
              buildOperands rule defn rest (some op) (some rhs)
        else none

/-- `buildTypedFromCst`. -/
def buildTypedFromCst (rule : ℕ) (defn : InfixDef) (view : NodeView) (lhs : InfixValue) :
    Option InfixValue :=
  (buildOperands rule defn view.children none none).bind fun inner =>
    createNode rule defn view lhs inner.1 inner.2

/-- The `ParserRule` and `InfixRule` cases of the child loop of a parser rule's
value, which are those an infix rule gives rise to. -/
def currentNode (Γ : Grammar) :
    Forest (CstItem GrammarElement) → Option InfixValue → Option (Option InfixValue)
  | .nil, current => some current
  | .cons child children rest, current =>
    if child.isHidden then currentNode Γ rest current
    else
      match child.grammarElement with
      | .parserRule _ => currentNode Γ rest (some (.operand ⟨child, children⟩))
      | .infixRule rule =>
        current.bind fun lhs =>
          (buildTypedFromCst rule (Γ.infixRule rule) ⟨child, children⟩ lhs).bind fun value =>
            currentNode Γ rest (some value)
      | _ => none

/-! ### Tokens -/

/-- The CST of a view, without the numbering. -/
def NodeView.cst (view : NodeView) : Forest (CstLabel GrammarElement) :=
  .tree view.node.label (view.children.map CstItem.label)

/-- An operator as a token: its index in the rule and its CST. -/
structure OperatorToken where
  index : ℕ
  cst : Forest (CstLabel GrammarElement)
  deriving DecidableEq

/-- An operand as a token: the CST of the primary rule. -/
structure OperandToken where
  cst : Forest (CstLabel GrammarElement)
  deriving DecidableEq

/-- The operators of a rule: the first declared binds tightest. -/
def InfixDef.table (defn : InfixDef) : OperatorTable OperatorToken where
  level op := defn.operators.length - op.index
  rightAssociative level :=
    match defn.operators[defn.operators.length - level]? with
    | some op => op.associativity = .right
    | none => false

namespace InfixValue

/-- The CST node of a value. -/
def cstNode : InfixValue → NodeView
  | operand cstNode => cstNode
  | node cstNode _ _ _ _ => cstNode

/-- The tree of operators and operands. -/
def tree : InfixValue → InfixTree OperatorToken OperandToken
  | operand cstNode => .operand ⟨cstNode.cst⟩
  | node _ left op operatorNode right => .node left.tree ⟨op, operatorNode.cst⟩ right.tree

/-- Every node of the value spans its operands. -/
def Aligned : InfixValue → Prop
  | operand _ => True
  | node cstNode left _ _ right =>
    cstNode.node.begin = left.cstNode.node.begin ∧ cstNode.node.end = right.cstNode.node.end ∧
      left.Aligned ∧ right.Aligned

end InfixValue

/-! ### The numbering -/

/-- The view of a numbered node. -/
def numberedView (base : ℕ) (l : CstLabel GrammarElement) (c : Forest (CstLabel GrammarElement)) :
    NodeView :=
  ⟨l.item base c, numbered (base + 1) c⟩

@[simp] theorem cst_numberedView (base : ℕ) (l : CstLabel GrammarElement)
    (c : Forest (CstLabel GrammarElement)) : (numberedView base l c).cst = .tree l c := by
  rw [NodeView.cst, numberedView, map_label_numbered]
  rfl

/-! ### The child loops, one child at a time -/

section Loops

variable {Γ : Grammar} {rule : ℕ} {defn : InfixDef} {base : ℕ}
variable {l : CstLabel GrammarElement} {c g : Forest (CstLabel GrammarElement)}
variable {op : NodeView} {rhs : InfixValue}

/-- Hidden leaves are skipped. -/
theorem buildOperands_hidden (pos : Position) (leaves : List (GrammarElement × ℕ × ℕ))
    (stop : ℕ) (operatorNode : Option NodeView) (rhs : Option InfixValue) :
    buildOperands rule defn (numbered base ((Match.hidden pos leaves stop).forest ++ g))
        operatorNode rhs
      = buildOperands rule defn (numbered (base + leaves.length) g) operatorNode rhs := by
  induction leaves generalizing base with
  | nil => rfl
  | cons a leaves ih =>
    have h := @ih (base + 1)
    simp only [Match.hidden, List.foldr_cons, Forest.tree, Forest.cons_append, Forest.nil_append,
      numbered, buildOperands, CstLabel.item, if_true, Forest.size_nil, Nat.add_zero,
      List.length_cons] at h ⊢
    rw [show base + (leaves.length + 1) = base + 1 + leaves.length by omega]
    exact h

theorem currentNode_hidden (pos : Position) (leaves : List (GrammarElement × ℕ × ℕ))
    (stop : ℕ) (current : Option InfixValue) :
    currentNode Γ (numbered base ((Match.hidden pos leaves stop).forest ++ g)) current
      = currentNode Γ (numbered (base + leaves.length) g) current := by
  induction leaves generalizing base with
  | nil => rfl
  | cons a leaves ih =>
    have h := @ih (base + 1)
    simp only [Match.hidden, List.foldr_cons, Forest.tree, Forest.cons_append, Forest.nil_append,
      numbered, currentNode, CstLabel.item, if_true, Forest.size_nil, Nat.add_zero,
      List.length_cons] at h ⊢
    rw [show base + (leaves.length + 1) = base + 1 + leaves.length by omega]
    exact h

theorem buildOperands_operator (hl : l.isHidden = false) :
    buildOperands rule defn (numbered base (.cons l c g)) none none
      = buildOperands rule defn (numbered (base + 1 + c.size) g) (some (numberedView base l c))
          none := by
  rw [numbered, buildOperands]
  simp [CstLabel.item, hl, numberedView]

theorem buildOperands_operand (hl : l.isHidden = false)
    (hg : l.grammarElement = .parserRule defn.primary) :
    buildOperands rule defn (numbered base (.cons l c g)) (some op) none
      = buildOperands rule defn (numbered (base + 1 + c.size) g) (some op)
          (some (.operand (numberedView base l c))) := by
  rw [numbered, buildOperands]
  simp [CstLabel.item, hl, hg, numberedView]

theorem buildOperands_infixNode (hl : l.isHidden = false)
    (hg : l.grammarElement = .infixRule rule) :
    buildOperands rule defn (numbered base (.cons l c g)) (some op) (some rhs)
      = (buildTypedFromCst rule defn (numberedView base l c) rhs).bind fun rhs =>
          buildOperands rule defn (numbered (base + 1 + c.size) g) (some op) (some rhs) := by
  rw [numbered, buildOperands, buildTypedFromCst, Option.bind_assoc]
  simp [CstLabel.item, hl, hg, numberedView]

theorem currentNode_operand {r : ℕ} {current : Option InfixValue} (hl : l.isHidden = false)
    (hg : l.grammarElement = .parserRule r) :
    currentNode Γ (numbered base (.cons l c g)) current
      = currentNode Γ (numbered (base + 1 + c.size) g)
          (some (.operand (numberedView base l c))) := by
  rw [numbered, currentNode]
  simp [CstLabel.item, hl, hg, numberedView]

theorem currentNode_infixNode (hl : l.isHidden = false) (hg : l.grammarElement = .infixRule rule) :
    currentNode Γ (numbered base (.cons l c g)) (some rhs)
      = (buildTypedFromCst rule (Γ.infixRule rule) (numberedView base l c) rhs).bind fun rhs =>
          currentNode Γ (numbered (base + 1 + c.size) g) (some rhs) := by
  rw [numbered, currentNode]
  simp [CstLabel.item, hl, hg, numberedView]

/-- The operator recorded by a node is the one whose element it is. -/
theorem assignOperatorFromNode_eq {view : NodeView} {index : ℕ}
    (h : view.node.grammarElement = .infixOperator rule index)
    (hi : index < defn.operators.length) :
    assignOperatorFromNode rule defn view = some index := by
  rw [assignOperatorFromNode, List.find?_eq_some_iff_getElem]
  refine ⟨by simp [h], index, by simpa using hi, by simp, fun j hj => ?_⟩
  simp only [List.getElem_range, h]
  simp
  omega

end Loops

end Pegium
