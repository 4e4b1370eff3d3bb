/-
Pegium/Parser/ParserRuleSupport.lean

Materialising the AST of a parser rule.

The value of a rule is built from the children of its CST node, from left to
right.  An assignment child waits: it is executed on the object that is current
at the next nest or infix child, or at the end of the rule.  The other children
change the current object: a create child and an unassigned rule call replace it,
a nest child and an infix child put it under a new one.

The value of an assignment is itself built when the assignment is executed, so a
waiting assignment keeps the function that builds its value.
-/
import Pegium.SyntaxTree.AstNode

namespace Pegium

/-! ### Grammar elements -/

/-- How an assignment reads its value: from the rule its element calls, from the
choice its element selected, or from text. -/
inductive AssignedElement (G : Type*) where
  | parserRule
  | orderedChoice (choices : List G)
  | data
  deriving DecidableEq

/-- The kinds of grammar elements that the value builder tells apart. -/
inductive ElementKind (G : Type*) where
  | assignment (feature : String) (element : AssignedElement G)
  | create
  | nest
  | parserRule
  | infixRule (primary : G) (operators : List G)
  | other
  deriving DecidableEq

/-- What the value builder reads of the grammar elements.  The operands of an
infix rule are rule calls, and its operators are none of the kinds above. -/
structure AstGrammar (G : Type*) where
  kind : G → ElementKind G
  primary_kind : ∀ g primary operators, kind g = .infixRule primary operators →
    kind primary = .parserRule
  operator_kind : ∀ g primary operators, kind g = .infixRule primary operators →
    ∀ op ∈ operators, kind op = .other

/-! ### Waiting assignments -/

/-- An assignment that waits, the id of its CST node, and what its execution
computes: the object it assigns, `none` when the value is not an AST node. -/
structure PendingAssignment (G : Type*) where
  assignment : G
  nodeId : ℕ
  value : AstArena G → Option (Option ℕ × AstArena G)

/-- An assignment executed on an object. -/
structure Execution (G : Type*) where
  target : ℕ
  assignment : G
  nodeId : ℕ
  deriving DecidableEq

/-- The state of the child loop.  The first eight waiting assignments are kept
apart from the further ones; `executed` lists the assignments the loop has
executed. -/
structure BuildState (G : Type*) where
  arena : AstArena G
  currentNode : Option ℕ
  pendingInline : List (PendingAssignment G)
  pendingOverflow : List (PendingAssignment G)
  executed : List (Execution G)

namespace BuildState

variable {G : Type*}

/-- The state before the first child. -/
def initial (arena : AstArena G) : BuildState G := ⟨arena, none, [], [], []⟩

def addPendingAssignment (s : BuildState G) (e : PendingAssignment G) : BuildState G :=
  if s.pendingInline.length < 8 then { s with pendingInline := s.pendingInline ++ [e] }
  else { s with pendingOverflow := s.pendingOverflow ++ [e] }

/-- Attach an assigned value when it is an object. -/
def attachValue (target : ℕ) (value : Option ℕ × AstArena G) : Option (AstArena G) :=
  match value.1 with
  | none => some value.2
  | some child => value.2.setContainer child target

/-- `Assignment::execute`: compute the value and assign it. -/
def execute (target : ℕ) (e : PendingAssignment G) (s : BuildState G) : Option (BuildState G) :=
  (e.value s.arena).bind fun value =>
    (attachValue target value).map fun arena =>
      { s with
        arena := arena.record target (e.assignment, e.nodeId)
        executed := s.executed ++ [⟨target, e.assignment, e.nodeId⟩] }

/-- Execute assignments one after the other. -/
def executeAll (target : ℕ) :
    List (PendingAssignment G) → BuildState G → Option (BuildState G)
  | [], s => some s
  | e :: es, s => (s.execute target e).bind (executeAll target es)

/-- Execute the waiting assignments on the current object, which the source
asserts there is when there are any. -/
def applyPendingAssignments (s : BuildState G) : Option (BuildState G) :=
  match s.pendingInline ++ s.pendingOverflow with
  | [] => some s
  | e :: es => s.currentNode.bind fun target => executeAll target (e :: es) s

def applyAndClearPendingAssignments (s : BuildState G) : Option (BuildState G) :=
  s.applyPendingAssignments.map fun s => { s with pendingInline := [], pendingOverflow := [] }

/-- Make a new object of the rule the current one. -/
def createCurrent (s : BuildState G) (node : CstSubtree G) : BuildState G :=
  let created := s.arena.create node
  { s with arena := created.2, currentNode := some created.1 }

/-- Create the object of the rule when there is no current object. -/
def ensureCurrent (s : BuildState G) (node : CstSubtree G) : BuildState G :=
  match s.currentNode with
  | some _ => s
  | none => s.createCurrent node

/-- `Nest::getValue`: a new object that has the current one as a child. -/
def nestCurrent (s : BuildState G) (node : CstSubtree G) : Option (BuildState G) :=
  s.currentNode.bind fun previous =>
    ((s.createCurrent node).arena.setContainer previous s.arena.size).map fun arena =>
      { s.createCurrent node with arena := arena }

/-- What comes after the last child: the object of the rule. -/
def finish (s : BuildState G) (node : CstSubtree G) : Option (BuildState G) :=
  (s.ensureCurrent node).applyPendingAssignments

end BuildState

/-! ### The value of a rule -/

/-- A function that builds an object in an arena. -/
abbrev ValueBuilder (G : Type*) := AstArena G → Option (ℕ × AstArena G)

/-- `get_raw_value` around its child loop. -/
def ruleValue {G : Type*} (node : CstSubtree G) (loop : BuildState G → Option (BuildState G)) :
    ValueBuilder G := fun arena =>
  if node.node.isLeaf then some (arena.create node)
  else
    ((loop (.initial arena)).bind fun s => s.finish node).bind fun s =>
      s.currentNode.map fun object => (object, s.arena)

/-- `createNode`: the object of an infix node over its operands. -/
def createInfixNode {G : Type*} [DecidableEq G] (cstNode : CstSubtree G) (operators : List G)
    (left : ℕ) (operatorNode : CstItem G) (right : ℕ) : ValueBuilder G := fun arena =>
  let created := arena.create cstNode
  (created.2.setContainer left created.1).bind fun arena =>
    if operatorNode.grammarElement ∈ operators then
      (arena.setContainer right created.1).map fun arena => (created.1, arena)
    else none

/-- Some node below, or the node itself, is recovered. -/
def containsRecovery {G : Type*} (node : CstSubtree G) : Bool :=
  node.node.isRecovered || node.children.preorder.any CstItem.isRecovered

namespace AstGrammar

variable {G : Type*} [DecidableEq G] (Γ : AstGrammar G)

mutual

/-- The child loop of `get_raw_value` at `node`. -/
def childLoop (node : CstSubtree G) : Forest (CstItem G) → BuildState G → Option (BuildState G)
  | .nil, s => some s
  | .cons child below rest, s =>
    if child.isHidden then childLoop node rest s
    else
      match Γ.kind child.grammarElement with
      | .assignment _ element =>
        childLoop node rest <| s.addPendingAssignment
          { assignment := child.grammarElement
            nodeId := child.id
            value := fun arena =>
              match element with
              | .parserRule =>
                (ruleValue ⟨child, below⟩ (childLoop ⟨child, below⟩ below) arena).map fun value =>
                  (some value.1, value.2)
              | .orderedChoice choices =>
                selectedValue choices (containsRecovery ⟨child, below⟩) below arena
              | .data => some (none, arena) }
      | .create => childLoop node rest (s.createCurrent node)
      | .nest =>
        (s.ensureCurrent node).applyAndClearPendingAssignments.bind fun s =>
          (s.nestCurrent node).bind (childLoop node rest)
      | .parserRule =>
        (ruleValue ⟨child, below⟩ (childLoop ⟨child, below⟩ below) s.arena).bind fun value =>
          childLoop node rest { s with arena := value.2, currentNode := some value.1 }
      | .infixRule primary operators =>
        s.applyAndClearPendingAssignments.bind fun s =>
          s.currentNode.bind fun lhs =>
            (operandLoop child.grammarElement primary operators below none none s.arena).bind
              fun read =>
                (createInfixNode ⟨child, below⟩ operators lhs read.1 read.2.1 read.2.2).bind
                  fun value =>
                    childLoop node rest { s with arena := value.2, currentNode := some value.1 }
      | .other => childLoop node rest s

/-- The child loop of `buildTypedFromCst`: the operator and the right operand. -/
def operandLoop (owner primary : G) (operators : List G) :
    Forest (CstItem G) → Option (CstItem G) → Option ℕ → AstArena G →
      Option (CstItem G × ℕ × AstArena G)
  | .nil, operatorNode, rhs, arena =>
    operatorNode.bind fun op => rhs.map fun rhs => (op, rhs, arena)
  | .cons child below rest, operatorNode, rhs, arena =>
    if child.isHidden then operandLoop owner primary operators rest operatorNode rhs arena
    else
      match operatorNode, rhs with
      | none, rhs => operandLoop owner primary operators rest (some child) rhs arena
      | some op, none =>
        if child.grammarElement = primary then
          (ruleValue ⟨child, below⟩ (childLoop ⟨child, below⟩ below) arena).bind fun value =>
            operandLoop owner primary operators rest (some op) (some value.1) value.2
        else none
      | some op, some lhs =>
        if child.grammarElement = owner then
          (operandLoop owner primary operators below none none arena).bind fun read =>
            (createInfixNode ⟨child, below⟩ operators lhs read.1 read.2.1 read.2.2).bind
              fun value => operandLoop owner primary operators rest (some op) (some value.1) value.2
        else none

/-- `assign_ordered_choice_value`: the value of the choice selected among the
children.  Without one the source throws, unless the node contains a recovery. -/
def selectedValue (choices : List G) (recovered : Bool) :
    Forest (CstItem G) → AstArena G → Option (Option ℕ × AstArena G)
  | .nil, arena => if recovered then some (none, arena) else none
  | .cons child below rest, arena =>
    if child.isHidden then selectedValue choices recovered rest arena
    else if child.grammarElement ∈ choices then
      match Γ.kind child.grammarElement with
      | .parserRule =>
        (ruleValue ⟨child, below⟩ (childLoop ⟨child, below⟩ below) arena).map fun value =>
          (some value.1, value.2)
      | _ => some (none, arena)
    else selectedValue choices recovered rest arena

end

/-- `get_raw_value`. -/
def get_raw_value (node : CstSubtree G) : ValueBuilder G :=
  ruleValue node (Γ.childLoop node node.children)

end AstGrammar

end Pegium
