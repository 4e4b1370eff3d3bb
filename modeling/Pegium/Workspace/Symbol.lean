/-
Pegium/Workspace/Symbol.lean

Descriptions of symbols and references.

An exported symbol has a name, a type, and the identity of its node; an indexed
reference has its place in the source and, once resolved, the identity of its
target.  Ids are numbers, of which the largest 32-bit one is invalid.
-/
import Pegium.SyntaxTree.AstReflection

namespace Pegium.Symbol

/-- The identifier that names no document. -/
def InvalidDocumentId : ℕ := 4294967295

/-- The identifier that names no symbol. -/
def InvalidSymbolId : ℕ := 4294967295

/-- An exported symbol. -/
structure AstNodeDescription where
  name : String
  type : TypeIndex := .void
  documentId : ℕ := InvalidDocumentId
  symbolId : ℕ := InvalidSymbolId
  deriving DecidableEq

/-- The identity of a node across the workspace. -/
structure NodeKey where
  documentId : ℕ := InvalidDocumentId
  symbolId : ℕ := InvalidSymbolId
  deriving DecidableEq

/-- The key names no node. -/
def NodeKey.empty (key : NodeKey) : Bool :=
  key.documentId = InvalidDocumentId || key.symbolId = InvalidSymbolId

/-- An indexed reference. -/
structure ReferenceDescription where
  sourceDocumentId : ℕ := InvalidDocumentId
  sourceOffset : ℕ := 0
  sourceLength : ℕ := 0
  «local» : Bool := false
  multiReference : Bool := false
  targetDocumentId : Option ℕ := none
  targetSymbolId : Option ℕ := none
  deriving DecidableEq

namespace ReferenceDescription

/-- The node a reference goes to. -/
def targetKey (reference : ReferenceDescription) : Option NodeKey :=
  match reference.targetDocumentId, reference.targetSymbolId with
  | some documentId, some symbolId =>
    if documentId ≠ InvalidDocumentId ∧ symbolId ≠ InvalidSymbolId then
      some ⟨documentId, symbolId⟩
    else none
  | _, _ => none

/-- A target is a node. -/
theorem not_empty_of_targetKey {reference : ReferenceDescription} {key : NodeKey}
    (h : reference.targetKey = some key) : key.empty = false := by
  unfold targetKey at h
  split at h
  · split at h
    next hvalid =>
      cases h
      simp [NodeKey.empty, hvalid.1, hvalid.2]
    next => cases h
  · cases h

end ReferenceDescription

end Pegium.Symbol
