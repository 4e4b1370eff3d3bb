/-
Pegium/Workspace/Document.lean

Documents, their analysis, and the language that analyses them.

A document goes through the states of `DocumentState`; what each state promises
has been computed from the text the document was parsed from.  What depends on
the language (its parser, the symbols and references of an AST, its validator)
is a `Language`: the code of the workspace is the same for all of them.

An AST is identified by the parse that built it, its `generation`.  A resolved
reference holds a pointer to a node, that is a document, a generation and a
symbol; the pointer dangles once the document has been parsed again or is gone.
-/
import Mathlib.Data.List.Basic
import Mathlib.Logic.Function.Basic

namespace Pegium

/-- The progressive analysis phase reached by a document. -/
inductive DocumentState where
  | changed
  | parsed
  | indexedContent
  | computedScopes
  | linked
  | indexedReferences
  | validated
  deriving DecidableEq

/-- The position of a state in the order of the phases. -/
def DocumentState.rank : DocumentState → ℕ
  | changed => 0
  | parsed => 1
  | indexedContent => 2
  | computedScopes => 3
  | linked => 4
  | indexedReferences => 5
  | validated => 6

instance : LT DocumentState := ⟨fun a b => a.rank < b.rank⟩
instance : LE DocumentState := ⟨fun a b => a.rank ≤ b.rank⟩
instance (a b : DocumentState) : Decidable (a < b) := inferInstanceAs (Decidable (a.rank < b.rank))
instance (a b : DocumentState) : Decidable (a ≤ b) := inferInstanceAs (Decidable (a.rank ≤ b.rank))

theorem DocumentState.le_refl (a : DocumentState) : a ≤ a := Nat.le_refl _

theorem DocumentState.le_trans {a b c : DocumentState} (h : a ≤ b) (h' : b ≤ c) : a ≤ c :=
  Nat.le_trans h h'

theorem DocumentState.not_lt {a b : DocumentState} : ¬ a < b ↔ b ≤ a := Nat.not_lt

/-! ### Languages -/

/-- A reference of an AST: its text and expected type, where it stands, and the
symbols of its own document that are visible from it under that text and type,
innermost first. -/
structure ReferenceInfo where
  refText : String
  referenceType : ℕ
  isMulti : Bool
  sourceOffset : ℕ
  sourceLength : ℕ
  localEntries : List ℕ
  deriving DecidableEq

/-- An exported symbol of an AST. -/
structure ExportedSymbol where
  name : String
  type : ℕ
  symbolId : ℕ
  deriving DecidableEq

/-- What the workspace reads of an AST; its nodes are the symbols below
`symbolCount`. -/
structure Ast where
  symbolCount : ℕ
  exports : List ExportedSymbol
  references : List ReferenceInfo
  deriving DecidableEq

/-- The kinds of a linking error. -/
inductive LinkingErrorKind where
  | retryable
  | notFound
  | cycle
  | exception
  deriving DecidableEq

/-- What a validator sees of a reference. -/
inductive LinkStatus where
  | unresolved
  | resolved
  | error (kind : LinkingErrorKind)
  deriving DecidableEq

/-- The options of a validation. -/
structure ValidationOptions where
  categories : List String
  stopAfterParsingErrors : Option Bool
  stopAfterLinkingErrors : Option Bool
  deriving DecidableEq

/-- The services of a language, over texts `τ` and diagnostics `δ`. -/
structure Language (τ δ : Type) where
  parse : τ → Ast
  /-- `type_is_assignable`: the type of a symbol, and the one a reference expects. -/
  isAssignable : ℕ → ℕ → Bool
  validationCategories : List String
  validateDocument : Ast → List LinkStatus → ValidationOptions → List δ

/-- A small language: its texts are ASTs, every symbol has the type asked for, and
nothing is wrong with any document. -/
def Language.literal : Language Ast String where
  parse := id
  isAssignable _ _ := true
  validationCategories := ["built-in", "fast"]
  validateDocument _ _ _ := []

/-! ### Documents -/

/-- A pointer to a node. -/
structure Target where
  documentId : ℕ
  symbolId : ℕ
  generation : ℕ
  deriving DecidableEq

/-- The cached result of a reference; a single reference has one target. -/
inductive LinkState where
  | unresolved
  | resolved (targets : List Target)
  | error (kind : LinkingErrorKind)
  deriving DecidableEq

namespace LinkState

/-- Linking has failed. -/
def hasError : LinkState → Bool
  | error _ => true
  | _ => false

/-- The nodes a reference is linked to. -/
def targets : LinkState → List Target
  | resolved ts => ts
  | _ => []

/-- The state without its targets. -/
def status : LinkState → LinkStatus
  | unresolved => .unresolved
  | resolved _ => .resolved
  | error kind => .error kind

end LinkState

/-- A parse result: the text its CST holds, the AST, and which parse built it. -/
structure ParseResult (τ : Type) where
  cstText : τ
  ast : Ast
  generation : ℕ
  deriving DecidableEq

/-- A managed document.  `parseResult` is empty while a parse is interrupted, and
`localSymbols` says whether the local symbols of the AST are there. -/
structure Document (τ δ : Type) where
  textDocument : τ
  parseResult : Option (ParseResult τ)
  links : List LinkState
  localSymbols : Bool
  diagnostics : List δ
  state : DocumentState
  deriving DecidableEq

variable {τ δ : Type}

namespace Document

/-- The references of the AST. -/
def references (document : Document τ δ) : List ReferenceInfo :=
  match document.parseResult with
  | some result => result.ast.references
  | none => []

/-- A reference that has not been resolved yet. -/
def unresolvedReference (i : ℕ) (document : Document τ δ) : Option ReferenceInfo :=
  match document.references[i]?, document.links[i]? with
  | some reference, some .unresolved => some reference
  | _, _ => none

/-- A reference of the document is in an error state. -/
def hasLinkingError (document : Document τ δ) : Bool :=
  document.links.any LinkState.hasError

/-- `attachTextDocument` and `resetAnalysisState`: the analysis that precedes a parse. -/
def attach (text : τ) (document : Document τ δ) : Document τ δ :=
  { document with
    textDocument := text, state := .changed, parseResult := none, links := [],
    localSymbols := false, diagnostics := [] }

/-- `DefaultDocumentFactory::parse`, of the text attached to the document. -/
def parse (L : Language τ δ) (generation : ℕ) (document : Document τ δ) : Document τ δ :=
  { document with
    parseResult := some ⟨document.textDocument, L.parse document.textDocument, generation⟩,
    links := (L.parse document.textDocument).references.map fun _ => .unresolved,
    state := .parsed }

/-- `DefaultDocumentFactory::createDocument`. -/
def create (L : Language τ δ) (generation : ℕ) (text : τ) : Document τ δ :=
  parse L generation ⟨text, none, [], false, [], .changed⟩

/-- `DefaultLinker::unlink`. -/
def unlink (document : Document τ δ) : Document τ δ :=
  { document with links := document.links.map fun _ => .unresolved }

/-- What `resetToState` does to the document; its cases fall through. -/
def resetTo (state : DocumentState) (document : Document τ δ) : Document τ δ :=
  { document with
    localSymbols := if state ≤ .indexedContent then false else document.localSymbols,
    links := if state ≤ .computedScopes then document.unlink.links else document.links,
    diagnostics := if state ≤ .indexedReferences then [] else document.diagnostics,
    state := if state < document.state then state else document.state }

theorem resetTo_state_le (state : DocumentState) (document : Document τ δ) :
    (document.resetTo state).state ≤ document.state := by
  show (if state < document.state then state else document.state) ≤ document.state
  split
  · exact Nat.le_of_lt ‹_›
  · exact DocumentState.le_refl _

end Document

end Pegium
