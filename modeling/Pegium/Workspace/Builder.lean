/-
Pegium/Workspace/Builder.lean

The workspace: its documents, the index, the linker, and what the document
builder does to one document at a time.

Document ids are numbers handed out in order, so a map over ids is a function,
and the index enumerates the ids below the next one.  A URI has one id for ever,
also when its document is gone; so ids stand for the URIs.
-/
import Pegium.Workspace.Document

namespace Pegium

open Function (update)

/-- An exported symbol, as the index holds it. -/
structure AstNodeDescription where
  name : String
  type : ℕ
  documentId : ℕ
  symbolId : ℕ
  deriving DecidableEq

/-- A symbol of a document. -/
structure NodeKey where
  documentId : ℕ
  symbolId : ℕ
  deriving DecidableEq

/-- The node a description stands for. -/
def AstNodeDescription.key (description : AstNodeDescription) : NodeKey :=
  ⟨description.documentId, description.symbolId⟩

/-- A resolved reference, as the index holds it. -/
structure ReferenceDescription where
  sourceDocumentId : ℕ
  sourceOffset : ℕ
  sourceLength : ℕ
  isLocal : Bool
  multiReference : Bool
  targetDocumentId : ℕ
  targetSymbolId : ℕ
  deriving DecidableEq

/-- The validation asked of a build: nothing said, on or off, or options. -/
inductive BuildValidationOption where
  | unset
  | enabled (value : Bool)
  | options (options : ValidationOptions)
  deriving DecidableEq

/-- The options of a build. -/
structure BuildOptions where
  eagerLinking : Option Bool
  validation : BuildValidationOption
  deriving DecidableEq

/-- `result` holds the validation checks that ran. -/
structure DocumentBuildState where
  completed : Bool
  options : BuildOptions
  result : Option (List String)
  deriving DecidableEq

/-- `is_validation_enabled`. -/
def BuildValidationOption.isEnabled : BuildValidationOption → Bool
  | unset => false
  | enabled value => value
  | options _ => true

/-- The state of a workspace.  `textDocuments` has the texts of the documents that
are open in the client, `files` those on disk. -/
structure Workspace (τ δ : Type) where
  textDocuments : ℕ → Option τ
  files : ℕ → τ
  nextDocumentId : ℕ
  documents : ℕ → Option (Document τ δ)
  exportsByDocument : ℕ → Option (List AstNodeDescription)
  referencesByDocument : ℕ → Option (List ReferenceDescription)
  globalScopeCache : ℕ → Option (List AstNodeDescription)
  buildStateByDocumentId : ℕ → Option DocumentBuildState
  nextGeneration : ℕ

variable {τ δ : Type}

namespace Workspace

/-- A workspace without documents. -/
def empty (files : ℕ → τ) : Workspace τ δ :=
  { textDocuments := fun _ => none
    files := files
    nextDocumentId := 0
    documents := fun _ => none
    exportsByDocument := fun _ => none
    referencesByDocument := fun _ => none
    globalScopeCache := fun _ => none
    buildStateByDocumentId := fun _ => none
    nextGeneration := 0 }

/-- The text a parse reads: that of the client, or else the file. -/
def latestText (w : Workspace τ δ) (d : ℕ) : τ := (w.textDocuments d).getD (w.files d)

/-- The ids of the documents in the store. -/
def all (w : Workspace τ δ) : List ℕ :=
  (List.range w.nextDocumentId).filter fun d => (w.documents d).isSome

/-- The document with this id, changed. -/
def mapDocument (d : ℕ) (f : Document τ δ → Document τ δ) (w : Workspace τ δ) : Workspace τ δ :=
  { w with documents := update w.documents d ((w.documents d).map f) }

/-! ### The index -/

/-- `collectExportedSymbols`. -/
def exportedSymbols (d : ℕ) (ast : Ast) : List AstNodeDescription :=
  ast.exports.map fun symbol => ⟨symbol.name, symbol.type, d, symbol.symbolId⟩

/-- `updateContent`. -/
def updateContent (d : ℕ) (w : Workspace τ δ) : Workspace τ δ :=
  { w with
    exportsByDocument := update w.exportsByDocument d
      (some ((((w.documents d).bind (·.parseResult)).map
        fun result => exportedSymbols d result.ast).getD [])) }

/-- The exported symbols of a type, by document id and then in their own order. -/
def allElements (L : Language τ δ) (type : ℕ) (w : Workspace τ δ) : List AstNodeDescription :=
  (List.range w.nextDocumentId).flatMap fun d =>
    ((w.exportsByDocument d).getD []).filter fun e => L.isAssignable e.type type

/-- `createDescriptions`: one for each target of a resolved reference with a text. -/
def createDescriptions (d : ℕ) (document : Document τ δ) : List ReferenceDescription :=
  (document.references.zip document.links).flatMap fun (reference, link) =>
    if reference.refText = "" then []
    else link.targets.map fun target =>
      { sourceDocumentId := d
        sourceOffset := reference.sourceOffset
        sourceLength := reference.sourceLength
        isLocal := d == target.documentId
        multiReference := reference.isMulti
        targetDocumentId := target.documentId
        targetSymbolId := target.symbolId }

/-- `updateReferences`. -/
def updateReferences (d : ℕ) (w : Workspace τ δ) : Workspace τ δ :=
  { w with
    referencesByDocument := update w.referencesByDocument d
      (some (((w.documents d).map (createDescriptions d)).getD [])) }

/-- An indexed reference leads from the document into one of the changed ones. -/
def isAffected (changed : List ℕ) (d : ℕ) (w : Workspace τ δ) : Bool :=
  ((w.referencesByDocument d).getD []).any fun reference =>
    !reference.isLocal && changed.contains reference.targetDocumentId

/-! ### Scopes and the linker -/

/-- `getGlobalEntries`, from the cache when it is there. -/
def getGlobalEntries (L : Language τ δ) (type : ℕ) (w : Workspace τ δ) :
    List AstNodeDescription :=
  (w.globalScopeCache type).getD (w.allElements L type)

/-- The local symbols a reference sees. -/
def localEntries (d : ℕ) (document : Document τ δ) (reference : ReferenceInfo) : List NodeKey :=
  if document.localSymbols then reference.localEntries.map (NodeKey.mk d) else []

/-- `visitScopeEntries`: the local symbols, then the exported ones of that name (all
of them under the empty text); each symbol once. -/
def getCandidates (locals : List NodeKey) (globals : List AstNodeDescription)
    (reference : ReferenceInfo) : List NodeKey :=
  (locals ++ (globals.filter fun e =>
    reference.refText == "" || e.name == reference.refText).map (·.key)).eraseDups

/-- `getScopeEntry`: the innermost local symbol, or else the first exported one. -/
def getScopeEntry (locals : List NodeKey) (globals : List AstNodeDescription)
    (reference : ReferenceInfo) : Option NodeKey :=
  if reference.refText = "" then none
  else locals.head?.or ((globals.find? fun e => e.name == reference.refText).map (·.key))

/-- What the linker finds for a reference. -/
def candidates (locals : List NodeKey) (globals : List AstNodeDescription)
    (reference : ReferenceInfo) : List NodeKey :=
  if reference.isMulti then getCandidates locals globals reference
  else (getScopeEntry locals globals reference).toList

/-- The lookup of a reference gets as far as the exported symbols. -/
def asksGlobalScope (locals : List NodeKey) (reference : ReferenceInfo) : Bool :=
  reference.isMulti || (reference.refText != "" && locals.isEmpty)

/-- `resolve_ast_node`: the node, when the document and its symbol are there. -/
def resolveAstNode (w : Workspace τ δ) (key : NodeKey) : Option Target :=
  (w.documents key.documentId).bind fun document => document.parseResult.bind fun result =>
    if key.symbolId < result.ast.symbolCount
    then some ⟨key.documentId, key.symbolId, result.generation⟩
    else none

/-- `resolve` and `resolveAll`.  A reference that finds nothing before its document
has its scopes stays unresolved, to be tried again. -/
def linkState (L : Language τ δ) (d : ℕ) (document : Document τ δ) (reference : ReferenceInfo)
    (w : Workspace τ δ) : LinkState :=
  match candidates (localEntries d document reference)
      (w.getGlobalEntries L reference.referenceType) reference with
  | [] => if document.state < .computedScopes then .unresolved else .error .notFound
  | keys =>
    match keys.mapM w.resolveAstNode with
    | some targets => .resolved targets
    | none => .error .exception

/-- A reference of a document, resolved. -/
def resolveLink (L : Language τ δ) (d i : ℕ) (w : Workspace τ δ) (document : Document τ δ) :
    Document τ δ :=
  match document.unresolvedReference i with
  | some reference =>
    { document with links := document.links.set i (w.linkState L d document reference) }
  | none => document

/-- The type whose exported symbols the lookup of a reference asks for. -/
def askedType (d i : ℕ) (w : Workspace τ δ) : Option ℕ :=
  (w.documents d).bind fun document => (document.unresolvedReference i).bind fun reference =>
    if asksGlobalScope (localEntries d document reference) reference
    then some reference.referenceType
    else none

/-- `forceResolve` of one reference of a document; the exported symbols it asks for are
cached. -/
def resolve (L : Language τ δ) (d i : ℕ) (w : Workspace τ δ) : Workspace τ δ :=
  { w.mapDocument d (w.resolveLink L d i) with
    globalScopeCache :=
      match w.askedType d i with
      | some type => update w.globalScopeCache type (some (w.getGlobalEntries L type))
      | none => w.globalScopeCache }

/-! ### Build states -/

/-- `getBuildOptions`. -/
def getBuildOptions (d : ℕ) (w : Workspace τ δ) : BuildOptions :=
  ((w.buildStateByDocumentId d).map (·.options)).getD ⟨none, .unset⟩

/-- Documents are linked unless the options say otherwise. -/
def shouldLink (d : ℕ) (w : Workspace τ δ) : Bool :=
  (w.getBuildOptions d).eagerLinking.getD true

/-- Whether the options ask for a validation. -/
def shouldValidate (d : ℕ) (w : Workspace τ δ) : Bool :=
  (w.getBuildOptions d).validation.isEnabled

/-- The categories already run: those recorded, or all of them for a completed build
that recorded none. -/
def executedCategories (L : Language τ δ) (state : Option DocumentBuildState) : List String :=
  match state with
  | none => []
  | some state =>
    match state.result.getD [] with
    | [] => if state.completed then L.validationCategories else []
    | checks => checks

/-- The categories that build options ask for; an empty list of options means all. -/
def requestedCategories (L : Language τ δ) : BuildValidationOption → List String
  | .unset => []
  | .enabled value => if value then L.validationCategories else []
  | .options options =>
    if options.categories.isEmpty then L.validationCategories else options.categories

/-- `findMissingValidationCategories`. -/
def findMissing (L : Language τ δ) (d : ℕ) (options : BuildOptions) (w : Workspace τ δ) :
    List String :=
  (requestedCategories L options.validation).filter fun category =>
    !(executedCategories L (w.buildStateByDocumentId d)).contains category

/-- `prepareBuild`: an unfinished build keeps its options. -/
def prepareBuild (documents : List ℕ) (options : BuildOptions) (w : Workspace τ δ) :
    Workspace τ δ :=
  { w with
    buildStateByDocumentId := fun d =>
      if d ∈ documents then
        match w.buildStateByDocumentId d with
        | none => some ⟨false, options, none⟩
        | some state => if state.completed then some ⟨false, options, state.result⟩ else some state
      else w.buildStateByDocumentId d }

/-- `markAsCompleted`, of several documents. -/
def markAsCompleted (documents : List ℕ) (w : Workspace τ δ) : Workspace τ δ :=
  { w with
    buildStateByDocumentId := fun d =>
      if d ∈ documents then
        (w.buildStateByDocumentId d).map fun state => { state with completed := true }
      else w.buildStateByDocumentId d }

/-- The validation options of a build, with these categories. -/
def validationOptions (option : BuildValidationOption) (categories : List String) :
    ValidationOptions :=
  match option with
  | .options options => { options with categories := categories }
  | _ => ⟨categories, none, none⟩

/-- The recorded checks, with the categories that are new. -/
def recordChecks (checks categories : List String) : List String :=
  categories.foldl (fun checks category =>
    if category ∈ checks then checks else checks ++ [category]) checks

/-! ### The steps of a build, one document at a time -/

/-- Attach the latest text and drop the old analysis. -/
def attach (d : ℕ) (w : Workspace τ δ) : Workspace τ δ :=
  w.mapDocument d (Document.attach (w.latestText d))

/-- Parse the attached text. -/
def parse (L : Language τ δ) (d : ℕ) (w : Workspace τ δ) : Workspace τ δ :=
  { w.mapDocument d (Document.parse L w.nextGeneration) with
    nextGeneration := w.nextGeneration + 1 }

/-- `advance`. -/
def advance (d : ℕ) (state : DocumentState) (w : Workspace τ δ) : Workspace τ δ :=
  w.mapDocument d fun document => { document with state := state }

/-- `collectLocalSymbols`. -/
def computeScopes (d : ℕ) (w : Workspace τ δ) : Workspace τ δ :=
  w.mapDocument d fun document => { document with localSymbols := true, state := .computedScopes }

/-- What the validator says of a document. -/
def validateDocument (L : Language τ δ) (document : Document τ δ) (options : ValidationOptions) :
    List δ :=
  match document.parseResult with
  | some result => L.validateDocument result.ast (document.links.map LinkState.status) options
  | none => []

/-- `validate` and `markAsCompleted`: the diagnostics of the missing categories come
after those that are there. -/
def validate (L : Language τ δ) (d : ℕ) (w : Workspace τ δ) : Workspace τ δ :=
  let options := w.getBuildOptions d
  let categories := w.findMissing L d options
  let state := (w.buildStateByDocumentId d).getD ⟨false, ⟨none, .unset⟩, none⟩
  { w.mapDocument d fun document =>
      { document with
        diagnostics := document.diagnostics ++
          validateDocument L document (validationOptions options.validation categories)
        state := .validated } with
    buildStateByDocumentId := update w.buildStateByDocumentId d (some
      { state with
        completed := true
        result := some (recordChecks (state.result.getD []) categories) }) }

/-! ### What an update and a build reset -/

/-- `resetToState`; its cases fall through. -/
def resetToState (d : ℕ) (state : DocumentState) (w : Workspace τ δ) : Workspace τ δ :=
  { w.mapDocument d (Document.resetTo state) with
    exportsByDocument :=
      if state ≤ .parsed then update w.exportsByDocument d none else w.exportsByDocument
    referencesByDocument :=
      if state ≤ .linked then update w.referencesByDocument d none else w.referencesByDocument
    buildStateByDocumentId :=
      if state ≤ .indexedReferences then update w.buildStateByDocumentId d none
      else w.buildStateByDocumentId }

/-- `cleanUpDeleted` and `deleteDocument`. -/
def deleteDocument (d : ℕ) (w : Workspace τ δ) : Workspace τ δ :=
  { w with
    documents := update w.documents d none
    exportsByDocument := update w.exportsByDocument d none
    referencesByDocument := update w.referencesByDocument d none
    buildStateByDocumentId := update w.buildStateByDocumentId d none }

/-- `getOrCreateDocument`, of an id that has a URI. -/
def getOrCreateDocument (L : Language τ δ) (d : ℕ) (w : Workspace τ δ) : Workspace τ δ :=
  match w.documents d with
  | some _ => w
  | none =>
    if d < w.nextDocumentId then
      { w with
        documents := update w.documents d
          (some (Document.create L w.nextGeneration (w.latestText d)))
        nextGeneration := w.nextGeneration + 1 }
    else w

/-- An update resets a changed document, or creates it; an id without a URI is skipped. -/
def changeDocument (L : Language τ δ) (d : ℕ) (w : Workspace τ δ) : Workspace τ δ :=
  let w' := w.getOrCreateDocument L d
  if (w'.documents d).isSome then w'.resetToState d .changed else w'

/-- `shouldRelink`. -/
def shouldRelink (changed : List ℕ) (d : ℕ) (w : Workspace τ δ) : Bool :=
  ((w.documents d).map Document.hasLinkingError).getD false || w.isAffected changed d

/-- An update relinks a document that is not changed itself. -/
def relinkDocument (changed : List ℕ) (d : ℕ) (w : Workspace τ δ) : Workspace τ δ :=
  if d ∉ changed && w.shouldRelink changed d then w.resetToState d .computedScopes else w

/-- `emitUpdate`, as far as the workspace listens to it. -/
def emitUpdate (w : Workspace τ δ) : Workspace τ δ :=
  { w with globalScopeCache := fun _ => none }

/-- The documents an update builds. -/
def documentsToBuild (L : Language τ δ) (options : BuildOptions) (w : Workspace τ δ) : List ℕ :=
  w.all.filter fun d =>
    ((w.documents d).map fun document => decide (document.state < .validated)).getD false
      || !((w.buildStateByDocumentId d).map (·.completed)).getD false
      || !(w.findMissing L d options).isEmpty

/-- What `build` does to a document before the phases. -/
def reopenBuild (L : Language τ δ) (options : BuildOptions) (w : Workspace τ δ) (d : ℕ) :
    Workspace τ δ :=
  match w.documents d with
  | none => w
  | some document =>
    if document.state = .validated then
      match options.validation with
      | .enabled true => w.resetToState d .indexedReferences
      | .options _ =>
        match w.findMissing L d options with
        | [] => w
        | categories =>
          { w.advance d .indexedReferences with
            buildStateByDocumentId := update w.buildStateByDocumentId d (some
              { completed := false
                options := ⟨none, .options ⟨categories, none, none⟩⟩
                result := (w.buildStateByDocumentId d).bind (·.result) }) }
      | _ => w
    else { w with buildStateByDocumentId := update w.buildStateByDocumentId d none }

end Workspace

end Pegium
