/-
Pegium/Workspace/DefaultDocuments.lean

The registry of managed documents.

Four tables: the documents by the segments of their URI, the documents by their id,
and the ids and the URIs by each other.  The trie is asked with normalized URIs and
normalizes them again, which changes nothing (`UriTrie.find_eq` and its like).

A call either throws, and then nothing has changed, or gives a result and the changed
registry; `documentsMachine` performs calls one after the other.
-/
import Mathlib.Algebra.GroupWithZero.Nat
import Mathlib.Logic.Function.Basic
import Pegium.General.Machine
import Pegium.General.Trie
import Pegium.Workspace.Document
import Pegium.Workspace.UriUtils

namespace Pegium

open Function (update)

/-- A managed document: which object it is, and its URI, which is constant. -/
structure ManagedDocument where
  object : ℕ
  uri : Uri
  deriving DecidableEq

/-! ### The trie of URIs -/

namespace UriTrie

variable {τ : Type} (fs : FileSystem)

/-- Put an element at a URI. -/
def insert (uri : Uri) (element : τ) (t : Trie (List UInt8) τ) :
    Except StoreError (Trie (List UInt8) τ) := do
  return t.insert element (splitSegments (← normalize_uri fs uri))

/-- Drop a URI with all that is below it. -/
def erase (uri : Uri) (t : Trie (List UInt8) τ) : Except StoreError (Trie (List UInt8) τ) := do
  return t.erase (splitSegments (← normalize_uri fs uri))

/-- The element at a URI. -/
def find (uri : Uri) (t : Trie (List UInt8) τ) : Except StoreError (Option τ) := do
  return t.find (splitSegments (← normalize_uri fs uri))

/-- Whether something stands at a URI. -/
def has (uri : Uri) (t : Trie (List UInt8) τ) : Except StoreError Bool := do
  return (t.find (splitSegments (← normalize_uri fs uri))).isSome

/-- The elements at a URI and below it. -/
def findAll (uri : Uri) (t : Trie (List UInt8) τ) : Except StoreError (List τ) := do
  return t.findAll (splitSegments (← normalize_uri fs uri))

variable {fs} {uri : Uri} (h : normalize_uri fs uri = .ok uri) (t : Trie (List UInt8) τ)
include h

theorem insert_eq (element : τ) :
    insert fs uri element t = .ok (t.insert element (splitSegments uri)) := by
  rw [insert, h]
  rfl

theorem erase_eq : erase fs uri t = .ok (t.erase (splitSegments uri)) := by
  rw [erase, h]
  rfl

theorem find_eq : find fs uri t = .ok (t.find (splitSegments uri)) := by
  rw [find, h]
  rfl

theorem has_eq : has fs uri t = .ok (t.find (splitSegments uri)).isSome := by
  rw [has, h]
  rfl

theorem findAll_eq : findAll fs uri t = .ok (t.findAll (splitSegments uri)) := by
  rw [findAll, h]
  rfl

end UriTrie

/-! ### The registry -/

/-- `InvalidDocumentId`. -/
def invalidDocumentId : ℕ := 4294967295

/-- The tables of the registry, and what it writes into the documents: their id and
their state. -/
structure DefaultDocuments where
  documents : Trie (List UInt8) ManagedDocument := Trie.empty
  documentsById : ℕ → Option ManagedDocument := fun _ => none
  documentIdsByUri : Uri → Option ℕ := fun _ => none
  documentUrisById : ℕ → Option Uri := fun _ => none
  nextDocumentId : ℕ := 1
  id : ManagedDocument → ℕ := fun _ => invalidDocumentId
  state : ManagedDocument → DocumentState := fun _ => .changed

namespace DefaultDocuments

variable (fs : FileSystem) (s : DefaultDocuments)

/-! #### Lookup -/

/-- The identifier of a URI, if it was ever handed out. -/
def getDocumentId (uri : Uri) : Except StoreError ℕ := do
  let normalizedUri ← normalize_uri fs uri
  if normalizedUri = [] then return invalidDocumentId
  else return (s.documentIdsByUri normalizedUri).getD invalidDocumentId

/-- Whether a document is registered under a URI. -/
def hasDocument (uri : Uri) : Except StoreError Bool := do
  let normalizedUri ← normalize_uri fs uri
  if normalizedUri = [] then return false
  else UriTrie.has fs normalizedUri s.documents

/-- The document registered under a URI. -/
def getDocument (uri : Uri) : Except StoreError (Option ManagedDocument) := do
  let normalizedUri ← normalize_uri fs uri
  if normalizedUri = [] then return none
  else UriTrie.find fs normalizedUri s.documents

/-- `getDocument(DocumentId)`. -/
def getDocumentById (id : ℕ) : Option ManagedDocument :=
  if id = invalidDocumentId then none else s.documentsById id

/-- The URI of an identifier. -/
def getDocumentUri (id : ℕ) : Uri :=
  if id = invalidDocumentId then [] else (s.documentUrisById id).getD []

/-- The documents at a URI and below it. -/
def getDocuments (uri : Uri) : Except StoreError (List ManagedDocument) := do
  let normalizedUri ← normalize_uri fs uri
  if normalizedUri = [] then return []
  else UriTrie.findAll fs normalizedUri s.documents

/-- All registered documents. -/
def all : List ManagedDocument := s.documents.values

/-! #### Changes -/

/-- The id of a URI, a new one if it has none.  The counter is an `uint32_t`. -/
def ensureDocumentIdLocked (uri : Uri) : ℕ × DefaultDocuments :=
  match s.documentIdsByUri uri with
  | some id => (id, s)
  | none =>
    let id := s.nextDocumentId
    (id, { s with
      nextDocumentId := (id + 1) % 2 ^ 32
      documentIdsByUri := update s.documentIdsByUri uri (some id)
      documentUrisById :=
        if (s.documentUrisById id).isSome then s.documentUrisById
        else update s.documentUrisById id (some uri) })

/-- Register a document under its URI and its identifier. -/
def addDocumentLocked (document : ManagedDocument) :
    Except StoreError (ManagedDocument × DefaultDocuments) := do
  let (id, s) := s.ensureDocumentIdLocked document.uri
  let documents ← UriTrie.insert fs document.uri document s.documents
  return (document, { s with
    id := update s.id document id
    documents := documents
    documentsById := update s.documentsById id (some document) })

/-- Take a document out of the trie and out of its identifier. -/
def deleteDocumentLocked (normalizedUri : Uri) :
    Except StoreError (Option ManagedDocument × DefaultDocuments) := do
  match ← UriTrie.find fs normalizedUri s.documents with
  | none => return (none, s)
  | some document =>
    let documents ← UriTrie.erase fs normalizedUri s.documents
    return (some document, { s with
      state := update s.state document .changed
      documentsById := update s.documentsById (s.id document) none
      documents := documents })

/-- A document is added under a normalized URI that is free. -/
def addDocument (document : ManagedDocument) : Except StoreError DefaultDocuments := do
  if document.uri = [] then .error (.store "Cannot add a document without URI.")
  else if document.uri ≠ (← normalize_uri fs document.uri) then
    .error (.store "Cannot add a document with a non-normalized URI.")
  else if ← UriTrie.has fs document.uri s.documents then
    .error (.store "A document with the same URI is already present.")
  else return (← s.addDocumentLocked fs document).2

/-- The identifier of a URI, handed out where there was none. -/
def getOrCreateDocumentId (uri : Uri) : Except StoreError (ℕ × DefaultDocuments) := do
  let normalizedUri ← normalize_uri fs uri
  if normalizedUri = [] then return (invalidDocumentId, s)
  else return s.ensureDocumentIdLocked normalizedUri

/-- What the factory makes of a URI, when it does not throw. -/
abbrev FactoryResult := Option ManagedDocument

/-- The document of a URI, made by the factory where there is none. -/
def getOrCreateDocument (uri : Uri) (fromUri : FactoryResult) :
    Except StoreError (Option ManagedDocument × DefaultDocuments) := do
  let normalizedUri ← normalize_uri fs uri
  if normalizedUri = [] then return (none, s)
  else
    match ← UriTrie.find fs normalizedUri s.documents with
    | some existing => return (some existing, s)
    | none =>
      match fromUri with
      | none => .error .factory
      | some document =>
        match ← UriTrie.find fs document.uri s.documents with
        | some existing => return (some existing, s)
        | none =>
          let (document, s) ← s.addDocumentLocked fs document
          return (some document, s)

/-- A document made from a text, under a URI that is free. -/
def createDocument (fromString : FactoryResult) :
    Except StoreError (ManagedDocument × DefaultDocuments) := do
  match fromString with
  | none => .error .factory
  | some document =>
    if ← UriTrie.has fs document.uri s.documents then
      .error (.store "A document with the same URI is already present.")
    else s.addDocumentLocked fs document

/-- Take the document of a URI out of the store. -/
def deleteDocument (uri : Uri) :
    Except StoreError (Option ManagedDocument × DefaultDocuments) := do
  let normalizedUri ← normalize_uri fs uri
  if normalizedUri = [] then return (none, s)
  else s.deleteDocumentLocked fs normalizedUri

/-- `deleteDocument(DocumentId)`. -/
def deleteDocumentById (id : ℕ) :
    Except StoreError (Option ManagedDocument × DefaultDocuments) :=
  if id = invalidDocumentId then .ok (none, s)
  else
    match s.documentsById id with
    | none => .ok (none, s)
    | some document => s.deleteDocumentLocked fs document.uri

/-- Take out the documents at a URI and below it. -/
def deleteDocuments (uri : Uri) :
    Except StoreError (List ManagedDocument × DefaultDocuments) := do
  let normalizedUri ← normalize_uri fs uri
  if normalizedUri = [] then return ([], s)
  else
    let removed ← UriTrie.findAll fs normalizedUri s.documents
    let documents ← UriTrie.erase fs normalizedUri s.documents
    return (removed, { s with
      state := removed.foldl (fun state d => update state d .changed) s.state
      documentsById := removed.foldl (fun byId d => update byId (s.id d) none) s.documentsById
      documents := documents })

end DefaultDocuments

/-! ### Runs -/

/-- A call of the registry, with what the factory makes when it is asked. -/
inductive StoreCall where
  | addDocument (document : ManagedDocument)
  | getOrCreateDocumentId (uri : Uri)
  | getOrCreateDocument (uri : Uri) (fromUri : DefaultDocuments.FactoryResult)
  | createDocument (fromString : DefaultDocuments.FactoryResult)
  | deleteDocument (uri : Uri)
  | deleteDocumentById (id : ℕ)
  | deleteDocuments (uri : Uri)

/-- The registry after a call; one that throws changes nothing. -/
def StoreCall.perform (fs : FileSystem) (s : DefaultDocuments) :
    StoreCall → Except StoreError DefaultDocuments
  | addDocument document => s.addDocument fs document
  | getOrCreateDocumentId uri => (s.getOrCreateDocumentId fs uri).map Prod.snd
  | getOrCreateDocument uri fromUri => (s.getOrCreateDocument fs uri fromUri).map Prod.snd
  | createDocument fromString => (s.createDocument fs fromString).map Prod.snd
  | deleteDocument uri => (s.deleteDocument fs uri).map Prod.snd
  | deleteDocumentById id => (s.deleteDocumentById fs id).map Prod.snd
  | deleteDocuments uri => (s.deleteDocuments fs uri).map Prod.snd

/-- The store under calls; one that throws leaves it as it was. -/
def documentsMachine (fs : FileSystem) : Machine DefaultDocuments StoreCall where
  step s call :=
    match call.perform fs s with
    | .ok s' => some s'
    | .error _ => some s

end Pegium
