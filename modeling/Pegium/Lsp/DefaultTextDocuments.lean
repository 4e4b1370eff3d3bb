/-
Pegium/Lsp/DefaultTextDocuments.lean

The open documents of the server, and the editor that they are a copy of.

An editor opens, changes, saves and closes documents, and sends a notification of each.
The notifications arrive in their order, but any time later; the server handles one after
the other, finds the places of a change in the text that it has by then, and tells its
listeners.  An editor has texts of characters and places in UTF-16 (`positionIn`), the
server has bytes.

The server is at any time where the editor was after the notification that has been
handled last, for every document byte by byte, and so it is where the editor is when none
is on its way any more.

Main result: `documents_mirror`.
-/
import Mathlib.Logic.Function.Basic
import Pegium.General.Machine
import Pegium.Workspace.EditorText
import Pegium.Workspace.UriUtils

namespace Pegium.TextSync

open Function (update)

/-! ### The store -/

/-- An open document with what the client said of it. -/
structure OpenTextDocument extends TextDocument where
  uri : Uri
  languageId : String
  deriving DecidableEq

/-- What listeners are told. -/
inductive TextDocumentEvent where
  | didOpen
  | didChangeContent
  | didSave
  | didClose
  deriving DecidableEq

/-- What listeners are told, and of which document. -/
structure TextDocumentChangeEvent where
  event : TextDocumentEvent
  document : OpenTextDocument
  deriving DecidableEq

/-- The open documents by their normalized URIs, and what listeners have been told. -/
structure DefaultTextDocuments where
  documents : Uri → Option OpenTextDocument
  emitted : List TextDocumentChangeEvent

/-- The notifications of a client. -/
inductive Notification where
  | didOpen (uri : Uri) (languageId : String) (version : ℤ) (text : List UInt8)
  | didChange (uri : Uri) (version : ℤ) (contentChanges : List TextDocumentContentChangeEvent)
  | didSave (uri : Uri)
  | didClose (uri : Uri)
  deriving DecidableEq

variable (fs : FileSystem)

/-- The normalized URI, unless an exception is thrown. -/
def key (uri : Uri) : Option Uri := (normalize_uri fs uri).toOption

namespace DefaultTextDocuments

/-- Tell the listeners. -/
def emit (store : DefaultTextDocuments) (event : TextDocumentEvent) (document : OpenTextDocument) :
    DefaultTextDocuments :=
  { store with emitted := store.emitted ++ [⟨event, document⟩] }

/-- The document under a normalized URI. -/
def getNormalized (store : DefaultTextDocuments) (normalizedUri : Uri) : Option OpenTextDocument :=
  if normalizedUri = [] then none else store.documents normalizedUri

/-- Whether the document is new, and the store with it. -/
def set (store : DefaultTextDocuments) (document : OpenTextDocument) :
    Bool × DefaultTextDocuments :=
  let inserted := (store.documents document.uri).isNone
  let store : DefaultTextDocuments :=
    { store with documents := update store.documents document.uri (some document) }
  (inserted, (store.emit .didOpen document).emit .didChangeContent document)

/-- Close a document, and say so if it was open. -/
def remove (store : DefaultTextDocuments) (uri : Uri) : Option DefaultTextDocuments :=
  (key fs uri).map fun normalizedUri =>
    match store.getNormalized normalizedUri with
    | none => store
    | some removed =>
      let store : DefaultTextDocuments :=
        { store with documents := update store.documents normalizedUri none }
      store.emit .didClose removed

/-- What a notification does to the store; nothing when an exception is thrown. -/
def handle (store : DefaultTextDocuments) : Notification → Option DefaultTextDocuments
  | .didOpen uri languageId version text =>
    (key fs uri).map fun normalizedUri =>
      if normalizedUri = [] then store
      else (store.set ⟨⟨version, text⟩, normalizedUri, languageId⟩).2
  | .didChange uri version contentChanges =>
    -- Without changes not even the version is taken over.
    if contentChanges = [] then some store
    else (key fs uri).bind fun normalizedUri =>
      match store.getNormalized normalizedUri with
      | none => some store
      | some found =>
        -- A clone is changed, so that nobody sees the document change.
        (found.toTextDocument.update contentChanges version).map fun updated =>
          let document : OpenTextDocument := { found with toTextDocument := updated }
          let store : DefaultTextDocuments :=
            { store with documents := update store.documents normalizedUri (some document) }
          store.emit .didChangeContent document
  | .didSave uri =>
    (key fs uri).map fun normalizedUri =>
      match store.getNormalized normalizedUri with
      | none => store
      | some document => store.emit .didSave document
  | .didClose uri => store.remove fs uri

end DefaultTextDocuments

/-! ### The editor -/

/-- A document as the editor shows it. -/
structure EditorDocument where
  languageId : String
  version : ℤ
  text : List Char
  deriving DecidableEq

/-- A change in an editor: the whole text, or the characters from one to another. -/
inductive EditorChange where
  | full (text : List Char)
  | range (start stop : ℕ) (text : List Char)
  deriving DecidableEq

/-- What the editor shows after a change. -/
def EditorChange.apply (text : List Char) : EditorChange → List Char
  | .full new => new
  | .range start stop new => text.take start ++ new ++ text.drop stop

/-- How a change is told. -/
def EditorChange.content (text : List Char) : EditorChange → TextDocumentContentChangeEvent
  | .full new => ⟨none, utf8 new⟩
  | .range start stop new => ⟨some ⟨positionIn text start, positionIn text stop⟩, utf8 new⟩

/-- The change is one of the text. -/
def EditorChange.Within (text : List Char) : EditorChange → Prop
  | .full _ => True
  | .range start stop _ => start ≤ stop ∧ stop ≤ text.length

/-- Several changes, each in the text of the one before. -/
def contentChanges : List Char → List EditorChange → List TextDocumentContentChangeEvent
  | _, [] => []
  | text, change :: changes => change.content text :: contentChanges (change.apply text) changes

/-- Changes that an editor can make, of texts that the server can hold. -/
def Changes : List Char → List EditorChange → Prop
  | text, [] => Plain text
  | text, change :: changes =>
    Plain text ∧ change.Within text ∧ Changes (change.apply text) changes

/-- The open documents of an editor, by their normalized URIs. -/
abbrev EditorDocuments := Uri → Option EditorDocument

/-- What the editor does, and the way of its notifications. -/
inductive EditorEvent where
  | open (uri : Uri) (languageId : String) (version : ℤ) (text : List Char)
  | change (uri : Uri) (version : ℤ) (changes : List EditorChange)
  | save (uri : Uri)
  | close (uri : Uri)
  /-- The first notification on its way arrives. -/
  | deliver

/-- An editor and a server. -/
structure SyncState where
  editor : EditorDocuments
  channel : List Notification
  server : DefaultTextDocuments
  /-- What the editor had at first and after each notification. -/
  history : List EditorDocuments
  handled : ℕ

namespace SyncState

/-- Nothing is open and nothing on its way. -/
def initial : SyncState := ⟨fun _ => none, [], ⟨fun _ => none, []⟩, [fun _ => none], 0⟩

/-- The editor goes on, and its notification is on its way. -/
def send (s : SyncState) (editor : EditorDocuments) (notification : Notification) : SyncState :=
  { s with
    editor := editor
    channel := s.channel ++ [notification]
    history := s.history ++ [editor] }

/-- The document with a URI, and its normalized URI. -/
def find (s : SyncState) (uri : Uri) : Option (Uri × EditorDocument) :=
  (key fs uri).bind fun normalizedUri => (s.editor normalizedUri).map (normalizedUri, ·)

/-- A document is opened once, and is changed, saved and closed while it is open. -/
def step (s : SyncState) : EditorEvent → Option SyncState
  | .open uri languageId version text =>
    (key fs uri).bind fun normalizedUri =>
      if normalizedUri = [] ∨ (s.editor normalizedUri).isSome then none
      else some (s.send (update s.editor normalizedUri (some ⟨languageId, version, text⟩))
        (.didOpen uri languageId version (utf8 text)))
  | .change uri version changes =>
    (s.find fs uri).map fun (normalizedUri, document) =>
      s.send (update s.editor normalizedUri
          (some ⟨document.languageId, version, changes.foldl EditorChange.apply document.text⟩))
        (.didChange uri version (contentChanges document.text changes))
  | .save uri => (s.find fs uri).map fun _ => s.send s.editor (.didSave uri)
  | .close uri =>
    (s.find fs uri).map fun (normalizedUri, _) =>
      s.send (update s.editor normalizedUri none) (.didClose uri)
  | .deliver =>
    match s.channel with
    | [] => none
    | notification :: channel =>
      (s.server.handle fs notification).map fun server =>
        { s with server := server, channel := channel, handled := s.handled + 1 }

/-- Editor, channel and server as one machine. -/
def machine : Machine SyncState EditorEvent := ⟨step fs⟩

/-- The texts can be held by the server, and a change changes something. -/
def Allowed (s : SyncState) : EditorEvent → Prop
  | .open _ _ _ text => Plain text
  | .change uri _ changes => changes ≠ [] ∧
    ∀ found, s.find fs uri = some found → Changes found.2.text changes
  | _ => True

end SyncState

/-! ### The mirror -/

/-- The document as the server has it. -/
def EditorDocument.mirrored (document : EditorDocument) (uri : Uri) : OpenTextDocument :=
  ⟨⟨document.version, utf8 document.text⟩, uri, document.languageId⟩

/-- The server has what the editor has. -/
def Mirrors (server : DefaultTextDocuments) (editor : EditorDocuments) : Prop :=
  ∀ uri, server.documents uri = (editor uri).map (·.mirrored uri)

/-- A document that an editor has. -/
def Shows (editor : EditorDocuments) (document : OpenTextDocument) : Prop :=
  ∃ shown, editor document.uri = some shown ∧ document = shown.mirrored document.uri

variable {fs} {text : List Char}

/-- **A change does to the bytes what it does to the characters.** -/
theorem applyChange_content {change : EditorChange} (h : Plain text)
    (hwithin : change.Within text) :
    applyChange (utf8 text) (change.content text) = some (utf8 (change.apply text)) := by
  cases change with
  | full new => rfl
  | range start stop new =>
    obtain ⟨hle, hstop⟩ := hwithin
    have hstart := offsetAt_position h (Nat.le_trans hle hstop)
    have hend := offsetAt_position h hstop
    have hbefore : utf8 text = utf8 (text.take start) ++ utf8 (text.drop start) := by
      rw [← utf8_append, List.take_append_drop]
    have hafter : utf8 text = utf8 (text.take stop) ++ utf8 (text.drop stop) := by
      rw [← utf8_append, List.take_append_drop]
    have hmono : (utf8 (text.take start)).length ≤ (utf8 (text.take stop)).length := by
      rw [← List.take_append_drop start (text.take stop), List.take_take, Nat.min_eq_left hle,
        utf8_append, List.length_append]
      exact Nat.le_add_right _ _
    have hfits : ¬ (utf8 text).length < (utf8 (text.take start)).length := by
      rw [hbefore, List.length_append]
      omega
    show replaceRange (utf8 text) ⟨positionIn text start, positionIn text stop⟩ (utf8 new)
      (utf8 text) = some (utf8 (text.take start ++ new ++ text.drop stop))
    unfold replaceRange
    dsimp only
    rw [hstart, hend, replaceAt, if_neg hfits, Nat.add_sub_cancel' hmono, utf8_append, utf8_append]
    congr 2
    · rw [hbefore, List.take_left]
    · rw [hafter, List.drop_left]

/-- Changes are made one after the other on both sides. -/
theorem update_contentChanges {changes : List EditorChange} (h : Changes text changes)
    (document : TextDocument) (hdocument : document.text = utf8 text) (version : ℤ) :
    document.update (contentChanges text changes) version
      = some ⟨version, utf8 (changes.foldl EditorChange.apply text)⟩ := by
  have hfold : (contentChanges text changes).foldlM applyChange (utf8 text)
      = some (utf8 (changes.foldl EditorChange.apply text)) := by
    clear hdocument
    induction changes generalizing text with
    | nil => rfl
    | cons change changes ih =>
      obtain ⟨hplain, hwithin, hrest⟩ := h
      rw [contentChanges, List.foldlM_cons, applyChange_content hplain hwithin]
      exact ih hrest
  rw [TextDocument.update, hdocument, hfold]
  rfl

/-! ### One notification -/

/-- A notification that takes a server from what an editor had to what it has, and tells
listeners of nothing else. -/
def Leads (fs : FileSystem) (notification : Notification) (before after : EditorDocuments) :
    Prop :=
  ∀ server, Mirrors server before → ∃ server' told,
    server.handle fs notification = some server' ∧ Mirrors server' after ∧
      server'.emitted = server.emitted ++ told ∧
      ∀ e ∈ told, Shows before e.document ∨ Shows after e.document

variable {uri normalizedUri : Uri} {before : EditorDocuments} {document : EditorDocument}

theorem Mirrors.getNormalized {server : DefaultTextDocuments} (h : Mirrors server before)
    (hne : normalizedUri ≠ []) (hbefore : before normalizedUri = some document) :
    server.getNormalized normalizedUri = some (document.mirrored normalizedUri) := by
  rw [DefaultTextDocuments.getNormalized, if_neg hne, h, hbefore]
  rfl

/-- A document that is put in, changed or taken out on both sides. -/
theorem Mirrors.update {server : DefaultTextDocuments} (h : Mirrors server before)
    (shown : Option EditorDocument) (emitted : List TextDocumentChangeEvent) :
    Mirrors ⟨update server.documents normalizedUri (shown.map (·.mirrored normalizedUri)),
      emitted⟩ (update before normalizedUri shown) := by
  intro uri
  show Function.update server.documents _ _ uri = (Function.update before _ _ uri).map _
  by_cases huri : uri = normalizedUri
  · subst huri
    rw [Function.update_self, Function.update_self]
  · rw [Function.update_of_ne huri, Function.update_of_ne huri]
    exact h uri

theorem shows_update (document : EditorDocument) :
    Shows (update before normalizedUri (some document)) (document.mirrored normalizedUri) :=
  ⟨document, Function.update_self .., rfl⟩

theorem leads_open (hkey : key fs uri = some normalizedUri) (hne : normalizedUri ≠ [])
    (languageId : String) (version : ℤ) (text : List Char) :
    Leads fs (.didOpen uri languageId version (utf8 text)) before
      (update before normalizedUri (some ⟨languageId, version, text⟩)) := by
  intro server hserver
  let opened : EditorDocument := ⟨languageId, version, text⟩
  let told : List TextDocumentChangeEvent := [⟨.didOpen, opened.mirrored normalizedUri⟩,
    ⟨.didChangeContent, opened.mirrored normalizedUri⟩]
  refine ⟨_, told, ?_, hserver.update (some opened) (server.emitted ++ told), rfl, ?_⟩
  · rw [DefaultTextDocuments.handle, hkey, Option.map_some, if_neg hne]
    show some (DefaultTextDocuments.mk _ (server.emitted ++ [_] ++ [_])) = _
    rw [List.append_assoc]
    rfl
  · intro e he
    refine .inr ?_
    rcases List.mem_cons.mp he with rfl | he
    · exact shows_update opened
    · rw [List.mem_singleton.mp he]
      exact shows_update opened

theorem leads_change (hkey : key fs uri = some normalizedUri) (hne : normalizedUri ≠ [])
    (hbefore : before normalizedUri = some document) {changes : List EditorChange}
    (hsome : changes ≠ []) (hchanges : Changes document.text changes) (version : ℤ) :
    Leads fs (.didChange uri version (contentChanges document.text changes)) before
      (update before normalizedUri
        (some ⟨document.languageId, version,
          changes.foldl EditorChange.apply document.text⟩)) := by
  intro server hserver
  let changed : EditorDocument :=
    ⟨document.languageId, version, changes.foldl EditorChange.apply document.text⟩
  have hcontent : contentChanges document.text changes ≠ [] := by
    obtain ⟨change, rest, rfl⟩ := List.exists_cons_of_ne_nil hsome
    exact List.cons_ne_nil _ _
  have hupdate := update_contentChanges hchanges ⟨document.version, utf8 document.text⟩ rfl version
  refine ⟨_, [⟨.didChangeContent, changed.mirrored normalizedUri⟩], ?_,
    hserver.update (some changed) _, rfl, ?_⟩
  · rw [DefaultTextDocuments.handle, if_neg hcontent, hkey, Option.bind_some,
      hserver.getNormalized hne hbefore]
    show Option.map _ (TextDocument.update ⟨document.version, utf8 document.text⟩ _ _) = _
    rw [hupdate]
    rfl
  · intro e he
    rw [List.mem_singleton.mp he]
    exact .inr (shows_update changed)

theorem leads_save (hkey : key fs uri = some normalizedUri) (hne : normalizedUri ≠ [])
    (hbefore : before normalizedUri = some document) :
    Leads fs (.didSave uri) before before := by
  intro server hserver
  refine ⟨server.emit .didSave (document.mirrored normalizedUri),
    [⟨.didSave, document.mirrored normalizedUri⟩], ?_, hserver, rfl, ?_⟩
  · rw [DefaultTextDocuments.handle, hkey, Option.map_some, hserver.getNormalized hne hbefore]
  · intro e he
    rw [List.mem_singleton.mp he]
    exact .inl ⟨document, hbefore, rfl⟩

theorem leads_close (hkey : key fs uri = some normalizedUri) (hne : normalizedUri ≠ [])
    (hbefore : before normalizedUri = some document) :
    Leads fs (.didClose uri) before (update before normalizedUri none) := by
  intro server hserver
  refine ⟨_, [⟨.didClose, document.mirrored normalizedUri⟩], ?_, hserver.update none _, rfl, ?_⟩
  · rw [DefaultTextDocuments.handle, DefaultTextDocuments.remove, hkey, Option.map_some,
      hserver.getNormalized hne hbefore]
    rfl
  · intro e he
    rw [List.mem_singleton.mp he]
    exact .inl ⟨document, hbefore, rfl⟩

/-! ### Runs -/

namespace SyncState

variable {s s' : SyncState}

/-- What is true at any time. -/
structure Invariant (fs : FileSystem) (s : SyncState) : Prop where
  length : s.history.length = s.handled + s.channel.length + 1
  last : s.history[s.handled + s.channel.length]? = some s.editor
  named : s.editor [] = none
  mirrors : ∀ view, s.history[s.handled]? = some view → Mirrors s.server view
  leads : ∀ (i : ℕ) notification before after, s.channel[i]? = some notification →
    s.history[s.handled + i]? = some before → s.history[s.handled + (i + 1)]? = some after →
      Leads fs notification before after
  told : ∀ e ∈ s.server.emitted, ∃ view ∈ s.history, Shows view e.document

theorem invariant_initial : initial.Invariant fs where
  length := rfl
  last := rfl
  named := rfl
  mirrors view hview uri := by
    cases hview
    rfl
  leads i notification before after h := by
    rw [initial, List.getElem?_nil] at h
    cases h
  told e he := by cases he

/-- The editor does something and tells the server. -/
theorem Invariant.send (h : s.Invariant fs) {editor : EditorDocuments}
    {notification : Notification} (hnamed : editor [] = none)
    (hleads : Leads fs notification s.editor editor) :
    (s.send editor notification).Invariant fs := by
  have hlength := h.length
  have hold : ∀ i, i ≤ s.channel.length →
      (s.history ++ [editor])[s.handled + i]? = s.history[s.handled + i]? := by
    intro i hi
    exact List.getElem?_append_left (by omega)
  have hnew : (s.history ++ [editor])[s.handled + (s.channel.length + 1)]? = some editor := by
    rw [List.getElem?_append_right (by omega), hlength]
    simp [Nat.add_assoc]
  refine ⟨?_, ?_, hnamed, fun view hview => ?_, fun i n before after hn hbefore hafter => ?_,
    fun e he => ?_⟩
  · show (s.history ++ [editor]).length = s.handled + (s.channel ++ [notification]).length + 1
    rw [List.length_append, List.length_append, hlength]
    simp only [List.length_singleton]
    omega
  · show (s.history ++ [editor])[s.handled + (s.channel ++ [notification]).length]? = some editor
    rw [List.length_append, List.length_singleton]
    exact hnew
  · have hfirst := hold 0 (Nat.zero_le _)
    rw [Nat.add_zero] at hfirst
    refine h.mirrors view ?_
    rw [← hfirst]
    exact hview
  · replace hn : (s.channel ++ [notification])[i]? = some n := hn
    replace hbefore : (s.history ++ [editor])[s.handled + i]? = some before := hbefore
    replace hafter : (s.history ++ [editor])[s.handled + (i + 1)]? = some after := hafter
    rcases Nat.lt_trichotomy i s.channel.length with hi | rfl | hi
    · rw [List.getElem?_append_left hi] at hn
      rw [hold i (Nat.le_of_lt hi)] at hbefore
      rw [hold (i + 1) hi] at hafter
      exact h.leads i n before after hn hbefore hafter
    · rw [List.getElem?_concat_length] at hn
      rw [hold _ (Nat.le_refl _), h.last] at hbefore
      rw [hnew] at hafter
      cases hn
      cases hbefore
      cases hafter
      exact hleads
    · rw [List.getElem?_eq_none (by rw [List.length_append, List.length_singleton]; omega)] at hn
      cases hn
  · obtain ⟨view, hview, hshows⟩ := h.told e he
    exact ⟨view, List.mem_append_left _ hview, hshows⟩

/-- What the handler of the first notification meets. -/
theorem Invariant.exists_handle (h : s.Invariant fs) {notification : Notification}
    {channel : List Notification} (hchannel : s.channel = notification :: channel) :
    ∃ before after server' told, before ∈ s.history ∧ after ∈ s.history ∧
      s.history[s.handled + 1]? = some after ∧ s.server.handle fs notification = some server' ∧
      Mirrors server' after ∧ server'.emitted = s.server.emitted ++ told ∧
      ∀ e ∈ told, Shows before e.document ∨ Shows after e.document := by
  have hlength := h.length
  rw [hchannel, List.length_cons] at hlength
  have hbefore := List.getElem?_eq_getElem (show s.handled < s.history.length by omega)
  have hafter := List.getElem?_eq_getElem (show s.handled + 1 < s.history.length by omega)
  have hleads := h.leads 0 notification _ _ (by rw [hchannel]; rfl) hbefore hafter
  obtain ⟨server', told, hhandle, hmirrors, hemitted, hshows⟩ :=
    hleads s.server (h.mirrors _ hbefore)
  exact ⟨_, _, server', told, List.mem_of_getElem? hbefore, List.mem_of_getElem? hafter, hafter,
    hhandle, hmirrors, hemitted, hshows⟩

/-- A notification arrives. -/
theorem Invariant.deliver (h : s.Invariant fs) {notification : Notification}
    {channel : List Notification} (hchannel : s.channel = notification :: channel)
    {server : DefaultTextDocuments} (hhandle : s.server.handle fs notification = some server) :
    ({ s with server := server, channel := channel, handled := s.handled + 1 } :
      SyncState).Invariant fs := by
  obtain ⟨before, after, server', told, hbefore, hafter, hget, hhandle', hmirrors, hemitted,
    hshows⟩ := h.exists_handle hchannel
  obtain rfl : server' = server := Option.some.inj (hhandle'.symm.trans hhandle)
  have hlength := h.length
  have hlast := h.last
  rw [hchannel, List.length_cons] at hlength hlast
  refine ⟨?_, ?_, h.named, fun view hview => ?_, fun i n before after hn hb ha => ?_,
    fun e he => ?_⟩
  · show s.history.length = s.handled + 1 + channel.length + 1
    omega
  · show s.history[s.handled + 1 + channel.length]? = some s.editor
    rw [Nat.add_assoc, Nat.add_comm 1]
    exact hlast
  · replace hview : s.history[s.handled + 1]? = some view := hview
    rw [hget] at hview
    exact Option.some.inj hview ▸ hmirrors
  · refine h.leads (i + 1) n before after (by rw [hchannel]; exact hn) ?_ ?_
    · rw [Nat.add_comm i, ← Nat.add_assoc]
      exact hb
    · rw [Nat.add_comm (i + 1), ← Nat.add_assoc]
      exact ha
  · replace he : e ∈ server'.emitted := he
    rw [hemitted, List.mem_append] at he
    rcases he with he | he
    · exact h.told e he
    · rcases hshows e he with hshown | hshown
      · exact ⟨before, hbefore, hshown⟩
      · exact ⟨after, hafter, hshown⟩

/-- A document that is found is open, with a URI. -/
theorem Invariant.of_find (h : s.Invariant fs) {found : Uri × EditorDocument}
    (hfind : s.find fs uri = some found) :
    key fs uri = some found.1 ∧ found.1 ≠ [] ∧ s.editor found.1 = some found.2 := by
  obtain ⟨normalizedUri, hkey, hfind⟩ := Option.bind_eq_some_iff.mp hfind
  obtain ⟨document, hdocument, rfl⟩ := Option.map_eq_some_iff.mp hfind
  refine ⟨hkey, ?_, hdocument⟩
  rintro rfl
  rw [h.named] at hdocument
  cases hdocument

theorem Invariant.named_update (h : s.Invariant fs) (hne : normalizedUri ≠ [])
    (shown : Option EditorDocument) : update s.editor normalizedUri shown [] = none := by
  rw [Function.update_of_ne hne.symm]
  exact h.named

/-- Every event keeps the invariant. -/
theorem Invariant.step (h : s.Invariant fs) {e : EditorEvent} (hallowed : s.Allowed fs e)
    (hstep : s.step fs e = some s') : s'.Invariant fs := by
  cases e with
  | «open» uri languageId version text =>
    obtain ⟨normalizedUri, hkey, hstep⟩ := Option.bind_eq_some_iff.mp hstep
    split at hstep
    · cases hstep
    next hnew =>
      cases hstep
      have hne : normalizedUri ≠ [] := fun hnil => hnew (.inl hnil)
      exact h.send (h.named_update hne _) (leads_open hkey hne languageId version text)
  | change uri version changes =>
    obtain ⟨found, hfind, rfl⟩ := Option.map_eq_some_iff.mp hstep
    obtain ⟨hkey, hne, hdocument⟩ := h.of_find hfind
    exact h.send (h.named_update hne _)
      (leads_change hkey hne hdocument hallowed.1 (hallowed.2 found hfind) version)
  | save uri =>
    obtain ⟨found, hfind, rfl⟩ := Option.map_eq_some_iff.mp hstep
    obtain ⟨hkey, hne, hdocument⟩ := h.of_find hfind
    exact h.send h.named (leads_save hkey hne hdocument)
  | close uri =>
    obtain ⟨found, hfind, rfl⟩ := Option.map_eq_some_iff.mp hstep
    obtain ⟨hkey, hne, hdocument⟩ := h.of_find hfind
    exact h.send (h.named_update hne _) (leads_close hkey hne hdocument)
  | deliver =>
    rw [SyncState.step] at hstep
    rcases hchannel : s.channel with _ | ⟨notification, channel⟩ <;> rw [hchannel] at hstep
    · cases hstep
    · obtain ⟨server, hhandle, rfl⟩ := Option.map_eq_some_iff.mp hstep
      exact h.deliver hchannel hhandle

/-- **The server mirrors the editor.**  At any time it has, byte by byte, what the editor had
after the notification that has been handled last, so what the editor has when none is on
its way; what listeners are told of is a document that the editor has had; and no handler
throws. -/
theorem documents_mirror (h : (machine fs).Reaches (Allowed fs) initial s) :
    (∃ view, s.history[s.handled]? = some view ∧ Mirrors s.server view ∧
        (s.channel = [] → view = s.editor)) ∧
      (∀ e ∈ s.server.emitted, ∃ view ∈ s.history, Shows view e.document) ∧
      (s.channel ≠ [] → ∃ s', (machine fs).step s .deliver = some s') := by
  have hinv : s.Invariant fs := by
    refine h.invariant invariant_initial fun s e s' hinv hallowed hstep => ?_
    exact hinv.step hallowed hstep
  refine ⟨⟨_, List.getElem?_eq_getElem (by have := hinv.length; omega), ?_, fun hempty => ?_⟩,
    hinv.told, fun hsome => ?_⟩
  · exact hinv.mirrors _ (List.getElem?_eq_getElem (by have := hinv.length; omega))
  · have hlast := hinv.last
    rw [hempty, List.length_nil, Nat.add_zero, List.getElem?_eq_getElem
      (by have := hinv.length; omega)] at hlast
    exact Option.some.inj hlast
  · obtain ⟨notification, channel, hchannel⟩ := List.exists_cons_of_ne_nil hsome
    obtain ⟨-, -, server, -, -, -, -, hhandle, -⟩ := hinv.exists_handle hchannel
    refine ⟨{ s with server := server, channel := channel, handled := s.handled + 1 }, ?_⟩
    show SyncState.step fs s .deliver = _
    rw [SyncState.step, hchannel]
    show Option.map _ (s.server.handle fs notification) = _
    rw [hhandle]
    rfl

/-- An arrival changes the server only. -/
theorem of_deliver (h : (machine fs).step s .deliver = some s') :
    s'.channel = s.channel.tail ∧ s'.editor = s.editor := by
  replace h : s.step fs .deliver = some s' := h
  rw [SyncState.step] at h
  rcases hchannel : s.channel with _ | ⟨notification, channel⟩ <;> rw [hchannel] at h
  · cases h
  · obtain ⟨server, -, rfl⟩ := Option.map_eq_some_iff.mp h
    exact ⟨rfl, rfl⟩

/-- `é` is opened, a character is put behind it, and both notifications arrive. -/
theorem documents_mirror_accent : ∃ s,
    (machine ⟨[slash], true, rfl⟩).Reaches (Allowed ⟨[slash], true, rfl⟩) initial s ∧
      s.channel = [] ∧
        s.server.documents [97] = some ⟨⟨2, [0xC3, 0xA9, 0x78]⟩, [97], ""⟩ := by
  have hplain : Plain ['é'] := ⟨by decide, by decide⟩
  have hplain' : Plain ['é', 'x'] := ⟨by decide, by decide⟩
  let changes := [EditorChange.range 1 1 ['x']]
  let opened := initial.send (update initial.editor [97] (some ⟨"", 1, ['é']⟩))
    (.didOpen [97] "" 1 (utf8 ['é']))
  let changed := opened.send (update opened.editor [97] (some ⟨"", 2, ['é', 'x']⟩))
    (.didChange [97] 2 (contentChanges ['é'] changes))
  have hallowed : opened.Allowed ⟨[slash], true, rfl⟩ (.change [97] 2 changes) := by
    refine ⟨List.cons_ne_nil _ _, fun found hfind => ?_⟩
    cases hfind
    exact ⟨hplain, ⟨by decide, by decide⟩, hplain'⟩
  have hopen : (machine ⟨[slash], true, rfl⟩).Reaches (Allowed ⟨[slash], true, rfl⟩)
      initial opened := .single ⟨.open [97] "" 1 ['é'], hplain, rfl⟩
  have hchange := hopen.tail ⟨.change [97] 2 changes, hallowed, (rfl : _ = some changed)⟩
  obtain ⟨s₁, hfirst⟩ := (documents_mirror hchange).2.2 (List.cons_ne_nil _ _)
  have hreach := hchange.tail ⟨.deliver, trivial, hfirst⟩
  obtain ⟨s₂, hsecond⟩ := (documents_mirror hreach).2.2 (by
    rw [(of_deliver hfirst).1]
    exact List.cons_ne_nil _ _)
  have hend := hreach.tail ⟨.deliver, trivial, hsecond⟩
  have hempty : s₂.channel = [] := by
    rw [(of_deliver hsecond).1, (of_deliver hfirst).1]
    rfl
  obtain ⟨⟨view, -, hmirrors, hview⟩, -⟩ := documents_mirror hend
  refine ⟨s₂, hend, hempty, ?_⟩
  rw [hmirrors, hview hempty, (of_deliver hsecond).2, (of_deliver hfirst).2]
  rfl

end SyncState

end Pegium.TextSync
