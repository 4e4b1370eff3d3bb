/-
Pegium/Lsp/SemanticTokensDelta.lean

What a client holds of the semantic tokens of its documents.

A request for all tokens, or for what changed since a result that the client names,
computes the tokens, takes an id for them, and writes them to a cache under the uri of
its document; one for changes reads the cache before, and answers with an edit of what
it finds there if that has the id the client named.  The requests run side by side: they
meet at the counter of the ids and at the cache only, each of which a mutex guards for
the time of one access.  Documents are closed in between, and the replies come in any
order, late, or not at all.

The id is what makes this safe, not the cache: an id is given to one result only, so
where the ids agree the edit is of what the client holds (`Invariant.receive_eq`),
whatever was written to the cache meanwhile.

Main result: `held_of_delivered`.
-/
import Mathlib.Algebra.Group.Nat.Defs
import Mathlib.Data.List.Basic
import Mathlib.Logic.Function.Basic
import Pegium.General.Machine

namespace Pegium.SemanticTokens

open Function (update)

/-! ### Messages -/

/-- Tokens and the id of their result; the entries of the cache are of these too. -/
structure IdentifiedTokens where
  resultId : String
  data : List ℕ
  deriving DecidableEq

/-- Numbers to put in place of others. -/
structure SemanticTokensEdit where
  start : ℕ
  deleteCount : ℕ
  data : List ℕ
  deriving DecidableEq

/-- What a request is answered with. -/
inductive Reply where
  | tokens (tokens : IdentifiedTokens)
  | delta (resultId : String) (edits : List SemanticTokensEdit)
  deriving DecidableEq

/-- What is asked for.  With the id that is sent of a previous result goes what the client
holds of it. -/
inductive RequestKind where
  | full
  | range
  | delta (previous : IdentifiedTokens)
  deriving DecidableEq

/-- The reply to a request for changes. -/
def deltaReply (previousResultId : String) (full : IdentifiedTokens) :
    Option IdentifiedTokens → Reply
  | none => .tokens full
  | some cached =>
    if cached.resultId = previousResultId then
      .delta full.resultId
        (if cached.data = full.data then []
        else [⟨0, cached.data.length % 2 ^ 32, full.data⟩])
    else .tokens full

/-- The client: an edit replaces some of the data. -/
def SemanticTokensEdit.apply (edit : SemanticTokensEdit) (data : List ℕ) : List ℕ :=
  data.take edit.start ++ edit.data ++ data.drop (edit.start + edit.deleteCount)

/-- What the client makes of a reply. -/
def receive : RequestKind → Reply → Option IdentifiedTokens
  | _, .tokens tokens => some tokens
  | .delta previous, .delta resultId edits =>
    some ⟨resultId, edits.foldr SemanticTokensEdit.apply previous.data⟩
  | _, .delta _ _ => none

/-! ### Requests -/

/-- How far a request is. -/
inductive Stage where
  | building
  | built (data : List ℕ)
  | numbered (tokens : IdentifiedTokens)
  | lookedUp (tokens : IdentifiedTokens) (cached : Option IdentifiedTokens)
  | done (tokens : IdentifiedTokens) (reply : Reply)
  deriving DecidableEq

/-- What a request has computed. -/
def Stage.tokens : Stage → Option IdentifiedTokens
  | .building | .built _ => none
  | .numbered tokens | .lookedUp tokens _ | .done tokens _ => some tokens

/-- A request on its way. -/
structure SemanticRequest where
  uri : String
  kind : RequestKind
  stage : Stage
  deriving DecidableEq

/-- The provider, its requests, and for each document what the client holds and which
request it has from. -/
structure ProviderState where
  nextResultId : ℕ
  cache : String → Option IdentifiedTokens
  requests : List SemanticRequest
  held : String → Option IdentifiedTokens
  delivered : String → Option ℕ

/-- What can happen next. -/
inductive ProviderEvent where
  | full (uri : String)
  | range (uri : String)
  /-- Only asked for with something held. -/
  | delta (uri : String)
  /-- The tokens of request `i` are computed. -/
  | build (i : ℕ) (data : List ℕ)
  /-- The next access of request `i` to what is shared. -/
  | access (i : ℕ)
  | close (uri : String)
  | deliver (i : ℕ)

namespace ProviderState

/-- The provider before its first request. -/
def initial : ProviderState := ⟨1, fun _ => none, [], fun _ => none, fun _ => none⟩

/-- A request is sent. -/
def send (s : ProviderState) (uri : String) (kind : RequestKind) : ProviderState :=
  { s with requests := s.requests ++ [⟨uri, kind, .building⟩] }

/-- A request goes on. -/
def setStage (s : ProviderState) (i : ℕ) (request : SemanticRequest) (stage : Stage) :
    ProviderState :=
  { s with requests := s.requests.set i { request with stage } }

/-- `setSemanticTokenCache`. -/
def setCache (s : ProviderState) (uri : String) (tokens : IdentifiedTokens) : ProviderState :=
  { s with cache := update s.cache uri (some tokens) }

/-- `buildSemanticTokens` returns. -/
def build (s : ProviderState) (i : ℕ) (request : SemanticRequest) (data : List ℕ) :
    Option ProviderState :=
  match request.stage with
  | .building => some (s.setStage i request (.built data))
  | _ => none

/-- The access that a request makes next: the id, then, for changes, the cached result, then
the cache. -/
def access (s : ProviderState) (i : ℕ) (request : SemanticRequest) : Option ProviderState :=
  match request.stage, request.kind with
  | .built data, _ =>
    some { s.setStage i request (.numbered ⟨toString s.nextResultId, data⟩) with
      nextResultId := (s.nextResultId + 1) % 2 ^ 64 }
  | .numbered tokens, .full =>
    some ((s.setCache request.uri tokens).setStage i request (.done tokens (.tokens tokens)))
  | .numbered tokens, .range => some (s.setStage i request (.done tokens (.tokens tokens)))
  | .numbered tokens, .delta _ =>
    some (s.setStage i request (.lookedUp tokens (s.cache request.uri)))
  | .lookedUp tokens cached, .delta previous =>
    some ((s.setCache request.uri tokens).setStage i request
      (.done tokens (deltaReply previous.resultId tokens cached)))
  | _, _ => none

/-- The client takes a reply. -/
def deliver (s : ProviderState) (i : ℕ) (request : SemanticRequest) : Option ProviderState :=
  match request.stage with
  | .done _ reply =>
    some { s with
      held := update s.held request.uri (receive request.kind reply)
      delivered := update s.delivered request.uri (some i) }
  | _ => none

/-- One event, where it is possible. -/
def step (s : ProviderState) : ProviderEvent → Option ProviderState
  | .full uri => some (s.send uri .full)
  | .range uri => some (s.send uri .range)
  | .delta uri => (s.held uri).map fun previous => s.send uri (.delta previous)
  | .build i data => s.requests[i]?.bind fun request => s.build i request data
  | .access i => s.requests[i]?.bind (s.access i)
  | .close uri => some { s with cache := update s.cache uri none }
  | .deliver i => s.requests[i]?.bind (s.deliver i)

/-- The provider and its requests as one machine. -/
def machine : Machine ProviderState ProviderEvent := ⟨step⟩

/-- The counts stay below the sizes of their types. -/
def Fits (s : ProviderState) : ProviderEvent → Prop
  | .build _ data => data.length < 2 ^ 32
  | .access _ => s.nextResultId + 1 < 2 ^ 64
  | _ => True

instance (s : ProviderState) (event : ProviderEvent) : Decidable (s.Fits event) := by
  unfold Fits
  split <;> infer_instance

/-! ### The invariant -/

variable {s s' : ProviderState} {tokens tokens' : IdentifiedTokens}

/-- Some request has computed these tokens. -/
def Known (s : ProviderState) (tokens : IdentifiedTokens) : Prop :=
  ∃ request ∈ s.requests, request.stage.tokens = some tokens

/-- What a request knows of others is theirs, and its reply gives the client what the
request has computed. -/
structure Sound (s : ProviderState) (request : SemanticRequest) : Prop where
  previous : ∀ tokens, request.kind = .delta tokens → s.Known tokens
  built : ∀ data, request.stage = .built data → data.length < 2 ^ 32
  cached : ∀ tokens cached, request.stage = .lookedUp tokens (some cached) → s.Known cached
  reply : ∀ tokens reply, request.stage = .done tokens reply →
    receive request.kind reply = some tokens

/-- Every identifier names one token list, and what the client holds is known. -/
structure Invariant (s : ProviderState) : Prop where
  numbered : ∀ tokens, s.Known tokens →
    tokens.data.length < 2 ^ 32 ∧ ∃ n < s.nextResultId, tokens.resultId = toString n
  unique : ∀ tokens tokens', s.Known tokens → s.Known tokens' →
    tokens.resultId = tokens'.resultId → tokens = tokens'
  cache : ∀ uri tokens, s.cache uri = some tokens → s.Known tokens
  sound : ∀ request ∈ s.requests, s.Sound request
  held : ∀ uri tokens, s.held uri = some tokens → s.Known tokens
  delivered : ∀ uri i, s.delivered uri = some i → ∃ request tokens,
    s.requests[i]? = some request ∧ request.uri = uri ∧
      request.stage.tokens = some tokens ∧ s.held uri = some tokens

theorem Known.send (uri : String) (kind : RequestKind) (h : s.Known tokens) :
    (s.send uri kind).Known tokens :=
  let ⟨request, hmem, ht⟩ := h
  ⟨request, List.mem_append_left _ hmem, ht⟩

theorem known_of_send {uri : String} {kind : RequestKind} (h : (s.send uri kind).Known tokens) :
    s.Known tokens := by
  obtain ⟨request, hmem, ht⟩ := h
  rcases List.mem_append.mp hmem with hmem | hmem
  · exact ⟨request, hmem, ht⟩
  · cases List.mem_singleton.mp hmem
    cases ht

section

variable {i : ℕ} {request : SemanticRequest} {stage : Stage}

theorem Known.setStage (h : s.Known tokens) (hi : s.requests[i]? = some request)
    (hkeep : ∀ t, request.stage.tokens = some t → stage.tokens = some t) :
    (s.setStage i request stage).Known tokens := by
  obtain ⟨r, hmem, ht⟩ := h
  obtain ⟨hlt, hget⟩ := List.getElem?_eq_some_iff.mp hi
  obtain ⟨j, hj⟩ := List.mem_iff_getElem?.mp hmem
  by_cases hij : i = j
  · subst hij
    rw [hi] at hj
    cases hj
    exact ⟨_, List.mem_set hlt _, hkeep tokens ht⟩
  · exact ⟨r, List.mem_of_getElem? ((List.getElem?_set_ne hij).trans hj), ht⟩

theorem known_of_setStage (h : (s.setStage i request stage).Known tokens) :
    s.Known tokens ∨ stage.tokens = some tokens := by
  obtain ⟨r, hmem, ht⟩ := h
  rcases List.mem_or_eq_of_mem_set hmem with hmem | rfl
  · exact .inl ⟨r, hmem, ht⟩
  · exact .inr ht

theorem known_of_tokens (hi : s.requests[i]? = some request)
    (ht : request.stage.tokens = some tokens) : s.Known tokens :=
  ⟨request, List.mem_of_getElem? hi, ht⟩

/-- What is known stays so, and nothing else is asked of the others. -/
theorem Sound.mono {request : SemanticRequest} (h : s.Sound request)
    (hmono : ∀ tokens, s.Known tokens → s'.Known tokens) : s'.Sound request where
  previous tokens hkind := hmono tokens (h.previous tokens hkind)
  built := h.built
  cached tokens cached hstage := hmono cached (h.cached tokens cached hstage)
  reply := h.reply

theorem Invariant.send (h : s.Invariant) (uri : String) {kind : RequestKind}
    (hkind : ∀ tokens, kind = .delta tokens → s.Known tokens) : (s.send uri kind).Invariant where
  numbered tokens hk := h.numbered tokens (known_of_send hk)
  unique tokens tokens' hk hk' := h.unique tokens tokens' (known_of_send hk) (known_of_send hk')
  cache uri' tokens hc := (h.cache uri' tokens hc).send uri kind
  sound r hmem := by
    rcases List.mem_append.mp hmem with hmem | hmem
    · exact (h.sound r hmem).mono fun _ hk => hk.send uri kind
    · cases List.mem_singleton.mp hmem
      refine ⟨fun tokens he => (hkind tokens he).send uri kind, ?_, ?_, ?_⟩ <;>
        · intros
          contradiction
  held uri' tokens hheld := (h.held uri' tokens hheld).send uri kind
  delivered uri' j hj := by
    obtain ⟨r, tokens, hr, hrest⟩ := h.delivered uri' j hj
    have hlt := (List.getElem?_eq_some_iff.mp hr).1
    exact ⟨r, tokens, (List.getElem?_append_left hlt).trans hr, hrest⟩

/-- **A request goes on**: it keeps what it has computed, and what it computes has an id of
its own. -/
theorem Invariant.setStage (h : s.Invariant) (hi : s.requests[i]? = some request)
    (hkeep : ∀ t, request.stage.tokens = some t → stage.tokens = some t)
    (hnumbered : ∀ t, stage.tokens = some t →
      t.data.length < 2 ^ 32 ∧ ∃ n < s.nextResultId, t.resultId = toString n)
    (hunique : ∀ t t', stage.tokens = some t → s.Known t' → t.resultId = t'.resultId → t = t')
    (hsound : s.Sound { request with stage }) : (s.setStage i request stage).Invariant := by
  have hmono : ∀ t, s.Known t → (s.setStage i request stage).Known t :=
    fun t hk => hk.setStage hi hkeep
  constructor
  case numbered =>
    intro t hk
    exact (known_of_setStage hk).elim (h.numbered t) (hnumbered t)
  case unique =>
    intro t t' hk hk' hid
    rcases known_of_setStage hk with hk | ht <;> rcases known_of_setStage hk' with hk' | ht'
    · exact h.unique t t' hk hk' hid
    · exact (hunique t' t ht' hk hid.symm).symm
    · exact hunique t t' ht hk' hid
    · exact Option.some.inj (ht.symm.trans ht')
  case cache => exact fun uri t hc => hmono t (h.cache uri t hc)
  case sound =>
    intro r hmem
    rcases List.mem_or_eq_of_mem_set hmem with hmem | rfl
    · exact (h.sound r hmem).mono hmono
    · exact hsound.mono hmono
  case held => exact fun uri t hheld => hmono t (h.held uri t hheld)
  case delivered =>
    intro uri j hj
    obtain ⟨r, t, hr, huri, ht, hheld⟩ := h.delivered uri j hj
    by_cases hij : i = j
    · subst hij
      rw [hi] at hr
      cases hr
      have hlt := (List.getElem?_eq_some_iff.mp hi).1
      exact ⟨_, t, List.getElem?_set_self hlt, huri, hkeep t ht, hheld⟩
    · exact ⟨r, t, (List.getElem?_set_ne hij).trans hr, huri, ht, hheld⟩

/-- A request goes on with what it has computed already. -/
theorem Invariant.setStage_same (h : s.Invariant) (hi : s.requests[i]? = some request)
    (hsame : stage.tokens = request.stage.tokens) (hsound : s.Sound { request with stage }) :
    (s.setStage i request stage).Invariant := by
  refine h.setStage hi (fun t ht => hsame.trans ht) (fun t ht => ?_) (fun t t' ht hk' => ?_) hsound
  · exact h.numbered t (known_of_tokens hi (hsame ▸ ht))
  · exact h.unique t t' (known_of_tokens hi (hsame ▸ ht)) hk'

/-- The entry of a document is what some request has computed, or nothing. -/
theorem Invariant.updateCache (h : s.Invariant) (uri : String) {entry : Option IdentifiedTokens}
    (hk : ∀ t, entry = some t → s.Known t) :
    ({ s with cache := update s.cache uri entry } : ProviderState).Invariant := by
  refine { h with cache := fun uri' t hc => ?_, sound := fun r hmem => (h.sound r hmem).mono ?_ }
  · replace hc : update s.cache uri entry uri' = some t := hc
    by_cases hu : uri' = uri
    · rw [hu, Function.update_self] at hc
      exact hk t hc
    · rw [Function.update_of_ne hu] at hc
      exact h.cache uri' t hc
  · exact fun t ht => ht

/-- The next id is taken. -/
theorem Invariant.takeId (h : s.Invariant) (hnext : s.nextResultId + 1 < 2 ^ 64) :
    ({ s with nextResultId := (s.nextResultId + 1) % 2 ^ 64 } : ProviderState).Invariant := by
  refine { h with
    numbered := fun t hk => ?_, sound := fun r hmem => (h.sound r hmem).mono fun _ ht => ht }
  obtain ⟨hlt, n, hn, hid⟩ := h.numbered t hk
  refine ⟨hlt, n, ?_, hid⟩
  show n < (s.nextResultId + 1) % 2 ^ 64
  rw [Nat.mod_eq_of_lt hnext]
  omega

end

/-! ### Edits -/

theorem receive_tokens (kind : RequestKind) (tokens : IdentifiedTokens) :
    receive kind (.tokens tokens) = some tokens := by
  cases kind <;> rfl

/-- An edit of all that is held leaves its own data. -/
theorem apply_all {data held : List ℕ} (h : held.length < 2 ^ 32) :
    SemanticTokensEdit.apply ⟨0, held.length % 2 ^ 32, data⟩ held = data := by
  rw [SemanticTokensEdit.apply, Nat.mod_eq_of_lt h]
  simp

/-- **The reply to a request for changes gives the client the new tokens**, whatever the
cache holds: where the ids agree, it holds what the client does. -/
theorem Invariant.receive_eq (h : s.Invariant) {previous : IdentifiedTokens}
    {cached : Option IdentifiedTokens} (hprevious : s.Known previous)
    (hcached : ∀ c, cached = some c → s.Known c) :
    receive (.delta previous) (deltaReply previous.resultId tokens cached) = some tokens := by
  cases cached with
  | none => rfl
  | some c =>
    rw [deltaReply]
    by_cases hid : c.resultId = previous.resultId
    · obtain rfl := h.unique c previous (hcached c rfl) hprevious hid
      rw [if_pos hid, receive]
      by_cases hdata : c.data = tokens.data
      · rw [if_pos hdata, List.foldr_nil, hdata]
      · rw [if_neg hdata, List.foldr_cons, List.foldr_nil, apply_all (h.numbered c hprevious).1]
    · rw [if_neg hid]
      rfl

/-! ### Steps -/

theorem toString_injective {m n : ℕ} (h : toString m = toString n) : m = n := by
  have hchars := congrArg (fun s : String => Nat.ofDigitChars 10 s.toList 0) h
  simpa [Nat.toString_eq_repr, Nat.toList_repr] using hchars

/-- A request is done. -/
theorem Sound.done {request : SemanticRequest} {reply : Reply} (h : s.Sound request)
    (hreply : receive request.kind reply = some tokens) :
    s.Sound { request with stage := .done tokens reply } where
  previous := h.previous
  built data he := by cases he
  cached t cached he := by cases he
  reply t reply' he := by
    cases he
    exact hreply

theorem Invariant.build (h : s.Invariant) {i : ℕ} {request : SemanticRequest} {data : List ℕ}
    (hi : s.requests[i]? = some request) (hlt : data.length < 2 ^ 32)
    (he : s.build i request data = some s') : s'.Invariant := by
  unfold ProviderState.build at he
  split at he
  case h_2 => cases he
  case h_1 hstage =>
    cases he
    refine h.setStage_same hi (by rw [hstage]; rfl) ?_
    refine { h.sound request (List.mem_of_getElem? hi) with built := ?_, cached := ?_, reply := ?_ }
    · intro data' he
      cases he
      exact hlt
    · intro t cached he
      cases he
    · intro t reply he
      cases he

/-- A request takes an id, which no other has. -/
theorem Invariant.number (h : s.Invariant) {i : ℕ} {request : SemanticRequest} {data : List ℕ}
    (hi : s.requests[i]? = some request) (hstage : request.stage = .built data)
    (hnext : s.nextResultId + 1 < 2 ^ 64) :
    ({ s with nextResultId := (s.nextResultId + 1) % 2 ^ 64 } |>.setStage i request
      (.numbered ⟨toString s.nextResultId, data⟩)).Invariant := by
  have hsound := h.sound request (List.mem_of_getElem? hi)
  refine (h.takeId hnext).setStage hi ?_ ?_ ?_ ?_
  · intro t ht
    rw [hstage] at ht
    cases ht
  · intro t ht
    cases ht
    refine ⟨hsound.built data hstage, s.nextResultId, ?_, rfl⟩
    show s.nextResultId < (s.nextResultId + 1) % 2 ^ 64
    rw [Nat.mod_eq_of_lt hnext]
    omega
  · intro t t' ht hk' hid
    cases ht
    obtain ⟨-, n, hn, hid'⟩ := h.numbered t' hk'
    have := toString_injective (hid.trans hid')
    omega
  · refine { previous := hsound.previous, built := ?_, cached := ?_, reply := ?_ }
    · intro data' he
      cases he
    · intro t cached he
      cases he
    · intro t reply he
      cases he

/-- A request for changes reads the cache. -/
theorem Invariant.lookUp (h : s.Invariant) {i : ℕ} {request : SemanticRequest}
    (hi : s.requests[i]? = some request) (hstage : request.stage = .numbered tokens) :
    (s.setStage i request (.lookedUp tokens (s.cache request.uri))).Invariant := by
  refine h.setStage_same hi (by rw [hstage]; rfl) ?_
  refine { h.sound request (List.mem_of_getElem? hi) with built := ?_, cached := ?_, reply := ?_ }
  · intro data' he
    cases he
  · intro t cached he
    injection he with _ hcache
    exact h.cache request.uri cached hcache
  · intro t reply he
    cases he

/-- One access keeps the invariant. -/
theorem Invariant.access (h : s.Invariant) {i : ℕ} {request : SemanticRequest}
    (hi : s.requests[i]? = some request) (hnext : s.nextResultId + 1 < 2 ^ 64)
    (he : s.access i request = some s') : s'.Invariant := by
  have hsound := h.sound request (List.mem_of_getElem? hi)
  have hstored : ∀ t, request.stage.tokens = some t → (s.setCache request.uri t).Invariant := by
    intro t ht
    refine h.updateCache request.uri fun t' ht' => ?_
    cases ht'
    exact known_of_tokens hi ht
  unfold ProviderState.access at he
  split at he
  case h_1 data kind hstage =>
    cases he
    exact h.number hi hstage hnext
  case h_2 tokens hstage hkind =>
    cases he
    refine (hstored tokens (by rw [hstage]; rfl)).setStage_same hi (by rw [hstage]; rfl) ?_
    have hsound' : (s.setCache request.uri tokens).Sound request := hsound.mono fun _ hk => hk
    exact hsound'.done (receive_tokens request.kind tokens)
  case h_3 tokens hstage hkind =>
    cases he
    refine h.setStage_same hi (by rw [hstage]; rfl) ?_
    exact hsound.done (receive_tokens request.kind tokens)
  case h_4 tokens previous hstage hkind =>
    cases he
    exact h.lookUp hi hstage
  case h_5 tokens cached previous hstage hkind =>
    cases he
    refine (hstored tokens (by rw [hstage]; rfl)).setStage_same hi (by rw [hstage]; rfl) ?_
    have hsound' : (s.setCache request.uri tokens).Sound request := hsound.mono fun _ hk => hk
    refine hsound'.done ?_
    rw [hkind]
    refine h.receive_eq (hsound.previous previous hkind) fun c hc => ?_
    subst hc
    exact hsound.cached tokens c hstage
  case h_6 => cases he

/-- The client takes a reply, early or late. -/
theorem Invariant.deliver (h : s.Invariant) {i : ℕ} {request : SemanticRequest}
    (hi : s.requests[i]? = some request) (he : s.deliver i request = some s') : s'.Invariant := by
  have hsound := h.sound request (List.mem_of_getElem? hi)
  unfold ProviderState.deliver at he
  split at he
  case h_2 => cases he
  case h_1 tokens reply hstage =>
    have hreply := hsound.reply tokens reply hstage
    have ht : request.stage.tokens = some tokens := by
      rw [hstage]
      rfl
    rw [hreply] at he
    cases he
    refine { h with sound := ?_, held := ?_, delivered := ?_ }
    · exact fun r hmem => (h.sound r hmem).mono fun _ hk => hk
    · intro uri t hheld
      replace hheld : update s.held request.uri (some tokens) uri = some t := hheld
      by_cases hu : uri = request.uri
      · rw [hu, Function.update_self] at hheld
        cases hheld
        exact known_of_tokens hi ht
      · rw [Function.update_of_ne hu] at hheld
        exact h.held uri t hheld
    · intro uri j hj
      replace hj : update s.delivered request.uri (some i) uri = some j := hj
      show ∃ r t, s.requests[j]? = some r ∧ r.uri = uri ∧ r.stage.tokens = some t ∧
        update s.held request.uri (some tokens) uri = some t
      by_cases hu : uri = request.uri
      · rw [hu, Function.update_self] at hj ⊢
        cases hj
        exact ⟨request, tokens, hi, rfl, ht, rfl⟩
      · rw [Function.update_of_ne hu] at hj ⊢
        exact h.delivered uri j hj

theorem Invariant.step (h : s.Invariant) {event : ProviderEvent} (hfits : s.Fits event)
    (he : s.step event = some s') : s'.Invariant := by
  cases event with
  | full uri =>
    cases he
    exact h.send uri fun tokens hkind => by cases hkind
  | range uri =>
    cases he
    exact h.send uri fun tokens hkind => by cases hkind
  | delta uri =>
    obtain ⟨previous, hheld, rfl⟩ := Option.map_eq_some_iff.mp he
    refine h.send uri fun tokens hkind => ?_
    cases hkind
    exact h.held uri previous hheld
  | build i data =>
    obtain ⟨request, hi, hbuild⟩ := Option.bind_eq_some_iff.mp he
    exact h.build hi hfits hbuild
  | access i =>
    obtain ⟨request, hi, haccess⟩ := Option.bind_eq_some_iff.mp he
    exact h.access hi hfits haccess
  | close uri =>
    cases he
    exact h.updateCache uri fun t ht => by cases ht
  | deliver i =>
    obtain ⟨request, hi, hdeliver⟩ := Option.bind_eq_some_iff.mp he
    exact h.deliver hi hdeliver

theorem invariant_initial : initial.Invariant := by
  refine ⟨?_, ?_, ?_, ?_, ?_, ?_⟩
  · rintro tokens ⟨r, hmem, -⟩
    cases hmem
  · rintro tokens tokens' ⟨r, hmem, -⟩
    cases hmem
  · intro uri tokens hc
    cases hc
  · intro r hmem
    cases hmem
  · intro uri tokens hheld
    cases hheld
  · intro uri i hi
    cases hi

/-- Every run keeps the invariant. -/
theorem invariant_of_reaches (h : machine.Reaches Fits initial s) : s.Invariant :=
  h.invariant invariant_initial fun _ _ _ hinv hfits he => hinv.step hfits he

/-- **The client holds what was last delivered to it**: in every run, where the last reply
that was delivered for a document is that to request `i`, the client holds exactly the
tokens and the id that request `i` computed, whether the reply was all of them or an edit,
and whatever else was asked for, closed, overtaken or lost. -/
theorem held_of_delivered (h : machine.Reaches Fits initial s) {uri : String} {i : ℕ}
    (hi : s.delivered uri = some i) :
    ∃ request tokens, s.requests[i]? = some request ∧ request.uri = uri ∧
      request.stage.tokens = some tokens ∧ s.held uri = some tokens :=
  (invariant_of_reaches h).delivered uri i hi

/-- Two requests for changes overtake each other: the second is delivered first, and the
first, which is answered with an edit, after it. -/
def overtaken : List ProviderEvent :=
  [.full "a", .build 0 [1], .access 0, .access 0, .deliver 0,
    .delta "a", .delta "a", .build 1 [1, 2], .build 2 [3], .access 1, .access 1, .access 2,
    .access 2, .access 2, .deliver 2, .access 1, .deliver 1]

theorem held_of_delivered_overtaken :
    ∃ s, machine.run initial overtaken = some s ∧ s.delivered "a" = some 1 ∧
      ∃ request tokens, s.requests[1]? = some request ∧ request.uri = "a" ∧
        request.stage.tokens = some tokens ∧ s.held "a" = some tokens := by
  have hrun : (machine.run initial overtaken).isSome := by decide
  obtain ⟨s, hs⟩ := Option.isSome_iff_exists.mp hrun
  have hlast : (machine.run initial overtaken).bind (·.delivered "a") = some 1 := by decide
  rw [hs] at hlast
  have hallowed : machine.AllowedRun Fits initial overtaken := by decide
  exact ⟨s, hs, hlast, held_of_delivered (Machine.reaches_of_run hs hallowed) hlast⟩

end ProviderState

end Pegium.SemanticTokens
