/-
Pegium/Lsp/RequestLifecycle.lean

What is true in a session of the server, in whatever order its threads go on.

The registry has the sources of the pending requests, and no others, so a cancel
notification stops the request with its id when that is pending, and nothing else; a
request is served only when no shutdown had been requested before it came; and the server
resets nothing that a handler still uses, once a shutdown has been requested.  The client
does not give two pending requests the same id.

That two ids have different keys is a fact about the digits of integers, which only the
whole of Mathlib brings along.

Main results: `session_safe`, and `session_ends`: once the messages have ended, the server
ends too, if handlers and updates do.
-/
import Mathlib
import Pegium.General.Counting
import Pegium.Lsp.LanguageServerRuntimeState

namespace Pegium.LanguageServer

open Function (update)

/-! ### Keys -/

theorem first_eq {a b : Char} {cs ds : List Char} {s t : String}
    (h : String.ofList (a :: cs) ++ s = String.ofList (b :: ds) ++ t) : a = b := by
  have hlist := congrArg String.toList h
  simp only [String.toList_append, String.toList_ofList, List.cons_append] at hlist
  exact (List.cons.inj hlist).1

theorem anonymous_ne (id : CancelId) (counter : ℕ) :
    (next_anonymous_request_key counter).1 ≠ request_key_from_cancel_id id := by
  intro h
  cases id with
  | integer n => exact absurd (@first_eq 'a' 'i' ['n', 'o', 'n', ':'] [':'] _ _ h) (by decide)
  | string s => exact absurd (@first_eq 'a' 's' ['n', 'o', 'n', ':'] [':'] _ _ h) (by decide)

/-- **A cancel notification finds the request with its id**: the keys of no two ids agree, and
none is the key of a request without an id. -/
theorem names_iff (id : CancelId) (currentRequestId : Option MessageId) (counter : ℕ) :
    id.names currentRequestId ↔
      (requestKey currentRequestId counter).1 = request_key_from_cancel_id id := by
  rcases currentRequestId with _ | current
  · exact ⟨fun h => (by cases h), fun h => absurd h (anonymous_ne id counter)⟩
  · cases current with
    | null => exact ⟨fun h => (by cases h), fun h => absurd h (anonymous_ne id counter)⟩
    | integer n =>
      have hkey : (requestKey (some (.integer n)) counter).1 = "i:" ++ toString n := by
        simp [requestKey, request_key_from_message_id]
      rw [hkey]
      cases id with
      | integer m =>
        show decide (CancelId.integer m = .integer n) = true ↔ "i:" ++ toString n = "i:" ++ _
        rw [decide_eq_true_iff, CancelId.integer.injEq, String.append_right_inj]
        exact ⟨fun h => h ▸ rfl, fun h => (Int.repr_injective h).symm⟩
      | string s =>
        refine ⟨fun h => (by cases h), fun h => ?_⟩
        exact absurd (@first_eq 'i' 's' [':'] [':'] _ _ h) (by decide)
    | string s =>
      have hkey : (requestKey (some (.string s)) counter).1 = "s:" ++ s := by
        simp [requestKey, request_key_from_message_id]
      rw [hkey]
      cases id with
      | integer m =>
        refine ⟨fun h => (by cases h), fun h => ?_⟩
        exact absurd (@first_eq 's' 'i' [':'] [':'] _ _ h) (by decide)
      | string t =>
        show decide (CancelId.string t = .string s) = true ↔ "s:" ++ s = "s:" ++ t
        rw [decide_eq_true_iff, CancelId.string.injEq, String.append_right_inj]
        exact eq_comm

theorem requestKey_ne_empty (currentRequestId : Option MessageId) (counter : ℕ) :
    (requestKey currentRequestId counter).1 ≠ "" := by
  unfold requestKey
  dsimp only
  split
  · simp [next_anonymous_request_key]
  next h => exact h

/-! ### The registry -/

namespace LanguageServerRuntimeState

variable {state : LanguageServerRuntimeState} {key key' : String} {i source : ℕ}

/-- What a key is registered for, when that is one source. -/
theorem lookup_iff
    (alone : ∀ j, (key, j) ∈ state.requestCancellation →
      (key, i) ∈ state.requestCancellation → j = i) :
    state.requestCancellation.lookup key = some i ↔ (key, i) ∈ state.requestCancellation := by
  constructor
  · intro h
    obtain ⟨before, after, hsplit, -⟩ := List.lookup_eq_some_iff.mp h
    rw [hsplit]
    exact List.mem_append_right _ List.mem_cons_self
  · intro h
    rcases hlookup : state.requestCancellation.lookup key with _ | j
    · have hne := List.lookup_eq_none_iff.mp hlookup _ h
      exact absurd rfl (bne_iff_ne.mp hne)
    · obtain ⟨before, after, hsplit, -⟩ := List.lookup_eq_some_iff.mp hlookup
      have hj : (key, j) ∈ state.requestCancellation := by
        rw [hsplit]
        exact List.mem_append_right _ List.mem_cons_self
      rw [alone j hj h]

theorem mem_register (hkey : key ≠ "") :
    (key', i) ∈ (state.registerRequestCancellation key source).requestCancellation ↔
      key' = key ∧ i = source ∨ key' ≠ key ∧ (key', i) ∈ state.requestCancellation := by
  unfold registerRequestCancellation
  rw [if_neg hkey]
  show (key', i) ∈ _ :: List.filter _ _ ↔ _
  rw [List.mem_cons, List.mem_filter, Prod.mk.injEq, decide_eq_true_iff, and_comm (a := _ ∈ _)]

theorem mem_clear (hkey : key ≠ "") (hlookup : state.requestCancellation.lookup key = some source) :
    (key', i) ∈ (state.clearRequestCancellation key source).requestCancellation ↔
      key' ≠ key ∧ (key', i) ∈ state.requestCancellation := by
  unfold clearRequestCancellation
  rw [if_neg hkey, hlookup]
  dsimp only
  rw [if_pos rfl]
  show (key', i) ∈ List.filter _ _ ↔ _
  rw [List.mem_filter, decide_eq_true_iff, and_comm]

theorem clear_of_empty (h : state.requestCancellation = []) :
    state.clearRequestCancellation key source = state := by
  unfold clearRequestCancellation
  rw [h]
  split <;> rfl

@[simp] theorem clear_shutdownRequested :
    (state.clearRequestCancellation key source).shutdownRequested = state.shutdownRequested := by
  unfold clearRequestCancellation
  split
  · rfl
  · split
    · rfl
    · split <;> rfl

end LanguageServerRuntimeState

/-! ### Phases -/

def Phase.outcome : Phase → Option Outcome
  | .finished outcome | .cleared outcome => some outcome
  | _ => none

/-- The request has not been served. -/
def Phase.Refused : Phase → Prop
  | .queued | .admitted => True
  | .running => False
  | .finished outcome | .cleared outcome => outcome = .notInitialized ∨ outcome = .shuttingDown

/-- The steps that a request has before it. -/
def Phase.left : Phase → ℕ
  | .queued => 4
  | .admitted => 3
  | .running => 2
  | .finished _ => 1
  | .cleared _ => 0

/-- The session has not been reset. -/
def MainThread.open : MainThread → Bool
  | .returned _ => false
  | _ => true

namespace Session

/-! ### Moves -/

/-- What an event does. -/
inductive Move (s : Session) : Session → Prop where
  | receive (currentRequestId : Option MessageId) (hmain : s.main = .reading)
      (hnew : ∀ request ∈ s.requests, request.phase.pending →
        request.key ≠ (requestKey currentRequestId s.counter).1) :
      Move s { s with
        runtime := s.runtime.registerRequestCancellation (requestKey currentRequestId s.counter).1
          s.requests.length
        requests := s.requests ++ [⟨currentRequestId, (requestKey currentRequestId s.counter).1,
          .queued, false, s.runtime.shutdownRequested⟩]
        counter := (requestKey currentRequestId s.counter).2 }
  | cancelRequest (id : CancelId) (hmain : s.main = .reading) :
      Move s { s with
        requests := s.requests.map fun request =>
          if id.names request.id then request.ask else request
        stops := s.stops ++
          (s.runtime.cancelRequestByKey (request_key_from_cancel_id id)).toList }
  | stop (i : ℕ) (stops : List ℕ) (hstops : s.stops = i :: stops) :
      Move s { s with stopped := update s.stopped i true, stops := stops }
  /-- A flag is set. -/
  | lifecycle (runtime : LanguageServerRuntimeState) (hmain : s.main = .reading)
      (hsame : runtime.requestCancellation = s.runtime.requestCancellation)
      (hshutdown : s.runtime.shutdownRequested → runtime.shutdownRequested) :
      Move s (s.setRuntime runtime)
  | leave (hmain : s.main = .reading) :
      Move s { s with main := .left s.runtime.shutdownRequested }
  | fireDocumentUpdate (hmain : s.main = .reading) : Move s { s with updates := s.updates + 1 }
  | endUpdate (updates : ℕ) (hupdates : s.updates = updates + 1) :
      Move s { s with updates := updates }
  | drain (shutdownRequested : Bool) (hmain : s.main = .left shutdownRequested)
      (hwait : shutdownRequested → s.runtime.requestCancellation = []) :
      Move s { s with main := .drained shutdownRequested }
  | quiesce (shutdownRequested : Bool) (hmain : s.main = .drained shutdownRequested)
      (hupdates : s.updates = 0) : Move s { s with main := .quiesced shutdownRequested }
  | return (shutdownRequested : Bool) (hmain : s.main = .quiesced shutdownRequested) :
      Move s { s with
        runtime := s.runtime.reset.1
        requests := s.requests.map Request.ask
        stops := s.stops ++ s.runtime.reset.2
        main := .returned (if shutdownRequested then 0 else 1) }
  /-- A worker takes a request further. -/
  | advance (i : ℕ) (request : Request) (phase : Phase) (hget : s.requests[i]? = some request)
      (hpending : request.phase.pending) (hpending' : phase.pending)
      (hleft : phase.left < request.phase.left)
      (hserved : phase.Refused ∨ s.runtime.shutdownRequested = false ∨ request.phase = .running)
      (hcancelled : phase.outcome = some .cancelled → s.stopped i) :
      Move s (s.setPhase i phase)
  | clear (i : ℕ) (request : Request) (outcome : Outcome) (hget : s.requests[i]? = some request)
      (hphase : request.phase = .finished outcome) :
      Move s ((s.setPhase i (.cleared outcome)).setRuntime
        (s.runtime.clearRequestCancellation request.key i))

variable {s s' : Session} {i : ℕ} {request : Request}

theorem of_work {phase : Phase} {next : Request → Option Session}
    (h : s.work i phase next = some s') :
    ∃ request, s.requests[i]? = some request ∧ request.phase = phase ∧ next request = some s' := by
  unfold work at h
  split at h
  · cases h
  next request hget =>
    split at h
    next hphase => exact ⟨request, hget, hphase, h⟩
    · cases h

theorem work_eq {phase : Phase} {next : Request → Option Session}
    (hget : s.requests[i]? = some request) (hphase : request.phase = phase) :
    s.work i phase next = next request := by
  rw [work, hget]
  exact if_pos hphase

theorem move_of_step {e : SessionEvent} (hallowed : s.Allowed e) (h : s.step e = some s') :
    s.Move s' := by
  cases e with
  | receive currentRequestId =>
    rw [step] at h
    split at h
    next hmain =>
      cases h
      exact .receive currentRequestId hmain hallowed
    · cases h
  | cancelRequest id =>
    rw [step] at h
    split at h
    next hmain =>
      cases h
      exact .cancelRequest id hmain
    · cases h
  | stop =>
    rw [step] at h
    split at h
    · cases h
    next i stops hstops =>
      cases h
      exact .stop i stops hstops
  | initializeRequest succeeds =>
    rw [step] at h
    split at h
    next hmain =>
      split at h <;> cases h
      · exact .lifecycle s.runtime hmain rfl id
      · exact .lifecycle _ hmain rfl id
    · cases h
  | shutdown =>
    rw [step] at h
    split at h
    next hmain =>
      cases h
      exact .lifecycle _ hmain rfl fun _ => rfl
    · cases h
  | exit =>
    rw [step] at h
    split at h
    next hmain =>
      cases h
      exact .lifecycle _ hmain rfl id
    · cases h
  | fireDocumentUpdate =>
    rw [step] at h
    split at h
    next hmain =>
      cases h
      exact .fireDocumentUpdate hmain.1
    · cases h
  | endUpdate =>
    rw [step] at h
    split at h
    · cases h
    next updates hupdates =>
      cases h
      exact .endUpdate updates hupdates
  | leave exception =>
    rw [step] at h
    split at h
    next hmain =>
      cases h
      exact .leave hmain.1
    · cases h
  | drain =>
    rw [step] at h
    split at h
    next shutdownRequested hmain =>
      split at h
      · cases h
      next hwait =>
        cases h
        refine .drain shutdownRequested hmain fun hrequested => ?_
        refine List.isEmpty_iff.mp (Classical.byContradiction fun hsome => ?_)
        exact hwait ⟨hrequested, hsome⟩
    · cases h
  | quiesce =>
    rw [step] at h
    split at h
    next shutdownRequested hmain =>
      split at h
      next hupdates =>
        cases h
        exact .quiesce shutdownRequested hmain hupdates
      · cases h
    · cases h
  | «return» =>
    rw [step] at h
    split at h
    next shutdownRequested hmain =>
      cases h
      exact .return shutdownRequested hmain
    · cases h
  | askInitialized i =>
    obtain ⟨request, hget, hphase, h⟩ := of_work h
    cases h
    refine .advance i request _ hget (by rw [hphase]; rfl) ?_ ?_ (.inl ?_) ?_
    all_goals rw [hphase] at *
    all_goals split <;> simp [Phase.pending, Phase.left, Phase.Refused, Phase.outcome]
  | askShutdown i =>
    obtain ⟨request, hget, hphase, h⟩ := of_work h
    cases h
    refine .advance i request _ hget (by rw [hphase]; rfl) ?_ ?_ ?_ ?_
    · split <;> rfl
    · rw [hphase]
      split <;> decide
    · split
      · exact .inl (.inr rfl)
      next hrunning => exact .inr (.inl (Bool.not_eq_true _ ▸ hrunning))
    · split <;> simp [Phase.outcome]
  | throwIfCancelled i =>
    obtain ⟨request, hget, hphase, h⟩ := of_work h
    split at h
    next hstopped =>
      cases h
      refine .advance i request _ hget (by rw [hphase]; rfl) rfl (by rw [hphase]; decide)
        (.inr (.inr hphase)) fun _ => hstopped
    · cases h
  | rethrowCancelled i =>
    obtain ⟨request, hget, hphase, h⟩ := of_work h
    cases h
    refine .advance i request _ hget (by rw [hphase]; rfl) rfl (by rw [hphase]; decide)
      (.inr (.inr hphase)) fun houtcome => ?_
    cases houtcome
  | finish i succeeds =>
    obtain ⟨request, hget, hphase, h⟩ := of_work h
    cases h
    have hleft : 1 < request.phase.left := by
      rw [hphase]
      decide
    refine .advance i request _ hget (by rw [hphase]; rfl) rfl hleft (.inr (.inr hphase)) ?_
    cases succeeds <;> exact fun houtcome => by cases houtcome
  | clear i =>
    rw [step] at h
    split at h
    next id key outcome asked late hget =>
      cases h
      exact .clear i _ outcome hget rfl
    · cases h

/-! ### What is registered -/

/-- The registry and the requests agree. -/
structure Tracked (s : Session) : Prop where
  keyed : ∀ request ∈ s.requests, request.key ≠ "" ∧
    ∀ id : CancelId, id.names request.id ↔ request.key = request_key_from_cancel_id id
  alone : ∀ (i j : ℕ) (request request' : Request), s.requests[i]? = some request →
    s.requests[j]? = some request' → request.phase.pending → request'.phase.pending →
      request.key = request'.key → i = j
  registered : ∀ (key : String) (i : ℕ), (key, i) ∈ s.runtime.requestCancellation ↔
    s.main.open ∧
      ∃ request, s.requests[i]? = some request ∧ request.key = key ∧ request.phase.pending
  late : ∀ request ∈ s.requests, request.late → request.phase.pending →
    s.runtime.shutdownRequested
  leaving : ∀ shutdownRequested, s.main = .left shutdownRequested ∨
    s.main = .drained shutdownRequested ∨ s.main = .quiesced shutdownRequested →
      s.runtime.shutdownRequested = shutdownRequested
  drained : s.main = .drained true ∨ s.main = .quiesced true ∨ s.main = .returned 0 →
    ∀ request ∈ s.requests, request.phase.pending = false

theorem tracked_initial : initial.Tracked where
  keyed request h := by cases h
  alone i j request request' h := by cases h
  registered key i := by simp [initial]
  late request h := by cases h
  leaving shutdownRequested h := by
    rcases h with h | h | h <;> cases h
  drained _ request h := by cases h

/-- What is registered for a key. -/
theorem Tracked.lookup_iff (h : s.Tracked) {key : String} :
    s.runtime.requestCancellation.lookup key = some i ↔ s.main.open ∧
      ∃ request, s.requests[i]? = some request ∧ request.key = key ∧ request.phase.pending := by
  rw [LanguageServerRuntimeState.lookup_iff, h.registered]
  intro j hj hi
  obtain ⟨-, request, hget, hkey, hpending⟩ := (h.registered key j).mp hj
  obtain ⟨-, request', hget', hkey', hpending'⟩ := (h.registered key i).mp hi
  exact h.alone j i request request' hget hget' hpending hpending' (hkey.trans hkey'.symm)

/-- What the registry depends on stays, but the request may be through. -/
structure Comes (request request' : Request) : Prop where
  id : request'.id = request.id
  key : request'.key = request.key
  late : request'.late = request.late
  pending : request'.phase.pending → request.phase.pending

/-- Each request comes from one before. -/
def Descends (requests requests' : List Request) : Prop :=
  ∀ (i : ℕ) request', requests'[i]? = some request' →
    ∃ request, requests[i]? = some request ∧ Comes request request'

theorem descends_refl (requests : List Request) : Descends requests requests :=
  fun _ request hget => ⟨request, hget, rfl, rfl, rfl, id⟩

theorem descends_map (requests : List Request) {f : Request → Request}
    (hcomes : ∀ request, Comes request (f request)) : Descends requests (requests.map f) := by
  intro i request' hget'
  obtain ⟨request, hget, rfl⟩ := Option.map_eq_some_iff.mp (List.getElem?_map .. ▸ hget')
  exact ⟨request, hget, hcomes request⟩

theorem Descends.mem {requests requests' : List Request} (h : Descends requests requests')
    {request' : Request} (hmem : request' ∈ requests') :
    ∃ request ∈ requests, Comes request request' := by
  obtain ⟨i, hi, rfl⟩ := List.getElem_of_mem hmem
  obtain ⟨request, hget, hcomes⟩ := h i _ (List.getElem?_eq_getElem hi)
  exact ⟨request, List.mem_of_getElem? hget, hcomes⟩

theorem ask_phase (request : Request) : request.ask.phase = request.phase := by
  unfold Request.ask
  split <;> rfl

theorem ask_late (request : Request) : request.ask.late = request.late := by
  unfold Request.ask
  split <;> rfl

theorem ask_asked (request : Request) :
    request.ask.asked ↔ request.asked ∨ request.phase.pending := by
  unfold Request.ask
  split
  next hpending => exact ⟨fun _ => .inr hpending, fun _ => rfl⟩
  next hpending => exact ⟨.inl, fun h => h.resolve_right hpending⟩

theorem comes_ask (request : Request) : Comes request request.ask := by
  unfold Request.ask
  split <;> exact ⟨rfl, rfl, rfl, id⟩

theorem getElem?_setPhase (s : Session) (i j : ℕ) (phase : Phase) :
    (s.setPhase i phase).requests[j]? = (s.requests[j]?).map fun request =>
      if i = j then { request with phase := phase } else request :=
  List.getElem?_modify ..

theorem getElem?_setPhase_eq {phase : Phase} (hget : s.requests[i]? = some request) :
    (s.setPhase i phase).requests[i]? = some { request with phase := phase } := by
  rw [getElem?_setPhase, hget, Option.map_some, if_pos rfl]

theorem getElem?_setPhase_ne {j : ℕ} (phase : Phase) (hne : i ≠ j) :
    (s.setPhase i phase).requests[j]? = s.requests[j]? := by
  rw [getElem?_setPhase]
  simp only [if_neg hne, Option.map_id']

theorem descends_setPhase {phase : Phase} (hget : s.requests[i]? = some request)
    (hpending : request.phase.pending) : Descends s.requests (s.setPhase i phase).requests := by
  intro j request' hget'
  by_cases hij : i = j
  · subst hij
    rw [getElem?_setPhase_eq hget] at hget'
    cases hget'
    exact ⟨request, hget, rfl, rfl, rfl, fun _ => hpending⟩
  · rw [getElem?_setPhase_ne phase hij] at hget'
    exact descends_refl _ j request' hget'

/-- The registry of a session whose requests come from those of another. -/
theorem Tracked.descend (h : s.Tracked) (hdescends : Descends s.requests s'.requests)
    (hregistered : ∀ (key : String) (i : ℕ), (key, i) ∈ s'.runtime.requestCancellation ↔
      s'.main.open ∧
        ∃ request, s'.requests[i]? = some request ∧ request.key = key ∧ request.phase.pending)
    (hshutdown : ∀ request ∈ s'.requests, request.phase.pending →
      s.runtime.shutdownRequested → s'.runtime.shutdownRequested)
    (hleaving : ∀ shutdownRequested, s'.main = .left shutdownRequested ∨
      s'.main = .drained shutdownRequested ∨ s'.main = .quiesced shutdownRequested →
        s'.runtime.shutdownRequested = shutdownRequested)
    (hdrained : s'.main = .drained true ∨ s'.main = .quiesced true ∨ s'.main = .returned 0 →
      ∀ request ∈ s.requests, request.phase.pending = false) : s'.Tracked where
  keyed request' hmem := by
    obtain ⟨request, hmem, hcomes⟩ := hdescends.mem hmem
    rw [hcomes.key, hcomes.id]
    exact h.keyed request hmem
  alone i j r r' hr hr' hp hp' hkey := by
    obtain ⟨r₀, hr₀, hcomes⟩ := hdescends i r hr
    obtain ⟨r₀', hr₀', hcomes'⟩ := hdescends j r' hr'
    rw [hcomes.key, hcomes'.key] at hkey
    exact h.alone i j r₀ r₀' hr₀ hr₀' (hcomes.pending hp) (hcomes'.pending hp') hkey
  registered := hregistered
  late request' hmem hlate hpending := by
    obtain ⟨request, hmem₀, hcomes⟩ := hdescends.mem hmem
    rw [hcomes.late] at hlate
    exact hshutdown request' hmem hpending
      (h.late request hmem₀ hlate (hcomes.pending hpending))
  leaving := hleaving
  drained hmain request' hmem := by
    obtain ⟨request, hmem, hcomes⟩ := hdescends.mem hmem
    by_contra hpending
    rw [Bool.not_eq_false] at hpending
    have hbefore := hcomes.pending hpending
    rw [hdrained hmain request hmem] at hbefore
    cases hbefore

/-- Requests of which as many are pending as before. -/
theorem Tracked.replace (h : s.Tracked) (hdescends : Descends s.requests s'.requests)
    (hback : ∀ (i : ℕ) request, s.requests[i]? = some request → request.phase.pending →
      ∃ request', s'.requests[i]? = some request' ∧ request'.key = request.key ∧
        request'.phase.pending)
    (hruntime : s'.runtime = s.runtime) (hmain : s'.main = s.main) : s'.Tracked := by
  refine h.descend hdescends (fun key i => ?_) (fun _ _ _ hrequested => ?_) ?_ ?_
  · rw [hruntime, hmain, h.registered]
    refine and_congr_right fun _ => ⟨?_, ?_⟩
    · rintro ⟨request, hget, hkey, hpending⟩
      obtain ⟨request', hget', hkey', hpending'⟩ := hback i request hget hpending
      exact ⟨request', hget', hkey'.trans hkey, hpending'⟩
    · rintro ⟨request', hget', hkey, hpending⟩
      obtain ⟨request, hget, hcomes⟩ := hdescends i request' hget'
      exact ⟨request, hget, hcomes.key.symm.trans hkey, hcomes.pending hpending⟩
  · rw [hruntime]
    exact hrequested
  · rw [hruntime, hmain]
    exact h.leaving
  · rw [hmain]
    exact h.drained

theorem getElem?_concat_iff {α : Type*} {l : List α} {a b : α} {i : ℕ} :
    (l ++ [a])[i]? = some b ↔ l[i]? = some b ∨ i = l.length ∧ a = b := by
  rcases Nat.lt_trichotomy i l.length with hi | rfl | hi
  · rw [List.getElem?_append_left hi]
    exact ⟨.inl, fun h => h.resolve_right fun h => absurd h.1 (Nat.ne_of_lt hi)⟩
  · rw [List.getElem?_concat_length, List.getElem?_eq_none (Nat.le_refl _)]
    simp
  · rw [List.getElem?_eq_none (by rw [List.length_append, List.length_singleton]; omega),
      List.getElem?_eq_none (Nat.le_of_lt hi)]
    simp [Nat.ne_of_gt hi]

/-- A request is registered. -/
theorem Tracked.receive (h : s.Tracked) (currentRequestId : Option MessageId)
    (hmain : s.main = .reading)
    (hnew : ∀ request ∈ s.requests, request.phase.pending →
      request.key ≠ (requestKey currentRequestId s.counter).1) :
    Tracked { s with
      runtime := s.runtime.registerRequestCancellation (requestKey currentRequestId s.counter).1
        s.requests.length
      requests := s.requests ++ [⟨currentRequestId, (requestKey currentRequestId s.counter).1,
        .queued, false, s.runtime.shutdownRequested⟩]
      counter := (requestKey currentRequestId s.counter).2 } := by
  have hkey := requestKey_ne_empty currentRequestId s.counter
  have hshutdown : (s.runtime.registerRequestCancellation
      (requestKey currentRequestId s.counter).1 s.requests.length).shutdownRequested
        = s.runtime.shutdownRequested := by
    unfold LanguageServerRuntimeState.registerRequestCancellation
    rw [if_neg hkey]
  refine ⟨fun request hmem => ?_, fun i j r r' hr hr' hp hp' hsame => ?_, fun key i => ?_,
    fun request hmem hlate hpending => ?_, fun b hb => ?_, fun hb => ?_⟩
  · rcases List.mem_append.mp hmem with hmem | hmem
    · exact h.keyed request hmem
    · rw [List.mem_singleton.mp hmem]
      exact ⟨hkey, fun id => names_iff id currentRequestId s.counter⟩
  · rcases getElem?_concat_iff.mp hr with hr | ⟨rfl, rfl⟩ <;>
      rcases getElem?_concat_iff.mp hr' with hr' | ⟨rfl, rfl⟩
    · exact h.alone i j r r' hr hr' hp hp' hsame
    -- no pending request has the key of the new one
    · exact absurd hsame (hnew r (List.mem_of_getElem? hr) hp)
    · exact absurd hsame.symm (hnew r' (List.mem_of_getElem? hr') hp')
    · rfl
  · rw [LanguageServerRuntimeState.mem_register hkey, h.registered]
    constructor
    · rintro (⟨rfl, rfl⟩ | ⟨-, hopen, request, hget, hsame, hpending⟩)
      · exact ⟨by rw [hmain]; rfl, _, getElem?_concat_iff.mpr (.inr ⟨rfl, rfl⟩), rfl, rfl⟩
      · exact ⟨hopen, request, getElem?_concat_iff.mpr (.inl hget), hsame, hpending⟩
    · rintro ⟨hopen, request, hget, rfl, hpending⟩
      rcases getElem?_concat_iff.mp hget with hget | ⟨rfl, rfl⟩
      · exact .inr ⟨hnew request (List.mem_of_getElem? hget) hpending, hopen, request, hget, rfl,
          hpending⟩
      · exact .inl ⟨rfl, rfl⟩
  · show LanguageServerRuntimeState.shutdownRequested _ = true
    rw [hshutdown]
    rcases List.mem_append.mp hmem with hmem | hmem
    · exact h.late request hmem hlate hpending
    · rw [List.mem_singleton.mp hmem] at hlate
      exact hlate
  · rcases hb with hb | hb | hb <;> exact absurd (hmain.symm.trans hb) (by simp)
  · rcases hb with hb | hb | hb <;> exact absurd (hmain.symm.trans hb) (by simp)

/-- A source is taken out. -/
theorem Tracked.clear (h : s.Tracked) {outcome : Outcome} (hget : s.requests[i]? = some request)
    (hphase : request.phase = .finished outcome) :
    ((s.setPhase i (.cleared outcome)).setRuntime
      (s.runtime.clearRequestCancellation request.key i)).Tracked := by
  have hpending : request.phase.pending := by
    rw [hphase]
    rfl
  have hkey := (h.keyed request (List.mem_of_getElem? hget)).1
  refine h.descend (descends_setPhase hget hpending) (fun key j => ?_)
    (fun _ _ _ hrequested => ?_) (fun b hb => ?_) fun hb => h.drained hb
  · show (key, j) ∈ (s.runtime.clearRequestCancellation _ _).requestCancellation ↔ s.main.open ∧
      ∃ request, (s.setPhase i (.cleared outcome)).requests[j]? = some request ∧ _
    by_cases hopen : s.main.open
    · have hlookup := h.lookup_iff.mpr ⟨hopen, request, hget, rfl, hpending⟩
      rw [LanguageServerRuntimeState.mem_clear hkey hlookup, h.registered]
      constructor
      · rintro ⟨hne, -, r, hr, rfl, hp⟩
        -- the entry that is left has another key, so it is of another request
        have hij : i ≠ j := by
          rintro rfl
          rw [hget] at hr
          cases hr
          exact hne rfl
        exact ⟨hopen, r, (getElem?_setPhase_ne _ hij).trans hr, rfl, hp⟩
      · rintro ⟨-, r, hr, rfl, hp⟩
        have hij : i ≠ j := by
          rintro rfl
          rw [getElem?_setPhase_eq hget] at hr
          cases hr
          cases hp
        rw [getElem?_setPhase_ne _ hij] at hr
        exact ⟨fun hsame => hij (h.alone i j request r hget hr hpending hp hsame.symm), hopen, r,
          hr, rfl, hp⟩
    · -- the registry has been emptied before
      have hempty : s.runtime.requestCancellation = [] := by
        refine List.eq_nil_iff_forall_not_mem.mpr fun entry hmem => ?_
        exact hopen ((h.registered entry.1 entry.2).mp hmem).1
      rw [LanguageServerRuntimeState.clear_of_empty hempty, hempty]
      exact ⟨fun hmem => (by cases hmem), fun hall => absurd hall.1 hopen⟩
  · show (s.runtime.clearRequestCancellation _ _).shutdownRequested = true
    rw [LanguageServerRuntimeState.clear_shutdownRequested]
    exact hrequested
  · show (s.runtime.clearRequestCancellation _ _).shutdownRequested = b
    rw [LanguageServerRuntimeState.clear_shutdownRequested]
    exact h.leaving b hb

/-- Every move keeps the registry and the requests in step. -/
theorem Tracked.move (h : s.Tracked) (hmove : s.Move s') : s'.Tracked := by
  cases hmove with
  | receive currentRequestId hmain hnew => exact h.receive currentRequestId hmain hnew
  | cancelRequest id hmain =>
    -- whom the client asked to stop is no matter of the registry
    have hcomes : ∀ request : Request,
        Comes request (if id.names request.id then request.ask else request) := by
      intro request
      split
      · exact comes_ask request
      · exact ⟨rfl, rfl, rfl, fun hpending => hpending⟩
    refine h.replace (descends_map _ hcomes) (fun i request hget hpending => ?_) rfl rfl
    refine ⟨_, (List.getElem?_map ..).trans (by rw [hget]; rfl), (hcomes request).key, ?_⟩
    split
    · rw [ask_phase]
      exact hpending
    · exact hpending
  | stop i stops hstops =>
    exact ⟨h.keyed, h.alone, h.registered, h.late, h.leaving, h.drained⟩
  | lifecycle runtime hmain hsame hshutdown =>
    -- still in the loop: nothing is asked of the phases after it
    refine h.descend (descends_refl _) (fun key i => ?_)
      (fun _ _ _ => hshutdown) (fun b hb => ?_) fun hb => ?_
    · show (key, i) ∈ runtime.requestCancellation ↔ _
      rw [hsame]
      exact h.registered key i
    · rcases hb with hb | hb | hb <;> exact absurd (hmain.symm.trans hb) (by simp)
    · exact h.drained hb
  | leave hmain =>
    -- the loop is left with what was requested until then
    refine h.descend (descends_refl _) (fun key i => ?_)
      (fun _ _ _ hrequested => hrequested) (fun b hb => ?_) fun hb => ?_
    · rw [h.registered, hmain]
      rfl
    · rcases hb with hb | hb | hb <;> cases hb
      rfl
    · rcases hb with hb | hb | hb <;> cases hb
  | fireDocumentUpdate | endUpdate =>
    exact ⟨h.keyed, h.alone, h.registered, h.late, h.leaving, h.drained⟩
  | drain shutdownRequested hmain hwait =>
    refine h.descend (descends_refl _) (fun key i => ?_)
      (fun _ _ _ hrequested => hrequested) (fun b hb => ?_) fun hb request hmem => ?_
    · rw [h.registered, hmain]
      rfl
    · rcases hb with hb | hb | hb <;> cases hb
      exact h.leaving _ (.inl hmain)
    · rcases hb with hb | hb | hb <;> cases hb
      -- what is pending is registered, and nothing is
      by_contra hpending
      rw [Bool.not_eq_false] at hpending
      obtain ⟨i, hi, rfl⟩ := List.getElem_of_mem hmem
      have hregistered := (h.registered _ i).mpr
        ⟨by rw [hmain]; rfl, _, List.getElem?_eq_getElem hi, rfl, hpending⟩
      rw [hwait rfl] at hregistered
      cases hregistered
  | quiesce shutdownRequested hmain =>
    refine h.descend (descends_refl _) (fun key i => ?_)
      (fun _ _ _ hrequested => hrequested) (fun b hb => ?_) fun hb => ?_
    · rw [h.registered, hmain]
      rfl
    · rcases hb with hb | hb | hb <;> cases hb
      exact h.leaving _ (.inr (.inl hmain))
    · rcases hb with hb | hb | hb <;> cases hb
      exact h.drained (.inl hmain)
  | «return» shutdownRequested hmain =>
    have hdescends := descends_map s.requests comes_ask
    -- the registry is emptied; what came after a shutdown has been waited for
    have hdrained : shutdownRequested = true → ∀ request ∈ s.requests,
        request.phase.pending = false := fun hb => h.drained (.inr (.inl (hb ▸ hmain)))
    refine h.descend hdescends (fun key i => ⟨fun hmem => (by cases hmem), fun hall => ?_⟩)
      (fun request' hmem hpending hrequested => ?_) (fun b hb => ?_) fun hb => ?_
    · exact absurd hall.1 Bool.false_ne_true
    · obtain ⟨request, hmem, hcomes⟩ := hdescends.mem hmem
      have hb := (h.leaving _ (.inr (.inr hmain))).symm.trans hrequested
      have hbefore := hcomes.pending hpending
      rw [hdrained hb request hmem] at hbefore
      cases hbefore
    · rcases hb with hb | hb | hb <;> cases hb
    · refine hdrained ?_
      cases shutdownRequested with
      | true => rfl
      | false => rcases hb with hb | hb | hb <;> cases hb
  | advance i request phase hget hpending hpending' =>
    refine h.replace (descends_setPhase hget hpending) (fun j r hr hp => ?_) rfl rfl
    by_cases hij : i = j
    · subst hij
      rw [hget] at hr
      cases hr
      exact ⟨_, getElem?_setPhase_eq hget, rfl, hpending'⟩
    · exact ⟨r, (getElem?_setPhase_ne _ hij).trans hr, rfl, hp⟩
  | clear i request outcome hget hphase => exact h.clear hget hphase

/-! ### What is stopped -/

/-- A request is asked to stop exactly when its source is stopped, or will be next; only one
that was asked is cancelled, and what came after a shutdown is refused. -/
structure Answered (s : Session) : Prop where
  bounded : ∀ i, s.stopped i ∨ i ∈ s.stops → i < s.requests.length
  asked : ∀ (i : ℕ) request, s.requests[i]? = some request →
    (request.asked ↔ s.stopped i ∨ i ∈ s.stops)
  cancelled : ∀ request ∈ s.requests, request.phase.outcome = some .cancelled → request.asked
  refused : ∀ request ∈ s.requests, request.late → request.phase.Refused

theorem answered_initial : initial.Answered where
  bounded i h := by
    rcases h with h | h <;> cases h
  asked i request h := by cases h
  cancelled request h := by cases h
  refused request h := by cases h

/-- Some of the requests are asked to stop: the pending ones among those that are meant. -/
theorem Answered.asking (h : s.Answered) (meant : Request → Bool) (found : List ℕ)
    (hfound : ∀ i, i ∈ found ↔
      ∃ request, s.requests[i]? = some request ∧ meant request ∧ request.phase.pending)
    (hrequests : s'.requests = s.requests.map fun request =>
      if meant request then request.ask else request)
    (hstopped : s'.stopped = s.stopped) (hstops : s'.stops = s.stops ++ found) :
    s'.Answered := by
  have hphase : ∀ request : Request,
      (if meant request then request.ask else request).phase = request.phase := by
    intro request
    split
    · exact ask_phase request
    · rfl
  have hlate : ∀ request : Request,
      (if meant request then request.ask else request).late = request.late := by
    intro request
    split
    · exact ask_late request
    · rfl
  have hasked : ∀ request : Request, (if meant request then request.ask else request).asked ↔
      request.asked ∨ meant request ∧ request.phase.pending := by
    intro request
    split
    next hmeant => rw [ask_asked, and_iff_right hmeant]
    next hmeant => exact ⟨.inl, fun h => h.resolve_right fun h => hmeant h.1⟩
  refine ⟨fun i hi => ?_, fun i request' hget' => ?_, fun request' hmem hcancelled => ?_,
    fun request' hmem hlate' => ?_⟩
  · rw [hrequests, List.length_map]
    rw [hstopped, hstops, List.mem_append, ← or_assoc] at hi
    rcases hi with hi | hi
    · exact h.bounded i hi
    · obtain ⟨request, hget, -⟩ := (hfound i).mp hi
      exact (List.getElem?_eq_some_iff.mp hget).1
  · rw [hrequests, List.getElem?_map] at hget'
    obtain ⟨request, hget, rfl⟩ := Option.map_eq_some_iff.mp hget'
    rw [hasked, h.asked i request hget, hstopped, hstops, List.mem_append, ← or_assoc, hfound]
    refine or_congr_right ⟨fun hmeant => ⟨request, hget, hmeant⟩, ?_⟩
    rintro ⟨request', hget', hmeant⟩
    rw [hget] at hget'
    cases hget'
    exact hmeant
  · rw [hrequests] at hmem
    obtain ⟨request, hbefore, rfl⟩ := List.mem_map.mp hmem
    rw [hphase] at hcancelled
    exact (hasked request).mpr (.inl (h.cancelled request hbefore hcancelled))
  · rw [hrequests] at hmem
    obtain ⟨request, hbefore, rfl⟩ := List.mem_map.mp hmem
    rw [hlate] at hlate'
    rw [hphase]
    exact h.refused request hbefore hlate'

/-- One request goes on. -/
theorem Answered.setPhase (h : s.Answered) {phase : Phase} (hget : s.requests[i]? = some request)
    (hcancelled : phase.outcome = some .cancelled → request.asked)
    (hrefused : request.late → phase.Refused) : (s.setPhase i phase).Answered := by
  have hmem : ∀ request' ∈ (s.setPhase i phase).requests,
      request' = { request with phase := phase } ∨ request' ∈ s.requests := by
    intro request' hmem
    obtain ⟨j, hj, rfl⟩ := List.getElem_of_mem hmem
    have hget' := List.getElem?_eq_getElem hj
    by_cases hij : i = j
    · subst hij
      rw [getElem?_setPhase_eq hget] at hget'
      exact .inl (Option.some.inj hget').symm
    · rw [getElem?_setPhase_ne phase hij] at hget'
      exact .inr (List.mem_of_getElem? hget')
  refine ⟨fun j hj => ?_, fun j request' hget' => ?_, fun request' hmem' houtcome => ?_,
    fun request' hmem' hlate => ?_⟩
  · show j < (s.requests.modify i _).length
    rw [List.length_modify]
    exact h.bounded j hj
  · by_cases hij : i = j
    · subst hij
      rw [getElem?_setPhase_eq hget] at hget'
      cases hget'
      exact h.asked i request hget
    · rw [getElem?_setPhase_ne phase hij] at hget'
      exact h.asked j request' hget'
  · rcases hmem request' hmem' with rfl | hmem'
    · exact hcancelled houtcome
    · exact h.cancelled request' hmem' houtcome
  · rcases hmem request' hmem' with rfl | hmem'
    · exact hrefused hlate
    · exact h.refused request' hmem' hlate

theorem mem_cancelRequestByKey (htracked : s.Tracked) (hmain : s.main = .reading) (id : CancelId) :
    i ∈ (s.runtime.cancelRequestByKey (request_key_from_cancel_id id)).toList ↔
      ∃ request, s.requests[i]? = some request ∧ id.names request.id ∧ request.phase.pending := by
  have hkey : request_key_from_cancel_id id ≠ "" := by
    cases id <;> simp [request_key_from_cancel_id]
  have hopen : s.main.open := by
    rw [hmain]
    rfl
  unfold LanguageServerRuntimeState.cancelRequestByKey
  rw [if_neg hkey, Option.mem_toList, htracked.lookup_iff, and_iff_right hopen]
  refine exists_congr fun request => and_congr_right fun hget => and_congr_left fun _ => ?_
  exact ((htracked.keyed request (List.mem_of_getElem? hget)).2 id).symm

theorem mem_reset (htracked : s.Tracked) (hopen : s.main.open) :
    i ∈ s.runtime.reset.2 ↔ ∃ request, s.requests[i]? = some request ∧ request.phase.pending := by
  show i ∈ s.runtime.requestCancellation.map Prod.snd ↔ _
  rw [List.mem_map]
  constructor
  · rintro ⟨⟨key, i⟩, hmem, rfl⟩
    obtain ⟨-, request, hget, -, hpending⟩ := (htracked.registered key i).mp hmem
    exact ⟨request, hget, hpending⟩
  · rintro ⟨request, hget, hpending⟩
    exact ⟨(request.key, i),
      (htracked.registered _ _).mpr ⟨hopen, request, hget, rfl, hpending⟩, rfl⟩

theorem Answered.move (h : s.Answered) (htracked : s.Tracked) (hmove : s.Move s') :
    s'.Answered := by
  cases hmove with
  | receive currentRequestId hmain hnew =>
    refine ⟨fun i hi => ?_, fun i request hget => ?_, fun request hmem hcancelled => ?_,
      fun request hmem hlate => ?_⟩
    · have hlt := h.bounded i hi
      rw [List.length_append, List.length_singleton]
      omega
    · rcases getElem?_concat_iff.mp hget with hget | ⟨rfl, rfl⟩
      · exact h.asked i request hget
      -- nothing is stopped at an index that was not given before
      · exact iff_of_false Bool.false_ne_true fun hi => Nat.lt_irrefl _ (h.bounded _ hi)
    · rcases List.mem_append.mp hmem with hmem | hmem
      · exact h.cancelled request hmem hcancelled
      · rw [List.mem_singleton.mp hmem] at hcancelled
        cases hcancelled
    · rcases List.mem_append.mp hmem with hmem | hmem
      · exact h.refused request hmem hlate
      · rw [List.mem_singleton.mp hmem]
        trivial
  | cancelRequest id hmain =>
    exact h.asking (fun request => id.names request.id) _
      (fun i => mem_cancelRequestByKey htracked hmain id) rfl rfl rfl
  | stop i stops hstops =>
    have hiff : ∀ j, update s.stopped i true j ∨ j ∈ stops ↔ s.stopped j ∨ j ∈ s.stops := by
      intro j
      rw [hstops, List.mem_cons]
      by_cases hj : j = i
      · subst hj
        rw [Function.update_self]
        exact iff_of_true (.inl rfl) (.inr (.inl rfl))
      · rw [Function.update_of_ne hj, or_iff_right (a := j = i) hj]
    exact ⟨fun j hj => h.bounded j ((hiff j).mp hj),
      fun j request hget => (h.asked j request hget).trans (hiff j).symm, h.cancelled, h.refused⟩
  | lifecycle runtime hmain => exact ⟨h.bounded, h.asked, h.cancelled, h.refused⟩
  | leave hmain => exact ⟨h.bounded, h.asked, h.cancelled, h.refused⟩
  | fireDocumentUpdate | endUpdate => exact ⟨h.bounded, h.asked, h.cancelled, h.refused⟩
  | drain shutdownRequested hmain => exact ⟨h.bounded, h.asked, h.cancelled, h.refused⟩
  | quiesce shutdownRequested hmain => exact ⟨h.bounded, h.asked, h.cancelled, h.refused⟩
  | «return» shutdownRequested hmain =>
    -- the reset stops what is registered, which is all that is pending
    refine h.asking (fun _ => true) _ (fun i => ?_) rfl rfl rfl
    rw [mem_reset htracked (by rw [hmain]; rfl)]
    simp
  | advance i request phase hget hpending hpending' hleft hserved hcancelled =>
    have hmem := List.mem_of_getElem? hget
    refine h.setPhase hget (fun houtcome => ?_) fun hlate => ?_
    · exact (h.asked i request hget).mpr (.inl (hcancelled houtcome))
    · rcases hserved with hrefused | hshutdown | hrunning
      · exact hrefused
      · -- a shutdown has been requested before the request came
        have hrequested := htracked.late request hmem hlate hpending
        rw [hshutdown] at hrequested
        cases hrequested
      · -- a request that came after the shutdown never runs
        have hrefused := h.refused request hmem hlate
        rw [hrunning] at hrefused
        exact hrefused.elim
  | clear i request outcome hget hphase =>
    have hmem := List.mem_of_getElem? hget
    have hset : (s.setPhase i (.cleared outcome)).Answered := by
      refine h.setPhase hget (fun houtcome => ?_) fun hlate => ?_
      · refine h.cancelled request hmem ?_
        rw [hphase]
        exact houtcome
      · have hrefused := h.refused request hmem hlate
        rw [hphase] at hrefused
        exact hrefused
    exact ⟨hset.bounded, hset.asked, hset.cancelled, hset.refused⟩

theorem inv_of_reaches (h : machine.Reaches Allowed initial s) : s.Tracked ∧ s.Answered := by
  refine @Machine.Reaches.invariant _ _ _ _ _ _ (fun s => s.Tracked ∧ s.Answered) h
    ⟨tracked_initial, answered_initial⟩ fun s e s' hinv hallowed hstep => ?_
  have hmove := move_of_step hallowed hstep
  exact ⟨hinv.1.move hmove, hinv.2.move hinv.1 hmove⟩

/-- **A session is safe.**  While it is open, the source of a request is registered exactly as
long as the request is pending.  A request has been asked to stop, by a notification with its
id or by the end of the session, exactly when its source is stopped or will be next; only
then does its handler find itself cancelled.  A request that came after a shutdown is
refused.  And when a shutdown had been requested, nothing is pending any more once the
server has waited. -/
theorem session_safe (h : machine.Reaches Allowed initial s)
    (hget : s.requests[i]? = some request) :
    (s.main.open → ((request.key, i) ∈ s.runtime.requestCancellation ↔ request.phase.pending)) ∧
      (request.asked ↔ s.stopped i ∨ i ∈ s.stops) ∧
      (request.phase.outcome = some .cancelled → request.asked) ∧
      (request.late → request.phase.Refused) ∧
      (s.main = .drained true ∨ s.main = .quiesced true ∨ s.main = .returned 0 →
        request.phase.pending = false) := by
  obtain ⟨htracked, hanswered⟩ := inv_of_reaches h
  have hmem := List.mem_of_getElem? hget
  refine ⟨fun hopen => ?_, hanswered.asked i request hget, hanswered.cancelled request hmem,
    hanswered.refused request hmem, fun hmain => htracked.drained hmain request hmem⟩
  rw [htracked.registered, and_iff_right hopen]
  constructor
  · rintro ⟨request', hget', -, hpending⟩
    rw [hget] at hget'
    cases hget'
    exact hpending
  · exact fun hpending => ⟨request, hget, rfl, hpending⟩

instance (s : Session) (e : SessionEvent) : Decidable (s.Allowed e) := by
  unfold Allowed
  split <;> infer_instance

/-- A request is asked to stop while it is served, and a document is updated; another request
comes after the shutdown, and the server waits for all of them. -/
def orderlySession : List SessionEvent :=
  [.initializeRequest true, .fireDocumentUpdate, .receive (some (.string "a")), .askInitialized 0,
    .askShutdown 0,
    .cancelRequest (.string "b"), .cancelRequest (.string "a"), .shutdown,
    .receive (some (.string "b")), .exit, .leave false, .stop, .throwIfCancelled 0,
    .askInitialized 1, .askShutdown 1, .clear 1, .clear 0, .drain, .endUpdate, .quiesce, .return]

theorem session_safe_orderly :
    ∃ s request, machine.run initial (orderlySession.take 13) = some s ∧
      s.requests[0]? = some request ∧ request.phase.outcome = some .cancelled ∧ request.asked ∧
        ("s:a", 0) ∈ s.runtime.requestCancellation := by
  have hrun : (machine.run initial (orderlySession.take 13)).isSome := by decide
  obtain ⟨s, hs⟩ := Option.isSome_iff_exists.mp hrun
  have hallowed : machine.AllowedRun Allowed initial (orderlySession.take 13) := by decide
  have hrequest : (machine.run initial (orderlySession.take 13)).bind (·.requests[0]?) = some
      ⟨some (.string "a"), "s:a", .finished .cancelled, true, false⟩ := by decide
  have hmain : (machine.run initial (orderlySession.take 13)).map Session.main =
      some (.left true) := by decide
  rw [hs] at hrequest hmain
  have hsafe := session_safe (Machine.reaches_of_run hs hallowed) hrequest
  refine ⟨s, _, hs, hrequest, rfl, hsafe.2.2.1 rfl, (hsafe.1 ?_).mpr rfl⟩
  rw [Option.some.inj hmain]
  rfl

/-! ### The end -/

/-- The server has left the loop. -/
def Leaving (shutdownRequested : Bool) (s : Session) : Prop :=
  s.main = .left shutdownRequested ∨ s.main = .drained shutdownRequested ∨
    s.main = .quiesced shutdownRequested ∨ s.main = .returned (if shutdownRequested then 0 else 1)

/-- What the threads have before them, when the loop is left. -/
def remaining (s : Session) : ℕ × ℕ :=
  (match s.main with
    | .reading => 4
    | .left _ => 3
    | .drained _ => 2
    | .quiesced _ => 1
    | .returned _ => 0,
   (s.requests.map fun request => request.phase.left).sum + s.stops.length + s.updates)

theorem left_setPhase {phase : Phase} (hget : s.requests[i]? = some request)
    (hleft : phase.left < request.phase.left) :
    ((s.setPhase i phase).requests.map fun request => request.phase.left).sum <
      (s.requests.map fun request => request.phase.left).sum := by
  have hset : (s.setPhase i phase).requests = s.requests.set i { request with phase := phase } := by
    show s.requests.modify i _ = _
    rw [List.modify_eq_set_getElem?, hget]
    rfl
  have hsum := List.sum_map_set_add (f := fun request : Request => request.phase.left) hget
    { request with phase := phase }
  rw [hset]
  dsimp only at hsum
  omega

theorem Leaving.not_reading {shutdownRequested : Bool} (h : s.Leaving shutdownRequested) :
    s.main ≠ .reading := by
  rcases h with h | h | h | h <;> rw [h] <;> simp

/-- Every move takes the end nearer. -/
theorem Leaving.move {shutdownRequested : Bool} (h : s.Leaving shutdownRequested)
    (hmove : s.Move s') : s'.Leaving shutdownRequested ∧
      Prod.Lex (· < ·) (· < ·) s'.remaining s.remaining := by
  cases hmove with
  | receive currentRequestId hmain => exact absurd hmain h.not_reading
  | cancelRequest id hmain => exact absurd hmain h.not_reading
  | stop i stops hstops =>
    have hfewer : stops.length < s.stops.length := by
      rw [hstops]
      exact Nat.lt_succ_self _
    refine ⟨h, .right _ (Nat.add_lt_add_right ?_ _)⟩
    exact Nat.add_lt_add_left hfewer _
  | fireDocumentUpdate hmain => exact absurd hmain h.not_reading
  | endUpdate updates hupdates =>
    have hfewer : updates < s.updates := by
      rw [hupdates]
      exact Nat.lt_succ_self _
    exact ⟨h, .right _ (Nat.add_lt_add_left hfewer _)⟩
  | lifecycle runtime hmain => exact absurd hmain h.not_reading
  | leave hmain => exact absurd hmain h.not_reading
  | drain b hmain =>
    have hb : b = shutdownRequested := by
      rcases h with h | h | h | h <;> cases hmain.symm.trans h
      rfl
    refine ⟨.inr (.inl (hb ▸ rfl)), .left _ _ ?_⟩
    rw [hmain]
    exact Nat.lt_succ_self 2
  | quiesce b hmain =>
    have hb : b = shutdownRequested := by
      rcases h with h | h | h | h <;> cases hmain.symm.trans h
      rfl
    refine ⟨.inr (.inr (.inl (hb ▸ rfl))), .left _ _ ?_⟩
    rw [hmain]
    exact Nat.lt_succ_self 1
  | «return» b hmain =>
    have hb : b = shutdownRequested := by
      rcases h with h | h | h | h <;> cases hmain.symm.trans h
      rfl
    refine ⟨.inr (.inr (.inr (hb ▸ rfl))), .left _ _ ?_⟩
    rw [hmain]
    exact Nat.lt_succ_self 0
  | advance i request phase hget hpending hpending' hleft =>
    refine ⟨h, .right _ (Nat.add_lt_add_right (Nat.add_lt_add_right ?_ _) _)⟩
    exact left_setPhase hget hleft
  | clear i request outcome hget hphase =>
    refine ⟨h, .right _ (Nat.add_lt_add_right (Nat.add_lt_add_right ?_ _) _)⟩
    refine left_setPhase hget ?_
    rw [hphase]
    exact Nat.lt_succ_self 0

/-- A worker can go on with a pending request. -/
theorem exists_work (hget : s.requests[i]? = some request) (hpending : request.phase.pending) :
    ∃ s', machine.Step Allowed s s' := by
  obtain ⟨id, key, phase, asked, late⟩ := request
  cases phase with
  | queued => exact ⟨_, .askInitialized i, trivial, work_eq hget rfl⟩
  | admitted => exact ⟨_, .askShutdown i, trivial, work_eq hget rfl⟩
  | running => exact ⟨_, .finish i true, trivial, work_eq hget rfl⟩
  | finished outcome =>
    obtain ⟨s', hclear⟩ : ∃ s', s.step (.clear i) = some s' := ⟨_, by rw [step, hget]⟩
    exact ⟨s', .clear i, trivial, hclear⟩
  | cleared outcome => cases hpending

/-- Where nothing can happen any more, nothing is left to do. -/
theorem Leaving.of_final {shutdownRequested : Bool} (h : s.Leaving shutdownRequested)
    (htracked : s.Tracked) (hfinal : machine.Final Allowed s) :
    s.main = .returned (if shutdownRequested then 0 else 1) ∧ s.stops = [] ∧ s.updates = 0 ∧
      ∀ request ∈ s.requests, request.phase.pending = false := by
  -- first the workers, then the dispatches, then the thread that leaves
  have hthrough : ∀ request ∈ s.requests, request.phase.pending = false := by
    intro request hmem
    by_contra hpending
    rw [Bool.not_eq_false] at hpending
    obtain ⟨i, hi, rfl⟩ := List.getElem_of_mem hmem
    obtain ⟨s', hstep⟩ := exists_work (List.getElem?_eq_getElem hi) hpending
    exact hfinal s' hstep
  have hempty : s.runtime.requestCancellation = [] := by
    refine List.eq_nil_iff_forall_not_mem.mpr fun entry hmem => ?_
    obtain ⟨-, request, hget, -, hpending⟩ := (htracked.registered entry.1 entry.2).mp hmem
    rw [hthrough request (List.mem_of_getElem? hget)] at hpending
    cases hpending
  have hupdated : s.updates = 0 := by
    rcases hupdates : s.updates with _ | updates
    · rfl
    · obtain ⟨s', hend⟩ : ∃ s', s.step .endUpdate = some s' := ⟨_, by rw [step, hupdates]⟩
      exact absurd ⟨.endUpdate, trivial, hend⟩ (hfinal s')
  refine ⟨?_, ?_, hupdated, hthrough⟩
  · rcases h with h | h | h | h
    · have hdrain : s.step .drain = some { s with main := .drained shutdownRequested } := by
        rw [step, h]
        dsimp only
        rw [if_neg]
        rw [LanguageServerRuntimeState.waitForPendingRequests, hempty]
        simp
      exact absurd ⟨.drain, trivial, hdrain⟩ (hfinal _)
    · have hquiesce : s.step .quiesce = some { s with main := .quiesced shutdownRequested } := by
        rw [step, h]
        exact if_pos hupdated
      exact absurd ⟨.quiesce, trivial, hquiesce⟩ (hfinal _)
    · obtain ⟨s', hreturn⟩ : ∃ s', s.step .return = some s' := ⟨_, by rw [step, h]⟩
      exact absurd ⟨.return, trivial, hreturn⟩ (hfinal s')
    · exact h
  · rcases hstops : s.stops with _ | ⟨i, stops⟩
    · rfl
    · obtain ⟨s', hstop⟩ : ∃ s', s.step .stop = some s' := ⟨_, by rw [step, hstops]⟩
      exact absurd ⟨.stop, trivial, hstop⟩ (hfinal s')

/-- **The server ends**, if handlers and updates do.  Once it has left the loop its threads go
on for a bounded number of steps; and where nothing can happen any more it has returned, with
0 when a shutdown had been requested and with 1 when not, everything that was to be stopped
is stopped, no document is updated, and nothing is pending. -/
theorem session_ends (h : machine.Reaches Allowed initial s) {shutdownRequested : Bool}
    (hmain : s.main = .left shutdownRequested) :
    machine.Terminates Allowed s ∧
      ∀ s', machine.Reaches Allowed s s' → machine.Final Allowed s' →
        s'.main = .returned (if shutdownRequested then 0 else 1) ∧ s'.stops = [] ∧
          s'.updates = 0 ∧ ∀ request ∈ s'.requests, request.phase.pending = false := by
  have hleaving : s.Leaving shutdownRequested := .inl hmain
  constructor
  · have wf : WellFounded (Prod.Lex (· < ·) (· < ·) : ℕ × ℕ → ℕ × ℕ → Prop) :=
      WellFounded.prod_lex Nat.lt_wfRel.wf Nat.lt_wfRel.wf
    refine @Machine.terminates_of_lowers _ _ _ _ _ _ _ wf remaining (Leaving shutdownRequested)
      hleaving fun s e s' hs hallowed hstep => ?_
    exact hs.move (move_of_step hallowed hstep)
  · intro s' hreach hfinal
    have hleaving' : s'.Leaving shutdownRequested :=
      hreach.invariant hleaving fun s e s' hs hallowed hstep =>
        (hs.move (move_of_step hallowed hstep)).1
    exact hleaving'.of_final (inv_of_reaches (h.trans hreach)).1 hfinal

theorem session_ends_orderly :
    ∃ s s', machine.run initial (orderlySession.take 11) = some s ∧
      machine.Reaches Allowed s s' ∧ machine.Final Allowed s' ∧ s'.main = .returned 0 ∧
        s'.stops = [] ∧ s'.updates = 0 := by
  have hrun : (machine.run initial (orderlySession.take 11)).isSome := by decide
  obtain ⟨s, hs⟩ := Option.isSome_iff_exists.mp hrun
  have hallowed : machine.AllowedRun Allowed initial (orderlySession.take 11) := by decide
  have hmain : (machine.run initial (orderlySession.take 11)).map Session.main =
      some (.left true) := by decide
  rw [hs] at hmain
  have hends := session_ends (Machine.reaches_of_run hs hallowed) (Option.some.inj hmain)
  obtain ⟨s', hreaches, hfinal⟩ := hends.1.exists_final
  have hend := hends.2 s' hreaches hfinal
  exact ⟨s, s', hs, hreaches, hfinal, hend.1, hend.2.1, hend.2.2.1⟩

end Session

end Pegium.LanguageServer
