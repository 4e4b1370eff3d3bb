/-
Pegium/Workspace/LockInvariants.lean

The invariants of the workspace lock.

`Counted` is about the counters, `Guarded` about who may run, `Promised` about the
futures, `Ordered` about the order of the writes, and `Attended` says that whoever
sleeps has something to wait for, or will be notified.
-/
import Pegium.Workspace.LockSteps

namespace Pegium

namespace DefaultWorkspaceLock

variable {s s' : DefaultWorkspaceLock}

/-! ### The counters -/

/-- How many calls are in some phase. -/
def number (p : CallPhase → Bool) (calls : List LockCall) : ℤ :=
  calls.countP fun call => p call.phase

section Number

variable {p : CallPhase → Bool} {f : LockCall → LockCall} {calls : List LockCall} {i : ℕ}
  {call call' : LockCall}

theorem number_set (hcall : calls[i]? = some call) :
    number p (calls.set i call') =
      number p calls - (p call.phase).toNat + (p call'.phase).toNat := by
  obtain ⟨hi, rfl⟩ := List.getElem?_eq_some_iff.mp hcall
  have hpos : p calls[i].phase = true → 0 < calls.countP fun call => p call.phase := fun h =>
    List.countP_pos_iff.mpr ⟨_, List.getElem_mem hi, h⟩
  unfold number
  rw [List.countP_set hi]
  cases h : p calls[i].phase <;> cases p call'.phase <;> simp <;> grind

theorem number_concat :
    number p (calls ++ [call]) = number p calls + (p call.phase).toNat := by
  unfold number
  cases h : p call.phase <;> simp [h]

theorem number_modify (h : ∀ call, p (f call).phase = p call.phase) :
    number p (calls.modify i f) = number p calls := by
  induction calls generalizing i with
  | nil => cases i <;> rfl
  | cons call calls ih =>
    cases i with
    | zero => simp [number, List.countP_cons, h]
    | succ i =>
      have := ih (i := i)
      simp only [number, List.modify_succ_cons, List.countP_cons] at *
      omega

theorem number_map (h : ∀ call, p (f call).phase = p call.phase) :
    number p (calls.map f) = number p calls := by
  have : (fun call : LockCall => p call.phase) ∘ f = fun call => p call.phase := funext h
  unfold number
  rw [List.countP_map, this]

theorem number_nonneg : 0 ≤ number p calls := Int.natCast_nonneg _

end Number

/-- The counters count. -/
structure Counted (s : DefaultWorkspaceLock) : Prop where
  readers : s.readers = number CallPhase.reads s.calls + s.worker.reading.toNat
  writePending :
    s.writePending = number CallPhase.counted s.calls + s.writeQueue.length + s.worker.pending.toNat
  activeReads : s.activeReads = number CallPhase.inside s.calls
  writeHeld : s.writeHeld = s.worker.holding

/-- A phase that does not tell whether a read is awake. -/
theorem wake_phase_eq {p : CallPhase → Bool} (h : p (.waiting false) = p (.waiting true))
    (call : LockCall) : p call.wake.phase = p call.phase := by
  rw [LockCall.wake_phase]
  split
  case isTrue asleep => rw [asleep, h]
  case isFalse => rfl

/-- The calls are as before, up to who is awake. -/
theorem Counted.withCalls (h : s.Counted) (calls : List LockCall)
    (same : ∀ p : CallPhase → Bool, p (.waiting false) = p (.waiting true) →
      number p calls = number p s.calls) :
    ({ s with calls := calls } : DefaultWorkspaceLock).Counted where
  readers := by rw [same _ rfl]; exact h.readers
  writePending := by rw [same _ rfl]; exact h.writePending
  activeReads := by rw [same _ rfl]; exact h.activeReads
  writeHeld := h.writeHeld

/-- The worker moves on, and counts as before. -/
theorem Counted.withWorker {worker : LockWorker} (h : s.Counted)
    (reading : worker.reading = s.worker.reading) (pending : worker.pending = s.worker.pending)
    (holding : worker.holding = s.worker.holding) :
    ({ s with worker := worker } : DefaultWorkspaceLock).Counted where
  readers := by rw [reading]; exact h.readers
  writePending := by rw [pending]; exact h.writePending
  activeReads := h.activeReads
  writeHeld := by rw [holding]; exact h.writeHeld

theorem Counted.notifyQueue (h : s.Counted) : s.notifyQueue.Counted :=
  h.withWorker (LockWorker.wakeQueue_reading _) (LockWorker.wakeQueue_pending _)
    (LockWorker.wakeQueue_holding _)

theorem Counted.notifyGate (h : s.Counted) : s.notifyGate.Counted := by
  have hc := h.withCalls (s.calls.map LockCall.wake) fun p hp =>
    number_map (wake_phase_eq hp)
  exact { hc.withWorker (LockWorker.wakeGate_reading s.worker) (LockWorker.wakeGate_pending _)
    (LockWorker.wakeGate_holding _) with }

theorem Counted.notifyGateIf {condition : Prop} [Decidable condition] (h : s.Counted) :
    (s.notifyGateIf condition).Counted := by
  unfold DefaultWorkspaceLock.notifyGateIf
  split
  · exact h.notifyGate
  · exact h

attribute [local simp] put requestStop LockCall.complete CallPhase.reads CallPhase.counted
  CallPhase.inside LockWorker.reading LockWorker.pending LockWorker.holding

theorem Counted.step {e : LockEvent} (h : s.Counted) (ht : Transition s e s') :
    s'.Counted := by
  have ⟨readers, writePending, activeReads, writeHeld⟩ := h
  cases ht with
  | call => constructor <;> simp [number_concat, *]
  | notifyQueue hcall =>
    apply Counted.notifyQueue
    constructor <;> simp [number_set hcall, *]
  | notifyGate hcall =>
    apply Counted.notifyGate
    constructor <;> simp [number_set hcall, *]
  | turnBack hcall | leave hcall =>
    apply Counted.notifyGateIf
    constructor <;> simp [number_set hcall, *] <;> omega
  | downgrade worker | downgradeEnded worker =>
    apply Counted.notifyGate
    constructor <;> simp [*]
  | release =>
    apply Counted.notifyGateIf
    constructor <;> simp [*]
  | pass hcall waits | sleep hcall waits =>
    rcases waits with ⟨phase, rfl⟩ | ⟨phase, rfl⟩ <;> constructor <;>
      simp [number_set hcall, *]
  | empty hcall | cancelWrite hcall | refuse hcall | supersede hcall
  | count hcall | push hcall | enter hcall | endRead hcall =>
    constructor <;> simp [number_set hcall, *] <;> omega
  | exit worker | take worker | sleepAtQueue worker | skip worker | decide worker
  | holdSkipped worker | hold worker | sleepAtGate worker =>
    constructor <;> simp [*] <;> omega
  | @complete w outcome worker =>
    have hc := h.withCalls (s.calls.modify w (LockCall.complete outcome)) fun p _ =>
      number_modify fun _ => rfl
    refine hc.withWorker ?_ ?_ ?_ <;> simp [worker]
  | @endWrite _ downgraded _ worker => cases downgraded <;> constructor <;> simp [*]
  | rouseGate => exact { h.notifyGate with }
  | destroy | stop | cancel | drain | join | finish =>
    exact ⟨readers, writePending, activeReads, writeHeld⟩
  | rouseQueue => exact { h.notifyQueue with }
  | downgradeAgain => exact h
  | @wake thread =>
    cases thread with
    | call i => exact h.withCalls _ fun p hp => number_modify (wake_phase_eq hp)
    | worker =>
      exact (h.withWorker (LockWorker.wakeGate_reading _) (LockWorker.wakeGate_pending _)
        (LockWorker.wakeGate_holding _)).notifyQueue
    | destructor => exact { h with }

/-! ### Exclusivity -/

/-- No action of a read runs. -/
def NoReadActs (s : DefaultWorkspaceLock) : Prop :=
  ∀ (i : ℕ) (call : LockCall), s.calls[i]? = some call → call.phase ≠ .acting

/-- A write that holds the lock, or will hold it while a destruction lets it, runs alone. -/
structure Guarded (s : DefaultWorkspaceLock) : Prop where
  exclusive : s.worker.exclusive = true → s.NoReadActs
  willAct : s.worker.willAct = true → s.stopping = true → s.NoReadActs

/-- The destruction does not begin while a read runs and a write is waiting to run. -/
def Quiesced (s : DefaultWorkspaceLock) (e : LockEvent) : Prop :=
  e = .destruct → s.destructor = .stopping → s.worker.willAct = true → s.NoReadActs

/-- No counter goes below zero. -/
theorem Counted.nonneg (h : s.Counted) :
    0 ≤ s.readers ∧ 0 ≤ s.writePending ∧ 0 ≤ s.activeReads := by
  have hr : 0 ≤ number CallPhase.reads s.calls := number_nonneg
  have hp : 0 ≤ number CallPhase.counted s.calls := number_nonneg
  have ha : 0 ≤ number CallPhase.inside s.calls := number_nonneg
  have := h.readers
  have := h.writePending
  have := h.activeReads
  omega

theorem Counted.pending_eq_false (h : s.Counted) (hp : s.writePending = 0) :
    s.worker.pending = false := by
  have hcount := h.writePending
  have hnn : 0 ≤ number CallPhase.counted s.calls := number_nonneg
  cases hw : s.worker.pending with
  | false => rfl
  | true => grind

theorem Counted.noReadActs (h : s.Counted) (hr : s.readers = 0) : s.NoReadActs := by
  have hcount := h.readers
  have hnn : 0 ≤ number CallPhase.reads s.calls := number_nonneg
  have hnone : number CallPhase.reads s.calls = 0 := by omega
  intro i call hcall acting
  apply List.countP_eq_zero.mp (Int.ofNat_eq_zero.mp hnone) call (List.mem_of_getElem? hcall)
  rw [acting]
  rfl

theorem NoReadActs.notifyGate (h : s.NoReadActs) : s.notifyGate.NoReadActs := by
  intro i call hcall
  have := h i
  grind [DefaultWorkspaceLock.notifyGate]

theorem Guarded.notifyGate (h : s.Guarded) : s.notifyGate.Guarded where
  exclusive hx := (h.exclusive ((LockWorker.wakeGate_exclusive _).symm.trans hx)).notifyGate
  willAct hw hs := (h.willAct ((LockWorker.wakeGate_willAct _).symm.trans hw) hs).notifyGate

theorem Guarded.notifyGateIf {condition : Prop} [Decidable condition] (h : s.Guarded) :
    (s.notifyGateIf condition).Guarded := by
  unfold DefaultWorkspaceLock.notifyGateIf
  split
  · exact h.notifyGate
  · exact h

theorem NoReadActs.put {i : ℕ} {call' : LockCall} (h : s.NoReadActs)
    (hphase : call'.phase ≠ .acting) : (s.put i call').NoReadActs := by
  intro j call hcall
  rw [DefaultWorkspaceLock.put, List.getElem?_set] at hcall
  split at hcall
  next =>
    split at hcall
    · cases hcall
      exact hphase
    · cases hcall
  next => exact h j call hcall

theorem NoReadActs.modify {i : ℕ} {f : LockCall → LockCall} (h : s.NoReadActs)
    (hf : ∀ call, (f call).phase = .acting → call.phase = .acting) :
    ({ s with calls := s.calls.modify i f } : DefaultWorkspaceLock).NoReadActs := by
  intro j call hcall
  rw [List.getElem?_modify] at hcall
  obtain ⟨call₀, hcall₀, rfl⟩ := Option.map_eq_some_iff.mp hcall
  split
  · exact fun hacting => h j call₀ hcall₀ (hf call₀ hacting)
  · exact h j call₀ hcall₀

theorem NoReadActs.concat {call' : LockCall} (h : s.NoReadActs) (hphase : call'.phase ≠ .acting) :
    ({ s with calls := s.calls ++ [call'] } : DefaultWorkspaceLock).NoReadActs := by
  intro j call hcall
  rcases List.mem_append.mp (List.mem_of_getElem? hcall) with hmem | hmem
  · obtain ⟨k, hk⟩ := List.getElem?_of_mem hmem
    exact h k call hk
  · rw [List.mem_singleton.mp hmem]
    exact hphase

/-- Nobody begins to act, and no write gets hold of the lock. -/
theorem Guarded.mono (h : s.Guarded) (hreads : s.NoReadActs → s'.NoReadActs)
    (hexclusive : s'.worker.exclusive = true → s.worker.exclusive = true)
    (hwill : s'.worker.willAct = true → s'.stopping = true →
      s.worker.willAct = true ∧ s.stopping = true) : s'.Guarded where
  exclusive hx := hreads (h.exclusive (hexclusive hx))
  willAct hw hs := hreads (h.willAct (hwill hw hs).1 (hwill hw hs).2)

/-- A call goes on, and does not begin to act. -/
theorem Guarded.put {i : ℕ} {call' : LockCall} (h : s.Guarded) (hphase : call'.phase ≠ .acting) :
    (s.put i call').Guarded :=
  h.mono (fun hn => hn.put hphase) id fun hw hs => ⟨hw, hs⟩

theorem Guarded.step {e : LockEvent} (h : s.Guarded) (hl : s.Locked) (hc : s.Counted)
    (hq : s.Quiesced e) (ht : Transition s e s') : s'.Guarded := by
  obtain ⟨exclusive, willAct⟩ := id h
  cases ht with
  | call => exact h.mono (fun hn => hn.concat CallPhase.noConfusion) id fun hw hs => ⟨hw, hs⟩
  | empty | refuse | cancelWrite | supersede | count | push | pass | sleep | endRead =>
    exact h.mono (fun hn => hn.put CallPhase.noConfusion) id fun hw hs => ⟨hw, hs⟩
  | @notifyQueue i call =>
    have hput : (s.put i { call with phase := .notifyingGate }).Guarded :=
      h.put CallPhase.noConfusion
    exact hput.mono id (LockWorker.wakeQueue_exclusive _ ▸ ·)
      fun hw hs => ⟨LockWorker.wakeQueue_willAct _ ▸ hw, hs⟩
  | notifyGate => exact Guarded.notifyGate (h.put CallPhase.noConfusion)
  | turnBack | leave => exact Guarded.notifyGateIf { h.put CallPhase.noConfusion with }
  | enter hcall admitted request running =>
    -- The read was admitted while no write was pending, so the worker has none at hand.
    have hmay := hl.admitted (by rw [(hl.gate _ _ hcall).mp admitted]; rintro ⟨⟩)
    have hpending := hc.pending_eq_false (by simp_all [mayRead])
    refine ⟨fun hx => ?_, fun hw _ => ?_⟩
    · exact absurd (LockWorker.pending_of_exclusive hx) (Bool.not_eq_true _ ▸ hpending)
    · exact absurd (LockWorker.pending_of_willAct hw) (Bool.not_eq_true _ ▸ hpending)
  | hold worker free may =>
    refine ⟨fun _ => ?_, by rintro ⟨⟩⟩
    -- The destruction may let the worker pass: then no read runs all the same.
    by_cases stopping : s.stopping = true
    · exact willAct (by rw [worker]; rfl) stopping
    · exact hc.noReadActs (by simp_all [mayHold])
  | exit | take | sleepAtQueue | skip | holdSkipped | endWrite => exact ⟨by rintro ⟨⟩, by rintro ⟨⟩⟩
  | complete => exact ⟨by rintro ⟨⟩, by rintro ⟨⟩⟩
  | decide worker running =>
    -- it decides to run the write only when the destruction has not begun
    refine ⟨by rintro ⟨⟩, fun _ hs => ?_⟩
    rw [show s.stopping = true from hs] at running
    cases running
  | sleepAtGate worker =>
    exact ⟨by rintro ⟨⟩, fun hw hs => willAct (by rw [worker]; exact hw) hs⟩
  | release => exact Guarded.notifyGateIf ⟨by rintro ⟨⟩, by rintro ⟨⟩⟩
  | downgrade | downgradeEnded => exact Guarded.notifyGate ⟨by rintro ⟨⟩, by rintro ⟨⟩⟩
  | downgradeAgain => exact h
  | stop destructor => exact ⟨exclusive, fun hw _ => hq rfl destructor hw⟩
  | destroy | cancel | drain | join | finish => exact ⟨exclusive, willAct⟩
  | rouseQueue =>
    exact h.mono id (LockWorker.wakeQueue_exclusive _ ▸ ·)
      fun hw hs => ⟨LockWorker.wakeQueue_willAct _ ▸ hw, hs⟩
  | rouseGate => exact { h.notifyGate with }
  | @wake thread =>
    cases thread with
    | call i =>
      refine h.mono (fun hn => hn.modify fun call => ?_) id fun hw hs => ⟨hw, hs⟩
      rw [LockCall.wake_phase]
      split
      · rintro ⟨⟩
      · exact id
    | worker =>
      refine h.mono id (fun hx => ?_) fun hw hs => ⟨?_, hs⟩
      · simpa [DefaultWorkspaceLock.wake] using hx
      · simpa [DefaultWorkspaceLock.wake] using hw
    | destructor => exact ⟨exclusive, willAct⟩

/-! ### Futures -/

/-- The writes that are queued, or at the worker, and have no completed future yet. -/
def waitingWrites (s : DefaultWorkspaceLock) : List ℕ := s.worker.write?.toList ++ s.writeQueue

/-- A phase that only a call of this kind is in. -/
def Fits (call : LockCall) : Prop :=
  match call.phase with
  | .called | .returned => True
  | .counting | .queueing | .notifyingQueue | .notifyingGate => call.request = .write true
  | .waiting _ | .admitted | .acting | .leaving => call.request = .read true

/-- A write in the queue, or past it. -/
def Pushed (call : LockCall) : Prop :=
  call.request = .write true ∧
    (call.phase = .notifyingQueue ∨ call.phase = .notifyingGate ∨ call.phase = .returned)

/-- How often a promise is given that is not a queued write's. -/
def given (call : LockCall) : ℕ :=
  match call.request, call.phase with
  | .cancelWrite, _ => 0
  | .read true, .leaving => 1
  | .write true, .notifyingQueue | .write true, .notifyingGate => 1
  | _, .returned => 1
  | _, _ => 0

/-- Whose futures are completed. -/
structure Promised (s : DefaultWorkspaceLock) : Prop where
  fits : ∀ (i : ℕ) (call : LockCall), s.calls[i]? = some call → Fits call
  nodup : s.waitingWrites.Nodup
  waiting : ∀ i ∈ s.waitingWrites, ∃ call, s.calls[i]? = some call ∧ Pushed call ∧ call.future = []
  future : ∀ (i : ℕ) (call : LockCall), s.calls[i]? = some call → i ∉ s.waitingWrites →
    call.future.length = given call

theorem waitingWrites_notifyQueue (s : DefaultWorkspaceLock) :
    s.notifyQueue.waitingWrites = s.waitingWrites := by
  simp [waitingWrites, DefaultWorkspaceLock.notifyQueue]

theorem Promised.notifyGate (h : s.Promised) : s.notifyGate.Promised := by
  have ⟨fits, nodup, waiting, future⟩ := h
  constructor <;> grind [Fits, waitingWrites, Pushed, given, DefaultWorkspaceLock.notifyGate]

theorem Promised.notifyGateIf {condition : Prop} [Decidable condition] (h : s.Promised) :
    (s.notifyGateIf condition).Promised := by
  unfold DefaultWorkspaceLock.notifyGateIf
  split
  · exact h.notifyGate
  · exact h

/-- The promise of the write at hand is given. -/
theorem Promised.complete {w : ℕ} {outcome : Completion} (h : s.Promised)
    (worker : s.worker = .ended w outcome true) :
    ({ s.complete w outcome with worker := .releasing } : DefaultWorkspaceLock).Promised := by
  have ⟨fits, nodup, waiting, future⟩ := h
  have hwaiting : s.waitingWrites = w :: s.writeQueue := by
    simp only [waitingWrites, worker, LockWorker.write?]
    rfl
  rw [hwaiting] at nodup waiting future
  have hcalls : ∀ i, (s.complete w outcome).calls[i]? =
      s.calls[i]?.map fun call => if w = i then call.complete outcome else call := fun i =>
    List.getElem?_modify ..
  have hw := List.nodup_cons.mp nodup
  refine ⟨fun i call hcall => ?_, hw.2, fun i hi => ?_, fun i call hcall hi => ?_⟩
  · have := fits i
    grind [Fits, LockCall.complete]
  · have := waiting i (List.mem_cons_of_mem _ hi)
    have hne : w ≠ i := fun heq => hw.1 (heq ▸ hi)
    grind
  · by_cases heq : w = i
    · have := waiting w List.mem_cons_self
      grind [given, Pushed, LockCall.complete]
    · have := future i
      grind [waitingWrites, LockWorker.write?, DefaultWorkspaceLock.complete]

/-- Nothing that a future depends on changes. -/
theorem Promised.congr (h : s.Promised) (calls : s'.calls = s.calls)
    (waiting : s'.waitingWrites = s.waitingWrites) : s'.Promised where
  fits := by rw [calls]; exact h.fits
  nodup := by rw [waiting]; exact h.nodup
  waiting := by rw [calls, waiting]; exact h.waiting
  future := by rw [calls, waiting]; exact h.future

/-- A call goes on, and is given what it has to be. -/
theorem Promised.put {i : ℕ} {call call' : LockCall} (h : s.Promised)
    (hcall : s.calls[i]? = some call) (fits : Fits call')
    (pushed : Pushed call → Pushed call' ∧ call'.future = call.future)
    (future : call'.future.length + given call = call.future.length + given call') :
    (s.put i call').Promised := by
  refine ⟨fun j callⱼ hj => ?_, h.nodup, fun j hj => ?_, fun j callⱼ hj hwaiting => ?_⟩
  · have := h.fits j
    grind [DefaultWorkspaceLock.put]
  · obtain ⟨call₀, h₀, hpushed, hfuture⟩ := h.waiting j hj
    by_cases heq : i = j
    · subst heq
      rw [hcall] at h₀
      cases h₀
      refine ⟨call', ?_, (pushed hpushed).1, (pushed hpushed).2.trans hfuture⟩
      grind [DefaultWorkspaceLock.put]
    · exact ⟨call₀, by grind [DefaultWorkspaceLock.put], hpushed, hfuture⟩
  · have := h.future j
    have : j ∉ s.waitingWrites := hwaiting
    grind [DefaultWorkspaceLock.put]

/-- A write enters the queue. -/
theorem Promised.push {i : ℕ} {call : LockCall} (h : s.Promised) (hcall : s.calls[i]? = some call)
    (queueing : call.phase = .queueing) (request : call.request = .write true) :
    ({ s.put i { call with phase := .notifyingQueue } with
      writeQueue := s.writeQueue ++ [i] } : DefaultWorkspaceLock).Promised := by
  have hnot : i ∉ s.waitingWrites := fun hi => by
    obtain ⟨call₀, h₀, hpushed, -⟩ := h.waiting i hi
    grind [Pushed]
  have ⟨fits, nodup, waiting, future⟩ := h
  have hempty := future i call hcall hnot
  constructor <;> grind [DefaultWorkspaceLock.put, waitingWrites, Fits, Pushed, given]

attribute [local simp] Fits Pushed given LockCall.complete in
theorem Promised.step {e : LockEvent} (h : s.Promised) (ht : Transition s e s') : s'.Promised := by
  cases ht with
  | call =>
    have ⟨fits, nodup, waiting, future⟩ := h
    constructor <;> grind [Fits, waitingWrites, given]
  | empty hcall called request =>
    apply h.put hcall <;> rcases request with request | request <;> simp [*]
  | refuse hcall called request => apply h.put hcall <;> simp [*]
  | cancelWrite hcall _ request | supersede hcall _ request | count hcall _ request
    | enter hcall _ request =>
    refine (h.put hcall ?_ ?_ ?_).congr rfl rfl <;> simp [*]
  | pass hcall waits request | sleep hcall waits request =>
    rcases waits with ⟨phase, rfl⟩ | ⟨phase, rfl⟩ <;>
      refine (h.put hcall ?_ ?_ ?_).congr rfl rfl <;> simp [*]
  | endRead hcall acting =>
    have := h.fits _ _ hcall
    refine h.put hcall ?_ ?_ ?_ <;> simp_all
  | push hcall queueing request => exact (h.push hcall queueing request).congr rfl rfl
  | notifyQueue hcall notifying request =>
    refine (h.put hcall ?_ ?_ ?_).congr ?_ (waitingWrites_notifyQueue _)
    case refine_4 => rfl
    all_goals simp [*]
  | complete worker => exact h.complete worker
  | notifyGate hcall notifying request =>
    apply Promised.notifyGate
    refine h.put hcall ?_ ?_ ?_ <;> simp [*]
  | downgrade worker | downgradeEnded worker =>
    apply Promised.notifyGate
    refine h.congr ?_ ?_
    · rfl
    · simp [waitingWrites, LockWorker.write?, worker]
  | turnBack hcall _ request | leave hcall _ request =>
    apply Promised.notifyGateIf
    refine (h.put hcall ?_ ?_ ?_).congr rfl rfl <;> simp [*]
  | release worker =>
    apply Promised.notifyGateIf
    refine h.congr ?_ ?_
    · rfl
    · simp [waitingWrites, LockWorker.write?, worker]
  | rouseGate => exact { h.notifyGate with }
  | @wake thread =>
    cases thread with
    | call i =>
      have ⟨fits, nodup, waiting, future⟩ := h
      constructor <;> grind [Fits, waitingWrites, Pushed, given, DefaultWorkspaceLock.wake]
    | worker =>
      refine h.congr ?_ ?_
      · rfl
      · simp [waitingWrites, DefaultWorkspaceLock.wake]
    | destructor =>
      refine h.congr ?_ ?_ <;> rfl
  | destroy | stop | cancel | drain | join | finish | exit | take | sleepAtQueue | skip
    | decide | holdSkipped
  | hold | sleepAtGate | downgradeAgain | endWrite | rouseQueue =>
    refine h.congr ?_ ?_
    · rfl
    · grind [waitingWrites, LockWorker.write?, requestStop, DefaultWorkspaceLock.notifyQueue]

/-! ### The order of the writes -/

/-- Which writes were queued, taken, started and ended. -/
structure Ordered (s : DefaultWorkspaceLock) : Prop where
  queued : s.queued = s.taken ++ s.writeQueue
  pushed : ∀ i ∈ s.queued, ∃ call, s.calls[i]? = some call ∧ Pushed call
  nodup : s.queued.Nodup
  started : s.started.Sublist s.taken
  upcoming : ∀ w, s.worker.upcoming = some w →
    ∃ earlier, s.taken = earlier ++ [w] ∧ s.started.Sublist earlier
  ended : s.started = s.ended ++ s.worker.acting?.toList

/-- What the order of the writes depends on, but for how far a call is. -/
theorem Ordered.congr (h : s.Ordered) (calls : s'.calls = s.calls)
    (queue : s'.writeQueue = s.writeQueue)
    (queued : s'.queued = s.queued) (taken : s'.taken = s.taken) (started : s'.started = s.started)
    (ended : s'.ended = s.ended)
    (upcoming : s'.worker.upcoming = s.worker.upcoming ∨ s'.worker.upcoming = none)
    (acting : s'.worker.acting? = s.worker.acting?) : s'.Ordered := by
  have ⟨_, _, _, _, _, _⟩ := h
  constructor <;> grind

theorem Ordered.notifyGate (h : s.Ordered) : s.notifyGate.Ordered := by
  have ⟨queued, pushed, nodup, started, upcoming, ended⟩ := h
  refine ⟨queued, fun i hi => ?_, nodup, started, ?_, ?_⟩
  · obtain ⟨call, hcall, hpushed⟩ := pushed i hi
    exact ⟨call.wake, by grind [DefaultWorkspaceLock.notifyGate], by grind [Pushed]⟩
  · simpa [DefaultWorkspaceLock.notifyGate] using upcoming
  · simpa [DefaultWorkspaceLock.notifyGate] using ended

theorem Ordered.notifyGateIf {condition : Prop} [Decidable condition] (h : s.Ordered) :
    (s.notifyGateIf condition).Ordered := by
  unfold DefaultWorkspaceLock.notifyGateIf
  split
  · exact h.notifyGate
  · exact h

/-- A call goes on. -/
theorem Ordered.put {i : ℕ} {call call' : LockCall} (h : s.Ordered)
    (hcall : s.calls[i]? = some call) (hp : Pushed call → Pushed call') :
    (s.put i call').Ordered := by
  have ⟨queued, pushed, nodup, started, upcoming, ended⟩ := h
  refine ⟨queued, fun j hj => ?_, nodup, started, upcoming, ended⟩
  obtain ⟨call₀, h₀, hpushed⟩ := pushed j hj
  by_cases heq : i = j
  · subst heq
    rw [hcall] at h₀
    cases h₀
    exact ⟨call', by grind [DefaultWorkspaceLock.put], hp hpushed⟩
  · exact ⟨call₀, by grind [DefaultWorkspaceLock.put], hpushed⟩

theorem Ordered.step {e : LockEvent} (h : s.Ordered) (ht : Transition s e s') : s'.Ordered := by
  have ⟨queued, pushed, nodup, started, upcoming, ended⟩ := h
  cases ht with
  | call =>
    refine ⟨queued, fun i hi => ?_, nodup, started, upcoming, ended⟩
    obtain ⟨call, hcall, hpushed⟩ := pushed i hi
    exact ⟨call, by grind, hpushed⟩
  | @push i call hcall queueing request =>
    have hnew : i ∉ s.queued := fun hi => by
      obtain ⟨call₀, h₀, hpushed⟩ := pushed i hi
      grind [Pushed]
    have hput : (s.put i { call with phase := .notifyingQueue }).Ordered :=
      h.put hcall fun _ => ⟨request, .inl rfl⟩
    refine ⟨?_, fun j hj => ?_, ?_, started, upcoming, ended⟩
    · show s.queued ++ [i] = s.taken ++ (s.writeQueue ++ [i])
      rw [queued, List.append_assoc]
    · rcases List.mem_append.mp hj with hj | hj
      · exact hput.pushed j hj
      · cases List.mem_singleton.mp hj
        exact ⟨{ call with phase := .notifyingQueue }, by grind [DefaultWorkspaceLock.put],
          request, .inl rfl⟩
    · exact List.nodup_append.mpr ⟨nodup, List.pairwise_singleton _ i, by grind⟩
  | @take w queue worker free hqueue =>
    refine ⟨?_, pushed, nodup, ?_, fun w' hw' => ?_, ?_⟩
    · show s.queued = s.taken ++ [w] ++ queue
      rw [queued, hqueue, List.append_assoc]
      rfl
    · exact started.trans (List.sublist_append_left ..)
    · cases hw'
      exact ⟨s.taken, rfl, started⟩
    · rw [worker] at ended
      exact ended
  | @hold w worker =>
    obtain ⟨earlier, htaken, hsub⟩ := upcoming w (by rw [worker]; rfl)
    refine ⟨queued, pushed, nodup, ?_, nofun, ?_⟩
    · show (s.started ++ [w]).Sublist s.taken
      rw [htaken]
      exact hsub.append (List.Sublist.refl _)
    · rw [worker] at ended
      exact congrArg (· ++ [w]) (ended.trans (List.append_nil _))
  | endWrite worker =>
    refine ⟨queued, pushed, nodup, started, nofun, ?_⟩
    rw [worker] at ended
    exact ended.trans (List.append_nil _).symm
  | @complete w outcome worker =>
    refine ⟨queued, fun i hi => ?_, nodup, started, nofun, ?_⟩
    · obtain ⟨call, hcall, hpushed⟩ := pushed i hi
      refine ⟨if w = i then call.complete outcome else call, ?_, ?_⟩
      · exact (List.getElem?_modify ..).trans (by rw [hcall]; rfl)
      · split
        · exact hpushed
        · exact hpushed
    · rw [worker] at ended
      exact ended
  | empty hcall | refuse hcall | endRead hcall =>
    apply h.put hcall
    grind [Pushed, LockCall.complete]
  | cancelWrite hcall | supersede hcall | count hcall | enter hcall | pass hcall | sleep hcall =>
    refine (h.put hcall ?_).congr rfl rfl rfl rfl rfl rfl (.inl rfl) rfl
    grind [Pushed]
  | notifyQueue hcall =>
    refine (h.put hcall ?_).congr rfl rfl rfl rfl rfl rfl (.inl ?_) ?_
    · grind [Pushed]
    · simp [DefaultWorkspaceLock.notifyQueue]
    · simp [DefaultWorkspaceLock.notifyQueue]
  | notifyGate hcall =>
    apply Ordered.notifyGate
    apply h.put hcall
    grind [Pushed]
  | turnBack hcall | leave hcall =>
    apply Ordered.notifyGateIf
    refine (h.put hcall ?_).congr rfl rfl rfl rfl rfl rfl (.inl rfl) rfl
    grind [Pushed]
  | release worker =>
    apply Ordered.notifyGateIf
    exact h.congr rfl rfl rfl rfl rfl rfl (.inr rfl) (by rw [worker]; rfl)
  | downgrade worker | downgradeEnded worker =>
    apply Ordered.notifyGate
    exact h.congr rfl rfl rfl rfl rfl rfl (.inr rfl) (by rw [worker]; rfl)
  | rouseGate => exact { h.notifyGate with }
  | @wake thread =>
    cases thread with
    | call i =>
      refine ⟨queued, fun j hj => ?_, nodup, started, upcoming, ended⟩
      obtain ⟨call, hcall, hpushed⟩ := pushed j hj
      refine ⟨if i = j then call.wake else call, ?_, ?_⟩
      · exact (List.getElem?_modify ..).trans (by rw [hcall]; rfl)
      · grind [Pushed]
    | worker =>
      refine h.congr rfl rfl rfl rfl rfl rfl (.inl ?_) ?_ <;> simp [DefaultWorkspaceLock.wake]
    | destructor => exact h.congr rfl rfl rfl rfl rfl rfl (.inl rfl) rfl
  | exit worker | sleepAtQueue worker | skip worker | decide worker | holdSkipped worker
    | sleepAtGate worker =>
    refine h.congr rfl rfl rfl rfl rfl rfl ?_ (by rw [worker]; rfl)
    rw [worker]
    simp [LockWorker.upcoming]
  | destroy | stop | cancel | drain | join | finish | downgradeAgain =>
    exact h.congr rfl rfl rfl rfl rfl rfl (.inl rfl) rfl
  | rouseQueue =>
    refine h.congr rfl rfl rfl rfl rfl rfl (.inl ?_) ?_ <;> simp [DefaultWorkspaceLock.notifyQueue]

/-! ### Nobody waits for nothing -/

/-- Some write is about to notify the worker. -/
def Notifies (calls : List LockCall) : Prop :=
  ∃ (i : ℕ) (call : LockCall), calls[i]? = some call ∧ call.phase = .notifyingQueue

section Notifies

variable {calls : List LockCall} {i : ℕ} {call : LockCall}

theorem Notifies.set (h : Notifies calls) (hcall : calls[i]? = some call)
    (hne : call.phase ≠ .notifyingQueue) (call' : LockCall) : Notifies (calls.set i call') := by
  obtain ⟨j, callⱼ, hj, hphase⟩ := h
  have : i ≠ j := fun heq => hne (by grind)
  exact ⟨j, callⱼ, by grind, hphase⟩

theorem Notifies.concat (h : Notifies calls) (call : LockCall) : Notifies (calls ++ [call]) := by
  obtain ⟨j, callⱼ, hj, hphase⟩ := h
  exact ⟨j, callⱼ, by grind, hphase⟩

theorem Notifies.map {f : LockCall → LockCall} (h : Notifies calls)
    (hf : ∀ call, call.phase = .notifyingQueue → (f call).phase = .notifyingQueue) :
    Notifies (calls.map f) := by
  obtain ⟨j, callⱼ, hj, hphase⟩ := h
  exact ⟨j, f callⱼ, by grind, hf _ hphase⟩

theorem Notifies.modify {f : LockCall → LockCall} (h : Notifies calls)
    (hf : ∀ call, call.phase = .notifyingQueue → (f call).phase = .notifyingQueue) :
    Notifies (calls.modify i f) := by
  obtain ⟨j, callⱼ, hj, hphase⟩ := h
  refine ⟨j, if i = j then f callⱼ else callⱼ,
    (List.getElem?_modify ..).trans (by rw [hj]; rfl), ?_⟩
  split
  · exact hf _ hphase
  · exact hphase

end Notifies

/-- Who sleeps, and why. -/
structure Attended (s : DefaultWorkspaceLock) : Prop where
  read : ∀ (i : ℕ) (call : LockCall), s.calls[i]? = some call → call.phase = .waiting false →
    s.mayRead = false ∨ s.destructor.stopped = true ∧ s.destructor.toldGate = false
  gate : ∀ w shuttingDown, s.worker = .atGate w shuttingDown false →
    s.mayHold = false ∨ s.destructor.stopped = true ∧ s.destructor.toldGate = false
  queue : s.worker = .atQueue false →
    s.mayTake = false ∨ (s.destructor.stopped = true ∧ s.destructor.toldQueue = false) ∨
      Notifies s.calls
  drain : s.destructor = .draining false → s.activeReads ≠ 0

/-- What the worker sleeps at the queue for. -/
def QueueAttended (s : DefaultWorkspaceLock) : Prop :=
  s.worker = .atQueue false →
    s.mayTake = false ∨ (s.destructor.stopped = true ∧ s.destructor.toldQueue = false) ∨
      Notifies s.calls

/-- After `notify_all` nobody sleeps at the gate. -/
theorem QueueAttended.notifyGate (h : s.QueueAttended) : s.notifyGate.Attended where
  read i call hcall asleep := by grind [DefaultWorkspaceLock.notifyGate]
  gate w shuttingDown asleep := absurd asleep (LockWorker.wakeGate_ne _ w shuttingDown)
  queue asleep := by
    rcases h ((LockWorker.wakeGate_eq_atQueue _).mp asleep) with hmay | htold | hnotifies
    · exact .inl hmay
    · exact .inr (.inl (by simpa [DefaultWorkspaceLock.notifyGate] using htold))
    · exact .inr (.inr (hnotifies.map (by grind)))
  drain asleep := absurd asleep (LockDestructor.wake_ne _)

theorem Attended.notifyGateIf {condition : Prop} [Decidable condition]
    (h : ¬condition → s.Attended) (hq : s.QueueAttended) :
    (s.notifyGateIf condition).Attended := by
  unfold DefaultWorkspaceLock.notifyGateIf
  split
  case isTrue => exact hq.notifyGate
  case isFalse hn => exact h hn

/-- A call goes on. -/
theorem Attended.callStep {i : ℕ} (h : s.Attended) (hl : s.Locked) (hc : s.Counted)
    (ht : Transition s (.goOn i) s') : s'.Attended := by
  obtain ⟨read, gate, queue, drain⟩ := id h
  obtain ⟨readers, writePending, activeReads⟩ := hc.nonneg
  have held := hc.writeHeld
  have stopping := hl.stopping
  cases ht with
  | empty hcall | cancelWrite hcall | refuse hcall | supersede hcall | count hcall | enter hcall =>
    have hn := fun hn : Notifies s.calls => hn.set hcall (by simp [*])
    constructor <;> grind [mayRead, mayHold, mayTake, put, LockCall.complete, requestStop]
  | pass hcall waits | sleep hcall waits =>
    have hn := fun hn : Notifies s.calls => hn.set hcall (by grind)
    constructor <;> grind [mayRead, mayHold, mayTake, put, LockCall.complete, requestStop]
  | @push i call hcall =>
    have hn : Notifies (s.put i { call with phase := .notifyingQueue }).calls :=
      ⟨i, { call with phase := .notifyingQueue }, by grind [put], rfl⟩
    constructor <;> grind [mayRead, mayHold, put]
  | notifyQueue hcall =>
    constructor <;> grind [mayRead, mayHold, mayTake, put, DefaultWorkspaceLock.notifyQueue,
      LockWorker.wakeQueue]
  | notifyGate hcall =>
    have hn := fun hn : Notifies s.calls => hn.set hcall (by simp [*])
    apply QueueAttended.notifyGate
    grind [QueueAttended, put, mayTake]
  | turnBack hcall | leave hcall =>
    have hn := fun hn : Notifies s.calls => hn.set hcall (by simp [*])
    apply Attended.notifyGateIf
    · intro hcond
      constructor <;> grind [mayRead, mayHold, mayTake, put, LockCall.complete]
    · grind [QueueAttended, put, mayTake, LockCall.complete]

/-- The worker goes on. -/
theorem Attended.workerStep (h : s.Attended) (hc : s.Counted) (ht : Transition s .work s') :
    s'.Attended := by
  obtain ⟨read, gate, queue, drain⟩ := id h
  have held := hc.writeHeld
  cases ht with
  | exit | take | sleepAtQueue | skip | decide | holdSkipped | hold | sleepAtGate =>
    constructor <;> grind [mayRead, mayHold, mayTake, requestStop]
  | downgradeEnded worker => exact QueueAttended.notifyGate (by rintro ⟨⟩)
  | complete =>
    refine ⟨?_, by rintro _ _ ⟨⟩, by rintro ⟨⟩, drain⟩
    grind [mayRead, DefaultWorkspaceLock.complete, LockCall.complete]
  | release worker =>
    apply Attended.notifyGateIf
    · intro hcond
      constructor <;> grind [mayRead]
    · rintro ⟨⟩

/-- The destructor goes on. -/
theorem Attended.destructorStep (h : s.Attended) (hl : s.Locked)
    (ht : Transition s .destruct s') : s'.Attended := by
  obtain ⟨read, gate, queue, drain⟩ := id h
  have stopping := hl.stopping
  cases ht with
  | rouseGate destructor =>
    obtain ⟨read', gate', queue', -⟩ := QueueAttended.notifyGate queue
    constructor <;> grind [DefaultWorkspaceLock.notifyGate, mayTake, LockDestructor.toldQueue]
  | rouseQueue =>
    constructor <;> grind [mayRead, mayHold, DefaultWorkspaceLock.notifyQueue,
      LockDestructor.stopped, LockDestructor.toldGate]
  | stop | cancel | drain | join | finish =>
    constructor <;> grind [mayRead, mayHold, mayTake, requestStop, LockDestructor.stopped,
      LockDestructor.toldQueue, LockDestructor.toldGate]

theorem Attended.step {e : LockEvent} (h : s.Attended) (hl : s.Locked) (hc : s.Counted)
    (ht : Transition s e s') : s'.Attended := by
  obtain ⟨read, gate, queue, drain⟩ := id h
  cases e with
  | goOn i => exact h.callStep hl hc ht
  | work => exact h.workerStep hc ht
  | destruct => exact h.destructorStep hl ht
  | call =>
    cases ht
    have hn := fun hn : Notifies s.calls => hn.concat
    constructor <;> grind [mayRead, mayHold, mayTake]
  | endRead =>
    cases ht with
    | endRead hcall acting =>
      have hn := fun hn : Notifies s.calls => hn.set hcall (by simp [*])
      constructor <;> grind [mayRead, mayHold, mayTake, put, LockCall.complete]
  | downgrade =>
    cases ht with
    | downgrade worker => exact QueueAttended.notifyGate (by rintro ⟨⟩)
    | downgradeAgain => exact h
  | endWrite =>
    cases ht
    exact ⟨read, by rintro _ _ ⟨⟩, by rintro ⟨⟩, drain⟩
  | destroy =>
    cases ht with
    | destroy destructor =>
      constructor <;> grind [mayRead, mayHold, mayTake, LockDestructor.stopped]
  | wake thread =>
    cases ht
    have hn := fun i (hn : Notifies s.calls) => hn.modify (i := i) (f := LockCall.wake) (by grind)
    cases thread <;> constructor <;>
      grind [mayRead, mayHold, mayTake, DefaultWorkspaceLock.wake]

end DefaultWorkspaceLock

end Pegium
