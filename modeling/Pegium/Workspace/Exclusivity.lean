/-
Pegium/Workspace/Exclusivity.lean

What the workspace lock guarantees, in every order of its steps.

The steps of the threads that are there already come to an end, since each one
leaves less to do or puts somebody to sleep.  When none is possible the lock is at
rest: every call has returned, and every future is completed.

A write holds the lock alone, unless the lock is being destroyed: `_stopping` lets
the worker pass the gate whoever reads, and whether the action is skipped was
decided before.  So a destruction that begins while a read runs, and the worker
waits for it with a write to run, lets both run at once.
-/
import Mathlib.Algebra.GroupWithZero.Nat
import Pegium.Workspace.LockInvariants

namespace Pegium

/-! ### What is left to do -/

/-- Steps that a call has left at most; a write in the queue keeps the worker busy for seven. -/
def CallPhase.left : CallPhase → ℕ
  | .called => 12
  | .counting => 11
  | .queueing => 10
  | .notifyingQueue => 2
  | .notifyingGate => 1
  | .waiting _ => 4
  | .admitted => 3
  | .acting => 2
  | .leaving => 1
  | .returned => 0

/-- A call that was notified takes one step to find out why. -/
def CallPhase.awake : CallPhase → ℕ
  | .waiting true => 1
  | _ => 0

/-- How many steps the worker has at most until it can end. -/
def LockWorker.left : LockWorker → ℕ
  | .exited => 0
  | .atQueue _ => 1
  | .releasing => 2
  | .ended _ _ true => 3
  | .ended _ _ false => 4
  | .acting _ true => 4
  | .acting _ false => 5
  | .atGate _ _ _ => 6
  | .took _ => 7

/-- A worker that was notified takes one step to find out why. -/
def LockWorker.awake : LockWorker → ℕ
  | .atQueue true | .atGate _ _ true => 1
  | _ => 0

/-- How many steps the destructor has at most. -/
def LockDestructor.left : LockDestructor → ℕ
  | .notCalled => 0
  | .stopping => 8
  | .cancelling => 7
  | .notifyingQueue => 6
  | .notifyingGate => 5
  | .draining _ => 4
  | .drained => 3
  | .joining => 2
  | .destroyed => 1

/-- A destructor that was notified takes one step to find out why. -/
def LockDestructor.awake : LockDestructor → ℕ
  | .draining true => 1
  | _ => 0

/-- An event of a thread that is there already, and not without a reason. -/
def LockEvent.own : LockEvent → Bool
  | .goOn _ | .endRead _ _ | .work | .downgrade | .endWrite _ | .destruct => true
  | .call _ | .destroy | .wake _ => false

/-- A measure of the calls, by how far they are. -/
def total (f : CallPhase → ℕ) (calls : List LockCall) : ℕ :=
  (calls.map fun call => f call.phase).sum

section Total

variable (f : CallPhase → ℕ) {calls : List LockCall} {i : ℕ} {call : LockCall}

theorem total_set (hcall : calls[i]? = some call) (call' : LockCall) :
    total f (calls.set i call') + f call.phase = total f calls + f call'.phase := by
  induction calls generalizing i with
  | nil => cases hcall
  | cons head calls ih =>
    cases i with
    | zero =>
      cases hcall
      simp only [total, List.set_cons_zero, List.map_cons, List.sum_cons]
      omega
    | succ i =>
      have := ih hcall
      simp only [total, List.set_cons_succ, List.map_cons, List.sum_cons] at this ⊢
      omega

theorem total_modify {g : LockCall → LockCall} (h : ∀ call, f (g call).phase = f call.phase)
    (i : ℕ) (calls : List LockCall) : total f (calls.modify i g) = total f calls := by
  induction calls generalizing i with
  | nil => cases i <;> rfl
  | cons head calls ih =>
    cases i with
    | zero => simp [total, h]
    | succ i =>
      have := ih i
      simp only [total, List.modify_succ_cons, List.map_cons, List.sum_cons] at this ⊢
      omega

theorem total_wake (h : f (.waiting false) = f (.waiting true)) :
    total f (calls.map LockCall.wake) = total f calls := by
  have hphase : ∀ call : LockCall, f call.wake.phase = f call.phase := fun call => by
    rw [LockCall.wake_phase]
    split
    case isTrue asleep => rw [asleep, h]
    case isFalse => rfl
  simp only [total, List.map_map]
  congr 2
  funext call
  exact hphase call

end Total

namespace DefaultWorkspaceLock

variable {s s' : DefaultWorkspaceLock}

/-- What is left to do, but for waking up and falling asleep. -/
def left (s : DefaultWorkspaceLock) : ℕ :=
  total CallPhase.left s.calls + 7 * s.writeQueue.length + s.worker.left + s.destructor.left

/-- How many are awake that may fall asleep. -/
def awake (s : DefaultWorkspaceLock) : ℕ :=
  total CallPhase.awake s.calls + s.worker.awake + s.destructor.awake

/-- A step leaves less to do, or puts somebody to sleep. -/
def Less (s' s : DefaultWorkspaceLock) : Prop :=
  s'.left < s.left ∨ s'.left = s.left ∧ s'.awake < s.awake

theorem left_notifyGate : s.notifyGate.left = s.left := by
  have hcalls : total CallPhase.left s.notifyGate.calls = total CallPhase.left s.calls :=
    total_wake _ rfl
  have hworker : s.notifyGate.worker.left = s.worker.left := by
    show s.worker.wakeGate.left = _
    cases s.worker <;> rfl
  have hdestructor : s.notifyGate.destructor.left = s.destructor.left := by
    show s.destructor.wake.left = _
    cases s.destructor <;> rfl
  unfold left
  rw [hcalls, hworker, hdestructor]
  rfl

theorem left_notifyGateIf {condition : Prop} [Decidable condition] :
    (s.notifyGateIf condition).left = s.left := by
  unfold notifyGateIf
  split
  · exact left_notifyGate
  · rfl

theorem left_notifyQueue : s.notifyQueue.left = s.left := by
  have hworker : s.notifyQueue.worker.left = s.worker.left := by
    show s.worker.wakeQueue.left = _
    cases s.worker <;> rfl
  unfold left
  rw [hworker]
  rfl

attribute [local simp] left put requestStop LockCall.complete CallPhase.left LockWorker.left
  LockDestructor.left in
/-- **No thread goes on for ever.** -/
theorem less_of_transition {e : LockEvent} (ht : Transition s e s') (own : e.own = true) :
    s' = s ∨ s'.Less s := by
  cases ht with
  | call | destroy | wake => cases own
  | downgradeAgain => exact .inl rfl
  | @empty i call hcall | @refuse i call hcall | @cancelWrite i call hcall | @supersede i call hcall
  | @count i call hcall | @push i call hcall | @enter i call hcall | @endRead i call _ hcall =>
    have hset := total_set CallPhase.left hcall
    refine .inr (.inl ?_)
    simp [*] at hset ⊢
    grind
  | @notifyQueue i call hcall =>
    have hset := total_set CallPhase.left hcall
    refine .inr (.inl (Nat.lt_of_le_of_lt (Nat.le_of_eq left_notifyQueue) ?_))
    simp [*] at hset ⊢
    grind
  | @notifyGate i call hcall =>
    have hset := total_set CallPhase.left hcall
    refine .inr (.inl (Nat.lt_of_le_of_lt (Nat.le_of_eq left_notifyGate) ?_))
    simp [*] at hset ⊢
    grind
  | @turnBack i call hcall | @leave i call hcall =>
    have hset := total_set CallPhase.left hcall
    refine .inr (.inl (Nat.lt_of_le_of_lt (Nat.le_of_eq left_notifyGateIf) ?_))
    simp [*] at hset ⊢
    grind
  | release worker =>
    refine .inr (.inl (Nat.lt_of_le_of_lt (Nat.le_of_eq left_notifyGateIf) ?_))
    simp [*]
  | downgrade worker | downgradeEnded worker =>
    refine .inr (.inl (Nat.lt_of_le_of_lt (Nat.le_of_eq left_notifyGate) ?_))
    simp [*]
  | @pass i call _ hcall waits =>
    have hset := total_set CallPhase.left hcall
    refine .inr (.inl ?_)
    rcases waits with ⟨phase, rfl⟩ | ⟨phase, rfl⟩ <;> simp [*] at hset ⊢ <;> grind
  | @sleep i call _ hcall waits =>
    have hset := total_set CallPhase.left hcall
    have hawake := total_set CallPhase.awake hcall
    rcases waits with ⟨phase, rfl⟩ | ⟨phase, rfl⟩
    · refine .inr (.inl ?_)
      simp [*] at hset ⊢
      grind
    · refine .inr (.inr ⟨?_, ?_⟩)
      · simp [*] at hset ⊢
        grind
      · simp [*, awake, CallPhase.awake] at hawake ⊢
        grind
  | exit worker | take worker | skip worker | decide worker | holdSkipped worker | hold worker
  | stop worker | cancel worker | join worker | finish worker =>
    refine .inr (.inl ?_)
    simp [*] <;> omega
  | @complete w outcome worker =>
    have hmodify := total_modify (g := LockCall.complete outcome) CallPhase.left (fun _ => rfl) w
      s.calls
    refine .inr (.inl ?_)
    simp [worker, DefaultWorkspaceLock.complete] at hmodify ⊢
    omega
  | @endWrite w downgraded _ worker =>
    refine .inr (.inl ?_)
    cases downgraded <;> simp [*]
  | rouseQueue destructor =>
    refine .inr (.inl (Nat.lt_of_le_of_lt (Nat.le_of_eq left_notifyQueue) ?_))
    simp [*]
  | rouseGate destructor =>
    have hnotify := left_notifyGate (s := s)
    refine .inr (.inl ?_)
    have hmoved : s.notifyGate.destructor.left = 5 := by
      show s.destructor.wake.left = 5
      rw [destructor]
      rfl
    unfold left at hnotify ⊢
    split <;> simp_all
  | drain destructor =>
    by_cases hdrained : s.activeReads = 0
    · refine .inr (.inl ?_)
      simp [*]
    · refine .inr (.inr ⟨?_, ?_⟩) <;> simp [*, awake, LockDestructor.awake]
  | sleepAtQueue worker | sleepAtGate worker =>
    refine .inr (.inr ⟨?_, ?_⟩) <;> simp [*, awake, LockWorker.awake]

theorem less_wellFounded : WellFounded Less := by
  refine Subrelation.wf (r := InvImage (Prod.Lex (· < ·) (· < ·)) fun s => (s.left, s.awake)) ?_
    (InvImage.wf _ (Prod.lex ⟨_, Nat.lt_wfRel.wf⟩ ⟨_, Nat.lt_wfRel.wf⟩).wf)
  intro s' s hless
  rcases hless with hleft | ⟨hleft, hawake⟩
  · exact .left _ _ hleft
  · show Prod.Lex _ _ (s'.left, s'.awake) (s.left, s.awake)
    rw [hleft]
    exact .right _ hawake

/-- Some thread goes on. -/
def GoesOn (s s' : DefaultWorkspaceLock) : Prop :=
  ∃ e : LockEvent, e.own = true ∧ s.step e = some s' ∧ s' ≠ s

/-- **No run goes on for ever without new calls.** -/
theorem no_endless_run (run : ℕ → DefaultWorkspaceLock) : ¬∀ n, GoesOn (run n) (run (n + 1)) := by
  intro hrun
  have hacc : ∀ s, ∀ n, run n = s → False := fun s => by
    induction s using less_wellFounded.induction with
    | _ s ih =>
      rintro n rfl
      obtain ⟨e, own, hstep, hne⟩ := hrun n
      rcases less_of_transition (transition_of_step hstep) own with heq | hless
      · exact hne heq
      · exact ih _ hless (n + 1) rfl
  exact hacc _ 0 rfl

/-! ### At rest -/

/-- No thread can go on. -/
def Rests (s : DefaultWorkspaceLock) : Prop := ∀ e : LockEvent, e.own = true → s.step e = none

/-- The invariants of the lock. -/
structure Sound (s : DefaultWorkspaceLock) : Prop where
  locked : s.Locked
  counted : s.Counted
  promised : s.Promised
  ordered : s.Ordered
  attended : s.Attended

theorem sound_initial : initial.Sound where
  locked := by constructor <;> simp [initial, LockDestructor.stopped]
  counted := by constructor <;> rfl
  promised := by constructor <;> simp [initial, waitingWrites, LockWorker.write?]
  ordered := by constructor <;> simp [initial, LockWorker.upcoming, LockWorker.acting?]
  attended := by constructor <;> simp [initial]

theorem Sound.step {e : LockEvent} (h : s.Sound) (hstep : s.step e = some s') : s'.Sound := by
  have ht := transition_of_step hstep
  exact ⟨h.locked.step ht, h.counted.step ht, h.promised.step ht, h.ordered.step ht,
    h.attended.step h.locked h.counted ht⟩

/-- The invariants hold in every run. -/
theorem sound_of_reaches {Allowed : DefaultWorkspaceLock → LockEvent → Prop}
    (h : machine.Reaches Allowed initial s) : s.Sound :=
  h.invariant sound_initial fun _ _ _ hs _ hstep => hs.step hstep

section AtRest

variable (hrest : s.Rests) (h : s.Sound)
include hrest h

theorem Rests.gate : s.gateOwner = none := by
  cases hgate : s.gateOwner with
  | none => rfl
  | some i =>
    -- The read that holds the gate goes on.
    have hi := List.getElem?_eq_getElem (h.locked.gateCall i hgate)
    have phase := (h.locked.gate i _ hi).mpr hgate
    have request := h.promised.fits i _ hi
    have hstep := hrest (.goOn i) rfl
    simp only [Fits, phase] at request
    simp only [step, hi, Option.bind_some, callStep, request, readStep, phase] at hstep
    split at hstep <;> cases hstep

theorem Rests.queue : s.queueOwner = none := by
  have gate := hrest.gate h
  cases hqueue : s.queueOwner with
  | none => rfl
  | some i =>
    -- The write that holds the queue goes on.
    have hi := List.getElem?_eq_getElem (h.locked.queueCall i hqueue)
    have phase := (h.locked.queue i _ hi).mpr hqueue
    have request := h.promised.fits i _ hi
    have hstep := hrest (.goOn i) rfl
    rcases phase with phase | phase <;> simp only [Fits, phase] at request <;>
      simp [step, hi, callStep, request, writeStep, phase, gate] at hstep

/-- A call that has not returned sleeps. -/
theorem Rests.phase {i : ℕ} {call : LockCall} (hcall : s.calls[i]? = some call) :
    call.phase = .returned ∨ call.phase = .waiting false := by
  have gate := hrest.gate h
  have queue := hrest.queue h
  have fits := h.promised.fits i call hcall
  have hgo := hrest (.goOn i) rfl
  have hend := hrest (.endRead i .returned) rfl
  rcases call with ⟨request, phase, future⟩
  cases phase with
  | returned => exact .inl rfl
  | waiting awake =>
    cases awake with
    | false => exact .inr rfl
    | true => simp_all [step, callStep, Fits, readStep]
  | called =>
    rcases request with ⟨_ | _⟩ | ⟨_ | _⟩ | _
      <;> simp [step, hcall, callStep, writeStep, readStep, gate, queue] at hgo
    split at hgo <;> cases hgo
  | acting => simp [step, hcall] at hend
  | counting | queueing | notifyingQueue | notifyingGate =>
    simp_all [step, callStep, Fits, writeStep]
  | admitted | leaving =>
    simp only [Fits] at fits
    simp [step, hcall, callStep, fits, readStep, gate] at hgo
    try split at hgo <;> cases hgo

/-- No call is in a phase that counts. -/
theorem Rests.number_eq_zero {p : CallPhase → Bool} (returned : p .returned = false)
    (asleep : p (.waiting false) = false) : number p s.calls = 0 := by
  apply Int.ofNat_eq_zero.mpr
  apply List.countP_eq_zero.mpr
  intro call hmem
  obtain ⟨i, hi⟩ := List.mem_iff_getElem?.mp hmem
  rcases hrest.phase h hi with phase | phase <;> rw [phase] <;> simp [*]

/-- The destruction, if it has begun, has told everybody. -/
theorem Rests.told : ¬(s.destructor.stopped = true ∧ s.destructor.toldGate = false) := by
  rintro ⟨stopped, told⟩
  have gate := hrest.gate h
  have queue := hrest.queue h
  have hstep := hrest .destruct rfl
  cases hd : s.destructor <;> simp_all [step, destructorStep, LockDestructor.stopped,
    LockDestructor.toldGate]

/-- The worker has nothing to do. -/
theorem Rests.worker : (s.worker = .atQueue false ∨ s.worker = .exited) ∧ s.writeQueue = [] := by
  have gate := hrest.gate h
  have queue := hrest.queue h
  have hwork := hrest .work rfl
  have hend := hrest (.endWrite .returned) rfl
  cases hworker : s.worker with
  | exited => exact ⟨.inr rfl, (h.locked.exited hworker).2⟩
  | atQueue awake =>
    cases awake with
    | true =>
      simp only [step, workerStep, hworker, queue, if_true] at hwork
      split at hwork
      · split at hwork <;> cases hwork
      · cases hwork
    | false =>
      refine ⟨.inl rfl, ?_⟩
      rcases h.attended.queue hworker with hmay | ⟨stopped, told⟩ | ⟨i, call, hcall, phase⟩
      · grind [mayTake]
      · refine absurd ⟨stopped, ?_⟩ (hrest.told h)
        cases hd : s.destructor <;> simp_all [LockDestructor.toldQueue, LockDestructor.toldGate]
      · rcases hrest.phase h hcall with h' | h' <;> rw [phase] at h' <;> cases h'
  | atGate w shuttingDown awake =>
    cases awake with
    | true =>
      simp only [step, workerStep, hworker, gate, if_true] at hwork
      split at hwork
      · split at hwork <;> cases hwork
      · cases hwork
    | false =>
      -- It would wait for readers, and there are none.
      rcases h.attended.gate w shuttingDown hworker with hmay | htold
      · have hzero := hrest.number_eq_zero h (p := CallPhase.reads) rfl rfl
        have hreaders := h.counted.readers
        have hheld := h.counted.writeHeld
        rw [hworker] at hreaders hheld
        simp_all [mayHold, LockWorker.reading, LockWorker.holding]
      · exact absurd htold (hrest.told h)
  | took w =>
    simp only [step, workerStep, hworker] at hwork
    split at hwork <;> cases hwork
  | ended w outcome downgraded =>
    cases downgraded <;> simp [step, workerStep, hworker, gate] at hwork
  | acting w downgraded => simp [step, hworker] at hend
  | releasing => simp [step, workerStep, hworker, gate] at hwork

/-- **At rest every call has returned, and every future is completed.** -/
theorem Rests.returned {i : ℕ} {call : LockCall} (hcall : s.calls[i]? = some call) :
    call.phase = .returned ∧ (call.request ≠ .cancelWrite → call.future.length = 1) := by
  obtain ⟨hworker, hqueue⟩ := hrest.worker h
  have hphase : call.phase = .returned := by
    rcases hrest.phase h hcall with phase | phase
    · exact phase
    · rcases h.attended.read i call hcall phase with hmay | htold
      · -- A read would wait for writes, and there are none.
        have hzero := hrest.number_eq_zero h (p := CallPhase.counted) rfl rfl
        have hpending := h.counted.writePending
        have hheld := h.counted.writeHeld
        rcases hworker with hworker | hworker <;> rw [hworker] at hpending hheld <;>
          simp_all [mayRead, LockWorker.pending, LockWorker.holding]
      · exact absurd htold (hrest.told h)
  refine ⟨hphase, fun hrequest => ?_⟩
  have hnone : i ∉ s.waitingWrites := by
    rcases hworker with hworker | hworker
      <;> simp [waitingWrites, hworker, hqueue, LockWorker.write?]
  rw [h.promised.future i call hcall hnone]
  rcases call with ⟨⟨_ | _⟩ | ⟨_ | _⟩ | _, phase, future⟩ <;> simp_all [given]

end AtRest

/-! ### What the lock guarantees -/

/-- The invariants of a lock that is quiesced. -/
structure GuardedSound (s : DefaultWorkspaceLock) : Prop where
  sound : s.Sound
  guarded : s.Guarded

theorem guarded_of_reaches (h : machine.Reaches Quiesced initial s) : s.Guarded := by
  have hinit : initial.GuardedSound := ⟨sound_initial, nofun, nofun⟩
  have hboth : s.GuardedSound := h.invariant hinit fun s e s' hs hallowed hstep =>
    ⟨hs.sound.step hstep, hs.guarded.step hs.sound.locked hs.sound.counted hallowed
      (transition_of_step hstep)⟩
  exact hboth.guarded

/-- A write's action that holds the lock runs alone; the worker runs one action at a time. -/
def Exclusive (s : DefaultWorkspaceLock) : Prop := s.worker.exclusive = true → s.NoReadActs

/-- The counters count, and none goes below zero. -/
structure Accounted (s : DefaultWorkspaceLock) : Prop where
  nonneg : 0 ≤ s.readers ∧ 0 ≤ s.writePending ∧ 0 ≤ s.activeReads
  readers : s.readers = number CallPhase.reads s.calls + s.worker.reading.toNat
  writePending :
    s.writePending = number CallPhase.counted s.calls + s.writeQueue.length + s.worker.pending.toNat
  activeReads : s.activeReads = number CallPhase.inside s.calls

/-- No future is completed twice, none of a write before its action ended, and all are when the
lock comes to rest. -/
structure KeepsPromises (s : DefaultWorkspaceLock) : Prop where
  once : ∀ (i : ℕ) (call : LockCall), s.calls[i]? = some call → call.future.length ≤ 1
  ended : ∀ (i : ℕ) (call : LockCall), s.calls[i]? = some call → call.future ≠ [] →
    i ∈ s.started → i ∈ s.ended
  atRest : s.Rests → ∀ (i : ℕ) (call : LockCall), s.calls[i]? = some call →
    call.phase = .returned ∧ (call.request ≠ .cancelWrite → call.future.length = 1)

theorem Sound.keepsPromises (h : s.Sound) : s.KeepsPromises where
  once i call hcall := by
    by_cases hi : i ∈ s.waitingWrites
    · obtain ⟨call₀, h₀, -, hempty⟩ := h.promised.waiting i hi
      grind
    · rw [h.promised.future i call hcall hi]
      grind [given]
  ended i call hcall hfuture hstarted := by
    rw [h.ordered.ended] at hstarted
    rcases List.mem_append.mp hstarted with hended | hacting
    · exact hended
    · -- A write whose action runs is at the worker, and has no completed future.
      have hi : i ∈ s.waitingWrites := by
        apply List.mem_append_left
        cases hworker : s.worker <;> simp_all [LockWorker.acting?, LockWorker.write?]
      obtain ⟨call₀, h₀, -, hempty⟩ := h.promised.waiting i hi
      grind
  atRest hrest i call hcall := hrest.returned h hcall

/-- **In every order of its steps the lock counts what runs, runs its writes in the order they were
queued, and completes every future once; and while it is quiesced, a write that holds it runs
alone.** -/
theorem lock_keeps_order (h : machine.Reaches (fun _ _ => True) initial s) :
    s.Accounted ∧ s.started.Sublist s.queued ∧ s.queued.Nodup ∧ s.KeepsPromises ∧
      (∀ run : ℕ → DefaultWorkspaceLock, run 0 = s → ¬∀ n, GoesOn (run n) (run (n + 1))) ∧
      (machine.Reaches Quiesced initial s → s.Exclusive) := by
  have hs := sound_of_reaches h
  refine ⟨⟨hs.counted.nonneg, hs.counted.readers, hs.counted.writePending, hs.counted.activeReads⟩,
    ?_, hs.ordered.nodup, hs.keepsPromises, fun run _ => no_endless_run run, fun hq => ?_⟩
  · rw [hs.ordered.queued]
    exact hs.ordered.started.trans (List.sublist_append_left ..)
  · -- Exclusivity needs the other invariants, which hold in every run.
    exact (guarded_of_reaches hq).exclusive

/-- Two reads and two writes, the first of them downgraded: the second read waits for both. -/
def mixedEvents : List LockEvent :=
  [.call (.read true), .goOn 0, .goOn 0, .call (.write true), .goOn 1, .goOn 1, .goOn 1, .goOn 1,
    .goOn 1, .call (.write true), .goOn 2, .goOn 2, .goOn 2, .goOn 2, .goOn 2, .call (.read true),
    .goOn 3, .work, .work, .work, .endRead 0 .returned, .goOn 0, .work, .downgrade,
    .endWrite .cancelled, .goOn 3]

/-- The run of `mixedEvents`. -/
theorem lock_keeps_order_mixed : ∃ s, machine.run initial mixedEvents = some s ∧
    s.started = [1] ∧ s.queued = [1, 2] ∧ s.started.Sublist s.queued ∧ s.KeepsPromises := by
  obtain ⟨s, hs⟩ := Option.isSome_iff_exists.mp
    (show (machine.run initial mixedEvents).isSome = true by decide +kernel)
  have hstarted : (machine.run initial mixedEvents).map started = some [1] := by decide +kernel
  have hqueued : (machine.run initial mixedEvents).map queued = some [1, 2] := by decide +kernel
  rw [hs] at hstarted hqueued
  have hreaches : machine.Reaches (fun _ _ => True) initial s :=
    Machine.reaches_of_run hs (Machine.allowedRun_any ..)
  have h := lock_keeps_order hreaches
  exact ⟨s, hs, Option.some.inj hstarted, Option.some.inj hqueued, h.2.1, h.2.2.2.1⟩

/-- A read runs, a write is taken and waits for it, and the lock is destroyed. -/
def destroyedEvents : List LockEvent :=
  [.call (.read true), .goOn 0, .goOn 0, .call (.write true), .goOn 1, .goOn 1, .goOn 1, .work,
    .work, .destroy, .destruct, .work]

/-- **A destruction lets a write run beside a read.** -/
theorem not_exclusive_destroyed :
    ¬∀ s, machine.Reaches (fun _ _ => True) initial s → s.Exclusive := by
  intro hall
  obtain ⟨s, hs⟩ := Option.isSome_iff_exists.mp
    (show (machine.run initial destroyedEvents).isSome = true by decide +kernel)
  have hexclusive : (machine.run initial destroyedEvents).map (·.worker.exclusive) = some true := by
    decide +kernel
  have hacting : (machine.run initial destroyedEvents).map
      (fun s => s.calls[0]?.map (·.phase)) = some (some .acting) := by
    decide +kernel
  rw [hs] at hexclusive hacting
  obtain ⟨call, hcall, phase⟩ := Option.map_eq_some_iff.mp (Option.some.inj hacting)
  exact hall s (Machine.reaches_of_run hs (Machine.allowedRun_any ..))
    (Option.some.inj hexclusive) 0 call hcall phase

end DefaultWorkspaceLock

end Pegium
