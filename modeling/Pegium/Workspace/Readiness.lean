/-
Pegium/Workspace/Readiness.lean

Is the ready promise of a workspace settled?

Every promise but the present one has been settled, and the present one has been
exactly when the manager says so (`Accounts`); so none is settled twice.  A startup
whose action gets as far as `performStartup` leaves its promise settled, however it
ends.  But the action may be skipped by a lock that shuts down, and it looks at its
token before `performStartup` does: then nobody settles the promise
(`ManagerState.Meets` excludes this).
-/
import Pegium.Workspace.DefaultWorkspaceManager
import Pegium.Workspace.Exclusivity

namespace Pegium

open Function (update)

/-! ### The promises -/

namespace DefaultWorkspaceManager

variable {m m' : DefaultWorkspaceManager} {p q : ℕ} {taken : Option ℕ}

/-- The promise was settled, or is about to be. -/
def Claimed (m : DefaultWorkspaceManager) (p : ℕ) : Prop :=
  p < m.readyPromise ∨ p = m.readyPromise ∧ m.readySettled = true

instance (m : DefaultWorkspaceManager) : DecidablePred m.Claimed := fun p =>
  inferInstanceAs (Decidable (p < m.readyPromise ∨ p = m.readyPromise ∧ m.readySettled = true))

/-- What each promise was given, apart from the one that is about to be settled. -/
def Accounts (m : DefaultWorkspaceManager) (pending : Option ℕ) : Prop :=
  ∀ p, (m.promises p).length + (if pending = some p then 1 else 0) = if m.Claimed p then 1 else 0

theorem accounts_new : new.Accounts none := fun p => by
  show 0 + 0 = if p < 0 ∨ p = 0 ∧ false = true then 1 else 0
  simp

theorem length_complete (completion : Completion) :
    ((m.complete p completion).promises q).length
      = (m.promises q).length + if p = q then 1 else 0 := by
  simp only [complete, Function.update_apply, eq_comm (a := q)]
  split
  · rename_i h
    rw [h, List.length_append]
    rfl
  · rfl

/-- The promise at hand is settled. -/
theorem Accounts.complete (h : m.Accounts (some p)) (completion : Completion) :
    (m.complete p completion).Accounts none := by
  intro q
  rw [length_complete]
  have hq := h q
  simp only [Option.some.injEq] at hq
  exact hq

theorem Accounts.initializeManager {pending : Option ℕ} (h : m.Accounts pending)
    (folders : Option (List Uri)) : (m.initializeManager folders).Accounts pending := by
  intro q
  have hq := h q
  have hclaimed : (m.initializeManager folders).Claimed q ↔
      q < m.readyPromise ∨ q = m.readyPromise := by
    simp only [Claimed, DefaultWorkspaceManager.initializeManager, Bool.false_eq_true, and_false,
      or_false]
    split
    all_goals exact Nat.lt_succ_iff_lt_or_eq
  simp only [hclaimed]
  cases hsettled : m.readySettled with
  | true =>
    simp only [Claimed, hsettled, and_true] at hq
    simp only [DefaultWorkspaceManager.initializeManager, hsettled, if_true]
    exact hq
  | false =>
    simp only [Claimed, hsettled, Bool.false_eq_true, and_false, or_false] at hq
    simp only [DefaultWorkspaceManager.initializeManager, hsettled]
    show ((m.complete m.readyPromise .exception).promises q).length + _ = _
    rw [length_complete]
    split_ifs at hq ⊢ <;> omega

/-- Settling takes the present promise, once. -/
theorem settle_cases (h : m.settle = (m', taken)) :
    (m.readySettled = true ∧ m' = m ∧ taken = none) ∨
      (m.readySettled = false ∧ m' = { m with readySettled := true } ∧
        taken = some m.readyPromise) := by
  rw [settle] at h
  split at h
  · rename_i hsettled
    cases h
    exact .inl ⟨hsettled, rfl, rfl⟩
  · rename_i hsettled
    cases h
    exact .inr ⟨Bool.eq_false_iff.mpr hsettled, rfl, rfl⟩

/-- The present promise is at hand once it is taken. -/
theorem Accounts.take (h : m.Accounts none) (hnot : m.readySettled = false) :
    ({ m with readySettled := true } : DefaultWorkspaceManager).Accounts (some m.readyPromise) := by
  intro q
  have hq := h q
  simp only [Claimed, hnot, Bool.false_eq_true, and_false, or_false] at hq
  simp only [Claimed, and_true, Option.some.injEq]
  split_ifs at hq ⊢ <;> first | omega | simp_all

theorem readyPromise_initializeManager (folders : Option (List Uri)) :
    (m.initializeManager folders).readyPromise = m.readyPromise + 1 := by
  show (if m.readySettled then m else m.complete m.readyPromise .exception).readyPromise + 1 = _
  split <;> rfl

theorem Claimed.initializeManager (h : m.Claimed p) (folders : Option (List Uri)) :
    (m.initializeManager folders).Claimed p := by
  refine .inl ?_
  rw [readyPromise_initializeManager]
  rcases h with hlt | ⟨rfl, -⟩
  · exact Nat.lt_succ_of_lt hlt
  · exact Nat.lt_succ_self _

/-- A promise that was claimed, and is not at hand, was settled. -/
theorem Accounts.settled (h : m.Accounts none) (hp : m.Claimed p) : m.promises p ≠ [] := by
  have hlength := h p
  rw [if_pos hp, if_neg nofun] at hlength
  exact List.ne_nil_of_length_pos (by omega)

theorem Accounts.length_le {pending : Option ℕ} (h : m.Accounts pending) (p : ℕ) :
    (m.promises p).length ≤ 1 := by
  have hlength := h p
  split_ifs at hlength <;> omega

/-- What was given to a promise stays. -/
theorem settled_complete (h : m.promises q ≠ []) (completion : Completion) :
    (m.complete p completion).promises q ≠ [] := by
  refine List.ne_nil_of_length_pos ?_
  rw [length_complete]
  exact Nat.add_pos_left (List.length_pos_of_ne_nil h) _

theorem settled_initializeManager (h : m.promises q ≠ []) (folders : Option (List Uri)) :
    (m.initializeManager folders).promises q ≠ [] := by
  show (if m.readySettled then m else m.complete m.readyPromise .exception).promises q ≠ []
  split
  · exact h
  · exact settled_complete h _

end DefaultWorkspaceManager

/-! ### The startup -/

namespace StartupStage

/-- The promise that the startup is about to settle. -/
def pending : StartupStage → Option ℕ
  | .fulfilling promise | .failing promise _ => some promise
  | _ => none

/-- The startup has been where it settles its promise. -/
def past : StartupStage → Bool
  | .loaded | .building | .built | .leaving _ | .done _ => true
  | _ => false

/-- What one step of a startup does to the promises. -/
inductive Does (cancelled : Bool) (m : DefaultWorkspaceManager) :
    StartupStage → DefaultWorkspaceManager → StartupStage → Prop
  | early {stage stage' : StartupStage} (observations : List Observation)
      (h : stage.pending = none) (h' : stage'.pending = none) (hpast' : stage'.past = false) :
      Does cancelled m stage { m with observations := observations } stage'
  | refuse (hcancelled : cancelled = true) : Does cancelled m .entering m (.leaving .cancelled)
  | settle {stage stage' : StartupStage} {m' : DefaultWorkspaceManager} {taken : Option ℕ}
      (h : stage.pending = none) (hsettle : m.settle = (m', taken)) (h' : stage'.pending = taken)
      (hpast : stage'.past = taken.isNone) : Does cancelled m stage m' stage'
  | complete {stage stage' : StartupStage} (promise : ℕ) (completion : Completion)
      (h : stage.pending = some promise) (h' : stage'.pending = none) :
      Does cancelled m stage (m.complete promise completion) stage'
  | late {stage stage' : StartupStage} (observations : List Observation)
      (hpast : stage.past = true) (h' : stage'.pending = none) :
      Does cancelled m stage { m with observations := observations } stage'

variable {fs : FileSystem} {hasServices : Uri → Bool} {folders : List Uri} {cancelled : Bool}
  {m m' : DefaultWorkspaceManager} {stage stage' : StartupStage} {answer : StartupAnswer}

theorem does_of_traverse {pending uris : List Uri} {calls : List Traversal}
    (h : traverse hasServices cancelled m pending uris calls answer = some (m', stage')) :
    Does cancelled m (.traversing calls pending uris) m' stage' := by
  revert h
  fun_cases traverse hasServices cancelled m pending uris calls answer
  all_goals
    rintro ⟨⟩
  all_goals
    exact .early _ rfl rfl rfl

/-- **A step of a startup.** -/
theorem does_of_step
    (h : stage.step fs hasServices folders cancelled m answer = some (m', stage')) :
    Does cancelled m stage m' stage' := by
  revert h
  fun_cases StartupStage.step fs hasServices folders cancelled m stage answer with
  | case1 =>
    rintro ⟨⟩
    cases cancelled with
    | true => exact .refuse rfl
    | false => exact .early _ rfl rfl rfl
  | case2 | case14 =>
    rintro ⟨⟩
    cases cancelled <;> exact .early _ rfl rfl rfl
  | case3 | case4 | case5 | case6 | case7 | case8 | case10 | case11 | case12 | case13 | case15 =>
    rintro ⟨⟩
    exact .early _ rfl rfl rfl
  | case9 => exact does_of_traverse
  | case16 m' promise hsettle | case17 m' hsettle =>
    rintro ⟨⟩
    exact .settle rfl hsettle rfl rfl
  | case19 thrown m' promise hsettle | case20 thrown m' hsettle =>
    rintro ⟨⟩
    exact .settle rfl hsettle rfl rfl
  | case18 | case21 =>
    rintro ⟨⟩
    exact .complete _ _ rfl rfl
  | case22 | case25 =>
    rintro ⟨⟩
    cases cancelled <;> exact .late _ rfl rfl
  | case23 | case24 | case26 | case27 | case28 =>
    rintro ⟨⟩
    exact .late _ rfl rfl
  | case29 => exact nofun

theorem pending_of_past (h : stage.past = true) : stage.pending = none := by
  cases stage with
  | fulfilling promise => cases h
  | failing promise thrown => cases h
  | _ => rfl

/-- A startup that has promise `p` to settle, and where it is. -/
structure Settles (stage : StartupStage) (m : DefaultWorkspaceManager) (p : ℕ) : Prop where
  known : p ≤ m.readyPromise
  claimed : stage.pending ≠ none → m.Claimed p
  settled : stage.past = true → m.promises p ≠ []

/-- **A step of a startup settles its promise on the way past**, when its action does not
begin cancelled. -/
theorem Settles.does {p : ℕ} (h : stage.Settles m p) (accounts : m.Accounts stage.pending)
    (hdoes : Does cancelled m stage m' stage')
    (begins : stage = .entering → cancelled = true → m.promises p ≠ []) :
    m'.Accounts stage'.pending ∧ stage'.Settles m' p := by
  cases hdoes with
  | early observations hpending h' hpast' =>
    rw [hpending] at accounts
    rw [h']
    refine ⟨accounts, h.known, fun hne => absurd h' hne, fun hpast => ?_⟩
    rw [hpast'] at hpast
    cases hpast
  | refuse hcancelled =>
    exact ⟨accounts, h.known, fun hne => absurd rfl hne, fun _ => begins rfl hcancelled⟩
  | @settle _ _ _ taken hpending hsettle h' hpast =>
    rw [hpending] at accounts
    rcases DefaultWorkspaceManager.settle_cases hsettle with ⟨hsettled, rfl, rfl⟩ | ⟨hnot, rfl, rfl⟩
    · -- somebody else settled the present promise, and so every promise is settled
      have hclaimed : m'.Claimed p := by
        rcases Nat.lt_or_eq_of_le h.known with hlt | heq
        · exact .inl hlt
        · exact .inr ⟨heq, hsettled⟩
      rw [h']
      exact ⟨accounts, h.known, fun _ => hclaimed, fun _ => accounts.settled hclaimed⟩
    · rw [h']
      refine ⟨accounts.take hnot, h.known, fun _ => ?_, fun hp => ?_⟩
      · rcases Nat.lt_or_eq_of_le h.known with hlt | heq
        · exact .inl hlt
        · exact .inr ⟨heq, rfl⟩
      · rw [hpast] at hp
        cases hp
  | complete promise completion hpending h' =>
    have hclaimed : m.Claimed p := h.claimed (by rw [hpending]; nofun)
    rw [hpending] at accounts
    have hdone : (m.complete promise completion).Accounts none := accounts.complete completion
    rw [h']
    exact ⟨hdone, h.known, fun hne => absurd h' hne, fun _ => hdone.settled hclaimed⟩
  | late observations hpast h' =>
    rw [pending_of_past hpast] at accounts
    rw [h']
    exact ⟨accounts, h.known, fun hne => absurd h' hne, fun _ => h.settled hpast⟩

/-- What was given to a promise stays. -/
theorem Does.settled {q : ℕ} (h : Does cancelled m stage m' stage') (hq : m.promises q ≠ []) :
    m'.promises q ≠ [] := by
  cases h with
  | settle _ hsettle _ _ =>
    rcases DefaultWorkspaceManager.settle_cases hsettle with ⟨-, rfl, -⟩ | ⟨-, rfl, -⟩ <;> exact hq
  | complete promise completion _ _ => exact DefaultWorkspaceManager.settled_complete hq completion
  | _ => exact hq

theorem Settles.initializeManager {p : ℕ} (h : stage.Settles m p) (folders : Option (List Uri)) :
    stage.Settles (m.initializeManager folders) p where
  known := by
    rw [DefaultWorkspaceManager.readyPromise_initializeManager]
    exact Nat.le_succ_of_le h.known
  claimed hpending := (h.claimed hpending).initializeManager folders
  settled hpast := DefaultWorkspaceManager.settled_initializeManager (h.settled hpast) folders

theorem Does.readyPromise_eq (h : Does cancelled m stage m' stage') :
    m'.readyPromise = m.readyPromise := by
  cases h with
  | settle _ hsettle _ _ =>
    rcases DefaultWorkspaceManager.settle_cases hsettle with ⟨-, rfl, -⟩ | ⟨-, rfl, -⟩ <;> rfl
  | _ => rfl

end StartupStage

/-! ### The lock -/

namespace LockWorker

/-- The write at hand that will not run any more. -/
def passed : LockWorker → Option ℕ
  | .ended write _ _ | .atGate write true _ => some write
  | _ => none

variable (worker : LockWorker)

variable {worker} in
theorem write?_of_passed {w : ℕ} (h : worker.passed = some w) : worker.write? = some w := by
  cases worker with
  | ended write outcome downgraded => exact h
  | atGate write shuttingDown awake =>
    cases shuttingDown with
    | true => exact h
    | false => cases h
  | _ => cases h

variable {worker} in
theorem write?_of_acting {w : ℕ} (h : worker.acting? = some w) : worker.write? = some w := by
  cases worker with
  | acting write downgraded => exact h
  | _ => cases h

@[simp, grind =] theorem wakeGate_passed : worker.wakeGate.passed = worker.passed := by
  cases worker with
  | atGate write shuttingDown awake => cases shuttingDown <;> rfl
  | _ => rfl

@[simp, grind =] theorem wakeQueue_passed : worker.wakeQueue.passed = worker.passed := by
  cases worker <;> rfl

end LockWorker

namespace DefaultWorkspaceLock

variable {s s' : DefaultWorkspaceLock} {e : LockEvent} {w : ℕ}

/-- A write whose future is completed. -/
def Completed (s : DefaultWorkspaceLock) (w : ℕ) : Prop :=
  ∃ call, s.calls[w]? = some call ∧ call.future ≠ []

/-- The lock drops a write: it is called, or taken, once the lock is stopping. -/
def Drops (s : DefaultWorkspaceLock) (w : ℕ) : LockEvent → Prop
  | .goOn i => i = w ∧ s.stopping = true ∧
    ∃ call, s.calls[w]? = some call ∧ call.phase = .called
  | .work => s.worker = .took w ∧ (s.stopping || s.stopRequested) = true
  | _ => False

/-- The worker at the gate, or with a write whose action runs or has ended. -/
theorem passed_of_transition (ht : Transition s e s') (h : s'.worker.passed = some w) :
    s.worker.passed = some w ∨ s.Drops w e ∨
      (s.worker.acting? = some w ∧ ∃ outcome, e = .endWrite outcome) := by
  cases ht with
  | @sleepAtGate w' shuttingDown worker =>
    -- the worker falls asleep with what it decided before
    cases shuttingDown with
    | true => exact .inl (by rw [worker]; exact h)
    | false => cases h
  | skip worker stopping =>
    cases h
    exact .inr (.inl ⟨worker, stopping⟩)
  | holdSkipped worker =>
    cases h
    exact .inl (by rw [worker]; rfl)
  | endWrite worker =>
    cases h
    exact .inr (.inr ⟨by rw [worker]; rfl, _, rfl⟩)
  | downgradeEnded worker =>
    refine .inl ?_
    rw [worker]
    exact h
  | @wake thread => cases thread <;> grind [DefaultWorkspaceLock.wake]
  | _ =>
    grind [LockWorker.passed, put, requestStop, DefaultWorkspaceLock.notifyQueue,
      DefaultWorkspaceLock.notifyGate, notifyGateIf, DefaultWorkspaceLock.complete,
      DefaultWorkspaceLock.downgrade]

/-- What a write that is called stays. -/
theorem write_of_transition (ht : Transition s e s') {call : LockCall}
    (hcall : s.calls[w]? = some call) :
    ∃ call', s'.calls[w]? = some call' ∧ call'.request = call.request := by
  cases ht with
  | @wake thread => cases thread <;> grind [DefaultWorkspaceLock.wake]
  | _ =>
    grind [put, requestStop, DefaultWorkspaceLock.notifyQueue, LockCall.complete,
      DefaultWorkspaceLock.notifyGate, notifyGateIf, DefaultWorkspaceLock.complete,
      DefaultWorkspaceLock.downgrade]

/-- **A write is over because it was before, because it is dropped, or because it passed.** -/
theorem completed_of_transition (hs : s.Promised) (ht : Transition s e s') {call : LockCall}
    (hcall : s.calls[w]? = some call) (hwrite : call.request = .write true)
    (h : s'.Completed w) : s.Completed w ∨ s.Drops w e ∨ s.worker.passed = some w := by
  obtain ⟨call', hcall', hfuture⟩ := h
  have hfits := hs.fits w call hcall
  cases ht with
  | @wake thread => cases thread <;> grind [Completed, DefaultWorkspaceLock.wake]
  | _ =>
    grind [Completed, Drops, Fits, LockWorker.passed, put, requestStop, LockCall.complete,
      DefaultWorkspaceLock.notifyQueue, DefaultWorkspaceLock.notifyGate, notifyGateIf,
      DefaultWorkspaceLock.complete, DefaultWorkspaceLock.downgrade]

/-- An action runs until it ends, and no other begins before. -/
theorem acting_of_transition (ht : Transition s e s') :
    (∃ outcome, e = .endWrite outcome) ∨ s.worker.acting? = none ∨
      s'.worker.acting? = s.worker.acting? := by
  cases ht with
  | endWrite => exact .inl ⟨_, rfl⟩
  | @wake thread => cases thread <;> grind [DefaultWorkspaceLock.wake]
  | _ =>
    grind [LockWorker.acting?, put, requestStop, DefaultWorkspaceLock.notifyQueue,
      DefaultWorkspaceLock.notifyGate, notifyGateIf, DefaultWorkspaceLock.complete,
      DefaultWorkspaceLock.downgrade]

theorem acting_of_endWrite {outcome : ActionEnd} (ht : Transition s (.endWrite outcome) s') :
    s'.worker.acting? = none := by
  cases ht
  rfl

end DefaultWorkspaceLock

/-! ### Runs -/

namespace ManagerState

variable {fs : FileSystem} {hasServices : Uri → Bool} {s s' : ManagerState}

/-- A startup that the lock drops, and one whose action begins cancelled, finds its promise
settled already. -/
def Meets (s : ManagerState) : ManagerEvent → Prop
  | .lock event => ∀ w startup, s.startups w = some startup → s.lock.Drops w event →
    s.manager.promises startup.promise ≠ []
  | .startup _ => ∀ w startup, s.running = some (w, startup) → s.stage = .entering →
    s.lock.cancelled w = true → s.manager.promises startup.promise ≠ []
  | _ => True

/-- What holds of a manager and its lock. -/
structure Inv (s : ManagerState) : Prop where
  lock : s.lock.Sound
  accounts : s.manager.Accounts s.stage.pending
  write : ∀ w startup, s.startups w = some startup →
    ∃ call, s.lock.calls[w]? = some call ∧ call.request = .write true
  known : ∀ w startup, s.startups w = some startup → startup.promise ≤ s.manager.readyPromise
  running : ∀ w startup, s.running = some (w, startup) →
    s.stage.Settles s.manager startup.promise
  resting : s.running = none → s.stage = .entering
  ended : ∀ w startup, s.startups w = some startup →
    s.lock.Completed w ∨ s.lock.worker.passed = some w → s.manager.promises startup.promise ≠ []

theorem inv_initial : initial.Inv where
  lock := DefaultWorkspaceLock.sound_initial
  accounts := DefaultWorkspaceManager.accounts_new
  write := nofun
  known := nofun
  running := nofun
  resting _ := rfl
  ended := nofun

theorem running_eq_some {w : ℕ} {startup : Startup} :
    s.running = some (w, startup) ↔
      s.lock.worker.acting? = some w ∧ s.startups w = some startup := by
  simp only [running, Option.bind_eq_some_iff, Option.map_eq_some_iff, Prod.mk.injEq]
  constructor
  · rintro ⟨w', hacting, startup', hstartup, rfl, rfl⟩
    exact ⟨hacting, hstartup⟩
  · rintro ⟨hacting, hstartup⟩
    exact ⟨w, hacting, startup, hstartup, rfl, rfl⟩

/-- **A step of the lock**, which ends a startup only where it is done. -/
theorem Inv.withLock (h : s.Inv) {e : LockEvent} {lock : DefaultWorkspaceLock}
    (hstep : s.lock.step e = some lock)
    (drops : ∀ w startup, s.startups w = some startup → s.lock.Drops w e →
      s.manager.promises startup.promise ≠ [])
    (ends : ∀ outcome, e = .endWrite outcome → s.running = none ∨ s.stage.past = true) :
    (s.withLock lock).Inv := by
  have ht := DefaultWorkspaceLock.transition_of_step hstep
  -- where the startup is: what it was, or at the beginning with nothing at hand
  have hstage : (s.withLock lock).stage = s.stage ∨
      (s.withLock lock).stage = .entering ∧ s.stage.pending = none := by
    simp only [ManagerState.withLock]
    split
    · rename_i hnone
      refine .inr ⟨rfl, ?_⟩
      cases hrunning : s.running with
      | none => rw [h.resting hrunning]; rfl
      | some r =>
        obtain ⟨w, startup⟩ := r
        obtain ⟨hacting, -⟩ := running_eq_some.mp hrunning
        rcases DefaultWorkspaceLock.acting_of_transition ht with ⟨outcome, he⟩ | hno | hsame
        · rcases ends outcome he with hno | hpast
          · rw [hrunning] at hno
            cases hno
          · exact StartupStage.pending_of_past hpast
        · rw [hacting] at hno
          cases hno
        · rw [hsame, hacting] at hnone
          cases hnone
    · exact .inl rfl
  refine ⟨h.lock.step hstep, ?_, fun w startup hw => ?_, h.known, fun w startup hw => ?_,
    fun hrest => ?_, fun w startup hw hover => ?_⟩
  · rcases hstage with heq | ⟨heq, hpending⟩
    · rw [heq]
      exact h.accounts
    · rw [heq]
      have haccounts := h.accounts
      rw [hpending] at haccounts
      exact haccounts
  · obtain ⟨call, hcall, hwrite⟩ := h.write w startup hw
    obtain ⟨call', hcall', hrequest⟩ := DefaultWorkspaceLock.write_of_transition ht hcall
    exact ⟨call', hcall', hrequest.trans hwrite⟩
  · obtain ⟨hacting, hstartup⟩ := running_eq_some.mp hw
    have hacting : lock.worker.acting? = some w := hacting
    have hstartup : s.startups w = some startup := hstartup
    have hsame : (s.withLock lock).stage = s.stage := by
      simp only [ManagerState.withLock, hacting, reduceCtorEq, if_false]
    rw [hsame]
    rcases DefaultWorkspaceLock.acting_of_transition ht with ⟨outcome, rfl⟩ | hno | hbefore
    · rw [DefaultWorkspaceLock.acting_of_endWrite ht] at hacting
      cases hacting
    · -- an action begins
      have hrest : s.stage = .entering := by
        apply h.resting
        simp only [ManagerState.running, hno, Option.bind_none]
      rw [hrest]
      exact ⟨h.known w startup hstartup, fun hne => absurd rfl hne, nofun⟩
    · exact h.running w startup (running_eq_some.mpr ⟨hbefore ▸ hacting, hstartup⟩)
  · simp only [ManagerState.withLock]
    split
    · rfl
    · rename_i hsome
      obtain ⟨w, hacting⟩ := Option.ne_none_iff_exists'.mp hsome
      refine h.resting ?_
      rcases DefaultWorkspaceLock.acting_of_transition ht with ⟨outcome, rfl⟩ | hno | hbefore
      · rw [DefaultWorkspaceLock.acting_of_endWrite ht] at hacting
        cases hacting
      · simp only [ManagerState.running, hno, Option.bind_none]
      · simp only [ManagerState.running, ← hbefore]
        exact hrest
  · have hw : s.startups w = some startup := hw
    obtain ⟨call, hcall, hwrite⟩ := h.write w startup hw
    rcases hover with hcompleted | hpassed
    · rcases DefaultWorkspaceLock.completed_of_transition h.lock.promised ht hcall hwrite hcompleted
        with hbefore | hdrops | hpassed
      · exact h.ended w startup hw (.inl hbefore)
      · exact drops w startup hw hdrops
      · exact h.ended w startup hw (.inr hpassed)
    · rcases DefaultWorkspaceLock.passed_of_transition ht hpassed
        with hbefore | hdrops | ⟨hacting, outcome, rfl⟩
      · exact h.ended w startup hw (.inr hbefore)
      · exact drops w startup hw hdrops
      · have hrunning := running_eq_some.mpr ⟨hacting, hw⟩
        rcases ends outcome rfl with hno | hpast
        · rw [hrunning] at hno
          cases hno
        · exact (h.running w startup hrunning).settled hpast

/-- A new write is called for a startup. -/
theorem Inv.call (h : s.Inv) {lock : DefaultWorkspaceLock} (startup : Startup)
    (hstep : s.lock.step (.call (.write true)) = some lock)
    (hknown : startup.promise ≤ s.manager.readyPromise) :
    ({ s with lock := lock, startups := update s.startups s.lock.calls.length (some startup) } :
      ManagerState).Inv := by
  have hlock : lock = { s.lock with calls := s.lock.calls ++ [⟨.write true, .called, []⟩] } := by
    cases DefaultWorkspaceLock.transition_of_step hstep
    rfl
  subst hlock
  -- the worker has no business with the call yet
  have hworker : ∀ w, s.lock.worker.write? = some w → w ≠ s.lock.calls.length := by
    rintro w hw rfl
    obtain ⟨call, hcall, -⟩ := h.lock.promised.waiting s.lock.calls.length (by
      rw [DefaultWorkspaceLock.waitingWrites, hw]
      exact List.mem_cons_self)
    rw [List.getElem?_eq_none (Nat.le_refl _)] at hcall
    cases hcall
  have hold : ∀ w call, s.lock.calls[w]? = some call →
      (s.lock.calls ++ [⟨.write true, .called, []⟩])[w]? = some call := fun w call hcall => by
    rwa [List.getElem?_append_left (List.getElem?_eq_some_iff.mp hcall).1]
  have hnew : (s.lock.calls ++ [(⟨.write true, .called, []⟩ : LockCall)])[s.lock.calls.length]?
      = some ⟨.write true, .called, []⟩ := List.getElem?_concat_length
  have hrunning : ∀ r, (ManagerState.running { s with
      lock := { s.lock with calls := s.lock.calls ++ [⟨.write true, .called, []⟩] }
      startups := update s.startups s.lock.calls.length (some startup) }) = r → s.running = r := by
    rintro r rfl
    cases hacting : s.lock.worker.acting? with
    | none => simp only [ManagerState.running, hacting, Option.bind_none]
    | some w =>
      have hne := hworker w (LockWorker.write?_of_acting hacting)
      simp only [ManagerState.running, hacting, Option.bind_some, Function.update_of_ne hne]
  refine ⟨h.lock.step hstep, h.accounts, fun w startup' hw => ?_, fun w startup' hw => ?_,
    fun w startup' hw => h.running w startup' (hrunning _ hw),
    fun hrest => h.resting (hrunning _ hrest),
    fun w startup' hw hover => ?_⟩
  · by_cases hne : w = s.lock.calls.length
    · subst hne
      exact ⟨_, hnew, rfl⟩
    · simp only [Function.update_of_ne hne] at hw
      obtain ⟨call, hcall, hwrite⟩ := h.write w startup' hw
      exact ⟨call, hold w call hcall, hwrite⟩
  · by_cases hne : w = s.lock.calls.length
    · subst hne
      simp only [Function.update_self, Option.some.injEq] at hw
      exact hw ▸ hknown
    · simp only [Function.update_of_ne hne] at hw
      exact h.known w startup' hw
  · by_cases hne : w = s.lock.calls.length
    · subst hne
      rcases hover with ⟨call, hcall, hfuture⟩ | hpassed
      · rw [hnew] at hcall
        cases hcall
        exact absurd rfl hfuture
      · exact absurd rfl (hworker _ (LockWorker.write?_of_passed hpassed))
    · simp only [Function.update_of_ne hne] at hw
      refine h.ended w startup' hw (hover.imp_left ?_)
      rintro ⟨call', hcall', hfuture⟩
      obtain ⟨call, hcall, -⟩ := h.write w startup' hw
      have hcall' : (s.lock.calls ++ [(⟨.write true, .called, []⟩ : LockCall)])[w]? = some call' :=
        hcall'
      rw [hold w call hcall] at hcall'
      cases hcall'
      exact ⟨call', hcall, hfuture⟩

/-- **A step of the manager, its lock and its startup.** -/
theorem Inv.step {event : ManagerEvent} (h : s.Inv) (hm : Meets s event)
    (hstep : (machine fs hasServices).step s event = some s') : s'.Inv := by
  cases event with
  | lock event =>
    simp only [machine, ManagerState.step] at hstep
    split at hstep
    · cases hstep
    · cases hstep
    · rename_i hnot _
      obtain ⟨lock, hlock, rfl⟩ := Option.map_eq_some_iff.mp hstep
      refine h.withLock hlock hm fun outcome he => .inl ?_
      cases hrunning : s.running with
      | none => rfl
      | some r => exact absurd hrunning (hnot outcome r he)
  | initializeManager folders =>
    cases hstep
    refine ⟨h.lock, h.accounts.initializeManager folders, h.write, fun w startup hw => ?_,
      fun w startup hw => (h.running w startup hw).initializeManager folders, h.resting,
      fun w startup hw hover =>
        DefaultWorkspaceManager.settled_initializeManager (h.ended w startup hw hover) folders⟩
    rw [DefaultWorkspaceManager.readyPromise_initializeManager]
    exact Nat.le_succ_of_le (h.known w startup hw)
  | initialized =>
    obtain ⟨lock, hlock, rfl⟩ := Option.map_eq_some_iff.mp hstep
    exact h.call _ hlock (Nat.le_refl _)
  | startup answer =>
    simp only [machine, ManagerState.step] at hstep
    split at hstep
    · rename_i r outcome hrunning hstage
      obtain ⟨lock, hlock, rfl⟩ := Option.map_eq_some_iff.mp hstep
      exact h.withLock hlock (fun _ _ _ hdrops => hdrops.elim) fun _ _ => .inr (by rw [hstage]; rfl)
    · rename_i w startup hrunning _
      obtain ⟨⟨manager, stage⟩, hwork, rfl⟩ := Option.map_eq_some_iff.mp hstep
      have hdoes := StartupStage.does_of_step hwork
      obtain ⟨haccounts, hsettles⟩ := (h.running w startup hrunning).does h.accounts hdoes
        fun hentering hcancelled => hm w startup hrunning hentering hcancelled
      refine ⟨h.lock, haccounts, h.write, fun w' startup' hw' => ?_, fun w' startup' hw' => ?_,
        fun hrest => ?_, fun w' startup' hw' hover => hdoes.settled (h.ended w' startup' hw' hover)⟩
      · rw [hdoes.readyPromise_eq]
        exact h.known w' startup' hw'
      · have heq : s.running = some (w', startup') := hw'
        rw [hrunning] at heq
        cases heq
        exact hsettles
      · have heq : s.running = none := hrest
        rw [hrunning] at heq
        cases heq
    · cases hstep

namespace Sample

/-- A file system, and a language that is responsible for no file. -/
def rootSystem : FileSystem := ⟨[slash], false, rfl⟩

def noServices : Uri → Bool := fun _ => false

/-- Nothing stops the lock or the startup. -/
def calm (s : ManagerState) : Bool :=
  !s.lock.stopping && !s.lock.stopRequested &&
    match s.running with
    | some (w, _) => !s.lock.cancelled w
    | none => true

theorem meets_of_calm (s : ManagerState) (event : ManagerEvent) (h : calm s = true) :
    Meets s event := by
  simp only [calm, Bool.and_eq_true, Bool.not_eq_true'] at h
  obtain ⟨⟨hstopping, hrequested⟩, hcancelled⟩ := h
  cases event with
  | lock event =>
    intro w startup _ hdrops
    cases event with
    | goOn i =>
      obtain ⟨-, hstops, -⟩ := hdrops
      rw [hstopping] at hstops
      cases hstops
    | work =>
      have hdrops : s.lock.worker = .took w ∧ (s.lock.stopping || s.lock.stopRequested) = true :=
        hdrops
      rw [hstopping, hrequested] at hdrops
      cases hdrops.2
    | _ => exact hdrops.elim
  | startup answer =>
    intro w startup hrunning _ hw
    simp only [hrunning, hw, Bool.not_true, Bool.false_eq_true] at hcancelled
  | _ => trivial

/-- `x:/a`, a folder of the workspace with a file and a directory in it. -/
def workspaceFolder : Uri := [120, 58, 47, 97]

def folderEntries : List FileSystemNode :=
  [{ isFile := true, uri := workspaceFolder ++ [47, 98] },
    { isDirectory := true, uri := workspaceFolder ++ [47, 99] }]

/-- The startup goes through the folder, in which the directory cannot be read. -/
def discovered : List ManagerEvent :=
  List.replicate 3 (.startup .goOn) ++ [.startup (.entries folderEntries)] ++
    List.replicate 2 (.startup .goOn) ++ [.startup (.threw (.exception []))] ++
    List.replicate 4 (.startup .goOn)

/-- A workspace is initialized, the lock takes the write, and its action loads the one file,
settles the promise and builds. -/
def started : List ManagerEvent :=
  [.initializeManager (some [workspaceFolder]), .initialized] ++
    List.replicate 5 (.lock (.goOn 0)) ++ List.replicate 3 (.lock .work) ++ discovered ++
    List.replicate 9 (.startup .goOn) ++ List.replicate 2 (.lock .work)

/-- Another write is called before the lock takes that of the startup. -/
def superseded : List ManagerEvent :=
  [.initializeManager (some []), .initialized] ++ List.replicate 5 (.lock (.goOn 0)) ++
    [.lock (.call (.write true))] ++ List.replicate 5 (.lock (.goOn 1)) ++
    List.replicate 3 (.lock .work) ++ List.replicate 3 (.startup .goOn) ++
    List.replicate 2 (.lock .work)

end Sample

/-- **Every ready promise is settled once**: no promise is settled twice; a startup whose write is
over leaves its promise settled; and no startup is open when the lock comes to rest.  So in
every run that meets the conditions, in any order of the steps. -/
theorem ready_settled_once (h : (machine fs hasServices).Reaches Meets initial s) :
    (∀ p, (s.manager.promises p).length ≤ 1) ∧
      (∀ w startup, s.startups w = some startup → s.lock.Completed w →
        (s.manager.promises startup.promise).length = 1) ∧
      (s.lock.Rests → ∀ w startup, s.startups w = some startup →
        (s.manager.promises startup.promise).length = 1) := by
  have inv : s.Inv := h.invariant inv_initial fun _ _ _ hs hm hstep => hs.step hm hstep
  have hcompleted : ∀ w startup, s.startups w = some startup → s.lock.Completed w →
      (s.manager.promises startup.promise).length = 1 := fun w startup hw hover => by
    have hpos := List.length_pos_of_ne_nil (inv.ended w startup hw (.inl hover))
    exact Nat.le_antisymm (inv.accounts.length_le _) hpos
  refine ⟨inv.accounts.length_le, hcompleted, fun hrest w startup hw => hcompleted w startup hw ?_⟩
  obtain ⟨call, hcall, hwrite⟩ := inv.write w startup hw
  obtain ⟨-, hlength⟩ := inv.lock.keepsPromises.atRest hrest w call hcall
  have hone := hlength (by rw [hwrite]; nofun)
  exact ⟨call, hcall, List.ne_nil_of_length_pos (by omega)⟩

open Sample in
/-- The startup of a workspace with a folder, of which a directory cannot be read. -/
theorem ready_settled_once_started :
    ∃ s, (machine rootSystem fun _ => true).run initial started = some s ∧
      s.manager.promises 1 = [.value] ∧ s.manager.observations.length = 1 ∧
      (s.manager.promises 1).length = 1 := by
  have hrun : ((machine rootSystem fun _ => true).run initial started).isSome = true := by
    decide +kernel
  obtain ⟨s, hs⟩ := Option.isSome_iff_exists.mp hrun
  have hallowed : (machine rootSystem fun _ => true).AllowedRun Meets initial started :=
    @Machine.allowedRun_of_tested _ _ _ _ _ (fun s _ => calm s) (fun _ => True) _ trivial
      (fun s event _ => meets_of_calm s event) (fun _ _ _ _ _ _ => trivial) (by decide +kernel)
  have hvalue : ((machine rootSystem fun _ => true).run initial started).map
      (fun s => (s.manager.promises 1, s.manager.observations.length)) = some ([.value], 1) := by
    decide +kernel
  have hstartup : ((machine rootSystem fun _ => true).run initial started).map (·.startups 0)
      = some (some ⟨[workspaceFolder], 1⟩) := by decide +kernel
  have hfuture : ((machine rootSystem fun _ => true).run initial started).map
      (fun s => (s.lock.calls[0]?).map (·.future)) = some (some [.value]) := by decide +kernel
  rw [hs] at hvalue hstartup hfuture
  obtain ⟨hpromise, hobservations⟩ := Prod.ext_iff.mp (Option.some.inj hvalue)
  obtain ⟨call, hcall, hvalues⟩ := Option.map_eq_some_iff.mp (Option.some.inj hfuture)
  refine ⟨s, hs, hpromise, hobservations,
    (ready_settled_once (Machine.reaches_of_run hs hallowed)).2.1 0 ⟨[workspaceFolder], 1⟩
      (Option.some.inj hstartup) ⟨call, hcall, ?_⟩⟩
  rw [hvalues]
  exact List.cons_ne_nil _ _

open Sample in
/-- **A startup that is cancelled before its action begins leaves its promise open.** -/
theorem ready_open_superseded : ¬ ∀ (events : List ManagerEvent) (s : ManagerState) (w : ℕ)
    (startup : Startup), (machine rootSystem noServices).run initial events = some s →
      s.startups w = some startup → s.lock.Completed w →
      (s.manager.promises startup.promise).length = 1 := by
  intro h
  have hrun : ((machine rootSystem noServices).run initial superseded).isSome = true := by
    decide +kernel
  obtain ⟨s, hs⟩ := Option.isSome_iff_exists.mp hrun
  have hopen : ((machine rootSystem noServices).run initial superseded).map (·.manager.promises 1)
      = some [] := by decide +kernel
  have hstartup : ((machine rootSystem noServices).run initial superseded).map (·.startups 0)
      = some (some ⟨[], 1⟩) := by decide +kernel
  have hfuture : ((machine rootSystem noServices).run initial superseded).map
      (fun s => (s.lock.calls[0]?).map (·.future)) = some (some [.value]) := by decide +kernel
  rw [hs] at hopen hstartup hfuture
  obtain ⟨call, hcall, hvalues⟩ := Option.map_eq_some_iff.mp (Option.some.inj hfuture)
  have hone := h superseded s 0 ⟨[], 1⟩ hs (Option.some.inj hstartup) ⟨call, hcall, by
    rw [hvalues]
    exact List.cons_ne_nil _ _⟩
  rw [show s.manager.promises 1 = [] from Option.some.inj hopen] at hone
  cases hone

end ManagerState

end Pegium
