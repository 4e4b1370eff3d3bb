/-
Pegium/Workspace/FactoryRuns.lean

Runs of the builder over texts that may fail.

A step of a call is one of eight things (`Moves`), and an event between calls one
of six (`Asks`); what is said about runs is said case by case.  A call lowers a
measure with each step, whatever the order in which its documents are worked on,
and it is never stuck; so it comes to its end, with or without an exception.
-/
import Mathlib.Algebra.GroupWithZero.Nat
import Mathlib.Algebra.Order.BigOperators.Group.List
import Mathlib.Algebra.Order.Group.Nat
import Mathlib.Data.Prod.Lex
import Pegium.Workspace.BookkeepingRuns
import Pegium.Workspace.FactoryFailures

namespace Pegium

open Function (update)

variable {τ δ : Type} {L : Language τ δ} {w w' : Workspace τ δ} {d : ℕ}

/-- Stored documents have a URI. -/
def Workspace.Registered (w : Workspace τ δ) : Prop :=
  ∀ d, (w.documents d).isSome → d < w.nextDocumentId

namespace FactoryState

/-! ### Runs of one call -/

/-- What a call does by itself: its work, and the documents it skips. -/
def OfCall (_ : FactoryState τ δ) : FactoryEvent τ → Prop
  | .builder (.work _) | .skip _ => True
  | _ => False

/-- What one step of a call does. -/
inductive Moves (L : Language τ δ) (s : FactoryState τ δ) : FactoryState τ δ → Prop
  | serial {call : Call} {begun : List ℕ} {w' : Workspace τ δ} {call' : Option Call}
      (h : s.activity = .running call begun) (does : call.Does L s.workspace w' call')
      (serial : ∀ phase documents jobs, call.stage ≠ .phase phase documents jobs)
      (created : ∀ d pending, call.stage = .changing (d :: pending) →
        s.workspace.creationFails s.failures d = false) :
      Moves L s { s with workspace := w', activity := .ofCall [] call' }
  | skipChanged {call : Call} {begun : List ℕ} {d : ℕ} {pending : List ℕ}
      (h : s.activity = .running call begun) (stage : call.stage = .changing (d :: pending))
      (fails : s.workspace.creationFails s.failures d = true) :
      Moves L s { s with activity := .running { call with stage := .changing pending } [] }
  | task {call : Call} {begun : List ℕ} {phase : Phase} {documents : List ℕ} {jobs : ℕ → List Task}
      {d : ℕ} {task : Task} {rest : List Task}
      (h : s.activity = .running call begun) (stage : call.stage = .phase phase documents jobs)
      (job : jobs d = task :: rest) (sound : task.throws (s.failures d) = false) :
      Moves L s { s with
        workspace := task.run L d s.workspace
        activity := .running { call with stage := .phase phase documents (update jobs d rest) }
          (d :: begun) }
  | endPhase {call : Call} {begun : List ℕ} {phase : Phase} {documents : List ℕ}
      {jobs : ℕ → List Task}
      (h : s.activity = .running call begun) (stage : call.stage = .phase phase documents jobs)
      (hover : Phase.Over documents jobs) :
      Moves L s { s with
        workspace := (call.endPhase s.workspace documents phase).1
        activity := .ofCall [] (call.endPhase s.workspace documents phase).2 }
  | throw {call : Call} {begun : List ℕ} {phase : Phase} {documents : List ℕ}
      {jobs : ℕ → List Task} {d : ℕ} {task : Task} {rest : List Task}
      (h : s.activity = .running call begun) (stage : call.stage = .phase phase documents jobs)
      (job : jobs d = task :: rest) (throws : task.throws (s.failures d) = true) :
      Moves L s { s with activity := .failing documents (update jobs d []) begun }
  | goOn {documents : List ℕ} {jobs : ℕ → List Task} {begun : List ℕ} {d : ℕ} {task : Task}
      {rest : List Task}
      (h : s.activity = .failing documents jobs begun) (job : jobs d = task :: rest)
      (sound : task.throws (s.failures d) = false) :
      Moves L s { s with
        workspace := task.run L d s.workspace
        activity := .failing documents (update jobs d rest) (d :: begun) }
  | drop {documents : List ℕ} {jobs : ℕ → List Task} {begun : List ℕ} {d : ℕ}
      (h : s.activity = .failing documents jobs begun) (job : jobs d ≠ []) :
      Moves L s { s with activity := .failing documents (update jobs d []) begun }
  | rethrow {documents : List ℕ} {jobs : ℕ → List Task} {begun : List ℕ}
      (h : s.activity = .failing documents jobs begun) (hover : Phase.Over documents jobs) :
      Moves L s { s with activity := .thrown }

variable {s s' : FactoryState τ δ}

theorem moves_of_next {call : Call} {begun : List ℕ} (h : s.activity = .running call begun)
    (hstep : s.runningStep L call begun .next = some s') : Moves L s s' := by
  simp only [runningStep, Call.skipChanged] at hstep
  by_cases hphase : ∃ phase documents jobs, call.stage = .phase phase documents jobs
  · obtain ⟨phase, documents, jobs, hstage⟩ := hphase
    simp only [hstage, Call.step] at hstep
    split at hstep
    next hover =>
      cases hstep
      exact .endPhase h hstage (Phase.over_iff.mp hover)
    next => cases hstep
  · have hserial : ∀ phase documents jobs, call.stage ≠ .phase phase documents jobs :=
      fun phase documents jobs hstage => hphase ⟨phase, documents, jobs, hstage⟩
    split at hstep
    next call' hskip =>
      split at hskip
      next d pending hstage =>
        split at hskip
        next hfails =>
          cases hskip
          cases hstep
          exact .skipChanged h hstage hfails
        next => cases hskip
      next => cases hskip
    next hskip =>
      obtain ⟨⟨w', call'⟩, hcall, rfl⟩ := Option.map_eq_some_iff.mp hstep
      refine .serial h (Call.does_of_step hcall) hserial fun d pending hstage => ?_
      simp only [hstage, ite_eq_right_iff, reduceCtorEq, imp_false] at hskip
      exact Bool.eq_false_iff.mpr hskip

theorem moves_of_task {call : Call} {begun : List ℕ} (h : s.activity = .running call begun)
    (hstep : s.runningStep L call begun (.task d) = some s') : Moves L s s' := by
  simp only [runningStep, Call.failAt] at hstep
  split at hstep
  next activity hfail =>
    split at hfail
    next phase documents jobs hstage =>
      split at hfail
      next task rest hjob =>
        split at hfail
        next hthrows =>
          cases hfail
          cases hstep
          exact .throw h hstage hjob hthrows
        next => cases hfail
      next => cases hfail
    next => cases hfail
  next hfail =>
    obtain ⟨⟨w', call'⟩, hcall, rfl⟩ := Option.map_eq_some_iff.mp hstep
    simp only [Call.step] at hcall
    split at hcall
    next phase documents jobs hstage =>
      simp only [hstage] at hfail
      split at hcall
      next task rest hjob =>
        cases hcall
        simp only [hjob, ite_eq_right_iff, reduceCtorEq, imp_false] at hfail
        exact .task h hstage hjob (Bool.eq_false_iff.mpr hfail)
      next => cases hcall
    next => cases hcall

theorem moves_of_failing {documents : List ℕ} {jobs : ℕ → List Task} {begun : List ℕ}
    {work : Call.Work} (h : s.activity = .failing documents jobs begun)
    (hstep : s.failingStep L documents jobs begun work = some s') : Moves L s s' := by
  cases work with
  | next =>
    simp only [failingStep] at hstep
    split at hstep
    next hover =>
      cases hstep
      exact .rethrow h (Phase.over_iff.mp hover)
    next => cases hstep
  | task d =>
    simp only [failingStep] at hstep
    split at hstep
    next task rest hjob =>
      split at hstep
      next =>
        cases hstep
        exact .drop h (hjob ▸ List.cons_ne_nil _ _)
      next hthrows =>
        cases hstep
        exact .goOn h hjob (Bool.eq_false_iff.mpr hthrows)
    next => cases hstep

/-- **What a step of a call does.** -/
theorem moves_of_step {event : FactoryEvent τ} (hcall : s.OfCall event)
    (hstep : (machine L).step s event = some s') : Moves L s s' := by
  cases event with
  | fails d failure => exact hcall.elim
  | skip d =>
    simp only [machine, step] at hstep
    split at hstep
    next documents jobs begun h =>
      split at hstep
      next hskip =>
        cases hstep
        exact .drop h hskip.1
      next => cases hstep
    next => cases hstep
  | builder event =>
    cases event with
    | work work =>
      simp only [machine, step] at hstep
      split at hstep
      next => cases hstep
      next => cases hstep
      next call begun h =>
        cases work with
        | next => exact moves_of_next h hstep
        | task d => exact moves_of_task h hstep
      next documents jobs begun h => exact moves_of_failing h hstep
    | _ => exact hcall.elim

/-! ### A call comes to its end -/

/-- The tasks left in a phase. -/
def tasksLeft (documents : List ℕ) (jobs : ℕ → List Task) : ℕ :=
  (documents.map fun d => (jobs d).length).sum

/-- What is left of a stage: how far away the end is, and what is pending in the stage. -/
def stageLeft : Stage → ℕ × ℕ
  | .starting => (9, 0)
  | .deleting pending => (8, pending.length)
  | .changing pending => (7, pending.length)
  | .relinking pending => (6, pending.length)
  | .selecting => (5, 0)
  | .phase .content documents jobs => (4, tasksLeft documents jobs)
  | .phase .references documents jobs => (3, tasksLeft documents jobs)
  | .phase .validation documents jobs => (2, tasksLeft documents jobs)

def activityLeft : Activity → ℕ × ℕ
  | .running call _ => stageLeft call.stage
  | .failing documents jobs _ => (1, tasksLeft documents jobs)
  | .returned | .thrown => (0, 0)

/-- Only the documents of a phase have tasks in it. -/
def Confined (documents : List ℕ) (jobs : ℕ → List Task) : Prop := ∀ d ∉ documents, jobs d = []

def ConfinedActivity : Activity → Prop
  | .running call _ =>
    ∀ phase documents jobs, call.stage = .phase phase documents jobs → Confined documents jobs
  | .failing documents jobs _ => Confined documents jobs
  | .returned | .thrown => True

theorem Confined.mem {documents : List ℕ} {jobs : ℕ → List Task} (h : Confined documents jobs)
    (hd : jobs d ≠ []) : d ∈ documents := by
  by_contra hno
  exact hd (h d hno)

theorem Confined.update {documents : List ℕ} {jobs : ℕ → List Task} (h : Confined documents jobs)
    (hd : jobs d ≠ []) (rest : List Task) : Confined documents (update jobs d rest) := by
  intro d' hd'
  have hne : d' ≠ d := fun e => hd' (e ▸ h.mem hd)
  rw [Function.update_of_ne hne]
  exact h d' hd'

theorem confined_jobs (phase : Phase) (documents : List ℕ) (w : Workspace τ δ) :
    Confined documents (phase.jobs documents w) := fun _ hd => if_neg hd

theorem tasksLeft_update {documents : List ℕ} {jobs : ℕ → List Task} {rest : List Task}
    (hd : d ∈ documents) (hrest : rest.length < (jobs d).length) :
    tasksLeft documents (update jobs d rest) < tasksLeft documents jobs := by
  refine List.sum_lt_sum _ _ (fun d' _ => ?_) ⟨d, hd, ?_⟩
  · by_cases hdd : d' = d
    · subst hdd
      rw [Function.update_self]
      exact hrest.le
    · rw [Function.update_of_ne hdd]
  · rw [Function.update_self]
    exact hrest

theorem confined_of_does {call : Call} {call' : Option Call} (h : call.Does L w w' call')
    (hserial : ∀ phase documents jobs, call.stage ≠ .phase phase documents jobs) :
    ConfinedActivity (.ofCall [] call') := by
  cases h with
  | task d task rest hstage _ => exact absurd hstage (hserial _ _ _)
  | endPhase phase hstage _ => exact absurd hstage (hserial _ _ _)
  | select documents _ _ =>
    rintro phase documents' jobs ⟨⟩
    exact confined_jobs _ _ _
  | start _ | delete _ _ _ | deleted _ | change _ _ _ | changed _ | relink _ _ _ | relinked _ =>
    rintro phase documents jobs ⟨⟩

theorem Moves.confined (h : Moves L s s') (hs : ConfinedActivity s.activity) :
    ConfinedActivity s'.activity := by
  cases h with
  | serial h does serial created => exact confined_of_does does serial
  | skipChanged h stage fails => rintro phase documents jobs ⟨⟩
  | task h stage job sound =>
    rw [h] at hs
    rintro phase documents jobs ⟨⟩
    exact (hs _ _ _ stage).update (job ▸ List.cons_ne_nil _ _) _
  | @endPhase call begun phase documents jobs h stage hover =>
    cases phase with
    | content | references =>
      rintro phase documents jobs ⟨⟩
      exact confined_jobs _ _ _
    | validation => trivial
  | throw h stage job throws =>
    rw [h] at hs
    exact (hs _ _ _ stage).update (job ▸ List.cons_ne_nil _ _) _
  | goOn h job sound =>
    rw [h] at hs
    exact Confined.update hs (job ▸ List.cons_ne_nil _ _) _
  | drop h job =>
    rw [h] at hs
    exact Confined.update hs job _
  | rethrow h hover => trivial

/-- The order in which calls come to their end. -/
abbrev Sooner : ℕ × ℕ → ℕ × ℕ → Prop := Prod.Lex (· < ·) (· < ·)

theorem sooner_of_does {call : Call} {call' : Option Call} (h : call.Does L w w' call')
    (hserial : ∀ phase documents jobs, call.stage ≠ .phase phase documents jobs) :
    Sooner (activityLeft (.ofCall [] call')) (stageLeft call.stage) := by
  cases h with
  | task d task rest hstage _ => exact absurd hstage (hserial _ _ _)
  | endPhase phase hstage _ => exact absurd hstage (hserial _ _ _)
  | start hstage | deleted hstage | changed hstage | relinked hstage =>
    rw [hstage]
    exact .left _ _ (by decide)
  | select documents hstage _ =>
    rw [hstage]
    exact .left _ _ (by decide)
  | delete d pending hstage | change d pending hstage | relink d pending hstage =>
    rw [hstage]
    exact .right _ (Nat.lt_succ_self _)

/-- A task less is left of the phase. -/
theorem sooner_task {documents : List ℕ} {jobs : ℕ → List Task} {task : Task} {rest : List Task}
    (phase : Phase) (h : Confined documents jobs) (hd : jobs d = task :: rest) :
    Sooner (stageLeft (.phase phase documents (update jobs d rest)))
      (stageLeft (.phase phase documents jobs)) := by
  have hless : tasksLeft documents (update jobs d rest) < tasksLeft documents jobs := by
    refine tasksLeft_update (h.mem (hd ▸ List.cons_ne_nil _ _)) ?_
    rw [hd]
    exact Nat.lt_succ_self _
  cases phase <;> exact .right _ hless

theorem Moves.sooner (h : Moves L s s') (hs : ConfinedActivity s.activity) :
    Sooner (activityLeft s'.activity) (activityLeft s.activity) := by
  cases h with
  | serial h does serial created =>
    rw [h]
    exact sooner_of_does does serial
  | skipChanged h stage fails =>
    rw [h, activityLeft, activityLeft, stage]
    exact .right _ (Nat.lt_succ_self _)
  | task h stage job sound =>
    rw [h] at hs ⊢
    rw [activityLeft, activityLeft, stage]
    exact sooner_task _ (hs _ _ _ stage) job
  | @endPhase call begun phase documents jobs h stage hover =>
    rw [h]
    show Sooner _ (stageLeft _)
    rw [stage]
    cases phase <;> exact .left _ _ (by decide)
  | @throw call begun phase documents jobs d task rest h stage job throws =>
    rw [h]
    show Sooner _ (stageLeft _)
    rw [stage]
    cases phase <;> exact .left _ _ (by decide)
  | goOn h job sound =>
    rw [h] at hs ⊢
    refine .right _ (tasksLeft_update (Confined.mem hs (job ▸ List.cons_ne_nil _ _)) ?_)
    rw [job]
    exact Nat.lt_succ_self _
  | drop h job =>
    rw [h] at hs ⊢
    exact .right _ (tasksLeft_update (Confined.mem hs job) (List.length_pos_iff.mpr job))
  | rethrow h hover =>
    rw [h]
    exact .left _ _ (by decide)

/-- **A call does not go on for ever**, in whatever order its documents are worked on. -/
theorem terminates (h : ConfinedActivity s.activity) : (machine L).Terminates OfCall s := by
  have wf : WellFounded Sooner := WellFounded.prod_lex Nat.lt_wfRel.wf Nat.lt_wfRel.wf
  refine @Machine.terminates_of_lowers _ _ _ _ _ _ _ wf (fun s => activityLeft s.activity)
    (fun s => ConfinedActivity s.activity) h fun s e s' hs hcall hstep => ?_
  have hmoves := moves_of_step hcall hstep
  exact ⟨hmoves.confined hs, hmoves.sooner hs⟩

/-- Nothing is going on. -/
def Idle (s : FactoryState τ δ) : Prop := s.activity = .returned ∨ s.activity = .thrown

/-- A phase is over, or a document of it has a task left. -/
theorem over_or_task (documents : List ℕ) (jobs : ℕ → List Task) :
    Phase.Over documents jobs ∨ ∃ d task rest, jobs d = task :: rest := by
  by_cases hover : Phase.Over documents jobs
  · exact .inl hover
  · obtain ⟨d, hd⟩ := Classical.not_forall.mp hover
    have hne : jobs d ≠ [] := fun e => hd fun _ => e
    obtain ⟨task, rest, hjob⟩ := List.exists_cons_of_ne_nil hne
    exact .inr ⟨d, task, rest, hjob⟩

/-- **A call is never stuck**: where it cannot go on, it is over. -/
theorem idle_of_final (h : (machine L).Final OfCall s) : s.Idle := by
  have hnone : ∀ work, (machine L).step s (.builder (.work work)) = none := by
    intro work
    by_contra hsome
    obtain ⟨s', hs'⟩ := Option.ne_none_iff_exists'.mp hsome
    exact h s' ⟨.builder (.work work), trivial, hs'⟩
  cases hactivity : s.activity with
  | returned => exact .inl hactivity
  | thrown => exact .inr hactivity
  | failing documents jobs begun =>
    exfalso
    rcases over_or_task documents jobs with hover | ⟨d, task, rest, hjob⟩
    · have hnext := hnone .next
      simp only [machine, step, hactivity, failingStep, if_pos (Phase.over_iff.mpr hover)] at hnext
      cases hnext
    · have htask := hnone (.task d)
      simp only [machine, step, hactivity, failingStep, hjob] at htask
      split at htask <;> cases htask
  | running call begun =>
    exfalso
    have hnext := hnone .next
    simp only [machine, step, hactivity, runningStep] at hnext
    split at hnext
    · cases hnext
    · rw [Option.map_eq_none_iff] at hnext
      simp only [Call.step] at hnext
      split at hnext
      case h_9 phase documents jobs hstage =>
        rcases over_or_task documents jobs with hover | ⟨d, task, rest, hjob⟩
        · rw [if_pos (Phase.over_iff.mpr hover)] at hnext
          cases hnext
        · have htask := hnone (.task d)
          simp only [machine, step, hactivity, runningStep, Call.failAt, hstage, hjob,
            Call.step] at htask
          split at htask <;> cases htask
      all_goals cases hnext

/-! ### Between calls -/

theorem Moves.registered (h : Moves L s s') (hw : s.workspace.Registered) :
    s'.workspace.Registered := by
  have run : ∀ {d : ℕ} {task : Task}, (task.run L d s.workspace).Registered := by
    intro d task d' hd'
    rw [task.run_sameElsewhere.nextDocumentId]
    rw [task.isSome_run_documents] at hd'
    exact hw d' hd'
  cases h with
  | serial h does serial created => exact BuilderState.registered_of_does hw does
  | task h stage job sound => exact run
  | goOn h job sound => exact run
  | @endPhase call begun phase documents jobs h stage hover => cases phase <;> exact hw
  | skipChanged h stage fails => exact hw
  | throw h stage job throws => exact hw
  | drop h job => exact hw
  | rethrow h hover => exact hw

/-- URIs and texts. -/
def IsText : BuilderEvent τ → Prop
  | .getOrCreateDocumentId | .setTextDocument _ _ | .writeFile _ _ => True
  | _ => False

/-- What is done between calls. -/
inductive Asks (L : Language τ δ) (s : FactoryState τ δ) : BuilderEvent τ → FactoryState τ δ → Prop
  | refused (d : ℕ) (fails : s.workspace.creationFails s.failures d = true) :
      Asks L s (.getOrCreateDocument d) s
  | created (d : ℕ) (sound : s.workspace.creationFails s.failures d = false) :
      Asks L s (.getOrCreateDocument d) { s with workspace := s.workspace.getOrCreateDocument L d }
  | update (changed deleted : List ℕ) (options : BuildOptions) :
      Asks L s (.update changed deleted options)
        { s with activity := .running (Call.update changed deleted options) [] }
  | build (documents : List ℕ) (options : BuildOptions)
      (stored : ∀ d ∈ documents, (s.workspace.documents d).isSome) :
      Asks L s (.build documents options) { s with
        workspace := s.workspace.reopen L documents options
        activity := .running (Call.build documents options
          (s.workspace.reopen L documents options)) [] }
  | resolve (d i : ℕ) :
      Asks L s (.resolve d i) { s with workspace := s.workspace.resolve L d i }
  | text {event : BuilderEvent τ} {w' : Workspace τ δ} (h : IsText event)
      (documents : w'.documents = s.workspace.documents)
      (states : w'.buildStateByDocumentId = s.workspace.buildStateByDocumentId)
      (ids : s.workspace.nextDocumentId ≤ w'.nextDocumentId) :
      Asks L s event { s with workspace := w' }

theorem asks_of_idleStep {event : BuilderEvent τ} (hstep : s.idleStep L event = some s') :
    Asks L s event s' := by
  cases event with
  | getOrCreateDocument d =>
    simp only [idleStep] at hstep
    split at hstep
    next hfails =>
      cases hstep
      exact .refused d hfails
    next hfails =>
      cases hstep
      exact .created d (Bool.eq_false_iff.mpr hfails)
  | update changed deleted options =>
    cases hstep
    exact .update changed deleted options
  | build documents options =>
    simp only [idleStep, BuilderState.idleStep] at hstep
    split at hstep
    next hall =>
      cases hstep
      exact .build documents options (List.all_eq_true.mp hall)
    next => cases hstep
  | resolve d i =>
    cases hstep
    exact .resolve d i
  | _ => cases hstep

/-- **What an event does between calls.** -/
theorem asks_of_step {event : BuilderEvent τ} (hidle : s.Idle)
    (hstep : (machine L).step s (.builder event) = some s') : Asks L s event s' := by
  cases event with
  | getOrCreateDocumentId =>
    cases hstep
    exact .text trivial rfl rfl (Nat.le_succ _)
  | setTextDocument d text | writeFile d text =>
    cases hstep
    exact .text trivial rfl rfl (Nat.le_refl _)
  | _ =>
    rcases hidle with hactivity | hactivity <;>
      exact asks_of_idleStep (by simpa only [machine, step, hactivity] using hstep)

theorem Asks.registered {event : BuilderEvent τ} (h : Asks L s event s')
    (hw : s.workspace.Registered) : s'.workspace.Registered := by
  cases h with
  | refused d fails => exact hw
  | created d sound => exact fun _ => BuilderState.registered_getOrCreateDocument hw
  | update changed deleted options => exact hw
  | build documents options stored =>
    intro d hd
    rw [Workspace.isSome_reopen] at hd
    exact Nat.lt_of_lt_of_eq (hw d hd) (BuilderState.nextDocumentId_reopen documents options).symm
  | resolve d i =>
    exact fun d' hd' => hw d' ((Workspace.isSome_update_map _ _ _ _).symm.trans hd')
  | text _ documents _ ids =>
    intro d hd
    rw [documents] at hd
    exact Nat.lt_of_lt_of_le (hw d hd) ids

/-- **Stored documents have a URI**, whatever fails. -/
theorem registered_step {event : FactoryEvent τ} (hw : s.workspace.Registered)
    (hstep : (machine L).step s event = some s') : s'.workspace.Registered := by
  by_cases hcall : s.OfCall event
  · exact (moves_of_step hcall hstep).registered hw
  cases event with
  | fails d failure =>
    cases hstep
    exact hw
  | skip d => exact absurd trivial hcall
  | builder event =>
    cases event with
    | getOrCreateDocumentId =>
      cases hstep
      exact fun d hd => Nat.lt_succ_of_lt (hw d hd)
    | setTextDocument d text | writeFile d text =>
      cases hstep
      exact hw
    | work work => exact absurd trivial hcall
    | stop =>
      simp only [machine, step] at hstep
      split at hstep
      · exact (asks_of_idleStep hstep).registered hw
      · exact (asks_of_idleStep hstep).registered hw
      · split at hstep
        · cases hstep
          exact hw
        · cases hstep
      · cases hstep
        exact hw
    | _ =>
      simp only [machine, step] at hstep
      split at hstep
      · exact (asks_of_idleStep hstep).registered hw
      · exact (asks_of_idleStep hstep).registered hw
      · cases hstep
      · cases hstep

theorem registered_of_reaches {files : ℕ → τ}
    {Allowed : FactoryState τ δ → FactoryEvent τ → Prop}
    (h : (machine L).Reaches Allowed (initial files) s) : s.workspace.Registered :=
  h.invariant (fun _ hd => nomatch hd) fun _ _ _ hw _ hstep => registered_step hw hstep

/-- A state in which a call begins. -/
theorem confined_of_asks {event : BuilderEvent τ} (hidle : s.Idle) (h : Asks L s event s') :
    ConfinedActivity s'.activity := by
  have hnone : ConfinedActivity s.activity := by
    rcases hidle with hactivity | hactivity <;>
      · rw [hactivity]
        trivial
  cases h with
  | update changed deleted options => rintro phase documents jobs ⟨⟩
  | build documents options stored =>
    rintro phase documents' jobs ⟨⟩
    exact confined_jobs _ _ _
  | refused _ _ | created _ _ | resolve _ _ | text _ _ _ _ => exact hnone

theorem confined_of_begins {request : Request} {s₀ : FactoryState τ δ} (hidle : s.Idle)
    (hbegins : (machine L).step s request.event = some s₀) : ConfinedActivity s₀.activity := by
  cases request <;> exact confined_of_asks hidle (asks_of_step hidle hbegins)

/-- A call begins when nothing is going on. -/
theorem idle_of_update {changed deleted : List ℕ} {options : BuildOptions}
    (h : (machine L).step s (.builder (.update changed deleted options)) = some s') : s.Idle := by
  cases hactivity : s.activity with
  | returned => exact .inl hactivity
  | thrown => exact .inr hactivity
  | running call begun =>
    simp only [machine, step, hactivity] at h
    cases h
  | failing documents jobs begun =>
    simp only [machine, step, hactivity] at h
    cases h

theorem idle_of_begins {request : Request} {s₀ : FactoryState τ δ}
    (h : (machine L).step s request.event = some s₀) : s.Idle := by
  cases request with
  | update changed deleted options => exact idle_of_update h
  | build documents options =>
    cases hactivity : s.activity with
    | returned => exact .inl hactivity
    | thrown => exact .inr hactivity
    | running call begun =>
      simp only [machine, step, Request.event, hactivity] at h
      cases h
    | failing documents jobs begun =>
      simp only [machine, step, Request.event, hactivity] at h
      cases h

end FactoryState

end Pegium
