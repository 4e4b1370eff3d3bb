/-
Pegium/General/Machine.lean

Machines driven by events.

An event is what the environment chooses: an input, a schedule, a failure.  The
machine says what an event does to a state, or that it is not possible there; so
a run is a list of events, and a statement about every run is one about every
state that events lead to.

`Reaches Allowed` restricts the events to those the environment is allowed in
the state at hand.  An invariant needs to be kept by the allowed events only
(`Reaches.invariant`).
-/
import Mathlib.Logic.Relation

universe u v

/-- What an event does to a state, when it is possible. -/
structure Machine (σ : Type u) (ε : Type v) where
  step : σ → ε → Option σ

namespace Machine

variable {σ : Type u} {ε : Type v} (M : Machine σ ε)

/-- The state after some events. -/
def run : σ → List ε → Option σ
  | s, [] => some s
  | s, e :: es => (M.step s e).bind fun s' => run s' es

/-- One allowed event. -/
def Step (Allowed : σ → ε → Prop) (s s' : σ) : Prop :=
  ∃ e, Allowed s e ∧ M.step s e = some s'

/-- Allowed events, one after the other. -/
def Reaches (Allowed : σ → ε → Prop) : σ → σ → Prop := Relation.ReflTransGen (M.Step Allowed)

/-- Each event of a run is allowed where it happens. -/
def AllowedRun (Allowed : σ → ε → Prop) : σ → List ε → Prop
  | _, [] => True
  | s, e :: es => Allowed s e ∧ ∀ s', M.step s e = some s' → AllowedRun Allowed s' es

variable {M} {Allowed : σ → ε → Prop} {s s' : σ}

/-- The invariant rule. -/
theorem Reaches.invariant {Inv : σ → Prop} (h : M.Reaches Allowed s s') (init : Inv s)
    (step : ∀ s e s', Inv s → Allowed s e → M.step s e = some s' → Inv s') : Inv s' := by
  induction h with
  | refl => exact init
  | tail _ hstep ih =>
    obtain ⟨e, hallowed, he⟩ := hstep
    exact step _ e _ ih hallowed he

theorem run_append (s : σ) (es es' : List ε) :
    M.run s (es ++ es') = (M.run s es).bind fun s' => M.run s' es' := by
  induction es generalizing s with
  | nil => rfl
  | cons e es ih =>
    rw [List.cons_append, run, run, Option.bind_assoc]
    exact congrArg _ (funext ih)

theorem reaches_of_run {es : List ε} (h : M.run s es = some s') (ha : M.AllowedRun Allowed s es) :
    M.Reaches Allowed s s' := by
  induction es generalizing s with
  | nil =>
    cases h
    exact .refl
  | cons e es ih =>
    obtain ⟨s₁, he, hrest⟩ := Option.bind_eq_some_iff.mp h
    exact .head ⟨e, ha.1, he⟩ (ih hrest (ha.2 s₁ he))

/-- **A property stays true along a run exactly when every event is allowed**, when one event
keeps it exactly when it is allowed. -/
theorem prefixes_iff_allowedRun {Inv P : σ → Prop}
    (step : ∀ s e s', Inv s → P s → M.step s e = some s' → Inv s' ∧ (P s' ↔ Allowed s e))
    {es : List ε} (hinv : Inv s) (hp : P s) (hrun : M.run s es = some s') :
    (∀ es₁ s₁, es₁ <+: es → M.run s es₁ = some s₁ → P s₁) ↔ M.AllowedRun Allowed s es := by
  induction es generalizing s with
  | nil =>
    refine iff_of_true (fun es₁ s₁ hes hs => ?_) trivial
    rw [List.prefix_nil.mp hes] at hs
    cases hs
    exact hp
  | cons e es ih =>
    obtain ⟨s₂, he, hrest⟩ := Option.bind_eq_some_iff.mp hrun
    obtain ⟨hinv₂, hiff⟩ := step s e s₂ hinv hp he
    constructor
    · intro h
      have hp₂ : P s₂ := by
        refine h [e] s₂ (by simp) ?_
        simp only [run, he, Option.bind_some]
      refine ⟨hiff.mp hp₂, fun s₃ hs₃ => ?_⟩
      rw [he] at hs₃
      cases hs₃
      refine (ih hinv₂ hp₂ hrest).mp fun es₁ s₁ hes hs => h (e :: es₁) s₁ ?_ ?_
      · exact (List.cons_prefix_cons).mpr ⟨rfl, hes⟩
      · simp only [run, he, Option.bind_some, hs]
    · rintro ⟨hallowed, hrun'⟩ es₁ s₁ hes hs
      rcases es₁ with _ | ⟨e₁, es₁⟩
      · cases hs
        exact hp
      · obtain ⟨rfl, hbegins⟩ := List.cons_prefix_cons.mp hes
        simp only [run, he, Option.bind_some] at hs
        exact (ih hinv₂ (hiff.mpr hallowed) hrest).mpr (hrun' s₂ he) es₁ s₁ hbegins hs

/-! ### Runs that end -/

variable (M Allowed) in
/-- No allowed event is possible any more. -/
def Final (s : σ) : Prop := ∀ s', ¬ M.Step Allowed s s'

variable (M Allowed) in
/-- No run of allowed events goes on for ever. -/
def Terminates (s : σ) : Prop := Acc (fun s' s => M.Step Allowed s s') s

theorem Terminates.exists_final (h : M.Terminates Allowed s) :
    ∃ s', M.Reaches Allowed s s' ∧ M.Final Allowed s' := by
  induction h with
  | intro s _ ih =>
    by_cases hfinal : M.Final Allowed s
    · exact ⟨s, .refl, hfinal⟩
    · obtain ⟨s₁, hstep⟩ := Classical.not_forall_not.mp hfinal
      obtain ⟨s', hreach, hend⟩ := ih s₁ hstep
      exact ⟨s', .head hstep hreach, hend⟩

/-- The termination rule: an invariant under which every allowed event lowers a measure. -/
theorem terminates_of_lowers {α : Type*} {r : α → α → Prop} (wf : WellFounded r) (measure : σ → α)
    {Inv : σ → Prop} (init : Inv s)
    (step : ∀ s e s', Inv s → Allowed s e → M.step s e = some s' →
      Inv s' ∧ r (measure s') (measure s)) : M.Terminates Allowed s := by
  -- the induction is on the measure
  generalize hm : measure s = m
  induction m using wf.induction generalizing s with
  | _ m ih =>
    refine Acc.intro s fun s' hs' => ?_
    obtain ⟨e, hallowed, he⟩ := hs'
    obtain ⟨hinv, hlower⟩ := step s e s' init hallowed he
    exact ih (measure s') (hm ▸ hlower) hinv rfl

/-! ### Allowed runs -/

/-- Without a restriction every run is allowed. -/
theorem allowedRun_any (s : σ) (es : List ε) : M.AllowedRun (fun _ _ => True) s es := by
  induction es generalizing s with
  | nil => trivial
  | cons e es ih => exact ⟨trivial, fun s' _ => ih s'⟩

/-- Events that an invariant allows, and that keep it, make an allowed run. -/
theorem allowedRun_of_invariant {es : List ε} {Inv : σ → Prop}
    (allowed : ∀ e ∈ es, ∀ s, Inv s → Allowed s e)
    (step : ∀ e ∈ es, ∀ s s', Inv s → M.step s e = some s' → Inv s') (h : Inv s) :
    M.AllowedRun Allowed s es := by
  induction es generalizing s with
  | nil => trivial
  | cons e es ih =>
    exact ⟨allowed e List.mem_cons_self s h,
      fun s' hs => ih (fun e' he' => allowed e' (List.mem_cons_of_mem _ he'))
        (fun e' he' => step e' (List.mem_cons_of_mem _ he'))
        (step e List.mem_cons_self s s' h hs)⟩

variable (M) in
/-- Whether a test holds for each event of a run where it happens. -/
def tested (test : σ → ε → Bool) : σ → List ε → Bool
  | _, [] => true
  | s, e :: es =>
    test s e &&
      match M.step s e with
      | some s' => tested test s' es
      | none => true

/-- A run is allowed that passes a test which, under an invariant, allows its events. -/
theorem allowedRun_of_tested {test : σ → ε → Bool} {Inv : σ → Prop} {es : List ε} (init : Inv s)
    (allowed : ∀ s e, Inv s → test s e = true → Allowed s e)
    (step : ∀ s e s', Inv s → test s e = true → M.step s e = some s' → Inv s')
    (h : M.tested test s es = true) : M.AllowedRun Allowed s es := by
  induction es generalizing s with
  | nil => trivial
  | cons e es ih =>
    rw [tested, Bool.and_eq_true] at h
    refine ⟨allowed s e init h.1, fun s' hs => ih (step s e s' init h.1 hs) ?_⟩
    have hrest := h.2
    rw [hs] at hrest
    exact hrest

/-- Whether a run is allowed can be found out by running it. -/
def decidableAllowedRun [∀ s e, Decidable (Allowed s e)] :
    (s : σ) → (es : List ε) → Decidable (M.AllowedRun Allowed s es)
  | _, [] => .isTrue trivial
  | s, e :: es =>
    match hs : M.step s e with
    | none =>
      decidable_of_iff (Allowed s e)
        ⟨fun h => ⟨h, fun _ hs' => nomatch hs.symm.trans hs'⟩, fun h => h.1⟩
    | some s' =>
      have : Decidable (M.AllowedRun Allowed s' es) := decidableAllowedRun s' es
      decidable_of_iff (Allowed s e ∧ M.AllowedRun Allowed s' es)
        ⟨fun h => ⟨h.1, fun _ hs' => Option.some.inj (hs.symm.trans hs') ▸ h.2⟩,
          fun h => ⟨h.1, h.2 s' hs⟩⟩

instance [∀ s e, Decidable (Allowed s e)] (s : σ) (es : List ε) :
    Decidable (M.AllowedRun Allowed s es) := decidableAllowedRun s es

end Machine
