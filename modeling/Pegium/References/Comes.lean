/-
Pegium/References/Comes.lean

What a reference comes to.

A resolution that forces no reference whose resolution throws comes to one outcome,
whoever resolves the references it asks for, and when.  A reference that throws
itself comes to `ErrorException`.
-/
import Mathlib.Data.Fintype.Card
import Mathlib.Order.WellFounded
import Pegium.References.ResolverRole

namespace Pegium

variable {R V : Type}

/-- How a reference ends: its state, its target, and what its resolution throws. -/
structure ResolutionOutcome (V : Type) where
  state : ReferenceState
  target : Option V
  thrown : Option Thrown

namespace ResolutionOutcome

/-- What a caller reads. -/
def reading (o : ResolutionOutcome V) : Reading V :=
  ⟨o.target, if o.state.terminal then some o.state else none⟩

/-- A reference without a linker. -/
def unlinked : ResolutionOutcome V := ⟨.errorNoLinker, none, none⟩

end ResolutionOutcome

/-! ### Outcomes -/

section Comes

variable (linker : R → Option (Resolution R V))

/-- What a resolution comes to, when no reference it asks for throws. -/
inductive Resolution.Comes : Resolution R V → ResolutionOutcome V → Prop
  | link {target : V} : Comes (.link target) ⟨.resolved, some target, none⟩
  | refuse {kind : LinkingErrorKind} : Comes (.refuse kind) ⟨kind.state, none, none⟩
  | throw {thrown : Thrown} {left : Option V} :
    Comes (.throw thrown left) ⟨.errorException, none, some thrown⟩
  | askUnlinked {r : R} {k : Reading V → Resolution R V} {o : ResolutionOutcome V}
      (hr : linker r = none) (hk : Comes (k ResolutionOutcome.unlinked.reading) o) :
    Comes (.ask r k) o
  | ask {r : R} {k : Reading V → Resolution R V} {resolution : Resolution R V}
      {o o' : ResolutionOutcome V} (hr : linker r = some resolution) (ho' : Comes resolution o')
      (quiet : o'.thrown = none) (hk : Comes (k o'.reading) o) :
    Comes (.ask r k) o

/-- What a reference comes to. -/
def Settles (r : R) (o : ResolutionOutcome V) : Prop :=
  match linker r with
  | none => o = .unlinked
  | some resolution => resolution.Comes linker o

variable {linker}

theorem Resolution.Comes.det {resolution : Resolution R V} {o o' : ResolutionOutcome V}
    (h : resolution.Comes linker o) (h' : resolution.Comes linker o') : o = o' := by
  induction h generalizing o' with
  | link | refuse | throw => cases h'; rfl
  | askUnlinked hr _ ih =>
    cases h' with
    | askUnlinked _ hk' => exact ih hk'
    | ask hr' => exact absurd (hr.symm.trans hr') nofun
  | ask hr _ _ _ iho ih =>
    cases h' with
    | askUnlinked hr' => exact absurd (hr'.symm.trans hr) nofun
    | ask hr' ho' _ hk' =>
      cases hr.symm.trans hr'
      cases iho ho'
      exact ih hk'

theorem settles_of_none {r : R} {o : ResolutionOutcome V} (hr : linker r = none) :
    Settles linker r o ↔ o = .unlinked := by
  rw [Settles, hr]

theorem settles_of_some {r : R} {resolution : Resolution R V} {o : ResolutionOutcome V}
    (hr : linker r = some resolution) : Settles linker r o ↔ resolution.Comes linker o := by
  rw [Settles, hr]

theorem Settles.det {r : R} {o o' : ResolutionOutcome V} (h : Settles linker r o)
    (h' : Settles linker r o') : o = o' := by
  cases hr : linker r with
  | none => exact ((settles_of_none hr).mp h).trans ((settles_of_none hr).mp h').symm
  | some resolution => exact ((settles_of_some hr).mp h).det ((settles_of_some hr).mp h')

/-- The reference a resolution asks for comes to something it can read. -/
theorem Resolution.Comes.asked {r : R} {k : Reading V → Resolution R V} {o : ResolutionOutcome V}
    (h : Resolution.Comes linker (.ask r k) o) :
    ∃ o', Settles linker r o' ∧ o'.thrown = none ∧ (k o'.reading).Comes linker o := by
  unfold Settles
  cases h with
  | askUnlinked hr hk =>
    rw [hr]
    exact ⟨_, rfl, rfl, hk⟩
  | ask hr ho' quiet hk =>
    rw [hr]
    exact ⟨_, ho', quiet, hk⟩

theorem Resolution.Comes.of_asked {r : R} {k : Reading V → Resolution R V}
    {o o' : ResolutionOutcome V} (ho' : Settles linker r o') (quiet : o'.thrown = none)
    (hk : (k o'.reading).Comes linker o) : Resolution.Comes linker (.ask r k) o := by
  unfold Settles at ho'
  split at ho'
  case h_1 hr =>
    cases ho'
    exact .askUnlinked hr hk
  case h_2 hr => exact .ask hr ho' quiet hk

/-- Only a reference that is linked has a target. -/
theorem Resolution.Comes.target_eq_none {resolution : Resolution R V} {o : ResolutionOutcome V}
    (h : resolution.Comes linker o) (hne : o.state ≠ .resolved) : o.target = none := by
  induction h with
  | link => exact absurd rfl hne
  | refuse | throw => rfl
  | askUnlinked _ _ ih => exact ih hne
  | ask _ _ _ _ _ ih => exact ih hne

theorem Settles.target_eq_none {r : R} {o : ResolutionOutcome V} (h : Settles linker r o)
    (hne : o.state ≠ .resolved) : o.target = none := by
  unfold Settles at h
  split at h
  · cases h
    rfl
  · exact h.target_eq_none hne

end Comes

/-! ### References that come to something -/

/-- A resolution may throw, after some answers. -/
inductive Resolution.MayThrow : Resolution R V → Prop
  | here {thrown : Thrown} {left : Option V} : MayThrow (.throw thrown left)
  | there {r : R} {k : Reading V → Resolution R V} {reading : Reading V}
      (h : MayThrow (k reading)) : MayThrow (.ask r k)

namespace ResolutionState

variable (linker : R → Option (Resolution R V))

/-- The resolution of a reference may throw. -/
def Throws (r : R) : Prop := ∃ resolution, linker r = some resolution ∧ resolution.MayThrow

variable {linker}

theorem quiet_of_comes {resolution : Resolution R V} {o : ResolutionOutcome V}
    (h : resolution.Comes linker o) (hquiet : ¬ resolution.MayThrow) : o.thrown = none := by
  induction h with
  | link | refuse => rfl
  | throw => exact absurd .here hquiet
  | askUnlinked _ _ ih => exact ih fun h => hquiet (.there h)
  | ask _ _ _ _ _ ih => exact ih fun h => hquiet (.there h)

theorem quiet_of_settles {r : R} {o : ResolutionOutcome V} (h : Settles linker r o)
    (hquiet : ¬ Throws linker r) : o.thrown = none := by
  unfold Settles at h
  split at h
  case h_1 =>
    cases h
    rfl
  case h_2 resolution hr => exact quiet_of_comes h fun hthrow => hquiet ⟨resolution, hr, hthrow⟩

/-- A resolution comes to something, when what it asks for does. -/
theorem exists_comes (resolution : Resolution R V)
    (h : ∀ r, resolution.Asks r → ∃ o, Settles linker r o ∧ o.thrown = none) :
    ∃ o, resolution.Comes linker o := by
  induction resolution with
  | ask r k ih =>
    obtain ⟨o', ho', quiet⟩ := h r .here
    obtain ⟨o, ho⟩ := ih o'.reading fun r' hr' => h r' (.there hr')
    exact ⟨o, .of_asked ho' quiet ho⟩
  | link target => exact ⟨_, .link⟩
  | refuse kind => exact ⟨_, .refuse⟩
  | throw thrown left => exact ⟨_, .throw⟩

/-- Where no reference forces itself, forcing is well-founded. -/
theorem wellFounded_forces [Finite R] (acyclic : ∀ r, ¬ Forces linker r r) :
    WellFounded (Function.swap (Forces linker)) := by
  have : Std.Irrefl (Function.swap (Forces linker)) := ⟨acyclic⟩
  have : IsTrans R (Function.swap (Forces linker)) := ⟨fun _ _ _ hab hbc => hbc.trans hab⟩
  exact Finite.wellFounded_of_trans_of_irrefl _

/-- **Every reference that forces none that throws comes to something.** -/
theorem exists_settles [Finite R] (acyclic : ∀ r, ¬ Forces linker r r) (r : R)
    (quiet : ∀ r', Forces linker r r' → ¬ Throws linker r') : ∃ o, Settles linker r o := by
  induction r using (wellFounded_forces acyclic).induction with
  | _ r ih =>
    unfold Settles
    cases hr : linker r with
    | none => exact ⟨_, rfl⟩
    | some resolution =>
      apply exists_comes
      intro r' hasks
      have hforces : Forces linker r r' := .single ⟨resolution, hr, hasks⟩
      obtain ⟨o, ho⟩ := ih r' hforces fun r'' h => quiet r'' (hforces.trans h)
      exact ⟨o, ho, quiet_of_settles ho (quiet r' hforces)⟩

end ResolutionState

end Pegium
