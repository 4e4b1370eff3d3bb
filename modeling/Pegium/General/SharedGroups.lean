/-
Pegium/General/SharedGroups.lean

Members that are drawn in with the sets they belong to.

Some sets share members.  Each member has siblings: one of its sets, or itself when
no set has another member.  A search may start with the siblings of a member or with
any set the member is in; it takes the siblings of what it starts with, and the sets
that touch the start.  The result does not depend on the start, and is closed, exactly
if a set that meets what another one draws in lies in it, and shares a member with the
other set itself (`closed_iff_shared`).
-/
import Mathlib.Data.Set.Lattice

namespace SharedGroups

variable {δ ρ : Type*} (sets : ρ → Set δ) (siblings : δ → Set δ)

/-- What the members of a set draw in. -/
def expand (S : Set δ) : Set δ := ⋃ d ∈ S, siblings d

/-- The sets that meet a set. -/
def touching (S : Set δ) : Set ρ := {r | (sets r ∩ S).Nonempty}

/-- Siblings are one of the sets of the member, or it is alone. -/
def Grouped : Prop :=
  ∀ d, (∃ r, d ∈ sets r ∧ siblings d = sets r) ∨
    (siblings d = {d} ∧ ∀ r, d ∈ sets r → sets r = {d})

/-- What a search for a member may start with. -/
inductive Start (d : δ) : Set δ → Prop where
  | siblings : Start d (siblings d)
  | set {r : ρ} : d ∈ sets r → Start d (sets r)

/-- A set that meets what another one draws in. -/
def Shared : Prop :=
  ∀ r r', (sets r' ∩ expand siblings (sets r)).Nonempty →
    sets r' ⊆ expand siblings (sets r) ∧ (sets r ∩ sets r').Nonempty

/-- The result for a member: what is drawn in, and the sets that touch it. -/
def Closed (d : δ) : Prop :=
  ∃ N : Set δ, ∀ S, Start sets siblings d S →
    expand siblings S = N ∧ touching sets S = touching sets N

variable {sets siblings} {d : δ} {r r' : ρ} {S : Set δ}

theorem Grouped.mem_siblings (h : Grouped sets siblings) (d : δ) : d ∈ siblings d := by
  rcases h d with ⟨r, hd, heq⟩ | ⟨heq, -⟩
  · rw [heq]
    exact hd
  · rw [heq]
    exact Set.mem_singleton d

theorem Grouped.subset_expand (h : Grouped sets siblings) (S : Set δ) : S ⊆ expand siblings S :=
  fun d hd => Set.mem_biUnion hd (h.mem_siblings d)

theorem Grouped.mem_start (h : Grouped sets siblings) (hS : Start sets siblings d S) : d ∈ S := by
  cases hS with
  | siblings => exact h.mem_siblings d
  | set hd => exact hd

theorem expand_singleton (d : δ) : expand siblings {d} = siblings d :=
  Set.biUnion_singleton d siblings

/-- What a set draws in stays within a set that shares a member with it. -/
theorem Shared.expand_subset (hg : Grouped sets siblings) (h : Shared sets siblings)
    (hmeet : (sets r' ∩ expand siblings (sets r)).Nonempty) :
    expand siblings (sets r') ⊆ expand siblings (sets r) := by
  have hsub := (h r r' hmeet).1
  refine Set.iUnion₂_subset fun t ht => ?_
  rcases hg t with ⟨m, htm, heq⟩ | ⟨heq, -⟩
  · -- the siblings are a set that meets what `r` draws in
    rw [heq]
    exact (h r m ⟨t, htm, hsub ht⟩).1
  · rw [heq, Set.singleton_subset_iff]
    exact hsub ht

/-- Two sets with a common member draw in the same. -/
theorem Shared.expand_eq (hg : Grouped sets siblings) (h : Shared sets siblings)
    (hr : d ∈ sets r) (hr' : d ∈ sets r') :
    expand siblings (sets r) = expand siblings (sets r') :=
  (h.expand_subset hg ⟨d, hr, hg.subset_expand _ hr'⟩).antisymm
    (h.expand_subset hg ⟨d, hr', hg.subset_expand _ hr⟩)

/-- A set touches a set exactly if it touches what that set draws in. -/
theorem Shared.touching_expand (hg : Grouped sets siblings) (h : Shared sets siblings) (r : ρ) :
    touching sets (sets r) = touching sets (expand siblings (sets r)) := by
  ext r'
  constructor
  · rintro ⟨t, ht, hr⟩
    exact ⟨t, ht, hg.subset_expand _ hr⟩
  · intro hmeet
    obtain ⟨t, hr, hr'⟩ := (h r r' hmeet).2
    exact ⟨t, hr', hr⟩

theorem Shared.closed (hg : Grouped sets siblings) (h : Shared sets siblings) (d : δ) :
    Closed sets siblings d := by
  rcases hg d with ⟨m, hd, heq⟩ | ⟨heq, halone⟩
  · refine ⟨expand siblings (sets m), fun S hS => ?_⟩
    obtain ⟨r, hr, rfl⟩ : ∃ r, d ∈ sets r ∧ S = sets r := by
      cases hS with
      | siblings => exact ⟨m, hd, heq⟩
      | @set r hr => exact ⟨r, hr, rfl⟩
    rw [h.expand_eq hg hd hr]
    exact ⟨rfl, h.touching_expand hg r⟩
  · refine ⟨{d}, fun S hS => ?_⟩
    obtain rfl : S = {d} := by
      cases hS with
      | siblings => exact heq
      | set hr => exact halone _ hr
    rw [expand_singleton, heq]
    exact ⟨rfl, rfl⟩

/-- **The result is the same from every start, and closed,** exactly if a set that
meets what another one draws in lies in it and shares a member with the other. -/
theorem closed_iff_shared (hg : Grouped sets siblings) :
    (∀ d, Closed sets siblings d) ↔ Shared sets siblings := by
  refine ⟨fun hclosed r r' hmeet => ?_, fun h d => h.closed hg d⟩
  -- two starts of a member draw in the same, and are touched by the same sets
  have hsame : ∀ {u S S'}, Start sets siblings u S → Start sets siblings u S' →
      expand siblings S = expand siblings S' ∧
        touching sets S = touching sets (expand siblings S') := by
    intro u S S' hS hS'
    obtain ⟨N, hN⟩ := hclosed u
    rw [(hN S hS).1, (hN S' hS').1]
    exact ⟨rfl, (hN S hS).2⟩
  obtain ⟨t, hr', hdrawn⟩ := hmeet
  obtain ⟨u, hu, ht⟩ := Set.mem_iUnion₂.mp hdrawn
  constructor
  · -- `t` is a member of the siblings of `u`, which are a start of both
    have hexpand : expand siblings (sets r') = expand siblings (sets r) := by
      have hu' := (hsame (.set hu) .siblings).1
      rcases hg u with ⟨m, hum, heq⟩ | ⟨heq, -⟩
      · rw [heq] at ht hu'
        rw [hu']
        exact (hsame (.set hr') (.set ht)).1
      · rw [heq, Set.mem_singleton_iff] at ht
        subst ht
        exact (hsame (.set hr') (.set hu)).1
    rw [← hexpand]
    exact hg.subset_expand _
  · have htouch : r' ∈ touching sets (sets r) := by
      rw [(hsame (.set hu) (.set hu)).2]
      exact ⟨t, hr', hdrawn⟩
    obtain ⟨v, hv', hv⟩ := htouch
    exact ⟨v, hv, hv'⟩

end SharedGroups
