/-
Pegium/General/Intervals.lean

Lists of intervals that follow one another.

An interval is half open, and a list of them is increasing when none is empty and
each one ends before the next begins.  Such a list grows at its end: by another
interval, or by moving the end of the last one on.
-/
import Mathlib.Data.List.Basic

/-- The numbers from `start` on, `stop` excluded. -/
structure HalfOpenInterval where
  start : ℕ
  stop : ℕ
  deriving DecidableEq

namespace HalfOpenInterval

def Contains (i : HalfOpenInterval) (p : ℕ) : Prop := i.start ≤ p ∧ p < i.stop

instance (i : HalfOpenInterval) (p : ℕ) : Decidable (i.Contains p) :=
  inferInstanceAs (Decidable (_ ∧ _))

/-- No number is in both. -/
def Apart (i j : HalfOpenInterval) : Prop := ∀ p, i.Contains p → ¬ j.Contains p

/-- Each interval ends before the next begins, and none is empty. -/
structure Increasing (intervals : List HalfOpenInterval) : Prop where
  proper : ∀ i ∈ intervals, i.start < i.stop
  ordered : intervals.Pairwise fun i j => i.stop ≤ j.start

variable {intervals intervals' : List HalfOpenInterval} {i j : HalfOpenInterval}

theorem apart_of_le (h : i.stop ≤ j.start) : i.Apart j :=
  fun _ hi hj => absurd (Nat.lt_of_lt_of_le hi.2 (Nat.le_trans h hj.1)) (Nat.lt_irrefl _)

theorem Apart.symm (h : i.Apart j) : j.Apart i := fun p hj hi => h p hi hj

/-- The end of an interval that lies behind is moved on. -/
theorem Apart.grow {k : HalfOpenInterval} (h : i.Apart j) (hstart : k.start = j.start)
    (hstop : i.stop ≤ j.stop) : i.Apart k := by
  intro p hi hk
  refine h p hi ⟨hstart ▸ hk.1, Nat.lt_of_lt_of_le hi.2 hstop⟩

namespace Increasing

theorem nil : Increasing [] := ⟨nofun, .nil⟩

/-- Two intervals of the list have no number in common. -/
theorem apart (h : Increasing intervals) : intervals.Pairwise Apart :=
  h.ordered.imp apart_of_le

theorem sublist (h : Increasing intervals) (hsub : intervals'.Sublist intervals) :
    Increasing intervals' :=
  ⟨fun i hi => h.proper i (hsub.subset hi), h.ordered.sublist hsub⟩

theorem concat (h : Increasing intervals) (hi : i.start < i.stop)
    (hbehind : ∀ j ∈ intervals, j.stop ≤ i.start) : Increasing (intervals ++ [i]) where
  proper j hj := by
    rcases List.mem_append.mp hj with hj | hj
    · exact h.proper j hj
    · rw [List.mem_singleton.mp hj]
      exact hi
  ordered := by
    refine List.pairwise_append.mpr ⟨h.ordered, List.pairwise_singleton _ _, ?_⟩
    intro j hj k hk
    rw [List.mem_singleton.mp hk]
    exact hbehind j hj

theorem growLast {stop : ℕ} (h : Increasing (intervals ++ [i])) (hstop : i.stop ≤ stop) :
    Increasing (intervals ++ [{ i with stop := stop }]) := by
  have hlast : i ∈ intervals ++ [i] := List.mem_append_right _ List.mem_cons_self
  refine (h.sublist (List.sublist_append_left _ _)).concat
    (Nat.lt_of_lt_of_le (h.proper i hlast) hstop) fun j hj => ?_
  exact (List.pairwise_append.mp h.ordered).2.2 j hj i List.mem_cons_self

end Increasing

end HalfOpenInterval
