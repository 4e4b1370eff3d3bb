/-
Pegium/General/Counting.lean

Sums over a list of which one entry changes.

A table of threads is a list, and a step changes one entry of it.  What is counted
over all threads then changes by what that entry contributes.
-/
import Mathlib.Algebra.GroupWithZero.Nat
import Mathlib.Algebra.Group.Nat.Defs
import Mathlib.Data.Int.Notation
import Mathlib.Data.Nat.Notation

universe u v

namespace List

variable {α : Type u} {f : α → ℕ} {l : List α} {i : ℕ} {a b : α}

/-- The sum is what one entry contributes, and the rest. -/
theorem exists_sum_map_set {M : Type v} [AddCommMonoid M] {f : α → M} (h : l[i]? = some a) :
    ∃ rest, (l.map f).sum = rest + f a ∧ ∀ b, ((l.set i b).map f).sum = rest + f b := by
  induction l generalizing i with
  | nil => cases h
  | cons head l ih =>
    cases i with
    | zero =>
      cases h
      exact ⟨(l.map f).sum, add_comm .., fun b => add_comm ..⟩
    | succ i =>
      obtain ⟨rest, hsum, hset⟩ := ih h
      refine ⟨f head + rest, ?_, fun b => ?_⟩
      · rw [map_cons, sum_cons, hsum, add_assoc]
      · rw [set_cons_succ, map_cons, sum_cons, hset b, add_assoc]

/-- A changed entry changes the sum by what it contributes. -/
theorem sum_map_set_add (h : l[i]? = some a) (b : α) :
    ((l.set i b).map f).sum + f a = (l.map f).sum + f b := by
  obtain ⟨rest, hsum, hset⟩ := exists_sum_map_set (f := f) h
  rw [hsum, hset b]
  omega

/-- An entry contributes no more than the sum. -/
theorem le_sum_map (h : a ∈ l) : f a ≤ (l.map f).sum := by
  induction l with
  | nil => cases h
  | cons head l ih =>
    simp only [map_cons, sum_cons]
    rcases mem_cons.mp h with rfl | h
    · omega
    · have := ih h
      omega

/-- Two entries at different places contribute no more than the sum. -/
theorem add_le_sum_map {j : ℕ} (hi : l[i]? = some a) (hj : l[j]? = some b) (hne : i ≠ j) :
    f a + f b ≤ (l.map f).sum := by
  induction l generalizing i j with
  | nil => cases hi
  | cons head l ih =>
    simp only [map_cons, sum_cons]
    rcases i with - | i <;> rcases j with - | j
    · exact absurd rfl hne
    · cases hi
      rw [getElem?_cons_succ] at hj
      have := le_sum_map (f := f) (mem_of_getElem? hj)
      omega
    · cases hj
      rw [getElem?_cons_succ] at hi
      have := le_sum_map (f := f) (mem_of_getElem? hi)
      omega
    · have := ih hi hj (fun heq => hne (congrArg _ heq))
      omega

/-- Entries that contribute no more. -/
theorem sum_map_le_sum_map {g : α → ℕ} (h : ∀ a, f a ≤ g a) : (l.map f).sum ≤ (l.map g).sum := by
  induction l with
  | nil => exact Nat.le_refl _
  | cons head l ih =>
    have := h head
    simp only [map_cons, sum_cons]
    omega

/-- A sum that is positive has an entry that contributes. -/
theorem exists_of_sum_map_pos (h : 0 < (l.map f).sum) :
    ∃ (i : ℕ) (a : α), l[i]? = some a ∧ 0 < f a := by
  induction l with
  | nil => cases h
  | cons head l ih =>
    by_cases hpos : 0 < f head
    · exact ⟨0, head, rfl, hpos⟩
    · simp only [map_cons, sum_cons] at h
      obtain ⟨i, a, hi, ha⟩ := ih (by omega)
      exact ⟨i + 1, a, hi, ha⟩

/-- Entries that are changed alike, and contribute as before. -/
theorem sum_map_map_eq {g : α → α} (h : ∀ a, f (g a) = f a) :
    ((l.map g).map f).sum = (l.map f).sum := by
  rw [map_map]
  exact congrArg (fun g => (l.map g).sum) (funext h)

end List
