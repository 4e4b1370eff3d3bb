/-
Pegium/General/Contest.lean

Keeping the best of a list, one challenger after the other.

A challenger takes the place of the one kept so far when it `beats` it.  Nothing
is asked of `beats`: it may hold both ways, and it need not be transitive.  The
one kept at the end, the `champion`, is then in general a matter of the order of
the list.  It is not exactly when somebody is beaten by nobody else
(`champion_perm_iff`).
-/
import Mathlib.Data.List.Basic
import Mathlib.Data.List.Perm.Basic

namespace Contest

variable {α : Type*} (beats : α → α → Prop) [DecidableRel beats]

/-- A challenger meets the one kept so far. -/
def keep : Option α → α → Option α
  | none, x => some x
  | some best, x => if beats x best then some x else some best

/-- The one kept at the end. -/
def champion (l : List α) : Option α := l.foldl (keep beats) none

variable {beats} {l : List α} {m x best : α}

@[simp] theorem keep_none : keep beats none x = some x := rfl

theorem keep_some :
    keep beats (some best) x = if beats x best then some x else some best := rfl

theorem keep_eq (h : x ≠ best → ¬ beats x best) : keep beats (some best) x = some best := by
  rw [keep_some]
  split_ifs with hx
  · by_cases heq : x = best
    · rw [heq]
    · exact absurd hx (h heq)
  · rfl

/-- Whoever is beaten by none of those to come stays. -/
theorem foldl_keep_eq (h : ∀ x ∈ l, x ≠ m → ¬ beats x m) :
    l.foldl (keep beats) (some m) = some m := by
  induction l with
  | nil => rfl
  | cons x l ih =>
    rw [List.foldl_cons, keep_eq (h x List.mem_cons_self)]
    exact ih fun y hy => h y (List.mem_cons_of_mem x hy)

/-- The one kept is the first one or one of those that came. -/
theorem foldl_keep_mem (l : List α) (best : α) :
    ∃ m, l.foldl (keep beats) (some best) = some m ∧ (m = best ∨ m ∈ l) := by
  induction l generalizing best with
  | nil => exact ⟨best, rfl, .inl rfl⟩
  | cons x l ih =>
    rw [List.foldl_cons, keep_some]
    split_ifs
    · obtain ⟨m, hm, h⟩ := ih x
      refine ⟨m, hm, .inr ?_⟩
      rcases h with rfl | h
      · exact List.mem_cons_self
      · exact List.mem_cons_of_mem _ h
    · obtain ⟨m, hm, h⟩ := ih best
      exact ⟨m, hm, h.imp_right (List.mem_cons_of_mem _)⟩

theorem exists_champion (h : l ≠ []) : ∃ m ∈ l, champion beats l = some m := by
  cases l with
  | nil => exact absurd rfl h
  | cons x l =>
    obtain ⟨m, hm, h⟩ := @foldl_keep_mem _ beats _ l x
    refine ⟨m, ?_, hm⟩
    rcases h with rfl | h
    · exact List.mem_cons_self
    · exact List.mem_cons_of_mem _ h

/-- Whoever beats all the others and is beaten by none is the champion. -/
theorem champion_eq (hm : m ∈ l) (wins : ∀ x ∈ l, x ≠ m → beats m x)
    (unbeaten : ∀ x ∈ l, x ≠ m → ¬ beats x m) : champion beats l = some m := by
  obtain ⟨l₁, l₂, rfl⟩ := List.append_of_mem hm
  have hmeet : keep beats (l₁.foldl (keep beats) none) m = some m := by
    cases l₁ with
    | nil => rfl
    | cons x l₁ =>
      obtain ⟨best, hbest, hmem⟩ := @foldl_keep_mem _ beats _ l₁ x
      have hbest_mem : best ∈ (x :: l₁) ++ m :: l₂ := by
        apply List.mem_append_left
        rcases hmem with rfl | h
        · exact List.mem_cons_self
        · exact List.mem_cons_of_mem _ h
      show keep beats (l₁.foldl (keep beats) (some x)) m = some m
      rw [hbest, keep_some]
      split_ifs with hlost
      · rfl
      · by_cases heq : best = m
        · rw [heq]
        · exact absurd (wins best hbest_mem heq) hlost
  rw [champion, List.foldl_append, List.foldl_cons, hmeet]
  exact foldl_keep_eq fun x hx =>
    unbeaten x (List.mem_append_right _ (List.mem_cons_of_mem m hx))

theorem exists_perm_cons (h : x ∈ l) : ∃ t, (x :: t).Perm l := by
  obtain ⟨l₁, l₂, rfl⟩ := List.append_of_mem h
  exact ⟨l₁ ++ l₂, List.perm_middle.symm⟩

/-- **When any two meet with a result, the champion is the same in every order exactly
when somebody is beaten by nobody else.** -/
theorem champion_perm_iff (hnodup : l.Nodup)
    (total : ∀ x ∈ l, ∀ y ∈ l, x ≠ y → beats x y ∨ beats y x) :
    (∀ l', l'.Perm l → champion beats l' = champion beats l) ↔
      l = [] ∨ ∃ m ∈ l, ∀ x ∈ l, x ≠ m → ¬ beats x m := by
  constructor
  · intro same
    by_cases hnil : l = []
    · exact .inl hnil
    · obtain ⟨m, hm, hchampion⟩ := @exists_champion _ beats _ _ hnil
      refine .inr ⟨m, hm, fun x hx hne hbeats => ?_⟩
      -- let `m` come first and `x` next: then `m` is out for good
      obtain ⟨l₁, hl₁⟩ := exists_perm_cons hm
      have hx₁ : x ∈ l₁ := (List.mem_cons.mp (hl₁.mem_iff.mpr hx)).resolve_left hne
      obtain ⟨l₂, hl₂⟩ := exists_perm_cons hx₁
      have hperm : (m :: x :: l₂).Perm l := (hl₂.cons m).trans hl₁
      have hout := same _ hperm
      have hkept : champion beats (m :: x :: l₂) = l₂.foldl (keep beats) (some x) := by
        show l₂.foldl (keep beats) (keep beats (some m) x) = _
        rw [keep_some, if_pos hbeats]
      obtain ⟨m', hm', hmem⟩ := @foldl_keep_mem _ beats _ l₂ x
      rw [hkept, hm', hchampion] at hout
      have hnot := (List.nodup_cons.mp (hperm.nodup_iff.mpr hnodup)).1
      apply hnot
      rw [← Option.some.inj hout]
      rcases hmem with rfl | h
      · exact List.mem_cons_self
      · exact List.mem_cons_of_mem _ h
  · rintro (rfl | ⟨m, hm, unbeaten⟩) l' hl'
    · rw [hl'.eq_nil]
    · have hchampion : ∀ l', l'.Perm l → champion beats l' = some m := by
        intro l' hl'
        apply champion_eq (hl'.mem_iff.mpr hm)
        · intro x hx hne
          exact (total x (hl'.mem_iff.mp hx) m hm hne).resolve_left
            (unbeaten x (hl'.mem_iff.mp hx) hne)
        · intro x hx
          exact unbeaten x (hl'.mem_iff.mp hx)
      rw [hchampion l' hl', hchampion l (.refl l)]

end Contest
