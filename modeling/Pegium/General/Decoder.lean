/-
Pegium/General/Decoder.lean

Texts read in steps of different lengths and weights.

A decoder says how many elements the first step over a text takes and what it weighs.
A text can then be walked in two ways: to add up the weights of its steps (`weigh`), and
to go on until a given weight is used up (`reach`).  The places the walk stops at are
the boundaries of the text.  What a step does must not depend on what stands after it
(`Decoder.take_eq`), and then the two walks are inverse to each other on the boundaries
(`reach_weigh`, `boundary_reach`), and the weight grows strictly along them
(`weigh_lt`), even though the first walk is only shown the text before the boundary.
-/
import Mathlib.Data.List.Basic

universe u

structure Decoder (α : Type u) where
  /-- How long the first step is, and what it weighs. -/
  decode : List α → ℕ × ℕ
  advance_pos : ∀ b bs, 1 ≤ (decode (b :: bs)).1
  advance_le : ∀ b bs, (decode (b :: bs)).1 ≤ (b :: bs).length
  weight_pos : ∀ b bs, 1 ≤ (decode (b :: bs)).2
  take_eq : ∀ b bs k, (decode (b :: bs)).1 ≤ k → decode ((b :: bs).take k) = decode (b :: bs)

namespace Decoder

variable {α : Type u} (D : Decoder α)

theorem length_drop_lt (b : α) (bs : List α) :
    ((b :: bs).drop (D.decode (b :: bs)).1).length < (b :: bs).length := by
  have hpos := D.advance_pos b bs
  rw [List.length_drop]
  show bs.length + 1 - (D.decode (b :: bs)).1 < bs.length + 1
  omega

/-- The weight of a text. -/
def weigh : List α → ℕ
  | [] => 0
  | b :: bs => (D.decode (b :: bs)).2 + weigh ((b :: bs).drop (D.decode (b :: bs)).1)
  termination_by text => text.length
  decreasing_by exact D.length_drop_lt b bs

/-- How far the walk goes before a weight is used up. -/
def reach : List α → ℕ → ℕ
  | [], _ => 0
  | _ :: _, 0 => 0
  | b :: bs, n + 1 =>
    (D.decode (b :: bs)).1 +
      reach ((b :: bs).drop (D.decode (b :: bs)).1) (n + 1 - (D.decode (b :: bs)).2)
  termination_by text => text.length
  decreasing_by exact D.length_drop_lt b bs

/-- The places the walk stops at. -/
inductive Boundary : List α → ℕ → Prop
  | start (text : List α) : Boundary text 0
  | step {b : α} {bs : List α} {k : ℕ} :
    Boundary ((b :: bs).drop (D.decode (b :: bs)).1) k →
      Boundary (b :: bs) ((D.decode (b :: bs)).1 + k)

variable {D} {text : List α} {k k' : ℕ}

@[simp] theorem weigh_nil : D.weigh [] = 0 := by rw [weigh]

@[simp] theorem reach_zero (text : List α) : D.reach text 0 = 0 := by
  cases text with
  | nil => rw [reach]
  | cons b bs => rw [reach]

theorem weigh_cons (b : α) (bs : List α) :
    D.weigh (b :: bs)
      = (D.decode (b :: bs)).2 + D.weigh ((b :: bs).drop (D.decode (b :: bs)).1) := by
  rw [weigh]

theorem weigh_pos (h : text ≠ []) : 0 < D.weigh text := by
  cases text with
  | nil => exact absurd rfl h
  | cons b bs =>
    have hpos := D.weight_pos b bs
    rw [weigh_cons]
    omega

theorem reach_cons (b : α) (bs : List α) {n : ℕ} (h : 0 < n) :
    D.reach (b :: bs) n
      = (D.decode (b :: bs)).1 +
        D.reach ((b :: bs).drop (D.decode (b :: bs)).1) (n - (D.decode (b :: bs)).2) := by
  obtain ⟨m, rfl⟩ := Nat.exists_eq_succ_of_ne_zero (Nat.pos_iff_ne_zero.mp h)
  rw [reach]

theorem Boundary.le_length (h : D.Boundary text k) : k ≤ text.length := by
  induction h with
  | start text => exact Nat.zero_le _
  | @step b bs k _ ih =>
    have hle := D.advance_le b bs
    rw [List.length_drop] at ih
    omega

/-- The weight of the text before a boundary, a step first. -/
theorem weigh_take_step (b : α) (bs : List α) (k : ℕ) :
    D.weigh ((b :: bs).take ((D.decode (b :: bs)).1 + k))
      = (D.decode (b :: bs)).2 + D.weigh (((b :: bs).drop (D.decode (b :: bs)).1).take k) := by
  have hpos := D.advance_pos b bs
  have hdecode : D.decode ((b :: bs).take ((D.decode (b :: bs)).1 + k)) = D.decode (b :: bs) :=
    D.take_eq b bs _ (Nat.le_add_right _ _)
  obtain ⟨m, hm⟩ : ∃ m, (D.decode (b :: bs)).1 + k = m + 1 := ⟨_, (Nat.succ_pred (by omega)).symm⟩
  have hcons : (b :: bs).take ((D.decode (b :: bs)).1 + k) = b :: bs.take m := by
    rw [hm, List.take_succ_cons]
  rw [hcons] at hdecode
  rw [hcons, weigh_cons, hdecode, ← hcons, List.drop_take, Nat.add_sub_cancel_left]

/-- **The walk by weight comes back to a boundary.** -/
theorem reach_weigh (h : D.Boundary text k) : D.reach text (D.weigh (text.take k)) = k := by
  induction h with
  | start text => rw [List.take_zero, weigh_nil, reach_zero]
  | @step b bs k h ih =>
    have hpos := D.weight_pos b bs
    rw [weigh_take_step, reach_cons b bs (by omega), Nat.add_sub_cancel_left, ih]

/-- **The walk by weight stops at boundaries.** -/
theorem boundary_reach (text : List α) (n : ℕ) : D.Boundary text (D.reach text n) := by
  induction text using weigh.induct D generalizing n with
  | case1 =>
    rw [reach]
    exact .start _
  | case2 b bs ih =>
    cases n with
    | zero =>
      rw [reach_zero]
      exact .start _
    | succ n =>
      rw [reach_cons b bs n.succ_pos]
      exact .step (ih _)

/-- **The weight grows along the boundaries.** -/
theorem weigh_lt (h : D.Boundary text k) (h' : D.Boundary text k') (hlt : k < k') :
    D.weigh (text.take k) < D.weigh (text.take k') := by
  induction h generalizing k' with
  | start text =>
    cases h' with
    | start => exact absurd hlt (Nat.lt_irrefl _)
    | @step b bs k' h' =>
      have hpos := D.weight_pos b bs
      rw [List.take_zero, weigh_nil, weigh_take_step]
      omega
  | @step b bs k h ih =>
    cases h' with
    | start => exact absurd hlt (Nat.not_lt_zero _)
    | @step _ _ k' h' =>
      rw [weigh_take_step, weigh_take_step]
      have hstep := ih h' (by omega)
      omega

/-- The weight of a text is that of the two parts at a boundary. -/
theorem weigh_take_add (h : D.Boundary text k) (hle : k ≤ k') :
    D.weigh (text.take k') = D.weigh (text.take k) + D.weigh ((text.drop k).take (k' - k)) := by
  induction h generalizing k' with
  | start text => rw [List.take_zero, weigh_nil, List.drop_zero, Nat.sub_zero, Nat.zero_add]
  | @step b bs k _ ih =>
    obtain ⟨m, rfl⟩ := Nat.exists_eq_add_of_le (Nat.le_of_add_right_le hle)
    have hm : k ≤ m := by omega
    rw [weigh_take_step, weigh_take_step, ih hm, ← List.drop_drop, Nat.add_sub_add_left,
      Nat.add_assoc]

theorem boundary_length (text : List α) : D.Boundary text text.length := by
  induction text using weigh.induct D with
  | case1 => exact .start _
  | case2 b bs ih =>
    have hle := D.advance_le b bs
    have hstep := Boundary.step ih
    rw [List.length_drop, Nat.add_sub_cancel' hle] at hstep
    exact hstep

theorem reach_le (text : List α) (n : ℕ) : D.reach text n ≤ text.length :=
  (boundary_reach text n).le_length

/-- The walk goes on as long as there is weight. -/
theorem reach_mono (text : List α) {m n : ℕ} (h : m ≤ n) : D.reach text m ≤ D.reach text n := by
  induction text using weigh.induct D generalizing m n with
  | case1 => exact Nat.le_of_eq (by rw [reach, reach])
  | case2 b bs ih =>
    cases m with
    | zero =>
      rw [reach_zero]
      exact Nat.zero_le _
    | succ m =>
      rw [reach_cons b bs m.succ_pos, reach_cons b bs (Nat.lt_of_lt_of_le m.succ_pos h)]
      exact Nat.add_le_add_left (ih (Nat.sub_le_sub_right h _)) _

end Decoder
