/-
Pegium/General/SingleEdit.lean

Two lists that differ by one edit.

`OneEdit` says it by cases: an element replaced by another one, an element more, an element
less, or two different neighbours exchanged.  In terms of scripts, the lists differ and a
script with one operation other than keeping turns the one into the other
(`oneEdit_iff_edits`).

In linear time it is decided by what is left when the common prefix is dropped, and then the
common suffix: at most two elements of each list (`oneEdit_iff_trim`).
-/
import Mathlib.Data.List.Forall2
import Pegium.General.EditScript

universe u

variable {α : Type u} {xs ys : List α}

inductive OneEdit : List α → List α → Prop
  | substitute {u x y v} : x ≠ y → OneEdit (u ++ x :: v) (u ++ y :: v)
  | insert {u x v} : OneEdit (u ++ x :: v) (u ++ v)
  | delete {u y v} : OneEdit (u ++ v) (u ++ y :: v)
  | transpose {u x y v} : x ≠ y → OneEdit (u ++ x :: y :: v) (u ++ y :: x :: v)

namespace OneEdit

theorem length (h : OneEdit xs ys) :
    ys.length = xs.length ∨ ys.length + 1 = xs.length ∨ ys.length = xs.length + 1 := by
  cases h with
  | substitute | transpose => exact .inl (by simp)
  | insert => exact .inr (.inl (by simp [Nat.add_assoc]))
  | delete => exact .inr (.inr (by simp [Nat.add_assoc]))

theorem ne (h : OneEdit xs ys) : xs ≠ ys := by
  intro heq
  cases h with
  | substitute hne => exact hne (List.cons.inj (List.append_cancel_left heq)).1
  | insert | delete => simpa using congrArg List.length heq
  | transpose hne => exact hne (List.cons.inj (List.append_cancel_left heq)).1

end OneEdit

/-- Away from the edit, an element of the one stands next to its place in the other. -/
theorem OneEdit.anchor (h : OneEdit xs ys) (hxs : 2 ≤ xs.length) (hys : 1 ≤ ys.length) :
    ∃ i ≤ 1, ∃ j ≤ 1, ∃ a, xs[i]? = some a ∧ ys[j]? = some a := by
  -- an element before the edit stands at the same place
  have hbefore : ∀ (a : α) (u v w : List α), ∃ i ≤ 1, ∃ j ≤ 1, ∃ b,
      (a :: u ++ v)[i]? = some b ∧ (a :: u ++ w)[j]? = some b :=
    fun a u v w => ⟨0, Nat.zero_le 1, 0, Nat.zero_le 1, a, rfl, rfl⟩
  cases h with
  | @substitute u x y v =>
    rcases u with _ | ⟨a, u⟩
    · rcases v with _ | ⟨z, v⟩
      · exact absurd hxs (by simp)
      · exact ⟨1, Nat.le_refl 1, 1, Nat.le_refl 1, z, rfl, rfl⟩
    · exact hbefore a u _ _
  | @insert u x v =>
    rcases u with _ | ⟨a, u⟩
    · rcases v with _ | ⟨z, v⟩
      · exact absurd hys (by simp)
      · exact ⟨1, Nat.le_refl 1, 0, Nat.zero_le 1, z, rfl, rfl⟩
    · exact hbefore a u _ _
  | @delete u y v =>
    rcases u with _ | ⟨a, u⟩
    · rcases v with _ | ⟨z, v⟩
      · exact absurd hxs (by simp)
      · exact ⟨0, Nat.zero_le 1, 1, Nat.le_refl 1, z, rfl, rfl⟩
    · exact hbefore a u _ _
  | @transpose u x y v =>
    rcases u with _ | ⟨a, u⟩
    · exact ⟨0, Nat.zero_le 1, 1, Nat.le_refl 1, x, rfl, rfl⟩
    · exact hbefore a u _ _

/-! ### One edit as a script -/

namespace Edits

variable {β γ : Type u} {s : List EditOp}

/-- Scripts see the elements only through what is compared. -/
theorem map_iff {f : α → γ} {g : β → γ} {xs : List α} {ys : List β} :
    Edits (fun x y => f x = g y) xs ys s ↔ Edits Eq (xs.map f) (ys.map g) s := by
  constructor
  · intro h
    induction h with
    | nil => exact .nil
    | keep hxy _ ih => exact .keep hxy ih
    | substitute _ ih => exact .substitute ih
    | insert _ ih => exact .insert ih
    | delete _ ih => exact .delete ih
    | transpose hxy hyx _ ih => exact .transpose hxy hyx ih
  · intro h
    generalize hxs : xs.map f = xs' at h
    generalize hys : ys.map g = ys' at h
    induction h generalizing xs ys with
    | nil =>
      rw [List.map_eq_nil_iff.mp hxs, List.map_eq_nil_iff.mp hys]
      exact .nil
    | keep hxy _ ih =>
      obtain ⟨x, xs, rfl, rfl, rfl⟩ := List.map_eq_cons_iff.mp hxs
      obtain ⟨y, ys, rfl, rfl, rfl⟩ := List.map_eq_cons_iff.mp hys
      exact .keep hxy (ih rfl rfl)
    | substitute _ ih =>
      obtain ⟨x, xs, rfl, rfl, rfl⟩ := List.map_eq_cons_iff.mp hxs
      obtain ⟨y, ys, rfl, rfl, rfl⟩ := List.map_eq_cons_iff.mp hys
      exact .substitute (ih rfl rfl)
    | insert _ ih =>
      obtain ⟨x, xs, rfl, rfl, rfl⟩ := List.map_eq_cons_iff.mp hxs
      exact .insert (ih rfl hys)
    | delete _ ih =>
      obtain ⟨y, ys, rfl, rfl, rfl⟩ := List.map_eq_cons_iff.mp hys
      exact .delete (ih hxs rfl)
    | transpose hxy hyx _ ih =>
      obtain ⟨x, xs₁, rfl, rfl, hxs₁⟩ := List.map_eq_cons_iff.mp hxs
      obtain ⟨x', xs, rfl, rfl, rfl⟩ := List.map_eq_cons_iff.mp hxs₁
      obtain ⟨y, ys₁, rfl, rfl, hys₁⟩ := List.map_eq_cons_iff.mp hys
      obtain ⟨y', ys, rfl, rfl, rfl⟩ := List.map_eq_cons_iff.mp hys₁
      exact .transpose hxy hyx (ih rfl rfl)

theorem keep_all (xs : List α) : Edits Eq xs xs (List.replicate xs.length .keep) := by
  induction xs with
  | nil => exact .nil
  | cons x xs ih => exact .keep rfl ih

theorem eq_of_keep (h : Edits Eq xs ys s) (hs : s.countP (· ≠ .keep) = 0) : xs = ys := by
  induction h with
  | nil => rfl
  | keep hxy _ ih =>
    rw [hxy, ih (by simpa using hs)]
  | substitute | insert | delete | transpose => simp at hs

end Edits

/-- **One edit is one operation that is not keeping**, between lists that differ. -/
theorem oneEdit_iff_edits :
    OneEdit xs ys ↔ xs ≠ ys ∧ ∃ s, Edits Eq xs ys s ∧ s.countP (· ≠ .keep) = 1 := by
  have hcount : ∀ (n m : ℕ) {op : EditOp}, op ≠ .keep →
      (List.replicate n EditOp.keep ++ ([op] ++ List.replicate m EditOp.keep)).countP
        (· ≠ .keep) = 1 := by
    intro n m op hop
    simp [List.countP_append, List.countP_replicate, hop]
  constructor
  · intro h
    refine ⟨h.ne, ?_⟩
    cases h with
    | @substitute u x y v hne =>
      have hedit : Edits Eq [x] [y] [.substitute] := .substitute .nil
      exact ⟨_, (Edits.keep_all u).append (hedit.append (Edits.keep_all v)),
        hcount _ _ (by decide)⟩
    | @insert u x v =>
      have hedit : Edits Eq [x] [] [.insert] := .insert .nil
      exact ⟨_, (Edits.keep_all u).append (hedit.append (Edits.keep_all v)),
        hcount _ _ (by decide)⟩
    | @delete u y v =>
      have hedit : Edits Eq [] [y] [.delete] := .delete .nil
      exact ⟨_, (Edits.keep_all u).append (hedit.append (Edits.keep_all v)),
        hcount _ _ (by decide)⟩
    | @transpose u x y v hne =>
      have hedit : Edits Eq [x, y] [y, x] [.transpose] := .transpose rfl rfl .nil
      exact ⟨_, (Edits.keep_all u).append (hedit.append (Edits.keep_all v)),
        hcount _ _ (by decide)⟩
  · rintro ⟨hne, s, h, hs⟩
    induction h with
    | nil => simp at hs
    | @keep x y xs ys s hxy h ih =>
      subst hxy
      have htail := ih (fun heq => hne (heq ▸ rfl)) (by simpa using hs)
      cases htail with
      | substitute hne' => exact .substitute (u := x :: _) hne'
      | insert => exact .insert (u := x :: _)
      | delete => exact .delete (u := x :: _)
      | transpose hne' => exact .transpose (u := x :: _) hne'
    | @substitute x y xs ys s h =>
      obtain rfl := h.eq_of_keep (by simpa using hs)
      exact .substitute (u := []) fun heq => hne (heq ▸ rfl)
    | insert h =>
      obtain rfl := h.eq_of_keep (by simpa using hs)
      exact .insert (u := [])
    | delete h =>
      obtain rfl := h.eq_of_keep (by simpa using hs)
      exact .delete (u := [])
    | @transpose x x' y y' xs ys s hxy hyx h =>
      subst hxy hyx
      obtain rfl := h.eq_of_keep (by simpa using hs)
      exact .transpose (u := []) fun heq => hne (heq ▸ rfl)

theorem OneEdit.map_iff {γ : Type u} {f : α → γ} (hf : Function.Injective f) :
    OneEdit (xs.map f) (ys.map f) ↔ OneEdit xs ys := by
  rw [oneEdit_iff_edits, oneEdit_iff_edits, (List.map_injective_iff.mpr hf).ne_iff]
  simp only [← Edits.map_iff, hf.eq_iff]

/-! ### One edit in linear time -/

section Trim

variable [DecidableEq α]

/-- The length of the longest common prefix. -/
def lcp : List α → List α → ℕ
  | x :: xs, y :: ys => if x = y then lcp xs ys + 1 else 0
  | _, _ => 0

theorem lcp_append (u xs ys : List α) : lcp (u ++ xs) (u ++ ys) = u.length + lcp xs ys := by
  induction u with
  | nil => simp
  | cons x u ih =>
    rw [List.cons_append, List.cons_append, lcp, if_pos rfl, ih, List.length_cons]
    omega

theorem lcp_cons_of_ne {x y : α} (h : x ≠ y) : lcp (x :: xs) (y :: ys) = 0 := by
  rw [lcp, if_neg h]

theorem lcp_nil_right : lcp xs [] = 0 := by
  cases xs <;> rfl

theorem lcp_le (xs ys : List α) : lcp xs ys ≤ xs.length ∧ lcp xs ys ≤ ys.length := by
  induction xs generalizing ys with
  | nil => exact ⟨Nat.zero_le _, Nat.zero_le _⟩
  | cons x xs ih =>
    rcases ys with _ | ⟨y, ys⟩
    · exact ⟨Nat.zero_le _, Nat.zero_le _⟩
    · rw [lcp]
      split
      · exact ⟨Nat.succ_le_succ (ih ys).1, Nat.succ_le_succ (ih ys).2⟩
      · exact ⟨Nat.zero_le _, Nat.zero_le _⟩

/-- Behind the longest common prefix the lists differ. -/
theorem exists_lcp (xs ys : List α) : ∃ u a b, xs = u ++ a ∧ ys = u ++ b ∧
    u.length = lcp xs ys ∧ ∀ x ∈ a.head?, ∀ y ∈ b.head?, x ≠ y := by
  induction xs generalizing ys with
  | nil => exact ⟨[], [], ys, rfl, rfl, rfl, by simp⟩
  | cons x xs ih =>
    rcases ys with _ | ⟨y, ys⟩
    · exact ⟨[], x :: xs, [], rfl, rfl, rfl, by simp⟩
    · by_cases hxy : x = y
      · subst hxy
        obtain ⟨u, a, b, hxs, hys, hu, hne⟩ := ih ys
        refine ⟨x :: u, a, b, by rw [hxs, List.cons_append], by rw [hys, List.cons_append], ?_, hne⟩
        rw [lcp, if_pos rfl, List.length_cons, hu]
      · exact ⟨[], x :: xs, y :: ys, rfl, rfl, (lcp_cons_of_ne hxy).symm, by simpa using hxy⟩

/-- What is left of two lists without the common prefix, and then without the common suffix. -/
def trim (xs ys : List α) : ℕ × ℕ :=
  let p := lcp xs ys
  let s := lcp (xs.drop p).reverse (ys.drop p).reverse
  (xs.length - p - s, ys.length - p - s)

theorem trim_append {u a b : List α} (h : ∀ x ∈ a.head?, ∀ y ∈ b.head?, x ≠ y) :
    lcp (u ++ a) (u ++ b) = u.length ∧
      trim (u ++ a) (u ++ b) = (a.length - lcp a.reverse b.reverse,
        b.length - lcp a.reverse b.reverse) := by
  have hlcp : lcp (u ++ a) (u ++ b) = u.length := by
    rw [lcp_append]
    rcases a with _ | ⟨x, a⟩
    · rfl
    · rcases b with _ | ⟨y, b⟩
      · rfl
      · rw [lcp_cons_of_ne (h x rfl y rfl), Nat.add_zero]
  refine ⟨hlcp, ?_⟩
  simp only [trim, hlcp, List.drop_left, List.length_append, Nat.add_sub_cancel_left]

/-- The two lists around what is left. -/
theorem trim_spec (xs ys : List α) : ∃ u m m' v, xs = u ++ (m ++ v) ∧ ys = u ++ (m' ++ v) ∧
    u.length = lcp xs ys ∧ (m.length, m'.length) = trim xs ys ∧
    ∀ x ∈ (m ++ v).head?, ∀ y ∈ (m' ++ v).head?, x ≠ y := by
  obtain ⟨u, a, b, hxs, hys, hu, hne⟩ := exists_lcp xs ys
  obtain ⟨v, m, m', ha, hb, hv, -⟩ := exists_lcp a.reverse b.reverse
  have htrim := (trim_append (u := u) hne).2
  rw [← hxs, ← hys, ← hv] at htrim
  rw [List.reverse_eq_iff, List.reverse_append] at ha hb
  subst ha hb
  refine ⟨u, m.reverse, m'.reverse, v.reverse, hxs, hys, hu, ?_, hne⟩
  rw [htrim]
  simp

theorem lcp_comm (xs ys : List α) : lcp xs ys = lcp ys xs := by
  induction xs generalizing ys with
  | nil => rw [lcp_nil_right, lcp]; simp
  | cons x xs ih =>
    rcases ys with _ | ⟨y, ys⟩
    · rfl
    · simp only [lcp, ih, eq_comm]

theorem trim_comm (xs ys : List α) : trim ys xs = (trim xs ys).swap := by
  rw [trim, trim, lcp_comm ys xs, lcp_comm (ys.drop _).reverse]
  rfl

theorem trim_substitute {u v : List α} {x y : α} (h : x ≠ y) :
    trim (u ++ x :: v) (u ++ y :: v) = (1, 1) := by
  rw [(trim_append (by simpa using h)).2, List.reverse_cons, List.reverse_cons, lcp_append,
    lcp_cons_of_ne h]
  simp

theorem trim_transpose {u v : List α} {x y : α} (h : x ≠ y) :
    lcp (u ++ x :: y :: v) (u ++ y :: x :: v) = u.length ∧
      trim (u ++ x :: y :: v) (u ++ y :: x :: v) = (2, 2) := by
  obtain ⟨hlcp, htrim⟩ := trim_append (u := u) (a := x :: y :: v) (b := y :: x :: v)
    (by simpa using h)
  refine ⟨hlcp, htrim.trans ?_⟩
  have hrev : ∀ x y : α, (x :: y :: v).reverse = v.reverse ++ [y, x] := by simp
  rw [hrev, hrev, lcp_append, lcp_cons_of_ne h.symm]
  simp only [List.length_cons, List.length_reverse, Prod.mk.injEq]
  omega

/-- An element more: what follows it is a common suffix, wherever the common prefix ends. -/
theorem trim_insert {u v : List α} {x : α} : trim (u ++ x :: v) (u ++ v) = (1, 0) := by
  obtain ⟨u', a, b, ha, hb, -, hne⟩ := exists_lcp (x :: v) v
  have hlength : a.length = b.length + 1 := by
    have hla := congrArg List.length ha
    have hlb := congrArg List.length hb
    simp only [List.length_cons, List.length_append] at hla hlb
    omega
  obtain ⟨z, a', rfl⟩ := List.exists_cons_of_length_eq_add_one hlength
  have htail : a' = b := by
    have hdrop := congrArg (List.drop (u'.length + 1)) ha
    rw [List.drop_succ_cons] at hdrop
    nth_rewrite 1 [hb] at hdrop
    rw [List.drop_left, List.drop_append, List.drop_eq_nil_of_le (Nat.le_succ _)] at hdrop
    simpa using hdrop.symm
  subst htail
  rw [ha, hb, ← List.append_assoc, ← List.append_assoc, (trim_append hne).2, List.reverse_cons]
  have hsuffix : lcp (a'.reverse ++ [z]) a'.reverse = a'.length := by
    nth_rewrite 2 [← List.append_nil a'.reverse]
    rw [lcp_append, lcp_nil_right, List.length_reverse, Nat.add_zero]
  rw [hsuffix, List.length_cons]
  simp

/-- **One edit is recognized by what is left.** -/
theorem oneEdit_iff_trim : OneEdit xs ys ↔
    trim xs ys = (1, 1) ∨ trim xs ys = (0, 1) ∨ trim xs ys = (1, 0) ∨
      (trim xs ys = (2, 2) ∧ xs[lcp xs ys]? = ys[lcp xs ys + 1]? ∧
        xs[lcp xs ys + 1]? = ys[lcp xs ys]?) := by
  constructor
  · intro h
    cases h with
    | substitute hne => exact .inl (trim_substitute hne)
    | insert => exact .inr (.inr (.inl trim_insert))
    | delete =>
      refine .inr (.inl ?_)
      rw [trim_comm, trim_insert]
      rfl
    | transpose hne =>
      obtain ⟨hlcp, htrim⟩ := trim_transpose hne
      refine .inr (.inr (.inr ⟨htrim, ?_, ?_⟩)) <;> rw [hlcp] <;> simp
  · intro h
    obtain ⟨u, m, m', v, hxs, hys, hu, htrim, hne⟩ := trim_spec xs ys
    rcases h with h | h | h | ⟨h, hcross, hcross'⟩ <;>
      rw [h, Prod.mk.injEq] at htrim <;> obtain ⟨hm, hm'⟩ := htrim
    · obtain ⟨x, rfl⟩ := List.length_eq_one_iff.mp hm
      obtain ⟨y, rfl⟩ := List.length_eq_one_iff.mp hm'
      rw [hxs, hys]
      exact .substitute (by simpa using hne)
    · obtain rfl := List.length_eq_zero_iff.mp hm
      obtain ⟨y, rfl⟩ := List.length_eq_one_iff.mp hm'
      rw [hxs, hys]
      exact .delete
    · obtain ⟨x, rfl⟩ := List.length_eq_one_iff.mp hm
      obtain rfl := List.length_eq_zero_iff.mp hm'
      rw [hxs, hys]
      exact .insert
    · obtain ⟨x, y, rfl⟩ := List.length_eq_two.mp hm
      obtain ⟨x', y', rfl⟩ := List.length_eq_two.mp hm'
      rw [← hu] at hcross hcross'
      rw [hxs, hys] at hcross hcross' ⊢
      have hx : x = y' := by simpa using hcross
      have hy : y = x' := by simpa using hcross'
      subst hx hy
      exact .transpose (by simpa using hne)

end Trim
