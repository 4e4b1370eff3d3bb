/-
Pegium/General/OrderedForest.lean

Ordered forests.

A forest is a finite sequence of trees, written in first-child/next-sibling
form: `cons a c r` is a tree with label `a` and children `c`, followed by the
siblings `r`.  Writing the two levels of nesting into one type keeps every
induction structural: a statement about `f ++ g` is an induction on `f`, whose
children are never entered.
-/
import Mathlib.Data.List.Basic

universe u v

/-- A finite ordered forest, in first-child/next-sibling form. -/
inductive Forest (α : Type u) where
  | nil : Forest α
  | cons (a : α) (children rest : Forest α) : Forest α
  deriving DecidableEq

namespace Forest

variable {α : Type u} {β : Type v} {γ : Type*}

/-! ### Basic operations -/

/-- The forest of one tree. -/
def tree (a : α) (children : Forest α) : Forest α := cons a children nil

/-- Put the trees of `g` after those of `f`. -/
def append : Forest α → Forest α → Forest α
  | nil, g => g
  | cons a c r, g => cons a c (r.append g)

instance : Append (Forest α) := ⟨append⟩

/-- The number of nodes. -/
def size : Forest α → ℕ
  | nil => 0
  | cons _ c r => 1 + c.size + r.size

/-- The labels in preorder. -/
def preorder : Forest α → List α
  | nil => []
  | cons a c r => a :: (c.preorder ++ r.preorder)

/-- Relabel the node with preorder index `n`. -/
def modify (g : α → α) : ℕ → Forest α → Forest α
  | _, nil => nil
  | 0, cons a c r => cons (g a) c r
  | n + 1, cons a c r =>
    if n < c.size then cons a (modify g n c) r
    else cons a c (modify g (n - c.size) r)

/-- Relabel the first tree of a forest. -/
def modifyHead (g : α → α) : Forest α → Forest α
  | nil => nil
  | cons a c r => cons (g a) c r

@[simp] theorem nil_append (g : Forest α) : nil ++ g = g := rfl

@[simp] theorem cons_append (a : α) (c r g : Forest α) :
    cons a c r ++ g = cons a c (r ++ g) := rfl

@[simp] theorem append_nil (f : Forest α) : f ++ nil = f := by
  induction f with
  | nil => rfl
  | cons a c r _ ih => rw [cons_append, ih]

theorem append_assoc (f g h : Forest α) : f ++ g ++ h = f ++ (g ++ h) := by
  induction f with
  | nil => rfl
  | cons a c r _ ih => simp only [cons_append, ih]

@[simp] theorem size_nil : (nil : Forest α).size = 0 := rfl

@[simp] theorem size_cons (a : α) (c r : Forest α) :
    (cons a c r).size = 1 + c.size + r.size := rfl

@[simp] theorem size_tree (a : α) (c : Forest α) : (tree a c).size = 1 + c.size := rfl

@[simp] theorem size_append (f g : Forest α) : (f ++ g).size = f.size + g.size := by
  induction f with
  | nil => simp
  | cons a c r _ ih => simp only [cons_append, size_cons, ih]; omega

@[simp] theorem size_eq_zero {f : Forest α} : f.size = 0 ↔ f = nil := by
  cases f with
  | nil => simp
  | cons a c r => simp only [size_cons, reduceCtorEq, iff_false]; omega

@[simp] theorem preorder_append (f g : Forest α) :
    (f ++ g).preorder = f.preorder ++ g.preorder := by
  induction f with
  | nil => rfl
  | cons a c r _ ih => simp [preorder, ih]

theorem length_preorder (f : Forest α) : f.preorder.length = f.size := by
  induction f with
  | nil => rfl
  | cons a c r ihc ihr => simp [preorder, ihc, ihr]; omega

@[simp] theorem append_eq_nil {f g : Forest α} : f ++ g = nil ↔ f = nil ∧ g = nil := by
  cases f with
  | nil => simp
  | cons a c r => simp

@[simp] theorem size_modify (g : α → α) (n : ℕ) (f : Forest α) :
    (f.modify g n).size = f.size := by
  induction f generalizing n with
  | nil => simp [modify]
  | cons a c r ihc ihr =>
    cases n with
    | zero => rfl
    | succ n =>
      rw [modify]
      split <;> simp [ihc, ihr]

/-- Relabelling inside the second part of an appended forest. -/
theorem modify_append_right (g : α → α) (f h : Forest α) (n : ℕ) :
    (f ++ h).modify g (f.size + n) = f ++ h.modify g n := by
  induction f generalizing n with
  | nil => simp
  | cons a c r _ ih =>
    have e : (cons a c r).size + n = (c.size + (r.size + n)) + 1 := by
      simp only [size_cons]; omega
    rw [e, cons_append, modify, if_neg (by omega), Nat.add_sub_cancel_left, ih, cons_append]

theorem modify_zero (g : α → α) (f : Forest α) : f.modify g 0 = f.modifyHead g := by
  cases f <;> rfl

@[simp] theorem size_modifyHead (g : α → α) (f : Forest α) :
    (f.modifyHead g).size = f.size := by
  cases f <;> rfl

end Forest
