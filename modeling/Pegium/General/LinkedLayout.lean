/-
Pegium/General/LinkedLayout.lean

The linked preorder layout of an ordered forest.

The layout of a forest is the array of its nodes in preorder, each cell
carrying a leaf flag and the index of the next sibling.  The first child of a
non-leaf cell is the next cell, so the two fields are enough to walk the forest
back.

The cell type `β` is arbitrary: `mk a leaf next` makes a cell and `setNext`
patches its link.  Two facts carry everything that is done with such arrays:

* `layout_append`: putting siblings after a forest changes the link of one
  cell, the last root;
* `modify_layout`: patching the cell that `lastRoot` names is that change.
-/
import Pegium.General.OrderedForest

universe u v

/-! ### Patching a concatenation of arrays -/

namespace List

variable {β : Type v}

theorem modify_append_of_lt (g : β → β) {l₁ l₂ : List β} {i : ℕ} (h : i < l₁.length) :
    (l₁ ++ l₂).modify i g = l₁.modify i g ++ l₂ := by
  induction l₁ generalizing i with
  | nil => simp at h
  | cons x l₁ ih =>
    cases i with
    | zero => rfl
    | succ i =>
      simp only [List.cons_append, List.modify_succ_cons]
      rw [ih (by simpa using h)]

theorem modify_append_of_le (g : β → β) {l₁ l₂ : List β} {i : ℕ} (h : l₁.length ≤ i) :
    (l₁ ++ l₂).modify i g = l₁ ++ l₂.modify (i - l₁.length) g := by
  induction l₁ generalizing i with
  | nil => simp
  | cons x l₁ ih =>
    cases i with
    | zero => simp at h
    | succ i =>
      simp only [List.cons_append, List.modify_succ_cons, List.length_cons,
        Nat.add_sub_add_right]
      rw [ih (by simpa using h)]

end List

/-! ### Layout -/

namespace Forest

variable {α : Type u} {β : Type v}

/-- The index at which a forest stored from `base` starts, and `nx` when there
is nothing to store. -/
def headId (base : ℕ) (nx : Option ℕ) : Forest α → Option ℕ
  | nil => nx
  | cons _ _ _ => some base

/-- The index of the last root of a forest stored from `base`. -/
def lastRoot (base : ℕ) : Forest α → Option ℕ
  | nil => none
  | cons _ c r => some ((r.lastRoot (base + 1 + c.size)).getD base)

/-- The cells of a forest stored from `base`, where the last root is linked to
`nx`. -/
def layout (mk : α → Bool → Option ℕ → β) (base : ℕ) (nx : Option ℕ) : Forest α → List β
  | nil => []
  | cons a c r =>
    mk a (c.headId 0 none).isNone (r.headId (base + 1 + c.size) nx) ::
      (layout mk (base + 1) none c ++ layout mk (base + 1 + c.size) nx r)

@[simp] theorem headId_nil (base : ℕ) (nx : Option ℕ) :
    (nil : Forest α).headId base nx = nx := rfl

@[simp] theorem headId_cons (base : ℕ) (nx : Option ℕ) (a : α) (c r : Forest α) :
    (cons a c r).headId base nx = some base := rfl

theorem headId_append (base : ℕ) (nx : Option ℕ) (f g : Forest α) :
    (f ++ g).headId base nx = f.headId base (g.headId (base + f.size) nx) := by
  cases f with
  | nil => simp
  | cons a c r => rfl

@[simp] theorem lastRoot_eq_none {base : ℕ} {f : Forest α} :
    f.lastRoot base = none ↔ f = nil := by
  cases f <;> simp [lastRoot]

theorem lastRoot_append_tree (base : ℕ) (f : Forest α) (a : α) (c : Forest α) :
    (f ++ tree a c).lastRoot base = some (base + f.size) := by
  induction f generalizing base with
  | nil => simp [tree, lastRoot]
  | cons b d r _ ih =>
    simp only [cons_append, lastRoot, ih, size_cons, Option.getD_some, Option.some.injEq]
    omega

@[simp] theorem lastRoot_modify (g : α → α) (base n : ℕ) (f : Forest α) :
    (f.modify g n).lastRoot base = f.lastRoot base := by
  induction f generalizing base n with
  | nil => simp [modify]
  | cons a c r _ ih =>
    cases n with
    | zero => rfl
    | succ n => rw [modify]; split <;> simp [lastRoot, ih]

variable {mk : α → Bool → Option ℕ → β}

@[simp] theorem layout_nil (base : ℕ) (nx : Option ℕ) :
    layout mk base nx (nil : Forest α) = [] := rfl

@[simp] theorem length_layout (base : ℕ) (nx : Option ℕ) (f : Forest α) :
    (layout mk base nx f).length = f.size := by
  induction f generalizing base nx with
  | nil => rfl
  | cons a c r ihc ihr =>
    simp only [layout, List.length_cons, List.length_append, ihc, ihr, size_cons]
    omega

theorem layout_append (base : ℕ) (nx : Option ℕ) (f g : Forest α) :
    layout mk base nx (f ++ g)
      = layout mk base (g.headId (base + f.size) nx) f
        ++ layout mk (base + f.size) nx g := by
  induction f generalizing base with
  | nil => simp
  | cons a c r _ ih =>
    have e : base + 1 + c.size + r.size = base + (1 + c.size + r.size) := by omega
    simp only [cons_append, layout, headId_append, ih, size_cons, e, List.cons_append,
      List.append_assoc]

/-- Patching the link of the last root of a stored forest.  The forest sits
between arbitrary cells `pre` and `post`, as it does in the array. -/
theorem modify_layout {setNext : Option ℕ → β → β}
    (hset : ∀ a l n m, setNext m (mk a l n) = mk a l m) {f : Forest α} {i : ℕ}
    {pre : List β} (h : f.lastRoot pre.length = some i) (nx m : Option ℕ) (post : List β) :
    (pre ++ layout mk pre.length nx f ++ post).modify i (setNext m)
      = pre ++ layout mk pre.length m f ++ post := by
  induction f generalizing pre i with
  | nil => simp [lastRoot] at h
  | cons a c r _ ih =>
    simp only [lastRoot, Option.some.injEq] at h
    cases r with
    | nil =>
      -- the node itself is the last root
      simp only [lastRoot, Option.getD_none] at h
      subst h
      rw [List.append_assoc, List.modify_append_of_le _ (Nat.le_refl _), Nat.sub_self]
      simp only [layout, headId_nil, List.append_nil, List.append_assoc, List.cons_append,
        List.modify_zero_cons, hset]
    | cons b d s =>
      -- the last root is further right: move this node and its children to `pre`
      have hr : (cons b d s).lastRoot (pre.length + 1 + c.size) = some i := by
        rw [← h]; simp [lastRoot]
      let node := mk a (c.headId 0 none).isNone (some (pre.length + 1 + c.size))
      let pre' := pre ++ node :: layout mk (pre.length + 1) none c
      have hpre : pre'.length = pre.length + 1 + c.size := by
        simp only [pre', List.length_append, List.length_cons, length_layout]
        omega
      have key := @ih i pre' (by rw [hpre]; exact hr)
      rw [hpre] at key
      have split : ∀ n, pre ++ layout mk pre.length n (cons a c (cons b d s)) ++ post
          = pre' ++ layout mk (pre.length + 1 + c.size) n (cons b d s) ++ post := by
        intro n
        conv_lhs => rw [layout, headId_cons]
        simp only [pre', node, List.append_assoc, List.cons_append]
      rw [split, split, key]

/-- Relabelling a node changes its cell and no link. -/
theorem layout_modify {upd : β → β} {g : α → α}
    (hupd : ∀ a l n, upd (mk a l n) = mk (g a) l n) (base : ℕ) (nx : Option ℕ)
    (f : Forest α) (n : ℕ) :
    layout mk base nx (f.modify g n) = (layout mk base nx f).modify n upd := by
  have headId_modify : ∀ (b : ℕ) (x : Option ℕ) (k : ℕ) (h : Forest α),
      (h.modify g k).headId b x = h.headId b x := by
    intro b x k h
    rcases h with - | ⟨a, c, r⟩
    · simp [modify]
    · cases k with
      | zero => rfl
      | succ k => rw [modify]; split <;> rfl
  induction f generalizing base nx n with
  | nil => simp [modify]
  | cons a c r ihc ihr =>
    cases n with
    | zero => simp [modify, layout, hupd]
    | succ n =>
      rw [modify]
      split
      next hn =>
        simp only [layout, headId_modify, size_modify, ihc, List.modify_succ_cons]
        rw [List.modify_append_of_lt upd (by simpa using hn)]
      next hn =>
        simp only [layout, headId_modify, ihr, List.modify_succ_cons]
        rw [List.modify_append_of_le upd (by simpa using Nat.le_of_not_lt hn), length_layout]

end Forest
