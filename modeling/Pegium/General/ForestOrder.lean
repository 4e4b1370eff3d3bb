/-
Pegium/General/ForestOrder.lean

Order facts about forests.

Three ways to look at a forest that its span laws are stated with: the labels of
its trees (`roots`), the labels of its childless nodes from left to right
(`leaves`), and a relation that holds between every node and its children
(`Nested`).  Each is computed part by part on `f ++ g`, and none of them notices
a relabelling that keeps what the relation reads.
-/
import Pegium.General.OrderedForest

universe u v

namespace Forest

variable {α : Type u} {β : Type v}

/-- The labels of the trees. -/
def roots : Forest α → List α
  | nil => []
  | cons a _ r => a :: r.roots

/-- `a` itself when it has no children, what is `below` it otherwise. -/
def orSelf (a : α) (below : List α) : Forest α → List α
  | nil => [a]
  | cons _ _ _ => below

/-- The labels of the childless nodes, from left to right. -/
def leaves : Forest α → List α
  | nil => []
  | cons a c r => orSelf a c.leaves c ++ r.leaves

/-- The labels of the nodes below the roots. -/
def deeper : Forest α → List α
  | nil => []
  | cons _ c r => c.preorder ++ r.deeper

/-- `R` holds between every node and each of its children. -/
def Nested (R : α → α → Prop) : Forest α → Prop
  | nil => True
  | cons a c r => (∀ b ∈ c.roots, R a b) ∧ c.Nested R ∧ r.Nested R

instance Nested.decidable {R : α → α → Prop} [DecidableRel R] :
    (f : Forest α) → Decidable (f.Nested R)
  | nil => isTrue trivial
  | cons _ c r =>
    have := Nested.decidable (R := R) c
    have := Nested.decidable (R := R) r
    inferInstanceAs (Decidable (_ ∧ _ ∧ _))

/-- Relabel every node. -/
def map (g : α → β) : Forest α → Forest β
  | nil => nil
  | cons a c r => cons (g a) (c.map g) (r.map g)

@[simp] theorem roots_append (f g : Forest α) : (f ++ g).roots = f.roots ++ g.roots := by
  induction f with
  | nil => rfl
  | cons a c r _ ih => rw [cons_append, roots, roots, ih, List.cons_append]

@[simp] theorem leaves_append (f g : Forest α) : (f ++ g).leaves = f.leaves ++ g.leaves := by
  induction f with
  | nil => rfl
  | cons a c r _ ih => rw [cons_append, leaves, leaves, ih, List.append_assoc]

@[simp] theorem nested_append {R : α → α → Prop} (f g : Forest α) :
    (f ++ g).Nested R ↔ f.Nested R ∧ g.Nested R := by
  induction f with
  | nil => exact ⟨fun h => ⟨trivial, h⟩, fun h => h.2⟩
  | cons a c r _ ih => rw [cons_append, Nested, Nested, ih]; tauto

theorem roots_subset_preorder (f : Forest α) : f.roots ⊆ f.preorder := by
  induction f with
  | nil => exact List.Subset.refl _
  | cons a c r _ ih =>
    rw [roots, preorder]
    exact List.cons_subset_cons a (List.Subset.trans ih (List.subset_append_right _ _))

theorem preorder_perm (f : Forest α) : f.preorder.Perm (f.roots ++ f.deeper) := by
  induction f with
  | nil => exact List.Perm.refl _
  | cons a c r _ ih =>
    rw [preorder, roots, deeper, List.cons_append]
    apply List.Perm.cons
    refine (ih.append_left c.preorder).trans ?_
    rw [← List.append_assoc, ← List.append_assoc]
    exact List.perm_append_comm.append_right _

theorem leaves_subset_preorder (f : Forest α) : f.leaves ⊆ f.preorder := by
  induction f with
  | nil => exact List.Subset.refl _
  | cons a c r ihc ihr =>
    intro x hx
    rw [leaves, List.mem_append] at hx
    rw [preorder, List.mem_cons, List.mem_append]
    rcases hx with hx | hx
    · cases c with
      | nil => exact .inl (List.mem_singleton.mp hx)
      | cons b c' r' => exact .inr (.inl (ihc hx))
    · exact .inr (.inr (ihr hx))

/-! ### Relabelling -/

@[simp] theorem map_append (g : α → β) (f h : Forest α) : (f ++ h).map g = f.map g ++ h.map g := by
  induction f with
  | nil => rfl
  | cons a c r _ ih => rw [cons_append, map, map, ih, cons_append]

@[simp] theorem roots_map (g : α → β) (f : Forest α) : (f.map g).roots = f.roots.map g := by
  induction f with
  | nil => rfl
  | cons a c r _ ih => rw [map, roots, roots, ih, List.map_cons]

@[simp] theorem preorder_map (g : α → β) (f : Forest α) :
    (f.map g).preorder = f.preorder.map g := by
  induction f with
  | nil => rfl
  | cons a c r ihc ihr => simp [map, preorder, ihc, ihr]

@[simp] theorem leaves_map (g : α → β) (f : Forest α) :
    (f.map g).leaves = f.leaves.map g := by
  induction f with
  | nil => rfl
  | cons a c r ihc ihr =>
    rw [map, leaves, leaves, ihc, ihr, List.map_append]
    cases c <;> rfl

theorem nested_map {R : β → β → Prop} (g : α → β) (f : Forest α) :
    (f.map g).Nested R ↔ f.Nested fun a b => R (g a) (g b) := by
  induction f with
  | nil => exact Iff.rfl
  | cons a c r ihc ihr =>
    rw [map, Nested, Nested, ihc, ihr, roots_map]
    simp

/-- Relabelling the first tree is invisible after a projection that does not
read what it changes. -/
theorem map_modifyHead {g : α → α} {π : α → β} (h : ∀ a, π (g a) = π a) (f : Forest α) :
    (f.modifyHead g).map π = f.map π := by
  cases f with
  | nil => rfl
  | cons a c r => rw [modifyHead, map, map, h]

/-! ### Places -/

/-- A node of a forest: it has label `b` and children `d`, the labels of the
nodes above it are `above`, outermost first, and `earlier` are the labels of the
siblings that come before it or before one of the nodes above it. -/
inductive Leads : Forest α → List α → List α → α → Forest α → Prop
  | here (a : α) (c r : Forest α) : Leads (cons a c r) [] [] a c
  | down {c : Forest α} {above earlier : List α} {b : α} {d : Forest α} (a : α) (r : Forest α) :
      Leads c above earlier b d → Leads (cons a c r) (a :: above) earlier b d
  | next {r : Forest α} {above earlier : List α} {b : α} {d : Forest α} (a : α) (c : Forest α) :
      Leads r above earlier b d → Leads (cons a c r) above (a :: earlier) b d

namespace Leads

variable {f c d : Forest α} {above above' earlier earlier' : List α} {a b : α}

theorem mem_preorder (h : f.Leads above earlier b d) : b ∈ f.preorder := by
  induction h with
  | here a c r => exact List.mem_cons_self
  | down a r _ ih => exact List.mem_cons_of_mem _ (List.mem_append_left _ ih)
  | next a c _ ih => exact List.mem_cons_of_mem _ (List.mem_append_right _ ih)

theorem size_lt (h : f.Leads above earlier b c) : c.size < f.size := by
  induction h with
  | here a c r => rw [size_cons]; omega
  | down a r _ ih => rw [size_cons]; omega
  | next a c _ ih => rw [size_cons]; omega

/-- From a tree of a forest to a node below it. -/
theorem trans (h : f.Leads above earlier a c) (h' : c.Leads above' earlier' b d) :
    f.Leads (above ++ a :: above') (earlier ++ earlier') b d := by
  induction h with
  | here a c r => exact .down a r h'
  | down a r _ ih => exact .down a r (ih h')
  | next a c _ ih => exact .next a c (ih h')

/-- **In a forest without equal labels a label has one place.** -/
theorem unique (hnodup : f.preorder.Nodup) (h : f.Leads above earlier b c)
    (h' : f.Leads above' earlier' b d) : above = above' ∧ earlier = earlier' ∧ c = d := by
  induction h generalizing above' earlier' d with
  | here a c r =>
    have hnot := (List.nodup_cons.mp hnodup).1
    cases h' with
    | here => exact ⟨rfl, rfl, rfl⟩
    | down _ _ hdown => exact absurd (List.mem_append_left _ hdown.mem_preorder) hnot
    | next _ _ hnext => exact absurd (List.mem_append_right _ hnext.mem_preorder) hnot
  | @down c above earlier b d₀ a r hdown ih =>
    obtain ⟨hnot, hrest⟩ := List.nodup_cons.mp hnodup
    obtain ⟨hc, _, hdisjoint⟩ := List.nodup_append.mp hrest
    cases h' with
    | here => exact absurd (List.mem_append_left _ hdown.mem_preorder) hnot
    | down _ _ hdown' =>
      obtain ⟨rfl, rfl, rfl⟩ := ih hc hdown'
      exact ⟨rfl, rfl, rfl⟩
    | next _ _ hnext => exact absurd rfl (hdisjoint b hdown.mem_preorder b hnext.mem_preorder)
  | @next r above earlier b d₀ a c hnext ih =>
    obtain ⟨hnot, hrest⟩ := List.nodup_cons.mp hnodup
    obtain ⟨_, hr, hdisjoint⟩ := List.nodup_append.mp hrest
    cases h' with
    | here => exact absurd (List.mem_append_right _ hnext.mem_preorder) hnot
    | down _ _ hdown => exact absurd rfl (hdisjoint b hdown.mem_preorder b hnext.mem_preorder)
    | next _ _ hnext' =>
      obtain ⟨rfl, rfl, rfl⟩ := ih hr hnext'
      exact ⟨rfl, rfl, rfl⟩

end Leads

end Forest
