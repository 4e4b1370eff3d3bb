/-
Pegium/General/EditScript.lean

Edit scripts between two lists.

A script turns one list into another by keeping, substituting, inserting and deleting
elements and by exchanging two neighbours; no element is touched twice (the optimal string
alignment).  An inserted element is one of the first list that the second one lacks, a
deleted element one of the second that the first one lacks.

Costs are in an ordered monoid, so a script can be weighed by several measures in
lexicographic order.  `costs_snoc` says what the scripts of two lists are in terms of those
of their beginnings, and `IsBest.relax` how an optimum is found one predecessor after the
other.
-/
import Mathlib.Algebra.Order.Monoid.Defs
import Mathlib.Data.Set.Lattice
import Mathlib.Order.Bounds.Basic
import Mathlib.Algebra.BigOperators.Group.List.Basic

universe u v w

inductive EditOp where
  | keep
  | substitute
  | insert
  | delete
  | transpose
  deriving DecidableEq

/-- How many elements of the first and of the second list an operation takes. -/
def EditOp.takes : EditOp → ℕ × ℕ
  | .keep | .substitute => (1, 1)
  | .insert => (1, 0)
  | .delete => (0, 1)
  | .transpose => (2, 2)

variable {α : Type u} {β : Type v}

/-- The scripts that turn one list into the other, `same` telling which elements agree. -/
inductive Edits (same : α → β → Prop) : List α → List β → List EditOp → Prop
  | nil : Edits same [] [] []
  | keep {x y xs ys s} : same x y → Edits same xs ys s →
      Edits same (x :: xs) (y :: ys) (.keep :: s)
  | substitute {x y xs ys s} : Edits same xs ys s →
      Edits same (x :: xs) (y :: ys) (.substitute :: s)
  | insert {x xs ys s} : Edits same xs ys s → Edits same (x :: xs) ys (.insert :: s)
  | delete {y xs ys s} : Edits same xs ys s → Edits same xs (y :: ys) (.delete :: s)
  | transpose {x x' y y' xs ys s} : same x y' → same x' y → Edits same xs ys s →
      Edits same (x :: x' :: xs) (y :: y' :: ys) (.transpose :: s)

namespace Edits

variable {same : α → β → Prop} {xs xs' : List α} {ys ys' : List β} {s s' : List EditOp}

theorem append (h : Edits same xs ys s) (h' : Edits same xs' ys' s') :
    Edits same (xs ++ xs') (ys ++ ys') (s ++ s') := by
  induction h with
  | nil => exact h'
  | keep hxy _ ih => exact .keep hxy ih
  | substitute _ ih => exact .substitute ih
  | insert _ ih => exact .insert ih
  | delete _ ih => exact .delete ih
  | transpose hxy hyx _ ih => exact .transpose hxy hyx ih

/-- Read from the end, a script is a script. -/
theorem reverse (h : Edits same xs ys s) : Edits same xs.reverse ys.reverse s.reverse := by
  induction h with
  | nil => exact .nil
  | keep hxy _ ih => simpa using ih.append (.keep hxy .nil)
  | substitute _ ih => simpa using ih.append (.substitute .nil)
  | insert _ ih => simpa using ih.append (.insert .nil)
  | delete _ ih => simpa using ih.append (.delete .nil)
  | transpose hxy hyx _ ih => simpa using ih.append (.transpose hyx hxy .nil)

/-- Where nothing is deleted or substituted, every element of the second list is kept from
the first one. -/
theorem exists_same (h : Edits same xs ys s) (hdelete : EditOp.delete ∉ s)
    (hsubstitute : EditOp.substitute ∉ s) : ∀ y ∈ ys, ∃ x ∈ xs, same x y := by
  induction h with
  | nil => exact fun y hy => absurd hy List.not_mem_nil
  | @keep x y xs ys s hxy _ ih =>
    rw [List.mem_cons, not_or] at hdelete hsubstitute
    intro z hz
    rcases List.mem_cons.mp hz with rfl | hz
    · exact ⟨x, List.mem_cons_self, hxy⟩
    · obtain ⟨w, hw, hwz⟩ := ih hdelete.2 hsubstitute.2 z hz
      exact ⟨w, List.mem_cons_of_mem _ hw, hwz⟩
  | substitute => exact absurd List.mem_cons_self hsubstitute
  | @insert x xs ys s _ ih =>
    rw [List.mem_cons, not_or] at hdelete hsubstitute
    intro z hz
    obtain ⟨w, hw, hwz⟩ := ih hdelete.2 hsubstitute.2 z hz
    exact ⟨w, List.mem_cons_of_mem _ hw, hwz⟩
  | delete => exact absurd List.mem_cons_self hdelete
  | @transpose x x' y y' xs ys s hxy hyx _ ih =>
    rw [List.mem_cons, not_or] at hdelete hsubstitute
    intro z hz
    rcases List.mem_cons.mp hz with rfl | hz
    · exact ⟨x', List.mem_cons_of_mem _ List.mem_cons_self, hyx⟩
    rcases List.mem_cons.mp hz with rfl | hz
    · exact ⟨x, List.mem_cons_self, hxy⟩
    · obtain ⟨w, hw, hwz⟩ := ih hdelete.2 hsubstitute.2 z hz
      exact ⟨w, List.mem_cons_of_mem _ (List.mem_cons_of_mem _ hw), hwz⟩

/-- The last operation of a script. -/
theorem of_snoc {x : α} {y : β} (h : Edits same (xs ++ [x]) (ys ++ [y]) s) :
    (same x y ∧ ∃ s', s = s' ++ [.keep] ∧ Edits same xs ys s') ∨
    (∃ s', s = s' ++ [.substitute] ∧ Edits same xs ys s') ∨
    (∃ s', s = s' ++ [.insert] ∧ Edits same xs (ys ++ [y]) s') ∨
    (∃ s', s = s' ++ [.delete] ∧ Edits same (xs ++ [x]) ys s') ∨
    (∃ xs' x' ys' y' s', xs = xs' ++ [x'] ∧ ys = ys' ++ [y'] ∧ same x y' ∧ same x' y ∧
      s = s' ++ [.transpose] ∧ Edits same xs' ys' s') := by
  obtain ⟨r, rfl⟩ : ∃ r : List EditOp, s = r.reverse := ⟨s.reverse, by simp⟩
  replace h : Edits same (x :: xs.reverse) (y :: ys.reverse) r := by simpa using h.reverse
  generalize hxs : xs.reverse = xr at h
  generalize hys : ys.reverse = yr at h
  rw [List.reverse_eq_iff] at hxs hys
  subst hxs hys
  cases h with
  | @keep _ _ _ _ s' hxy h => exact .inl ⟨hxy, s'.reverse, by simp, h.reverse⟩
  | @substitute _ _ _ _ s' h => exact .inr (.inl ⟨s'.reverse, by simp, h.reverse⟩)
  | @insert _ _ _ s' h =>
    refine .inr (.inr (.inl ⟨s'.reverse, by simp, ?_⟩))
    simpa using h.reverse
  | @delete _ _ _ s' h =>
    refine .inr (.inr (.inr (.inl ⟨s'.reverse, by simp, ?_⟩)))
    simpa using h.reverse
  | @transpose _ x' _ y' xs' ys' s' hxy hyx h =>
    exact .inr (.inr (.inr (.inr
      ⟨xs'.reverse, x', ys'.reverse, y', s'.reverse, by simp, by simp, hxy, hyx, by simp,
        h.reverse⟩)))

theorem of_nil_snoc {y : β} (h : Edits same ([] : List α) (ys ++ [y]) s) :
    ∃ s', s = s' ++ [.delete] ∧ Edits same [] ys s' := by
  obtain ⟨r, rfl⟩ : ∃ r : List EditOp, s = r.reverse := ⟨s.reverse, by simp⟩
  replace h : Edits same [] (y :: ys.reverse) r := by simpa using h.reverse
  cases h with
  | @delete _ _ _ s' h => exact ⟨s'.reverse, by simp, by simpa using h.reverse⟩

theorem of_snoc_nil {x : α} (h : Edits same (xs ++ [x]) ([] : List β) s) :
    ∃ s', s = s' ++ [.insert] ∧ Edits same xs [] s' := by
  obtain ⟨r, rfl⟩ : ∃ r : List EditOp, s = r.reverse := ⟨s.reverse, by simp⟩
  replace h : Edits same (x :: xs.reverse) [] r := by simpa using h.reverse
  generalize hxs : xs.reverse = xr at h
  rw [List.reverse_eq_iff] at hxs
  subst hxs
  cases h with
  | @insert _ _ _ s' h => exact ⟨s'.reverse, by simp, h.reverse⟩

/-- The lengths differ by the deletions and the insertions. -/
theorem length_eq (h : Edits same xs ys s) :
    ys.length + s.count .insert = xs.length + s.count .delete := by
  induction h with
  | nil => rfl
  | keep _ _ ih | substitute _ ih | insert _ ih | delete _ ih | transpose _ _ _ ih =>
    simp only [List.length_cons, List.count_cons, beq_iff_eq, reduceCtorEq, if_true, if_false]
    omega

end Edits

/-! ### Costs -/

section Costs

variable {M : Type w} [AddCommMonoid M] (weight : EditOp → M) (Allowed : EditOp → Prop)
  (same : α → β → Prop)

/-- What the scripts cost that use allowed operations only. -/
def EditOp.costs (xs : List α) (ys : List β) : Set M :=
  {c | ∃ s, Edits same xs ys s ∧ (∀ op ∈ s, Allowed op) ∧ c = (s.map weight).sum}

/-- The costs of one set, each with one more operation. -/
def EditOp.after (S : Set M) (op : EditOp) : Set M := {c | Allowed op ∧ ∃ b ∈ S, c = b + weight op}

end Costs

namespace EditOp

variable {M : Type w} [AddCommMonoid M] {weight : EditOp → M} {Allowed : EditOp → Prop}
  {same : α → β → Prop} {xs : List α} {ys : List β} {x : α} {y : β}

theorem mem_costs_concat {s : List EditOp} {op : EditOp} {xs₁ : List α} {ys₁ : List β} {c : M}
    (h : Edits same xs₁ ys₁ s) (hs : ∀ op' ∈ s ++ [op], Allowed op')
    (hc : c = ((s ++ [op]).map weight).sum) :
    c ∈ after weight Allowed (costs weight Allowed same xs₁ ys₁) op := by
  refine ⟨hs op (by simp), _, ⟨s, h, fun op' hop' => hs op' (by simp [hop']), rfl⟩, ?_⟩
  rw [hc, List.map_append, List.sum_append, List.map_singleton, List.sum_singleton]

/-- One more operation at the end. -/
theorem after_subset {op : EditOp} {xs₁ : List α} {ys₁ : List β} (xs₂ : List α) (ys₂ : List β)
    (hop : Edits same xs₂ ys₂ [op]) :
    after weight Allowed (costs weight Allowed same xs₁ ys₁) op ⊆
      costs weight Allowed same (xs₁ ++ xs₂) (ys₁ ++ ys₂) := by
  rintro c ⟨hallowed, b, ⟨s, h, hs, rfl⟩, rfl⟩
  refine ⟨s ++ [op], h.append hop, fun op' hop' => ?_, ?_⟩
  · rcases List.mem_append.mp hop' with hmem | hmem
    · exact hs op' hmem
    · rw [List.mem_singleton.mp hmem]
      exact hallowed
  · rw [List.map_append, List.sum_append, List.map_singleton, List.sum_singleton]

theorem costs_nil_nil : costs weight Allowed same ([] : List α) ([] : List β) = {0} := by
  ext c
  constructor
  · rintro ⟨s, h, _, rfl⟩
    cases h
    rfl
  · rintro rfl
    exact ⟨[], .nil, by simp, rfl⟩

theorem costs_nil_snoc : costs weight Allowed same ([] : List α) (ys ++ [y]) =
    after weight Allowed (costs weight Allowed same [] ys) .delete := by
  apply Set.Subset.antisymm
  · rintro c ⟨s, h, hs, hc⟩
    obtain ⟨s', rfl, h'⟩ := h.of_nil_snoc
    exact mem_costs_concat h' hs hc
  · exact after_subset [] [y] (.delete .nil)

theorem costs_snoc_nil : costs weight Allowed same (xs ++ [x]) ([] : List β) =
    after weight Allowed (costs weight Allowed same xs []) .insert := by
  apply Set.Subset.antisymm
  · rintro c ⟨s, h, hs, hc⟩
    obtain ⟨s', rfl, h'⟩ := h.of_snoc_nil
    exact mem_costs_concat h' hs hc
  · exact after_subset [x] [] (.insert .nil)

/-- **The scripts of two lists end in one of five operations.** -/
theorem costs_snoc : costs weight Allowed same (xs ++ [x]) (ys ++ [y]) =
    {c | same x y ∧ c ∈ after weight Allowed (costs weight Allowed same xs ys) .keep} ∪
    after weight Allowed (costs weight Allowed same xs ys) .substitute ∪
    after weight Allowed (costs weight Allowed same xs (ys ++ [y])) .insert ∪
    after weight Allowed (costs weight Allowed same (xs ++ [x]) ys) .delete ∪
    {c | ∃ xs' x' ys' y', xs = xs' ++ [x'] ∧ ys = ys' ++ [y'] ∧ same x y' ∧ same x' y ∧
      c ∈ after weight Allowed (costs weight Allowed same xs' ys') .transpose} := by
  apply Set.Subset.antisymm
  · rintro c ⟨s, h, hs, hc⟩
    rcases h.of_snoc with ⟨hxy, s', rfl, h'⟩ | ⟨s', rfl, h'⟩ | ⟨s', rfl, h'⟩ | ⟨s', rfl, h'⟩ |
      ⟨xs', x', ys', y', s', hxs, hys, hxy, hyx, rfl, h'⟩
    · exact .inl (.inl (.inl (.inl ⟨hxy, mem_costs_concat h' hs hc⟩)))
    · exact .inl (.inl (.inl (.inr (mem_costs_concat h' hs hc))))
    · exact .inl (.inl (.inr (mem_costs_concat h' hs hc)))
    · exact .inl (.inr (mem_costs_concat h' hs hc))
    · exact .inr ⟨xs', x', ys', y', hxs, hys, hxy, hyx, mem_costs_concat h' hs hc⟩
  · rintro c ((((⟨hxy, hc⟩ | hc) | hc) | hc) | ⟨xs', x', ys', y', rfl, rfl, hxy, hyx, hc⟩)
    · exact after_subset [x] [y] (.keep hxy .nil) hc
    · exact after_subset [x] [y] (.substitute .nil) hc
    · simpa using after_subset [x] [] (.insert .nil) hc
    · simpa using after_subset [] [y] (.delete .nil) hc
    · simpa using after_subset [x', x] [y', y] (.transpose hyx hxy .nil) hc

end EditOp

/-! ### Optima -/

/-- The least element of a set, `none` when there is no element. -/
def IsBest {M : Type w} [LE M] (S : Set M) : Option M → Prop
  | none => S = ∅
  | some m => IsLeast S m

namespace IsBest

variable {M : Type w} [LinearOrder M] {S T : Set M} {best candidate : Option M}

/-- The better one of two. -/
def relax (best candidate : Option M) : Option M :=
  match candidate, best with
  | none, best => best
  | some c, none => some c
  | some c, some b => if c < b then some c else some b

/-- **The optimum of a union**: the better one of the optima. -/
theorem union (hS : IsBest S best) (hT : IsBest T candidate) :
    IsBest (S ∪ T) (relax best candidate) := by
  rcases candidate with _ | c
  · rw [IsBest] at hT
    rw [hT, Set.union_empty]
    exact hS
  · rcases best with _ | b
    · rw [IsBest] at hS
      rw [hS, Set.empty_union]
      exact hT
    · have hunion := hS.union hT
      simp only [relax]
      split
      case isTrue hlt => rwa [min_eq_right hlt.le] at hunion
      case isFalse hge => rwa [min_eq_left (not_lt.mp hge)] at hunion

theorem after [AddCommMonoid M] [IsOrderedAddMonoid M] {weight : EditOp → M}
    {Allowed : EditOp → Prop} {op : EditOp} (hop : Allowed op) (hS : IsBest S best) :
    IsBest (EditOp.after weight Allowed S op) (best.map (· + weight op)) := by
  rcases best with _ | b
  · rw [IsBest] at hS
    rw [hS]
    exact Set.eq_empty_of_forall_notMem fun c ⟨_, b, hb, _⟩ => hb
  · refine ⟨⟨hop, b, hS.1, rfl⟩, ?_⟩
    rintro c ⟨_, b', hb', rfl⟩
    exact add_le_add_left (hS.2 hb') _

end IsBest
