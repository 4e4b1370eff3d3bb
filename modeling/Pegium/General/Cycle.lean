/-
Pegium/General/Cycle.lean

Cycles of a relation.

Where everything in a finite set leads on, there is a cycle.
-/
import Mathlib.Data.Fintype.EquivFin
import Mathlib.Logic.Relation
import Mathlib.Order.WellFounded

universe u

/-- **A relation that leads on from everywhere has a cycle** on a finite type. -/
theorem exists_transGen_self {α : Type u} [Finite α] [Nonempty α] {r : α → α → Prop}
    (h : ∀ a, ∃ b, r a b) : ∃ a, Relation.TransGen r a a := by
  by_contra hnone
  push Not at hnone
  have : Std.Irrefl (Relation.TransGen r) := ⟨hnone⟩
  have : Std.Irrefl (Function.swap (Relation.TransGen r)) := ⟨hnone⟩
  have : IsTrans α (Function.swap (Relation.TransGen r)) := ⟨fun _ _ _ hab hbc => hbc.trans hab⟩
  -- A minimal element leads nowhere.
  have hwf := Finite.wellFounded_of_trans_of_irrefl (Function.swap (Relation.TransGen r))
  obtain ⟨a, -, hmin⟩ := hwf.has_min Set.univ Set.univ_nonempty
  obtain ⟨b, hab⟩ := h a
  exact hmin b trivial (.single hab)
