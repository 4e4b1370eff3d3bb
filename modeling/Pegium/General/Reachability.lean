/-
Pegium/General/Reachability.lean

Reachability in a graph that grows by an edge.

A path in the larger graph either avoids the new edge, or it can be cut to go over
it once: to its tail in the old graph, and from its head on in the old graph.
-/
import Mathlib.Logic.Relation

namespace Relation

variable {α : Type*} {r r' : α → α → Prop} {a b x y : α}

/-- The relation with one more edge. -/
def AddEdge (r : α → α → Prop) (a b x y : α) : Prop := r x y ∨ (x = a ∧ y = b)

theorem reflTransGen_addEdge :
    ReflTransGen (AddEdge r a b) x y
      ↔ ReflTransGen r x y ∨ (ReflTransGen r x a ∧ ReflTransGen r b y) := by
  constructor
  · intro h
    induction h with
    | refl => exact .inl .refl
    | @tail y z _ hedge ih =>
      rcases hedge with hold | ⟨rfl, rfl⟩
      · rcases ih with h | ⟨ha, hb⟩
        · exact .inl (h.tail hold)
        · exact .inr ⟨ha, hb.tail hold⟩
      · -- the path ends with the new edge
        rcases ih with h | ⟨ha, -⟩
        · exact .inr ⟨h, .refl⟩
        · exact .inr ⟨ha, .refl⟩
  · have hmono : ∀ {u v : α}, ReflTransGen r u v → ReflTransGen (AddEdge r a b) u v :=
      fun h => ReflTransGen.mono (fun _ _ => .inl) _ _ h
    rintro (h | ⟨ha, hb⟩)
    · exact hmono h
    · exact ((hmono ha).tail (.inr ⟨rfl, rfl⟩)).trans (hmono hb)

/-- An edge between ends that were connected adds nothing. -/
theorem reflTransGen_or_iff (h : ∀ x y, r' x y → ReflTransGen r x y) :
    ReflTransGen (fun x y => r x y ∨ r' x y) x y ↔ ReflTransGen r x y := by
  refine ⟨reflTransGen_closed ?_ x y, ReflTransGen.mono (fun _ _ => .inl) x y⟩
  rintro u v (huv | huv)
  · exact .single huv
  · exact h u v huv

/-- A nonempty path leaves its start by an edge and enters its end by one. -/
theorem ReflTransGen.exists_edges (h : ReflTransGen r x y) (hne : x ≠ y) :
    (∃ z, r x z) ∧ ∃ z, r z y := by
  constructor
  · rcases cases_head h with rfl | ⟨z, hz, -⟩
    · exact absurd rfl hne
    · exact ⟨z, hz⟩
  · rcases cases_tail h with rfl | ⟨z, -, hz⟩
    · exact absurd rfl hne
    · exact ⟨z, hz⟩

end Relation
