/-
Pegium/General/EncodedText.lean

Texts that are encoded character by character.

A decoder reads an encoding when its step over an encoded character takes just that
character, whatever follows (`Decoder.Reads`).  Then the walk over an encoded text stops
between its characters (`Reads.boundary`) and weighs what the characters weigh
(`Reads.weigh_append`), so a place that is counted in characters is found again by weight.
-/
import Mathlib.Algebra.Ring.Nat
import Pegium.General.Decoder

universe u v

namespace Decoder

variable {α : Type u} {χ : Type v} {D : Decoder α} {encode : χ → List α} {weight : χ → ℕ}

/-- A step takes one encoded character. -/
structure Reads (D : Decoder α) (encode : χ → List α) (weight : χ → ℕ) : Prop where
  ne_nil : ∀ c, encode c ≠ []
  decode_append : ∀ c rest, D.decode (encode c ++ rest) = ((encode c).length, weight c)

namespace Reads

variable (h : D.Reads encode weight)
include h

/-- The first character of a text, and what is left of it. -/
theorem exists_cons (c : χ) (rest : List α) :
    ∃ b bs, encode c ++ rest = b :: bs ∧ (b :: bs).drop (D.decode (b :: bs)).1 = rest ∧
      D.decode (b :: bs) = ((encode c).length, weight c) := by
  have hdecode := h.decode_append c rest
  obtain ⟨b, bs, hcons⟩ := List.exists_cons_of_ne_nil (h.ne_nil c)
  rw [hcons, List.cons_append] at hdecode ⊢
  refine ⟨b, bs ++ rest, rfl, ?_, hdecode⟩
  rw [hdecode, ← List.cons_append, List.drop_left]

/-- **The walk stops between characters.** -/
theorem boundary (cs : List χ) (rest : List α) :
    D.Boundary (cs.flatMap encode ++ rest) (cs.flatMap encode).length := by
  induction cs with
  | nil => exact .start _
  | cons c cs ih =>
    obtain ⟨b, bs, hcons, hdrop, hdecode⟩ := h.exists_cons c (cs.flatMap encode ++ rest)
    have hstep := @Boundary.step _ D b bs (cs.flatMap encode).length
    rw [hdrop, hdecode] at hstep
    rw [List.flatMap_cons, List.append_assoc, hcons, List.length_append]
    exact hstep ih

/-- **A text weighs what its characters weigh.** -/
theorem weigh_append (cs : List χ) (rest : List α) :
    D.weigh (cs.flatMap encode ++ rest) = (cs.map weight).sum + D.weigh rest := by
  induction cs with
  | nil => simp
  | cons c cs ih =>
    obtain ⟨b, bs, hcons, hdrop, hdecode⟩ := h.exists_cons c (cs.flatMap encode ++ rest)
    rw [List.flatMap_cons, List.append_assoc, hcons, weigh_cons, hdrop, hdecode, ih,
      List.map_cons, List.sum_cons, Nat.add_assoc]

theorem weigh_eq (cs : List χ) : D.weigh (cs.flatMap encode) = (cs.map weight).sum := by
  simpa using h.weigh_append cs []

end Reads

end Decoder
