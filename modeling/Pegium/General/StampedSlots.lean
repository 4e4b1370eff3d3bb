/-
Pegium/General/StampedSlots.lean

Slots that are cleared by a counter.

Each slot keeps the stamp of the epoch it was written in.  A slot is read only when
its stamp is the present one, so all slots are cleared by going on to the next
epoch.  The counter has a limit: when it comes back to 0 the stamps are cleared
once, since a stamp that has been left behind would be the present one again.

`Shows` relates the slots to what a reader should see, the writes of the present
epoch.  It holds of fresh slots and is kept by a write and by a new epoch, across
the limit as well.
-/
import Mathlib.Data.Nat.Notation
import Mathlib.Logic.Function.Basic

universe u v

open Function (update)

/-- What was written last, and in which epoch; stamp 0 is no epoch. -/
structure StampedSlot (α : Type u) where
  content : α
  stamp : ℕ

/-- Slots, and the present epoch. -/
structure StampedSlots (ι : Type v) (α : Type u) where
  slots : ι → StampedSlot α
  present : ℕ

namespace StampedSlots

variable {ι : Type v} {α : Type u}

/-- Slots that have not been written; they may contain anything. -/
def fresh (unwritten : ι → α) : StampedSlots ι α := ⟨fun i => ⟨unwritten i, 0⟩, 1⟩

def read (s : StampedSlots ι α) (i : ι) : Option α :=
  if (s.slots i).stamp = s.present then some (s.slots i).content else none

def write [DecidableEq ι] (s : StampedSlots ι α) (i : ι) (a : α) : StampedSlots ι α :=
  { s with slots := update s.slots i ⟨a, s.present⟩ }

/-- Go on to the next epoch, where the counter stays below `limit`. -/
def renew (limit : ℕ) (s : StampedSlots ι α) : StampedSlots ι α :=
  let next := (s.present + 1) % limit
  if next = 0 then ⟨fun i => ⟨(s.slots i).content, 0⟩, 1⟩ else { s with present := next }

/-- The slots show `view`: what is there has the present stamp, and the other slots
have the stamp of an earlier epoch. -/
structure Shows (limit : ℕ) (s : StampedSlots ι α) (view : ι → Option α) : Prop where
  pos : 0 < s.present
  lt_limit : s.present < limit
  stale : ∀ i, view i = none → (s.slots i).stamp < s.present
  held : ∀ i a, view i = some a → s.slots i = ⟨a, s.present⟩

variable {limit : ℕ} {s : StampedSlots ι α} {view : ι → Option α}

theorem Shows.fresh (hlimit : 1 < limit) (unwritten : ι → α) :
    Shows limit (fresh unwritten) fun _ => none where
  pos := Nat.one_pos
  lt_limit := hlimit
  stale _ _ := Nat.one_pos
  held i a h := by cases h

/-- **A reader sees what the slots show.** -/
theorem Shows.read (h : Shows limit s view) (i : ι) : s.read i = view i := by
  rw [StampedSlots.read]
  cases hview : view i with
  | none => exact if_neg (Nat.ne_of_lt (h.stale i hview))
  | some a =>
    rw [h.held i a hview]
    exact if_pos rfl

theorem Shows.write [DecidableEq ι] (h : Shows limit s view) (i : ι) (a : α) :
    Shows limit (s.write i a) (update view i (some a)) := by
  refine ⟨h.pos, h.lt_limit, fun j hj => ?_, fun j b hj => ?_⟩
  · rcases eq_or_ne j i with rfl | hne
    · rw [Function.update_self] at hj
      cases hj
    · rw [Function.update_of_ne hne] at hj
      show (update s.slots i _ j).stamp < s.present
      rw [Function.update_of_ne hne]
      exact h.stale j hj
  · show update s.slots i _ j = _
    rcases eq_or_ne j i with rfl | hne
    · rw [Function.update_self] at hj ⊢
      rw [Option.some.inj hj]
      rfl
    · rw [Function.update_of_ne hne] at hj ⊢
      exact h.held j b hj

/-- **A new epoch clears every slot**, however often the counter has come back. -/
theorem Shows.renew (h : Shows limit s view) : Shows limit (s.renew limit) fun _ => none := by
  have hpos := h.pos
  have hlt := h.lt_limit
  have hstamp : ∀ i, (s.slots i).stamp ≤ s.present := by
    intro i
    cases hview : view i with
    | none => exact Nat.le_of_lt (h.stale i hview)
    | some a =>
      simp [h.held i a hview]
  rw [StampedSlots.renew]
  by_cases hnext : (s.present + 1) % limit = 0
  · rw [if_pos hnext]
    have hone : 1 < limit := by omega
    exact ⟨Nat.one_pos, hone, fun _ _ => Nat.one_pos, fun i a ha => by cases ha⟩
  · -- the counter has not come back, so no slot has its new value
    have hsucc : (s.present + 1) % limit = s.present + 1 := by
      apply Nat.mod_eq_of_lt
      by_contra hge
      obtain rfl : limit = s.present + 1 := by omega
      exact hnext (Nat.mod_self _)
    rw [if_neg hnext, hsucc]
    refine ⟨Nat.succ_pos _, ?_, fun i _ => Nat.lt_succ_of_le (hstamp i), fun i a ha => by cases ha⟩
    rw [← hsucc]
    exact Nat.mod_lt _ (by omega)

end StampedSlots
