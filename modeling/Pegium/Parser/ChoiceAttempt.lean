/-
Pegium/Parser/ChoiceAttempt.lean

The cache of choice attempts.

The cache is direct-mapped: the key of an attempt is hashed to a slot, and a store
overwrites what the slot has.  A reset does not touch the slots, it goes on to the
next generation; the generation is a 32-bit number and comes back to 0.

`tryGet_eq_some_iff` says what a hit is: the attempt of the last store into its
slot since the last reset, when that store had an equal key.
-/
import Mathlib.Algebra.GroupWithZero.Nat
import Mathlib.Data.List.Induction
import Pegium.General.StampedSlots

namespace Pegium

/-! ### Keys -/

/-- `RecoveryPolicyFingerprint`.  A pointer is its address. -/
structure RecoveryPolicyFingerprint where
  followProbeFn : UInt64
  followProbeData : UInt64
  recoverableFollowProbeFn : UInt64
  recoverableFollowProbeData : UInt64
  recoverableFollowConsumesVisibleProbeFn : UInt64
  recoverableFollowConsumesVisibleProbeData : UInt64
  remainingEditBudget : UInt32
  consecutiveDeletes : UInt32
  editFloorOffset : UInt32
  allowInsert : Bool
  allowDelete : Bool
  skipAfterDelete : Bool
  allowDestructiveWindowContinuation : Bool
  allowLeadingTerminalInsertScope : Bool
  inRecoveryPhase : Bool
  hadEdits : Bool
  insideEditWindow : Bool
  completedWindowContinuation : Bool
  frontierBlocked : Bool
  trackEditState : Bool
  committedRecoveryEditIndex : UInt32
  remainingEditCount : UInt32
  remainingConsecutiveDeletes : UInt32
  deriving DecidableEq

/-- `ChoiceRecoverCacheKey`. -/
structure ChoiceRecoverCacheKey where
  choice : UInt64
  cursorOffset : UInt32
  maxCursorOffset : UInt32
  furthestVisibleLeafCount : UInt32
  currentVisibleLeafCount : UInt32
  policy : RecoveryPolicyFingerprint
  deriving DecidableEq

/-- The flags of a policy as bits, the first one lowest. -/
def RecoveryPolicyFingerprint.bools (policy : RecoveryPolicyFingerprint) : UInt32 :=
  [policy.allowInsert, policy.allowDelete, policy.skipAfterDelete,
    policy.allowDestructiveWindowContinuation, policy.allowLeadingTerminalInsertScope,
    policy.inRecoveryPhase, policy.hadEdits, policy.insideEditWindow,
    policy.completedWindowContinuation, policy.frontierBlocked, policy.trackEditState].foldr
      (fun flag bits => (bits <<< 1) ||| (if flag then 1 else 0)) 0

/-- `mix_policy`. -/
def mix_policy (policy : RecoveryPolicyFingerprint) : UInt64 :=
  policy.followProbeFn
    ^^^ policy.followProbeData * 0x7F4A7C15A24BAED4
    ^^^ policy.recoverableFollowProbeFn * 0xBF58476D1CE4E5B9
    ^^^ policy.recoverableFollowProbeData * 0x165667B19E3779F9
    ^^^ policy.recoverableFollowConsumesVisibleProbeFn * 0x9E3779B185EBCA87
    ^^^ policy.recoverableFollowConsumesVisibleProbeData * 0xC2B2AE3D27D4EB2F
    ^^^ policy.remainingEditBudget.toUInt64 * 0xC2B2AE3D27D4EB4F
    ^^^ policy.consecutiveDeletes.toUInt64 * 0x94D049BB133111EB
    ^^^ policy.editFloorOffset.toUInt64 * 0x85EBCA77C2B2AE63
    ^^^ policy.committedRecoveryEditIndex.toUInt64 * 0xA29F0F39DD9E12C5
    ^^^ policy.remainingEditCount.toUInt64 * 0x4F2162926E40C299
    ^^^ policy.remainingConsecutiveDeletes.toUInt64 * 0x6E8E7A2F8B1B5C1D
    ^^^ policy.bools.toUInt64 * 0xD1B54A32D192ED03

/-- The number of slots. -/
def kCapacity : UInt64 := 8192

/-- `slot`. -/
def slot (key : ChoiceRecoverCacheKey) : UInt64 :=
  let h := key.choice
    ^^^ key.cursorOffset.toUInt64 * 0x9E3779B97F4A7C15
    ^^^ key.maxCursorOffset.toUInt64 * 0x3C79AC492BA7B653
    ^^^ key.furthestVisibleLeafCount.toUInt64 * 0x6A5D39EAE116586D
    ^^^ key.currentVisibleLeafCount.toUInt64 * 0x3A1F5B8D2C7E9011
    ^^^ mix_policy key.policy
  let h := h ^^^ (h >>> 33)
  let h := h * 0xFF51AFD7ED558CCD
  let h := h ^^^ (h >>> 33)
  h &&& (kCapacity - 1)

/-- Every slot is one of the array. -/
theorem slot_lt (key : ChoiceRecoverCacheKey) : slot key < kCapacity := by
  rw [slot, UInt64.lt_iff_toNat_lt, UInt64.toNat_and]
  exact Nat.lt_of_le_of_lt Nat.and_le_right (by decide)

/-! ### The cache -/

/-- The number of generations. -/
def generations : ℕ := 2 ^ 32

/-- `ChoiceRecoverCache`; an attempt is copied as it is. -/
structure ChoiceRecoverCache (α : Type) where
  entries : StampedSlots UInt64 (ChoiceRecoverCacheKey × α)
  hits : UInt64
  misses : UInt64
  disabled : Bool

namespace ChoiceRecoverCache

variable {α : Type}

/-- The constructor; the keys and values of the entries are not initialised. -/
def new (unwritten : UInt64 → ChoiceRecoverCacheKey × α) : ChoiceRecoverCache α :=
  ⟨.fresh unwritten, 0, 0, false⟩

/-- Turn the cache off or on. -/
def setDisabled (disabled : Bool) (cache : ChoiceRecoverCache α) : ChoiceRecoverCache α :=
  { cache with disabled := disabled }

/-- `tryGet`, with the counters it leaves. -/
def tryGet (cache : ChoiceRecoverCache α) (key : ChoiceRecoverCacheKey) :
    Option α × ChoiceRecoverCache α :=
  if cache.disabled then (none, { cache with misses := cache.misses + 1 })
  else
    match cache.entries.read (slot key) with
    | none => (none, { cache with misses := cache.misses + 1 })
    | some entry =>
      if entry.1 = key then (some entry.2, { cache with hits := cache.hits + 1 })
      else (none, { cache with misses := cache.misses + 1 })

/-- Put a value into the slot of its key. -/
def store (cache : ChoiceRecoverCache α) (key : ChoiceRecoverCacheKey) (value : α) :
    ChoiceRecoverCache α :=
  { cache with entries := cache.entries.write (slot key) (key, value) }

/-- A new generation: every slot is empty. -/
def reset (cache : ChoiceRecoverCache α) : ChoiceRecoverCache α :=
  { cache with entries := cache.entries.renew generations, hits := 0, misses := 0 }

/-! ### Calls -/

/-- A call of the cache. -/
inductive Call (α : Type) where
  | setDisabled (disabled : Bool)
  | tryGet (key : ChoiceRecoverCacheKey)
  | store (key : ChoiceRecoverCacheKey) (value : α)
  | reset

/-- The cache after a call. -/
def call (cache : ChoiceRecoverCache α) : Call α → ChoiceRecoverCache α
  | .setDisabled disabled => cache.setDisabled disabled
  | .tryGet key => (cache.tryGet key).2
  | .store key value => cache.store key value
  | .reset => cache.reset

/-- The cache after some calls. -/
def run (unwritten : UInt64 → ChoiceRecoverCacheKey × α) (calls : List (Call α)) :
    ChoiceRecoverCache α :=
  calls.foldl call (new unwritten)

/-- A call that leaves the slot as it is. -/
def Call.Spares (i : UInt64) : Call α → Prop
  | .store key _ => slot key ≠ i
  | .reset => False
  | _ => True

/-- The last store into the slot since the last reset. -/
def LastStored (calls : List (Call α)) (i : UInt64) (entry : ChoiceRecoverCacheKey × α) : Prop :=
  ∃ before after, calls = before ++ .store entry.1 entry.2 :: after ∧ slot entry.1 = i ∧
    ∀ c ∈ after, c.Spares i

/-- What a call does to what the slots show. -/
def Call.apply (view : UInt64 → Option (ChoiceRecoverCacheKey × α)) :
    Call α → UInt64 → Option (ChoiceRecoverCacheKey × α)
  | .store key value => Function.update view (slot key) (some (key, value))
  | .reset => fun _ => none
  | .setDisabled _ => view
  | .tryGet _ => view

/-- What the calls leave in each slot. -/
def view (calls : List (Call α)) : UInt64 → Option (ChoiceRecoverCacheKey × α) :=
  calls.foldl Call.apply fun _ => none

theorem view_append (calls : List (Call α)) (c : Call α) :
    view (calls ++ [c]) = Call.apply (view calls) c := by
  rw [view, List.foldl_append]
  rfl

theorem tryGet_entries (cache : ChoiceRecoverCache α) (key : ChoiceRecoverCacheKey) :
    (cache.tryGet key).2.entries = cache.entries := by
  rw [tryGet]
  split
  · rfl
  · split
    · rfl
    · split <;> rfl

/-- The entries show what the calls leave. -/
theorem shows_run (unwritten : UInt64 → ChoiceRecoverCacheKey × α) (calls : List (Call α)) :
    StampedSlots.Shows generations (run unwritten calls).entries (view calls) := by
  induction calls using List.reverseRecOn with
  | nil => exact .fresh (by decide) unwritten
  | append_singleton calls c ih =>
    rw [run, List.foldl_append, view_append]
    cases c with
    | setDisabled disabled => exact ih
    | tryGet key =>
      show StampedSlots.Shows generations ((run unwritten calls).tryGet key).2.entries (view calls)
      rw [tryGet_entries]
      exact ih
    | store key value => exact ih.write _ _
    | reset => exact ih.renew

theorem lastStored_append {calls : List (Call α)} {c : Call α} {i : UInt64}
    {entry : ChoiceRecoverCacheKey × α} :
    LastStored (calls ++ [c]) i entry ↔
      (c = .store entry.1 entry.2 ∧ slot entry.1 = i) ∨ c.Spares i ∧ LastStored calls i entry := by
  constructor
  · rintro ⟨before, after, hcalls, hslot, hafter⟩
    rcases List.eq_nil_or_concat after with rfl | ⟨after', c', rfl⟩
    · -- the last call is the store itself
      obtain ⟨_, hlast⟩ := List.append_inj' hcalls rfl
      exact .inl ⟨(List.cons.inj hlast).1, hslot⟩
    · rw [List.concat_eq_append, List.forall_mem_append, List.forall_mem_singleton] at hafter
      rw [List.concat_eq_append, ← List.cons_append, ← List.append_assoc] at hcalls
      obtain ⟨hcalls', hlast⟩ := List.append_inj' hcalls rfl
      obtain rfl := (List.cons.inj hlast).1
      exact .inr ⟨hafter.2, before, after', hcalls', hslot, hafter.1⟩
  · rintro (⟨rfl, hslot⟩ | ⟨hspares, before, after, rfl, hslot, hafter⟩)
    · exact ⟨calls, [], rfl, hslot, List.forall_mem_nil _⟩
    · refine ⟨before, after ++ [c], by simp, hslot, ?_⟩
      rw [List.forall_mem_append, List.forall_mem_singleton]
      exact ⟨hafter, hspares⟩

theorem view_eq_some_iff {calls : List (Call α)} {i : UInt64}
    {entry : ChoiceRecoverCacheKey × α} :
    view calls i = some entry ↔ LastStored calls i entry := by
  induction calls using List.reverseRecOn with
  | nil =>
    constructor
    · intro h
      cases h
    · rintro ⟨before, after, hcalls, _⟩
      simp at hcalls
  | append_singleton calls c ih =>
    rw [view_append, lastStored_append, ← ih]
    obtain ⟨key', value'⟩ := entry
    cases c with
    | setDisabled disabled => simp [Call.apply, Call.Spares]
    | tryGet key => simp [Call.apply, Call.Spares]
    | reset => simp [Call.apply, Call.Spares]
    | store key value =>
      rcases eq_or_ne i (slot key) with rfl | hne
      · simp only [Call.apply, Function.update_self, Call.Spares, ne_eq, not_true_eq_false,
          false_and, or_false, Option.some.injEq, Prod.mk.injEq, Call.store.injEq]
        constructor
        · rintro ⟨rfl, rfl⟩
          exact ⟨⟨rfl, rfl⟩, rfl⟩
        · exact And.left
      · simp only [Call.apply, Function.update_of_ne hne, Call.Spares, ne_eq, hne.symm,
          not_false_eq_true, true_and, Call.store.injEq]
        refine ⟨.inr, fun h => h.resolve_left ?_⟩
        rintro ⟨⟨rfl, _⟩, hslot⟩
        exact hne hslot.symm

/-- **A hit is the last attempt stored in its slot since the last reset, and under an
equal key**, after any calls, however often the generation has come back; and any
such attempt is a hit as long as the cache is not disabled. -/
theorem tryGet_eq_some_iff (unwritten : UInt64 → ChoiceRecoverCacheKey × α)
    (calls : List (Call α)) (key : ChoiceRecoverCacheKey) (value : α) :
    ((run unwritten calls).tryGet key).1 = some value ↔
      (run unwritten calls).disabled = false ∧ LastStored calls (slot key) (key, value) := by
  rw [← view_eq_some_iff, tryGet, (shows_run unwritten calls).read]
  cases (run unwritten calls).disabled with
  | true => simp
  | false =>
    rw [if_neg Bool.false_ne_true]
    cases view calls (slot key) with
    | none => simp
    | some entry =>
      obtain ⟨key', value'⟩ := entry
      by_cases hkey : key' = key
      · simp [hkey]
      · simp [hkey]

end ChoiceRecoverCache

end Pegium
