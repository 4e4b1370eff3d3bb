/-
Pegium/General/Splice.lean

Replacing several ranges of a list at once.

A splice replaces the elements from one place to another by a list; when the two places
are the same, it inserts.  `substitute` is what a set of splices makes of a list when all
of them mean places of that list: at each place first the insertions there, in the order
of the splices, then the replacement that begins there, and the element itself unless a
replacement covers it.

Splices can be applied one after the other when each is applied before those that stand
before it (`foldl_apply`).  Their order matters for insertions at one place only: it does
not when the inserted lists commute (`substitute_perm`), and it does otherwise
(`substitute_swap`).
-/
import Mathlib.Data.List.Basic
import Mathlib.Data.List.Infix

universe u

/-- The stretch from `start` to `stop` is to be replaced. -/
structure Splice (α : Type u) where
  start : ℕ
  stop : ℕ
  text : List α
  ordered : start ≤ stop

namespace Splice

variable {α : Type u} {l : List α} {e f : Splice α} {edits : List (Splice α)} {o : ℕ}

/-- The list after the edit. -/
def apply (e : Splice α) (l : List α) : List α := l.take e.start ++ e.text ++ l.drop e.stop

/-- Neither reaches into the other. -/
def Apart (e f : Splice α) : Prop := e.stop ≤ f.start ∨ f.stop ≤ e.start

/-- Both insert at the same place, and it matters in which order. -/
def Commute (e f : Splice α) : Prop :=
  e.start = f.start → e.stop = e.start → f.stop = f.start → e.text ++ f.text = f.text ++ e.text

/-- What is inserted at a place. -/
def insertions (edits : List (Splice α)) (o : ℕ) : List α :=
  (edits.filter fun e => e.start = o ∧ e.stop = o).flatMap text

/-- What replaces the elements from a place on. -/
def replacement (edits : List (Splice α)) (o : ℕ) : List α :=
  (edits.filter fun e => e.start = o ∧ o < e.stop).flatMap text

/-- Some edit replaces the place. -/
def covered (edits : List (Splice α)) (o : ℕ) : Bool :=
  edits.any fun e => e.start ≤ o ∧ o < e.stop

/-- What stands at a place afterwards. -/
def emit (l : List α) (edits : List (Splice α)) (o : ℕ) : List α :=
  insertions edits o ++ replacement edits o ++ if covered edits o then [] else (l.drop o).take 1

/-- All splices at once. -/
def substitute (l : List α) (edits : List (Splice α)) : List α :=
  (List.range (l.length + 1)).flatMap (emit l edits)

/-! ### Places that splices do not touch -/

theorem insertions_append (edits edits' : List (Splice α)) (o : ℕ) :
    insertions (edits ++ edits') o = insertions edits o ++ insertions edits' o := by
  rw [insertions, List.filter_append, List.flatMap_append]
  rfl

theorem replacement_append (edits edits' : List (Splice α)) (o : ℕ) :
    replacement (edits ++ edits') o = replacement edits o ++ replacement edits' o := by
  rw [replacement, List.filter_append, List.flatMap_append]
  rfl

theorem covered_append (edits edits' : List (Splice α)) (o : ℕ) :
    covered (edits ++ edits') o = (covered edits o || covered edits' o) :=
  List.any_append

theorem insertions_eq_nil (h : ∀ e ∈ edits, e.stop = o → e.start ≠ o) :
    insertions edits o = [] := by
  unfold insertions
  rw [List.filter_eq_nil_iff.mpr]
  · rfl
  · intro e he
    rw [decide_eq_true_eq]
    exact fun hand => h e he hand.2 hand.1

theorem replacement_eq_nil (h : ∀ e ∈ edits, e.start = o → e.stop ≤ o) :
    replacement edits o = [] := by
  unfold replacement
  rw [List.filter_eq_nil_iff.mpr]
  · rfl
  · intro e he
    rw [decide_eq_true_eq]
    exact fun hand => Nat.not_lt.mpr (h e he hand.1) hand.2

theorem covered_eq_false (h : ∀ e ∈ edits, e.start ≤ o → e.stop ≤ o) : covered edits o = false := by
  unfold covered
  rw [List.any_eq_false]
  intro e he
  rw [decide_eq_true_eq]
  exact fun hand => Nat.not_lt.mpr (h e he hand.1) hand.2

theorem flatMap_take_one (l : List α) (s m : ℕ) :
    (List.range' s m).flatMap (fun o => (l.drop o).take 1) = (l.drop s).take m := by
  induction m generalizing s with
  | zero => rw [List.take_zero]; rfl
  | succ m ih =>
    rw [List.range'_succ, List.flatMap_cons, ih, ← List.drop_drop, ← List.take_add, Nat.add_comm]

/-- After all splices have stopped, the list goes on as it is. -/
theorem flatMap_emit_after {s : ℕ} (h : ∀ e ∈ edits, e.stop ≤ s) (hs : s ≤ l.length) :
    (List.range' s (l.length + 1 - s)).flatMap (emit l edits) = insertions edits s ++ l.drop s := by
  obtain ⟨m, hm⟩ : ∃ m, l.length + 1 - s = m + 1 := ⟨l.length - s, by omega⟩
  have hemit : ∀ o, s ≤ o → emit l edits o = insertions edits o ++ (l.drop o).take 1 := by
    intro o ho
    unfold emit
    rw [replacement_eq_nil, covered_eq_false, if_neg Bool.false_ne_true, List.append_nil]
    · exact fun e he _ => Nat.le_trans (h e he) ho
    · exact fun e he _ => Nat.le_trans (h e he) ho
  have hlater : (List.range' (s + 1) m).flatMap (emit l edits)
      = (List.range' (s + 1) m).flatMap fun o => (l.drop o).take 1 := by
    refine List.flatMap_congr fun o ho => ?_
    have hso : s + 1 ≤ o := (List.mem_range'_1.mp ho).1
    rw [hemit o (by omega), insertions_eq_nil, List.nil_append]
    intro e he hstop
    have := h e he
    omega
  rw [hm, List.range'_succ, List.flatMap_cons, hlater, flatMap_take_one, hemit s (Nat.le_refl _),
    List.append_assoc]
  congr 1
  rw [← List.drop_drop, ← List.take_add, List.take_of_length_le]
  rw [List.length_drop]
  omega

/-- Without splices nothing changes. -/
theorem substitute_nil (l : List α) : substitute l [] = l := by
  have h : (List.range' 0 (l.length + 1 - 0)).flatMap (emit l []) = insertions [] 0 ++ l.drop 0 :=
    flatMap_emit_after (fun e he => absurd he List.not_mem_nil) (Nat.zero_le _)
  rw [substitute, List.range_eq_range']
  exact h

/-! ### One splice after the other -/

theorem length_take_start (he : e.stop ≤ l.length) : (l.take e.start).length = e.start := by
  rw [List.length_take, Nat.min_eq_left (Nat.le_trans e.ordered he)]

theorem length_apply (he : e.stop ≤ l.length) :
    (e.apply l).length = e.start + e.text.length + (l.length - e.stop) := by
  rw [apply, List.length_append, List.length_append, length_take_start he, List.length_drop]

/-- Before a splice the list stays. -/
theorem take_one_drop_apply (he : e.stop ≤ l.length) (ho : o < e.start) :
    ((e.apply l).drop o).take 1 = (l.drop o).take 1 := by
  have hstart := length_take_start he
  have hlt : o < l.length := Nat.lt_of_lt_of_le ho (Nat.le_trans e.ordered he)
  rw [apply, List.append_assoc, List.drop_append_of_le_length (by omega),
    List.take_append_of_le_length (by rw [List.length_drop]; omega), List.drop_take,
    List.take_take, Nat.min_eq_left (by omega)]

/-- What stands before the last splice. -/
theorem emit_before (he : e.stop ≤ l.length) (ho : o < e.start) :
    emit l (edits ++ [e]) o = emit (e.apply l) edits o := by
  have hordered := e.ordered
  have hinsertions : insertions [e] o = [] := by
    refine insertions_eq_nil fun f hf _ hstart => ?_
    rw [List.mem_singleton.mp hf] at hstart
    omega
  have hreplacement : replacement [e] o = [] := by
    refine replacement_eq_nil fun f hf hstart => ?_
    rw [List.mem_singleton.mp hf] at hstart
    omega
  have hcovered : covered [e] o = false := by
    refine covered_eq_false fun f hf hstart => ?_
    rw [List.mem_singleton.mp hf] at hstart
    omega
  rw [emit, emit, insertions_append, replacement_append, covered_append,
    take_one_drop_apply he ho, hinsertions, hreplacement, hcovered, List.append_nil,
    List.append_nil, Bool.or_false]

/-- What stands where the last splice starts, and after it. -/
theorem flatMap_emit_from (h : ∀ f ∈ edits, f.stop ≤ e.start) (he : e.stop ≤ l.length) :
    (List.range' e.start (l.length + 1 - e.start)).flatMap (emit l (edits ++ [e]))
      = insertions edits e.start ++ (e.text ++ l.drop e.stop) := by
  rcases Nat.eq_or_lt_of_le e.ordered with heq | hlt
  · -- An insertion comes after those that stand there already.
    have hafter : ∀ f ∈ edits ++ [e], f.stop ≤ e.start := by
      intro f hf
      rcases List.mem_append.mp hf with hf | hf
      · exact h f hf
      · rw [List.mem_singleton.mp hf, heq]
    have hown : insertions [e] e.start = e.text := by
      rw [insertions, List.filter_cons_of_pos (by rw [decide_eq_true_eq]; exact ⟨rfl, heq.symm⟩)]
      exact List.append_nil _
    rw [flatMap_emit_after hafter (by omega), insertions_append, hown, heq, List.append_assoc]
  · -- A replacement covers what it replaces.
    obtain ⟨m, hm⟩ : ∃ m, e.stop = e.start + (m + 1) := ⟨e.stop - e.start - 1, by omega⟩
    have hafter : ∀ f ∈ edits ++ [e], f.stop ≤ e.stop := by
      intro f hf
      rcases List.mem_append.mp hf with hf | hf
      · exact Nat.le_trans (h f hf) e.ordered
      · rw [List.mem_singleton.mp hf]
    have hcovered : ∀ o, e.start ≤ o → o < e.stop → covered (edits ++ [e]) o = true := by
      intro o hle hlt
      rw [covered, List.any_eq_true]
      exact ⟨e, List.mem_append_right _ List.mem_cons_self, decide_eq_true ⟨hle, hlt⟩⟩
    have hfirst : emit l (edits ++ [e]) e.start = insertions edits e.start ++ e.text := by
      have hown : replacement [e] e.start = e.text := by
        rw [replacement, List.filter_cons_of_pos (by rw [decide_eq_true_eq]; exact ⟨rfl, hlt⟩)]
        exact List.append_nil _
      have hnone : insertions [e] e.start = [] :=
        insertions_eq_nil fun f hf hstop hstart => by
          rw [List.mem_singleton.mp hf] at hstop
          omega
      have hearlier : replacement edits e.start = [] := replacement_eq_nil fun f hf _ => h f hf
      rw [emit, hcovered e.start (Nat.le_refl _) hlt, if_pos rfl, List.append_nil,
        insertions_append, replacement_append, hnone, hown, hearlier, List.append_nil,
        List.nil_append]
    have hrest : (List.range' (e.start + 1) m).flatMap (emit l (edits ++ [e])) = [] := by
      rw [List.flatMap_eq_nil_iff]
      intro o ho
      obtain ⟨hle, hlt'⟩ := List.mem_range'_1.mp ho
      rw [emit, hcovered o (by omega) (by omega), if_pos rfl, List.append_nil,
        insertions_eq_nil, replacement_eq_nil, List.append_nil]
      · intro f hf hstart
        rcases List.mem_append.mp hf with hf | hf
        · have := h f hf
          omega
        · rw [List.mem_singleton.mp hf] at hstart
          omega
      · intro f hf hstop hstart
        rcases List.mem_append.mp hf with hf | hf
        · have := h f hf
          omega
        · rw [List.mem_singleton.mp hf] at hstart
          omega
    have hend : insertions (edits ++ [e]) e.stop = [] := by
      refine insertions_eq_nil fun f hf hstop hstart => ?_
      rcases List.mem_append.mp hf with hf | hf
      · have := h f hf
        omega
      · rw [List.mem_singleton.mp hf] at hstart
        omega
    rw [show l.length + 1 - e.start = (m + 1) + (l.length + 1 - e.stop) by omega,
      ← List.range'_append_1, List.flatMap_append, List.range'_succ, List.flatMap_cons, hfirst,
      hrest, List.append_nil, ← hm, flatMap_emit_after hafter he, hend, List.nil_append,
      List.append_assoc]

/-- **The last splice can be applied first.** -/
theorem substitute_concat (h : ∀ f ∈ edits, f.stop ≤ e.start) (he : e.stop ≤ l.length) :
    substitute l (edits ++ [e]) = substitute (e.apply l) edits := by
  have hstart := length_take_start he
  have hlength := length_apply he
  have hordered := e.ordered
  have hbefore : (List.range' 0 e.start).flatMap (emit l (edits ++ [e]))
      = (List.range' 0 e.start).flatMap (emit (e.apply l) edits) := by
    refine List.flatMap_congr fun o ho => emit_before he ?_
    have := (List.mem_range'_1.mp ho).2
    omega
  have hdrop : (e.apply l).drop e.start = e.text ++ l.drop e.stop := by
    rw [apply, List.append_assoc, List.drop_append_of_le_length (Nat.le_of_eq hstart.symm),
      List.drop_of_length_le (Nat.le_of_eq hstart), List.nil_append]
  rw [substitute, substitute, List.range_eq_range', List.range_eq_range',
    show l.length + 1 = e.start + (l.length + 1 - e.start) by omega,
    show (e.apply l).length + 1 = e.start + ((e.apply l).length + 1 - e.start) by omega,
    ← List.range'_append_1, ← List.range'_append_1, List.flatMap_append, List.flatMap_append,
    hbefore, Nat.zero_add, flatMap_emit_from h he, flatMap_emit_after h (by omega), hdrop]

/-- **Applying splices from the back is substituting them all.** -/
theorem foldl_apply (h : edits.Pairwise fun e f => f.stop ≤ e.start)
    (hl : ∀ e ∈ edits, e.stop ≤ l.length) :
    edits.foldl (fun l e => e.apply l) l = substitute l edits.reverse := by
  induction edits generalizing l with
  | nil => exact (substitute_nil l).symm
  | cons e edits ih =>
    obtain ⟨hbefore, hrest⟩ := List.pairwise_cons.mp h
    have he : e.stop ≤ l.length := hl e List.mem_cons_self
    have hlength := length_apply he
    rw [List.foldl_cons, ih hrest, List.reverse_cons, substitute_concat _ he]
    · intro f hf
      exact hbefore f (List.mem_reverse.mp hf)
    · intro f hf
      have := hbefore f hf
      omega

/-! ### The order of the splices -/

/-- Lists that commute with each other can be joined in any order. -/
theorem flatMap_perm {β : Type*} {g : β → List α} {xs ys : List β} (h : xs.Perm ys)
    (hcomm : xs.Pairwise fun x y => g x ++ g y = g y ++ g x) : xs.flatMap g = ys.flatMap g := by
  induction h with
  | nil => rfl
  | cons x _ ih =>
    rw [List.flatMap_cons, List.flatMap_cons, ih (List.pairwise_cons.mp hcomm).2]
  | swap x y xs =>
    have hxy := (List.pairwise_cons.mp hcomm).1 x List.mem_cons_self
    simp only [List.flatMap_cons, ← List.append_assoc, hxy]
  | trans h₁ h₂ ih₁ ih₂ =>
    rw [ih₁ hcomm, ih₂ ((h₁.pairwise_iff fun h => h.symm).mp hcomm)]

/-- **The order does not matter when insertions at one place commute.** -/
theorem substitute_perm {edits' : List (Splice α)} (h : edits.Perm edits')
    (hapart : edits.Pairwise Apart) (hcomm : edits.Pairwise Commute) :
    substitute l edits = substitute l edits' := by
  refine List.flatMap_congr fun o _ => ?_
  have hinsertions : insertions edits o = insertions edits' o := by
    refine flatMap_perm (h.filter _) ?_
    rw [List.pairwise_filter]
    refine hcomm.imp fun {e f} hef he hf => ?_
    rw [decide_eq_true_eq] at he hf
    exact hef (he.1.trans hf.1.symm) (he.2.trans he.1.symm) (hf.2.trans hf.1.symm)
  have hreplacement : replacement edits o = replacement edits' o := by
    refine flatMap_perm (h.filter _) ?_
    rw [List.pairwise_filter]
    refine hapart.imp fun {e f} hef he hf => ?_
    rw [decide_eq_true_eq] at he hf
    rcases hef with hef | hef
    · omega
    · omega
  have hcovered : covered edits o = covered edits' o := by
    rw [covered, covered, Bool.eq_iff_iff, List.any_eq_true, List.any_eq_true]
    simp only [h.mem_iff]
  rw [emit, emit, hinsertions, hreplacement, hcovered]

/-- What an insertion among others adds at a place. -/
theorem emit_insertions {before after : List (Splice α)} (he : e.stop = e.start)
    (hf : f.stop = f.start) (o : ℕ) :
    emit l (before ++ e :: f :: after) o
      = insertions before o ++ (insertions [e] o ++ insertions [f] o) ++
        (insertions after o ++ replacement (before ++ after) o ++
          if covered (before ++ after) o then [] else (l.drop o).take 1) := by
  have hlist : before ++ e :: f :: after = before ++ ([e] ++ ([f] ++ after)) := rfl
  have hreplacement : ∀ {g : Splice α}, g.stop = g.start → replacement [g] o = [] := by
    intro g hg
    refine replacement_eq_nil fun g' hg' hstart => ?_
    rw [List.mem_singleton.mp hg'] at *
    omega
  have hcovered : ∀ {g : Splice α}, g.stop = g.start → covered [g] o = false := by
    intro g hg
    refine covered_eq_false fun g' hg' hstart => ?_
    rw [List.mem_singleton.mp hg'] at *
    omega
  simp only [hlist, emit, insertions_append, replacement_append, covered_append, hreplacement he,
    hreplacement hf, hcovered he, hcovered hf, Bool.false_or, List.nil_append, List.append_assoc]

/-- **Two neighbours that insert at one place can be swapped only if they commute.** -/
theorem commute_of_substitute_swap {before after : List (Splice α)} (hl : e.start ≤ l.length)
    (h : substitute l (before ++ e :: f :: after) = substitute l (before ++ f :: e :: after)) :
    Commute e f := by
  intro hstart he hf
  have hown : ∀ {g : Splice α}, g.stop = g.start → insertions [g] g.start = g.text := by
    intro g hg
    rw [insertions, List.filter_cons_of_pos (by rw [decide_eq_true_eq]; exact ⟨rfl, hg⟩)]
    exact List.append_nil _
  have hnone : ∀ {g : Splice α} {o : ℕ}, g.start ≠ o → insertions [g] o = [] := by
    intro g o hg
    refine insertions_eq_nil fun g' hg' _ => ?_
    rw [List.mem_singleton.mp hg']
    exact hg
  have hother : ∀ o, o ≠ e.start →
      emit l (before ++ e :: f :: after) o = emit l (before ++ f :: e :: after) o := by
    intro o ho
    rw [emit_insertions he hf, emit_insertions hf he, hnone ho.symm,
      hnone (show f.start ≠ o from fun h => ho (h.symm.trans hstart.symm))]
  obtain ⟨m, hm⟩ : ∃ m, l.length + 1 = e.start + (m + 1) := ⟨l.length - e.start, by omega⟩
  have hbefore : (List.range' 0 e.start).flatMap (emit l (before ++ e :: f :: after))
      = (List.range' 0 e.start).flatMap (emit l (before ++ f :: e :: after)) := by
    refine List.flatMap_congr fun o ho => hother o ?_
    have := (List.mem_range'_1.mp ho).2
    omega
  have hafter : (List.range' (e.start + 1) m).flatMap (emit l (before ++ e :: f :: after))
      = (List.range' (e.start + 1) m).flatMap (emit l (before ++ f :: e :: after)) := by
    refine List.flatMap_congr fun o ho => hother o ?_
    have := (List.mem_range'_1.mp ho).1
    omega
  unfold substitute at h
  rw [List.range_eq_range', hm, ← List.range'_append_1, List.flatMap_append, List.flatMap_append,
    hbefore, Nat.zero_add, List.range'_succ, List.flatMap_cons, List.flatMap_cons, hafter,
    emit_insertions he hf, emit_insertions hf he, hown he, hstart, hown hf] at h
  have hplace := List.append_cancel_right (List.append_cancel_left h)
  exact List.append_cancel_left (List.append_cancel_right hplace)

end Splice
