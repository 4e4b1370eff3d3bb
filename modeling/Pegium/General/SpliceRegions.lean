/-
Pegium/General/SpliceRegions.lean

Regions of a list that splices are substituted in.

The result of a substitution is read place by place, so it is made of what stands in
each region afterwards.  A region that no splice reaches into stays as it is, one that a
splice covers becomes the text of the splice, and elsewhere there is nothing but texts of
splices and elements of the list, these in their order (`filter_region_sublist`).  What is
inserted where a region begins stands before the region.
-/
import Mathlib.Data.List.Flatten
import Pegium.General.Splice

universe u

namespace Splice

variable {α : Type u} {l : List α} {e : Splice α} {edits : List (Splice α)} {a b c : ℕ}

/-- What stands between two places afterwards. -/
def region (l : List α) (edits : List (Splice α)) (a b : ℕ) : List α :=
  (List.range' a (b - a)).flatMap (emit l edits)

theorem substitute_eq_region (l : List α) (edits : List (Splice α)) :
    substitute l edits = region l edits 0 (l.length + 1) := by
  rw [substitute, List.range_eq_range']
  rfl

@[simp] theorem region_self (l : List α) (edits : List (Splice α)) (a : ℕ) :
    region l edits a a = [] := by
  rw [region, Nat.sub_self]
  rfl

theorem region_append (h : a ≤ b) (h' : b ≤ c) :
    region l edits a c = region l edits a b ++ region l edits b c := by
  have hrange : List.range' a (c - a) = List.range' a (b - a) ++ List.range' b (c - b) := by
    rw [show c - a = (b - a) + (c - b) by omega, ← List.range'_append_1,
      show a + (b - a) = b by omega]
  rw [region, hrange, List.flatMap_append]
  rfl

theorem region_succ (h : a < b) :
    region l edits a b = emit l edits a ++ region l edits (a + 1) b := by
  rw [region, show b - a = (b - (a + 1)) + 1 by omega, List.range'_succ, List.flatMap_cons]
  rfl

/-- A region that no splice reaches into. -/
theorem region_untouched (hab : a < b) (h : ∀ e ∈ edits, e.stop ≤ a ∨ b ≤ e.start) :
    region l edits a b = insertions edits a ++ (l.drop a).take (b - a) := by
  have hemit : ∀ o, a ≤ o → o < b → emit l edits o = insertions edits o ++ (l.drop o).take 1 := by
    intro o ho hob
    unfold emit
    rw [replacement_eq_nil, covered_eq_false, if_neg Bool.false_ne_true, List.append_nil]
    · intro e he _
      rcases h e he with hstop | hstart <;> omega
    · intro e he _
      rcases h e he with hstop | hstart <;> omega
  have hinner : region l edits (a + 1) b = (l.drop (a + 1)).take (b - (a + 1)) := by
    rw [← flatMap_take_one, region]
    refine List.flatMap_congr fun o ho => ?_
    obtain ⟨hao, hob⟩ := List.mem_range'_1.mp ho
    rw [hemit o (by omega) (by omega), insertions_eq_nil, List.nil_append]
    intro e he hstop hstart
    rcases h e he with hle | hle <;> omega
  rw [region_succ hab, hemit a (Nat.le_refl a) hab, hinner, List.append_assoc, ← List.drop_drop,
    ← List.take_add, show 1 + (b - (a + 1)) = b - a by omega]

/-- A region that a splice covers. -/
theorem region_replaced (hab : e.start < e.stop) (hmem : e ∈ edits)
    (hapart : edits.Pairwise Apart) :
    region l edits e.start e.stop = insertions edits e.start ++ e.text := by
  obtain ⟨before, after, rfl⟩ := List.append_of_mem hmem
  have hothers : ∀ f ∈ before ++ after, f.stop ≤ e.start ∨ e.stop ≤ f.start := by
    obtain ⟨-, hafter, hcross⟩ := List.pairwise_append.mp hapart
    intro f hf
    rcases List.mem_append.mp hf with hf | hf
    · exact hcross f hf e List.mem_cons_self
    · exact ((List.pairwise_cons.mp hafter).1 f hf).symm
  have hbefore : ∀ f ∈ before, f.stop ≤ e.start ∨ e.stop ≤ f.start :=
    fun f hf => hothers f (List.mem_append_left _ hf)
  have hafter : ∀ f ∈ after, f.stop ≤ e.start ∨ e.stop ≤ f.start :=
    fun f hf => hothers f (List.mem_append_right _ hf)
  -- The others begin and stop nowhere inside.
  have hnone : ∀ {fs : List (Splice α)} {o : ℕ}, (∀ f ∈ fs, f.stop ≤ e.start ∨ e.stop ≤ f.start) →
      e.start ≤ o → o < e.stop → replacement fs o = [] := by
    intro fs o hfs ho hoe
    refine replacement_eq_nil fun f hf hstart => ?_
    rcases hfs f hf with hle | hle <;> omega
  have hcovered : ∀ o, e.start ≤ o → o < e.stop → covered (before ++ e :: after) o = true := by
    intro o ho hoe
    refine List.any_eq_true.mpr ⟨e, hmem, ?_⟩
    exact decide_eq_true ⟨ho, hoe⟩
  have hfirst : emit l (before ++ e :: after) e.start
      = insertions (before ++ e :: after) e.start ++ e.text := by
    have hown : replacement (e :: after) e.start = e.text ++ replacement after e.start := by
      rw [replacement, List.filter_cons_of_pos, List.flatMap_cons]
      · rfl
      · exact decide_eq_true ⟨rfl, hab⟩
    rw [emit, hcovered e.start (Nat.le_refl _) hab, if_pos rfl, List.append_nil,
      replacement_append, hown, hnone hbefore (Nat.le_refl _) hab,
      hnone hafter (Nat.le_refl _) hab, List.nil_append, List.append_nil]
  have hinner : region l (before ++ e :: after) (e.start + 1) e.stop = [] := by
    refine List.flatMap_eq_nil_iff.mpr fun o ho => ?_
    obtain ⟨hao, hob⟩ := List.mem_range'_1.mp ho
    have ho : e.start ≤ o := by omega
    have hoe : o < e.stop := by omega
    have hown : replacement (e :: after) o = replacement after o := by
      rw [replacement, List.filter_cons_of_neg]
      · rfl
      · rw [decide_eq_true_eq]
        omega
    rw [emit, hcovered o ho hoe, if_pos rfl, List.append_nil, replacement_append, hown,
      hnone hbefore ho hoe, hnone hafter ho hoe, insertions_eq_nil]
    · rfl
    · intro f hf hstop hstart
      rcases List.mem_append.mp hf with hf | hf
      · rcases hbefore f hf with hle | hle <;> omega
      · rcases List.mem_cons.mp hf with rfl | hf
        · omega
        · rcases hafter f hf with hle | hle <;> omega
  rw [region_succ hab, hfirst, hinner, List.append_nil]

theorem mem_insertions {x : α} {o : ℕ} (h : x ∈ insertions edits o) :
    ∃ e ∈ edits, e.start = o ∧ e.stop = o ∧ x ∈ e.text := by
  obtain ⟨e, he, hx⟩ := List.mem_flatMap.mp h
  obtain ⟨hmem, hplace⟩ := List.mem_filter.mp he
  obtain ⟨hstart, hstop⟩ := of_decide_eq_true hplace
  exact ⟨e, hmem, hstart, hstop, hx⟩

/-- What is left of a region, apart from the texts of splices that a filter drops. -/
theorem filter_region_sublist (p : α → Bool)
    (h : ∀ e ∈ edits, a ≤ e.start → e.start < b → e.text.filter p = []) :
    ((region l edits a b).filter p).Sublist (((l.drop a).take (b - a)).filter p) := by
  rw [← flatMap_take_one, region, List.filter_flatMap, List.filter_flatMap]
  refine List.Sublist.flatMap_right _ fun o ho => ?_
  obtain ⟨hao, hob⟩ := List.mem_range'_1.mp ho
  have hdropped : ∀ fs : List (Splice α), (∀ e ∈ fs, e ∈ edits ∧ e.start = o) →
      (fs.flatMap text).filter p = [] := by
    intro fs hfs
    rw [List.filter_flatMap, List.flatMap_eq_nil_iff]
    intro e he
    obtain ⟨hmem, hstart⟩ := hfs e he
    exact h e hmem (by omega) (by omega)
  have hinsertions : (insertions edits o).filter p = [] := hdropped _ fun e he => by
    obtain ⟨hmem, hplace⟩ := List.mem_filter.mp he
    exact ⟨hmem, (of_decide_eq_true hplace).1⟩
  have hreplacement : (replacement edits o).filter p = [] := hdropped _ fun e he => by
    obtain ⟨hmem, hplace⟩ := List.mem_filter.mp he
    exact ⟨hmem, (of_decide_eq_true hplace).1⟩
  rw [emit, List.filter_append, List.filter_append, hinsertions, hreplacement, List.nil_append,
    List.nil_append]
  split
  · exact List.nil_sublist _
  · exact List.Sublist.refl _

/-- Something stands at a place afterwards, unless a splice that begins before it covers it or
one that begins there has no text. -/
theorem emit_ne_nil {o : ℕ} (ho : o < l.length)
    (h : ∀ e ∈ edits, e.start ≤ o → o < e.stop → e.start = o ∧ e.text ≠ []) :
    emit l edits o ≠ [] := by
  intro hnil
  rw [emit, List.append_eq_nil_iff, List.append_eq_nil_iff] at hnil
  obtain ⟨⟨-, hreplacement⟩, helement⟩ := hnil
  split at helement
  next hcovered =>
    obtain ⟨e, he, hplace⟩ := List.any_eq_true.mp hcovered
    obtain ⟨hstart, hstop⟩ := of_decide_eq_true hplace
    obtain ⟨heq, htext⟩ := h e he hstart hstop
    exact htext (List.flatMap_eq_nil_iff.mp hreplacement e
      (List.mem_filter.mpr ⟨he, decide_eq_true ⟨heq, hstop⟩⟩))
  next =>
    have hlength := congrArg List.length helement
    rw [List.length_take, List.length_drop, List.length_nil] at hlength
    omega

end Splice
