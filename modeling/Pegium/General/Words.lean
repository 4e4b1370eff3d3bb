/-
Pegium/General/Words.lean

Words and blanks.

The words of a text are what its blanks leave apart (`words`).  A text is trimmed when
the blanks at its ends are dropped (`trim`), and compact when its words are put together
again with single spaces (`compact`).  Both keep the words, and both leave alone what
they made.
-/
import Mathlib.Data.List.DropRight
import Mathlib.Data.List.TakeWhile

namespace Words

variable {α : Type*} {blank : α → Bool} {space c : α} {x y t w a b : List α} {ws : List (List α)}

variable (blank) in
/-- What the blanks of a text leave apart. -/
def words (x : List α) : List (List α) := (x.splitOnP blank).filter fun w => !w.isEmpty

variable (blank) in
/-- The text without the blanks at its ends. -/
def trim (x : List α) : List α := (x.dropWhile blank).rdropWhile blank

variable (blank space) in
/-- The words with single spaces between them. -/
def compact (x : List α) : List α := [space].intercalate (words blank x)

variable (blank) in
/-- A text that has no blanks at its ends. -/
structure Tight (x : List α) : Prop where
  head : ∀ c ∈ x.head?, blank c = false
  last : ∀ c ∈ x.getLast?, blank c = false

/-! ### Words -/

@[simp] theorem words_nil : words blank [] = [] := by
  simp [words]

/-- **Words split at a blank.** -/
theorem words_append_cons (hc : blank c = true) (x y : List α) :
    words blank (x ++ c :: y) = words blank x ++ words blank y := by
  unfold words
  rw [List.splitOnP_append_cons x y hc, List.filter_append]

theorem words_cons (hc : blank c = true) (x : List α) : words blank (c :: x) = words blank x := by
  have hsplit := words_append_cons hc [] x
  rwa [List.nil_append, words_nil, List.nil_append] at hsplit

theorem words_blank_append (ha : ∀ c ∈ a, blank c = true) (x : List α) :
    words blank (a ++ x) = words blank x := by
  induction a with
  | nil => rfl
  | cons c a ih =>
    rw [List.cons_append, words_cons (ha c List.mem_cons_self)]
    exact ih fun d hd => ha d (List.mem_cons_of_mem _ hd)

theorem words_eq_nil (hb : ∀ c ∈ b, blank c = true) : words blank b = [] := by
  have hwords := words_blank_append hb []
  rwa [List.append_nil, words_nil] at hwords

theorem words_append_blank (hb : ∀ c ∈ b, blank c = true) (x : List α) :
    words blank (x ++ b) = words blank x := by
  cases b with
  | nil => rw [List.append_nil]
  | cons c b =>
    rw [words_append_cons (hb c List.mem_cons_self),
      words_eq_nil fun d hd => hb d (List.mem_cons_of_mem _ hd), List.append_nil]

theorem words_of_forall (hne : w ≠ []) (hw : ∀ c ∈ w, blank c = false) : words blank w = [w] := by
  rw [words, List.splitOnP_eq_singleton hw]
  simp [hne]

/-- A word goes on up to the next blank. -/
theorem words_cons_of_not (hc : blank c = false) (x : List α) :
    words blank (c :: x) = (c :: x.takeWhile fun d => !blank d) ::
      words blank (x.dropWhile fun d => !blank d) := by
  have hword : words blank (c :: x.takeWhile fun d => !blank d)
      = [c :: x.takeWhile fun d => !blank d] := by
    refine words_of_forall (List.cons_ne_nil _ _) fun d hd => ?_
    rcases List.mem_cons.mp hd with rfl | hd
    · exact hc
    · simpa using List.mem_takeWhile_imp hd
  cases hrest : x.dropWhile fun d => !blank d with
  | nil =>
    have hall := List.takeWhile_append_dropWhile (p := fun d => !blank d) (l := x)
    rw [hrest, List.append_nil] at hall
    rw [hall] at hword ⊢
    rw [hword, words_nil]
  | cons d rest =>
    have hd : blank d = true := by
      have hhead := List.head?_dropWhile_not (fun d => !blank d) x
      rw [hrest] at hhead
      simpa using hhead
    have hall := List.takeWhile_append_dropWhile (p := fun d => !blank d) (l := x)
    rw [hrest] at hall
    have hsplit := words_append_cons hd (c :: x.takeWhile fun d => !blank d) rest
    rw [List.cons_append, hall, hword] at hsplit
    rw [hsplit, words_cons hd, List.singleton_append]

theorem mem_splitOnP {x : List α} (hw : w ∈ x.splitOnP blank) : ∀ c ∈ w, blank c = false := by
  induction x generalizing w with
  | nil =>
    rw [List.splitOnP_nil, List.mem_singleton] at hw
    subst hw
    exact fun c hc => nomatch hc
  | cons d x ih =>
    rw [List.splitOnP_cons_eq_if_modifyHead] at hw
    split at hw
    next =>
      rcases List.mem_cons.mp hw with rfl | hw
      · exact fun c hc => nomatch hc
      · exact ih hw
    next hd =>
      obtain ⟨first, rest, hsplit⟩ := List.exists_cons_of_ne_nil (List.splitOnP_ne_nil blank x)
      rw [hsplit, List.modifyHead_cons] at hw
      rcases List.mem_cons.mp hw with rfl | hw
      · intro c hc
        rcases List.mem_cons.mp hc with rfl | hc
        · exact Bool.eq_false_iff.mpr hd
        · exact ih (by rw [hsplit]; exact List.mem_cons_self) c hc
      · exact ih (by rw [hsplit]; exact List.mem_cons_of_mem _ hw)

theorem mem_words (hw : w ∈ words blank x) : w ≠ [] ∧ ∀ c ∈ w, blank c = false := by
  rw [words, List.mem_filter] at hw
  exact ⟨by simpa using hw.2, mem_splitOnP hw.1⟩

theorem words_eq_nil_iff : words blank x = [] ↔ ∀ c ∈ x, blank c = true := by
  refine ⟨fun h c hc => ?_, words_eq_nil⟩
  by_contra hvisible
  obtain ⟨before, behind, rfl⟩ := List.append_of_mem hc
  induction before with
  | nil =>
    rw [List.nil_append, words_cons_of_not (Bool.eq_false_iff.mpr hvisible)] at h
    exact absurd h (List.cons_ne_nil _ _)
  | cons d before ih =>
    cases hd : blank d with
    | true =>
      rw [List.cons_append, words_cons hd] at h
      exact ih h (by simp)
    | false =>
      rw [List.cons_append, words_cons_of_not hd] at h
      exact absurd h (List.cons_ne_nil _ _)

/-- Words are put together as they were. -/
theorem words_intercalate (hspace : blank space = true)
    (hws : ∀ w ∈ ws, w ≠ [] ∧ ∀ c ∈ w, blank c = false) :
    words blank ([space].intercalate ws) = ws := by
  induction ws with
  | nil => exact words_nil
  | cons w ws ih =>
    obtain ⟨hne, hw⟩ := hws w List.mem_cons_self
    have hrest := ih fun v hv => hws v (List.mem_cons_of_mem _ hv)
    cases ws with
    | nil =>
      rw [List.intercalate_singleton]
      exact words_of_forall hne hw
    | cons v ws =>
      rw [List.intercalate_cons_cons, List.append_assoc, List.singleton_append,
        words_append_cons hspace, hrest, words_of_forall hne hw, List.singleton_append]

/-- The blanks are no part of the words. -/
theorem flatten_words (x : List α) :
    (words blank x).flatten = x.filter fun c => !blank c := by
  rw [words, List.flatten_filter_not_isEmpty]
  induction x with
  | nil => simp
  | cons c x ih =>
    rw [List.splitOnP_cons_eq_if_modifyHead]
    split
    next hc => rw [List.flatten_cons, List.nil_append, ih, List.filter_cons_of_neg (by simp [hc])]
    next hc =>
      obtain ⟨first, rest, hsplit⟩ := List.exists_cons_of_ne_nil (List.splitOnP_ne_nil blank x)
      rw [List.filter_cons_of_pos (by simp [hc]), ← ih, hsplit, List.modifyHead_cons,
        List.flatten_cons, List.flatten_cons, List.cons_append]

theorem filter_of_words (h : words blank x = words blank y) :
    (x.filter fun c => !blank c) = y.filter fun c => !blank c := by
  rw [← flatten_words, h, flatten_words]

/-- Texts with the same words have the same characters, but for blanks. -/
theorem mem_of_words (h : words blank x = words blank y) (hc : blank c = false) (hx : c ∈ x) :
    c ∈ y := by
  have hmem : c ∈ x.filter fun c => !blank c := List.mem_filter.mpr ⟨hx, by simp [hc]⟩
  rw [filter_of_words h] at hmem
  exact (List.mem_filter.mp hmem).1

theorem count_of_words [BEq α] [LawfulBEq α] (h : words blank x = words blank y)
    (hc : blank c = false) : x.count c = y.count c := by
  rw [← List.count_filter (p := fun c => !blank c) (by simp [hc]), filter_of_words h,
    List.count_filter (by simp [hc])]

/-! ### Trimming -/

theorem exists_trim (x : List α) : ∃ a b, x = a ++ (trim blank x ++ b) ∧
    (∀ c ∈ a, blank c = true) ∧ (∀ c ∈ b, blank c = true) := by
  refine ⟨x.takeWhile blank, (x.dropWhile blank).rtakeWhile blank, ?_, ?_, ?_⟩
  · rw [trim, List.rdropWhile_append_rtakeWhile, List.takeWhile_append_dropWhile]
  · exact fun c hc => List.mem_takeWhile_imp hc
  · exact fun c hc => List.mem_rtakeWhile_imp hc

theorem words_trim (x : List α) : words blank (trim blank x) = words blank x := by
  obtain ⟨a, b, hx, ha, hb⟩ := @exists_trim _ blank x
  conv_rhs => rw [hx, words_blank_append ha, words_append_blank hb]

theorem tight_trim (x : List α) : Tight blank (trim blank x) := by
  constructor
  · intro c hc
    obtain ⟨b, hb⟩ := List.rdropWhile_prefix blank (x.dropWhile blank)
    have hhead := List.head?_dropWhile_not blank x
    rw [← hb, List.head?_append] at hhead
    rw [trim] at hc
    rw [Option.mem_def.mp hc] at hhead
    simpa using hhead
  · intro c hc
    have hne : trim blank x ≠ [] := by
      rintro hnil
      rw [hnil] at hc
      exact nomatch hc
    have hlast := List.rdropWhile_last_not blank (x.dropWhile blank) hne
    rw [List.getLast?_eq_getLast_of_ne_nil hne, Option.mem_some_iff] at hc
    subst hc
    exact Bool.eq_false_iff.mpr hlast

theorem Tight.trim_eq (h : Tight blank t) : trim blank t = t := by
  have hdrop : t.dropWhile blank = t := by
    cases t with
    | nil => rfl
    | cons c t => rw [List.dropWhile_cons_of_neg (by simp [h.head c rfl])]
  rw [trim, hdrop, List.rdropWhile_eq_self_iff]
  intro hne
  rw [h.last _ (List.getLast?_eq_getLast_of_ne_nil hne)]
  exact Bool.false_ne_true

theorem trim_blank_append (ha : ∀ c ∈ a, blank c = true) (x : List α) :
    trim blank (a ++ x) = trim blank x := by
  rw [trim, List.dropWhile_append_of_pos ha, trim]

theorem trim_append_blank (hb : ∀ c ∈ b, blank c = true) (x : List α) :
    trim blank (x ++ b) = trim blank x := by
  have hdrop : ∀ y : List α, (y ++ b).rdropWhile blank = y.rdropWhile blank := by
    intro y
    rw [List.rdropWhile, List.rdropWhile, List.reverse_append, List.dropWhile_append_of_pos]
    exact fun c hc => hb c (List.mem_reverse.mp hc)
  rw [trim, List.dropWhile_append]
  split
  next hempty =>
    have hnil := List.isEmpty_iff.mp hempty
    have hblank : b.dropWhile blank = [] := List.dropWhile_eq_nil_iff.mpr hb
    rw [hblank, trim, hnil]
  next => rw [hdrop, trim]

theorem trim_trim (x : List α) : trim blank (trim blank x) = trim blank x :=
  (tight_trim x).trim_eq

theorem trim_eq_nil (hb : ∀ c ∈ b, blank c = true) : trim blank b = [] := by
  have htrim := trim_blank_append hb []
  rwa [List.append_nil] at htrim

theorem trim_eq_nil_iff : trim blank x = [] ↔ words blank x = [] := by
  constructor
  · intro h
    rw [← words_trim, h, words_nil]
  · intro h
    exact trim_eq_nil (words_eq_nil_iff.mp h)

/-- What is tight behind blanks is found by trimming. -/
theorem trim_append (ht : Tight blank t) (hne : t ≠ []) (x : List α) :
    trim blank (t ++ x) = t ++ x.rdropWhile blank := by
  obtain ⟨c, rest, rfl⟩ := List.exists_cons_of_ne_nil hne
  have hdrop : (c :: rest ++ x).dropWhile blank = c :: rest ++ x := by
    rw [List.cons_append, List.dropWhile_cons_of_neg (by simp [ht.head c rfl])]
  rw [trim, hdrop]
  induction x using List.reverseRecOn with
  | nil =>
    have htrim := ht.trim_eq
    have hself : (c :: rest).dropWhile blank = c :: rest := by
      rw [List.dropWhile_cons_of_neg (by simp [ht.head c rfl])]
    rw [trim, hself] at htrim
    rw [List.append_nil, htrim, List.rdropWhile_nil, List.append_nil]
  | append_singleton x d ih =>
    rw [← List.append_assoc]
    cases hd : blank d with
    | true =>
      rw [List.rdropWhile_concat_pos _ _ _ hd, List.rdropWhile_concat_pos _ _ _ hd]
      refine ih ?_
      rw [List.cons_append, List.dropWhile_cons_of_neg (by simp [ht.head c rfl])]
    | false =>
      rw [List.rdropWhile_concat_neg _ _ _ (by simp [hd]),
        List.rdropWhile_concat_neg _ _ _ (by simp [hd]), List.append_assoc]

theorem trim_rdropWhile (x : List α) : trim blank (x.rdropWhile blank) = trim blank x := by
  conv_rhs => rw [← @List.rdropWhile_append_rtakeWhile α blank x]
  rw [trim_append_blank fun c hc => List.mem_rtakeWhile_imp hc]

theorem Tight.getLast?_eq (h : Tight blank x) :
    x.getLast? = (x.filter fun c => !blank c).getLast? := by
  rcases List.eq_nil_or_concat x with rfl | ⟨x, c, rfl⟩
  · rfl
  · rw [List.concat_eq_append] at h ⊢
    have hc : blank c = false := h.last c (by simp)
    rw [List.filter_append, List.filter_cons_of_pos (by simp [hc]), List.filter_nil,
      List.getLast?_concat, List.getLast?_concat]

theorem getLast?_of_words (hx : Tight blank x) (hy : Tight blank y)
    (h : words blank x = words blank y) : x.getLast? = y.getLast? := by
  rw [hx.getLast?_eq, filter_of_words h, hy.getLast?_eq]

/-! ### Compact texts -/

theorem words_compact (hspace : blank space = true) (x : List α) :
    words blank (compact blank space x) = words blank x :=
  words_intercalate hspace fun _ hw => mem_words hw

theorem compact_compact (hspace : blank space = true) (x : List α) :
    compact blank space (compact blank space x) = compact blank space x := by
  rw [compact, words_compact hspace, compact]

theorem compact_congr (h : words blank x = words blank y) :
    compact blank space x = compact blank space y := by
  rw [compact, h, compact]

theorem tight_intercalate (hws : ∀ w ∈ ws, w ≠ [] ∧ ∀ c ∈ w, blank c = false) :
    Tight blank ([space].intercalate ws) := by
  induction ws with
  | nil => exact ⟨by simp, by simp⟩
  | cons w ws ih =>
    obtain ⟨hne, hw⟩ := hws w List.mem_cons_self
    have hrest := ih fun v hv => hws v (List.mem_cons_of_mem _ hv)
    cases ws with
    | nil =>
      rw [List.intercalate_singleton]
      exact ⟨fun c hc => hw c (List.mem_of_mem_head? hc),
        fun c hc => hw c (List.mem_of_mem_getLast? hc)⟩
    | cons v ws =>
      have hsome : [space].intercalate (v :: ws) ≠ [] := by
        obtain ⟨hv, -⟩ := hws v (List.mem_cons_of_mem _ List.mem_cons_self)
        cases ws with
        | nil => rwa [List.intercalate_singleton]
        | cons u ws => simp [List.intercalate_cons_cons, hv]
      rw [List.intercalate_cons_cons]
      constructor
      · intro c hc
        rw [List.append_assoc, List.head?_append_of_ne_nil _ hne] at hc
        exact hw c (List.mem_of_mem_head? hc)
      · intro c hc
        rw [List.getLast?_append_of_ne_nil _ hsome] at hc
        exact hrest.last c hc

theorem tight_compact (x : List α) : Tight blank (compact blank space x) :=
  tight_intercalate fun _ hw => mem_words hw

end Words
