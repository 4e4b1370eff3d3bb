/-
Pegium/Lsp/DefaultFuzzyMatcher.lean

The fuzzy matcher of the workspace symbols and of the completion: one pass over the
text, which waits for the first character of the query at the start of a word and
takes every later character where it comes first.

Taking characters early loses nothing: the matcher answers yes exactly when the query
can be placed in the text at all, its characters one after the other and the first
one at the start of a word (`fuzzyMatch_iff`).

An underscore that follows an underscore does not start a word.  The source asks for
`current != underscore` there, and so `_` is not found in `a__` (`underscore_hidden`).
-/
import Mathlib.Data.List.NodupEquivFin
import Mathlib.Order.Fin.Tuple

namespace Pegium

namespace DefaultFuzzyMatcher

/-! ### The source -/

/-- The byte `_`. -/
def underscore : UInt8 := 95

/-- A lower-case letter. -/
def isLower (value : UInt8) : Bool := 97 ≤ value && value ≤ 122

/-- An upper-case letter. -/
def isUpper (value : UInt8) : Bool := 65 ≤ value && value ≤ 90

/-- The upper-case letter of a lower-case one. -/
def to_upper (value : UInt8) : UInt8 :=
  if isLower value then value - 32 else value

/-- A word begins: at a capital behind a small letter, or behind an underscore. -/
def is_word_transition (previous current : UInt8) : Bool :=
  isLower previous && isUpper current || previous == underscore && current != underscore

/-- The start of the text, or a word transition. -/
def startsWord (transition : UInt8 → UInt8 → Bool) : Option UInt8 → UInt8 → Bool
  | none, _ => true
  | some previous, current => transition previous current

/-- The pass over the text.  The place in the query is one of the query, so that
`query[character]` is there. -/
def scan (query : List UInt8) : List UInt8 → Bool → Option UInt8 → Fin query.length → Bool
  | [], _, _, _ => false
  | current :: text, matchedFirstCharacter, previous, character =>
    let expected := query.get character
    if current = expected ∨ to_upper current = to_upper expected then
      let matchedFirstCharacter :=
        matchedFirstCharacter || startsWord is_word_transition previous current
      if matchedFirstCharacter then
        if h : character.val + 1 = query.length then true
        else
          scan query text true (some current)
            ⟨character.val + 1, Nat.lt_of_le_of_ne character.isLt h⟩
      else scan query text false (some current) character
    else scan query text matchedFirstCharacter (some current) character

/-- `match`. -/
def fuzzyMatch (query text : List UInt8) : Bool :=
  if h : query = [] then true
  else scan query text false none ⟨0, List.length_pos_of_ne_nil h⟩

/-! ### Placing the query in the text -/

/-- The query, placed in the text in order and up to case, its first character at the
start of the text or where the transition says that a word begins. -/
structure Embedding (transition : UInt8 → UInt8 → Bool) (query text : List UInt8) where
  place : Fin query.length → Fin text.length
  increasing : StrictMono place
  matched : ∀ i, to_upper (query.get i) = to_upper (text.get (place i))
  start : ∀ h : 0 < query.length, (place ⟨0, h⟩).val = 0 ∨
    ∃ k previous, (place ⟨0, h⟩).val = k + 1 ∧ text[k]? = some previous ∧
      transition previous (text.get (place ⟨0, h⟩)) = true

/-- A word starts at a place of the text, after what is before the text. -/
def WordStart (transition : UInt8 → UInt8 → Bool) : Option UInt8 → List UInt8 → ℕ → Prop
  | _, [], _ => False
  | previous, current :: _, 0 => startsWord transition previous current = true
  | _, current :: text, k + 1 => WordStart transition (some current) text k

/-- The first character at a place of the text, and the others behind it. -/
def PlacedAt (transition : UInt8 → UInt8 → Bool) (previous : Option UInt8) (first : UInt8)
    (query text : List UInt8) (k : ℕ) : Prop :=
  WordStart transition previous text k ∧
    (text[k]?).map to_upper = some (to_upper first) ∧
    (query.map to_upper).Sublist ((text.drop (k + 1)).map to_upper)

variable {transition : UInt8 → UInt8 → Bool} {query text : List UInt8} {previous : Option UInt8}

theorem wordStart_iff {k : ℕ} : WordStart transition previous text k ↔
    ∃ current, text[k]? = some current ∧
      ((k = 0 ∧ startsWord transition previous current = true) ∨
        ∃ j before, k = j + 1 ∧ text[j]? = some before ∧ transition before current = true) := by
  induction text generalizing previous k with
  | nil => simp [WordStart]
  | cons first text ih =>
    cases k with
    | zero => simp [WordStart]
    | succ k =>
      rw [WordStart, ih]
      simp only [List.getElem?_cons_succ, Nat.add_eq_zero_iff, Nat.one_ne_zero, and_false,
        false_and, false_or, Nat.add_right_cancel_iff]
      refine exists_congr fun current => and_congr_right fun _ => ?_
      constructor
      · rintro (⟨rfl, hstart⟩ | ⟨j, before, rfl, hbefore, htransition⟩)
        · exact ⟨0, first, rfl, rfl, hstart⟩
        · exact ⟨j + 1, before, rfl, hbefore, htransition⟩
      · rintro ⟨j, before, hj, hbefore, htransition⟩
        subst hj
        cases k with
        | zero =>
          cases hbefore
          exact .inl ⟨rfl, htransition⟩
        | succ j => exact .inr ⟨j, before, rfl, hbefore, htransition⟩

/-! ### An embedding is a place for the first character -/

/-- A sublist, by the places of its elements. -/
theorem sublist_iff_exists_places {α : Type} {l l' : List α} {n : ℕ} (hn : l.length = n) :
    l.Sublist l' ↔ ∃ place : Fin n → ℕ, StrictMono place ∧ ∀ i, l'[place i]? = l[i.val]? := by
  subst hn
  rw [List.sublist_iff_exists_fin_orderEmbedding_get_eq]
  constructor
  · rintro ⟨f, hf⟩
    refine ⟨fun i => (f i).val, fun i j hij => f.strictMono hij, fun i => ?_⟩
    rw [List.getElem?_eq_getElem (f i).isLt, List.getElem?_eq_getElem i.isLt]
    exact congrArg some (hf i).symm
  · rintro ⟨place, hmono, hplace⟩
    have hlt : ∀ i, place i < l'.length := by
      intro i
      have hsome := hplace i
      rw [List.getElem?_eq_getElem i.isLt] at hsome
      exact (List.getElem?_eq_some_iff.mp hsome).1
    refine ⟨OrderEmbedding.ofStrictMono (fun i => ⟨place i, hlt i⟩) fun i j hij => hmono hij,
      fun i => ?_⟩
    have hsome := hplace i
    rw [List.getElem?_eq_getElem i.isLt] at hsome
    exact (List.getElem?_eq_some_iff.mp hsome).2.symm

/-- The place of the first character, and what is behind it. -/
theorem Embedding.placedAt {first : UInt8} (e : Embedding transition (first :: query) text) :
    ∃ k, PlacedAt transition none first query text k := by
  have hlength : 0 < (first :: query).length := Nat.succ_pos _
  obtain ⟨k, hk⟩ : ∃ k, k = e.place ⟨0, hlength⟩ := ⟨_, rfl⟩
  refine ⟨k.val, wordStart_iff.mpr ⟨text.get k, List.getElem?_eq_getElem k.isLt, ?_⟩, ?_, ?_⟩
  · obtain hzero | ⟨j, before, hj, hbefore, htransition⟩ := e.start hlength
    · exact .inl ⟨hk ▸ hzero, rfl⟩
    · exact .inr ⟨j, before, hk ▸ hj, hbefore, hk ▸ htransition⟩
  · rw [List.getElem?_eq_getElem k.isLt]
    exact congrArg some (hk ▸ (e.matched ⟨0, hlength⟩).symm)
  · -- the other characters lie behind the first one, so their places can be counted from there
    have hbehind : ∀ i : Fin query.length, k.val + 1 ≤ (e.place i.succ).val := by
      intro i
      have hlt : e.place ⟨0, hlength⟩ < e.place i.succ := e.increasing (Fin.succ_pos i)
      rw [← hk] at hlt
      exact hlt
    refine (sublist_iff_exists_places (List.length_map _)).mpr
      ⟨fun i => (e.place i.succ).val - (k.val + 1), fun i j hij => ?_, fun i => ?_⟩
    · have hlt : e.place i.succ < e.place j.succ := e.increasing (Fin.succ_lt_succ_iff.mpr hij)
      exact Nat.sub_lt_sub_right (hbehind i) hlt
    · rw [List.getElem?_map, List.getElem?_map, List.getElem?_drop,
        Nat.add_sub_cancel' (hbehind i), List.getElem?_eq_getElem (e.place i.succ).isLt,
        List.getElem?_eq_getElem i.isLt]
      exact congrArg some (e.matched i.succ).symm

theorem PlacedAt.embedding {first : UInt8} {k : ℕ}
    (h : PlacedAt transition none first query text k) :
    Nonempty (Embedding transition (first :: query) text) := by
  obtain ⟨hword, hfirst, hothers⟩ := h
  obtain ⟨current, hcurrent, hstart⟩ := wordStart_iff.mp hword
  obtain ⟨hk, rfl⟩ := List.getElem?_eq_some_iff.mp hcurrent
  obtain ⟨place, hmono, hplace⟩ := (sublist_iff_exists_places (List.length_map _)).mp hothers
  simp only [List.getElem?_map, List.getElem?_drop] at hplace
  have hbound : ∀ i, k + 1 + place i < text.length ∧
      (text[k + 1 + place i]?).map to_upper = some (to_upper (query.get i)) := by
    intro i
    have hsome := hplace i
    rw [List.getElem?_eq_getElem i.isLt] at hsome
    refine ⟨?_, hsome⟩
    obtain ⟨c, hc, -⟩ := Option.map_eq_some_iff.mp hsome
    exact (List.getElem?_eq_some_iff.mp hc).1
  refine ⟨⟨Fin.cons ⟨k, hk⟩ fun i => ⟨k + 1 + place i, (hbound i).1⟩, ?_, ?_, fun _ => ?_⟩⟩
  · refine Fin.strictMono_cons.mpr ⟨fun i => ?_, fun i j hij => ?_⟩
    · exact Nat.lt_of_lt_of_le (Nat.lt_succ_self k) (Nat.le_add_right _ _)
    · exact Nat.add_lt_add_left (hmono hij) _
  · refine Fin.cases ?_ fun i => ?_
    · rw [List.getElem?_eq_getElem hk] at hfirst
      exact (Option.some.inj hfirst).symm
    · obtain ⟨hlt, hsome⟩ := hbound i
      rw [List.getElem?_eq_getElem hlt] at hsome
      exact (Option.some.inj hsome).symm
  · obtain ⟨hzero, -⟩ | ⟨j, before, hj, hbefore, htransition⟩ := hstart
    · exact .inl hzero
    · exact .inr ⟨j, before, hj, hbefore, htransition⟩

/-- **A query can be placed where its first character can be.** -/
theorem embedding_iff {first : UInt8} : Nonempty (Embedding transition (first :: query) text) ↔
    ∃ k, PlacedAt transition none first query text k := by
  constructor
  · rintro ⟨e⟩
    exact e.placedAt
  · rintro ⟨k, h⟩
    exact h.embedding

/-! ### The pass over the text -/

theorem same_iff {current expected : UInt8} :
    (current = expected ∨ to_upper current = to_upper expected) ↔
      to_upper expected = to_upper current :=
  ⟨fun h => h.elim (fun h => h ▸ rfl) Eq.symm, fun h => .inr h.symm⟩

/-- After the first character, the pass finds the rest of the query in the rest of the
text. -/
theorem scan_rest {character : Fin query.length} : scan query text true previous character = true ↔
    ((query.drop character).map to_upper).Sublist (text.map to_upper) := by
  induction text generalizing previous character with
  | nil =>
    rw [List.drop_eq_getElem_cons character.isLt]
    simp [scan]
  | cons current text ih =>
    simp only [scan, same_iff, Bool.true_or, if_true]
    by_cases hsame : to_upper (query.get character) = to_upper current
    · rw [if_pos hsame, List.drop_eq_getElem_cons character.isLt, List.map_cons, List.map_cons,
        ← hsame]
      refine Iff.trans ?_ List.cons_sublist_cons.symm
      split
      next hlast =>
        rw [hlast, List.drop_length]
        exact iff_of_true rfl (List.nil_sublist _)
      next hlast => exact ih
    · rw [if_neg hsame, ih, List.drop_eq_getElem_cons character.isLt, List.map_cons]
      constructor
      · exact fun h => h.cons _
      · exact fun h => h.of_cons_of_ne hsame

/-- A place behind the first character of the text. -/
theorem placedAt_succ {first current : UInt8} {k : ℕ} :
    PlacedAt transition previous first query (current :: text) (k + 1) ↔
      PlacedAt transition (some current) first query text k := Iff.rfl

/-- Before it, the pass looks for a place for the first character.  When that is the first
character of the text, the places behind it are not needed any more. -/
theorem scan_first {first : UInt8} :
    scan (first :: query) text false previous ⟨0, Nat.succ_pos _⟩ = true ↔
      ∃ k, PlacedAt is_word_transition previous first query text k := by
  induction text generalizing previous with
  | nil =>
    refine iff_of_false Bool.false_ne_true ?_
    rintro ⟨k, hword, -⟩
    exact hword
  | cons current text ih =>
    have hbehind : (∃ k, PlacedAt is_word_transition (some current) first query text k) →
        (query.map to_upper).Sublist (text.map to_upper) := by
      rintro ⟨k, -, -, hothers⟩
      exact hothers.trans ((List.drop_sublist _ _).map _)
    have hplaces : (∃ k, PlacedAt is_word_transition previous first query (current :: text) k) ↔
        PlacedAt is_word_transition previous first query (current :: text) 0 ∨
          ∃ k, PlacedAt is_word_transition (some current) first query text k := by
      refine ⟨?_, ?_⟩
      · rintro ⟨k, h⟩
        cases k with
        | zero => exact .inl h
        | succ k => exact .inr ⟨k, placedAt_succ.mp h⟩
      · rintro (h | ⟨k, h⟩)
        · exact ⟨0, h⟩
        · exact ⟨k + 1, placedAt_succ.mpr h⟩
    rw [hplaces]
    simp only [scan, same_iff, Bool.false_or, List.get_eq_getElem, List.getElem_cons_zero]
    by_cases hsame : to_upper first = to_upper current
    · rw [if_pos hsame]
      by_cases hstart : startsWord is_word_transition previous current = true
      · rw [if_pos hstart]
        have hzero : PlacedAt is_word_transition previous first query (current :: text) 0 ↔
            (query.map to_upper).Sublist (text.map to_upper) :=
          ⟨fun h => h.2.2, fun h => ⟨hstart, congrArg some hsame.symm, h⟩⟩
        rw [hzero, or_iff_left_of_imp hbehind]
        split
        next hlast =>
          have hnil : query = [] := List.length_eq_zero_iff.mp (Nat.succ.inj hlast).symm
          rw [hnil]
          exact iff_of_true rfl (List.nil_sublist _)
        next hlast => exact scan_rest
      · rw [if_neg hstart, ih]
        exact (or_iff_right fun h => hstart h.1).symm
    · rw [if_neg hsame, ih]
      exact (or_iff_right fun h => hsame (Option.some.inj h.2.1).symm).symm

/-- **The pass finds every placing**: a query matches exactly when it can be placed in the
text, its first character at the start of the text, at an upper case letter after a lower
case one, or after an underscore without being one. -/
theorem fuzzyMatch_iff (query text : List UInt8) :
    fuzzyMatch query text = true ↔ Nonempty (Embedding is_word_transition query text) := by
  cases query with
  | nil =>
    refine iff_of_true rfl ⟨⟨fun i => i.elim0, fun i => i.elim0, fun i => i.elim0, ?_⟩⟩
    exact fun h => absurd h (Nat.lt_irrefl 0)
  | cons first query =>
    rw [embedding_iff, ← scan_first]
    rfl

/-! ### Two underscores -/

/-- A word that begins after any underscore. -/
def after_underscore (previous current : UInt8) : Bool :=
  isLower previous && isUpper current || previous == underscore

/-- **An underscore after an underscore is hidden**: `_` is not found in `a__`. -/
theorem underscore_hidden : ¬ (fuzzyMatch [95] [97, 95, 95] = true ↔
    Nonempty (Embedding after_underscore [95] [97, 95, 95])) := by
  intro h
  have hplaced : PlacedAt after_underscore none 95 [] [97, 95, 95] 2 :=
    ⟨rfl, rfl, List.nil_sublist _⟩
  have hfound : fuzzyMatch [95] [97, 95, 95] = true := h.mpr hplaced.embedding
  exact Bool.false_ne_true hfound

end DefaultFuzzyMatcher

end Pegium
