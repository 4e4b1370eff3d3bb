/-
Pegium/Workspace/TextEdits.lean

Edits and changes of a text.

`applyEdits` sorts the edits by their positions, the last one first, and replaces ranges
that all mean the original text.  The sort says nothing about edits with the same range,
and a sort that keeps their order applies the first of two insertions first, so that the
second one ends up before it.  So the result is what substituting all edits at once gives
exactly when insertions at one place commute (`applyEdits_iff`).

`TextDocument::update` takes its changes one by one and looks each of them up in the text
at hand (`update_eq`).
-/
import Mathlib.Data.List.Sort
import Mathlib.Data.Prod.Lex
import Mathlib.Tactic.IntervalCases
import Pegium.General.Splice
import Pegium.Workspace.TextPositions

namespace Pegium

variable {text : List UInt8} {p q : TextPosition}

/-! ### The order of positions and of offsets -/

theorem offsetAt_of_onBoundary (h : OnBoundary text p) :
    ∃ start stop, LineSpan text p.line start stop ∧ start ≤ offsetAt text p ∧
      offsetAt text p ≤ stop ∧ utf16.Boundary (slice text start stop) (offsetAt text p - start) ∧
      utf16.weigh (slice text start (offsetAt text p)) = p.character := by
  obtain ⟨start, stop, k, hspan, hle, hstop, hb, hcharacter⟩ := h
  have hoffset := offsetAt_weigh hspan hle hstop hb
  rw [hcharacter] at hoffset
  rw [show p = ⟨p.line, p.character⟩ from rfl, hoffset]
  exact ⟨start, stop, hspan, hle, hstop, hb, hcharacter⟩

/-- **A later position is a later offset.** -/
theorem offsetAt_lt (hp : OnBoundary text p) (hq : OnBoundary text q) (h : p.Before q) :
    offsetAt text p < offsetAt text q := by
  obtain ⟨start, stop, hspan, hle, hstop, hb, hcharacter⟩ := offsetAt_of_onBoundary hp
  obtain ⟨start', stop', hspan', hle', hstop', hb', hcharacter'⟩ := offsetAt_of_onBoundary hq
  refine Nat.not_le.mp fun hge => ?_
  have hline : q.line ≤ p.line := by
    rw [← hspan.newlinesBefore_eq hle hstop, ← hspan'.newlinesBefore_eq hle' hstop']
    exact newlinesBefore_mono text hge
  rcases h with hlt | ⟨heq, hlt⟩
  · omega
  · rw [heq] at hspan
    obtain ⟨rfl, rfl⟩ := hspan.unique hspan'
    rcases Nat.lt_or_eq_of_le hge with hge | hge
    · have hweigh := Decoder.weigh_lt hb' hb (by omega)
      rw [← slice_take text hstop, ← slice_take text hstop', hcharacter, hcharacter'] at hweigh
      omega
    · rw [hge, hcharacter] at hcharacter'
      omega

theorem TextPosition.before_trichotomy (p q : TextPosition) : p.Before q ∨ p = q ∨ q.Before p := by
  rcases Nat.lt_trichotomy p.line q.line with h | h | h
  · exact .inl (.inl h)
  · rcases Nat.lt_trichotomy p.character q.character with h' | h' | h'
    · exact .inl (.inr ⟨h, h'⟩)
    · exact .inr (.inl (by cases p; cases q; cases h; cases h'; rfl))
    · exact .inr (.inr (.inr ⟨h.symm, h'⟩))
  · exact .inr (.inr (.inl h))

theorem eq_of_offsetAt_eq (hp : OnBoundary text p) (hq : OnBoundary text q)
    (h : offsetAt text p = offsetAt text q) : p = q := by
  rcases p.before_trichotomy q with hlt | heq | hlt
  · exact absurd h (Nat.ne_of_lt (offsetAt_lt hp hq hlt))
  · exact heq
  · exact absurd h.symm (Nat.ne_of_lt (offsetAt_lt hq hp hlt))

theorem offsetAt_le (text : List UInt8) (hp : OnBoundary text p) :
    offsetAt text p ≤ text.length := by
  obtain ⟨start, stop, hspan, _, hstop, _⟩ := offsetAt_of_onBoundary hp
  exact Nat.le_trans hstop (Nat.le_trans hspan.stop_le (Nat.min_le_left _ _))

/-! ### Sorting the edits -/

/-- What edits are sorted by. -/
def TextEdit.key (e : TextEdit) : (ℕ ×ₗ ℕ) ×ₗ (ℕ ×ₗ ℕ) :=
  toLex (toLex (e.range.start.line, e.range.start.character),
    toLex (e.range.stop.line, e.range.stop.character))

theorem edit_starts_after_iff (left right : TextEdit) :
    edit_starts_after left right = true ↔ right.key < left.key := by
  simp only [edit_starts_after, TextEdit.key, Prod.Lex.toLex_lt_toLex, toLex_inj, Prod.mk.injEq]
  split_ifs with h1 h2 h3
  · rw [decide_eq_true_eq]
    omega
  · rw [decide_eq_true_eq]
    omega
  · rw [decide_eq_true_eq]
    omega
  · rw [decide_eq_true_eq]
    omega

/-- What `std::ranges::sort` promises. -/
structure Sorts (sort : List TextEdit → List TextEdit) (edits : List TextEdit) : Prop where
  perm : (sort edits).Perm edits
  sorted : (sort edits).Pairwise fun e f => edit_starts_after f e = false

theorem edit_starts_after_eq_false (left right : TextEdit) :
    edit_starts_after left right = false ↔ left.key ≤ right.key := by
  rw [← Bool.not_eq_true, edit_starts_after_iff, not_lt]

/-- Two elements with the same key can be neighbours in a sorted list. -/
theorem exists_sorted_neighbours {α κ : Type} [LinearOrder κ] (key : α → κ) {a b : α}
    (hkey : key a = key b) (rest : List α) :
    ∃ before after, (before ++ after).Perm rest ∧
      (before ++ a :: b :: after).Pairwise fun x y => key y ≤ key x := by
  let r : α → α → Prop := fun x y => key y ≤ key x
  have : Std.Total r := ⟨fun x y => le_total (key y) (key x)⟩
  have : IsTrans α r := ⟨fun x y z hxy hyz => le_trans hyz hxy⟩
  let sorted := rest.insertionSort r
  refine ⟨sorted.takeWhile fun x => ¬ r b x, sorted.dropWhile fun x => ¬ r b x, ?_, ?_⟩
  · rw [List.takeWhile_append_dropWhile]
    exact List.perm_insertionSort r rest
  · have hb : (sorted.orderedInsert r b).Pairwise r :=
      (List.pairwise_insertionSort r rest).orderedInsert b _
    rw [List.orderedInsert_eq_take_drop] at hb
    obtain ⟨hbefore, hafter, hcross⟩ := List.pairwise_append.mp hb
    refine List.pairwise_append.mpr ⟨hbefore, List.pairwise_cons.mpr ⟨?_, hafter⟩, ?_⟩
    · intro x hx
      rw [hkey]
      rcases List.mem_cons.mp hx with rfl | hx
      · exact le_refl _
      · exact (List.pairwise_cons.mp hafter).1 x hx
    · intro x hx y hy
      rcases List.mem_cons.mp hy with rfl | hy
      · rw [hkey]
        exact hcross x hx b List.mem_cons_self
      · exact hcross x hx y hy

/-! ### Edits as splices -/

/-- The offsets an edit replaces in a text; an edit that ends before it begins inserts. -/
def TextEdit.splice (text : List UInt8) (e : TextEdit) : Splice UInt8 where
  start := offsetAt text e.range.start
  stop := max (offsetAt text e.range.start) (offsetAt text e.range.stop)
  text := e.newText
  ordered := Nat.le_max_left _ _

theorem replaceRange_eq (text updated : List UInt8) (e : TextEdit)
    (h : (e.splice text).stop ≤ updated.length) :
    replaceRange text e.range e.newText updated = some ((e.splice text).apply updated) := by
  have hstart : ¬ updated.length < offsetAt text e.range.start :=
    Nat.not_lt.mpr (Nat.le_trans (e.splice text).ordered h)
  unfold replaceRange replaceAt
  dsimp only
  rw [if_neg hstart, Splice.apply]
  show some (_ ++ updated.drop _) = some (_ ++ updated.drop (max _ _))
  rw [show offsetAt text e.range.start + (offsetAt text e.range.stop - offsetAt text e.range.start)
    = max (offsetAt text e.range.start) (offsetAt text e.range.stop) by omega]
  rfl

/-- An edit with positions of the text, the second not before the first. -/
structure ValidEdit (text : List UInt8) (e : TextEdit) : Prop where
  start : OnBoundary text e.range.start
  stop : OnBoundary text e.range.stop
  ordered : offsetAt text e.range.start ≤ offsetAt text e.range.stop

theorem ValidEdit.splice_stop {e : TextEdit} (h : ValidEdit text e) :
    (e.splice text).stop = offsetAt text e.range.stop :=
  Nat.max_eq_right h.ordered

theorem ValidEdit.stop_le {e : TextEdit} (h : ValidEdit text e) :
    (e.splice text).stop ≤ text.length :=
  h.splice_stop ▸ offsetAt_le text h.stop

/-- Of two edits that leave each other alone, the one sorted first is the last one. -/
theorem ValidEdit.stop_le_start {e f : TextEdit} (he : ValidEdit text e) (hf : ValidEdit text f)
    (hapart : (e.splice text).Apart (f.splice text)) (hsorted : edit_starts_after f e = false) :
    (f.splice text).stop ≤ (e.splice text).start := by
  rcases hapart with hle | hle
  case inr => exact hle
  have hordered := (e.splice text).ordered
  rw [he.splice_stop] at hle hordered
  rw [hf.splice_stop]
  show offsetAt text f.range.stop ≤ offsetAt text e.range.start
  replace hle : offsetAt text e.range.stop ≤ offsetAt text f.range.start := hle
  replace hordered : offsetAt text e.range.start ≤ offsetAt text e.range.stop := hordered
  -- Then they begin at the same place, and the first one is empty.
  have hnot : ¬ e.range.start.Before f.range.start := by
    intro hbefore
    have hstarts : edit_starts_after f e = true := by
      unfold edit_starts_after
      rcases hbefore with hlt | ⟨heq, hlt⟩
      · rw [if_pos (Nat.ne_of_gt hlt)]
        exact decide_eq_true hlt
      · rw [if_neg (not_not_intro heq.symm), if_pos (Nat.ne_of_gt hlt)]
        exact decide_eq_true hlt
    rw [hsorted] at hstarts
    cases hstarts
  have hstart : f.range.start = e.range.start := by
    rcases f.range.start.before_trichotomy e.range.start with hlt | heq | hlt
    · have := offsetAt_lt hf.start he.start hlt
      omega
    · exact heq
    · exact absurd hlt hnot
  have hnot' : ¬ e.range.stop.Before f.range.stop := by
    intro hbefore
    have hstarts : edit_starts_after f e = true := by
      unfold edit_starts_after
      rw [hstart, if_neg (not_not_intro rfl), if_neg (not_not_intro rfl)]
      rcases hbefore with hlt | ⟨heq, hlt⟩
      · rw [if_pos (Nat.ne_of_gt hlt)]
        exact decide_eq_true hlt
      · rw [if_neg (not_not_intro heq.symm)]
        exact decide_eq_true hlt
    rw [hsorted] at hstarts
    cases hstarts
  rw [hstart] at hle
  rcases f.range.stop.before_trichotomy e.range.stop with hlt | heq | hlt
  · have := offsetAt_lt hf.stop he.stop hlt
    omega
  · rw [heq]
    exact hle
  · exact absurd hlt hnot'

/-- Edits that can be applied to a text. -/
structure Applicable (text : List UInt8) (edits : List TextEdit) : Prop where
  valid : ∀ e ∈ edits, ValidEdit text e
  apart : edits.Pairwise fun e f => (e.splice text).Apart (f.splice text)

theorem Applicable.perm {edits edits' : List TextEdit} (h : Applicable text edits)
    (hperm : edits'.Perm edits) : Applicable text edits' where
  valid := fun e he => h.valid e (hperm.mem_iff.mp he)
  apart := (hperm.pairwise_iff fun hef => Or.symm hef).mpr h.apart

/-- No replacement of a sorted list throws. -/
theorem foldlM_replaceRange {edits : List TextEdit} {updated : List UInt8}
    (h : edits.Pairwise fun e f => (f.splice text).stop ≤ (e.splice text).start)
    (hl : ∀ e ∈ edits, (e.splice text).stop ≤ updated.length) :
    edits.foldlM (fun updated e => replaceRange text e.range e.newText updated) updated
      = some ((edits.map (TextEdit.splice text)).foldl (fun l e => e.apply l) updated) := by
  induction edits generalizing updated with
  | nil => rfl
  | cons e edits ih =>
    obtain ⟨hbefore, hrest⟩ := List.pairwise_cons.mp h
    have he := hl e List.mem_cons_self
    have hlength := Splice.length_apply he
    rw [List.foldlM_cons, replaceRange_eq text updated e he]
    refine ih hrest fun f hf => ?_
    have := hbefore f hf
    omega

/-- **What applying edits gives**: all of them at once, in the order opposite to the sort. -/
theorem applyEdits_eq {sort : List TextEdit → List TextEdit} {edits : List TextEdit}
    (h : Applicable text edits) (hsort : Sorts sort edits) :
    applyEdits sort text edits
      = some (Splice.substitute text ((sort edits).reverse.map (TextEdit.splice text))) := by
  have hsorted := h.perm hsort.perm
  have hback : (sort edits).Pairwise fun e f => (f.splice text).stop ≤ (e.splice text).start := by
    refine (hsort.sorted.and hsorted.apart).imp_of_mem fun he hf hef => ?_
    exact (hsorted.valid _ he).stop_le_start (hsorted.valid _ hf) hef.2 hef.1
  have hstop : ∀ e ∈ sort edits, (e.splice text).stop ≤ text.length :=
    fun e he => (hsorted.valid e he).stop_le
  rw [applyEdits, foldlM_replaceRange hback hstop, List.map_reverse, Splice.foldl_apply]
  · exact List.pairwise_map.mpr hback
  · intro e he
    obtain ⟨edit, hedit, rfl⟩ := List.mem_map.mp he
    exact hstop edit hedit

/-- Edits whose insertions at one place commute give one result for every sort. -/
theorem applyEdits_eq_substitute {sort : List TextEdit → List TextEdit} {edits : List TextEdit}
    (h : Applicable text edits) (hsort : Sorts sort edits)
    (hcomm : edits.Pairwise fun e f => (e.splice text).Commute (f.splice text)) :
    applyEdits sort text edits
      = some (Splice.substitute text (edits.map (TextEdit.splice text))) := by
  rw [applyEdits_eq h hsort]
  congr 1
  symm
  apply Splice.substitute_perm
  · exact ((List.reverse_perm _).trans hsort.perm).symm.map _
  · exact List.pairwise_map.mpr h.apart
  · exact List.pairwise_map.mpr hcomm

/-- Two insertions at one place have the same key. -/
theorem ValidEdit.key_eq {e f : TextEdit} (he : ValidEdit text e) (hf : ValidEdit text f)
    (hstart : (e.splice text).start = (f.splice text).start)
    (hempty : (e.splice text).stop = (e.splice text).start)
    (hempty' : (f.splice text).stop = (f.splice text).start) : e.key = f.key := by
  rw [he.splice_stop] at hempty
  rw [hf.splice_stop] at hempty'
  have hstarts : e.range.start = f.range.start := eq_of_offsetAt_eq he.start hf.start hstart
  have hstops : e.range.stop = f.range.stop :=
    eq_of_offsetAt_eq he.stop hf.stop (hempty.trans (hstart.trans hempty'.symm))
  rw [TextEdit.key, TextEdit.key, hstarts, hstops]

/-- Insertions at one place commute when no sort makes a difference. -/
theorem commute_of_applyEdits {edits : List TextEdit} (h : Applicable text edits)
    (hall : ∀ sort, Sorts sort edits → applyEdits sort text edits
      = some (Splice.substitute text (edits.map (TextEdit.splice text))))
    {e f : TextEdit} (hsub : [e, f].Sublist edits) :
    (e.splice text).Commute (f.splice text) := by
  intro hstart hempty hempty'
  have he : ValidEdit text e := h.valid e (hsub.subset List.mem_cons_self)
  have hf : ValidEdit text f :=
    h.valid f (hsub.subset (List.mem_cons_of_mem _ List.mem_cons_self))
  have hkey : e.key = f.key := he.key_eq hf hstart hempty hempty'
  obtain ⟨rest, hrest⟩ := hsub.exists_perm_append
  -- A sort may put the two next to each other, in either order.
  have hsort : ∀ {a b : TextEdit}, a.key = b.key → (edits.Perm ([a, b] ++ rest)) →
      ∃ before after, (before ++ after).Perm rest ∧
        Sorts (fun _ => before ++ a :: b :: after) edits := by
    intro a b hab hperm
    obtain ⟨before, after, hbefore, hsorted⟩ := exists_sorted_neighbours TextEdit.key hab rest
    refine ⟨before, after, hbefore, ?_, ?_⟩
    · refine List.Perm.trans ?_ hperm.symm
      exact (List.perm_middle.trans (List.perm_middle.cons a)).trans ((hbefore.cons b).cons a)
    · exact hsorted.imp fun hle => (edit_starts_after_eq_false _ _).mpr hle
  obtain ⟨before, after, hperm, hfirst⟩ := hsort hkey hrest
  have hsecond : Sorts (fun _ => before ++ f :: e :: after) edits := by
    refine ⟨?_, ?_⟩
    · refine List.Perm.trans ?_ hfirst.perm
      exact (List.Perm.swap e f after).append_left before
    · obtain ⟨hb, ha, hcross⟩ := List.pairwise_append.mp hfirst.sorted
      obtain ⟨hea, hfa⟩ := List.pairwise_cons.mp ha
      obtain ⟨hfa, haa⟩ := List.pairwise_cons.mp hfa
      refine List.pairwise_append.mpr ⟨hb, List.pairwise_cons.mpr ⟨?_, List.pairwise_cons.mpr
        ⟨fun x hx => hea x (List.mem_cons_of_mem _ hx), haa⟩⟩, ?_⟩
      · intro x hx
        rcases List.mem_cons.mp hx with rfl | hx
        · exact (edit_starts_after_eq_false _ _).mpr (le_of_eq hkey)
        · exact hfa x hx
      · intro x hx y hy
        refine hcross x hx y ?_
        simp only [List.mem_cons] at hy ⊢
        tauto
  have hsame := (applyEdits_eq h hfirst).symm.trans
    ((hall _ hfirst).trans ((hall _ hsecond).symm.trans (applyEdits_eq h hsecond)))
  have hswap := Option.some.inj hsame
  simp only [List.reverse_append, List.reverse_cons, List.append_assoc, List.map_append,
    List.map_cons, List.map_nil, List.singleton_append] at hswap
  have hlength : (f.splice text).start ≤ text.length :=
    Nat.le_trans (f.splice text).ordered hf.stop_le
  exact (Splice.commute_of_substitute_swap hlength hswap hstart.symm hempty' hempty).symm

/-- `applyEdits` substitutes all edits at once, whatever sort is used, exactly when
insertions at one place commute. -/
theorem applyEdits_iff_commute {edits : List TextEdit} (h : Applicable text edits) :
    (∀ sort, Sorts sort edits → applyEdits sort text edits
        = some (Splice.substitute text (edits.map (TextEdit.splice text)))) ↔
      edits.Pairwise fun e f => (e.splice text).Commute (f.splice text) := by
  constructor
  · intro hall
    exact List.pairwise_iff_forall_sublist.mpr fun hsub => commute_of_applyEdits h hall hsub
  · exact fun hcomm sort hsort => applyEdits_eq_substitute h hsort hcomm

/-! ### Changes -/

/-- The text after a change: the range it names in the text at hand is replaced. -/
def changed (text : List UInt8) (change : TextDocumentContentChangeEvent) : List UInt8 :=
  match change.range with
  | none => change.text
  | some range => Splice.substitute text [TextEdit.splice text ⟨range, change.text⟩]

theorem applyChange_eq (text : List UInt8) (change : TextDocumentContentChangeEvent) :
    applyChange text change = some (changed text change) := by
  unfold applyChange changed
  cases change.range with
  | none => rfl
  | some range =>
    have hstop : (TextEdit.splice text ⟨range, change.text⟩).stop ≤ text.length :=
      Nat.max_le.mpr ⟨offsetAt_le_length _ _, offsetAt_le_length _ _⟩
    have hone : Splice.substitute text ([] ++ [TextEdit.splice text ⟨range, change.text⟩])
        = _ := Splice.substitute_concat (fun f hf => absurd hf List.not_mem_nil) hstop
    rw [List.nil_append, Splice.substitute_nil] at hone
    show replaceRange text range change.text text = some (Splice.substitute text _)
    rw [hone]
    exact replaceRange_eq text text ⟨range, change.text⟩ hstop

/-- **Changes are applied one after the other**, each to the text of the one before. -/
theorem update_eq (document : TextDocument) (changes : List TextDocumentContentChangeEvent)
    (version : ℤ) : document.update changes version
      = some { version := version, text := changes.foldl changed document.text } := by
  have hfold : ∀ text, changes.foldlM applyChange text = some (changes.foldl changed text) := by
    induction changes with
    | nil => exact fun text => rfl
    | cons change changes ih =>
      intro text
      rw [List.foldlM_cons, applyChange_eq]
      exact ih (changed text change)
  rw [TextDocument.update, hfold]
  rfl

/-- **Edits are substituted all at once, and changes one after the other**: for edits of
a text that leave each other alone, every sort gives the substitution exactly when
insertions at one place commute. -/
theorem applyEdits_iff {text : List UInt8} {edits : List TextEdit}
    (h : Applicable text edits) :
    ((∀ sort, Sorts sort edits → applyEdits sort text edits
        = some (Splice.substitute text (edits.map (TextEdit.splice text)))) ↔
      edits.Pairwise fun e f => (e.splice text).Commute (f.splice text)) ∧
    ∀ (document : TextDocument) (changes : List TextDocumentContentChangeEvent) (version : ℤ),
      document.update changes version
        = some { version := version, text := changes.foldl changed document.text } :=
  ⟨applyEdits_iff_commute h, update_eq⟩

/-! ### A replacement and an insertion -/

/-- `ab`. -/
def twoLetters : List UInt8 := [97, 98]

theorem lineSpan_twoLetters : LineSpan twoLetters 0 0 2 :=
  ⟨Nat.zero_le _, Nat.le_refl _, rfl, .inl rfl, fun i _ hi => by interval_cases i <;> decide,
    .inl rfl⟩

/-- Every place of the text is a position. -/
theorem onBoundary_twoLetters {k : ℕ} (hk : k ≤ 2) :
    OnBoundary twoLetters ⟨0, k⟩ ∧ offsetAt twoLetters ⟨0, k⟩ = k := by
  have hb : utf16.Boundary [98] 1 := @Decoder.Boundary.step _ utf16 98 [] 0 (.start [])
  have hboundary : utf16.Boundary (slice twoLetters 0 2) (k - 0) := by
    interval_cases k
    · exact .start _
    · exact @Decoder.Boundary.step _ utf16 97 [98] 0 (.start _)
    · exact @Decoder.Boundary.step _ utf16 97 [98] 1 hb
  have hone : utf16.weigh [98] = 1 :=
    (Decoder.weigh_cons 98 []).trans (congrArg (1 + ·) Decoder.weigh_nil)
  have hweigh : utf16.weigh (slice twoLetters 0 k) = k := by
    interval_cases k
    · exact Decoder.weigh_nil
    · exact (Decoder.weigh_cons 97 []).trans (congrArg (1 + ·) Decoder.weigh_nil)
    · exact (Decoder.weigh_cons 97 [98]).trans (congrArg (1 + ·) hone)
  refine ⟨⟨0, 2, k, lineSpan_twoLetters, Nat.zero_le _, hk, hboundary, hweigh⟩, ?_⟩
  have hoffset := offsetAt_weigh lineSpan_twoLetters (Nat.zero_le k) hk hboundary
  rwa [hweigh] at hoffset

/-- `a` becomes `xy`, and `z` comes after the text. -/
def lettersEdits : List TextEdit :=
  [⟨⟨⟨0, 0⟩, ⟨0, 1⟩⟩, [120, 121]⟩, ⟨⟨⟨0, 2⟩, ⟨0, 2⟩⟩, [122]⟩]

theorem splice_lettersEdits : lettersEdits.map (TextEdit.splice twoLetters)
    = [⟨0, 1, [120, 121], by decide⟩, ⟨2, 2, [122], by decide⟩] := by
  simp [lettersEdits, TextEdit.splice, onBoundary_twoLetters]

theorem applicable_lettersEdits : Applicable twoLetters lettersEdits where
  valid := by
    intro e he
    rcases List.mem_pair.mp he with rfl | rfl
    · obtain ⟨hstart, hoffset⟩ := onBoundary_twoLetters (Nat.zero_le 2)
      obtain ⟨hstop, hoffset'⟩ := onBoundary_twoLetters (Nat.le_succ 1)
      exact ⟨hstart, hstop, by rw [hoffset, hoffset']; exact Nat.zero_le 1⟩
    · obtain ⟨hstop, -⟩ := onBoundary_twoLetters (Nat.le_refl 2)
      exact ⟨hstop, hstop, Nat.le_refl _⟩
  apart := by
    rw [← @List.pairwise_map _ _ (TextEdit.splice twoLetters) Splice.Apart,
      splice_lettersEdits]
    exact List.pairwise_pair.mpr (.inl (by decide))

theorem applyEdits_iff_letters :
    Applicable twoLetters lettersEdits ∧ ∀ sort, Sorts sort lettersEdits →
      applyEdits sort twoLetters lettersEdits = some [120, 121, 98, 122] := by
  have hcommute : lettersEdits.Pairwise fun e f =>
      (e.splice twoLetters).Commute (f.splice twoLetters) := by
    rw [← @List.pairwise_map _ _ (TextEdit.splice twoLetters) Splice.Commute,
      splice_lettersEdits]
    exact List.pairwise_pair.mpr fun h => absurd h (by decide)
  refine ⟨applicable_lettersEdits, fun sort hsort => ?_⟩
  rw [(applyEdits_iff applicable_lettersEdits).1.mpr hcommute sort hsort, splice_lettersEdits]
  decide

/-! ### Two insertions at one place -/

/-- An insertion at the beginning. -/
def insertFirst (text : List UInt8) : TextEdit := ⟨⟨⟨0, 0⟩, ⟨0, 0⟩⟩, text⟩

theorem splice_insertFirst (text : List UInt8) :
    (insertFirst text).splice [] = ⟨0, 0, text, Nat.le_refl _⟩ := by
  have hzero : offsetAt [] ⟨0, 0⟩ = 0 := Nat.le_zero.mp (offsetAt_le_length [] _)
  unfold TextEdit.splice insertFirst
  simp only [hzero, Nat.max_self]

theorem applicable_insertFirst (texts : List (List UInt8)) :
    Applicable [] (texts.map insertFirst) where
  valid := by
    intro e he
    obtain ⟨text, _, rfl⟩ := List.mem_map.mp he
    have hspan : LineSpan [] 0 0 0 :=
      ⟨Nat.le_refl _, Nat.zero_le _, rfl, .inl rfl, fun i _ hi => absurd hi (Nat.not_lt_zero i),
        .inl rfl⟩
    have hboundary : OnBoundary [] ⟨0, 0⟩ :=
      ⟨0, 0, 0, hspan, Nat.le_refl _, Nat.le_refl _, .start _, Decoder.weigh_nil⟩
    exact ⟨hboundary, hboundary, Nat.le_refl _⟩
  apart := by
    refine List.pairwise_map.mpr (List.pairwise_of_forall fun text text' => ?_)
    rw [splice_insertFirst, splice_insertFirst]
    exact .inl (Nat.le_refl _)

/-- **The second insertion comes before the first**, with a sort that leaves edits with the
same range as they are. -/
theorem insertions_reversed :
    Applicable [] ([[97], [98]].map insertFirst) ∧
      Sorts id ([[97], [98]].map insertFirst) ∧
      applyEdits id [] ([[97], [98]].map insertFirst) = some [98, 97] ∧
      Splice.substitute [] (([[97], [98]].map insertFirst).map (TextEdit.splice []))
        = [97, 98] := by
  have hsort : Sorts id ([[97], [98]].map insertFirst) :=
    ⟨List.Perm.refl _, List.pairwise_pair.mpr rfl⟩
  refine ⟨applicable_insertFirst _, hsort, ?_, ?_⟩
  · rw [applyEdits_eq (applicable_insertFirst _) hsort]
    simp only [id, List.map_cons, List.map_nil, List.reverse_cons, List.reverse_nil,
      List.nil_append, List.cons_append, splice_insertFirst]
    rfl
  · simp only [List.map_cons, List.map_nil, splice_insertFirst]
    rfl

end Pegium
