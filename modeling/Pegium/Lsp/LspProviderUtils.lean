/-
Pegium/Lsp/LspProviderUtils.lean

The token at an offset of a text: the word that the offset is in or that ends there.

The scan walks back over the continuation bytes of a codepoint and on by the length
its lead byte announces, and the length of a sequence is all that the test for an
identifier-like codepoint checks.  Both walks see the same codepoints where every
identifier-like one is followed by the continuation bytes it announces and by no more
(`TidyWords`), as in every text of whole UTF-8 sequences (`Utf8Text.tidyWords`).
There the token is the maximal run of identifier-like codepoints around the offset,
the same for every offset in it (`token_at_maximal_run`).

A lead byte in front of other bytes, or a continuation byte too many, ends this: the
scan then finds other words from the two ends of one run (`token_at_malformed`).
-/
import Mathlib.Data.List.GetD
import Pegium.Workspace.TextDocument

namespace Pegium

/-! ### The source -/

/-- Token slice around one offset in raw source text. -/
structure TokenSpan where
  begin : ℕ := 0
  «end» : ℕ := 0
  text : List UInt8 := []
  deriving DecidableEq

/-- The size of a text, cast to a `TextOffset` of 32 bits. -/
def castSize (text : List UInt8) : ℕ := text.length % 2 ^ 32

/-- An identifier-like codepoint starts at `position`. -/
def isWordAt (text : List UInt8) (position : ℕ) : Bool :=
  position < castSize text && is_identifier_like_codepoint_at text position (castSize text)

def afterCodepoint (text : List UInt8) (position : ℕ) : ℕ :=
  position + utf8_codepoint_length (byteAt text position)

/-- The walk from the cursor back to the start of the token. -/
def walkBack (text : List UInt8) : ℕ → ℕ → ℕ
  | 0, b => b
  | fuel + 1, b =>
    if 0 < b && isWordAt text (previous_codepoint_start text b) then
      walkBack text fuel (previous_codepoint_start text b)
    else b

/-- The walk on to the end of the token. -/
def walkOn (text : List UInt8) : ℕ → ℕ → ℕ
  | 0, e => e
  | fuel + 1, e => if isWordAt text e then walkOn text fuel (afterCodepoint text e) else e

/-- Where the scan starts: at the offset, or on the codepoint before it when the
offset is just past an identifier. -/
def tokenCursor (text : List UInt8) (offset : ℕ) : ℕ :=
  let cursor := min offset (castSize text)
  if !isWordAt text cursor && 0 < cursor
      && isWordAt text (previous_codepoint_start text cursor) then
    previous_codepoint_start text cursor
  else cursor

/-- The token covering `offset` in `text`. -/
def token_at (text : List UInt8) (offset : ℕ) : TokenSpan :=
  let cursor := tokenCursor text offset
  if !isWordAt text cursor then {}
  else
    let b := walkBack text cursor cursor
    let e := walkOn text (castSize text) (afterCodepoint text cursor)
    ⟨b, e, slice text b e⟩

/-! ### Words of a text -/

/-- An identifier-like codepoint of the whole text starts at `p`. -/
def identifierAt (text : List UInt8) (p : ℕ) : Prop :=
  is_identifier_like_codepoint_at text p text.length = true

/-- Identifier-like codepoints, one after the other, from `b` to `e`. -/
inductive IdentifierRun (text : List UInt8) : ℕ → ℕ → Prop
  | refl (b : ℕ) : IdentifierRun text b b
  | cons {b e : ℕ} (head : identifierAt text b)
      (rest : IdentifierRun text (afterCodepoint text b) e) : IdentifierRun text b e

/-- A maximal run: no identifier-like codepoint ends where it begins, and none
begins where it ends. -/
structure MaximalRun (text : List UInt8) (b e : ℕ) : Prop where
  lt : b < e
  run : IdentifierRun text b e
  first : ∀ p, identifierAt text p → afterCodepoint text p ≠ b
  last : ¬ identifierAt text e

/-- Where a codepoint may start: `previous_codepoint_start` stops there. -/
def IsBoundary (text : List UInt8) (p : ℕ) : Prop :=
  p = 0 ∨ isContinuation (byteAt text p) = false

/-- Behind the lead byte of every identifier-like codepoint stand the continuation
bytes it announces, and no more. -/
structure TidyWords (text : List UInt8) : Prop where
  continued : ∀ p, identifierAt text p → ∀ q, p < q → q < afterCodepoint text p →
    isContinuation (byteAt text q) = true
  stops : ∀ p, identifierAt text p →
    isContinuation (byteAt text (afterCodepoint text p)) = false

/-- Whole UTF-8 sequences, one after the other: a lead byte (or NUL, alone) and the
continuation bytes it announces. -/
inductive Utf8Text : List UInt8 → Prop
  | nil : Utf8Text []
  | cons {lead : UInt8} {continued more : List UInt8}
      (length : utf8_codepoint_length lead = continued.length + 1 ∨ lead = 0 ∧ continued = [])
      (high : ∀ b ∈ continued, isContinuation b = true) (rest : Utf8Text more) :
      Utf8Text (lead :: (continued ++ more))

variable {text : List UInt8} {b c e p q offset : ℕ}

theorem identifierAt_iff :
    identifierAt text p ↔
      p < text.length ∧ 0 < utf8_codepoint_length (byteAt text p) ∧
        afterCodepoint text p ≤ text.length ∧
        is_identifier_like_codepoint (decode_utf8_codepoint text p) = true := by
  rw [identifierAt, is_identifier_like_codepoint_at, afterCodepoint]
  split
  next hp => exact ⟨fun h => (Bool.false_ne_true h).elim, fun h => absurd h.1 (Nat.not_lt.mpr hp)⟩
  next hp =>
    have hlt : p < text.length := Nat.lt_of_not_le hp
    simp only [Bool.or_eq_true, beq_iff_eq, decide_eq_true_eq]
    split
    next hlen =>
      constructor
      · intro h
        exact (Bool.false_ne_true h).elim
      · rintro ⟨-, hpos, hle, -⟩
        omega
    next hlen =>
      constructor
      · intro h
        exact ⟨hlt, by omega, by omega, h⟩
      · intro h
        exact h.2.2.2

theorem identifierAt.lt_after (h : identifierAt text p) : p < afterCodepoint text p := by
  have hpos := (identifierAt_iff.mp h).2.1
  rw [afterCodepoint]
  omega

theorem identifierAt.after_le (h : identifierAt text p) : afterCodepoint text p ≤ text.length :=
  (identifierAt_iff.mp h).2.2.1

/-- A continuation byte announces no length. -/
theorem utf8_codepoint_length_continuation {lead : UInt8} (h : isContinuation lead = true) :
    utf8_codepoint_length lead = 2 ^ 64 - 1 := by
  revert h
  apply byte_cases (p := fun lead =>
    isContinuation lead = true → utf8_codepoint_length lead = 2 ^ 64 - 1)
  decide +kernel

/-- A codepoint starts at its lead byte. -/
theorem identifierAt.isContinuation_eq (hsize : text.length < 2 ^ 32) (h : identifierAt text p) :
    isContinuation (byteAt text p) = false := by
  rw [← Bool.not_eq_true]
  intro hcont
  have hle := h.after_le
  rw [afterCodepoint, utf8_codepoint_length_continuation hcont] at hle
  omega

theorem castSize_eq (hsize : text.length < 2 ^ 32) : castSize text = text.length :=
  Nat.mod_eq_of_lt hsize

theorem isWordAt_iff (hsize : text.length < 2 ^ 32) :
    isWordAt text p = true ↔ identifierAt text p := by
  rw [isWordAt, castSize_eq hsize, Bool.and_eq_true, decide_eq_true_eq]
  exact ⟨fun h => h.2, fun h => ⟨(identifierAt_iff.mp h).1, h⟩⟩

/-! ### Texts of whole sequences -/

theorem byteAt_append_right (before more : List UInt8) (i : ℕ) :
    byteAt (before ++ more) (before.length + i) = byteAt more i := by
  rw [byteAt, byteAt, List.getD_append_right _ _ _ _ (Nat.le_add_right _ _),
    Nat.add_sub_cancel_left]

theorem afterCodepoint_append (before more : List UInt8) (p : ℕ) :
    afterCodepoint (before ++ more) (before.length + p)
      = before.length + afterCodepoint more p := by
  rw [afterCodepoint, afterCodepoint, byteAt_append_right, Nat.add_assoc]

/-- A codepoint does not depend on what stands before it. -/
theorem identifierAt_append (before more : List UInt8) (p : ℕ) :
    identifierAt (before ++ more) (before.length + p) ↔ identifierAt more p := by
  have hdecode : decode_utf8_codepoint (before ++ more) (before.length + p)
      = decode_utf8_codepoint more p := by
    apply decode_utf8_codepoint_congr (byteAt_append_right before more p)
    intro i _
    rw [Nat.add_assoc, byteAt_append_right]
  rw [identifierAt_iff, identifierAt_iff, byteAt_append_right, afterCodepoint_append, hdecode,
    List.length_append, Nat.add_lt_add_iff_left, Nat.add_le_add_iff_left]

/-- A byte that announces the codepoint it stands in is no continuation byte. -/
theorem isContinuation_lead {lead : UInt8} {n : ℕ} (hn : n < 2 ^ 32)
    (h : utf8_codepoint_length lead = n + 1 ∨ lead = 0) : isContinuation lead = false := by
  rcases h with h | rfl
  · rw [← Bool.not_eq_true]
    intro hcont
    rw [utf8_codepoint_length_continuation hcont] at h
    omega
  · rfl

/-- No text of whole sequences begins with a continuation byte. -/
theorem Utf8Text.head (hsize : text.length < 2 ^ 32) (h : Utf8Text text) :
    isContinuation (byteAt text 0) = false := by
  cases h with
  | nil => rfl
  | @cons lead continued more length high rest =>
    rw [List.length_cons, List.length_append] at hsize
    exact isContinuation_lead (by omega : continued.length < 2 ^ 32) (length.imp_right And.left)

/-- The position is the first codepoint, one of its continuation bytes, or behind it. -/
theorem codepoint_cases (lead : UInt8) (continued : List UInt8) (p : ℕ) :
    p = 0 ∨ (0 < p ∧ p < (lead :: continued).length) ∨ ∃ i, p = (lead :: continued).length + i := by
  rcases Nat.eq_zero_or_pos p with rfl | hpos
  · exact .inl rfl
  · rcases Nat.lt_or_ge p (lead :: continued).length with hlt | hle
    · exact .inr (.inl ⟨hpos, hlt⟩)
    · exact .inr (.inr ⟨p - (lead :: continued).length, (Nat.add_sub_cancel' hle).symm⟩)

theorem isContinuation_continued {lead : UInt8} {continued : List UInt8} (more : List UInt8)
    (high : ∀ b ∈ continued, isContinuation b = true) (hpos : 0 < p)
    (hlt : p < (lead :: continued).length) :
    isContinuation (byteAt ((lead :: continued) ++ more) p) = true := by
  obtain ⟨i, rfl⟩ := Nat.exists_eq_add_of_lt hpos
  rw [Nat.zero_add, List.length_cons] at *
  have hi : i < continued.length := by omega
  apply high
  rw [byteAt, List.cons_append, List.getD_cons_succ, List.getD_append _ _ _ _ hi,
    List.getD_eq_getElem _ _ hi]
  exact List.getElem_mem hi

/-- Every text of whole sequences is tidy. -/
theorem Utf8Text.tidyWords (hsize : text.length < 2 ^ 32) (h : Utf8Text text) :
    TidyWords text := by
  induction h with
  | nil =>
    constructor
    · intro p hp
      exact absurd (identifierAt_iff.mp hp).1 (Nat.not_lt_zero p)
    · intro p hp
      exact absurd (identifierAt_iff.mp hp).1 (Nat.not_lt_zero p)
  | @cons lead continued more length high rest ih =>
    have hmore : more.length < 2 ^ 32 := by
      rw [List.length_cons, List.length_append] at hsize
      omega
    have htidy := ih hmore
    rw [← List.cons_append] at hsize ⊢
    -- an identifier-like codepoint is this one, or behind it
    have hat : ∀ p, identifierAt ((lead :: continued) ++ more) p →
        (p = 0 ∧ afterCodepoint ((lead :: continued) ++ more) p = (lead :: continued).length) ∨
          ∃ i, p = (lead :: continued).length + i ∧ identifierAt more i := by
      intro p hp
      rcases codepoint_cases lead continued p with rfl | ⟨hpos, hlt⟩ | ⟨i, rfl⟩
      · refine .inl ⟨rfl, ?_⟩
        rw [afterCodepoint, Nat.zero_add]
        rcases length with length | ⟨rfl, -⟩
        · exact length
        · exact absurd (identifierAt_iff.mp hp).2.1 (Nat.lt_irrefl 0)
      · have hcont := isContinuation_continued more high hpos hlt
        exact absurd (hcont.symm.trans (hp.isContinuation_eq hsize)) Bool.noConfusion
      · exact .inr ⟨i, rfl, (identifierAt_append _ _ _).mp hp⟩
    constructor
    · intro p hp q hpq hq
      rcases hat p hp with ⟨rfl, hafter⟩ | ⟨i, rfl, hi⟩
      · exact isContinuation_continued more high hpq (Nat.lt_of_lt_of_eq hq hafter)
      · obtain ⟨j, rfl⟩ := Nat.exists_eq_add_of_le (Nat.le_of_lt hpq)
        rw [afterCodepoint_append] at hq
        rw [Nat.add_assoc, byteAt_append_right]
        exact htidy.continued i hi _ (by omega) (by omega)
    · intro p hp
      rcases hat p hp with ⟨rfl, hafter⟩ | ⟨i, rfl, hi⟩
      · rw [hafter, ← Nat.add_zero (lead :: continued).length, byteAt_append_right]
        exact rest.head hmore
      · rw [afterCodepoint_append, byteAt_append_right]
        exact htidy.stops i hi

/-! ### Runs -/

theorem IdentifierRun.le (h : IdentifierRun text b e) : b ≤ e := by
  induction h with
  | refl b => exact Nat.le_refl b
  | cons head rest ih => exact Nat.le_trans (Nat.le_of_lt head.lt_after) ih

theorem IdentifierRun.le_length (h : IdentifierRun text b e) (hb : b ≤ text.length) :
    e ≤ text.length := by
  induction h with
  | refl b => exact hb
  | cons head rest ih => exact ih head.after_le

theorem IdentifierRun.trans (h : IdentifierRun text b c) (h' : IdentifierRun text c e) :
    IdentifierRun text b e := by
  induction h with
  | refl b => exact h'
  | cons head rest ih => exact .cons head (ih h')

theorem IdentifierRun.one (h : identifierAt text p) :
    IdentifierRun text p (afterCodepoint text p) :=
  .cons h (.refl _)

/-- The last codepoint of a run. -/
theorem IdentifierRun.final (h : IdentifierRun text b e) :
    b = e ∨ ∃ p, IdentifierRun text b p ∧ identifierAt text p ∧ afterCodepoint text p = e := by
  induction h with
  | refl b => exact .inl rfl
  | @cons b e head rest ih =>
    rcases ih with rfl | ⟨p, hrun, hp, hafter⟩
    · exact .inr ⟨b, .refl b, head, rfl⟩
    · exact .inr ⟨p, .cons head hrun, hp, hafter⟩

/-- The codepoint of a run that an offset is in, or that ends the run at the offset. -/
theorem IdentifierRun.codepoint (h : IdentifierRun text b e) (hlt : b < e) (hb : b ≤ p)
    (he : p ≤ e) :
    ∃ c, IdentifierRun text b c ∧ identifierAt text c ∧
      IdentifierRun text (afterCodepoint text c) e ∧ c ≤ p ∧
        (p < afterCodepoint text c ∨ p = e ∧ afterCodepoint text c = e) := by
  induction h with
  | refl b => exact absurd hlt (Nat.lt_irrefl b)
  | @cons b e head rest ih =>
    rcases Nat.lt_or_ge p (afterCodepoint text b) with hp | hp
    · exact ⟨b, .refl b, head, rest, hb, .inl hp⟩
    · rcases Nat.eq_or_lt_of_le rest.le with heq | hlt'
      · exact ⟨b, .refl b, head, rest, hb, .inr ⟨by omega, heq⟩⟩
      · obtain ⟨c, hrun, hc, hrest, hle, hin⟩ := ih hlt' hp he
        exact ⟨c, .cons head hrun, hc, hrest, hle, hin⟩

/-- Every identifier-like codepoint is in a maximal run. -/
theorem exists_first (c : ℕ) :
    ∃ b, IdentifierRun text b c ∧ ∀ p, identifierAt text p → afterCodepoint text p ≠ b := by
  induction c using Nat.strongRecOn with
  | ind c ih =>
    by_cases h : ∃ p, identifierAt text p ∧ afterCodepoint text p = c
    · obtain ⟨p, hp, rfl⟩ := h
      obtain ⟨b, hrun, hfirst⟩ := ih p hp.lt_after
      exact ⟨b, hrun.trans (.one hp), hfirst⟩
    · exact ⟨c, .refl c, fun p hp hafter => h ⟨p, hp, hafter⟩⟩

theorem exists_last (c : ℕ) : ∃ e, IdentifierRun text c e ∧ ¬ identifierAt text e := by
  by_cases h : identifierAt text c
  · have hlt := h.lt_after
    have hle := h.after_le
    obtain ⟨e, hrun, hlast⟩ := exists_last (afterCodepoint text c)
    exact ⟨e, .cons h hrun, hlast⟩
  · exact ⟨c, .refl c, h⟩
termination_by text.length - c

/-! ### The walks -/

theorem previous_codepoint_start_boundary (text : List UInt8) (p : ℕ) :
    IsBoundary text (previous_codepoint_start text p) := by
  have hloop : ∀ i, IsBoundary text (previous_codepoint_start.loop text i) := by
    intro i
    induction i with
    | zero => exact .inl rfl
    | succ i ih =>
      rw [previous_codepoint_start.loop]
      split
      · exact ih
      next hcont => exact .inr ((Bool.not_eq_true _).mp hcont)
  rw [previous_codepoint_start]
  split
  · exact .inl rfl
  · exact hloop _

/-- What the walk back has passed over is continuation bytes. -/
theorem isContinuation_of_previous (hq : previous_codepoint_start text p < q) (hp : q < p) :
    isContinuation (byteAt text q) = true := by
  rw [← Bool.not_eq_false]
  intro hstart
  exact absurd (le_previous_codepoint_start hp hstart) (Nat.not_le_of_lt hq)

/-- **One step back from inside a codepoint, or from its end, is its start.** -/
theorem TidyWords.previous_eq (htidy : TidyWords text) (hsize : text.length < 2 ^ 32)
    (hp : identifierAt text p) (hlt : p < q) (hle : q ≤ afterCodepoint text p) :
    previous_codepoint_start text q = p := by
  apply Nat.le_antisymm
  · apply Nat.le_of_not_lt
    intro hpast
    have hq : previous_codepoint_start text q < q := previous_codepoint_start_lt (by omega)
    have hcont := htidy.continued p hp _ hpast (Nat.lt_of_lt_of_le hq hle)
    rcases previous_codepoint_start_boundary text q with hzero | hstart
    · omega
    · exact Bool.false_ne_true (hstart.symm.trans hcont)
  · exact le_previous_codepoint_start hlt (hp.isContinuation_eq hsize)

/-- The codepoint one step back reaches to where the step began. -/
theorem TidyWords.le_after (htidy : TidyWords text)
    (hp : identifierAt text (previous_codepoint_start text q)) :
    q ≤ afterCodepoint text (previous_codepoint_start text q) := by
  apply Nat.le_of_not_lt
  intro hlt
  have hcont := isContinuation_of_previous hp.lt_after hlt
  exact Bool.false_ne_true ((htidy.stops _ hp).symm.trans hcont)

theorem TidyWords.after_eq (htidy : TidyWords text) (hpos : 0 < q)
    (hstart : isContinuation (byteAt text q) = false)
    (hp : identifierAt text (previous_codepoint_start text q)) :
    afterCodepoint text (previous_codepoint_start text q) = q := by
  apply Nat.le_antisymm
  · apply Nat.le_of_not_lt
    intro hlt
    have hcont := htidy.continued _ hp q (previous_codepoint_start_lt hpos) hlt
    exact Bool.false_ne_true (hstart.symm.trans hcont)
  · exact htidy.le_after hp

theorem walkBack_le (text : List UInt8) (fuel p : ℕ) : walkBack text fuel p ≤ p := by
  induction fuel generalizing p with
  | zero => exact Nat.le_refl p
  | succ fuel ih =>
    rw [walkBack]
    split
    next h =>
      simp only [Bool.and_eq_true, decide_eq_true_eq] at h
      exact Nat.le_trans (ih _) (Nat.le_of_lt (previous_codepoint_start_lt h.1))
    next => exact Nat.le_refl p

theorem walkBack_boundary (fuel : ℕ) (hp : IsBoundary text p) :
    IsBoundary text (walkBack text fuel p) := by
  induction fuel generalizing p with
  | zero => exact hp
  | succ fuel ih =>
    rw [walkBack]
    split
    · exact ih (previous_codepoint_start_boundary text p)
    · exact hp

theorem le_walkOn (hsize : text.length < 2 ^ 32) (fuel : ℕ) (hp : p ≤ text.length) :
    p ≤ walkOn text fuel p ∧ walkOn text fuel p ≤ text.length := by
  induction fuel generalizing p with
  | zero => exact ⟨Nat.le_refl p, hp⟩
  | succ fuel ih =>
    rw [walkOn]
    split
    next h =>
      rw [isWordAt_iff hsize] at h
      have hrest := ih h.after_le
      exact ⟨Nat.le_trans (Nat.le_of_lt h.lt_after) hrest.1, hrest.2⟩
    next => exact ⟨Nat.le_refl p, hp⟩

/-- **The walk back ends where the run begins.** -/
theorem TidyWords.walkBack_eq (htidy : TidyWords text) (hsize : text.length < 2 ^ 32)
    (hfirst : ∀ p, identifierAt text p → afterCodepoint text p ≠ b) {fuel : ℕ} (hfuel : c ≤ fuel)
    (hc : identifierAt text c) (hrun : IdentifierRun text b c) : walkBack text fuel c = b := by
  induction fuel generalizing c with
  | zero =>
    have hle := hrun.le
    rw [walkBack]
    omega
  | succ fuel ih =>
    rw [walkBack]
    rcases hrun.final with rfl | ⟨p, hbefore, hp, rfl⟩
    · rw [if_neg]
      simp only [Bool.and_eq_true, decide_eq_true_eq, isWordAt_iff hsize, not_and]
      intro hpos hprevious
      exact hfirst _ hprevious (htidy.after_eq hpos (hc.isContinuation_eq hsize) hprevious)
    · have hlt := hp.lt_after
      have hback := htidy.previous_eq hsize hp hlt (Nat.le_refl _)
      rw [hback, if_pos]
      · exact ih (by omega) hp hbefore
      · simp only [Bool.and_eq_true, decide_eq_true_eq, isWordAt_iff hsize]
        exact ⟨by omega, hp⟩

/-- **The walk on ends where the run ends.** -/
theorem walkOn_eq (hsize : text.length < 2 ^ 32) (hlast : ¬ identifierAt text e) {fuel : ℕ}
    (hfuel : e ≤ fuel + c) (hrun : IdentifierRun text c e) : walkOn text fuel c = e := by
  induction hrun generalizing fuel with
  | refl b =>
    cases fuel with
    | zero => rfl
    | succ fuel =>
      rw [walkOn, if_neg]
      rwa [isWordAt_iff hsize]
  | @cons b e head rest ih =>
    have hlt := head.lt_after
    have hle := rest.le
    obtain ⟨fuel, rfl⟩ : ∃ n, fuel = n + 1 := ⟨fuel - 1, by omega⟩
    rw [walkOn, if_pos ((isWordAt_iff hsize).mpr head)]
    exact ih hlast (by omega)

/-! ### The token -/

theorem tokenCursor_le (text : List UInt8) (offset : ℕ) :
    tokenCursor text offset ≤ min offset (castSize text) := by
  rw [tokenCursor]
  split
  next h =>
    simp only [Bool.and_eq_true, decide_eq_true_eq] at h
    exact Nat.le_of_lt (previous_codepoint_start_lt h.1.2)
  next => exact Nat.le_refl _

/-- The scan starts on the codepoint the offset is in or behind. -/
theorem TidyWords.tokenCursor_eq (htidy : TidyWords text) (hsize : text.length < 2 ^ 32)
    (hc : identifierAt text c) (hle : c ≤ min offset text.length)
    (hin : min offset text.length < afterCodepoint text c ∨
      min offset text.length = afterCodepoint text c ∧
        ¬ identifierAt text (min offset text.length)) :
    tokenCursor text offset = c := by
  rw [tokenCursor, castSize_eq hsize]
  generalize min offset text.length = o at hle hin
  rcases Nat.eq_or_lt_of_le hle with rfl | hlt
  · rw [if_neg]
    simp [(isWordAt_iff hsize).mpr hc]
  · have ho : ¬ identifierAt text o := by
      rcases hin with hin | ⟨-, ho⟩
      · intro ho
        have hcont := htidy.continued c hc o hlt hin
        exact Bool.false_ne_true ((ho.isContinuation_eq hsize).symm.trans hcont)
      · exact ho
    have hback : previous_codepoint_start text o = c :=
      htidy.previous_eq hsize hc hlt (hin.elim Nat.le_of_lt fun h => Nat.le_of_eq h.1)
    rw [hback, if_pos]
    simp only [Bool.and_eq_true, Bool.not_eq_true', decide_eq_true_eq, isWordAt_iff hsize,
      ← Bool.not_eq_true]
    exact ⟨⟨ho, by omega⟩, hc⟩

/-- **The token at an offset in a maximal run is the run.** -/
theorem TidyWords.token_at_eq (htidy : TidyWords text) (hsize : text.length < 2 ^ 32)
    (hrun : MaximalRun text b e) (hb : b ≤ min offset text.length)
    (he : min offset text.length ≤ e) : token_at text offset = ⟨b, e, slice text b e⟩ := by
  obtain ⟨c, hbefore, hc, hbehind, hle, hin⟩ := hrun.run.codepoint hrun.lt hb he
  have hcursor : tokenCursor text offset = c := by
    apply htidy.tokenCursor_eq hsize hc hle
    rcases hin with hin | ⟨ho, hafter⟩
    · exact .inl hin
    · exact .inr ⟨ho.trans hafter.symm, ho ▸ hrun.last⟩
  have hwordAt : isWordAt text c = true := (isWordAt_iff hsize).mpr hc
  have hend : e ≤ text.length := hbehind.le_length hc.after_le
  rw [token_at, hcursor, hwordAt, castSize_eq hsize,
    htidy.walkBack_eq hsize hrun.first (Nat.le_refl c) hc hbefore,
    walkOn_eq hsize hrun.last (by omega) hbehind]
  rfl

theorem slice_ne_nil (hlt : b < e) (hle : e ≤ text.length) : slice text b e ≠ [] := by
  intro h
  have hlen := congrArg List.length h
  rw [slice, List.length_take, List.length_drop, List.length_nil] at hlen
  omega

/-- Where the scan finds a word, the offset is in a maximal run. -/
theorem TidyWords.exists_run (htidy : TidyWords text) (hsize : text.length < 2 ^ 32)
    (hcursor : identifierAt text (tokenCursor text offset)) :
    ∃ b e, MaximalRun text b e ∧ b ≤ min offset text.length ∧ min offset text.length ≤ e := by
  obtain ⟨b, hbefore, hfirst⟩ := @exists_first text (tokenCursor text offset)
  obtain ⟨e, hbehind, hlast⟩ := @exists_last text (afterCodepoint text (tokenCursor text offset))
  have hlt := hcursor.lt_after
  have hb := hbefore.le
  have he := hbehind.le
  have hle := tokenCursor_le text offset
  rw [castSize_eq hsize] at hle
  have hafter : min offset text.length ≤ afterCodepoint text (tokenCursor text offset) := by
    revert hcursor
    rw [tokenCursor, castSize_eq hsize]
    split
    · exact htidy.le_after
    · exact fun h => Nat.le_of_lt h.lt_after
  have hrun := hbefore.trans (.cons hcursor hbehind)
  exact ⟨b, e, ⟨by omega, hrun, hfirst, hlast⟩, by omega, by omega⟩

/-- The span is a slice of the text that begins where a codepoint may start. -/
structure TokenSpan.Within (text : List UInt8) (span : TokenSpan) : Prop where
  le : span.begin ≤ span.end
  le_length : span.end ≤ text.length
  text_eq : span.text = slice text span.begin span.end
  boundary : IsBoundary text span.begin

/-- Whatever the text is, the token is a part of it. -/
theorem token_at_within (hsize : text.length < 2 ^ 32) : (token_at text offset).Within text := by
  rw [token_at]
  dsimp only
  split
  · exact ⟨Nat.le_refl 0, Nat.zero_le _, rfl, .inl rfl⟩
  next hcursor =>
    rw [Bool.not_eq_true', Bool.not_eq_false, isWordAt_iff hsize] at hcursor
    have hback := walkBack_le text (tokenCursor text offset) (tokenCursor text offset)
    have hon := le_walkOn hsize (castSize text) hcursor.after_le
    have hlt := hcursor.lt_after
    have hstart := walkBack_boundary (tokenCursor text offset)
      (.inr (hcursor.isContinuation_eq hsize))
    refine ⟨?_, hon.2, rfl, hstart⟩
    show walkBack _ _ _ ≤ walkOn _ _ _
    omega

theorem TidyWords.end_boundary (htidy : TidyWords text) (hrun : MaximalRun text b e) :
    IsBoundary text e := by
  rcases hrun.run.final with rfl | ⟨p, -, hp, rfl⟩
  · exact absurd hrun.lt (Nat.lt_irrefl b)
  · exact .inr (htidy.stops p hp)

/-- Outside every run there is no token. -/
theorem token_at_eq_empty (hcursor : ¬ isWordAt text (tokenCursor text offset) = true) :
    token_at text offset = {} := by
  rw [Bool.not_eq_true] at hcursor
  rw [token_at, hcursor]
  rfl

/-- **The token at an offset.**  It is a slice of the text that begins where a
codepoint may start.  Where the words of the text are tidy it also ends at one, is the
maximal run of identifier-like codepoints that has the offset in it or at its end, the
same for all of these offsets, and is empty exactly where there is no such run. -/
theorem token_at_maximal_run (text : List UInt8) (hsize : text.length < 2 ^ 32) (offset : ℕ) :
    (token_at text offset).Within text ∧
      (TidyWords text →
        IsBoundary text (token_at text offset).end ∧
          (∀ b e, MaximalRun text b e → b ≤ min offset text.length →
            min offset text.length ≤ e → token_at text offset = ⟨b, e, slice text b e⟩) ∧
          ((token_at text offset).text ≠ [] ↔
            ∃ b e, MaximalRun text b e ∧ b ≤ min offset text.length ∧
              min offset text.length ≤ e)) := by
  refine ⟨token_at_within hsize, fun htidy => ?_⟩
  have heq : ∀ b e, MaximalRun text b e → b ≤ min offset text.length →
      min offset text.length ≤ e → token_at text offset = ⟨b, e, slice text b e⟩ :=
    fun _ _ hrun hb he => htidy.token_at_eq hsize hrun hb he
  by_cases hcursor : isWordAt text (tokenCursor text offset) = true
  · obtain ⟨b, e, hrun, hb, he⟩ := htidy.exists_run hsize ((isWordAt_iff hsize).mp hcursor)
    have htoken := heq b e hrun hb he
    have hle : e ≤ text.length := by
      have hin := @token_at_within text offset hsize
      rw [htoken] at hin
      exact hin.le_length
    refine ⟨htoken ▸ htidy.end_boundary hrun, heq, fun _ => ⟨b, e, hrun, hb, he⟩, fun _ => ?_⟩
    rw [htoken]
    exact slice_ne_nil hrun.lt hle
  · have hempty := token_at_eq_empty hcursor
    refine ⟨hempty ▸ .inl rfl, heq, fun h => absurd (hempty ▸ rfl) h, ?_⟩
    rintro ⟨b, e, hrun, hb, he⟩
    -- a run here would be the token
    have htoken := heq b e hrun hb he
    rw [hempty, TokenSpan.mk.injEq] at htoken
    have hlt := hrun.lt
    omega

/-- `é1 b`: the three bytes of the first word, from behind it. -/
theorem token_at_maximal_run_word :
    [0xC3, 0xA9, 0x31, 0x20, 0x62].length < 2 ^ 32 ∧
      TidyWords [0xC3, 0xA9, 0x31, 0x20, 0x62] ∧
        (token_at [0xC3, 0xA9, 0x31, 0x20, 0x62] 3).text = [0xC3, 0xA9, 0x31] ∧
          ∃ b e, MaximalRun [0xC3, 0xA9, 0x31, 0x20, 0x62] b e ∧
            b ≤ min 3 [0xC3, 0xA9, 0x31, 0x20, 0x62].length ∧
              min 3 [0xC3, 0xA9, 0x31, 0x20, 0x62].length ≤ e := by
  have hsize : [0xC3, 0xA9, 0x31, 0x20, 0x62].length < 2 ^ 32 := by decide
  have hutf8 : Utf8Text [0xC3, 0xA9, 0x31, 0x20, 0x62] := by
    apply @Utf8Text.cons 0xC3 [0xA9] _ (.inl (by decide +kernel)) (by decide +kernel)
    apply @Utf8Text.cons 0x31 [] _ (.inl (by decide +kernel)) (by decide +kernel)
    apply @Utf8Text.cons 0x20 [] _ (.inl (by decide +kernel)) (by decide +kernel)
    exact @Utf8Text.cons 0x62 [] _ (.inl (by decide +kernel)) (by decide +kernel) .nil
  have htidy := hutf8.tidyWords hsize
  have htoken : (token_at [0xC3, 0xA9, 0x31, 0x20, 0x62] 3).text = [0xC3, 0xA9, 0x31] := by
    decide +kernel
  refine ⟨hsize, htidy, htoken, ?_⟩
  apply ((token_at_maximal_run _ hsize 3).2 htidy).2.2.mp
  rw [htoken]
  exact List.cons_ne_nil _ _

/-- A lead byte that announces three bytes, a blank and a letter are one
identifier-like codepoint to the scan, and the letter alone is the token at its end.
Behind a letter and a stray continuation byte the token is the letter, which does not
reach there. -/
theorem token_at_malformed :
    MaximalRun [0xE3, 0x20, 0x42] 0 3 ∧
      token_at [0xE3, 0x20, 0x42] 0 = ⟨0, 3, [0xE3, 0x20, 0x42]⟩ ∧
        token_at [0xE3, 0x20, 0x42] 3 = ⟨2, 3, [0x42]⟩ ∧
          token_at [0x41, 0x80] 2 = ⟨0, 1, [0x41]⟩ := by
  have hhead : identifierAt [0xE3, 0x20, 0x42] 0 := by
    show is_identifier_like_codepoint_at _ _ _ = true
    decide +kernel
  refine ⟨⟨by decide, .one hhead, fun p hp => Nat.ne_of_gt (Nat.zero_lt_of_lt hp.lt_after), ?_⟩,
    ?_, ?_, ?_⟩
  · exact fun h => absurd (identifierAt_iff.mp h).1 (Nat.lt_irrefl 3)
  · decide +kernel
  · decide +kernel
  · decide +kernel

end Pegium
