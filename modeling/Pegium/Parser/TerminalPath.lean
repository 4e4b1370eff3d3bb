/-
Pegium/Parser/TerminalPath.lean

The terminal fast path and the strict parse.

A terminal expression is matched twice by the source: by the pointer
walking `terminal` and by the context driven `parse`.  The two recursions agree
combinator by combinator, with two exceptions.  An unordered group is matched by
`terminal` in passes from left to right, and by `parse` from its first unmatched
element again after each match; so they take different elements where an unmatched
element before the last match and one after it both match.  And a predicate asks
`terminal` for the whole operand, but a strict parse only for its leading elements.

`SamePath` says of one expression at one place that nothing the match asks for meets
an exception there.  Main result: `terminal_agrees_of_samePath`, the two matches then
accept the same and end at the same offset.  An unordered group of which no two
elements match at one place meets the first exception nowhere
(`oneSided_of_exclusive`).
-/
import Pegium.Parser.Predicates
import Pegium.Parser.TerminalExpr

namespace Pegium

variable {Γ : Grammar} {text : List UInt8}

/-! ### What a match asks for -/

/-- The terminal match of `e` at `p` ends at `q`. -/
def TerminalMatches (Γ : Grammar) (text : List UInt8) (e : Expr) (p q : ℕ) : Prop :=
  ∃ n, (interp Γ text n).terminal e p = some (some q)

/-- A sequence at `p` asks for an element at `q` when those before it match. -/
inductive Follows (Γ : Grammar) (text : List UInt8) : List Expr → ℕ → Expr → ℕ → Prop
  | head {e : Expr} {es : List Expr} {p : ℕ} : Follows Γ text (e :: es) p e p
  | tail {e e' : Expr} {es : List Expr} {p q r : ℕ} (hm : TerminalMatches Γ text e p q)
      (h : Follows Γ text es q e' r) : Follows Γ text (e :: es) p e' r

/-- A choice at `p` asks for an alternative when those before it do not match. -/
inductive Tried (Γ : Grammar) (text : List UInt8) : List Expr → ℕ → Expr → Prop
  | head {e : Expr} {es : List Expr} {p : ℕ} : Tried Γ text (e :: es) p e
  | tail {e e' : Expr} {es : List Expr} {p : ℕ} (hm : ∀ q, ¬ TerminalMatches Γ text e p q)
      (h : Tried Γ text es p e') : Tried Γ text (e :: es) p e'

/-- So many matches one after the other. -/
inductive Repeats (Γ : Grammar) (text : List UInt8) (e : Expr) : ℕ → ℕ → ℕ → Prop
  | zero {p : ℕ} : Repeats Γ text e 0 p p
  | succ {k p q r : ℕ} (hm : TerminalMatches Γ text e p q) (h : Repeats Γ text e k q r) :
      Repeats Γ text e (k + 1) p r

/-- None of the elements not yet matched matches here. -/
def NoneMatches (Γ : Grammar) (text : List UInt8) (es : List (Expr × Bool)) (p : ℕ) : Prop :=
  ∀ e, (e, false) ∈ es → ∀ q, ¬ TerminalMatches Γ text e p q

/-- The places of an unordered group at `p` where it goes on after a match, with the
elements up to the last match, those after it, and their matched flags: the next match is
the first one after the last match, or else the first one before it. -/
inductive Visits (Γ : Grammar) (text : List UInt8) (es : List Expr) (p : ℕ) :
    List (Expr × Bool) → List (Expr × Bool) → ℕ → Prop
  | start : Visits Γ text es p [] (es.map (·, false)) p
  | later {before a c : List (Expr × Bool)} {e : Expr} {q r : ℕ}
      (h : Visits Γ text es p before (a ++ (e, false) :: c) q) (ha : NoneMatches Γ text a q)
      (hm : TerminalMatches Γ text e q r) :
      Visits Γ text es p (before ++ a ++ [(e, true)]) c r
  | earlier {a c after : List (Expr × Bool)} {e : Expr} {q r : ℕ}
      (h : Visits Γ text es p (a ++ (e, false) :: c) after q)
      (hafter : NoneMatches Γ text after q) (ha : NoneMatches Γ text a q)
      (hm : TerminalMatches Γ text e q r) :
      Visits Γ text es p (a ++ [(e, true)]) (c ++ after) r

/-- The element is asked for when those not yet matched are tried in order. -/
def Sought (Γ : Grammar) (text : List UInt8) (es : List (Expr × Bool)) (p : ℕ) (e : Expr) :
    Prop :=
  ∃ a c, es = a ++ (e, false) :: c ∧ NoneMatches Γ text a p

/-- After each match of an unordered group the unmatched elements that match at the place
reached stand all after the last match, or all before it. -/
def OneSided (Γ : Grammar) (text : List UInt8) (es : List Expr) (p : ℕ) : Prop :=
  ∀ before after q, Visits Γ text es p before after q →
    NoneMatches Γ text before q ∨ NoneMatches Γ text after q

/-- A leading element of the operand parses at `p` exactly if the operand matches. -/
def LeadTells (Γ : Grammar) (text : List UInt8) (e : Expr) (p : ℕ) : Prop :=
  ∀ ctx : ParseContext, ctx.builder.Reachable → ctx.cursor = p →
    (LeadParses Γ text .noop e ctx ↔ ∃ q, TerminalMatches Γ text e p q)

/-- Nothing that the match of an expression at a place asks for tells the two matches
apart: every unordered group that is asked for is one-sided there, and so is every
predicate decided by the leading elements of its operand. -/
inductive SamePath (Γ : Grammar) (text : List UInt8) : Expr → ℕ → Prop
  | literal {id : ℕ} {value : List UInt8} {case_sensitive : Bool} {p : ℕ} :
      SamePath Γ text (.literal id value case_sensitive) p
  | characterRange {id : ℕ} {lookup : UInt8 → Bool} {p : ℕ} :
      SamePath Γ text (.characterRange id lookup) p
  | anyCharacter {id p : ℕ} : SamePath Γ text (.anyCharacter id) p
  | terminalRule {r p : ℕ} : SamePath Γ text (.terminalRule r) p
  | group {es : List Expr} {p : ℕ} (h : ∀ e q, Follows Γ text es p e q → SamePath Γ text e q) :
      SamePath Γ text (.group es) p
  | orderedChoice {es : List Expr} {p : ℕ} (h : ∀ e, Tried Γ text es p e → SamePath Γ text e p) :
      SamePath Γ text (.orderedChoice es) p
  | unorderedGroup {es : List Expr} {p : ℕ} (hone : OneSided Γ text es p)
      (h : ∀ before after q e, Visits Γ text es p before after q →
        Sought Γ text (before ++ after) q e → SamePath Γ text e q) :
      SamePath Γ text (.unorderedGroup es) p
  | repetition {min : ℕ} {max : Option ℕ} {e : Expr} {p : ℕ}
      (h : ∀ k q, (∀ m ∈ max, k < Nat.max min m) → Repeats Γ text e k p q →
        SamePath Γ text e q) :
      SamePath Γ text (.repetition min max e) p
  | andPredicate {e : Expr} {p : ℕ} (h : LeadTells Γ text e p) : SamePath Γ text (.andPredicate e) p
  | notPredicate {e : Expr} {p : ℕ} (h : LeadTells Γ text e p) : SamePath Γ text (.notPredicate e) p
  | skipperWrapped {s : ℕ} {base : Expr} {p : ℕ} (h : SamePath Γ text base p) :
      SamePath Γ text (.skipperWrapped s base) p

theorem Follows.mem {es : List Expr} {e : Expr} {p q : ℕ} (h : Follows Γ text es p e q) :
    e ∈ es := by
  induction h with
  | head => exact List.mem_cons_self
  | tail _ _ ih => exact List.mem_cons_of_mem _ ih

theorem Tried.mem {es : List Expr} {e : Expr} {p : ℕ} (h : Tried Γ text es p e) : e ∈ es := by
  induction h with
  | head => exact List.mem_cons_self
  | tail _ _ ih => exact List.mem_cons_of_mem _ ih

theorem Repeats.append {e : Expr} {k j p q r : ℕ} (h : Repeats Γ text e k p q)
    (h' : Repeats Γ text e j q r) : Repeats Γ text e (k + j) p r := by
  induction h with
  | zero =>
    rw [Nat.zero_add]
    exact h'
  | succ hm _ ih =>
    rw [Nat.succ_add]
    exact .succ hm (ih h')

/-- The elements of the group are those before and after the last match. -/
theorem Visits.elements {es : List Expr} {p q : ℕ} {before after : List (Expr × Bool)}
    (h : Visits Γ text es p before after q) : (before ++ after).map (·.1) = es := by
  induction h with
  | start => simp [Function.comp_def]
  | later _ _ _ ih => simpa using ih
  | earlier _ _ _ _ ih => simpa using ih

/-- **A group with no two elements that match at one place is one-sided.** -/
theorem oneSided_of_exclusive {es : List Expr} {p : ℕ}
    (h : es.Pairwise fun e e' => ∀ q r r',
      TerminalMatches Γ text e q r → ¬ TerminalMatches Γ text e' q r') :
    OneSided Γ text es p := by
  intro before after q hvisits
  rw [← hvisits.elements, List.map_append, List.pairwise_append] at h
  refine or_iff_not_imp_left.mpr fun hbefore e' he' r' hm' => hbefore fun e he r hm => ?_
  exact h.2.2 e (List.mem_map_of_mem he) e' (List.mem_map_of_mem he') q r r' hm hm'

/-! ### Agreement of two results -/

/-- Go on after a match with `k`, or after a failure with `failed`. -/
def afterMatch (a : Option (Option ℕ)) (k : ℕ → Option (Option ℕ))
    (failed : Option (Option ℕ)) : Option (Option ℕ) :=
  match a with
  | none => none
  | some none => failed
  | some (some q) => k q

/-- When both have returned, the parse ends where the terminal match does. -/
def SameEnd (a : Option (Option ℕ)) (b : Option (Option Match)) : Prop :=
  ∀ x y, a = some x → b = some y → y.map (·.stop.cursor) = x

namespace SameEnd

variable {a : Option (Option ℕ)} {b : Option (Option Match)}

theorem none_left : SameEnd none b := nofun

theorem none_right : SameEnd a none := nofun

theorem fail : SameEnd (some none) (some none) := by
  intro x y hx hy
  simp only [Option.some.injEq] at hx hy
  rw [← hx, ← hy]
  rfl

theorem ok {m : Match} : SameEnd (some (some m.stop.cursor)) (some (some m)) := by
  intro x y hx hy
  simp only [Option.some.injEq] at hx hy
  rw [← hx, ← hy]
  rfl

theorem pmap {f : Match → Match} (h : SameEnd a b) (hf : ∀ m, (f m).stop = m.stop) :
    SameEnd a (Pegium.pmap f b) := by
  intro x y hx hy
  obtain ⟨y', hy', rfl⟩ := Option.map_eq_some_iff.mp hy
  rw [← h x y' hx hy', Option.map_map]
  congr 1
  funext m
  exact congrArg Position.cursor (hf m)

/-- Sequencing. -/
theorem pthen {k : ℕ → Option (Option ℕ)} {k' : Parse} (h : SameEnd a b)
    (hk : ∀ pos : Position, a = some (some pos.cursor) → SameEnd (k pos.cursor) (k' pos)) :
    SameEnd (afterMatch a k (some none)) (Pegium.pthen b k') := by
  rcases a with - | - | q
  · exact none_left
  · rcases b with - | - | m
    · exact none_right
    · exact fail
    · exact absurd (h _ _ rfl rfl) (by simp)
  · rcases b with - | - | m
    · exact none_right
    · exact absurd (h _ _ rfl rfl) (by simp)
    · have hq : m.stop.cursor = q := Option.some.inj (h _ _ rfl rfl)
      subst hq
      exact (hk m.stop rfl).pmap fun _ => rfl

/-- Alternatives. -/
theorem porElse {k : Option (Option ℕ)} {k' : Option (Option Match)} (h : SameEnd a b)
    (hk : a = some none → SameEnd k k') :
    SameEnd (afterMatch a (fun q => some (some q)) k) (Pegium.porElse b k') := by
  rcases a with - | - | q
  · exact none_left
  · rcases b with - | - | m
    · exact none_right
    · exact hk rfl
    · exact absurd (h _ _ rfl rfl) (by simp)
  · rcases b with - | - | m
    · exact none_right
    · exact absurd (h _ _ rfl rfl) (by simp)
    · exact h

/-- An item and what follows it, or nothing. -/
theorem optional {k : ℕ → Option (Option ℕ)} {k' : Parse} {pos : Position} (h : SameEnd a b)
    (hk : ∀ pos : Position, a = some (some pos.cursor) → SameEnd (k pos.cursor) (k' pos))
    (hf : ∀ pos, k' pos ≠ some none) :
    SameEnd (afterMatch a k (some (some pos.cursor)))
      (Pegium.porElse (Pegium.pthen b k') (some (some (.nil pos)))) := by
  rcases a with - | - | q
  · exact none_left
  · rcases b with - | - | m
    · exact none_right
    · exact @ok (.nil pos)
    · exact absurd (h _ _ rfl rfl) (by simp)
  · rcases b with - | - | m
    · exact none_right
    · exact absurd (h _ _ rfl rfl) (by simp)
    · have hq : m.stop.cursor = q := Option.some.inj (h _ _ rfl rfl)
      subst hq
      have hrest := hk m.stop rfl
      rcases hr : k' m.stop with - | - | m' <;> simp only [Pegium.pthen, hr]
      · exact none_right
      · exact absurd hr (hf m.stop)
      · rw [hr] at hrest
        exact hrest.pmap (f := m.append) fun _ => rfl

end SameEnd

/-! ### Combinators -/

/-- The terminal matches of an interpretation are those of the code. -/
def Tells (Γ : Grammar) (text : List UInt8) (P : PegInterp) : Prop :=
  ∀ e p x, P.terminal e p = some x → ∀ q, TerminalMatches Γ text e p q ↔ x = some q

/-- The two matches of `e` agree at a place where both have returned. -/
def AgreesAt (P : PegInterp) (e : Expr) (p : ℕ) : Prop :=
  ∀ pos : Position, pos.cursor = p → SameEnd (P.terminal e p) (P.parse false .noop e pos)

@[simp] theorem skip_noop {P : PegInterp} (pos : Position) :
    P.skip text .noop pos = some (.nil pos) := by
  rw [PegInterp.skip, skipFrom, skipLoop, skipIgnored]
  rfl

@[simp] theorem skipThen_noop {P : PegInterp} (k : Parse) (pos : Position) :
    P.skipThen text .noop k pos = k pos := by
  rw [PegInterp.skipThen, skip_noop]
  show (k pos).map (Option.map (Match.nil pos).append) = k pos
  rcases k pos with - | - | m <;> simp

theorem Tells.matched {P : PegInterp} (h : Tells Γ text P) {e : Expr} {p q : ℕ}
    (hr : P.terminal e p = some (some q)) : TerminalMatches Γ text e p q :=
  (h e p _ hr q).mpr rfl

theorem Tells.refused {P : PegInterp} (h : Tells Γ text P) {e : Expr} {p : ℕ}
    (hr : P.terminal e p = some none) (q : ℕ) : ¬ TerminalMatches Γ text e p q :=
  fun hm => nomatch (h e p _ hr q).mp hm

section Combinators

variable {P : PegInterp} (hT : Tells Γ text P) {pos : Position}

include hT in
theorem sequence_sameEnd {es : List Expr}
    (hes : ∀ e q, Follows Γ text es pos.cursor e q → AgreesAt P e q) :
    SameEnd (terminalSequence P.terminal es pos.cursor)
      (P.elements text false .noop es pos) := by
  induction es generalizing pos with
  | nil => exact @SameEnd.ok (.nil pos)
  | cons e es ih =>
    rw [PegInterp.elements, skipThen_noop]
    refine (hes e _ .head pos rfl).pthen fun pos' hpos' => ?_
    exact ih fun e' q h => hes e' q (.tail (hT.matched hpos') h)

include hT in
theorem group_sameEnd {es : List Expr}
    (hes : ∀ e q, Follows Γ text es pos.cursor e q → AgreesAt P e q) :
    SameEnd (terminalSequence P.terminal es pos.cursor) (P.group text false .noop es pos) := by
  have h := sequence_sameEnd hT hes
  cases es with
  | nil => exact h
  | cons e es => rwa [PegInterp.elements, skipThen_noop] at h

include hT in
theorem choice_sameEnd {es : List Expr}
    (hes : ∀ e, Tried Γ text es pos.cursor e → AgreesAt P e pos.cursor) :
    SameEnd (terminalAny P.terminal es pos.cursor) (P.choice false .noop es pos) := by
  induction es with
  | nil => exact .fail
  | cons e es ih =>
    exact (hes e .head pos rfl).porElse fun hr =>
      ih fun e' h => hes e' (.tail (hT.refused hr) h)

/-! #### Repetitions -/

/-- The two matches of `e` agree after fewer than `bound` matches from `p` on, or after
any number of them without a bound. -/
def AgreesAlong (Γ : Grammar) (text : List UInt8) (P : PegInterp) (e : Expr) (bound : Option ℕ)
    (p : ℕ) : Prop :=
  ∀ k q, (∀ m ∈ bound, k < m) → Repeats Γ text e k p q → AgreesAt P e q

variable {e : Expr}

theorem AgreesAlong.here {bound : Option ℕ} {p : ℕ} (h : AgreesAlong Γ text P e bound p)
    (hb : ∀ m ∈ bound, 0 < m) : AgreesAt P e p :=
  h 0 p hb .zero

theorem AgreesAlong.after {bound : Option ℕ} {k p q : ℕ} (h : AgreesAlong Γ text P e bound p)
    (hk : Repeats Γ text e k p q) : AgreesAlong Γ text P e (bound.map (· - k)) q := by
  intro j r hj hr
  refine h (k + j) r (fun m hm => ?_) (hk.append hr)
  have hlt := hj (m - k) (Option.mem_map_of_mem _ hm)
  omega

theorem AgreesAlong.next {bound : Option ℕ} {p q : ℕ} (h : AgreesAlong Γ text P e bound p)
    (hm : TerminalMatches Γ text e p q) : AgreesAlong Γ text P e (bound.map (· - 1)) q :=
  h.after (.succ hm .zero)

theorem AgreesAlong.upTo {bound : Option ℕ} {count p : ℕ} (h : AgreesAlong Γ text P e bound p)
    (hc : ∀ m ∈ bound, count ≤ m) : AgreesAlong Γ text P e (some count) p := by
  intro k q hk hr
  have hlt := hk count rfl
  exact h k q (fun m hm => Nat.lt_of_lt_of_le hlt (hc m hm)) hr

include hT

theorem repeats_of_times {count q : ℕ}
    (h : terminalTimes P.terminal e count pos.cursor = some (some q)) :
    Repeats Γ text e count pos.cursor q := by
  induction count generalizing pos with
  | zero =>
    simp only [terminalTimes, Option.some.injEq] at h
    exact h ▸ .zero
  | succ count ih =>
    rw [terminalTimes] at h
    rcases hr : P.terminal e pos.cursor with - | - | r <;> simp only [hr] at h
    · cases h
    · cases h
    · exact .succ (hT.matched hr) (@ih ⟨r, 0⟩ h)

theorem times_sameEnd {count : ℕ} (ha : AgreesAlong Γ text P e (some count) pos.cursor) :
    SameEnd (terminalTimes P.terminal e count pos.cursor)
      (P.times text false .noop e count pos) := by
  induction count generalizing pos with
  | zero => exact @SameEnd.ok (.nil pos)
  | succ count ih =>
    rw [PegInterp.times, skipThen_noop]
    have hitem := ha.here (by simp) pos rfl
    exact hitem.pthen fun pos' hpos' => ih (ha.next (hT.matched hpos'))

/-- The budgets of the two loops do not matter when both have returned. -/
theorem while_sameEnd {budget budget' : ℕ} (ha : AgreesAlong Γ text P e none pos.cursor) :
    SameEnd ((terminalWhile P.terminal e budget pos.cursor).map some)
      (P.star text false .noop e budget' pos) := by
  induction budget generalizing pos budget' with
  | zero => exact .none_left
  | succ budget ih =>
    cases budget' with
    | zero => exact .none_right
    | succ budget' =>
      have hitem := ha.here (by simp) pos rfl
      rw [terminalWhile, PegInterp.star, skipThen_noop]
      rcases hr : P.terminal e pos.cursor with - | - | q
      · exact .none_left
      · rcases hr' : P.parse false .noop e pos with - | - | m
        · exact .none_right
        · exact @SameEnd.ok (.nil pos)
        · exact absurd (hitem _ _ hr hr') (by simp)
      · rcases hr' : P.parse false .noop e pos with - | - | m
        · exact .none_right
        · exact absurd (hitem _ _ hr hr') (by simp)
        · have hq : m.stop.cursor = q := Option.some.inj (hitem _ _ hr hr')
          subst hq
          exact (ih (ha.next (hT.matched hr))).pmap fun _ => rfl

theorem upTo_sameEnd {count : ℕ} (ha : AgreesAlong Γ text P e (some count) pos.cursor) :
    SameEnd ((terminalUpTo P.terminal e count pos.cursor).map some)
      (P.upTo text false .noop e count pos) := by
  induction count generalizing pos with
  | zero => exact @SameEnd.ok (.nil pos)
  | succ count ih =>
    have hitem := ha.here (by simp) pos rfl
    rw [terminalUpTo, PegInterp.upTo, skipThen_noop]
    rcases hr : P.terminal e pos.cursor with - | - | q
    · exact .none_left
    · rcases hr' : P.parse false .noop e pos with - | - | m
      · exact .none_right
      · exact @SameEnd.ok (.nil pos)
      · exact absurd (hitem _ _ hr hr') (by simp)
    · rcases hr' : P.parse false .noop e pos with - | - | m
      · exact .none_right
      · exact absurd (hitem _ _ hr hr') (by simp)
      · have hq : m.stop.cursor = q := Option.some.inj (hitem _ _ hr hr')
        subst hq
        exact (ih (ha.next (hT.matched hr))).pmap fun _ => rfl

/-- `count + 1` mandatory items and what follows them. -/
theorem items_sameEnd {count : ℕ} (ha : AgreesAlong Γ text P e (some (count + 1)) pos.cursor)
    {k : ℕ → Option (Option ℕ)} {k' : Parse}
    (hk : ∀ pos' : Position, Repeats Γ text e (count + 1) pos.cursor pos'.cursor →
      SameEnd (k pos'.cursor) (k' pos')) :
    SameEnd (afterMatch (terminalTimes P.terminal e (count + 1) pos.cursor) k (some none))
      (pthen (P.parse false .noop e pos) fun pos =>
        pthen (P.times text false .noop e count pos) k') := by
  have hassoc : afterMatch (terminalTimes P.terminal e (count + 1) pos.cursor) k (some none)
      = afterMatch (P.terminal e pos.cursor)
          (fun q => afterMatch (terminalTimes P.terminal e count q) k (some none))
          (some none) := by
    rw [terminalTimes]
    rcases P.terminal e pos.cursor with - | - | q <;> rfl
  rw [hassoc]
  refine (ha.here (by simp) pos rfl).pthen fun pos₁ h₁ => ?_
  have hm := hT.matched h₁
  refine (times_sameEnd hT (ha.next hm)).pthen fun pos₂ h₂ => ?_
  exact hk pos₂ (.succ hm (repeats_of_times hT h₂))

/-- The cases of a terminal repetition have the meaning of the strict one. -/
theorem repetition_sameEnd {min : ℕ} {max : Option ℕ} (hc : ¬ (min = 0 ∧ max = some 0))
    (ha : AgreesAlong Γ text P e (max.map (Nat.max min)) pos.cursor) :
    SameEnd (terminalRepetition text P.terminal min max e pos.cursor)
      (P.repetition text false .noop min max e pos) := by
  have hzero : P.repetition text false .noop 0 max e pos
      = porElse (pthen (P.parse false .noop e pos) (P.more text false .noop 0 max e))
          (some (some (.nil pos))) := by
    simp only [PegInterp.repetition, if_true, Nat.zero_sub, PegInterp.times, pthen_nil]
  have hfail := P.more_ne_fail text false .noop 0 max e
  rcases min with - | min
  · rcases max with - | (- | - | max)
    · have hcode : terminalRepetition text P.terminal 0 none e pos.cursor
          = afterMatch (P.terminal e pos.cursor)
              (fun q => (terminalWhile P.terminal e text.length q).map some)
              (some (some pos.cursor)) := by
        rw [terminalRepetition, terminalWhile]
        rcases P.terminal e pos.cursor with - | - | q <;> rfl
      rw [hzero, hcode]
      refine (ha.here (by simp) pos rfl).optional (fun pos' hpos' => ?_) hfail
      exact while_sameEnd hT (ha.next (hT.matched hpos'))
    · exact absurd ⟨rfl, rfl⟩ hc
    · have hcode : terminalRepetition text P.terminal 0 (some 1) e pos.cursor
          = afterMatch (P.terminal e pos.cursor) (fun q => some (some q))
              (some (some pos.cursor)) := by
        rw [terminalRepetition]
        rcases P.terminal e pos.cursor with - | - | q <;> rfl
      rw [hzero, hcode]
      exact (ha.here (by simp) pos rfl).optional (fun pos' _ => @SameEnd.ok (.nil pos')) hfail
    · have hcode : terminalRepetition text P.terminal 0 (some (max + 2)) e pos.cursor
          = afterMatch (P.terminal e pos.cursor)
              (fun q => (terminalUpTo P.terminal e (max + 1) q).map some)
              (some (some pos.cursor)) := by
        simp only [terminalRepetition, terminalTimes]
        rcases hr : P.terminal e pos.cursor with - | - | q <;> simp [terminalUpTo, hr, afterMatch]
      rw [hzero, hcode]
      refine (ha.here (by simp) pos rfl).optional (fun pos' hpos' => ?_) hfail
      exact upTo_sameEnd hT ((ha.next (hT.matched hpos')).upTo (by simp))
  · rcases max with - | max
    · rcases min with - | min
      · have hone : P.repetition text false .noop 1 none e pos
            = pthen (P.parse false .noop e pos) (P.more text false .noop 1 none e) := by
          simp [PegInterp.repetition, PegInterp.times]
        rw [hone]
        refine (ha.here (by simp) pos rfl).pthen fun pos' hpos' => ?_
        exact while_sameEnd hT (ha.next (hT.matched hpos'))
      · refine items_sameEnd hT (ha.upTo (by simp)) fun pos' hpos' => ?_
        exact while_sameEnd hT (ha.after hpos')
    · have hmeaning : P.repetition text false .noop (min + 1) (some max) e pos
          = pthen (P.parse false .noop e pos) fun pos =>
              pthen (P.times text false .noop e min pos)
                (P.more text false .noop (min + 1) (some max) e) := rfl
      rw [hmeaning]
      simp only [terminalRepetition]
      have hmin : AgreesAlong Γ text P e (some (min + 1)) pos.cursor :=
        ha.upTo fun m hm => by
          obtain rfl : Nat.max (min + 1) max = m := Option.some.inj hm
          exact Nat.le_max_left _ _
      split
      next hmax =>
        -- a fixed count: nothing may follow
        subst hmax
        have hcode : terminalTimes P.terminal e (min + 1) pos.cursor
            = afterMatch (terminalTimes P.terminal e (min + 1) pos.cursor)
                (fun q => some (some q)) (some none) := by
          rcases terminalTimes P.terminal e (min + 1) pos.cursor with - | - | q <;> rfl
        rw [hcode]
        refine items_sameEnd hT hmin fun pos' _ => ?_
        have hnone : P.more text false .noop (min + 1) (some (min + 1)) e pos'
            = some (some (.nil pos')) := by
          simp [PegInterp.more, PegInterp.upTo]
        rw [hnone]
        exact @SameEnd.ok (.nil pos')
      next hmax =>
        have hcount : max - Nat.max (min + 1) 1 = max - (min + 1) :=
          congrArg (max - ·) (Nat.max_eq_left (by omega))
        refine items_sameEnd hT hmin fun pos' hpos' => ?_
        show SameEnd _ (P.upTo text false .noop e (max - Nat.max (min + 1) 1) pos')
        rw [hcount]
        refine upTo_sameEnd hT ((ha.after hpos').upTo fun m hm => ?_)
        obtain rfl : Nat.max (min + 1) max - (min + 1) = m := Option.some.inj hm
        exact Nat.sub_le_sub_right (Nat.le_max_right _ _) _

end Combinators

/-! #### Unordered groups -/

theorem noneMatches_append {es es' : List (Expr × Bool)} {p : ℕ} :
    NoneMatches Γ text (es ++ es') p ↔ NoneMatches Γ text es p ∧ NoneMatches Γ text es' p := by
  simp only [NoneMatches, List.mem_append, or_imp, forall_and]

/-- An element sought where none matches, whatever comes after. -/
theorem sought_of_noneMatches {es : List (Expr × Bool)} {p : ℕ} (h : NoneMatches Γ text es p)
    {e : Expr} (he : (e, false) ∈ es) (rest : List (Expr × Bool)) :
    Sought Γ text (es ++ rest) p e := by
  obtain ⟨a, c, rfl⟩ := List.append_of_mem he
  exact ⟨a, c ++ rest, by simp, (noneMatches_append.mp h).1⟩

/-- Either none matches, or there is a first one. -/
theorem first_match (es : List (Expr × Bool)) (p : ℕ) :
    NoneMatches Γ text es p ∨ ∃ a e c q, es = a ++ (e, false) :: c ∧ NoneMatches Γ text a p ∧
      TerminalMatches Γ text e p q := by
  induction es with
  | nil => exact .inl fun e he => absurd he List.not_mem_nil
  | cons head es ih =>
    by_cases hhead : NoneMatches Γ text [head] p
    · rcases ih with hnone | ⟨a, e, c, q, rfl, ha, hm⟩
      · exact .inl (noneMatches_append.mpr ⟨hhead, hnone⟩)
      · exact .inr ⟨head :: a, e, c, q, rfl, noneMatches_append.mpr ⟨hhead, ha⟩, hm⟩
    · right
      simp only [NoneMatches, List.mem_singleton, not_forall, not_not] at hhead
      obtain ⟨e, rfl, q, hm⟩ := hhead
      exact ⟨[], e, es, q, rfl, fun e he => absurd he List.not_mem_nil, hm⟩

/-- The rest of the passes, from the middle of a pass: `before` are the elements it is
past, and `any` says whether it matched one of them. -/
def passesFrom (rec : Matcher) (budget : ℕ) (before after : List (Expr × Bool)) (p : ℕ)
    (any : Bool) : Option (List (Expr × Bool) × ℕ) :=
  match terminalPass rec after p with
  | none => none
  | some (after', q, found) =>
    if any || found then terminalPasses rec budget (before ++ after') q
    else some (before ++ after', q)

/-- The answer of an unordered group after its passes. -/
def allMatched (r : List (Expr × Bool) × ℕ) : Option ℕ :=
  if r.1.all (·.2) then some r.2 else none

theorem terminalPasses_succ {rec : Matcher} {budget p : ℕ} {es : List (Expr × Bool)} :
    terminalPasses rec (budget + 1) es p = passesFrom rec budget [] es p false := by
  rw [terminalPasses, passesFrom]
  rcases terminalPass rec es p with - | ⟨es', q, - | -⟩ <;> rfl

theorem terminalUnorderedGroup_eq {rec : Matcher} {es : List Expr} {p : ℕ} :
    terminalUnorderedGroup rec es p
      = (passesFrom rec es.length [] (es.map (·, false)) p false).map allMatched := by
  rw [terminalUnorderedGroup, terminalPasses_succ]
  rcases passesFrom rec es.length [] (es.map (·, false)) p false with - | ⟨es', q⟩ <;> rfl

section UnorderedGroup

variable {P : PegInterp} (hT : Tells Γ text P) {pos : Position}
  {es before after a c : List (Expr × Bool)} {e : Expr} {p q budget : ℕ} {any : Bool}

/-- None of the elements not yet matched matches. -/
def Misses (rec : Matcher) (es : List (Expr × Bool)) (p : ℕ) : Prop :=
  ∀ e, (e, false) ∈ es → rec e p = some none

/-- None of them parses. -/
def ParseMisses (P : PegInterp) (es : List (Expr × Bool)) (pos : Position) : Prop :=
  ∀ e, (e, false) ∈ es → SameEnd (some none) (P.parse false .noop e pos)

theorem Misses.tail {rec : Matcher} {head : Expr × Bool} (h : Misses rec (head :: es) p) :
    Misses rec es p :=
  fun e he => h e (List.mem_cons_of_mem _ he)

theorem ParseMisses.tail {head : Expr × Bool} (h : ParseMisses P (head :: es) pos) :
    ParseMisses P es pos :=
  fun e he => h e (List.mem_cons_of_mem _ he)

include hT in
theorem misses_of_noneMatches (hnone : NoneMatches Γ text es p)
    (hreturns : ∀ e, (e, false) ∈ es → P.terminal e p ≠ none) : Misses P.terminal es p := by
  intro e he
  rcases hr : P.terminal e p with - | - | q
  · exact absurd hr (hreturns e he)
  · rfl
  · exact absurd (hT.matched hr) (hnone e he q)

theorem parseMisses_of_misses (h : Misses P.terminal es pos.cursor)
    (hagrees : ∀ e, (e, false) ∈ es → AgreesAt P e pos.cursor) : ParseMisses P es pos := by
  intro e he
  have hitem := hagrees e he pos rfl
  rwa [h e he] at hitem

include hT in
theorem terminal_of_matches (hreturns : P.terminal e p ≠ none)
    (hm : TerminalMatches Γ text e p q) : P.terminal e p = some (some q) := by
  obtain ⟨x, hx⟩ := Option.ne_none_iff_exists'.mp hreturns
  rw [hx, (hT e p x hx q).mp hm]

section Passes

variable {rec : Matcher}

/-- A pass over elements that do not match. -/
theorem terminalPass_misses (h : Misses rec es p) :
    terminalPass rec es p = some (es, p, false) := by
  induction es with
  | nil => rfl
  | cons head es ih =>
    obtain ⟨e, flag⟩ := head
    cases flag with
    | true => simp only [terminalPass, ih h.tail]
    | false => simp only [terminalPass, h e List.mem_cons_self, ih h.tail]

/-- A pass up to the first match. -/
theorem terminalPass_found (ha : Misses rec a p) (he : rec e p = some (some q)) :
    terminalPass rec (a ++ (e, false) :: c) p
      = (terminalPass rec c q).map fun r => (a ++ (e, true) :: r.1, r.2.1, true) := by
  induction a with
  | nil =>
    simp only [List.nil_append, terminalPass, he]
    rcases terminalPass rec c q with - | ⟨c', r, found⟩ <;> rfl
  | cons head a ih =>
    obtain ⟨e', flag⟩ := head
    have htail := ih ha.tail
    rw [List.cons_append]
    cases flag with
    | true =>
      simp only [terminalPass, htail]
      rcases terminalPass rec c q with - | ⟨c', r, found⟩ <;> rfl
    | false =>
      simp only [terminalPass, ha e' List.mem_cons_self, htail]
      rcases terminalPass rec c q with - | ⟨c', r, found⟩ <;> rfl

/-- The next match is after the last one, -/
theorem passesFrom_later (ha : Misses rec a p) (he : rec e p = some (some q)) :
    passesFrom rec budget before (a ++ (e, false) :: c) p any
      = passesFrom rec budget (before ++ a ++ [(e, true)]) c q true := by
  rw [passesFrom, passesFrom, terminalPass_found ha he]
  rcases terminalPass rec c q with - | ⟨c', r, found⟩
  · rfl
  · simp

/-- or in the next pass, -/
theorem passesFrom_earlier (hafter : Misses rec after p) (ha : Misses rec a p)
    (he : rec e p = some (some q)) :
    passesFrom rec (budget + 1) (a ++ (e, false) :: c) after p true
      = passesFrom rec budget (a ++ [(e, true)]) (c ++ after) q true := by
  rw [passesFrom, terminalPass_misses hafter]
  simp only [Bool.true_or, if_true]
  rw [terminalPasses_succ, List.append_assoc, List.cons_append, passesFrom_later ha he,
    List.nil_append]

/-- or nothing matches any more. -/
theorem passesFrom_misses (hbefore : Misses rec before p) (hafter : Misses rec after p)
    {r : List (Expr × Bool) × ℕ} (hr : passesFrom rec budget before after p any = some r) :
    r = (before ++ after, p) := by
  rw [passesFrom, terminalPass_misses hafter] at hr
  cases any with
  | false => exact (Option.some.inj hr).symm
  | true =>
    cases budget with
    | zero => cases hr
    | succ budget =>
      have hall : Misses rec (before ++ after) p := fun e he =>
        (List.mem_append.mp he).elim (hbefore e) (hafter e)
      change terminalPasses rec (budget + 1) (before ++ after) p = some r at hr
      rw [terminalPasses, terminalPass_misses hall] at hr
      exact (Option.some.inj hr).symm

end Passes

theorem oneOf_misses (h : ParseMisses P es pos) {y : Option (List (Expr × Bool) × Match)}
    (hy : P.oneOf false .noop es pos = some y) : y = none := by
  induction es generalizing y with
  | nil => exact (Option.some.inj hy).symm
  | cons head es ih =>
    obtain ⟨e, flag⟩ := head
    have hlater : ∀ flag, (P.oneOf false .noop es pos).map
        (Option.map fun r => ((e, flag) :: r.1, r.2)) = some y → y = none := by
      intro flag hy
      obtain ⟨y', hy', rfl⟩ := Option.map_eq_some_iff.mp hy
      rw [ih h.tail hy']
      rfl
    rw [PegInterp.oneOf.eq_def] at hy
    cases flag with
    | true => exact hlater true hy
    | false =>
      rcases hr : P.parse false .noop e pos with - | - | m <;> simp only [hr] at hy
      · cases hy
      · exact hlater false hy
      · exact absurd (h e List.mem_cons_self _ _ rfl hr) (by simp)

/-- What the strict parse takes is the first element that matches. -/
theorem oneOf_found (ha : ParseMisses P a pos)
    (he : SameEnd (some (some q)) (P.parse false .noop e pos))
    {y : Option (List (Expr × Bool) × Match)}
    (hy : P.oneOf false .noop (a ++ (e, false) :: c) pos = some y) :
    ∃ m, m.stop.cursor = q ∧ y = some (a ++ (e, true) :: c, m) := by
  induction a generalizing y with
  | nil =>
    rw [List.nil_append, PegInterp.oneOf] at hy
    rcases hr : P.parse false .noop e pos with - | - | m <;> simp only [hr] at hy
    · cases hy
    · exact absurd (he _ _ rfl hr) (by simp)
    · exact ⟨m, Option.some.inj (he _ _ rfl hr), (Option.some.inj hy).symm⟩
  | cons head a ih =>
    obtain ⟨e', flag⟩ := head
    have hlater : ∀ flag, (P.oneOf false .noop (a ++ (e, false) :: c) pos).map
        (Option.map fun r => ((e', flag) :: r.1, r.2)) = some y →
        ∃ m, m.stop.cursor = q ∧ y = some ((e', flag) :: a ++ (e, true) :: c, m) := by
      intro flag hy
      obtain ⟨y', hy', rfl⟩ := Option.map_eq_some_iff.mp hy
      obtain ⟨m, hm, rfl⟩ := ih ha.tail hy'
      exact ⟨m, hm, rfl⟩
    rw [List.cons_append, PegInterp.oneOf.eq_def] at hy
    cases flag with
    | true => exact hlater true hy
    | false =>
      rcases hr : P.parse false .noop e' pos with - | - | m <;> simp only [hr] at hy
      · cases hy
      · exact hlater false hy
      · exact absurd (ha e' List.mem_cons_self _ _ rfl hr) (by simp)

theorem unmatched_found :
    unmatched (a ++ (e, false) :: c) = unmatched (a ++ (e, true) :: c) + 1 := by
  simp [unmatched, Nat.add_assoc]

/-- One step of the strict parse, when the first element to match is known. -/
theorem othersOf_found {count : ℕ} (ha : ParseMisses P a pos)
    (he : SameEnd (some (some q)) (P.parse false .noop e pos)) {x : Option (Option ℕ)}
    (hrest : ∀ pos' : Position, pos'.cursor = q →
      SameEnd x (P.othersOf text false .noop count (a ++ (e, true) :: c) pos')) :
    SameEnd x (P.othersOf text false .noop (count + 1) (a ++ (e, false) :: c) pos) := by
  rw [PegInterp.othersOf, skip_noop]
  have hstart : (Match.nil pos).stop = pos := rfl
  simp only [hstart]
  rcases hy : P.oneOf false .noop (a ++ (e, false) :: c) pos with - | y
  · exact .none_right
  · obtain ⟨m, hm, rfl⟩ := oneOf_found ha he hy
    exact (hrest m.stop hm).pmap fun _ => rfl

theorem othersOf_misses {count : ℕ} (h : ParseMisses P es pos) {y : Option Match}
    (hy : P.othersOf text false .noop (count + 1) es pos = some y) : y = none := by
  rw [PegInterp.othersOf, skip_noop] at hy
  have hstart : (Match.nil pos).stop = pos := rfl
  simp only [hstart] at hy
  rcases hz : P.oneOf false .noop es pos with - | z
  · simp [hz] at hy
  · obtain rfl := oneOf_misses h hz
    simp only [hz, Option.some.injEq] at hy
    exact hy.symm

/-- Where a one-sided group goes on, the passes and the strict parse take the same
elements. -/
theorem visits_sameEnd {es : List Expr} {p : ℕ} (hT : Tells Γ text P)
    (hone : OneSided Γ text es p)
    (hagrees : ∀ before after q e, Visits Γ text es p before after q →
      Sought Γ text (before ++ after) q e → AgreesAt P e q)
    (hreturns : ∀ before after q, Visits Γ text es p before after q →
      ∀ e ∈ es, P.terminal e q ≠ none)
    {count : ℕ} (hvisits : Visits Γ text es p before after pos.cursor)
    (hcount : unmatched (before ++ after) = count) (hany : any = false → before = []) :
    SameEnd ((passesFrom P.terminal budget before after pos.cursor any).map allMatched)
      (P.othersOf text false .noop count (before ++ after) pos) := by
  have hterminal : ∀ {before after q}, Visits Γ text es p before after q →
      ∀ {e}, (e, false) ∈ before ++ after → P.terminal e q ≠ none := by
    intro before after q h e he
    exact hreturns _ _ _ h e (h.elements ▸ List.mem_map_of_mem he)
  -- elements sought where none matches
  have hmisses : ∀ {before after pos}, Visits Γ text es p before after pos.cursor →
      ∀ {a rest}, before ++ after = a ++ rest → NoneMatches Γ text a pos.cursor →
        ParseMisses P a pos := by
    intro before after pos h a rest heq ha
    refine parseMisses_of_misses (misses_of_noneMatches hT ha fun e he => ?_) fun e he => ?_
    · exact hterminal h (heq ▸ List.mem_append_left _ he)
    · exact hagrees _ _ _ e h (heq ▸ sought_of_noneMatches ha he rest)
  induction count generalizing before after pos budget any with
  | zero =>
    have hall : ∀ e ∈ before ++ after, e.2 = true := by
      intro e he
      have hpos := List.countP_eq_zero.mp hcount e he
      simpa using hpos
    intro x y hx hy
    obtain ⟨r, hr, rfl⟩ := Option.map_eq_some_iff.mp hx
    obtain rfl := passesFrom_misses
      (fun e he => nomatch hall (e, false) (List.mem_append_left _ he))
      (fun e he => nomatch hall (e, false) (List.mem_append_right _ he)) hr
    obtain rfl : some (.nil pos) = y := Option.some.inj hy
    rw [allMatched, if_pos (List.all_eq_true.mpr hall)]
    rfl
  | succ count ih =>
    -- both take the element `e`, and go on where it ends
    have hstep : ∀ {a c before' after' : List (Expr × Bool)} {e : Expr} {q budget : ℕ},
        before ++ after = a ++ (e, false) :: c → NoneMatches Γ text a pos.cursor →
        P.terminal e pos.cursor = some (some q) → Visits Γ text es p before' after' q →
        before' ++ after' = a ++ (e, true) :: c →
        SameEnd ((passesFrom P.terminal budget before' after' q true).map allMatched)
          (P.othersOf text false .noop (count + 1) (before ++ after) pos) := by
      intro a c before' after' e q budget hwhole ha hreturn hvisits' hwhole'
      have hitem := hagrees _ _ _ e hvisits ⟨a, c, hwhole, ha⟩ pos rfl
      rw [hreturn] at hitem
      have hleft : unmatched (before' ++ after') = count := by
        rw [hwhole, unmatched_found, ← hwhole'] at hcount
        omega
      rw [hwhole]
      refine othersOf_found (hmisses hvisits hwhole ha) hitem fun pos' hpos' => ?_
      subst hpos'
      rw [← hwhole']
      exact ih hvisits' hleft nofun
    rcases first_match after pos.cursor with hafter | ⟨a, e, c, q, rfl, ha, hm⟩
    · have hmissesAfter := misses_of_noneMatches hT hafter fun e he =>
        hterminal hvisits (List.mem_append_right _ he)
      rcases first_match before pos.cursor with hbefore | ⟨a, e, c, q, rfl, ha, hm⟩
      · -- nothing matches any more
        have hmissesBefore := misses_of_noneMatches hT hbefore fun e he =>
          hterminal hvisits (List.mem_append_left _ he)
        have hnone := hmisses hvisits (List.append_nil _).symm
          (noneMatches_append.mpr ⟨hbefore, hafter⟩)
        intro x y hx hy
        obtain ⟨r, hr, rfl⟩ := Option.map_eq_some_iff.mp hx
        obtain rfl := passesFrom_misses hmissesBefore hmissesAfter hr
        have hleft : ¬ ((before ++ after).all (·.2) = true) := by
          intro hall
          have hzero : unmatched (before ++ after) = 0 :=
            List.countP_eq_zero.mpr fun e he => by simp [List.all_eq_true.mp hall e he]
          omega
        rw [allMatched, if_neg hleft, othersOf_misses hnone hy]
        rfl
      · -- the next match is before the last one, in the next pass
        obtain rfl : any = true := by
          cases any with
          | true => rfl
          | false => exact absurd (hany rfl) (by simp)
        have hmissesA := misses_of_noneMatches hT ha fun e' he' =>
          hterminal hvisits (List.mem_append_left _ (List.mem_append_left _ he'))
        have hmem : (e, false) ∈ a ++ (e, false) :: c ++ after := by simp
        have hreturn := terminal_of_matches hT (hterminal hvisits hmem) hm
        cases budget with
        | zero =>
          rw [passesFrom, terminalPass_misses hmissesAfter]
          exact .none_left
        | succ budget =>
          rw [passesFrom_earlier hmissesAfter hmissesA hreturn]
          have hwhole : a ++ (e, false) :: c ++ after = a ++ (e, false) :: (c ++ after) := by
            simp
          exact hstep hwhole ha hreturn (hvisits.earlier hafter ha hm) (by simp)
    · -- the next match is after the last one
      have hmem : (e, false) ∈ before ++ (a ++ (e, false) :: c) := by simp
      have hreturn := terminal_of_matches hT (hterminal hvisits hmem) hm
      have hbefore : NoneMatches Γ text before pos.cursor :=
        (hone _ _ _ hvisits).resolve_right fun hnone => hnone e (by simp) q hm
      have hmissesA := misses_of_noneMatches hT ha fun e' he' =>
        hterminal hvisits (List.mem_append_right _ (List.mem_append_left _ he'))
      rw [passesFrom_later hmissesA hreturn]
      exact hstep (List.append_assoc _ _ _).symm (noneMatches_append.mpr ⟨hbefore, ha⟩) hreturn
        (hvisits.later ha hm) (by simp)

theorem unorderedGroup_sameEnd {es : List Expr} (hT : Tells Γ text P) (hne : es ≠ [])
    (hone : OneSided Γ text es pos.cursor)
    (hagrees : ∀ before after q e, Visits Γ text es pos.cursor before after q →
      Sought Γ text (before ++ after) q e → AgreesAt P e q)
    (hreturns : ∀ before after q, Visits Γ text es pos.cursor before after q →
      ∀ e ∈ es, P.terminal e q ≠ none) :
    SameEnd (terminalUnorderedGroup P.terminal es pos.cursor)
      (P.unorderedGroup text false .noop es pos) := by
  obtain ⟨n, hn⟩ : ∃ n, es.length = n + 1 := ⟨es.length - 1, by
    have := List.length_pos_of_ne_nil hne
    omega⟩
  have hmeaning : P.unorderedGroup text false .noop es pos
      = P.othersOf text false .noop es.length (es.map (·, false)) pos := by
    rw [PegInterp.unorderedGroup, hn, PegInterp.othersOf, skip_noop, Nat.add_sub_cancel]
    have hstart : (Match.nil pos).stop = pos := rfl
    simp only [hstart]
    rcases P.oneOf false .noop (es.map (·, false)) pos with - | - | ⟨es', m⟩
    · rfl
    · rfl
    · simp
  have hall : unmatched (es.map (·, false)) = es.length := by
    simp [unmatched, List.countP_map, Function.comp_def]
  rw [terminalUnorderedGroup_eq, hmeaning]
  exact visits_sameEnd hT hone hagrees hreturns .start hall fun _ => rfl

end UnorderedGroup

/-! ### The two matches agree -/

/-- The two matches of `e` at the cursor of a plain context accept the same and
end at the same offset. -/
def TerminalAgrees (Γ : Grammar) (text : List UInt8) (e : Expr) (ctx : ParseContext) : Prop :=
  ∀ q, (∃ n, (interp Γ text n).terminal e ctx.cursor = some (some q)) ↔
    ∃ ctx', StrictParse Γ text .noop e ctx (true, ctx') ∧ ctx'.cursor = q

theorem reachable_empty (pos : Position) : (pos.ctx .empty).builder.Reachable := by
  refine ⟨[], .start, rfl, ?_⟩
  show CstBuilder.empty = TreeBuilder.empty.toCstBuilder
  rw [TreeBuilder.toCstBuilder_empty]

theorem terminalMatches_iff {e : Expr} {p q : ℕ} :
    TerminalMatches Γ text e p q ↔ ∃ n, (peg Γ text n).terminal e p = some (some q) := by
  simp only [TerminalMatches, (simulates_interp Γ text _).terminal]

theorem tells_peg (n : ℕ) : Tells Γ text (peg Γ text n) := by
  intro e p x hx q
  rw [terminalMatches_iff]
  constructor
  · rintro ⟨n', hn'⟩
    exact peg_terminal_agree hx hn'
  · rintro rfl
    exact ⟨n, hx⟩

/-- Agreement at every depth is agreement of what is accepted, when the calls
return. -/
theorem TerminalAgrees.of_agreesAt {e : Expr} (hr : FromDepth (Returned Γ text e))
    {ctx : ParseContext} (h : ∀ n, AgreesAt (peg Γ text n) e ctx.cursor)
    (hb : ctx.builder.Reachable) (hp : ctx.cursor ≤ text.length) :
    TerminalAgrees Γ text e ctx := by
  obtain ⟨pos, tb, rfl⟩ := ParseContext.eq_ctx hb
  obtain ⟨N, hN⟩ := hr
  intro q
  change TerminalMatches Γ text e pos.cursor q ↔ _
  rw [terminalMatches_iff, strictParse_end_iff]
  constructor
  · rintro ⟨n, hn⟩
    -- a depth at which both have returned
    let k := max n N
    have hx := (peg_mono Γ text (Nat.le_max_left n N)).terminal e _ _ hn
    have hsim := (simulates_interp Γ text k).parse false .noop e tb pos
    have hreturned := (hN k (Nat.le_max_right n N)).parse (pos.ctx tb) hp
    generalize (interp Γ text k).parse false .noop e (pos.ctx tb) = r at hsim hreturned
    generalize hy : (peg Γ text k).parse false .noop e pos = y at hsim
    cases hsim with
    | bot => exact absurd rfl hreturned
    | fail => exact absurd (h k pos rfl _ _ hx hy) (by simp)
    | ok m => exact ⟨k, m, hy, Option.some.inj (h k pos rfl _ _ hx hy)⟩
  · rintro ⟨n, m, hm, rfl⟩
    let k := max n N
    have hy := (peg_mono Γ text (Nat.le_max_left n N)).parse false .noop e pos _ hm
    have hreturned := (hN k (Nat.le_max_right n N)).terminal pos.cursor hp
    rw [(simulates_interp Γ text k).terminal] at hreturned
    obtain ⟨x, hx⟩ := Option.ne_none_iff_exists'.mp hreturned
    refine ⟨k, ?_⟩
    rw [hx, ← h k pos rfl _ _ hx hy]
    rfl

/-! #### Places stay inside the text -/

section Bounds

variable (hΓ : Γ.WellFormed) {e : Expr} {es : List Expr} {p q : ℕ}
include hΓ

theorem TerminalMatches.le_length (h : TerminalMatches Γ text e p q) (he : e.WellFormed Γ)
    (hp : p ≤ text.length) : q ≤ text.length := by
  obtain ⟨n, hn⟩ := h
  exact ((bounded_interp hΓ text n).terminal e p q he hp hn).le_length

theorem Follows.le_length (h : Follows Γ text es p e q) (hes : ∀ e ∈ es, e.WellFormed Γ)
    (hp : p ≤ text.length) : q ≤ text.length := by
  induction h with
  | head => exact hp
  | tail hm _ ih =>
    exact ih (fun e he => hes e (List.mem_cons_of_mem _ he))
      (hm.le_length hΓ (hes _ List.mem_cons_self) hp)

theorem Repeats.le_length {k : ℕ} (h : Repeats Γ text e k p q) (he : e.WellFormed Γ)
    (hp : p ≤ text.length) : q ≤ text.length := by
  induction h with
  | zero => exact hp
  | succ hm _ ih => exact ih (hm.le_length hΓ he hp)

theorem Visits.le_length {before after : List (Expr × Bool)}
    (h : Visits Γ text es p before after q) (hes : ∀ e ∈ es, e.WellFormed Γ)
    (hp : p ≤ text.length) : q ≤ text.length := by
  induction h with
  | start => exact hp
  | later h _ hm ih => exact hm.le_length hΓ (hes _ (by simp [← h.elements])) ih
  | earlier h _ _ hm ih => exact hm.le_length hΓ (hes _ (by simp [← h.elements])) ih

end Bounds

/-! #### Predicates -/

/-- A probe of the operand and its terminal match give the same answer, when the
operand matches where its leading elements do. -/
theorem probe_agrees {e : Expr} {n : ℕ} {pos : Position} {x : Option ℕ} {b : Bool}
    (hlead : LeadTells Γ text e pos.cursor) (hx : (peg Γ text n).terminal e pos.cursor = some x)
    (hb : (peg Γ text n).probe false .noop e pos = some b) : b = x.isSome := by
  have hpos := hlead (pos.ctx .empty) (reachable_empty pos) rfl
  rw [leadParses_iff] at hpos
  rw [Bool.eq_iff_iff, (probesLead_peg Γ text n).probe .noop e pos b hb, hpos]
  simp only [tells_peg n e pos.cursor x hx]
  exact Option.isSome_iff_exists.symm

theorem SameEnd.leaf {pos : Position} {element : GrammarElement} (q : Option ℕ) :
    SameEnd (some q) (some (pegLeaf element pos q)) := by
  cases q with
  | none => exact .fail
  | some q => exact @SameEnd.ok (.leaf pos q element)

/-! #### Expressions -/

/-- No call has returned at depth zero. -/
theorem agreesAt_of_succ {e : Expr} {p : ℕ} (h : ∀ n, AgreesAt (peg Γ text (n + 1)) e p) (n : ℕ) :
    AgreesAt (peg Γ text n) e p := by
  cases n with
  | zero => exact fun _ _ => .none_left
  | succ n => exact h n

/-- **Where nothing tells them apart the two matches agree**, at every depth. -/
theorem agreesAt_of_samePath (hΓ : Γ.WellFormed) {e : Expr} (hs : TerminalExpr Γ text e)
    (hwf : e.WellFormed Γ) {p : ℕ} (hp : p ≤ text.length) (hpath : SamePath Γ text e p) (n : ℕ) :
    AgreesAt (peg Γ text n) e p := by
  induction hs generalizing p n with
  | @literal id value cs hword =>
    refine agreesAt_of_succ (fun n => ?_) n
    rintro pos rfl
    have hmatch : literalMatch text value cs pos.cursor
        = literalTerminal text value cs pos.cursor := by
      rw [literalMatch]
      rcases literalTerminal text value cs pos.cursor with - | q
      · rfl
      · simp [has_word_boundary_violation, hword]
    show SameEnd (some (literalTerminal text value cs pos.cursor))
      (some (pegLeaf _ pos (literalMatch text value cs pos.cursor)))
    rw [hmatch]
    exact .leaf _
  | characterRange | anyCharacter =>
    refine agreesAt_of_succ (fun n => ?_) n
    rintro pos rfl
    exact .leaf _
  | @group es _ ih =>
    refine agreesAt_of_succ (fun n => ?_) n
    rintro pos rfl
    cases hpath with
    | group hpath =>
      refine group_sameEnd (tells_peg n) fun e q hfollows => ?_
      have hq := hfollows.le_length hΓ (fun e he => hwf.sub he) hp
      exact ih e hfollows.mem (hwf.sub hfollows.mem) hq (hpath e q hfollows) n
  | @orderedChoice es _ ih =>
    refine agreesAt_of_succ (fun n => ?_) n
    rintro pos rfl
    cases hpath with
    | orderedChoice hpath =>
      refine choice_sameEnd (tells_peg n) fun e htried => ?_
      exact ih e htried.mem (hwf.sub htried.mem) hp (hpath e htried) n
  | @unorderedGroup es hes ih =>
    refine agreesAt_of_succ (fun n => ?_) n
    rintro pos rfl x y hx hy
    change terminalUnorderedGroup (peg Γ text n).terminal es pos.cursor = some x at hx
    change (peg Γ text n).unorderedGroup text false .noop es pos = some y at hy
    -- a depth at which the elements return
    obtain ⟨N, hN⟩ := FromDepth.forall_mem fun e he => (hes e he).returned hΓ (hwf.sub he)
    let k := max n N
    have hk : n ≤ k := Nat.le_max_left _ _
    have hx' := terminalUnorderedGroup_sub (peg_mono Γ text hk).terminal es _ x hx
    have hy' := (peg_mono Γ text hk).unorderedGroup es pos y hy
    have hne : es ≠ [] := List.ne_nil_of_length_pos (Nat.lt_of_succ_lt hwf.checked.1)
    cases hpath with
    | unorderedGroup hone hpath =>
      refine unorderedGroup_sameEnd (tells_peg k) hne hone ?_ ?_ x y hx' hy'
      · intro before after q e hvisits hsought
        have hmem : e ∈ es := by
          obtain ⟨a, c, hwhole, -⟩ := hsought
          rw [← hvisits.elements, hwhole]
          simp
        have hq := hvisits.le_length hΓ (fun e he => hwf.sub he) hp
        exact ih e hmem (hwf.sub hmem) hq (hpath before after q e hvisits hsought) k
      · intro before after q hvisits e he
        have hq := hvisits.le_length hΓ (fun e he => hwf.sub he) hp
        have hreturn := (hN k (Nat.le_max_right _ _) e he).terminal q hq
        rwa [(simulates_interp Γ text k).terminal] at hreturn
  | @repetition min max e hs ih =>
    refine agreesAt_of_succ (fun n => ?_) n
    rintro pos rfl
    have hmem : e ∈ (Expr.repetition min max e).children := List.mem_singleton_self e
    cases hpath with
    | repetition hpath =>
      refine repetition_sameEnd (tells_peg n) hwf.checked.2 fun k q hk hrepeats => ?_
      have hq := hrepeats.le_length hΓ (hwf.sub hmem) hp
      refine ih (hwf.sub hmem) hq (hpath k q (fun m hm => ?_) hrepeats) n
      exact hk _ (Option.mem_map_of_mem _ hm)
  | @andPredicate e hs ih =>
    refine agreesAt_of_succ (fun n => ?_) n
    rintro pos rfl x y hx hy
    obtain ⟨x', hx', rfl⟩ := Option.map_eq_some_iff.mp hx
    obtain ⟨b, hb, rfl⟩ := Option.map_eq_some_iff.mp hy
    cases hpath with
    | andPredicate hlead =>
      obtain rfl := probe_agrees hlead hx' hb
      cases x' <;> rfl
  | @notPredicate e hs ih =>
    refine agreesAt_of_succ (fun n => ?_) n
    rintro pos rfl x y hx hy
    obtain ⟨x', hx', rfl⟩ := Option.map_eq_some_iff.mp hx
    obtain ⟨b, hb, rfl⟩ := Option.map_eq_some_iff.mp hy
    cases hpath with
    | notPredicate hlead =>
      obtain rfl := probe_agrees hlead hx' hb
      cases x' <;> rfl
  | @terminalRule r h =>
    refine agreesAt_of_succ (fun n => ?_) n
    rintro pos rfl x y hx hy
    obtain ⟨q, hq, rfl⟩ := Option.map_eq_some_iff.mp hy
    obtain rfl : x = q := Option.some.inj (hx.symm.trans hq)
    exact SameEnd.leaf x x _ rfl rfl
  | @skipperWrapped s base hnoop hs ih =>
    refine agreesAt_of_succ (fun n => ?_) n
    rintro pos rfl
    have hmem : base ∈ (Expr.skipperWrapped s base).children := List.mem_singleton_self base
    cases hpath with
    | skipperWrapped hpath =>
      have hbase := ih (hwf.sub hmem) hp hpath n pos rfl
      show SameEnd _ ((peg Γ text n).parse false (Γ.skipper s) base pos)
      rw [hnoop]
      exact hbase

end Pegium
