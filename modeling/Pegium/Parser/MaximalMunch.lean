/-
Pegium/Parser/MaximalMunch.lean

Maximal munch for the operators of an infix rule.

`infix_operator_shadowed` compares the text with the literals of the rule byte by
byte, while a literal matches by its own case and word boundary rules.  The two
agree where it matters.  A refused operator always leaves the position to a longer
literal operator that matches there (`shadowed_longer`): if the longer literal is a
word, then so is the shorter one, which its own word boundary rule has already
refused, since the longer one goes on behind it (`WordLike.split`).  And a longer
case-sensitive literal that matches stands in the text as it is written
(`shadowed_of_longer`).

So the search for an operator takes, at any precedence, a literal that no longer
case-sensitive literal of any level matches over; and where it takes none, either
no operator of the precedence matches or the one that does is left to a longer
literal of a looser level (`NoneFrom.looser`).

`infix_maximal_munch` puts both together.
-/
import Mathlib.Data.List.GetD
import Pegium.Parser.InfixTree

namespace Pegium

/-! ### Codepoints -/

/-- Whole UTF-8 sequences, one after the other: a lead byte and the continuation
bytes it announces. -/
inductive WholeCodepoints : List UInt8 → Prop
  | nil : WholeCodepoints []
  | cons {lead : UInt8} {continued more : List UInt8}
      (length : utf8_codepoint_length lead = continued.length + 1)
      (high : ∀ b ∈ continued, 0x80 ≤ b) (whole : WholeCodepoints more) :
      WholeCodepoints (lead :: (continued ++ more))

theorem tolower_eq_or (b : UInt8) : tolower b = b ∨ b < 0x80 ∧ tolower b < 0x80 := by
  apply byte_cases (p := fun b => tolower b = b ∨ b < 0x80 ∧ tolower b < 0x80)
  decide +kernel

theorem foldByte_eq_or (cs : Bool) (b : UInt8) :
    foldByte cs b = b ∨ b < 0x80 ∧ foldByte cs b < 0x80 := by
  cases cs with
  | true => exact .inl rfl
  | false => exact tolower_eq_or b

/-- A continuation byte has no case. -/
theorem foldByte_high {cs : Bool} {b : UInt8} (h : 0x80 ≤ foldByte cs b) :
    foldByte cs b = b := by
  rcases foldByte_eq_or cs b with he | ⟨-, hlt⟩
  · exact he
  · exact absurd (UInt8.lt_of_lt_of_le hlt h) (UInt8.lt_irrefl _)

theorem foldByte_zero (cs : Bool) : foldByte cs 0 = 0 := by
  cases cs <;> rfl

theorem utf8_codepoint_length_foldByte (cs : Bool) (b : UInt8) :
    utf8_codepoint_length (foldByte cs b) = utf8_codepoint_length b := by
  cases cs with
  | true => rfl
  | false =>
    show utf8_codepoint_length (tolower b) = utf8_codepoint_length b
    apply byte_cases (p := fun b => utf8_codepoint_length (tolower b) = utf8_codepoint_length b)
    decide +kernel

theorem isWord_foldByte (cs : Bool) (b : UInt8) : isWord (foldByte cs b) = isWord b := by
  cases cs with
  | true => rfl
  | false =>
    show isWord (tolower b) = isWord b
    apply byte_cases (p := fun b => isWord (tolower b) = isWord b)
    decide +kernel

/-- An ASCII codepoint is its byte. -/
theorem is_identifier_like_ascii (text : List UInt8) (p : ℕ) (h : byteAt text p < 0x80) :
    is_identifier_like_codepoint (decode_utf8_codepoint text p) = isWord (byteAt text p) := by
  have hlt : (byteAt text p).toNat < 0x80 := h
  rw [decode_utf8_codepoint, if_pos hlt, is_identifier_like_codepoint,
    decide_eq_false (Nat.not_le_of_lt hlt), Bool.false_or, UInt8.ofNat_toNat]

/-- A byte of `a`, read in `a ++ b`. -/
theorem byteAt_append {a b : List UInt8} {p : ℕ} (h : p < a.length) :
    byteAt (a ++ b) p = byteAt a p := by
  rw [byteAt, byteAt, List.getD_append _ _ _ _ h]

/-- A byte after `p`, read in what starts there. -/
theorem byteAt_drop (text : List UInt8) (p i : ℕ) :
    byteAt (text.drop p) i = byteAt text (p + i) := by
  simp only [byteAt, List.getD_eq_getElem?_getD, List.getElem?_drop]

/-! ### Words -/

/-- Identifier-like codepoints, one after the other. -/
inductive WordLike : List UInt8 → Prop
  | nil : WordLike []
  | cons {c : UInt8} {cs : List UInt8} (pos : 0 < utf8_codepoint_length c)
      (le : utf8_codepoint_length c ≤ (c :: cs).length)
      (identifier : is_identifier_like_codepoint (decode_utf8_codepoint (c :: cs) 0) = true)
      (rest : WordLike ((c :: cs).drop (utf8_codepoint_length c))) : WordLike (c :: cs)

/-- What the scan of `is_word_like_terminal` accepts. -/
theorem wordLike_loop {value : List UInt8} {fuel : ℕ} (hfuel : value.length ≤ fuel) :
    is_word_like_terminal.loop value fuel = true ↔ WordLike value := by
  induction fuel generalizing value with
  | zero =>
    obtain rfl := List.length_eq_zero_iff.mp (Nat.le_zero.mp hfuel)
    exact ⟨fun _ => .nil, fun _ => rfl⟩
  | succ fuel ih =>
    cases value with
    | nil => exact ⟨fun _ => .nil, fun _ => rfl⟩
    | cons c cs =>
      have hrest (hpos : 0 < utf8_codepoint_length c) :
          ((c :: cs).drop (utf8_codepoint_length c)).length ≤ fuel := by
        rw [List.length_drop]
        omega
      rw [is_word_like_terminal.loop]
      constructor
      · intro h
        split at h
        · cases h
        next hlength =>
          simp only [Bool.or_eq_true, beq_iff_eq, decide_eq_true_eq, not_or] at hlength
          have hpos := Nat.pos_of_ne_zero hlength.1
          split at h
          next hid => exact .cons hpos (Nat.le_of_not_lt hlength.2) hid ((ih (hrest hpos)).mp h)
          next => cases h
      · intro h
        cases h with
        | cons pos le identifier rest =>
          have hlength : ¬ (utf8_codepoint_length c == 0
              || decide ((c :: cs).length < utf8_codepoint_length c)) = true := by
            simp only [Bool.or_eq_true, beq_iff_eq, decide_eq_true_eq, not_or]
            exact ⟨Nat.ne_of_gt pos, Nat.not_lt_of_ge le⟩
          rw [if_neg hlength, if_pos identifier]
          exact (ih (hrest pos)).mpr rest

theorem is_word_like_terminal_iff {value : List UInt8} :
    is_word_like_terminal value = true ↔ value ≠ [] ∧ WordLike value := by
  rw [is_word_like_terminal, Bool.and_eq_true, bne_iff_ne, wordLike_loop (Nat.le_refl _)]

/-- **Whole codepoints at the start of a word are a word, and so is the rest.** -/
theorem WordLike.split {cs : Bool} {value longer a b : List UInt8} (hw : WholeCodepoints value)
    (hl : WordLike longer) (hsplit : longer = a ++ b) (ha : a.map (foldByte cs) = value) :
    WordLike value ∧ WordLike b := by
  induction hw generalizing longer a with
  | nil =>
    obtain rfl := List.map_eq_nil_iff.mp ha
    exact ⟨.nil, by simpa [hsplit] using hl⟩
  | @cons lead continued more length high whole ih =>
    obtain ⟨x, a', rfl, rfl, ha'⟩ := List.map_eq_cons_iff.mp ha
    obtain ⟨xs, ys, rfl, hxs, rfl⟩ := List.map_eq_append_iff.mp ha'
    -- the continuation bytes are the same in both literals
    obtain rfl : xs = continued := by
      rw [← hxs, List.map_congr_left (g := id), List.map_id]
      intro y hy
      exact foldByte_high (high _ (hxs ▸ List.mem_map_of_mem hy))
    rw [utf8_codepoint_length_foldByte] at length
    rw [List.cons_append, List.append_assoc] at hsplit
    subst hsplit
    cases hl with
    | cons pos le identifier rest =>
      rw [length, List.drop_succ_cons, List.drop_left] at rest
      have hys := ih rest rfl rfl
      refine ⟨.cons (utf8_codepoint_length_foldByte cs x ▸ pos) ?_ ?_ ?_, hys.2⟩
      · rw [utf8_codepoint_length_foldByte, length]
        simp
      · rw [← identifier]
        rcases foldByte_eq_or cs x with hx | ⟨hx, hx'⟩
        · -- the same bytes
          rw [hx, ← List.cons_append, ← List.cons_append]
          apply congrArg
          refine decode_utf8_codepoint_congr rfl fun i hi => ?_
          have hi : i < (x :: xs).length := Nat.lt_of_lt_of_eq hi length
          rw [Nat.zero_add, byteAt_append hi, byteAt_append hi]
        · -- a letter, in its other case
          rw [is_identifier_like_ascii (foldByte cs x :: _) 0 hx']
          rw [is_identifier_like_ascii (x :: _) 0 hx]
          exact isWord_foldByte cs x
      · rw [utf8_codepoint_length_foldByte, length, List.drop_succ_cons, List.drop_left]
        exact hys.1

/-- Behind which a word goes on, an identifier goes on. -/
theorem WordLike.identifier_at {text b r : List UInt8} {q : ℕ} (hb : WordLike b) (hne : b ≠ [])
    (h : text.drop q = b ++ r) : is_identifier_like_codepoint_at text q text.length = true := by
  cases hb with
  | nil => exact absurd rfl hne
  | @cons c cs pos le identifier rest =>
    have hbyte (i : ℕ) (hi : i < (c :: cs).length) : byteAt text (q + i) = byteAt (c :: cs) i := by
      rw [← byteAt_drop, h, byteAt_append hi]
    have hlead : byteAt text q = c := hbyte 0 (Nat.zero_lt_succ _)
    have hlength : (c :: cs).length ≤ text.length - q := by
      rw [← List.length_drop, h, List.length_append]
      exact Nat.le_add_right _ _
    have hq : ¬ text.length ≤ q := by
      rw [List.length_cons] at hlength
      omega
    have hfit : ¬ (utf8_codepoint_length c == 0
        || decide (text.length - q < utf8_codepoint_length c)) = true := by
      simp only [Bool.or_eq_true, beq_iff_eq, decide_eq_true_eq, not_or]
      exact ⟨Nat.ne_of_gt pos, Nat.not_lt_of_ge (Nat.le_trans le hlength)⟩
    rw [is_identifier_like_codepoint_at, if_neg hq, hlead, if_neg hfit, ← identifier]
    apply congrArg
    refine decode_utf8_codepoint_congr hlead fun i hi => ?_
    rw [hlead] at hi
    rw [hbyte i (Nat.lt_of_lt_of_le hi le), Nat.zero_add]

/-! ### The shadow check -/

/-- `infix_literal_view`: the value of an operator that is one literal, with its
case sensitivity. -/
def InfixOperator.infix_literal_view (op : InfixOperator) : Option (List UInt8 × Bool) :=
  match op.element with
  | .literal _ value case_sensitive => some (value, case_sensitive)
  | _ => none

/-- The literals of the rule as they are written: in whole codepoints, and in lower
case where `.i()` has made them case-insensitive. -/
structure InfixDef.PlainLiterals (defn : InfixDef) : Prop where
  whole : ∀ op ∈ defn.operators, ∀ value cs, op.infix_literal_view = some (value, cs) →
    WholeCodepoints value
  lower : ∀ op ∈ defn.operators, ∀ value, op.infix_literal_view = some (value, false) →
    ∀ b ∈ value, tolower b = b

/-- A declared literal operator that is longer than `value` and matches at `p`, by
its own case and word boundary rules. -/
structure InfixDef.LongerAt (defn : InfixDef) (text : List UInt8) (p : ℕ)
    (value longer : List UInt8) (cs : Bool) : Prop where
  declared : ∃ op ∈ defn.operators, op.infix_literal_view = some (longer, cs)
  lt : value.length < longer.length
  matched : (literalMatch text longer cs p).isSome = true

variable {Γ : Grammar} {text : List UInt8} {tracked : Bool} {sk : Skipper} {rule : ℕ}
variable {op : InfixOperator} {value longer : List UInt8} {cs : Bool} {p q : ℕ}

theorem infix_literal_view_eq (h : op.infix_literal_view = some (value, cs)) :
    ∃ id, op.element = .literal id value cs := by
  rw [InfixOperator.infix_literal_view] at h
  split at h
  next id value' cs' he =>
    cases h
    exact ⟨id, he⟩
  next => cases h

/-- **A literal matches the bytes it is, up to its case.** -/
theorem literalTerminal_iff (hv : (0 : UInt8) ∉ value) :
    literalTerminal text value cs p = some q ↔
      q = p + value.length ∧ ((text.drop p).take value.length).map (foldByte cs) = value := by
  induction value generalizing p with
  | nil => simp [literalTerminal, eq_comm]
  | cons c value ih =>
    simp only [List.mem_cons, not_or] at hv
    have hbyte : literalTerminal text (c :: value) cs p
        = if foldByte cs (byteAt text p) == c then literalTerminal text value cs (p + 1)
          else none := rfl
    rw [hbyte, Option.ite_none_right_eq_some, ih hv.2, beq_iff_eq, List.length_cons]
    rcases Nat.lt_or_ge p text.length with hp | hp
    · rw [List.drop_eq_getElem_cons hp, List.take_succ_cons, List.map_cons, List.cons.injEq,
        show byteAt text p = text[p] from List.getD_eq_getElem _ _ hp]
      constructor
      · rintro ⟨hc, hq, hrest⟩
        exact ⟨by omega, hc, hrest⟩
      · rintro ⟨hq, hc, hrest⟩
        exact ⟨hc, by omega, hrest⟩
    · -- past the end there is only NUL
      rw [byteAt_of_length_le hp, foldByte_zero, List.drop_eq_nil_of_le hp]
      exact ⟨fun h => absurd h.1 hv.1, fun h => by simp at h⟩

theorem literalMatch_eq_some :
    literalMatch text value cs p = some q ↔
      literalTerminal text value cs p = some q ∧
        has_word_boundary_violation text value q = false := by
  rw [literalMatch, Option.filter_eq_some_iff, Bool.not_eq_true']

theorem not_shadowed (operators : List InfixOperator) (cursor : ℕ)
    (h : op.infix_literal_view = none) :
    Interp.infixOperatorShadowed text operators op cursor = false := by
  rw [Interp.infixOperatorShadowed]
  split
  next id value cs he => simp [InfixOperator.infix_literal_view, he] at h
  next => rfl

/-- What the check compares. -/
theorem shadowed_iff {operators : List InfixOperator} {cursor : ℕ}
    (hop : op.infix_literal_view = some (value, cs)) :
    Interp.infixOperatorShadowed text operators op cursor = true ↔
      ∃ candidate ∈ operators, ∃ longer cs',
        candidate.infix_literal_view = some (longer, cs') ∧ value.length < longer.length ∧
        (text.drop (cursor - value.length)).take longer.length = longer := by
  obtain ⟨id, he⟩ := infix_literal_view_eq hop
  simp only [Interp.infixOperatorShadowed, he, List.any_eq_true]
  apply exists_congr
  intro candidate
  apply and_congr_right
  intro _
  split
  next id' longer cs' he' =>
    have hview : candidate.infix_literal_view = some (longer, cs') := by
      rw [InfixOperator.infix_literal_view, he']
    simp only [hview, Bool.and_eq_true, decide_eq_true_eq, beq_iff_eq, Option.some.injEq,
      Prod.mk.injEq]
    constructor
    · rintro ⟨⟨hlt, -⟩, htake⟩
      exact ⟨longer, cs', ⟨rfl, rfl⟩, hlt, htake⟩
    · rintro ⟨_, _, ⟨rfl, rfl⟩, hlt, htake⟩
      -- bytes that stand there fit there
      have hfit := congrArg List.length htake
      rw [List.length_take, List.length_drop] at hfit
      exact ⟨⟨hlt, by omega⟩, htake⟩
  next hother =>
    constructor
    · intro h
      cases h
    · rintro ⟨longer, cs', hview, -⟩
      obtain ⟨id', he'⟩ := infix_literal_view_eq hview
      exact absurd he' (hother id' longer cs')

section Check

variable (hΓ : Γ.WellFormed) (hlit : (Γ.infixRule rule).PlainLiterals)
  (hmem : op ∈ (Γ.infixRule rule).operators) (hop : op.infix_literal_view = some (value, cs))
include hΓ hmem hop

/-- An operator consumes something, and no NUL. -/
theorem Grammar.WellFormed.operatorLiteral : (0 : UInt8) ∉ value ∧ value ≠ [] := by
  obtain ⟨id, he⟩ := infix_literal_view_eq hop
  obtain ⟨hwf, hnullable⟩ := (hΓ.infixRule rule).2.2 op hmem
  rw [he] at hwf hnullable
  refine ⟨hwf.checked, fun hnil => ?_⟩
  rw [hnil, Expr.nullable] at hnullable
  cases hnullable

include hlit in
/-- **A refused operator leaves its position to a longer literal that matches.** -/
theorem shadowed_longer (hm : literalMatch text value cs p = some q)
    (h : Interp.infixOperatorShadowed text (Γ.infixRule rule).operators op q = true) :
    ∃ longer cs', (Γ.infixRule rule).LongerAt text p value longer cs' := by
  obtain ⟨hnul, hne⟩ := hΓ.operatorLiteral hmem hop
  obtain ⟨hterminal, hboundary⟩ := literalMatch_eq_some.mp hm
  obtain ⟨rfl, hvalue⟩ := (literalTerminal_iff hnul).mp hterminal
  obtain ⟨candidate, hcand, longer, cs', hview, hlt, htake⟩ := (shadowed_iff hop).mp h
  rw [Nat.add_sub_cancel] at htake
  refine ⟨longer, cs', ⟨candidate, hcand, hview⟩, hlt, ?_⟩
  have hlonger : literalTerminal text longer cs' p = some (p + longer.length) := by
    rw [literalTerminal_iff (hΓ.operatorLiteral hcand hview).1, htake]
    refine ⟨rfl, ?_⟩
    cases cs' with
    | true => exact List.map_id _
    | false =>
      exact (List.map_congr_left (g := id) (hlit.lower candidate hcand longer hview)).trans
        (List.map_id _)
  have hword : is_word_like_terminal longer = false := by
    rw [← Bool.not_eq_true]
    intro hword
    -- the text goes on with the rest of the longer word, at which the operator has not matched
    have hsplit : longer = longer.take value.length ++ longer.drop value.length :=
      (List.take_append_drop _ _).symm
    have hshorter : (longer.take value.length).map (foldByte cs) = value := by
      rw [← htake, List.take_take, Nat.min_eq_left (Nat.le_of_lt hlt), hvalue]
    obtain ⟨hshort, hrest⟩ := (is_word_like_terminal_iff.mp hword).2.split
      (hlit.whole op hmem value cs hop) hsplit hshorter
    have hnext : text.drop (p + value.length)
        = longer.drop value.length ++ (text.drop p).drop longer.length := by
      rw [← List.drop_drop]
      conv_lhs => rw [← List.take_append_drop longer.length (text.drop p), htake]
      rw [List.drop_append_of_le_length (Nat.le_of_lt hlt)]
    have hdrop : longer.drop value.length ≠ [] := by
      rw [Ne, List.drop_eq_nil_iff]
      omega
    have hviolated : has_word_boundary_violation text value (p + value.length) = true := by
      rw [has_word_boundary_violation, is_word_like_terminal_iff.mpr ⟨hne, hshort⟩,
        hrest.identifier_at hdrop hnext, Bool.and_self]
    rw [hviolated] at hboundary
    cases hboundary
  rw [literalMatch_eq_some.mpr ⟨hlonger, by rw [has_word_boundary_violation, hword,
    Bool.false_and]⟩, Option.isSome_some]

/-- **A longer case-sensitive literal that matches refuses the operator.** -/
theorem shadowed_of_longer (hm : literalMatch text value cs p = some q)
    (h : (Γ.infixRule rule).LongerAt text p value longer true) :
    Interp.infixOperatorShadowed text (Γ.infixRule rule).operators op q = true := by
  obtain ⟨hnul, -⟩ := hΓ.operatorLiteral hmem hop
  obtain ⟨rfl, -⟩ := (literalTerminal_iff hnul).mp (literalMatch_eq_some.mp hm).1
  obtain ⟨candidate, hcand, hview⟩ := h.declared
  obtain ⟨q', hq'⟩ := Option.isSome_iff_exists.mp h.matched
  obtain ⟨-, htake⟩ := (literalTerminal_iff (hΓ.operatorLiteral hcand hview).1).mp
    (literalMatch_eq_some.mp hq').1
  refine (shadowed_iff hop).mpr ⟨candidate, hcand, longer, true, hview, h.lt, ?_⟩
  rw [Nat.add_sub_cancel]
  -- a case-sensitive literal compares the bytes themselves
  rwa [show foldByte true = id from rfl, List.map_id] at htake

end Check

/-! ### The search for an operator -/

section Search

variable {P : PegInterp} {operators : List InfixOperator} {index : ℕ} {pos : Position} {o : Match}

/-- An operator that the search may take: it is probed, it matches, and it is not
shadowed. -/
theorem PegInterp.matchOperator_eq_some :
    P.matchOperator text tracked sk rule operators index op pos = some (some o) ↔
      P.fastProbe tracked sk op.element pos = some true ∧
      P.elementNode tracked sk (.infixOperator rule index) op.element pos = some (some o) ∧
      Interp.infixOperatorShadowed text operators op o.stop.cursor = false := by
  rw [PegInterp.matchOperator]
  rcases P.fastProbe tracked sk op.element pos with - | - | - <;> dsimp only
  · simp
  · simp
  · rcases P.elementNode tracked sk (.infixOperator rule index) op.element pos with - | - | m
    · simp
    · simp
    · simp only [Option.map_some, Option.some.injEq, true_and, Option.filter_eq_some_iff,
        Bool.not_eq_true']

/-- A literal operator stops where its literal does. -/
theorem elementNode_literal {n : ℕ} {element : GrammarElement}
    (hop : op.infix_literal_view = some (value, cs))
    (h : (peg Γ text n).elementNode tracked sk element op.element pos = some (some o)) :
    literalMatch text value cs pos.cursor = some o.stop.cursor := by
  obtain ⟨id, he⟩ := infix_literal_view_eq hop
  rw [PegInterp.elementNode, he, if_neg (by simp [Expr.isOrderedChoice])] at h
  obtain ⟨m, hm, rfl⟩ := pmap_eq_some h
  cases n with
  | zero => cases hm
  | succ n =>
    obtain ⟨q, hq, rfl⟩ := Option.map_eq_some_iff.mp (Option.some.inj hm)
    exact hq

/-- A literal operator that matches is passed over only when it is shadowed. -/
theorem shadowed_of_matchOperator {n : ℕ} (hop : op.infix_literal_view = some (value, cs))
    (hm : literalMatch text value cs pos.cursor = some q)
    (h : (peg Γ text n).matchOperator text tracked sk rule operators index op pos = some none) :
    Interp.infixOperatorShadowed text operators op q = true := by
  obtain ⟨id, he⟩ := infix_literal_view_eq hop
  have hstart : ∀ n, (peg Γ text (n + 2)).fastProbe tracked sk (.literal id value cs) pos
      = some (literalMatch text value cs pos.cursor).isSome := fun _ => rfl
  have hnode : ∀ n, (peg Γ text (n + 2)).parse tracked sk (.literal id value cs) pos
      = some (pegLeaf (.expression id) pos (literalMatch text value cs pos.cursor)) := fun _ => rfl
  rw [PegInterp.matchOperator, he] at h
  rcases n with - | - | n
  · cases h
  · cases h
  · rw [hstart, hm, Option.isSome_some] at h
    dsimp only at h
    rw [PegInterp.elementNode, if_neg (by simp [Expr.isOrderedChoice]), hnode, hm] at h
    rw [← Bool.not_eq_false]
    intro hshadow
    have hkept : (Match.rebind (.infixOperator rule index)
        (.leaf pos q (.expression id))).stop.cursor = q := rfl
    simp [pmap, pegLeaf, Option.filter, hkept, hshadow] at h

variable (hΓ : Γ.WellFormed) (hlit : (Γ.infixRule rule).PlainLiterals)
include hΓ hlit

/-- **Where no operator of a precedence is taken, a literal that matches leaves its
position to one of a looser level.**  The literals it yields to are ever longer. -/
theorem PegInterp.NoneFrom.looser {n minPrecedence : ℕ} {op : InfixOperator}
    {value : List UInt8} {cs : Bool}
    (h : (peg Γ text n).NoneFrom text tracked sk rule (Γ.infixRule rule).operators minPrecedence 0
      pos) (hmem : op ∈ (Γ.infixRule rule).operators)
    (hop : op.infix_literal_view = some (value, cs))
    (hm : (literalMatch text value cs pos.cursor).isSome = true) :
    ∃ j candidate longer cs', (Γ.infixRule rule).operators[j]? = some candidate ∧
      candidate.infix_literal_view = some (longer, cs') ∧
      (Γ.infixRule rule).operators.length - j < minPrecedence ∧
      value.length ≤ longer.length ∧ (literalMatch text longer cs' pos.cursor).isSome = true := by
  obtain ⟨j, hlt, hget⟩ := List.mem_iff_getElem.mp hmem
  have hget : (Γ.infixRule rule).operators[j]? = some op :=
    List.getElem?_eq_some_iff.mpr ⟨hlt, hget⟩
  rcases Nat.lt_or_ge ((Γ.infixRule rule).operators.length - j) minPrecedence with hloose | hmin
  · exact ⟨j, op, value, cs, hget, hop, hloose, Nat.le_refl _, hm⟩
  · obtain ⟨q, hq⟩ := Option.isSome_iff_exists.mp hm
    have hshadow := shadowed_of_matchOperator hop hq (h j (Nat.zero_le _) op hget hmin)
    obtain ⟨longer, cs', hlonger⟩ := shadowed_longer hΓ hlit hmem hop hq hshadow
    obtain ⟨candidate, hcand, hview⟩ := hlonger.declared
    have hfits : longer.length ≤ text.length := by
      obtain ⟨q', hq'⟩ := Option.isSome_iff_exists.mp hlonger.matched
      obtain ⟨-, htake⟩ := (literalTerminal_iff (hΓ.operatorLiteral hcand hview).1).mp
        (literalMatch_eq_some.mp hq').1
      have hlength := congrArg List.length htake
      rw [List.length_map, List.length_take, List.length_drop] at hlength
      omega
    have hlt := hlonger.lt
    obtain ⟨j', candidate', longest, cs'', hget', hview', hloose, hle, hm'⟩ :=
      looser h hcand hview hlonger.matched
    exact ⟨j', candidate', longest, cs'', hget', hview', hloose, by omega, hm'⟩
termination_by text.length - value.length

end Search

/-- The operator at `index` of an infix rule matches: it is probed and parsed, from
one context to the other. -/
def Interp.OperatorMatches (I : Interp) (tracked : Bool) (sk : Skipper) (rule index : ℕ)
    (op : InfixOperator) (ctx ctx' : ParseContext) : Prop :=
  I.fastProbe tracked sk op.element ctx = some (true, ctx) ∧
    I.attemptOperator tracked sk rule index op ctx = some (true, ctx')

theorem operatorMatches_iff {n index : ℕ} {pos : Position} {tb : TreeBuilder GrammarElement}
    {ctx : ParseContext} :
    (interp Γ text n).OperatorMatches tracked sk rule index op (pos.ctx tb) ctx ↔
      (peg Γ text n).fastProbe tracked sk op.element pos = some true ∧
      ∃ m, (peg Γ text n).elementNode tracked sk (.infixOperator rule index) op.element pos
        = some (some m) ∧ ctx = m.ctx tb := by
  have hsim := simulates_interp Γ text n
  rw [Interp.OperatorMatches, hsim.fastProbe]
  have ha := @Simulates.attemptOperator tb pos _ _ tracked sk hsim rule index op
  generalize (interp Γ text n).attemptOperator tracked sk rule index op (pos.ctx tb) = c at ha ⊢
  generalize (peg Γ text n).elementNode tracked sk (.infixOperator rule index) op.element pos = r
    at ha ⊢
  have hprobe : (Option.map (·, pos.ctx tb) ((peg Γ text n).fastProbe tracked sk op.element pos)
      = some (true, pos.ctx tb)) ↔
      (peg Γ text n).fastProbe tracked sk op.element pos = some true := by
    rcases (peg Γ text n).fastProbe tracked sk op.element pos with - | - | - <;> simp
  rw [hprobe]
  apply and_congr_right
  intro _
  cases ha with
  | bot => simp
  | fail ctx' _ _ => simp
  | ok m =>
    constructor
    · intro h
      cases h
      exact ⟨m, rfl, rfl⟩
    · rintro ⟨_, hm, rfl⟩
      cases hm
      rfl

/-- **The operators of an infix rule are munched.**  A literal operator that matches
is refused only where a longer declared literal matches, and wherever a longer
case-sensitive one does; a choice or a terminal is never refused.  So at any
precedence the search takes a literal over which no longer case-sensitive literal
of any level matches, and it takes none only where every operator of the
precedence that matches leaves its position to a longer literal of a looser
level: where all levels are searched, it takes one if any matches. -/
theorem infix_maximal_munch (hΓ : Γ.WellFormed) (hlit : (Γ.infixRule rule).PlainLiterals) :
    (∀ op ∈ (Γ.infixRule rule).operators, ∀ value cs p q,
      op.infix_literal_view = some (value, cs) → literalMatch text value cs p = some q →
      (Interp.infixOperatorShadowed text (Γ.infixRule rule).operators op q = true →
        ∃ longer cs', (Γ.infixRule rule).LongerAt text p value longer cs') ∧
      ∀ longer, (Γ.infixRule rule).LongerAt text p value longer true →
        Interp.infixOperatorShadowed text (Γ.infixRule rule).operators op q = true) ∧
    (∀ op cursor, op.infix_literal_view = none →
      Interp.infixOperatorShadowed text (Γ.infixRule rule).operators op cursor = false) ∧
    ∀ n tracked sk minPrecedence found ctx ctx', ctx.builder.Reachable →
      (interp Γ text n).tryMatchOperator text tracked sk rule (Γ.infixRule rule).operators
        minPrecedence 0 (Γ.infixRule rule).operators ctx = some (found, ctx') →
      match found with
      | some next => ∃ i op, (Γ.infixRule rule).operators[i]? = some op ∧
          minPrecedence ≤ (Γ.infixRule rule).operators.length - i ∧
          next = Interp.nextMinPrecedence op ((Γ.infixRule rule).operators.length - i) ∧
          (interp Γ text n).OperatorMatches tracked sk rule i op ctx ctx' ∧
          ∀ value cs, op.infix_literal_view = some (value, cs) →
            ∀ longer, ¬ (Γ.infixRule rule).LongerAt text ctx.cursor value longer true
      | none => ∀ i op stop, (Γ.infixRule rule).operators[i]? = some op →
          minPrecedence ≤ (Γ.infixRule rule).operators.length - i →
          (interp Γ text n).OperatorMatches tracked sk rule i op ctx stop →
          ∃ value cs j candidate longer cs', op.infix_literal_view = some (value, cs) ∧
            (Γ.infixRule rule).operators[j]? = some candidate ∧
            candidate.infix_literal_view = some (longer, cs') ∧
            (Γ.infixRule rule).operators.length - j < minPrecedence ∧
            value.length < longer.length ∧
            (literalMatch text longer cs' ctx.cursor).isSome = true := by
  refine ⟨fun op hmem value cs p q hop hm => ⟨shadowed_longer hΓ hlit hmem hop hm,
    fun longer => shadowed_of_longer hΓ hmem hop hm⟩, fun op cursor => not_shadowed _ cursor, ?_⟩
  intro n tracked sk minPrecedence found ctx ctx' hb h
  obtain ⟨pos, tb, rfl⟩ := ParseContext.eq_ctx hb
  rw [(simulates_interp Γ text n).operator] at h
  obtain ⟨r, hr, hfound⟩ := Option.map_eq_some_iff.mp h
  have hspec := PegInterp.operator_spec (List.drop_zero) hr
  rcases r with - | ⟨next, o⟩
  · obtain ⟨rfl, rfl⟩ := Prod.mk.inj hfound
    intro i op stop hget hmin hmatches
    obtain ⟨hprobe, m, hnode, -⟩ := operatorMatches_iff.mp hmatches
    have hmem := List.mem_of_getElem? hget
    -- it matches and has not been taken: it is shadowed
    have hshadow : Interp.infixOperatorShadowed text (Γ.infixRule rule).operators op
        m.stop.cursor = true := by
      rw [← Bool.not_eq_false]
      intro hshadow
      have htaken := PegInterp.matchOperator_eq_some.mpr ⟨hprobe, hnode, hshadow⟩
      rw [hspec i (Nat.zero_le _) op hget hmin] at htaken
      cases htaken
    rcases hop : op.infix_literal_view with - | ⟨value, cs⟩
    · rw [not_shadowed _ _ hop] at hshadow
      cases hshadow
    · have hm := elementNode_literal hop hnode
      obtain ⟨longer, cs', hlonger⟩ := shadowed_longer hΓ hlit hmem hop hm hshadow
      obtain ⟨candidate, hcand, hview⟩ := hlonger.declared
      obtain ⟨j, candidate', longest, cs'', hget', hview', hloose, hle, hm'⟩ :=
        PegInterp.NoneFrom.looser hΓ hlit hspec hcand hview hlonger.matched
      exact ⟨value, cs, j, candidate', longest, cs'', rfl, hget', hview', hloose,
        Nat.lt_of_lt_of_le hlonger.lt hle, hm'⟩
  · obtain ⟨rfl, rfl⟩ := Prod.mk.inj hfound
    obtain ⟨i, op, -, hget, hmin, hnext, ho, -⟩ := hspec
    obtain ⟨hprobe, hnode, hshadow⟩ := PegInterp.matchOperator_eq_some.mp ho
    refine ⟨i, op, hget, hmin, hnext, operatorMatches_iff.mpr ⟨hprobe, o, hnode, rfl⟩, ?_⟩
    intro value cs hop longer hlonger
    rw [shadowed_of_longer hΓ (List.mem_of_getElem? hget) hop (elementNode_literal hop hnode)
      hlonger] at hshadow
    cases hshadow

/-- Operators over operands of one letter. -/
def Grammar.withOperators (operators : List InfixOperator) : Grammar :=
  { Grammar.sample (.infixRule 0) false with infixRule := fun _ => ⟨1, operators⟩ }

theorem Grammar.withOperators_wellFormed {operators : List InfixOperator}
    (hne : operators ≠ [])
    (hops : ∀ op ∈ operators, op.element.WellFormed (.withOperators operators) ∧
      op.element.nullable (.withOperators operators) = false) :
    (Grammar.withOperators operators).WellFormed where
  terminalRule _ := ⟨Expr.literal_wellFormed (by decide), rfl,
    by simp [withOperators, sample, Expr.nullable]⟩
  dataTypeRule _ := ⟨Expr.literal_wellFormed (by decide),
    by simp [withOperators, sample, Expr.nullable]⟩
  parserRule
    | 0 => ⟨.intro trivial (by simp [withOperators, sample, Expr.children]),
        by simp [withOperators, sample, Expr.nullable]⟩
    | _ + 1 => ⟨Expr.literal_wellFormed (by decide),
        by simp [withOperators, sample, Expr.nullable]⟩
  infixRule _ := ⟨rfl, hne, hops⟩
  skipper _ := Skipper.noop_wellFormed

/-- Products, which bind tighter than powers. -/
def Grammar.productsAndPowers : Grammar :=
  .withOperators [⟨.left, .literal 1 [42] true⟩, ⟨.right, .literal 2 [42, 42] true⟩]

/-- At `**`, the product operator is refused. -/
theorem infix_maximal_munch_powers :
    (∃ longer cs, (Grammar.productsAndPowers.infixRule 0).LongerAt [42, 42] 0 [42] longer cs) ∧
    Interp.infixOperatorShadowed [42, 42] (Grammar.productsAndPowers.infixRule 0).operators
      ⟨.left, .literal 1 [42] true⟩ 1 = true := by
  have hwf : Grammar.productsAndPowers.WellFormed := by
    apply Grammar.withOperators_wellFormed (List.cons_ne_nil _ _)
    intro op hop
    rcases List.mem_pair.mp hop with rfl | rfl
    · exact ⟨Expr.literal_wellFormed (by decide), by simp [Expr.nullable]⟩
    · exact ⟨Expr.literal_wellFormed (by decide), by simp [Expr.nullable]⟩
  have star : WholeCodepoints [42] := @WholeCodepoints.cons 42 [] [] rfl (by simp) .nil
  have hlit : (Grammar.productsAndPowers.infixRule 0).PlainLiterals := by
    constructor
    · intro op hop value cs hview
      rcases List.mem_pair.mp hop with rfl | rfl
      · cases hview
        exact star
      · cases hview
        exact @WholeCodepoints.cons 42 [] [42] rfl (by simp) star
    · intro op hop value hview
      rcases List.mem_pair.mp hop with rfl | rfl
      · cases hview
      · cases hview
  obtain ⟨hcheck, -, -⟩ := @infix_maximal_munch _ [42, 42] 0 hwf hlit
  obtain ⟨hlonger, hrefused⟩ := hcheck ⟨.left, .literal 1 [42] true⟩ List.mem_cons_self [42] true
    0 1 rfl rfl
  have hshadow := hrefused [42, 42]
    ⟨⟨⟨.right, .literal 2 [42, 42] true⟩, List.mem_cons_of_mem _ List.mem_cons_self, rfl⟩,
      by decide, rfl⟩
  exact ⟨hlonger hshadow, hshadow⟩

/-- `*`, and behind it the choice of `**` and `^`. -/
def productsAndPowerChoice : List InfixOperator :=
  [⟨.left, .literal 1 [42] true⟩,
    ⟨.right, .orderedChoice [.literal 2 [42, 42] true, .literal 3 [94] true]⟩]

/-- Operators that are not munched: at `**`, where the choice of `**` and `^` matches, `*`
is not refused, so that `x**x` is read as `x` alone; nor is `!` at `!IN`, where the
case-insensitive `!in` matches; and half of `é` is refused before `éa`, where the word `é`
does not match. -/
theorem choice_shadows_nothing :
    ((∃ stop, (interp (.withOperators productsAndPowerChoice) [42, 42] 5).OperatorMatches false
        .noop 0 1 ⟨.right, .orderedChoice [.literal 2 [42, 42] true, .literal 3 [94] true]⟩
        .initial stop ∧ stop.cursor = 2) ∧
      literalMatch [42, 42] [42] true 0 = some 1 ∧
      Interp.infixOperatorShadowed [42, 42] productsAndPowerChoice ⟨.left, .literal 1 [42] true⟩ 1
        = false ∧
      ∃ stop, (interp (.withOperators productsAndPowerChoice) [120, 42, 42, 120] 5).parse false
        .noop (.infixRule 0) .initial = some (true, stop) ∧ stop.cursor = 1) ∧
    (literalMatch [33, 73, 78] [33] true 0 = some 1 ∧
      literalMatch [33, 73, 78] [33, 105, 110] false 0 = some 3 ∧
      Interp.infixOperatorShadowed [33, 73, 78] [⟨.left, .literal 1 [33] true⟩,
        ⟨.left, .literal 2 [33, 105, 110] false⟩] ⟨.left, .literal 1 [33] true⟩ 1 = false) ∧
    (literalMatch [0xC3, 0xA9, 97] [0xC3] true 0 = some 1 ∧
      literalMatch [0xC3, 0xA9, 97] [0xC3, 0xA9] true 0 = none ∧
      Interp.infixOperatorShadowed [0xC3, 0xA9, 97] [⟨.left, .literal 1 [0xC3] true⟩,
        ⟨.left, .literal 2 [0xC3, 0xA9] true⟩] ⟨.left, .literal 1 [0xC3] true⟩ 1 = true) :=
  ⟨⟨⟨_, ⟨rfl, rfl⟩, rfl⟩, rfl, rfl, _, rfl, rfl⟩, ⟨rfl, rfl, rfl⟩, rfl, rfl, rfl⟩

end Pegium
