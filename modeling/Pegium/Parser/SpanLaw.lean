/-
Pegium/Parser/SpanLaw.lean

Every parse keeps the spans of `Spans.lean`.

As for the bounds of `Progress.lean` there is one lemma for each way of combining
parses, one for each helper of `Peg.lean`, and an induction on the depth of
calls.  A match of a non-nullable expression records a visible leaf; so the node
of an infix rule, which holds an operator, is always exited properly, and a
grammar without nullable rules satisfies the law on every text.
-/
import Pegium.Parser.Spans

namespace Pegium

variable {Γ : Grammar} {text : List UInt8}

/-- The matches of a parse from `pos` have their spans, with a visible leaf under
`strict`. -/
def Spanned (text : List UInt8) (strict : Prop) (lo : ℕ) (pos : Position)
    (r : Option (Option Match)) : Prop :=
  ∀ m, r = some (some m) → m.Spans text lo pos ∧ (strict → 0 < m.visibleLeaves)

namespace Spanned

variable {strict strict' : Prop} {lo lo' : ℕ} {pos : Position} {r r' : Option (Option Match)}

theorem mono (h : Spanned text strict lo pos r) (hs : strict' → strict) (hlo : lo' ≤ lo) :
    Spanned text strict' lo' pos r := by
  intro m hm
  obtain ⟨hspans, hvis⟩ := h m hm
  exact ⟨hspans.mono hlo, fun h => hvis (hs h)⟩

theorem none : Spanned text strict lo pos none := nofun

theorem fail : Spanned text strict lo pos (some .none) := nofun

theorem nil (hpos : pos.Valid text) (hs : ¬ strict) :
    Spanned text strict lo pos (some (some (.nil pos))) := by
  intro m hm
  simp only [Option.some.injEq] at hm
  subst hm
  exact ⟨.nil hpos, fun h => absurd h hs⟩

/-- A parse after a match. -/
theorem after {m : Match} (hm : m.Spans text lo pos) (hv : strict' → 0 < m.visibleLeaves)
    (h : Spanned text strict lo m.stop r) :
    Spanned text (strict' ∨ strict) lo pos (pmap m.append r) := by
  intro m₂ hm₂
  obtain ⟨r₁, rfl, hr₁⟩ := Option.map_eq_some_iff.mp hm₂
  obtain ⟨m', rfl, rfl⟩ := Option.map_eq_some_iff.mp hr₁
  obtain ⟨hspans, hvis⟩ := h m' rfl
  refine ⟨hm.append hspans, ?_⟩
  show strict' ∨ strict → 0 < m.visibleLeaves + m'.visibleLeaves
  rintro (hs | hs)
  · exact Nat.add_pos_left (hv hs) _
  · exact Nat.add_pos_right _ (hvis hs)

/-- A parse after a match, visible or not. -/
theorem behind {m : Match} (hm : m.Spans text lo pos) (h : Spanned text strict lo m.stop r) :
    Spanned text strict lo pos (pmap m.append r) :=
  (after hm (False.elim (C := 0 < m.visibleLeaves)) h).mono .inr (Nat.le_refl _)

theorem pthen {k : Parse} (h : Spanned text strict lo pos r)
    (hk : ∀ pos' : Position, pos'.Valid text → pos.cursor ≤ pos'.cursor →
      Spanned text strict' pos'.cursor pos' (k pos'))
    (hlo : lo ≤ pos.cursor) :
    Spanned text (strict ∨ strict') lo pos (Pegium.pthen r k) := by
  rcases r with - | - | m
  · exact .none
  · exact .fail
  · obtain ⟨hm, hv⟩ := h m rfl
    have hrest := hk m.stop hm.stop hm.cursor_le
    exact after hm hv (hrest.mono id (Nat.le_trans hlo hm.cursor_le))

theorem porElse (h : Spanned text strict lo pos r) (h' : Spanned text strict lo pos r') :
    Spanned text strict lo pos (Pegium.porElse r r') := by
  rcases r with - | - | m
  · exact .none
  · exact h'
  · exact h

/-- A node over a parse. -/
theorem node (h : Spanned text strict pos.cursor pos r) (element : GrammarElement) :
    Spanned text strict pos.cursor pos (pmap (.node pos pos.cursor element) r) := by
  intro m₂ hm₂
  obtain ⟨r₁, rfl, hr₁⟩ := Option.map_eq_some_iff.mp hm₂
  obtain ⟨m, rfl, rfl⟩ := Option.map_eq_some_iff.mp hr₁
  obtain ⟨hspans, hvis⟩ := h m rfl
  exact ⟨hspans.node (Nat.le_refl _) (fun _ => rfl) element, hvis⟩

theorem rebind (h : Spanned text strict lo pos r) (element : GrammarElement) :
    Spanned text strict lo pos (pmap (.rebind element) r) := by
  intro m₂ hm₂
  obtain ⟨r₁, rfl, hr₁⟩ := Option.map_eq_some_iff.mp hm₂
  obtain ⟨m, rfl, rfl⟩ := Option.map_eq_some_iff.mp hr₁
  obtain ⟨hspans, hvis⟩ := h m rfl
  exact ⟨hspans.rebind element, hvis⟩

theorem leaf {element : GrammarElement} {q : Option ℕ} (hpos : pos.Valid text)
    (hq : ∀ r, q = some r → pos.cursor ≤ r ∧ r ≤ text.length) :
    Spanned text strict pos.cursor pos (some (pegLeaf element pos q)) := by
  intro m hm
  simp only [Option.some.injEq] at hm
  obtain ⟨r, hr, rfl⟩ := Option.map_eq_some_iff.mp hm
  obtain ⟨hle, hlen⟩ := hq r hr
  exact ⟨.leaf hpos hle hlen element, fun _ => Nat.one_pos⟩

end Spanned

/-- All parses of an interpretation have their spans. -/
structure PegInterp.Spanned (Γ : Grammar) (text : List UInt8) (P : PegInterp) : Prop where
  terminal : MatcherBounded Γ text P.terminal
  parse : ∀ tracked (sk : Skipper) (e : Expr) (pos : Position), sk.WellFormed Γ →
    e.WellFormed Γ → pos.Valid text →
    Pegium.Spanned text (e.nullable Γ = false) pos.cursor pos (P.parse tracked sk e pos)

namespace PegInterp.Spanned

variable {P : PegInterp} (h : P.Spanned Γ text) {tracked : Bool} {sk : Skipper}
  (hsk : sk.WellFormed Γ) {pos : Position}

include h hsk

theorem skip (hpos : pos.Valid text) {s : Match} (hs : P.skip text sk pos = some s) :
    s.Spans text pos.cursor pos := by
  obtain ⟨⟨leaves, q⟩, hq, rfl⟩ := Option.map_eq_some_iff.mp hs
  obtain ⟨hstep, hl⟩ := skipFrom_bounds h.terminal hsk hpos.le_length hq
  exact .hidden hpos hl hstep.le_length

/-- A parse after a skip. -/
theorem skipThen {strict : Prop} {k : Parse} (hpos : pos.Valid text)
    (hk : ∀ pos' : Position, pos'.Valid text → pos.cursor ≤ pos'.cursor →
      Pegium.Spanned text strict pos'.cursor pos' (k pos')) :
    Pegium.Spanned text strict pos.cursor pos (P.skipThen text sk k pos) := by
  rw [PegInterp.skipThen]
  rcases hs : P.skip text sk pos with - | s
  · exact .none
  · have hspans := h.skip hsk hpos hs
    have hrest := hk s.stop hspans.stop hspans.cursor_le
    exact .behind hspans (hrest.mono id hspans.cursor_le)

theorem elements {es : List Expr} (hes : ∀ e ∈ es, e.WellFormed Γ) (hpos : pos.Valid text) :
    Pegium.Spanned text (es.all (Expr.nullable Γ) = false) pos.cursor pos
      (P.elements text tracked sk es pos) := by
  induction es generalizing pos with
  | nil => exact .nil hpos (by simp)
  | cons e es ih =>
    apply h.skipThen hsk hpos
    intro pos₁ hpos₁ _
    have he := h.parse tracked sk e pos₁ hsk (hes e List.mem_cons_self) hpos₁
    have hrest := he.pthen (fun pos₂ hpos₂ _ =>
      ih (fun e he => hes e (List.mem_cons_of_mem _ he)) hpos₂) (Nat.le_refl _)
    refine hrest.mono (fun hs => ?_) (Nat.le_refl _)
    rwa [List.all_cons, Bool.and_eq_false_iff] at hs

theorem group {es : List Expr} (hes : ∀ e ∈ es, e.WellFormed Γ) (hpos : pos.Valid text) :
    Pegium.Spanned text (es.all (Expr.nullable Γ) = false) pos.cursor pos
      (P.group text tracked sk es pos) := by
  cases es with
  | nil => exact .nil hpos (by simp)
  | cons e es =>
    have he := h.parse tracked sk e pos hsk (hes e List.mem_cons_self) hpos
    have hrest := he.pthen (fun pos₂ hpos₂ _ => @elements _ _ _ h tracked _ hsk pos₂ es
      (fun e he => hes e (List.mem_cons_of_mem _ he)) hpos₂) (Nat.le_refl _)
    refine hrest.mono (fun hs => ?_) (Nat.le_refl _)
    rwa [List.all_cons, Bool.and_eq_false_iff] at hs

theorem choice {es : List Expr} (hes : ∀ e ∈ es, e.WellFormed Γ) (hpos : pos.Valid text) :
    Pegium.Spanned text (es.any (Expr.nullable Γ) = false) pos.cursor pos
      (P.choice tracked sk es pos) := by
  induction es with
  | nil => exact .fail
  | cons e es ih =>
    have he := h.parse tracked sk e pos hsk (hes e List.mem_cons_self) hpos
    have hrest := ih fun e he => hes e (List.mem_cons_of_mem _ he)
    refine (he.mono (fun hs => ?_) (Nat.le_refl _)).porElse
      (hrest.mono (fun hs => ?_) (Nat.le_refl _))
    · rw [List.any_cons, Bool.or_eq_false_iff] at hs
      exact hs.1
    · rw [List.any_cons, Bool.or_eq_false_iff] at hs
      exact hs.2

/-! ### Repetitions -/

variable {e : Expr} (he : e.WellFormed Γ) (hpos : pos.Valid text)
include he hpos

/-- A skip and an item. -/
theorem item : Pegium.Spanned text (e.nullable Γ = false) pos.cursor pos
    (P.skipThen text sk (P.parse tracked sk e) pos) :=
  h.skipThen hsk hpos fun pos' hpos' _ => h.parse tracked sk e pos' hsk he hpos'

/-- One iteration of a loop that stops when there is no item. -/
theorem iteration {k : Parse}
    (hk : ∀ pos' : Position, pos'.Valid text →
      Pegium.Spanned text False pos'.cursor pos' (k pos')) :
    Pegium.Spanned text False pos.cursor pos
      (match P.skipThen text sk (P.parse tracked sk e) pos with
        | none => none
        | some none => some (some (.nil pos))
        | some (some m) => pmap m.append (k m.stop)) := by
  have hitem := @item _ _ _ h tracked _ hsk pos e he hpos
  rcases hr : P.skipThen text sk (P.parse tracked sk e) pos with - | - | m
  · exact .none
  · exact .nil hpos not_false
  · obtain ⟨hm, -⟩ := hitem m hr
    have hrest := (hk m.stop hm.stop).mono id hm.cursor_le
    exact .behind hm hrest

theorem star {budget : ℕ} :
    Pegium.Spanned text False pos.cursor pos (P.star text tracked sk e budget pos) := by
  induction budget generalizing pos with
  | zero => exact .none
  | succ budget ih => exact h.iteration hsk he hpos fun _ hpos' => ih hpos'

theorem upTo {count : ℕ} :
    Pegium.Spanned text False pos.cursor pos (P.upTo text tracked sk e count pos) := by
  induction count generalizing pos with
  | zero => exact .nil hpos not_false
  | succ count ih => exact h.iteration hsk he hpos fun _ hpos' => ih hpos'

theorem times {count : ℕ} :
    Pegium.Spanned text False pos.cursor pos (P.times text tracked sk e count pos) := by
  induction count generalizing pos with
  | zero => exact .nil hpos not_false
  | succ count ih =>
    have hitem := @item _ _ _ h tracked _ hsk pos e he hpos
    exact (hitem.pthen (fun _ hpos' _ => ih hpos') (Nat.le_refl _)).mono .inr (Nat.le_refl _)

theorem more {min : ℕ} {max : Option ℕ} :
    Pegium.Spanned text False pos.cursor pos (P.more text tracked sk min max e pos) := by
  cases max with
  | none => exact h.star hsk he hpos
  | some max => exact h.upTo hsk he hpos

theorem repetition (hn : e.nullable Γ = false) {min : ℕ} {max : Option ℕ} :
    Pegium.Spanned text (0 < min) pos.cursor pos
      (P.repetition text tracked sk min max e pos) := by
  have hfirst := h.parse tracked sk e pos hsk he hpos
  have hrest : ∀ pos' : Position, pos'.Valid text → pos.cursor ≤ pos'.cursor →
      Pegium.Spanned text False pos'.cursor pos'
        (pthen (P.times text tracked sk e (min - 1) pos') (P.more text tracked sk min max e)) := by
    intro pos' hpos' _
    have htimes := @times _ _ _ h tracked _ hsk pos' e he hpos' (min - 1)
    exact (htimes.pthen (fun pos₂ hpos₂ _ => h.more hsk he hpos₂) (Nat.le_refl _)).mono .inr
      (Nat.le_refl _)
  have hitems := (hfirst.pthen hrest (Nat.le_refl _)).mono (fun _ : True => .inl hn) (Nat.le_refl _)
  rw [PegInterp.repetition]
  split
  next hmin =>
    exact (hitems.mono (fun _ => trivial) (Nat.le_refl _)).porElse (.nil hpos (by omega))
  next => exact hitems.mono (fun _ => trivial) (Nat.le_refl _)

/-! ### Unordered groups -/

omit he hpos

theorem oneOf {es : List (Expr × Bool)}
    (hes : ∀ e ∈ es, e.1.WellFormed Γ ∧ e.1.nullable Γ = false) (hpos : pos.Valid text)
    {es' : List (Expr × Bool)} {m : Match}
    (hr : P.oneOf tracked sk es pos = some (some (es', m))) :
    (m.Spans text pos.cursor pos ∧ 0 < m.visibleLeaves) ∧ es'.map (·.1) = es.map (·.1) := by
  induction es generalizing es' with
  | nil => simp [PegInterp.oneOf] at hr
  | cons e es ih =>
    obtain ⟨e, flag⟩ := e
    have he := hes (e, flag) List.mem_cons_self
    have ih := fun es' => @ih (fun e he => hes e (List.mem_cons_of_mem _ he)) es'
    have hlater : ∀ flag, (P.oneOf tracked sk es pos).map
        (Option.map fun r => ((e, flag) :: r.1, r.2)) = some (some (es', m)) →
        (m.Spans text pos.cursor pos ∧ 0 < m.visibleLeaves) ∧
          es'.map (·.1) = e :: es.map (·.1) := by
      intro flag hr
      obtain ⟨r₁, hr₁, hr₂⟩ := Option.map_eq_some_iff.mp hr
      obtain ⟨⟨es₁, m₁⟩, rfl, hr₃⟩ := Option.map_eq_some_iff.mp hr₂
      simp only [Prod.mk.injEq] at hr₃
      obtain ⟨rfl, rfl⟩ := hr₃
      obtain ⟨hm, hmap⟩ := ih es₁ hr₁
      exact ⟨hm, by simp [hmap]⟩
    cases flag with
    | true => exact hlater true hr
    | false =>
      rw [PegInterp.oneOf] at hr
      rcases hp : P.parse tracked sk e pos with - | - | m₁ <;> simp only [hp] at hr
      · cases hr
      · exact hlater false hr
      · simp only [Option.some.injEq, Prod.mk.injEq] at hr
        obtain ⟨rfl, rfl⟩ := hr
        obtain ⟨hspans, hvis⟩ := h.parse tracked sk e pos hsk he.1 hpos m₁ hp
        exact ⟨⟨hspans, hvis he.2⟩, rfl⟩

theorem othersOf {count : ℕ} {es : List (Expr × Bool)}
    (hes : ∀ e ∈ es, e.1.WellFormed Γ ∧ e.1.nullable Γ = false) (hpos : pos.Valid text) :
    Pegium.Spanned text False pos.cursor pos (P.othersOf text tracked sk count es pos) := by
  induction count generalizing pos es with
  | zero => exact .nil hpos not_false
  | succ count ih =>
    rw [PegInterp.othersOf]
    rcases hs : P.skip text sk pos with - | s
    · exact .none
    · have hskip := h.skip hsk hpos hs
      dsimp only
      rcases hr : P.oneOf tracked sk es s.stop with - | - | ⟨es', m⟩
      · exact .none
      · exact .fail
      · obtain ⟨⟨hm, -⟩, hmap⟩ := h.oneOf hsk hes hskip.stop hr
        have hes' := Interp.Bounded.elements_of_map hes hmap
        have hfirst := hskip.append (hm.mono hskip.cursor_le)
        have hrest := ih hes' hm.stop
        exact .behind hfirst (hrest.mono id (Nat.le_trans hskip.cursor_le hm.cursor_le))

theorem unorderedGroup {es : List Expr}
    (hes : ∀ e ∈ es, e.WellFormed Γ ∧ e.nullable Γ = false) (hpos : pos.Valid text) :
    Pegium.Spanned text True pos.cursor pos (P.unorderedGroup text tracked sk es pos) := by
  have hes' : ∀ e ∈ es.map (·, false), e.1.WellFormed Γ ∧ e.1.nullable Γ = false := by
    simpa using hes
  rw [PegInterp.unorderedGroup]
  rcases hr : P.oneOf tracked sk (es.map (·, false)) pos with - | - | ⟨es₁, m⟩
  · exact .none
  · exact .fail
  · obtain ⟨⟨hm, hv⟩, hmap⟩ := h.oneOf hsk hes' hpos hr
    have hrest := @othersOf _ _ _ h tracked _ hsk m.stop (es.length - 1) es₁
      (Interp.Bounded.elements_of_map hes' hmap) hm.stop
    exact (Spanned.after hm (fun _ : True => hv) (hrest.mono id hm.cursor_le)).mono .inl
      (Nat.le_refl _)

/-! ### Assignments and rules -/

theorem elementNode {e : Expr} (he : e.WellFormed Γ) (hpos : pos.Valid text)
    (element : GrammarElement) :
    Pegium.Spanned text (e.nullable Γ = false) pos.cursor pos
      (P.elementNode tracked sk element e pos) := by
  have hparse := h.parse tracked sk e pos hsk he hpos
  rw [PegInterp.elementNode]
  split
  · exact hparse.node element
  · exact hparse.rebind element

theorem rule (hΓ : Γ.WellFormed) {element : GrammarElement} {defn : RuleDef}
    (hbody : defn.body.WellFormed Γ) (hn : defn.body.nullable Γ = defn.nullable)
    (hpos : pos.Valid text) :
    Pegium.Spanned text (defn.nullable = false) pos.cursor pos
      (P.rule Γ tracked sk element defn pos) := by
  have hlocal : (Interp.ruleSkipper Γ sk defn).WellFormed Γ := by
    rw [Interp.ruleSkipper]
    split
    · exact hΓ.skipper _
    · exact hsk
  rw [PegInterp.rule, ← hn]
  exact (h.parse tracked _ defn.body pos hlocal hbody hpos).node element

/-! ### Infix rules -/

theorem operator {rule minPrecedence index : ℕ} {operators ops : List InfixOperator}
    (hops : ∀ op ∈ ops, op.element.WellFormed Γ ∧ op.element.nullable Γ = false)
    (hpos : pos.Valid text) {next : ℕ} {m : Match}
    (hr : P.operator text tracked sk rule operators minPrecedence index ops pos
      = some (some (next, m))) : m.Spans text pos.cursor pos ∧ 0 < m.visibleLeaves := by
  induction ops generalizing index with
  | nil => simp [PegInterp.operator] at hr
  | cons op ops ih =>
    have hop := hops op List.mem_cons_self
    have ih := fun index => @ih index fun op hop => hops op (List.mem_cons_of_mem _ hop)
    rw [PegInterp.operator] at hr
    split at hr
    · cases hr
    · rcases hf : P.fastProbe tracked sk op.element pos with - | - | - <;> simp only [hf] at hr
      · cases hr
      · exact ih _ hr
      · rcases hn : P.elementNode tracked sk (.infixOperator rule index) op.element pos
          with - | - | m₁ <;> simp only [hn] at hr
        · cases hr
        · exact ih _ hr
        · split at hr
          · exact ih _ hr
          · simp only [Option.some.injEq, Prod.mk.injEq] at hr
            obtain ⟨hspans, hvis⟩ := h.elementNode hsk hop.1 hpos _ m₁ hn
            exact hr.2 ▸ ⟨hspans, hvis hop.2⟩

/-- The infix nodes begin where their first operand does, before the position of
the tail. -/
theorem tail {rule : ℕ} {defn : InfixDef}
    (hprimary : (Expr.parserRule defn.primary).WellFormed Γ)
    (hops : ∀ op ∈ defn.operators, op.element.WellFormed Γ ∧ op.element.nullable Γ = false)
    {budget minPrecedence lhsStart : ℕ} (hpos : pos.Valid text) (hl : lhsStart ≤ pos.cursor)
    {m : Match}
    (hr : P.tail text tracked sk rule defn budget minPrecedence lhsStart pos = some m) :
    m.Spans text lhsStart pos := by
  induction budget generalizing minPrecedence lhsStart pos m with
  | zero => cases hr
  | succ budget ih =>
    have hnil : ∀ {m : Match}, some (Match.nil pos) = some m → m.Spans text lhsStart pos := by
      intro m hm
      simp only [Option.some.injEq] at hm
      exact hm ▸ .nil hpos
    rw [PegInterp.tail] at hr
    split at hr
    · exact hnil hr
    · rcases hf : P.operatorMayStart tracked sk minPrecedence defn.operators pos
        with - | - | - <;> simp only [hf] at hr
      · cases hr
      · exact hnil hr
      · rcases ho : P.operator text tracked sk rule defn.operators minPrecedence 0
          defn.operators pos with - | - | ⟨next, o⟩ <;> simp only [ho] at hr
        · cases hr
        · exact hnil hr
        · obtain ⟨hop, hov⟩ := h.operator hsk hops hpos ho
          rcases hs : P.skip text sk o.stop with - | s <;> simp only [hs] at hr
          · cases hr
          · have hskip := h.skip hsk hop.stop hs
            rcases hq : P.parse tracked sk (.parserRule defn.primary) s.stop with - | - | rhs
              <;> simp only [hq] at hr
            · cases hr
            · exact hnil hr
            · obtain ⟨hrhs, -⟩ := h.parse tracked sk _ s.stop hsk hprimary hskip.stop rhs hq
              rcases hs' : P.skip text sk rhs.stop with - | s' <;> simp only [hs'] at hr
              · cases hr
              · have hskip' := h.skip hsk hrhs.stop hs'
                rcases ht : P.tail text tracked sk rule defn budget next s.stop.cursor s'.stop
                  with - | nested <;> simp only [ht] at hr
                · cases hr
                · obtain ⟨m', hm', rfl⟩ := Option.map_eq_some_iff.mp hr
                  -- the children of the infix node, from the operator on
                  have hc₁ := hop.cursor_le
                  have hc₂ := hskip.cursor_le
                  have hc₃ := hrhs.cursor_le
                  have hc₄ := hskip'.cursor_le
                  have hnested := ih hskip'.stop (Nat.le_trans hc₃ hc₄) ht
                  have hchildren := (hop.mono hl).append ((hskip.mono (Nat.le_trans hl hc₁)).append
                    ((hrhs.mono (by omega)).append ((hskip'.mono (by omega)).append
                      (hnested.mono (by omega)))))
                  have hne : (o.append (s.append (rhs.append (s'.append nested)))).forest = .nil →
                      lhsStart = pos.cursor := by
                    intro hnil
                    have h0 := hop.bare (Forest.append_eq_nil.mp hnil).1
                    omega
                  have hnode := hchildren.node hl hne (.infixRule rule)
                  have hstop : lhsStart ≤ nested.stop.cursor := by
                    have hc₅ := hnested.cursor_le
                    omega
                  exact hnode.append (ih hnode.stop hstop hm')

theorem infixRule {rule : ℕ} {defn : InfixDef}
    (hprimary : (Expr.parserRule defn.primary).WellFormed Γ)
    (hn : (Expr.parserRule defn.primary).nullable Γ = false)
    (hops : ∀ op ∈ defn.operators, op.element.WellFormed Γ ∧ op.element.nullable Γ = false)
    (hpos : pos.Valid text) :
    Pegium.Spanned text True pos.cursor pos (P.infixRule text tracked sk rule defn pos) := by
  rw [PegInterp.infixRule]
  rcases hq : P.parse tracked sk (.parserRule defn.primary) pos with - | - | m
  · exact .none
  · exact .fail
  · obtain ⟨hm, hv⟩ := h.parse tracked sk _ pos hsk hprimary hpos m hq
    rw [pthen, PegInterp.skipThen]
    rcases hs : P.skip text sk m.stop with - | s
    · exact .none
    · have hskip := h.skip hsk hm.stop hs
      dsimp only
      rcases ht : P.tail text tracked sk rule defn (text.length + 1) 0 pos.cursor s.stop
        with - | t
      · exact .none
      · have hle := Nat.le_trans hm.cursor_le hskip.cursor_le
        have htail := h.tail hsk hprimary hops hskip.stop hle ht
        intro m₂ hm₂
        simp only [pmap, Option.map_some, Option.some.injEq] at hm₂
        subst hm₂
        refine ⟨hm.append ((hskip.mono hm.cursor_le).append htail), fun _ => ?_⟩
        exact Nat.add_pos_left (hv hn) _

/-! ### One unfolding -/

omit hsk

theorem parseStep (hΓ : Γ.WellFormed) (hsk : sk.WellFormed Γ) {e : Expr} (he : e.WellFormed Γ)
    (hpos : pos.Valid text) :
    Pegium.Spanned text (e.nullable Γ = false) pos.cursor pos
      (P.parseStep Γ text tracked sk e pos) := by
  have hc := he.checked
  have hsub : ∀ e' ∈ e.children, e'.WellFormed Γ := fun _ h => he.sub h
  cases e with
  | literal id value cs =>
    have hleaf : Pegium.Spanned text ((Expr.literal id value cs).nullable Γ = false) pos.cursor pos
        (some (pegLeaf (.expression id) pos (literalMatch text value cs pos.cursor))) := by
      apply Spanned.leaf hpos
      intro r hr
      rw [literalMatch, Option.filter_eq_some_iff] at hr
      have hstep := literalTerminal_bounds hc hpos.le_length hr.1
      exact ⟨hstep.le, hstep.le_length⟩
    exact hleaf
  | characterRange id lookup =>
    apply Spanned.leaf hpos
    intro r hr
    obtain ⟨hlt, hlen⟩ := characterRange_bounds hc hr
    exact ⟨Nat.le_of_lt hlt, hlen⟩
  | anyCharacter id =>
    apply Spanned.leaf hpos
    intro r hr
    obtain ⟨hlt, hlen⟩ := consume_utf8_codepoint_bounds hr
    exact ⟨Nat.le_of_lt hlt, hlen⟩
  | group es =>
    rw [Expr.nullable, Expr.allNullable_eq]
    exact h.group hsk hsub hpos
  | orderedChoice es =>
    rw [Expr.nullable, Expr.anyNullable_eq]
    exact h.choice hsk hsub hpos
  | unorderedGroup es =>
    exact (h.unorderedGroup hsk (fun e he => ⟨hsub e he, hc.2 e he⟩) hpos).mono
      (fun _ => trivial) (Nat.le_refl _)
  | repetition min max e =>
    refine (h.repetition hsk (hsub e (by simp [Expr.children])) hpos hc.1).mono (fun hs => ?_)
      (Nat.le_refl _)
    simp only [Expr.nullable, beq_eq_false_iff_ne] at hs
    exact Nat.pos_of_ne_zero hs
  | andPredicate e =>
    rw [PegInterp.parseStep]
    rcases P.probe false sk e pos with - | - | -
    · exact .none
    · exact .fail
    · exact .nil hpos (by simp [Expr.nullable])
  | notPredicate e =>
    rw [PegInterp.parseStep]
    rcases (if tracked then P.probeMatchHere sk e pos else P.probe false sk e pos)
      with - | - | -
    · exact .none
    · exact .nil hpos (by simp [Expr.nullable])
    · exact .fail
  | assignment id e =>
    exact (h.elementNode hsk (hsub e (by simp [Expr.children])) hpos _).mono (fun _ => hc)
      (Nat.le_refl _)
  | create id | nest id =>
    apply Spanned.leaf (q := some pos.cursor) hpos
    rintro r ⟨rfl⟩
    exact ⟨Nat.le_refl _, hpos.le_length⟩
  | terminalRule r =>
    rw [PegInterp.parseStep]
    rcases hr : P.terminal (Γ.terminalRule r) pos.cursor with - | q
    · exact .none
    · apply Spanned.leaf hpos
      intro q' hq
      have hstep := h.terminal _ _ q' (hΓ.terminalRule r).1 hpos.le_length (hq ▸ hr)
      exact ⟨hstep.le, hstep.le_length⟩
  | dataTypeRule r =>
    have hr := hΓ.dataTypeRule r
    exact h.rule hsk hΓ hr.1 hr.2 hpos
  | parserRule r =>
    have hr := hΓ.parserRule r
    exact h.rule hsk hΓ hr.1 hr.2 hpos
  | infixRule r =>
    have hr := hΓ.infixRule r
    exact (h.infixRule hsk (.intro trivial (by simp [Expr.children])) hr.1 hr.2.2 hpos).mono
      (fun _ => trivial) (Nat.le_refl _)
  | skipperWrapped s base =>
    exact h.parse tracked _ base pos (hΓ.skipper s) (hsub base (by simp [Expr.children])) hpos

theorem step (hΓ : Γ.WellFormed) : (P.step Γ text).Spanned Γ text where
  terminal := terminalStep_bounds hΓ h.terminal
  parse _ _ _ _ hsk he hpos := h.parseStep hΓ hsk he hpos

omit h in
theorem bot : PegInterp.bot.Spanned Γ text where
  terminal _ _ _ _ _ h := by cases h
  parse _ _ _ _ _ _ _ := .none

end PegInterp.Spanned

/-- The matches of a well-formed grammar have their spans, at every depth. -/
theorem spanned_peg (hΓ : Γ.WellFormed) (text : List UInt8) (n : ℕ) :
    (peg Γ text n).Spanned Γ text := by
  induction n with
  | zero => exact .bot
  | succ n ih => exact ih.step hΓ

/-! ### The law of a run -/

/-- What a strict parse of the whole text adds: the trivia before the entry rule,
the rule, and the trivia after it. -/
def pegRun (Γ : Grammar) (text : List UInt8) (n : ℕ) (tracked : Bool) (sk : Skipper)
    (entryRule : ℕ) : Option (Option Match) :=
  (peg Γ text n).skipThen text sk
    (fun pos => pthen ((peg Γ text n).parse tracked sk (.parserRule entryRule) pos) fun pos' =>
      ((peg Γ text n).skip text sk pos').map some)
    ⟨0, 0⟩

/-- A successful run leaves the nodes of its meaning. -/
theorem runStrictParse_eq {n : ℕ} {tracked : Bool} {sk : Skipper} {entryRule : ℕ}
    {ctx : ParseContext}
    (h : runStrictParse Γ text n tracked sk entryRule = some (true, ctx)) :
    ∃ m, pegRun Γ text n tracked sk entryRule = some (some m) ∧ ctx = m.ctx .empty := by
  have hsim := simulates_interp Γ text n
  have hinit : ParseContext.initial = (⟨0, 0⟩ : Position).ctx .empty := by
    rw [Position.ctx, TreeBuilder.toCstBuilder_empty]
    rfl
  rw [runStrictParse, hinit] at h
  simp only [hsim.skip] at h
  rw [pegRun, PegInterp.skipThen]
  rcases hs : (peg Γ text n).skip text sk ⟨0, 0⟩ with - | s <;> simp only [hs] at h
  · cases h
  · have hrule := hsim.parse tracked sk (.parserRule entryRule) (TreeBuilder.empty.append s.forest)
      s.stop
    simp only [Option.map_some, Match.ctx_eq s] at h
    dsimp only
    generalize (interp Γ text n).parse tracked sk (.parserRule entryRule) _ = r at hrule h
    generalize (peg Γ text n).parse tracked sk (.parserRule entryRule) s.stop = a at hrule ⊢
    cases hrule with
    | bot => cases h
    | fail ctx' _ _ =>
      obtain ⟨c, -, hc⟩ := Option.map_eq_some_iff.mp h
      simp at hc
    | ok m =>
      simp only [if_true, Match.ctx_eq m, hsim.skip] at h
      rcases hs' : (peg Γ text n).skip text sk m.stop with - | s' <;> simp only [hs'] at h
      · cases h
      · simp only [Option.map_some, Option.some.injEq, Prod.mk.injEq, true_and] at h
        refine ⟨s.append (m.append s'), ?_, ?_⟩
        · rw [pthen, hs']
          rfl
        · rw [← h, Match.ctx_append, Match.ctx_append]

theorem pegRun_spans (hΓ : Γ.WellFormed) {n : ℕ} {tracked : Bool} {sk : Skipper}
    (hsk : sk.WellFormed Γ) {entryRule : ℕ} {m : Match}
    (h : pegRun Γ text n tracked sk entryRule = some (some m)) : m.Spans text 0 ⟨0, 0⟩ := by
  have hP := spanned_peg hΓ text n
  have hstart : (⟨0, 0⟩ : Position).Valid text := ⟨Nat.le_refl 0, Nat.zero_le _⟩
  have hrun : Spanned text False 0 ⟨0, 0⟩ (pegRun Γ text n tracked sk entryRule) := by
    apply hP.skipThen hsk hstart
    intro pos hpos _
    have hrule := hP.parse tracked sk (.parserRule entryRule) pos hsk
      (.intro trivial (by simp [Expr.children])) hpos
    refine (hrule.pthen (fun pos' hpos' _ => ?_) (Nat.le_refl _)).mono .inr (Nat.le_refl _)
    intro s hs
    obtain ⟨s', hs', heq⟩ := Option.map_eq_some_iff.mp hs
    simp only [Option.some.injEq] at heq
    subst heq
    exact ⟨hP.skip hsk hpos' hs', False.elim⟩
  exact (hrun m h).1

/-- **The span law, exactly.**  The CST of a successful strict parse satisfies the
span law if and only if every node was exited properly: with a visible leaf
inside, or entered where no trivia had been skipped since the last visible
leaf. -/
theorem span_law_iff {Γ : Grammar} (hΓ : Γ.WellFormed) {text : List UInt8} {n : ℕ}
    {tracked : Bool} {sk : Skipper} (hsk : sk.WellFormed Γ) {entryRule : ℕ} {ctx : ParseContext}
    (h : runStrictParse Γ text n tracked sk entryRule = some (true, ctx)) :
    ∃ m t, pegRun Γ text n tracked sk entryRule = some (some m) ∧
      (ctx.builder.toRoot text).read = some t ∧
      (SpanLaw text (t.map CstItem.extent) ↔ ∀ x ∈ m.exits, x.Proper) := by
  obtain ⟨m, hm, rfl⟩ := runStrictParse_eq h
  have hspans := pegRun_spans hΓ hsk hm
  have hread : ((m.ctx .empty).builder.toRoot text).read = some (numbered 0 m.forest) := by
    have hdepth : (TreeBuilder.empty.append m.forest).depth = 0 := rfl
    exact read_toCstBuilder text hdepth
  refine ⟨m, _, hm, hread, ?_⟩
  rw [map_extent_numbered]
  show SpanLaw text m.extents ↔ _
  constructor
  · intro hlaw
    exact hspans.law.mp hlaw.begin_le_end
  · intro hexits
    refine ⟨hspans.law.mpr hexits, ?_, hspans.nested, hspans.ordered⟩
    intro e he
    exact Nat.le_trans (hspans.end_le e he) hspans.stop.le_length

/-- The skipper of blanks, which records hidden leaves. -/
def Skipper.blanks : Skipper := ⟨[(.terminalRule 1, .characterRange 1 (· == 32))], []⟩

theorem Skipper.blanks_wellFormed {Γ : Grammar} : Skipper.blanks.WellFormed Γ := by
  refine ⟨fun r hr => ?_, nofun⟩
  rw [List.mem_singleton.mp hr]
  exact ⟨.intro rfl (by simp [Expr.children]), rfl, by simp [Expr.nullable]⟩

/-- `x?`, a nullable rule body. -/
def optionalX : Expr := .repetition 0 (some 1) (.literal 0 [120] true)

theorem optionalX_wellFormed : (Grammar.sample optionalX true).WellFormed := by
  apply Grammar.sample_wellFormed
  · refine .intro ⟨by simp [Expr.nullable], by simp⟩ fun e he => ?_
    rw [List.mem_singleton.mp he]
    exact Expr.literal_wellFormed (by decide)
  · simp [optionalX, Expr.nullable]

/-- The rule `x?` on ` x`: the node is exited with a visible leaf. -/
theorem span_law_iff_optional :
    ∃ ctx t, runStrictParse (.sample optionalX true) [32, 120] 4 false .blanks 0
        = some (true, ctx) ∧
      (ctx.builder.toRoot [32, 120]).read = some t ∧
      SpanLaw [32, 120] (t.map CstItem.extent) := by
  obtain ⟨m, t, hm, ht, hiff⟩ := @span_law_iff _ optionalX_wellFormed [32, 120] 4 false .blanks
    Skipper.blanks_wellFormed 0 _ rfl
  have hexits : (pegRun (.sample optionalX true) [32, 120] 4 false .blanks 0).map
      (Option.map Match.exits) = some (some [⟨⟨1, 0⟩, true⟩]) := rfl
  simp only [hm, Option.map_some, Option.some.injEq] at hexits
  refine ⟨_, t, rfl, ht, hiff.mpr ?_⟩
  rw [hexits]
  decide

/-- The rule `x?` on a blank: the node begins after the blank and ends before
it. -/
theorem not_span_law_optional :
    ∃ ctx t, runStrictParse (.sample optionalX true) [32] 4 false .blanks 0 = some (true, ctx) ∧
      (ctx.builder.toRoot [32]).read = some t ∧ ¬ SpanLaw [32] (t.map CstItem.extent) := by
  refine ⟨_, _, rfl, rfl, ?_⟩
  intro h
  have hle := h.begin_le_end ⟨1, 0, false⟩ (by decide)
  exact absurd hle (by decide)

end Pegium
