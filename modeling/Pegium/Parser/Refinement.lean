/-
Pegium/Parser/Refinement.lean

The code computes the meaning.

`Sim` relates a call on a context to the meaning of the expression at its
position.  A call that returns true leaves exactly the match of the meaning:
the cursors of its stop position, and a builder that holds the nodes of its
forest appended to those of the call.  A call that returns false leaves a
context that has only grown (so that a rewind restores it), and leaves it
untouched when the expression declares itself failure-safe.

Each helper of `Strict.lean` has one lemma here; `Simulates.step` assembles
them, and `simulates_interp` is the induction on the depth of calls.
-/
import Pegium.Parser.Peg
import Pegium.SyntaxTree.Speculation

namespace Pegium

/-- The context at a position over a builder state. -/
def Position.ctx (pos : Position) (tb : TreeBuilder GrammarElement) : ParseContext :=
  ⟨pos.cursor, pos.lastVisible, tb.toCstBuilder⟩

/-- The context after a match. -/
def Match.ctx (m : Match) (tb : TreeBuilder GrammarElement) : ParseContext :=
  m.stop.ctx (tb.append m.forest)

/-- A context whose builder has grown from `tb`, within the node open there. -/
def Grown (tb : TreeBuilder GrammarElement) (ctx : ParseContext) : Prop :=
  ∃ tb', ctx.builder = tb'.toCstBuilder ∧ tb.Extends tb'

/-- A call on the context at `pos` over `tb` and its meaning. -/
inductive Sim (safe : Prop) (tb : TreeBuilder GrammarElement) (pos : Position) :
    Outcome → Option (Option Match) → Prop
  | bot : Sim safe tb pos none none
  | fail (ctx : ParseContext) (grown : Grown tb ctx) (restored : safe → ctx = pos.ctx tb) :
      Sim safe tb pos (some (false, ctx)) (some none)
  | ok (m : Match) : Sim safe tb pos (some (true, m.ctx tb)) (some (some m))

variable {Γ : Grammar} {text : List UInt8}
variable {safe safe' : Prop} {tb : TreeBuilder GrammarElement} {pos : Position}

/-! ### Contexts -/

@[simp] theorem Position.ctx_cursor : (pos.ctx tb).cursor = pos.cursor := rfl

@[simp] theorem Position.ctx_lastVisible :
    (pos.ctx tb).lastVisibleCursor = pos.lastVisible := rfl

@[simp] theorem Match.ctx_nil : (Match.nil pos).ctx tb = pos.ctx tb := by
  simp [Match.ctx, Match.nil]

theorem Match.ctx_eq (m : Match) : m.ctx tb = m.stop.ctx (tb.append m.forest) := rfl

theorem Match.ctx_append (m m' : Match) : (m.append m').ctx tb = m'.ctx (tb.append m.forest) := by
  simp [Match.ctx, Match.append, TreeBuilder.append_append]

@[simp] theorem Position.enter_ctx : (pos.ctx tb).enter = pos.ctx tb.enter := by
  simp [Position.ctx, ParseContext.enter, TreeBuilder.toCstBuilder_enter]

theorem Grown.refl : Grown tb (pos.ctx tb) := ⟨tb, rfl, .refl tb⟩

theorem Grown.of_extends {tb' : TreeBuilder GrammarElement} {ctx : ParseContext}
    (h : tb.Extends tb') (hg : Grown tb' ctx) : Grown tb ctx := by
  obtain ⟨tb'', hb, h'⟩ := hg
  exact ⟨tb'', hb, h.trans h'⟩

theorem Grown.of_append {f : Forest (CstLabel GrammarElement)} {ctx : ParseContext}
    (hg : Grown (tb.append f) ctx) : Grown tb ctx :=
  hg.of_extends (.here f)

theorem Grown.of_enter {ctx : ParseContext} (hg : Grown tb.enter ctx) : Grown tb ctx :=
  hg.of_extends (.inside _ (.refl tb))

/-- Going back from a context that has grown. -/
theorem Grown.rewind {ctx : ParseContext} (hg : Grown tb ctx) :
    ctx.rewind (pos.ctx tb).mark = pos.ctx tb := by
  obtain ⟨tb', hb, h⟩ := hg
  simp only [ParseContext.rewind, ParseContext.mark, Position.ctx, hb,
    TreeBuilder.rewind_toCstBuilder h]

theorem Match.grown (m : Match) : Grown tb (m.ctx tb) :=
  ⟨_, rfl, .here m.forest⟩

/-! ### Rules of the simulation -/

theorem Sim.mono {r : Outcome} {a : Option (Option Match)} (h : Sim safe tb pos r a)
    (hs : safe' → safe) : Sim safe' tb pos r a := by
  cases h with
  | bot => exact .bot
  | fail ctx hg hr => exact .fail ctx hg fun h => hr (hs h)
  | ok m => exact .ok m

/-- Sequencing.  The composition is failure-safe when its first part is and its
second part does not fail. -/
theorem Sim.andThen {r : Outcome} {a : Option (Option Match)} {k : ParseContext → Outcome}
    {k' : Parse} (h : Sim safe tb pos r a)
    (hk : ∀ m, a = some (some m) →
      Sim False (tb.append m.forest) m.stop (k (m.ctx tb)) (k' m.stop))
    (hs : safe' → safe ∧ ∀ p, k' p ≠ some none) :
    Sim safe' tb pos (andThen r k) (pthen a k') := by
  cases h with
  | bot => exact .bot
  | fail ctx hg hr => exact .fail ctx hg fun h => hr (hs h).1
  | ok m =>
    have h := hk m rfl
    simp only [Pegium.andThen, pthen]
    generalize hc : k (m.ctx tb) = c at h
    generalize hn : k' m.stop = n at h
    cases h with
    | bot => exact .bot
    | fail ctx hg _ => exact .fail ctx hg.of_append fun h => absurd hn ((hs h).2 _)
    | ok m' => rw [← Match.ctx_append]; exact .ok _

/-- Alternatives. -/
theorem Sim.orElse {r : Outcome} {a b : Option (Option Match)} {k : ParseContext → Outcome}
    (h : Sim True tb pos r a) (hk : Sim safe tb pos (k (pos.ctx tb)) b) :
    Sim safe tb pos (orElse r k) (porElse a b) := by
  cases h with
  | bot => exact .bot
  | fail ctx _ hr => rw [hr trivial]; exact hk
  | ok m => exact .ok m

/-- Saving and restoring around a call makes it failure-safe. -/
theorem Sim.restore {r : Outcome} {a : Option (Option Match)} (h : Sim safe tb pos r a) :
    Sim True tb pos
      (Pegium.orElse r fun ctx => some (false, ctx.rewind (pos.ctx tb).mark)) a := by
  cases h with
  | bot => exact .bot
  | fail ctx hg _ => exact .fail _ (by rw [hg.rewind]; exact .refl) fun _ => hg.rewind
  | ok m => exact .ok m

/-- A call that cannot fail. -/
theorem Sim.total {r : Outcome} {a : Option (Option Match)} (h : Sim True tb pos r a) :
    Sim True tb pos (r.map fun c => (true, c.2)) (porElse a (some (some (.nil pos)))) := by
  cases h with
  | bot => exact .bot
  | fail ctx _ hr =>
    rw [hr trivial]
    simpa [porElse] using @Sim.ok True tb pos (.nil pos)
  | ok m => exact .ok m

/-- The answer of a probe that parses and restores. -/
theorem Sim.probe {r : Outcome} {a : Option (Option Match)} (h : Sim safe tb pos r a) :
    (r.map fun c => (c.1, c.2.rewind (pos.ctx tb).mark))
      = (answered a).map (·, pos.ctx tb) := by
  cases h with
  | bot => rfl
  | fail ctx hg _ => simp [answered, hg.rewind]
  | ok m => simp [answered, m.grown.rewind]

theorem Sim.leaf (element : GrammarElement) (q : Option ℕ) :
    Sim safe tb pos (some (parseLeaf element (pos.ctx tb) q))
      (some (pegLeaf element pos q)) := by
  cases q with
  | none => exact .fail _ .refl fun _ => rfl
  | some q =>
    have hleaf : (pos.ctx tb).leaf q element = (Match.leaf pos q element).ctx tb := by
      simp only [ParseContext.leaf, Match.ctx, Match.leaf, Position.ctx,
        ← TreeBuilder.toCstBuilder_leaf]
      rfl
    simp only [parseLeaf, pegLeaf, Option.map_some, hleaf]
    exact .ok _

/-- Exiting a node over a match. -/
theorem Match.exit_ctx (m : Match) (checkpoint : ℕ) (element : GrammarElement) :
    (m.ctx tb.enter).exit checkpoint element
      = (Match.node pos checkpoint element m).ctx tb := by
  simp only [Match.ctx, Match.node, ParseContext.exit, Position.ctx,
    ← TreeBuilder.toCstBuilder_exit, TreeBuilder.enter_append_exit]

/-- A node around a call made after `enter`. -/
theorem Sim.node {r : Outcome} {a : Option (Option Match)} (h : Sim safe tb.enter pos r a)
    (checkpoint : ℕ) (element : GrammarElement) :
    Sim False tb pos (Pegium.andThen r fun ctx => some (true, ctx.exit checkpoint element))
      (pmap (.node pos checkpoint element) a) := by
  cases h with
  | bot => exact .bot
  | fail ctx hg _ => exact .fail ctx hg.of_enter False.elim
  | ok m =>
    simp only [Pegium.andThen, @Match.exit_ctx tb pos m]
    exact .ok _

/-- Rebinding the first node of a call, if it made one. -/
theorem Sim.rebind {r : Outcome} {a : Option (Option Match)} (h : Sim safe tb pos r a)
    (element : GrammarElement) :
    Sim safe tb pos
      (Pegium.andThen r fun ctx =>
        some (true, if (pos.ctx tb).node_count < ctx.node_count then
          ctx.override_grammar_element (pos.ctx tb).node_count element else ctx))
      (pmap (.rebind element) a) := by
  cases h with
  | bot => exact .bot
  | fail ctx hg hr => exact .fail ctx hg hr
  | ok m =>
    have hctx : (if (pos.ctx tb).node_count < (m.ctx tb).node_count then
        (m.ctx tb).override_grammar_element (pos.ctx tb).node_count element else m.ctx tb)
        = (m.rebind element).ctx tb := by
      have hcount : (pos.ctx tb).node_count = tb.nodeCount := TreeBuilder.toCstBuilder_nodeCount tb
      have hcount' : (m.ctx tb).node_count = tb.nodeCount + m.forest.size := by
        simp [Match.ctx, ParseContext.node_count, Position.ctx]
      rw [hcount, hcount']
      split
      · simp only [Match.ctx, Match.rebind, ParseContext.override_grammar_element, Position.ctx,
          ← TreeBuilder.toCstBuilder_override, TreeBuilder.override_append]
      next h =>
        have hnil : m.forest = .nil := by rw [← Forest.size_eq_zero]; omega
        simp [Match.ctx, Match.rebind, hnil, Forest.modifyHead]
    simp only [Pegium.andThen, hctx]
    exact .ok _

/-! ### The operations of two interpretations -/

/-- `I` computes what `P` means. -/
structure Simulates (I : Interp) (P : PegInterp) : Prop where
  terminal : I.terminal = P.terminal
  parse : ∀ tracked sk e tb pos,
    Sim (e.isFailureSafe = true) tb pos (I.parse tracked sk e (pos.ctx tb))
      (P.parse tracked sk e pos)
  probe : ∀ tracked sk e tb pos,
    I.probe tracked sk e (pos.ctx tb) = (P.probe tracked sk e pos).map (·, pos.ctx tb)
  fastProbe : ∀ tracked sk e tb pos,
    I.fastProbe tracked sk e (pos.ctx tb) = (P.fastProbe tracked sk e pos).map (·, pos.ctx tb)
  probeMatchHere : ∀ sk e tb pos,
    I.probeMatchHere sk e (pos.ctx tb) = (P.probeMatchHere sk e pos).map (·, pos.ctx tb)

namespace Simulates

variable {I : Interp} {P : PegInterp} {tracked : Bool} {sk : Skipper}

theorem hiddenLeaves_eq (tb : TreeBuilder GrammarElement)
    (leaves : List (GrammarElement × ℕ × ℕ)) (f : Forest (CstLabel GrammarElement)) :
    ParseContext.hiddenLeaves (tb.append f).toCstBuilder leaves
      = (tb.append (f ++ leaves.foldr
          (fun l f => .tree ⟨l.2.1, l.2.2, l.1, true, false⟩ .nil ++ f) .nil)).toCstBuilder := by
  induction leaves generalizing f with
  | nil => simp [ParseContext.hiddenLeaves]
  | cons l leaves ih =>
    obtain ⟨ge, p, q⟩ := l
    rw [ParseContext.hiddenLeaves, ← TreeBuilder.toCstBuilder_leaf, TreeBuilder.leaf,
      TreeBuilder.append_append, ih, Forest.append_assoc]
    rfl

theorem skip (h : Simulates I P) :
    I.skip text sk (pos.ctx tb) = (P.skip text sk pos).map (·.ctx tb) := by
  rw [Interp.skip, ParseContext.skip, PegInterp.skip, h.terminal, Position.ctx_cursor]
  rcases hs : skipFrom text P.terminal sk pos.cursor with - | ⟨leaves, q⟩
  · rfl
  · have hb := hiddenLeaves_eq tb leaves .nil
    simp only [TreeBuilder.append_nil, Forest.nil_append] at hb
    simp [Match.ctx, Match.hidden, Position.ctx, hb]

theorem attempt (h : Simulates I P) (e : Expr) :
    Sim True tb pos (I.attempt_parse_strict tracked sk e (pos.ctx tb))
      (P.parse tracked sk e pos) := by
  have hp := h.parse tracked sk e tb pos
  rw [Interp.attempt_parse_strict]
  split
  next hsafe => exact hp.mono fun _ => hsafe
  next => exact hp.restore

/-! ### Groups and choices -/

/-- A call after a skip. -/
theorem skipThen (h : Simulates I P) {k : ParseContext → Outcome} {k' : Parse}
    (hk : ∀ s, P.skip text sk pos = some s →
      Sim False (tb.append s.forest) s.stop (k (s.ctx tb)) (k' s.stop)) :
    Sim False tb pos
      (match I.skip text sk (pos.ctx tb) with
        | none => none
        | some ctx => k ctx)
      (P.skipThen text sk k' pos) := by
  rw [h.skip, PegInterp.skipThen]
  rcases hs : P.skip text sk pos with - | s
  · exact .bot
  · have hk := hk s hs
    simp only [Option.map_some]
    generalize k (s.ctx tb) = c at hk ⊢
    generalize k' s.stop = n at hk ⊢
    cases hk with
    | bot => exact .bot
    | fail ctx hg _ => exact .fail ctx hg.of_append False.elim
    | ok m => rw [← Match.ctx_append]; exact .ok _

theorem elements (h : Simulates I P) (es : List Expr) :
    Sim False tb pos (I.parseElements text tracked sk es (pos.ctx tb))
      (P.elements text tracked sk es pos) := by
  induction es generalizing tb pos with
  | nil =>
    simpa [Interp.parseElements, PegInterp.elements] using @Sim.ok False tb pos (.nil pos)
  | cons e es ih =>
    rw [Interp.parseElements, PegInterp.elements]
    refine h.skipThen fun s _ => ?_
    exact (h.parse tracked sk e _ _).andThen (fun _ _ => ih) False.elim

theorem group (h : Simulates I P) (es : List Expr) :
    Sim False tb pos (I.parseGroup text tracked sk es (pos.ctx tb))
      (P.group text tracked sk es pos) := by
  cases es with
  | nil => simpa [Interp.parseGroup, PegInterp.group] using @Sim.ok False tb pos (.nil pos)
  | cons e es =>
    exact (h.parse tracked sk e _ _).andThen (fun _ _ => h.elements es) False.elim

theorem choice (h : Simulates I P) (es : List Expr) :
    Sim True tb pos (Interp.anyChoice (I.attempt_parse_strict tracked sk) es (pos.ctx tb))
      (P.choice tracked sk es pos) := by
  induction es with
  | nil => exact .fail _ .refl fun _ => rfl
  | cons e es ih => exact (h.attempt e).orElse ih

/-! ### Repetitions -/

/-- One iteration of a loop: skip and attempt an item, and go back to the
context of the iteration when there is none. -/
theorem iteration (h : Simulates I P) (e : Expr) (b : Bool) {k : ParseContext → Outcome}
    {k' : Parse}
    (hk : ∀ m : Match, Sim False (tb.append m.forest) m.stop (k (m.ctx tb)) (k' m.stop)) :
    Sim False tb pos
      (match I.skip text sk (pos.ctx tb) with
        | none => none
        | some ctx =>
          match I.attempt_parse_strict tracked sk e ctx with
          | none => none
          | some (false, ctx') => some (b, ctx'.rewind (pos.ctx tb).mark)
          | some (true, ctx') => k ctx')
      (match P.skipThen text sk (P.parse tracked sk e) pos with
        | none => none
        | some none => some (if b then some (.nil pos) else none)
        | some (some m) => pmap m.append (k' m.stop)) := by
  rw [h.skip, PegInterp.skipThen]
  rcases hs : P.skip text sk pos with - | s
  · exact .bot
  · have ha := @attempt (tb.append s.forest) s.stop I P tracked sk h e
    simp only [Option.map_some]
    rw [Match.ctx_eq]
    generalize I.attempt_parse_strict tracked sk e (s.stop.ctx (tb.append s.forest)) = c at ha ⊢
    generalize P.parse tracked sk e s.stop = n at ha ⊢
    cases ha with
    | bot => exact .bot
    | fail ctx hg _ =>
      cases b with
      | true =>
        simpa [pmap, hg.of_append.rewind] using @Sim.ok False tb pos (.nil pos)
      | false => exact .fail _ (by rw [hg.of_append.rewind]; exact .refl) False.elim
    | ok m =>
      have hk := hk (s.append m)
      simp only [pmap, Option.map_some]
      rw [← Match.ctx_append]
      generalize k ((s.append m).ctx tb) = c' at hk ⊢
      generalize k' (s.append m).stop = n' at hk ⊢
      cases hk with
      | bot => exact .bot
      | fail ctx hg _ => exact .fail ctx hg.of_append False.elim
      | ok m' => rw [← Match.ctx_append]; exact .ok _

theorem starLoop (h : Simulates I P) (e : Expr) (budget : ℕ) :
    Sim False tb pos (I.starLoop text tracked sk e budget (pos.ctx tb))
      (P.star text tracked sk e budget pos) := by
  induction budget generalizing tb pos with
  | zero => exact .bot
  | succ budget ih => exact h.iteration e true fun _ => ih

theorem upToLoop (h : Simulates I P) (e : Expr) (count : ℕ) :
    Sim False tb pos (I.upToLoop text tracked sk e count (pos.ctx tb))
      (P.upTo text tracked sk e count pos) := by
  induction count generalizing tb pos with
  | zero => simpa [Interp.upToLoop, PegInterp.upTo] using @Sim.ok False tb pos (.nil pos)
  | succ count ih => exact h.iteration e true fun _ => ih

theorem minLoop (h : Simulates I P) (e : Expr) (count : ℕ) :
    Sim False tb pos (I.minLoop text tracked sk e count (pos.ctx tb))
      (P.times text tracked sk e count pos) := by
  induction count generalizing tb pos with
  | zero => simpa [Interp.minLoop, PegInterp.times] using @Sim.ok False tb pos (.nil pos)
  | succ count ih =>
    exact h.iteration e false fun _ => ih

theorem fixedLoop (h : Simulates I P) (e : Expr) (count : ℕ) :
    Sim False tb pos (I.fixedLoop text tracked sk e count (pos.ctx tb))
      (P.times text tracked sk e count pos) := by
  induction count generalizing tb pos with
  | zero => simpa [Interp.fixedLoop, PegInterp.times] using @Sim.ok False tb pos (.nil pos)
  | succ count ih =>
    rw [Interp.fixedLoop, PegInterp.times, ← PegInterp.skipThen_pthen]
    refine h.skipThen fun s _ => ?_
    exact (h.parse tracked sk e _ _).andThen (fun _ _ => ih) False.elim

theorem more (h : Simulates I P) (min : ℕ) (max : Option ℕ) (e : Expr) :
    Sim False tb pos
      (match max with
        | none => I.starLoop text tracked sk e (text.length + 1) (pos.ctx tb)
        | some max => I.upToLoop text tracked sk e (max - Nat.max min 1) (pos.ctx tb))
      (P.more text tracked sk min max e pos) := by
  cases max with
  | none => exact h.starLoop e _
  | some max => exact h.upToLoop e _

/-- A first item and the optional ones after it. -/
theorem items (h : Simulates I P) (min : ℕ) (max : Option ℕ) (e : Expr) :
    Sim True tb pos
      (andThen (I.attempt_parse_strict tracked sk e (pos.ctx tb)) fun ctx =>
        match max with
        | none => I.starLoop text tracked sk e (text.length + 1) ctx
        | some max => I.upToLoop text tracked sk e (max - Nat.max min 1) ctx)
      (pthen (P.parse tracked sk e pos) (P.more text tracked sk min max e)) :=
  (h.attempt e).andThen (fun _ _ => h.more min max e)
    fun _ => ⟨trivial, P.more_ne_fail text tracked sk min max e⟩

/-- A first item, `count` mandatory ones, and the optional ones after them. -/
theorem manyItems (h : Simulates I P) (count min : ℕ) (max : Option ℕ) (e : Expr) :
    Sim False tb pos
      (andThen (I.attempt_parse_strict tracked sk e (pos.ctx tb)) fun ctx =>
        andThen (I.minLoop text tracked sk e count ctx) fun ctx =>
          match max with
          | none => I.starLoop text tracked sk e (text.length + 1) ctx
          | some max => I.upToLoop text tracked sk e (max - Nat.max min 1) ctx)
      (pthen (P.parse tracked sk e pos) fun pos =>
        pthen (P.times text tracked sk e count pos) (P.more text tracked sk min max e)) :=
  (h.attempt e).andThen
    (fun _ _ => (h.minLoop e count).andThen (fun _ _ => h.more min max e) False.elim)
    False.elim

/-- The six cases of a strict repetition have one meaning. -/
theorem repetition (h : Simulates I P) (min : ℕ) (max : Option ℕ) (e : Expr) :
    Sim ((Expr.repetition min max e).isFailureSafe = true) tb pos
      (I.parseRepetition text tracked sk min max e (pos.ctx tb))
      (P.repetition text tracked sk min max e pos) := by
  have hzero : P.repetition text tracked sk 0 max e pos
      = porElse (pthen (P.parse tracked sk e pos) (P.more text tracked sk 0 max e))
          (some (some (.nil pos))) := by
    simp only [PegInterp.repetition, if_true, Nat.zero_sub, PegInterp.times, pthen_nil]
  have hone : P.repetition text tracked sk 1 max e pos
      = pthen (P.parse tracked sk e pos) (P.more text tracked sk 1 max e) := by
    simp [PegInterp.repetition, PegInterp.times]
  match min, max with
  | 0, none => rw [hzero]; exact (h.items 0 none e).total.mono fun _ => trivial
  | 0, some 0 => rw [hzero]; exact (h.items 0 (some 0) e).total.mono fun _ => trivial
  | 0, some 1 =>
    have hmore : P.more text tracked sk 0 (some 1) e = fun pos => some (some (.nil pos)) := rfl
    rw [hzero, hmore, pthen_ret]
    exact (h.attempt e).total.mono fun _ => trivial
  | 0, some (max + 2) =>
    rw [hzero]
    exact (h.items 0 (some (max + 2)) e).total.mono fun _ => trivial
  | 1, none => rw [hone]; exact (h.items 1 none e).mono fun _ => trivial
  | 1, some max =>
    rw [hone]
    simp only [Interp.parseRepetition]
    split
    next hmax =>
      -- exactly one item: as failure-safe as the item
      subst hmax
      have hmore : P.more text tracked sk 1 (some 1) e = fun pos => some (some (.nil pos)) := rfl
      rw [hmore]
      refine (h.parse tracked sk e tb pos).andThen (fun m _ => ?_) fun hs => ⟨?_, by simp⟩
      · have hnil := @Sim.ok False (tb.append m.forest) m.stop (.nil m.stop)
        rwa [Match.ctx_nil] at hnil
      · simpa [Expr.isFailureSafe] using hs
    next hmax =>
      refine Sim.mono ?_ fun _ => trivial
      exact h.items 1 (some max) e
  | min + 2, none =>
    exact (h.manyItems (min + 1) (min + 2) none e).mono (by simp [Expr.isFailureSafe])
  | min + 2, some max =>
    suffices hsim : Sim False tb pos _ _ from hsim.mono (by simp [Expr.isFailureSafe])
    rw [show P.repetition text tracked sk (min + 2) (some max) e pos
      = pthen (P.parse tracked sk e pos) fun pos =>
          pthen (P.times text tracked sk e (min + 1) pos)
            (P.more text tracked sk (min + 2) (some max) e) from rfl]
    simp only [Interp.parseRepetition]
    split
    next hmax =>
      subst hmax
      have hmore : P.more text tracked sk (min + 2) (some (min + 2)) e
          = fun pos => some (some (.nil pos)) := by
        simp [PegInterp.more, PegInterp.upTo]
      simp only [hmore, pthen_ret]
      exact (h.parse tracked sk e tb pos).andThen (fun _ _ => h.fixedLoop e _) False.elim
    next hmax =>
      have hmin : Nat.max (min + 2) 1 = min + 2 := Nat.max_eq_left (by omega)
      have key := @manyItems text tb pos I P tracked sk h (min + 1) (min + 2) (some max) e
      rw [hmin] at key
      exact key

/-! ### Unordered groups -/

/-- What `try_match_one` leaves: on failure the context of the call. -/
theorem oneOf (h : Simulates I P) (es : List (Expr × Bool)) :
    I.tryMatchOne tracked sk es (pos.ctx tb)
      = (P.oneOf tracked sk es pos).map fun r =>
          match r with
          | none => (none, pos.ctx tb)
          | some (es', m) => (some es', m.ctx tb) := by
  induction es with
  | nil => rfl
  | cons e es ih =>
    obtain ⟨e, flag⟩ := e
    cases flag with
    | true =>
      rw [Interp.tryMatchOne, PegInterp.oneOf, ih]
      rcases P.oneOf tracked sk es pos with - | - | r <;> rfl
    | false =>
      rw [Interp.tryMatchOne, PegInterp.oneOf]
      have ha := @attempt tb pos I P tracked sk h e
      generalize I.attempt_parse_strict tracked sk e (pos.ctx tb) = c at ha ⊢
      generalize P.parse tracked sk e pos = n at ha ⊢
      cases ha with
      | bot => rfl
      | fail ctx _ hr =>
        simp only [hr trivial, ih]
        rcases P.oneOf tracked sk es pos with - | - | r <;> rfl
      | ok m => rfl

theorem othersOf (h : Simulates I P) (count : ℕ) (es : List (Expr × Bool)) :
    Sim False tb pos (I.groupLoop text tracked sk count es (pos.ctx tb))
      (P.othersOf text tracked sk count es pos) := by
  induction count generalizing tb pos es with
  | zero => simpa [Interp.groupLoop, PegInterp.othersOf] using @Sim.ok False tb pos (.nil pos)
  | succ count ih =>
    rw [Interp.groupLoop, PegInterp.othersOf, h.skip]
    rcases P.skip text sk pos with - | s
    · exact .bot
    · simp only [Option.map_some]
      rw [Match.ctx_eq, h.oneOf]
      rcases P.oneOf tracked sk es s.stop with - | - | ⟨es', m⟩
      · exact .bot
      · have hg : Grown tb (s.ctx tb) := s.grown
        exact .fail _ (by rw [← Match.ctx_eq, hg.rewind]; exact .refl) False.elim
      · have hk := @ih (tb.append (s.append m).forest) (s.append m).stop es'
        simp only [Option.map_some]
        rw [← Match.ctx_append, Match.ctx_eq (s.append m), show m.stop = (s.append m).stop from rfl]
        generalize I.groupLoop text tracked sk count es' _ = c at hk ⊢
        generalize P.othersOf text tracked sk count es' _ = n at hk ⊢
        cases hk with
        | bot => exact .bot
        | fail ctx hg _ => exact .fail ctx hg.of_append False.elim
        | ok m' => rw [← Match.ctx_append]; exact .ok _

theorem unorderedGroup (h : Simulates I P) (es : List Expr) :
    Sim True tb pos (I.parseUnorderedGroup text tracked sk es (pos.ctx tb))
      (P.unorderedGroup text tracked sk es pos) := by
  rw [Interp.parseUnorderedGroup]
  refine @Sim.restore False tb pos _ _ ?_
  rw [PegInterp.unorderedGroup, h.oneOf]
  rcases P.oneOf tracked sk (es.map (·, false)) pos with - | - | ⟨es', m⟩
  · exact .bot
  · exact .fail _ .refl False.elim
  · have hk := @othersOf text (tb.append m.forest) m.stop I P tracked sk h (es.length - 1) es'
    simp only [Option.map_some]
    rw [Match.ctx_eq m]
    generalize I.groupLoop text tracked sk (es.length - 1) es' _ = c at hk ⊢
    generalize P.othersOf text tracked sk (es.length - 1) es' _ = n at hk ⊢
    cases hk with
    | bot => exact .bot
    | fail ctx hg _ => exact .fail ctx hg.of_append False.elim
    | ok m' => rw [← Match.ctx_append]; exact .ok _

/-! ### Assignments and rules -/

theorem elementNode (h : Simulates I P) (element : GrammarElement) (e : Expr) :
    Sim ((!e.isOrderedChoice && e.isFailureSafe) = true) tb pos
      (I.parseElementNode tracked sk element e (pos.ctx tb))
      (P.elementNode tracked sk element e pos) := by
  rw [Interp.parseElementNode, PegInterp.elementNode]
  split
  next hchoice =>
    rw [Position.enter_ctx]
    exact ((h.parse tracked sk e tb.enter pos).node pos.cursor element).mono
      (by simp [hchoice])
  next hchoice =>
    refine ((h.parse tracked sk e tb pos).rebind element).mono fun hs => ?_
    simp only [Bool.and_eq_true] at hs
    exact hs.2

theorem rule (h : Simulates I P) (element : GrammarElement) (defn : RuleDef) :
    Sim False tb pos (I.parseRule Γ tracked sk element defn (pos.ctx tb))
      (P.rule Γ tracked sk element defn pos) := by
  rw [Interp.parseRule, PegInterp.rule, Position.enter_ctx]
  exact (h.parse tracked _ defn.body tb.enter pos).node pos.cursor element

/-! ### Infix rules -/

theorem operatorMayStart (h : Simulates I P) (minPrecedence : ℕ) (ops : List InfixOperator) :
    I.hasOperatorFastProbe tracked sk minPrecedence ops (pos.ctx tb)
      = (P.operatorMayStart tracked sk minPrecedence ops pos).map (·, pos.ctx tb) := by
  induction ops with
  | nil => rfl
  | cons op ops ih =>
    rw [Interp.hasOperatorFastProbe, PegInterp.operatorMayStart]
    split
    · rw [h.fastProbe]
      rcases P.fastProbe tracked sk op.element pos with - | - | -
      · rfl
      · exact ih
      · rfl
    · exact ih

theorem attemptOperator (h : Simulates I P) (rule index : ℕ) (op : InfixOperator) :
    Sim True tb pos (I.attemptOperator tracked sk rule index op (pos.ctx tb))
      (P.elementNode tracked sk (.infixOperator rule index) op.element pos) := by
  have hp := @elementNode tb pos I P tracked sk h (.infixOperator rule index) op.element
  rw [Interp.attemptOperator]
  split
  next hsafe => exact hp.mono fun _ => hsafe
  next => exact hp.restore

theorem operator (h : Simulates I P) (rule : ℕ) (operators : List InfixOperator)
    (minPrecedence index : ℕ) (ops : List InfixOperator) :
    I.tryMatchOperator text tracked sk rule operators minPrecedence index ops (pos.ctx tb)
      = (P.operator text tracked sk rule operators minPrecedence index ops pos).map fun r =>
          match r with
          | none => (none, pos.ctx tb)
          | some (next, m) => (some next, m.ctx tb) := by
  induction ops generalizing index with
  | nil => rfl
  | cons op ops ih =>
    rw [Interp.tryMatchOperator, PegInterp.operator]
    split
    · rfl
    · rw [h.fastProbe]
      rcases P.fastProbe tracked sk op.element pos with - | - | -
      · rfl
      · exact ih (index + 1)
      · have ha := @attemptOperator tb pos I P tracked sk h rule index op
        simp only [Option.map_some]
        generalize I.attemptOperator tracked sk rule index op (pos.ctx tb) = c at ha ⊢
        generalize P.elementNode tracked sk (.infixOperator rule index) op.element pos = n at ha ⊢
        cases ha with
        | bot => rfl
        | fail ctx _ hr =>
          simp only [hr trivial]
          exact ih (index + 1)
        | ok m =>
          simp only [show (m.ctx tb).cursor = m.stop.cursor from rfl, m.grown.rewind]
          split
          · exact ih (index + 1)
          · rfl

theorem tail (h : Simulates I P) (rule : ℕ) (defn : InfixDef) (budget minPrecedence lhsStart : ℕ) :
    I.parseTail text tracked sk rule defn budget minPrecedence lhsStart (pos.ctx tb)
      = (P.tail text tracked sk rule defn budget minPrecedence lhsStart pos).map (·.ctx tb) := by
  induction budget generalizing minPrecedence lhsStart tb pos with
  | zero => rfl
  | succ budget ih =>
    rw [Interp.parseTail, PegInterp.tail]
    split
    · simp
    · rw [h.operatorMayStart]
      rcases P.operatorMayStart tracked sk minPrecedence defn.operators pos with - | - | -
      · rfl
      · simp
      · simp only [Option.map_some, Position.enter_ctx, h.operator]
        rcases P.operator text tracked sk rule defn.operators minPrecedence 0 defn.operators pos
          with - | - | ⟨nextMin, o⟩
        · rfl
        · have hg : Grown tb (pos.ctx tb.enter) := Grown.of_enter .refl
          simp [hg.rewind]
        · -- the operator stands here: follow the source with what is in the open node so far
          simp only [Option.map_some, Match.ctx_eq o, h.skip]
          rcases P.skip text sk o.stop with - | s
          · rfl
          · have hrhs := h.parse tracked sk (.parserRule defn.primary)
              ((tb.enter.append o.forest).append s.forest) s.stop
            simp only [Option.map_some, Match.ctx_eq s]
            generalize I.parse tracked sk (.parserRule defn.primary) _ = c at hrhs ⊢
            generalize P.parse tracked sk (.parserRule defn.primary) s.stop = n at hrhs ⊢
            cases hrhs with
            | bot => rfl
            | fail ctx hg _ =>
              have hg : Grown tb ctx := hg.of_append.of_append.of_enter
              simp [hg.rewind]
            | ok rhs =>
              simp only [Match.ctx_eq rhs, h.skip]
              rcases P.skip text sk rhs.stop with - | s'
              · rfl
              · simp only [Option.map_some, Match.ctx_eq s', ih, Position.ctx_cursor]
                rcases P.tail text tracked sk rule defn budget nextMin s.stop.cursor s'.stop
                  with - | nested
                · rfl
                · have hnode := @Match.exit_ctx tb pos
                    (o.append (s.append (rhs.append (s'.append nested)))) lhsStart
                    (.infixRule rule)
                  simp only [Match.ctx_append] at hnode
                  simp only [Option.map_some, hnode, Match.ctx_eq (Match.node ..), ih,
                    Option.map_map]
                  congr 1
                  funext m
                  rw [Function.comp_apply, Match.ctx_append]

theorem infixRule (h : Simulates I P) (rule : ℕ) (defn : InfixDef) :
    Sim False tb pos (I.parseInfix text tracked sk rule defn (pos.ctx tb))
      (P.infixRule text tracked sk rule defn pos) := by
  rw [Interp.parseInfix, PegInterp.infixRule]
  refine (h.parse tracked sk (.parserRule defn.primary) tb pos).andThen (fun m _ => ?_)
    False.elim
  rw [Match.ctx_eq]
  refine h.skipThen fun s _ => ?_
  rw [Match.ctx_eq, h.tail, Position.ctx_cursor]
  rcases P.tail text tracked sk rule defn (text.length + 1) 0 pos.cursor s.stop with - | m'
  · exact .bot
  · exact .ok _

/-! ### Probes -/

theorem anyAnswer {f : Expr → ParseContext → Outcome} {g : Expr → Position → Option Bool}
    (hf : ∀ e, f e (pos.ctx tb) = (g e pos).map (·, pos.ctx tb)) (es : List Expr) :
    Interp.anyChoice f es (pos.ctx tb)
      = (PegInterp.anyAnswer g es pos).map (·, pos.ctx tb) := by
  induction es with
  | nil => rfl
  | cons e es ih =>
    rw [Interp.anyChoice, PegInterp.anyAnswer, hf]
    rcases g e pos with - | - | -
    · rfl
    · exact ih
    · rfl

theorem fastProbeElements (h : Simulates I P) (es : List Expr) :
    I.fastProbeElements Γ tracked sk es (pos.ctx tb)
      = (P.fastProbeElements Γ tracked sk es pos).map (·, pos.ctx tb) := by
  induction es with
  | nil => rfl
  | cons e es ih =>
    rw [Interp.fastProbeElements, PegInterp.fastProbeElements, h.fastProbe]
    rcases P.fastProbe tracked sk e pos with - | - | -
    · rfl
    · by_cases hn : e.nullable Γ
      · simp only [hn, if_true]; exact ih
      · simp [hn, orElse, aorElse]
    · rfl

theorem defaultProbe (h : Simulates I P) (e : Expr) :
    I.defaultProbe tracked sk e (pos.ctx tb)
      = (answered (P.parse tracked sk e pos)).map (·, pos.ctx tb) :=
  (h.parse tracked sk e tb pos).probe

/-! ### One unfolding -/

theorem parseStep (h : Simulates I P) (e : Expr) :
    Sim (e.isFailureSafe = true) tb pos (I.parseStep Γ text tracked sk e (pos.ctx tb))
      (P.parseStep Γ text tracked sk e pos) := by
  cases e with
  | literal id value case_sensitive => exact .leaf _ _
  | characterRange id lookup => exact .leaf _ _
  | anyCharacter id => exact .leaf _ _
  | group es => exact (h.group es).mono (by simp [Expr.isFailureSafe])
  | orderedChoice es => exact (h.choice es).mono fun _ => trivial
  | unorderedGroup es => exact (h.unorderedGroup es).mono fun _ => trivial
  | repetition min max e => exact h.repetition min max e
  | andPredicate e =>
    rw [Interp.parseStep, PegInterp.parseStep, h.probe]
    rcases P.probe false sk e pos with - | - | -
    · exact .bot
    · exact .fail _ .refl fun _ => rfl
    · simpa using @Sim.ok _ tb pos (.nil pos)
  | notPredicate e =>
    have hany : (if tracked then I.probeMatchHere sk e (pos.ctx tb)
        else I.probe false sk e (pos.ctx tb))
        = (if tracked then P.probeMatchHere sk e pos else P.probe false sk e pos).map
            (·, pos.ctx tb) := by
      split
      · exact h.probeMatchHere sk e tb pos
      · exact h.probe false sk e tb pos
    rw [Interp.parseStep, PegInterp.parseStep, hany]
    rcases (if tracked then P.probeMatchHere sk e pos else P.probe false sk e pos)
      with - | - | -
    · exact .bot
    · simpa using @Sim.ok _ tb pos (.nil pos)
    · exact .fail _ .refl fun _ => rfl
  | assignment id e => exact h.elementNode _ e
  | create id => exact .leaf _ (some _)
  | nest id => exact .leaf _ (some _)
  | terminalRule r =>
    rw [Interp.parseStep, PegInterp.parseStep, h.terminal, Position.ctx_cursor]
    rcases P.terminal (Γ.terminalRule r) pos.cursor with - | q
    · exact .bot
    · exact .leaf _ q
  | dataTypeRule r => exact (h.rule _ _).mono (by simp [Expr.isFailureSafe])
  | parserRule r => exact (h.rule _ _).mono (by simp [Expr.isFailureSafe])
  | infixRule r => exact (h.infixRule r _).mono (by simp [Expr.isFailureSafe])
  | skipperWrapped s base => exact h.parse tracked _ base tb pos

theorem probeStep (h : Simulates I P) (e : Expr) :
    I.probeStep Γ text tracked sk e (pos.ctx tb)
      = (P.probeStep Γ text tracked sk e pos).map (·, pos.ctx tb) := by
  cases e with
  | literal id value case_sensitive => rfl
  | characterRange id lookup => rfl
  | anyCharacter id => rfl
  | group es => exact h.fastProbeElements es
  | orderedChoice es => exact anyAnswer (fun e => h.probe tracked sk e tb pos) es
  | repetition min max e => exact h.fastProbe tracked sk e tb pos
  | andPredicate e => exact h.probe false sk e tb pos
  | notPredicate e =>
    rw [Interp.probeStep, PegInterp.probeStep, h.probe]
    rcases P.probe false sk e pos with - | b <;> rfl
  | create id => rfl
  | skipperWrapped s base =>
    rw [Interp.probeStep, PegInterp.probeStep]
    split
    · exact h.probe tracked sk base tb pos
    · exact h.defaultProbe _
  | unorderedGroup | assignment | nest | terminalRule | dataTypeRule | parserRule | infixRule =>
    exact h.defaultProbe _

theorem fastProbeStep (h : Simulates I P) (e : Expr) :
    I.fastProbeStep Γ tracked sk e (pos.ctx tb)
      = (P.fastProbeStep Γ tracked sk e pos).map (·, pos.ctx tb) := by
  cases e with
  | group es => exact h.fastProbeElements es
  | orderedChoice es => exact anyAnswer (fun e => h.fastProbe tracked sk e tb pos) es
  | repetition min max e => exact h.fastProbe tracked sk e tb pos
  | assignment id e => exact h.fastProbe tracked sk e tb pos
  | create id => rfl
  | parserRule r => exact h.fastProbe tracked _ _ tb pos
  | infixRule r =>
    rw [Interp.fastProbeStep, PegInterp.fastProbeStep]
    split
    · exact h.fastProbe tracked sk _ tb pos
    · exact h.probe tracked sk _ tb pos
  | skipperWrapped s base =>
    rw [Interp.fastProbeStep, PegInterp.fastProbeStep]
    split
    · exact h.fastProbe tracked sk _ tb pos
    · exact h.probe tracked sk _ tb pos
  | literal | characterRange | anyCharacter | unorderedGroup | andPredicate | notPredicate | nest
  | terminalRule | dataTypeRule => exact h.probe tracked sk _ tb pos

theorem probeMatchHereStep (h : Simulates I P) (e : Expr) :
    I.probeMatchHereStep Γ text sk e (pos.ctx tb)
      = (P.probeMatchHereStep Γ text sk e pos).map (·, pos.ctx tb) := by
  cases e with
  | literal id value case_sensitive => rfl
  | orderedChoice es => exact anyAnswer (fun e => h.probeMatchHere sk e tb pos) es
  | terminalRule r => exact h.probeMatchHere sk _ tb pos
  | dataTypeRule r => exact h.probeMatchHere sk _ tb pos
  | parserRule r => exact h.probeMatchHere sk _ tb pos
  | skipperWrapped s base =>
    rw [Interp.probeMatchHereStep, PegInterp.probeMatchHereStep]
    split
    · exact h.probeMatchHere sk _ tb pos
    · exact h.probe true sk _ tb pos
  | characterRange | anyCharacter | group | unorderedGroup | repetition | andPredicate
  | notPredicate | assignment | create | nest | infixRule => exact h.probe true sk _ tb pos

theorem step (h : Simulates I P) : Simulates (I.step Γ text) (P.step Γ text) where
  terminal := by
    change terminalStep Γ text I.terminal = terminalStep Γ text P.terminal
    rw [h.terminal]
  parse _ _ e _ _ := h.parseStep e
  probe _ _ e _ _ := h.probeStep e
  fastProbe _ _ e _ _ := h.fastProbeStep e
  probeMatchHere _ e _ _ := h.probeMatchHereStep e

theorem bot : Simulates .bot .bot where
  terminal := rfl
  parse _ _ _ _ _ := .bot
  probe _ _ _ _ _ := rfl
  fastProbe _ _ _ _ _ := rfl
  probeMatchHere _ _ _ _ := rfl

end Simulates

/-- **The code computes the meaning**, at every depth of calls. -/
theorem simulates_interp (Γ : Grammar) (text : List UInt8) (n : ℕ) :
    Simulates (interp Γ text n) (peg Γ text n) := by
  induction n with
  | zero => exact .bot
  | succ n ih => exact ih.step

end Pegium
