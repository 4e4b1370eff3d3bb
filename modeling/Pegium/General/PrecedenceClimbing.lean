/-
Pegium/General/PrecedenceClimbing.lean

Precedence climbing.

A table gives every binary operator a level and every level an associativity.
`Derives T p` is the reference grammar, one nonterminal for each level:

    E p  ::=  E p op (E (p+1))  |  E (p+1)        (p left-associative)
    E p  ::=  E (p+1) op (E p)  |  E (p+1)        (p right-associative)

`Climb` is the algorithm, over any source of tokens: a loop that extends its left
operand as long as an operator of at least the given level follows, and reads the
right operand by calling itself one level up (or not, for a right-associative
operator).

The algorithm builds derivable trees (`Climb.derives`) that spell what it has
read (`Climb.reads`), it stops only where nothing more can follow
(`Climb.stopped`), and it rebuilds every derivable tree from its tokens
(`InfixTree.Shape.climb`), so that the grammar is unambiguous
(`Derives.unique`).
-/
import Mathlib.Data.List.Basic
import Mathlib.Order.Basic

universe u v w

/-- A tree of binary operators `ω` over operands `α`. -/
inductive InfixTree (ω : Type u) (α : Type v) where
  | operand (a : α)
  | node (left : InfixTree ω α) (op : ω) (right : InfixTree ω α)
  deriving DecidableEq

/-- The level of each operator, higher binding tighter, and the associativity of
each level. -/
structure OperatorTable (ω : Type u) where
  level : ω → ℕ
  rightAssociative : ℕ → Bool

variable {ω : Type u} {α : Type v} {σ : Type w}

namespace OperatorTable

variable (T : OperatorTable ω)

/-- The lowest level of a left operand of `op`. -/
def leftMin (op : ω) : ℕ :=
  if T.rightAssociative (T.level op) then T.level op + 1 else T.level op

/-- The lowest level of a right operand of `op`. -/
def rightMin (op : ω) : ℕ :=
  if T.rightAssociative (T.level op) then T.level op else T.level op + 1

/-- The reference grammar. -/
inductive Derives : ℕ → InfixTree ω α → Prop
  | operand (p : ℕ) (a : α) : Derives p (.operand a)
  | tighter {p : ℕ} {t : InfixTree ω α} (h : Derives (p + 1) t) : Derives p t
  | left {p : ℕ} {l r : InfixTree ω α} {op : ω} (hop : T.level op = p)
      (hp : T.rightAssociative p = false) (hl : Derives p l) (hr : Derives (p + 1) r) :
      Derives p (.node l op r)
  | right {p : ℕ} {l r : InfixTree ω α} {op : ω} (hop : T.level op = p)
      (hp : T.rightAssociative p = true) (hl : Derives (p + 1) l) (hr : Derives p r) :
      Derives p (.node l op r)

variable {T}

theorem level_le_leftMin (op : ω) : T.level op ≤ T.leftMin op := by
  rw [leftMin]
  split <;> omega

theorem level_le_rightMin (op : ω) : T.level op ≤ T.rightMin op := by
  rw [rightMin]
  split <;> omega

/-- An operator that may not stand in the right operand of `op` takes the whole
of `op` as its left operand. -/
theorem leftMin_le_of_lt_rightMin {op op' : ω} (h : T.level op' < T.rightMin op) :
    T.leftMin op' ≤ T.level op := by
  rw [rightMin] at h
  rw [leftMin]
  rcases Nat.lt_or_ge (T.level op') (T.level op) with hlt | hge
  · split <;> omega
  · split at h
    · omega
    next hleft =>
      -- both operators are of one level, which is left-associative
      have heq : T.level op' = T.level op := by omega
      exact Nat.le_of_eq (by rw [heq, if_neg hleft])

/-- The converse. -/
theorem lt_rightMin_of_leftMin_le {op op' : ω} (h : T.leftMin op' ≤ T.level op) :
    T.level op' < T.rightMin op := by
  rw [leftMin] at h
  rw [rightMin]
  rcases Nat.lt_or_ge (T.level op') (T.level op) with hlt | hge
  · split <;> omega
  · split at h
    · omega
    next hleft =>
      have heq : T.level op' = T.level op := by omega
      rw [heq] at hleft
      rw [if_neg hleft, heq]
      omega

end OperatorTable

namespace InfixTree

/-- The operators and operands from left to right. -/
def inorder : InfixTree ω α → List (ω ⊕ α)
  | operand a => [.inr a]
  | node l op r => l.inorder ++ .inl op :: r.inorder

variable (T : OperatorTable ω)

/-- Every operator of the tree stands where its level and its neighbours allow
it. -/
def Shape : ℕ → InfixTree ω α → Prop
  | _, operand _ => True
  | p, node l op r => p ≤ T.level op ∧ l.Shape (T.leftMin op) ∧ r.Shape (T.rightMin op)

/-- No node on the right edge would take `op'` into its right operand. -/
def Refuses (op' : ω) : InfixTree ω α → Prop
  | operand _ => True
  | node _ op r => T.level op' < T.rightMin op ∧ r.Refuses op'

variable {T}

theorem Shape.mono {p q : ℕ} {t : InfixTree ω α} (h : t.Shape T q) (hpq : p ≤ q) :
    t.Shape T p := by
  cases t with
  | operand a => trivial
  | node l op r => exact ⟨Nat.le_trans hpq h.1, h.2⟩

theorem Shape.refuses_of_lt {p : ℕ} {t : InfixTree ω α} {op' : ω} (h : t.Shape T p)
    (hp : T.level op' < p) : t.Refuses T op' := by
  induction t generalizing p with
  | operand a => trivial
  | node l op r _ ih =>
    have hop := Nat.lt_of_lt_of_le hp h.1
    have hlt : T.level op' < T.rightMin op :=
      Nat.lt_of_lt_of_le hop (OperatorTable.level_le_rightMin op)
    exact ⟨hlt, ih h.2.2 hlt⟩

/-- A left operand of `op'` is complete where `op'` stands. -/
theorem Shape.refuses {t : InfixTree ω α} {op' : ω} (h : t.Shape T (T.leftMin op')) :
    t.Refuses T op' := by
  cases t with
  | operand a => trivial
  | node l op r =>
    have hlt := OperatorTable.lt_rightMin_of_leftMin_le h.1
    exact ⟨hlt, h.2.2.refuses_of_lt hlt⟩

end InfixTree

/-! ### The grammar and the shape -/

namespace OperatorTable.Derives

variable {T : OperatorTable ω} {p q : ℕ} {t : InfixTree ω α}

/-- What a tighter level derives, a looser one does. -/
theorem loosen (h : T.Derives q t) (hpq : p ≤ q) : T.Derives p t := by
  obtain ⟨k, rfl⟩ := Nat.exists_eq_add_of_le hpq
  induction k with
  | zero => exact h
  | succ k ih => exact ih (tighter h) (Nat.le_add_right p k)

theorem shape (h : T.Derives p t) : t.Shape T p := by
  induction h with
  | operand p a => trivial
  | tighter _ ih => exact ih.mono (Nat.le_succ _)
  | left hop hp _ _ ihl ihr =>
    subst hop
    refine ⟨Nat.le_refl _, ?_, ?_⟩
    · rw [leftMin, hp]
      exact ihl
    · rw [rightMin, hp]
      exact ihr
  | right hop hp _ _ ihl ihr =>
    subst hop
    refine ⟨Nat.le_refl _, ?_, ?_⟩
    · rw [leftMin, hp]
      exact ihl
    · rw [rightMin, hp]
      exact ihr

end OperatorTable.Derives

/-- **The grammar derives exactly the trees of the right shape.** -/
theorem OperatorTable.derives_iff_shape {T : OperatorTable ω} {p : ℕ} {t : InfixTree ω α} :
    T.Derives p t ↔ t.Shape T p := by
  refine ⟨Derives.shape, fun h => ?_⟩
  induction t generalizing p with
  | operand a => exact .operand p a
  | node l op r ihl ihr =>
    obtain ⟨hp, hl, hr⟩ := h
    apply Derives.loosen _ hp
    -- the node is derived at the level of its operator, by the rule for that level
    rcases hassoc : T.rightAssociative (T.level op) with - | -
    · rw [leftMin, hassoc] at hl
      rw [rightMin, hassoc] at hr
      exact .left rfl hassoc (ihl hl) (ihr hr)
    · rw [leftMin, hassoc] at hl
      rw [rightMin, hassoc] at hr
      exact .right rfl hassoc (ihl hl) (ihr hr)

/-! ### The algorithm -/

/-- `Climb T Next p lhs s t s'`: extending `lhs` by the operators of level at least
`p` that follow at `s` gives `t` and stops at `s'`.  `Next s op a s'` says that an
operator and an operand can be read at `s`, up to `s'`. -/
inductive Climb (T : OperatorTable ω) (Next : σ → ω → α → σ → Prop) :
    ℕ → InfixTree ω α → σ → InfixTree ω α → σ → Prop
  | stop {p : ℕ} {lhs : InfixTree ω α} {s : σ}
      (blocked : ∀ op a s', Next s op a s' → T.level op < p) : Climb T Next p lhs s lhs s
  | step {p : ℕ} {lhs rhs t : InfixTree ω α} {s s₁ s₂ s₃ : σ} {op : ω} {a : α}
      (next : Next s op a s₁) (level : p ≤ T.level op)
      (right : Climb T Next (T.rightMin op) (.operand a) s₁ rhs s₂)
      (loop : Climb T Next p (.node lhs op rhs) s₂ t s₃) : Climb T Next p lhs s t s₃

/-- At most one operator and operand can be read at a place. -/
def ReadsOneWay (Next : σ → ω → α → σ → Prop) : Prop :=
  ∀ ⦃s op a s' op' a' s''⦄, Next s op a s' → Next s op' a' s'' → op = op' ∧ a = a' ∧ s' = s''

/-- `Reads Next s toks s'`: operators and operands read one after the other. -/
inductive Reads (Next : σ → ω → α → σ → Prop) : σ → List (ω ⊕ α) → σ → Prop
  | nil (s : σ) : Reads Next s [] s
  | cons {s s₁ s₂ : σ} {op : ω} {a : α} {toks : List (ω ⊕ α)} (next : Next s op a s₁)
      (rest : Reads Next s₁ toks s₂) : Reads Next s (.inl op :: .inr a :: toks) s₂

theorem Reads.append {Next : σ → ω → α → σ → Prop} {s s₁ s₂ : σ} {toks toks' : List (ω ⊕ α)}
    (h : Reads Next s toks s₁) (h' : Reads Next s₁ toks' s₂) :
    Reads Next s (toks ++ toks') s₂ := by
  induction h with
  | nil s => exact h'
  | cons next _ ih => exact .cons next (ih h')

theorem Reads.mono {Next Next' : σ → ω → α → σ → Prop} {s s' : σ} {toks : List (ω ⊕ α)}
    (h : Reads Next s toks s') (hn : ∀ s op a s', Next s op a s' → Next' s op a s') :
    Reads Next' s toks s' := by
  induction h with
  | nil s => exact .nil s
  | cons next _ ih => exact .cons (hn _ _ _ _ next) ih

/-- What is read up to a place where nothing follows is all that can be read. -/
theorem Reads.longest {Next : σ → ω → α → σ → Prop} (hdet : ReadsOneWay Next) {s s' s'' : σ}
    {toks toks' : List (ω ⊕ α)} (h : Reads Next s toks s')
    (hstop : ∀ op a s'', ¬ Next s' op a s'') (h' : Reads Next s toks' s'') : toks' <+: toks := by
  induction h' generalizing toks with
  | nil s => exact List.nil_prefix
  | cons next' _ ih =>
    cases h with
    | nil _ => exact absurd next' (hstop _ _ _)
    | cons next rest =>
      obtain ⟨rfl, rfl, rfl⟩ := hdet next next'
      obtain ⟨more, hmore⟩ := ih rest
      exact ⟨more, by rw [← hmore]; rfl⟩

namespace Climb

variable {T : OperatorTable ω} {Next : σ → ω → α → σ → Prop}
variable {p : ℕ} {lhs t : InfixTree ω α} {s s' : σ}

/-- **The algorithm is greedy**: where it stops, no operator of its levels
follows. -/
theorem stopped (h : Climb T Next p lhs s t s') (op : ω) (a : α) (s'' : σ)
    (hn : Next s' op a s'') : T.level op < p := by
  induction h with
  | stop blocked => exact blocked op a s'' hn
  | step _ _ _ _ _ ih => exact ih hn

/-- **The tree spells what was read.** -/
theorem reads (h : Climb T Next p lhs s t s') :
    ∃ toks, Reads Next s toks s' ∧ t.inorder = lhs.inorder ++ toks := by
  induction h with
  | stop _ => exact ⟨[], .nil _, (List.append_nil _).symm⟩
  | @step p lhs rhs t s s₁ s₂ s₃ op a next _ _ _ ihr ihl =>
    obtain ⟨toksR, hreadR, hR⟩ := ihr
    obtain ⟨toks, hread, ht⟩ := ihl
    refine ⟨.inl op :: .inr a :: (toksR ++ toks), .cons next (hreadR.append hread), ?_⟩
    rw [ht, InfixTree.inorder, hR]
    simp [InfixTree.inorder]

/-- The shape of the left operand is carried through the loop: the operator that
follows may take the whole of it. -/
theorem shape (h : Climb T Next p lhs s t s') (hlhs : lhs.Shape T p)
    (hnext : ∀ op a s'', Next s op a s'' → p ≤ T.level op → lhs.Shape T (T.leftMin op)) :
    t.Shape T p := by
  induction h with
  | stop _ => exact hlhs
  | @step p lhs rhs t s s₁ s₂ s₃ op a next level right _ ihr ihl =>
    have hrhs : rhs.Shape T (T.rightMin op) := ihr trivial fun _ _ _ _ _ => trivial
    have hnode : lhs.Shape T (T.leftMin op) := hnext op a s₁ next level
    apply ihl ⟨level, hnode, hrhs⟩
    -- the right operand stopped before `op'`, so `op'` takes the whole node
    intro op' a' s'' hn _
    have hlt := right.stopped op' a' s'' hn
    exact ⟨OperatorTable.leftMin_le_of_lt_rightMin hlt, hnode, hrhs⟩

/-- **The algorithm builds trees of the grammar.** -/
theorem derives {a : α} (h : Climb T Next p (.operand a) s t s') : T.Derives p t :=
  OperatorTable.derives_iff_shape.mpr (h.shape trivial fun _ _ _ _ _ => trivial)

/-- The result depends on the tokens alone. -/
theorem det (hdet : ReadsOneWay Next) {t' : InfixTree ω α} {s'' : σ} (h : Climb T Next p lhs s t s')
    (h' : Climb T Next p lhs s t' s'') : t = t' ∧ s' = s'' := by
  induction h generalizing t' s'' with
  | stop blocked =>
    cases h' with
    | stop _ => exact ⟨rfl, rfl⟩
    | step next level _ _ => exact absurd (blocked _ _ _ next) (Nat.not_lt.mpr level)
  | step next level _ _ ihr ihl =>
    cases h' with
    | stop blocked => exact absurd (blocked _ _ _ next) (Nat.not_lt.mpr level)
    | step next' _ right' loop' =>
      obtain ⟨rfl, rfl, rfl⟩ := hdet next next'
      obtain ⟨rfl, rfl⟩ := ihr right'
      exact ihl loop'

end Climb

/-! ### Unambiguity -/

/-- Reading from a list of tokens. -/
inductive NextToken : List (ω ⊕ α) → ω → α → List (ω ⊕ α) → Prop
  | intro (op : ω) (a : α) (toks : List (ω ⊕ α)) :
      NextToken (.inl op :: .inr a :: toks) op a toks

theorem NextToken.readsOneWay : ReadsOneWay (NextToken : List (ω ⊕ α) → ω → α → _ → Prop) := by
  rintro _ op a toks _ _ _ ⟨⟩ ⟨⟩
  exact ⟨rfl, rfl, rfl⟩

namespace InfixTree

/-- The first operand. -/
def first : InfixTree ω α → α
  | operand a => a
  | node l _ _ => l.first

/-- The tokens after the first operand. -/
def others : InfixTree ω α → List (ω ⊕ α)
  | operand _ => []
  | node l op r => l.others ++ .inl op :: .inr r.first :: r.others

theorem inorder_eq (t : InfixTree ω α) : t.inorder = .inr t.first :: t.others := by
  induction t with
  | operand a => rfl
  | node l op r ihl ihr => rw [inorder, ihl, ihr]; rfl

variable {T : OperatorTable ω} {t : InfixTree ω α}

/-- Reading back the tokens of a tree brings the loop to that tree.  What follows
the tree must be refused by its right edge. -/
theorem Shape.climb {p : ℕ} {rest s' : List (ω ⊕ α)} {u : InfixTree ω α} (h : t.Shape T p)
    (hrest : ∀ op a s'', NextToken rest op a s'' → t.Refuses T op)
    (hu : Climb T NextToken p t rest u s') :
    Climb T NextToken p (.operand t.first) (t.others ++ rest) u s' := by
  induction t generalizing p rest u s' with
  | operand a => exact hu
  | node l op r ihl ihr =>
    obtain ⟨hp, hl, hr⟩ := h
    -- the right operand is read completely, since its right edge refuses `rest`
    have hright : Climb T NextToken (T.rightMin op) (.operand r.first)
      (r.others ++ rest) r rest := by
      apply ihr hr
      · intro op' a s'' hn
        exact (hrest op' a s'' hn).2
      · apply Climb.stop
        intro op' a s'' hn
        exact (hrest op' a s'' hn).1
    have hlp : l.Shape T p := hl.mono (Nat.le_trans hp (OperatorTable.level_le_leftMin op))
    have hloop : Climb T NextToken p (.operand l.first)
        (l.others ++ (.inl op :: .inr r.first :: (r.others ++ rest))) u s' := by
      apply ihl hlp
      · rintro op' a s'' ⟨⟩
        exact hl.refuses
      · exact .step (.intro op r.first _) hp hright hu
    simpa [others, first] using hloop

end InfixTree

/-- **The reference grammar is unambiguous**: a token sequence has at most one
tree. -/
theorem OperatorTable.Derives.unique {T : OperatorTable ω} {p : ℕ} {t t' : InfixTree ω α}
    (h : T.Derives p t) (h' : T.Derives p t') (ht : t.inorder = t'.inorder) : t = t' := by
  have climbs : ∀ {u : InfixTree ω α}, T.Derives p u →
      Climb T NextToken p (.operand u.first) (u.others ++ []) u [] := by
    intro u hu
    refine hu.shape.climb (fun _ _ _ hn => ?_) (.stop fun _ _ _ hn => ?_)
    · cases hn
    · cases hn
  rw [InfixTree.inorder_eq, InfixTree.inorder_eq, List.cons.injEq, Sum.inr.injEq] at ht
  have hc := climbs h
  rw [ht.1, ht.2] at hc
  exact (hc.det NextToken.readsOneWay (climbs h')).1
