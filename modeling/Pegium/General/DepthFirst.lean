/-
Pegium/General/DepthFirst.lean

Depth-first visits that carry a state.

A visit enters a node unless it was seen, changes the state by what the node does,
and goes over the node's successors.  The recursion is bounded by a fuel, and the
nodes of a finite set that were not seen bound the depth: with as much fuel a visit
enters exactly what it can reach, each node once.
-/
import Mathlib.Data.Finset.Card
import Mathlib.Logic.Relation

namespace DepthFirst

variable {κ σ : Type*} (succ : κ → List κ) (enter : κ → σ → σ)

/-- The visit of a node, on the nodes seen (latest first) and the state. -/
def visit [DecidableEq κ] : ℕ → κ → List κ × σ → List κ × σ
  | 0, _, s => s
  | fuel + 1, k, s =>
    if k ∈ s.1 then s
    else (succ k).foldl (fun s next => visit fuel next s) (k :: s.1, enter k s.2)

/-- The visits of some nodes, one after the other. -/
def visitAll [DecidableEq κ] (fuel : ℕ) (starts : List κ) (s : List κ × σ) : List κ × σ :=
  starts.foldl (fun s k => visit succ enter fuel k s) s

/-- The nodes a visit of `starts` entered, when `seen` had been seen. -/
structure Entered (starts seen order : List κ) : Prop where
  reached : ∀ x ∈ order, ∃ k ∈ starts, Relation.ReflTransGen (fun a b => b ∈ succ a) k x
  start : ∀ k ∈ starts, k ∈ order ∨ k ∈ seen
  closed : ∀ x ∈ order, ∀ y ∈ succ x, y ∈ order ∨ y ∈ seen

/-- The states that come after one another by entering `order`. -/
def Leads (starts : List κ) (s s' : List κ × σ) : Prop :=
  ∃ order, s'.1 = order.reverse ++ s.1 ∧ s'.2 = order.foldl (fun state k => enter k state) s.2
    ∧ Entered succ starts s.1 order

variable {succ enter}
variable {starts rest seen : List κ} {k : κ} {s s' s'' : List κ × σ}

theorem leads_nil : Leads succ enter [] s s :=
  ⟨[], rfl, rfl, ⟨nofun, nofun, nofun⟩⟩

theorem Leads.subset (h : Leads succ enter starts s s') : s.1 ⊆ s'.1 := by
  obtain ⟨order, hseen, -, -⟩ := h
  rw [hseen]
  exact List.subset_append_right _ _

/-- One node after the other. -/
theorem Leads.append (h : Leads succ enter starts s s') (h' : Leads succ enter rest s' s'') :
    Leads succ enter (starts ++ rest) s s'' := by
  obtain ⟨order, hseen, hstate, hentered⟩ := h
  obtain ⟨order', hseen', hstate', hentered'⟩ := h'
  -- what the second part saw was seen before or is of the first part
  have hold : ∀ y, y ∈ order' ∨ y ∈ s'.1 → y ∈ order ++ order' ∨ y ∈ s.1 := by
    rintro y (hy | hy)
    · exact .inl (List.mem_append_right _ hy)
    · rw [hseen, List.mem_append, List.mem_reverse] at hy
      exact hy.imp_left (List.mem_append_left _)
  refine ⟨order ++ order', ?_, ?_, ?_, ?_, ?_⟩
  · rw [hseen', hseen, List.reverse_append, List.append_assoc]
  · rw [hstate', hstate, List.foldl_append]
  · intro x hx
    rcases List.mem_append.mp hx with hx | hx
    · obtain ⟨k, hk, hpath⟩ := hentered.reached x hx
      exact ⟨k, List.mem_append_left _ hk, hpath⟩
    · obtain ⟨k, hk, hpath⟩ := hentered'.reached x hx
      exact ⟨k, List.mem_append_right _ hk, hpath⟩
  · intro k hk
    rcases List.mem_append.mp hk with hk | hk
    · exact (hentered.start k hk).imp_left (List.mem_append_left _)
    · exact hold k (hentered'.start k hk)
  · intro x hx y hy
    rcases List.mem_append.mp hx with hx | hx
    · exact (hentered.closed x hx y hy).imp_left (List.mem_append_left _)
    · exact hold y (hentered'.closed x hx y hy)

/-- A node is entered before its successors. -/
theorem leads_enter (h : Leads succ enter (succ k) (k :: s.1, enter k s.2) s') :
    Leads succ enter [k] s s' := by
  obtain ⟨order, hseen, hstate, hentered⟩ := h
  have hold : ∀ y, y ∈ order ∨ y ∈ k :: s.1 → y ∈ k :: order ∨ y ∈ s.1 := by
    rintro y (hy | hy)
    · exact .inl (List.mem_cons_of_mem _ hy)
    · rcases List.mem_cons.mp hy with rfl | hy
      · exact .inl List.mem_cons_self
      · exact .inr hy
  refine ⟨k :: order, ?_, ?_, ?_, ?_, ?_⟩
  · rw [hseen, List.reverse_cons, List.append_assoc, List.singleton_append]
  · rw [hstate, List.foldl_cons]
  · intro x hx
    refine ⟨k, List.mem_singleton_self k, ?_⟩
    rcases List.mem_cons.mp hx with rfl | hx
    · exact .refl
    · obtain ⟨next, hnext, hpath⟩ := hentered.reached x hx
      exact .head hnext hpath
  · intro x hx
    rw [List.mem_singleton.mp hx]
    exact .inl List.mem_cons_self
  · intro x hx y hy
    rcases List.mem_cons.mp hx with rfl | hx
    · exact hold y (hentered.start y hy)
    · exact hold y (hentered.closed x hx y hy)

/-! ### Enough fuel -/

variable [DecidableEq κ]

/-- A visit with enough fuel for the nodes of `nodes` that were not seen. -/
def Suffices (succ : κ → List κ) (enter : κ → σ → σ) (nodes : Finset κ) (fuel : ℕ) : Prop :=
  ∀ k ∈ nodes, ∀ s : List κ × σ, (nodes \ s.1.toFinset).card ≤ fuel →
    Leads succ enter [k] s (visit succ enter fuel k s)

variable {nodes : Finset κ} {fuel : ℕ}

theorem Suffices.visitAll (h : Suffices succ enter nodes fuel)
    (hstarts : ∀ k ∈ starts, k ∈ nodes) (hfuel : (nodes \ s.1.toFinset).card ≤ fuel) :
    Leads succ enter starts s (visitAll succ enter fuel starts s) := by
  induction starts generalizing s with
  | nil => exact leads_nil
  | cons k starts ih =>
    obtain ⟨hk, hstarts⟩ := List.forall_mem_cons.mp hstarts
    have hfirst := h k hk s hfuel
    -- more was seen, so less is left
    have hless : (nodes \ (visit succ enter fuel k s).1.toFinset).card ≤ fuel := by
      refine (Finset.card_le_card (Finset.sdiff_subset_sdiff (Finset.Subset.refl _) ?_)).trans hfuel
      exact fun x hx => List.mem_toFinset.mpr (hfirst.subset (List.mem_toFinset.mp hx))
    exact hfirst.append (ih hstarts hless)

theorem suffices_fuel (hclosed : ∀ k ∈ nodes, ∀ next ∈ succ k, next ∈ nodes) (fuel : ℕ) :
    Suffices succ enter nodes fuel := by
  induction fuel with
  | zero =>
    intro k hk s hfuel
    -- nothing is left, so the node was seen
    have hseen : k ∈ s.1 := by
      have hnone := Finset.card_eq_zero.mp (Nat.le_zero.mp hfuel)
      rw [Finset.sdiff_eq_empty_iff_subset] at hnone
      exact List.mem_toFinset.mp (hnone hk)
    refine ⟨[], rfl, rfl, nofun, fun x hx => ?_, nofun⟩
    rw [List.mem_singleton.mp hx]
    exact .inr hseen
  | succ fuel ih =>
    intro k hk s hfuel
    rw [visit]
    split
    next hseen =>
      refine ⟨[], rfl, rfl, nofun, fun x hx => ?_, nofun⟩
      rw [List.mem_singleton.mp hx]
      exact .inr hseen
    next hfresh =>
      refine leads_enter (ih.visitAll (hclosed k hk) ?_)
      -- the node itself is one less
      have hlt : (nodes \ (k :: s.1).toFinset).card < (nodes \ s.1.toFinset).card := by
        apply Finset.card_lt_card
        rw [List.toFinset_cons]
        refine ⟨Finset.sdiff_subset_sdiff (Finset.Subset.refl _) (Finset.subset_insert _ _),
          fun hsub => ?_⟩
        have hmem : k ∈ nodes \ s.1.toFinset :=
          Finset.mem_sdiff.mpr ⟨hk, fun h => hfresh (List.mem_toFinset.mp h)⟩
        exact (Finset.mem_sdiff.mp (hsub hmem)).2 (Finset.mem_insert_self _ _)
      exact Nat.lt_succ_iff.mp (hlt.trans_le hfuel)

/-- **A depth-first visit enters exactly what it can reach.** -/
theorem visitAll_enters (hclosed : ∀ k ∈ nodes, ∀ next ∈ succ k, next ∈ nodes)
    (hstarts : ∀ k ∈ starts, k ∈ nodes) (hfuel : nodes.card ≤ fuel) (state : σ) :
    ∃ order : List κ,
      (visitAll succ enter fuel starts ([], state)).2
          = order.foldl (fun state k => enter k state) state ∧
        ∀ x, x ∈ order ↔ ∃ k ∈ starts, Relation.ReflTransGen (fun a b => b ∈ succ a) k x := by
  have hleads : Leads succ enter starts ([], state)
      (visitAll succ enter fuel starts ([], state)) :=
    (suffices_fuel hclosed fuel).visitAll hstarts
      ((Finset.card_le_card Finset.sdiff_subset).trans hfuel)
  obtain ⟨order, -, hstate, hentered⟩ := hleads
  refine ⟨order, hstate, fun x => ⟨hentered.reached x, ?_⟩⟩
  rintro ⟨k, hk, hpath⟩
  induction hpath with
  | refl => exact (hentered.start k hk).resolve_right List.not_mem_nil
  | tail _ hnext ih => exact (hentered.closed _ ih _ hnext).resolve_right List.not_mem_nil

end DepthFirst
