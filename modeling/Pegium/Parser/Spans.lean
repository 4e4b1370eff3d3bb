/-
Pegium/Parser/Spans.lean

The spans of the CST.

The begin of an inner node is the cursor where it was entered and its end is the
last visible cursor where it is exited.  The two counters meet when a visible
leaf is recorded in between: the leaf begins at or after the cursor of the entry
and moves the last visible cursor to its end.  A node that is exited without a
visible leaf keeps the last visible cursor of its entry, which is before the
cursor when trivia has just been skipped, and such a node ends before it begins.

`Match.Spans` collects what holds of every match; its last field says that the
only way for a node to end before it begins is an exit of that kind.
`span_law_iff` reads the law off the finished CST.
-/
import Pegium.General.ForestOrder
import Pegium.SyntaxTree.CstView
import Pegium.Parser.Progress

namespace Pegium

/-! ### The law -/

/-- What the span law reads of a node. -/
structure Extent where
  begin : ℕ
  «end» : ℕ
  isHidden : Bool
  deriving DecidableEq

def CstLabel.extent {G : Type*} (l : CstLabel G) : Extent := ⟨l.begin, l.end, l.isHidden⟩

def CstItem.extent {G : Type*} (i : CstItem G) : Extent := ⟨i.begin, i.end, i.isHidden⟩

/-- A visible node lies inside its parent. -/
def Extent.Inside (parent child : Extent) : Prop :=
  child.isHidden = false → parent.begin ≤ child.begin ∧ child.end ≤ parent.end

/-- The visible ones among some nodes. -/
def visibleOf (es : List Extent) : List Extent := es.filter fun e => !e.isHidden

/-- The span law of a CST over a text. -/
structure SpanLaw (text : List UInt8) (f : Forest Extent) : Prop where
  begin_le_end : ∀ e ∈ f.preorder, e.begin ≤ e.end
  end_le_length : ∀ e ∈ f.preorder, e.end ≤ text.length
  nested : f.Nested Extent.Inside
  ordered : (visibleOf f.leaves).Pairwise fun a b => a.end ≤ b.begin

/-- A node may be exited so: a visible leaf was recorded inside, or no trivia had
been skipped since the last one where the node was entered. -/
def ExitMark.Proper (x : ExitMark) : Prop :=
  x.visible = true ∨ x.entered.cursor ≤ x.entered.lastVisible

instance (x : ExitMark) : Decidable x.Proper := inferInstanceAs (Decidable (_ ∨ _))

theorem map_extent_numbered {G : Type*} (base : ℕ) (f : Forest (CstLabel G)) :
    (numbered base f).map CstItem.extent = f.map CstLabel.extent := by
  induction f generalizing base with
  | nil => rfl
  | cons l c r ihc ihr => rw [numbered, Forest.map, Forest.map, ihc, ihr]; rfl

/-! ### The spans of a match -/

/-- The extents of the nodes of a match. -/
def Match.extents (m : Match) : Forest Extent := m.forest.map CstLabel.extent

/-- A position inside the text, not before the last visible leaf. -/
structure Position.Valid (text : List UInt8) (pos : Position) : Prop where
  lastVisible_le : pos.lastVisible ≤ pos.cursor
  le_length : pos.cursor ≤ text.length

/-- The spans of a match made from `pos`, whose visible nodes begin at `lo` or
after. -/
structure Match.Spans (text : List UInt8) (lo : ℕ) (pos : Position) (m : Match) : Prop where
  stop : m.stop.Valid text
  cursor_le : pos.cursor ≤ m.stop.cursor
  lastVisible_le : pos.lastVisible ≤ m.stop.lastVisible
  silent : m.visibleLeaves = 0 → m.stop.lastVisible = pos.lastVisible
  visible : 0 < m.visibleLeaves → pos.cursor ≤ m.stop.lastVisible
  bare : m.forest = .nil → m.visibleLeaves = 0
  end_le : ∀ e ∈ m.extents.preorder, e.end ≤ m.stop.cursor
  roots : ∀ e ∈ m.extents.roots, e.isHidden = false → lo ≤ e.begin ∧ e.end ≤ m.stop.lastVisible
  nested : m.extents.Nested Extent.Inside
  leaves : ∀ e ∈ m.extents.leaves, pos.cursor ≤ e.begin
  ordered : (visibleOf m.extents.leaves).Pairwise fun a b => a.end ≤ b.begin
  law : (∀ e ∈ m.extents.preorder, e.begin ≤ e.end) ↔ ∀ x ∈ m.exits, x.Proper

namespace Match.Spans

variable {text : List UInt8} {lo lo' : ℕ} {pos : Position} {m m' : Match}

theorem mono (h : m.Spans text lo pos) (hlo : lo' ≤ lo) : m.Spans text lo' pos :=
  { h with
    roots := fun e he hv => ⟨Nat.le_trans hlo (h.roots e he hv).1, (h.roots e he hv).2⟩ }

theorem nil (hpos : pos.Valid text) : (Match.nil pos).Spans text lo pos where
  stop := hpos
  cursor_le := Nat.le_refl _
  lastVisible_le := Nat.le_refl _
  silent _ := rfl
  visible h := absurd h (Nat.lt_irrefl 0)
  bare _ := rfl
  end_le _ h := absurd h List.not_mem_nil
  roots _ h := absurd h List.not_mem_nil
  nested := trivial
  leaves _ h := absurd h List.not_mem_nil
  ordered := List.Pairwise.nil
  law := ⟨fun _ _ h => absurd h List.not_mem_nil, fun _ _ h => absurd h List.not_mem_nil⟩

theorem extents_append (m m' : Match) : (m.append m').extents = m.extents ++ m'.extents :=
  Forest.map_append _ _ _

/-- One match after another. -/
theorem append (h : m.Spans text lo pos) (h' : m'.Spans text lo m.stop) :
    (m.append m').Spans text lo pos where
  stop := h'.stop
  cursor_le := Nat.le_trans h.cursor_le h'.cursor_le
  lastVisible_le := Nat.le_trans h.lastVisible_le h'.lastVisible_le
  silent hs := by
    have hsum : m.visibleLeaves + m'.visibleLeaves = 0 := hs
    show m'.stop.lastVisible = pos.lastVisible
    rw [h'.silent (by omega), h.silent (by omega)]
  visible hs := by
    have hsum : 0 < m.visibleLeaves + m'.visibleLeaves := hs
    show pos.cursor ≤ m'.stop.lastVisible
    rcases Nat.eq_zero_or_pos m'.visibleLeaves with h0 | hpos
    · exact Nat.le_trans (h.visible (by omega)) h'.lastVisible_le
    · exact Nat.le_trans h.cursor_le (h'.visible hpos)
  bare hnil := by
    have hboth : m.forest = .nil ∧ m'.forest = .nil := Forest.append_eq_nil.mp hnil
    show m.visibleLeaves + m'.visibleLeaves = 0
    rw [h.bare hboth.1, h'.bare hboth.2]
  end_le e he := by
    rw [extents_append, Forest.preorder_append, List.mem_append] at he
    rcases he with he | he
    · exact Nat.le_trans (h.end_le e he) h'.cursor_le
    · exact h'.end_le e he
  roots e he hv := by
    rw [extents_append, Forest.roots_append, List.mem_append] at he
    rcases he with he | he
    · obtain ⟨hb, hend⟩ := h.roots e he hv
      exact ⟨hb, Nat.le_trans hend h'.lastVisible_le⟩
    · exact h'.roots e he hv
  nested := by
    rw [extents_append, Forest.nested_append]
    exact ⟨h.nested, h'.nested⟩
  leaves e he := by
    rw [extents_append, Forest.leaves_append, List.mem_append] at he
    rcases he with he | he
    · exact h.leaves e he
    · exact Nat.le_trans h.cursor_le (h'.leaves e he)
  ordered := by
    rw [extents_append, Forest.leaves_append, visibleOf, List.filter_append, List.pairwise_append]
    refine ⟨h.ordered, h'.ordered, fun a ha b hb => ?_⟩
    -- the cursor between the two matches separates their leaves
    have ha' := h.end_le a (Forest.leaves_subset_preorder _ (List.mem_of_mem_filter ha))
    have hb' := h'.leaves b (List.mem_of_mem_filter hb)
    exact Nat.le_trans ha' hb'
  law := by
    rw [extents_append, Forest.preorder_append]
    show _ ↔ ∀ x ∈ m.exits ++ m'.exits, x.Proper
    rw [List.forall_mem_append, List.forall_mem_append, h.law, h'.law]

/-- A visible leaf. -/
theorem leaf {q : ℕ} (hpos : pos.Valid text) (hq : pos.cursor ≤ q) (hlen : q ≤ text.length)
    (element : GrammarElement) : (Match.leaf pos q element).Spans text pos.cursor pos where
  stop := ⟨Nat.le_refl q, hlen⟩
  cursor_le := hq
  lastVisible_le := Nat.le_trans hpos.lastVisible_le hq
  silent h := by cases h
  visible _ := hq
  bare h := by cases h
  end_le e he := by
    rw [List.mem_singleton.mp (show e ∈ [(⟨pos.cursor, q, false⟩ : Extent)] from he)]
    exact Nat.le_refl q
  roots e he _ := by
    rw [List.mem_singleton.mp (show e ∈ [(⟨pos.cursor, q, false⟩ : Extent)] from he)]
    exact ⟨Nat.le_refl _, Nat.le_refl q⟩
  nested := ⟨fun _ h => absurd h List.not_mem_nil, trivial, trivial⟩
  leaves e he := by
    have heq := List.mem_singleton.mp (show e ∈ [(⟨pos.cursor, q, false⟩ : Extent)] from he)
    exact heq ▸ Nat.le_refl _
  ordered := List.pairwise_singleton _ _
  law := by
    refine ⟨fun _ x hx => absurd hx List.not_mem_nil, fun _ e he => ?_⟩
    rw [List.mem_singleton.mp (show e ∈ [(⟨pos.cursor, q, false⟩ : Extent)] from he)]
    exact hq

/-- A node over a match, beginning at `checkpoint`. -/
theorem node {checkpoint : ℕ} (h : m.Spans text checkpoint pos) (hc : checkpoint ≤ pos.cursor)
    (hleaf : m.forest = .nil → checkpoint = pos.cursor) (element : GrammarElement) :
    (Match.node pos checkpoint element m).Spans text checkpoint pos := by
  let e₀ : Extent := ⟨checkpoint, m.stop.lastVisible, false⟩
  have hextents : (Match.node pos checkpoint element m).extents = .cons e₀ m.extents .nil := rfl
  have hpre : ∀ e, e ∈ (Match.node pos checkpoint element m).extents.preorder ↔
      e = e₀ ∨ e ∈ m.extents.preorder := by
    intro e
    rw [hextents, Forest.preorder, Forest.preorder, List.append_nil, List.mem_cons]
  have hlv : m.stop.lastVisible ≤ m.stop.cursor := h.stop.lastVisible_le
  -- the node is well placed exactly when its exit is proper
  have hnode : checkpoint ≤ m.stop.lastVisible ↔
      (⟨⟨checkpoint, pos.lastVisible⟩, decide (0 < m.visibleLeaves)⟩ : ExitMark).Proper := by
    rcases Nat.eq_zero_or_pos m.visibleLeaves with h0 | hpos
    · simp [ExitMark.Proper, h0, h.silent h0]
    · have hle : checkpoint ≤ m.stop.lastVisible := Nat.le_trans hc (h.visible hpos)
      simp [ExitMark.Proper, hpos, hle]
  have hleaves : (Match.node pos checkpoint element m).extents.leaves
      = if m.forest = .nil then [e₀] else m.extents.leaves := by
    rw [hextents, Forest.leaves, Forest.leaves, List.append_nil, Match.extents]
    cases m.forest <;> rfl
  refine ⟨h.stop, h.cursor_le, h.lastVisible_le, h.silent, h.visible, by rintro ⟨⟩,
    ?_, ?_, ?_, ?_, ?_, ?_⟩
  · intro e he
    rcases (hpre e).mp he with rfl | he
    · exact hlv
    · exact h.end_le e he
  · intro e he _
    rw [hextents, Forest.roots, Forest.roots, List.mem_singleton] at he
    subst he
    exact ⟨Nat.le_refl _, Nat.le_refl _⟩
  · rw [hextents]
    exact ⟨fun e he hv => h.roots e he hv, h.nested, trivial⟩
  · intro e he
    rw [hleaves] at he
    split at he
    next hnil =>
      rw [List.mem_singleton.mp he]
      exact Nat.le_of_eq (hleaf hnil).symm
    next => exact h.leaves e he
  · rw [hleaves]
    split
    · exact List.pairwise_singleton _ _
    · exact h.ordered
  · show _ ↔ ∀ x ∈ m.exits ++ [_], x.Proper
    rw [List.forall_mem_append, List.forall_mem_singleton, ← hnode, ← h.law]
    constructor
    · intro hall
      exact ⟨fun e he => hall e ((hpre e).mpr (.inr he)), hall e₀ ((hpre e₀).mpr (.inl rfl))⟩
    · rintro ⟨hall, hself⟩ e he
      rcases (hpre e).mp he with rfl | he
      · exact hself
      · exact hall e he

/-- Rebinding the first node moves nothing. -/
theorem rebind (h : m.Spans text lo pos) (element : GrammarElement) :
    (m.rebind element).Spans text lo pos := by
  have hextents : (m.rebind element).extents = m.extents := by
    apply Forest.map_modifyHead
    intro l
    rfl
  have hbare : (m.rebind element).forest = .nil → m.visibleLeaves = 0 := by
    intro hnil
    apply h.bare
    rw [← Forest.size_eq_zero, ← Forest.size_modifyHead, Forest.size_eq_zero]
    exact hnil
  refine ⟨h.stop, h.cursor_le, h.lastVisible_le, h.silent, h.visible, hbare,
    ?_, ?_, ?_, ?_, ?_, ?_⟩ <;> rw [hextents]
  · exact h.end_le
  · exact h.roots
  · exact h.nested
  · exact h.leaves
  · exact h.ordered
  · exact h.law

/-- The extents of the hidden leaves of a skip. -/
theorem extents_hidden (pos : Position) (leaves : List (GrammarElement × ℕ × ℕ)) (q : ℕ) :
    (Match.hidden pos leaves q).extents
      = leaves.foldr (fun l f => .cons ⟨l.2.1, l.2.2, true⟩ .nil f) .nil := by
  induction leaves with
  | nil => rfl
  | cons l leaves ih =>
    show Forest.cons _ _ _ = Forest.cons _ _ _
    exact congrArg _ ih

/-- The hidden leaves of a skip. -/
theorem hidden {leaves : List (GrammarElement × ℕ × ℕ)} {q : ℕ} (hpos : pos.Valid text)
    (hl : LeavesWithin pos.cursor leaves q) (hq : q ≤ text.length) :
    (Match.hidden pos leaves q).Spans text lo pos := by
  have hle := hl.le
  let f : Forest Extent := leaves.foldr (fun l f => .cons ⟨l.2.1, l.2.2, true⟩ .nil f) .nil
  -- the nodes of the forest are its roots and its leaves, all of them hidden
  have hf : ∀ p, p ≤ q → LeavesWithin p leaves q →
      f.preorder = f.roots ∧ f.leaves = f.roots ∧ f.Nested Extent.Inside ∧
      ∀ e ∈ f.roots, e.isHidden = true ∧ p ≤ e.begin ∧ e.begin ≤ e.end ∧ e.end ≤ q := by
    clear hl hle
    induction leaves with
    | nil => exact fun _ _ _ => ⟨rfl, rfl, trivial, fun _ h => absurd h List.not_mem_nil⟩
    | cons l leaves ih =>
      obtain ⟨ge, a, b⟩ := l
      intro p hp hl
      obtain ⟨ha, hb, hl⟩ := hl
      obtain ⟨h₁, h₂, h₃, h₄⟩ := ih b hl.le hl
      refine ⟨congrArg _ h₁, congrArg _ h₂, ⟨fun _ h => absurd h List.not_mem_nil, trivial, h₃⟩, ?_⟩
      intro e he
      rcases List.mem_cons.mp he with rfl | he
      · exact ⟨rfl, ha, Nat.le_of_lt hb, hl.le⟩
      · obtain ⟨hh, hbe, hrest⟩ := h₄ e he
        exact ⟨hh, by omega, hrest⟩
  obtain ⟨hpre, hleaves, hnested, hroots⟩ := hf pos.cursor hle hl
  have hex : (Match.hidden pos leaves q).extents = f := extents_hidden pos leaves q
  refine ⟨⟨Nat.le_trans hpos.lastVisible_le hle, hq⟩, hle, Nat.le_refl _, fun _ => rfl,
    fun h => absurd h (Nat.lt_irrefl 0), fun _ => rfl, ?_, ?_, ?_, ?_, ?_, ?_⟩ <;> rw [hex]
  · intro e he
    exact (hroots e (hpre ▸ he)).2.2.2
  · intro e he hv
    exact absurd ((hroots e he).1.symm.trans hv) (by decide)
  · exact hnested
  · intro e he
    exact (hroots e (hleaves ▸ he)).2.1
  · have hnone : visibleOf f.leaves = [] := by
      rw [visibleOf, List.filter_eq_nil_iff, hleaves]
      intro e he
      simp [(hroots e he).1]
    rw [hnone]
    exact List.Pairwise.nil
  · refine ⟨fun _ x hx => absurd hx List.not_mem_nil, fun _ e he => ?_⟩
    exact (hroots e (hpre ▸ he)).2.2.1

end Match.Spans

end Pegium
