/-
Pegium/Parser/RecoveryLedger.lean

What a recovered parse says of its text.

A ledger is the part of a recovery context that accounts for the text before the
cursor: the leaves, the edits, and a bridge from the last deletion to the cursor.
Text is passed by the skipper, matched, deleted, replaced, or bridged over; here
each of these is one step on the ledger, with what it asks of the ledger.

A ledger balances (`Accounts`) when its deletions and replacements follow one
another, no matched leaf is deleted, and every byte before the cursor is in a
visible leaf, in an edit, or in a stretch of the skipper whose comments are
recorded or deleted.
-/
import Mathlib.Data.Set.Basic
import Pegium.General.Intervals
import Pegium.Parser.RecoveryContext

namespace Pegium

/-- A skipper: the comments from a position on, and where the stretch it matches ends. -/
abbrev SkipFn := ℕ → List (GrammarElement × ℕ × ℕ) × ℕ

/-- A leaf of the CST that covers some text. -/
structure LeafExtent extends HalfOpenInterval where
  hidden : Bool
  recovered : Bool
  deriving DecidableEq

/-- Matched as it stands in the text. -/
def LeafExtent.Strict (leaf : LeafExtent) : Prop := leaf.hidden = false ∧ leaf.recovered = false

/-- The extent of a leaf, unless it is empty. -/
def leafExtent (start stop : ℕ) (hidden recovered : Bool) : List LeafExtent :=
  if start < stop then [⟨⟨start, stop⟩, hidden, recovered⟩] else []

/-- The extents of the comments of a stretch. -/
def commentExtents (comments : List (GrammarElement × ℕ × ℕ)) : List LeafExtent :=
  comments.flatMap fun comment => leafExtent comment.2.1 comment.2.2 true false

namespace SyntaxScriptEntry

/-- The text an entry is about. -/
def range (e : SyntaxScriptEntry) : HalfOpenInterval := ⟨e.beginOffset, e.endOffset⟩

/-- An entry that takes text away. -/
def destructive (e : SyntaxScriptEntry) : Bool := e.kind == .deleted || e.kind == .replaced

/-- The entry, or the entry with its end moved on. -/
structure Grown (e e' : SyntaxScriptEntry) : Prop where
  kind : e'.kind = e.kind
  start : e'.beginOffset = e.beginOffset
  stop : e.endOffset ≤ e'.endOffset

theorem Grown.refl (e : SyntaxScriptEntry) : Grown e e := ⟨rfl, rfl, Nat.le_refl _⟩

theorem Grown.trans {e e' e'' : SyntaxScriptEntry} (h : Grown e e') (h' : Grown e' e'') :
    Grown e e'' :=
  ⟨h'.kind.trans h.kind, h'.start.trans h.start, Nat.le_trans h.stop h'.stop⟩

theorem Grown.destructive {e e' : SyntaxScriptEntry} (h : Grown e e') :
    e'.destructive = e.destructive := by
  unfold SyntaxScriptEntry.destructive
  rw [h.kind]

theorem destructive_of_deleted {e : SyntaxScriptEntry} (h : e.kind = .deleted) :
    e.destructive := by
  rw [destructive, h]
  rfl

end SyntaxScriptEntry

/-- What accounts for the text before the cursor.  A bridge is kept by its start:
it goes from there to the cursor. -/
structure Ledger where
  cursor : ℕ
  leaves : List LeafExtent
  edits : List SyntaxScriptEntry
  bridge : Option ℕ
  deriving DecidableEq

namespace Ledger

/-! ### When a ledger balances -/

/-- The deleted and the replaced ranges. -/
def ranges (g : Ledger) : List HalfOpenInterval := (g.edits.filter (·.destructive)).map (·.range)

/-- A comment is a hidden leaf, or deleted. -/
def KeepsComment (g : Ledger) (start stop : ℕ) : Prop :=
  (∃ leaf ∈ g.leaves, leaf.hidden = true ∧ leaf.start = start ∧ leaf.stop = stop) ∨
    ∃ e ∈ g.edits, e.kind = .deleted ∧ e.beginOffset ≤ start ∧ stop ≤ e.endOffset

/-- All comments of a stretch are kept. -/
def KeepsComments (g : Ledger) (comments : List (GrammarElement × ℕ × ℕ)) : Prop :=
  ∀ comment ∈ comments, comment.2.1 < comment.2.2 → g.KeepsComment comment.2.1 comment.2.2

/-- The text up to a position is a row of visible leaves, of edits, and of
stretches of the skippers in use.  Of an edit a first part will do: its end may
have moved on. -/
inductive Traced (Skippers : Set SkipFn) (g : Ledger) : ℕ → Prop
  | zero : Traced Skippers g 0
  | leaf {leaf : LeafExtent} {p : ℕ} (h : Traced Skippers g p) (hleaf : leaf ∈ g.leaves)
      (visible : leaf.hidden = false) (start : leaf.start ≤ p) (stop : p ≤ leaf.stop) :
      Traced Skippers g leaf.stop
  | edit {e : SyntaxScriptEntry} {p q : ℕ} (h : Traced Skippers g p) (he : e ∈ g.edits)
      (destructive : e.destructive) (start : e.beginOffset ≤ p) (le : p ≤ q)
      (stop : q ≤ e.endOffset) : Traced Skippers g q
  | skip {skip : SkipFn} {p : ℕ} (h : Traced Skippers g p) (hskip : skip ∈ Skippers)
      (le : p ≤ (skip p).2) (comments : g.KeepsComments (skip p).1) :
      Traced Skippers g (skip p).2

/-- A byte is accounted for. -/
def Covers (Skippers : Set SkipFn) (g : Ledger) (p : ℕ) : Prop :=
  (∃ leaf ∈ g.leaves, leaf.hidden = false ∧ leaf.Contains p) ∨
    (∃ e ∈ g.edits, e.destructive ∧ e.range.Contains p) ∨
      ∃ skip ∈ Skippers, ∃ start, g.Traced Skippers start ∧ start ≤ p ∧ p < (skip start).2 ∧
        g.KeepsComments (skip start).1

/-- **The accounting of a text**, under the skippers in use. -/
structure Accounts (Skippers : Set SkipFn) (g : Ledger) : Prop where
  increasing : HalfOpenInterval.Increasing g.ranges
  disjoint : g.ranges.Pairwise HalfOpenInterval.Apart
  apart : ∀ leaf ∈ g.leaves, leaf.Strict → ∀ e ∈ g.edits, e.kind = .deleted →
    leaf.toHalfOpenInterval.Apart e.range
  covered : ∀ p < g.cursor, g.Covers Skippers p

/-- No deletion or replacement reaches beyond the cursor. -/
def Settled (g : Ledger) : Prop := ∀ e ∈ g.edits, e.destructive → e.endOffset ≤ g.cursor

/-- Matched leaves lie before a position. -/
def Behind (g : Ledger) (position : ℕ) : Prop :=
  ∀ leaf ∈ g.leaves, leaf.Strict → leaf.stop ≤ position

/-- What a mark can rely on: it is about what was recorded before the cursor. -/
structure Kept (Skippers : Set SkipFn) (g : Ledger) : Prop where
  traced : g.Traced Skippers g.cursor
  behind : g.Behind g.cursor
  bridged : ∀ start, g.bridge = some start → g.Behind start

/-- **The invariant of a ledger.** -/
structure Balanced (Skippers : Set SkipFn) (g : Ledger) : Prop extends Kept Skippers g where
  increasing : HalfOpenInterval.Increasing g.ranges
  apart : ∀ leaf ∈ g.leaves, leaf.Strict → ∀ e ∈ g.edits, e.kind = .deleted →
    leaf.toHalfOpenInterval.Apart e.range

variable {Skippers : Set SkipFn} {g g' : Ledger} {p : ℕ}

/-- A byte lies in one of the pieces of the row. -/
theorem Traced.covers {n : ℕ} (h : g.Traced Skippers n) (hp : p < n) : g.Covers Skippers p := by
  induction h with
  | zero => exact absurd hp (Nat.not_lt_zero p)
  | @leaf leaf q h hleaf visible start stop ih =>
    rcases Nat.lt_or_ge p q with hlt | hge
    · exact ih hlt
    · exact .inl ⟨leaf, hleaf, visible, Nat.le_trans start hge, hp⟩
  | @edit e q r h he destructive start le stop ih =>
    rcases Nat.lt_or_ge p q with hlt | hge
    · exact ih hlt
    · exact .inr (.inl ⟨e, he, destructive, Nat.le_trans start hge, Nat.lt_of_lt_of_le hp stop⟩)
  | @skip skip q h hskip le comments ih =>
    rcases Nat.lt_or_ge p q with hlt | hge
    · exact ih hlt
    · exact .inr (.inr ⟨skip, hskip, q, h, hge, hp, comments⟩)

theorem Balanced.accounts (h : g.Balanced Skippers) : g.Accounts Skippers where
  increasing := h.increasing
  disjoint := h.increasing.apart
  apart := h.apart
  covered _ hp := h.traced.covers hp

/-! ### Ledgers that record more -/

/-- What is recorded in `g` is recorded in `g'`. -/
structure Records (g g' : Ledger) : Prop where
  leaves : g.leaves ⊆ g'.leaves
  edits : ∀ e ∈ g.edits, ∃ e' ∈ g'.edits, e.Grown e'

/-- New entries come after the old ones. -/
theorem Records.of_append (leaves : g.leaves ⊆ g'.leaves) {new : List SyntaxScriptEntry}
    (edits : g'.edits = g.edits ++ new) : Records g g' :=
  ⟨leaves, fun e he => ⟨e, edits ▸ List.mem_append_left _ he, .refl e⟩⟩

theorem KeepsComment.mono {start stop : ℕ} (h : g.KeepsComment start stop) (hr : Records g g') :
    g'.KeepsComment start stop := by
  rcases h with ⟨leaf, hleaf, hspan⟩ | ⟨e, he, hkind, hstart, hstop⟩
  · exact .inl ⟨leaf, hr.leaves hleaf, hspan⟩
  · obtain ⟨e', he', hgrown⟩ := hr.edits e he
    exact .inr ⟨e', he', hgrown.kind.trans hkind, Nat.le_trans (Nat.le_of_eq hgrown.start) hstart,
      Nat.le_trans hstop hgrown.stop⟩

/-- What is accounted for stays so. -/
theorem Traced.mono {n : ℕ} (h : g.Traced Skippers n) (hr : Records g g') :
    g'.Traced Skippers n := by
  induction h with
  | zero => exact .zero
  | leaf h hleaf visible start stop ih => exact ih.leaf (hr.leaves hleaf) visible start stop
  | edit h he destructive start le stop ih =>
    obtain ⟨e', he', hgrown⟩ := hr.edits _ he
    refine ih.edit he' (hgrown.destructive.trans destructive) ?_ le
      (Nat.le_trans stop hgrown.stop)
    exact Nat.le_trans (Nat.le_of_eq hgrown.start) start
  | skip h hskip le comments ih =>
    exact ih.skip hskip le fun comment hcomment hproper =>
      (comments comment hcomment hproper).mono hr

/-! ### Steps -/

/-- The bridge is given up. -/
def unbridge (g : Ledger) : Ledger := { g with bridge := none }

/-- The skipper passes a stretch and records its comments. -/
def pass (g : Ledger) (comments : List (GrammarElement × ℕ × ℕ)) (stop : ℕ) : Ledger where
  cursor := stop
  leaves := g.leaves ++ commentExtents comments
  edits := g.edits
  bridge := none

/-- A visible leaf. -/
def take (g : Ledger) (start stop : ℕ) (recovered : Bool) : Ledger where
  cursor := stop
  leaves := g.leaves ++ leafExtent start stop false recovered
  edits := g.edits
  bridge := none

/-- An entry that takes no text away. -/
def insert (g : Ledger) (e : SyntaxScriptEntry) : Ledger :=
  { g with edits := g.edits ++ [e], bridge := none }

/-- A deletion or a replacement of the text up to a position; of a replaced leaf
the extent is recorded too. -/
def erase (g : Ledger) (e : SyntaxScriptEntry) (leaf : List LeafExtent) : Ledger where
  cursor := e.endOffset
  leaves := g.leaves ++ leaf
  edits := g.edits ++ [e]
  bridge := none

/-- A deletion that moves the end of the last entry on. -/
def extend (g : Ledger) (stop : ℕ) : Ledger where
  cursor := stop
  leaves := g.leaves
  edits := g.edits.modifyLast ({ · with endOffset := stop })
  bridge := none

/-- The cursor goes over a stretch whose comments are not recorded. -/
def bridgeTo (g : Ledger) (stop : ℕ) : Ledger :=
  { g with cursor := stop, bridge := some g.cursor }

/-- Back to a mark: entries recorded since are dropped. -/
def rewind (g taken : Ledger) : Ledger :=
  { taken with edits := g.edits.take taken.edits.length }

theorem mem_leafExtent {start stop : ℕ} {hidden recovered : Bool} {leaf : LeafExtent}
    (h : leaf ∈ leafExtent start stop hidden recovered) :
    leaf = ⟨⟨start, stop⟩, hidden, recovered⟩ := by
  unfold leafExtent at h
  split at h
  · exact List.mem_singleton.mp h
  · cases h

theorem hidden_of_mem_commentExtents {comments : List (GrammarElement × ℕ × ℕ)}
    {leaf : LeafExtent} (h : leaf ∈ commentExtents comments) : leaf.hidden = true := by
  obtain ⟨comment, -, hleaf⟩ := List.mem_flatMap.mp h
  rw [mem_leafExtent hleaf]

/-- The skipper's own comments are kept. -/
theorem keepsComments_pass (g : Ledger) (comments : List (GrammarElement × ℕ × ℕ)) (stop : ℕ) :
    (g.pass comments stop).KeepsComments comments := by
  intro comment hcomment hproper
  refine .inl ⟨⟨⟨comment.2.1, comment.2.2⟩, true, false⟩, ?_, rfl, rfl, rfl⟩
  refine List.mem_append_right _ (List.mem_flatMap.mpr ⟨comment, hcomment, ?_⟩)
  rw [leafExtent, if_pos hproper]
  exact List.mem_singleton_self _

/-- Hidden leaves and recovered ones come without a word about the edits. -/
theorem mem_strict_append {leaves : List LeafExtent} (hnew : ∀ leaf ∈ leaves, ¬ leaf.Strict)
    {leaf : LeafExtent} (h : leaf ∈ g.leaves ++ leaves) (hstrict : leaf.Strict) :
    leaf ∈ g.leaves := by
  rcases List.mem_append.mp h with h | h
  · exact h
  · exact absurd hstrict (hnew leaf h)

theorem not_strict_of_hidden {leaf : LeafExtent} (h : leaf.hidden = true) : ¬ leaf.Strict :=
  fun hstrict => absurd (h.symm.trans hstrict.1) nofun

theorem Behind.mono {q : ℕ} (h : g.Behind p) (hpq : p ≤ q) : g.Behind q :=
  fun leaf hleaf hstrict => Nat.le_trans (h leaf hleaf hstrict) hpq

theorem Kept.unbridge (h : g.Kept Skippers) : g.unbridge.Kept Skippers where
  traced := h.traced.mono (.of_append (List.Subset.refl _) (List.append_nil _).symm)
  behind := h.behind
  bridged _ := nofun

theorem Balanced.unbridge (h : g.Balanced Skippers) : g.unbridge.Balanced Skippers :=
  { h.toKept.unbridge with
    increasing := h.increasing
    apart := h.apart }

theorem Balanced.pass (h : g.Balanced Skippers) {skip : SkipFn} (hskip : skip ∈ Skippers)
    (hle : g.cursor ≤ (skip g.cursor).2) :
    (g.pass (skip g.cursor).1 (skip g.cursor).2).Balanced Skippers := by
  have hnew : ∀ leaf ∈ commentExtents (skip g.cursor).1, ¬ leaf.Strict :=
    fun leaf hleaf => not_strict_of_hidden (hidden_of_mem_commentExtents hleaf)
  have hrecords : Records g (g.pass (skip g.cursor).1 (skip g.cursor).2) :=
    .of_append (List.subset_append_left _ _) (List.append_nil _).symm
  refine ⟨⟨(h.traced.mono hrecords).skip hskip hle (keepsComments_pass _ _ _), ?_, nofun⟩,
    h.increasing, ?_⟩
  · intro leaf hleaf hstrict
    exact Nat.le_trans (h.behind leaf (mem_strict_append hnew hleaf hstrict) hstrict) hle
  · intro leaf hleaf hstrict
    exact h.apart leaf (mem_strict_append hnew hleaf hstrict) hstrict

/-- A visible leaf may begin before the cursor if it is recovered.  A matched one
begins there, with all deletions behind it. -/
theorem Balanced.take (h : g.Balanced Skippers) {start stop : ℕ} {recovered : Bool}
    (hstart : start ≤ g.cursor) (hstop : g.cursor ≤ stop)
    (hmatched : recovered = false → start = g.cursor ∧ (start < stop → g.Settled)) :
    (g.take start stop recovered).Balanced Skippers := by
  have hrecords : Records g (g.take start stop recovered) :=
    .of_append (List.subset_append_left _ _) (List.append_nil _).symm
  refine ⟨⟨?_, ?_, nofun⟩, h.increasing, ?_⟩
  · have htraced := h.traced.mono hrecords
    rcases Nat.lt_or_ge start stop with hlt | hge
    · let leaf : LeafExtent := ⟨⟨start, stop⟩, false, recovered⟩
      have hleaf : leaf ∈ (g.take start stop recovered).leaves := by
        refine List.mem_append_right _ ?_
        rw [leafExtent, if_pos hlt]
        exact List.mem_singleton_self _
      exact htraced.leaf hleaf rfl hstart hstop
    · -- an empty leaf at the cursor
      have heq : stop = g.cursor := Nat.le_antisymm (Nat.le_trans hge hstart) hstop
      show Traced Skippers _ stop
      exact heq ▸ htraced
  · intro leaf hleaf hstrict
    rcases List.mem_append.mp hleaf with hleaf | hleaf
    · exact Nat.le_trans (h.behind leaf hleaf hstrict) hstop
    · rw [mem_leafExtent hleaf]
      exact Nat.le_refl _
  · intro leaf hleaf hstrict e he hkind
    rcases List.mem_append.mp hleaf with hold | hnew
    · exact h.apart leaf hold hstrict e he hkind
    · obtain rfl := mem_leafExtent hnew
      obtain ⟨hcursor, hsettled⟩ := hmatched hstrict.2
      have hlt : start < stop := by
        unfold leafExtent at hnew
        split at hnew
        next hlt => exact hlt
        next => cases hnew
      have hend : e.endOffset ≤ start :=
        hcursor ▸ hsettled hlt e he (SyntaxScriptEntry.destructive_of_deleted hkind)
      have hapart : e.range.Apart ⟨start, stop⟩ := HalfOpenInterval.apart_of_le hend
      exact hapart.symm

theorem ranges_append (edits edits' : List SyntaxScriptEntry) :
    ((edits ++ edits').filter (·.destructive)).map (·.range)
      = (edits.filter (·.destructive)).map (·.range)
        ++ (edits'.filter (·.destructive)).map (·.range) := by
  rw [List.filter_append, List.map_append]

theorem Balanced.insert (h : g.Balanced Skippers) {e : SyntaxScriptEntry}
    (he : e.kind = .inserted) : (g.insert e).Balanced Skippers := by
  have hrecords : Records g (g.insert e) := .of_append (List.Subset.refl _) rfl
  refine ⟨⟨h.traced.mono hrecords, h.behind, nofun⟩, ?_, ?_⟩
  · have hno : e.destructive = false := by
      unfold SyntaxScriptEntry.destructive
      rw [he]
      rfl
    have hranges : (g.insert e).ranges = g.ranges := by
      unfold ranges Ledger.insert
      rw [ranges_append, List.filter_singleton, hno]
      exact List.append_nil _
    exact hranges ▸ h.increasing
  · intro leaf hleaf hstrict e' he' hkind
    rcases List.mem_append.mp he' with he' | he'
    · exact h.apart leaf hleaf hstrict e' he' hkind
    · rw [List.mem_singleton.mp he', he] at hkind
      cases hkind

/-- Text from the cursor on is taken away, and the edits before it end there. -/
theorem Balanced.erase (h : g.Balanced Skippers) (hsettled : g.Settled) {e : SyntaxScriptEntry}
    (he : e.destructive) (hbegin : e.beginOffset = g.cursor) (hend : g.cursor < e.endOffset)
    {leaves : List LeafExtent} (hnew : ∀ leaf ∈ leaves, ¬ leaf.Strict) :
    (g.erase e leaves).Balanced Skippers := by
  have hrecords : Records g (g.erase e leaves) := .of_append (List.subset_append_left _ _) rfl
  have hbehind : ∀ leaf ∈ g.leaves ++ leaves, leaf.Strict → leaf.stop ≤ g.cursor :=
    fun leaf hleaf hstrict => h.behind leaf (mem_strict_append hnew hleaf hstrict) hstrict
  refine ⟨⟨?_, ?_, nofun⟩, ?_, ?_⟩
  · exact (h.traced.mono hrecords).edit (List.mem_append_right _ (List.mem_singleton_self e)) he
      (Nat.le_of_eq hbegin) (Nat.le_of_lt hend) (Nat.le_refl _)
  · exact fun leaf hleaf hstrict => Nat.le_trans (hbehind leaf hleaf hstrict) (Nat.le_of_lt hend)
  · have hranges : (g.erase e leaves).ranges = g.ranges ++ [e.range] := by
      unfold ranges Ledger.erase
      rw [ranges_append, List.filter_singleton, he]
      rfl
    rw [hranges]
    refine h.increasing.concat (Nat.lt_of_le_of_lt (Nat.le_of_eq hbegin) hend) fun j hj => ?_
    obtain ⟨e', he', rfl⟩ := List.mem_map.mp hj
    obtain ⟨hmem, hdestructive⟩ := List.mem_filter.mp he'
    exact Nat.le_trans (hsettled e' hmem hdestructive) (Nat.le_of_eq hbegin.symm)
  · intro leaf hleaf hstrict e' he' hkind
    rcases List.mem_append.mp he' with he' | he'
    · exact h.apart leaf (mem_strict_append hnew hleaf hstrict) hstrict e' he' hkind
    · rw [List.mem_singleton.mp he']
      exact HalfOpenInterval.apart_of_le
        (Nat.le_trans (hbehind leaf hleaf hstrict) (Nat.le_of_eq hbegin.symm))

/-- A deletion over the bridge: no matched leaf lies after the bridge's start. -/
theorem Balanced.extend (h : g.Balanced Skippers) {front : List SyntaxScriptEntry}
    {lastEdit : SyntaxScriptEntry} (hedits : g.edits = front ++ [lastEdit])
    (hkind : lastEdit.kind = .deleted) (hbridge : g.bridge = some lastEdit.endOffset)
    (hend : lastEdit.endOffset ≤ g.cursor) {stop : ℕ} (hstop : g.cursor ≤ stop) :
    (g.extend stop).Balanced Skippers := by
  have hdestructive := SyntaxScriptEntry.destructive_of_deleted hkind
  have hmoved : (g.extend stop).edits = front ++ [{ lastEdit with endOffset := stop }] := by
    show g.edits.modifyLast _ = _
    rw [hedits, List.modifyLast_concat]
  have hgrown : lastEdit.Grown { lastEdit with endOffset := stop } :=
    ⟨rfl, rfl, Nat.le_trans hend hstop⟩
  have hranges : g.ranges
      = (front.filter (·.destructive)).map (·.range) ++ [lastEdit.range] := by
    unfold ranges
    rw [hedits, ranges_append, List.filter_singleton, hdestructive]
    rfl
  have hincreasing := h.increasing
  rw [hranges] at hincreasing
  have hproper : lastEdit.beginOffset < lastEdit.endOffset :=
    hincreasing.proper lastEdit.range (List.mem_append_right _ (List.mem_singleton_self _))
  have hrecords : Records g (g.extend stop) := by
    refine ⟨List.Subset.refl _, fun e he => ?_⟩
    rw [hmoved]
    rcases List.mem_append.mp (hedits ▸ he) with he | he
    · exact ⟨e, List.mem_append_left _ he, .refl e⟩
    · exact ⟨_, List.mem_append_right _ (List.mem_singleton_self _),
        List.mem_singleton.mp he ▸ hgrown⟩
  refine ⟨⟨?_, h.behind.mono hstop, nofun⟩, ?_, ?_⟩
  · refine (h.traced.mono hrecords).edit (e := { lastEdit with endOffset := stop }) ?_ ?_ ?_ hstop
      (Nat.le_refl _)
    · exact hmoved ▸ List.mem_append_right _ (List.mem_singleton_self _)
    · exact hgrown.destructive.trans hdestructive
    · exact Nat.le_trans (Nat.le_of_lt hproper) hend
  · unfold ranges
    rw [hmoved, ranges_append, List.filter_singleton, hgrown.destructive.trans hdestructive]
    exact hincreasing.growLast (Nat.le_trans hend hstop)
  · intro leaf hleaf hstrict e he hkind'
    rw [hmoved] at he
    rcases List.mem_append.mp he with he | he
    · exact h.apart leaf hleaf hstrict e (hedits ▸ List.mem_append_left _ he) hkind'
    · rw [List.mem_singleton.mp he]
      have hlast : lastEdit ∈ g.edits :=
        hedits ▸ List.mem_append_right _ (List.mem_singleton_self _)
      exact (h.apart leaf hleaf hstrict lastEdit hlast hkind).grow rfl
        (h.bridged _ hbridge leaf hleaf hstrict)

/-- A bridge over a stretch without comments. -/
theorem Balanced.bridgeTo (h : g.Balanced Skippers) {skip : SkipFn} (hskip : skip ∈ Skippers)
    (hle : g.cursor ≤ (skip g.cursor).2) (hsilent : commentExtents (skip g.cursor).1 = []) :
    (g.bridgeTo (skip g.cursor).2).Balanced Skippers := by
  have hrecords : Records g (g.bridgeTo (skip g.cursor).2) :=
    .of_append (List.Subset.refl _) (List.append_nil _).symm
  refine ⟨⟨?_, h.behind.mono hle, ?_⟩, h.increasing, h.apart⟩
  · refine (h.traced.mono hrecords).skip hskip hle fun comment hcomment hproper => ?_
    have hempty := List.flatMap_eq_nil_iff.mp hsilent comment hcomment
    rw [leafExtent, if_pos hproper] at hempty
    cases hempty
  · rintro start ⟨⟩
    exact h.behind

/-- **A rewind keeps the accounting**, if the mark can rely on what it saw, its
leaves are still there, and its entries are, up to their ends. -/
theorem Balanced.rewind (h : g.Balanced Skippers) {taken : Ledger} (hkept : taken.Kept Skippers)
    (hleaves : taken.leaves ⊆ g.leaves)
    (hedits : ∀ e ∈ taken.edits, ∃ e' ∈ g.edits.take taken.edits.length, e.Grown e') :
    (g.rewind taken).Balanced Skippers := by
  have hrecords : Records taken (g.rewind taken) := ⟨List.Subset.refl _, hedits⟩
  refine ⟨⟨hkept.traced.mono hrecords, hkept.behind, hkept.bridged⟩, ?_, ?_⟩
  · exact h.increasing.sublist (((List.take_sublist _ _).filter _).map _)
  · exact fun leaf hleaf hstrict e he =>
      h.apart leaf (hleaves hleaf) hstrict e (List.take_subset _ _ he)

end Ledger

end Pegium
