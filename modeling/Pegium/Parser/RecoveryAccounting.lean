/-
Pegium/Parser/RecoveryAccounting.lean

What a recovery context accounts for.

The ledger of a context has its cursor, the leaves of its builder that cover some
text, its edits, and the start of a pending bridge.  Every operation of a session
is a step of the ledger or leaves the ledger alone, so the ledger of a session
balances as long as the steps may be taken (`Lossless`):

* a matched leaf, a new deletion and a replacement begin behind all deletions and
  replacements.  They always do until the context is rewound over a deletion that
  was merged into an entry the mark counts;
* the last deletion is bridged over a stretch without comments only.  The bridge
  does not record them, and a scan that stops behind the bridge never deletes them.

Main result: `accounts_of_reaches`.
-/
import Pegium.Parser.RecoveryLedger
import Pegium.Parser.RecoveryMarks

namespace Pegium

/-! ### The leaves of a builder -/

/-- What a slot says of the text. -/
def slotExtents : Option (CstNode GrammarElement) → List LeafExtent
  | some n => if n.isLeaf then leafExtent n.begin n.end n.isHidden n.isRecovered else []
  | none => []

/-- The leaves of a builder that cover some text. -/
def leafExtents (b : CstBuilder GrammarElement) : List LeafExtent := b.nodes.flatMap slotExtents

theorem flatMap_modify {α β : Type*} {f : α → List β} {g : α → α} (h : ∀ a, f (g a) = f a)
    (l : List α) (i : ℕ) : (l.modify i g).flatMap f = l.flatMap f := by
  induction l generalizing i with
  | nil => rw [List.modify_nil]
  | cons a l ih =>
    cases i with
    | zero => rw [List.modify_zero_cons, List.flatMap_cons, List.flatMap_cons, h]
    | succ i => rw [List.modify_succ_cons, List.flatMap_cons, List.flatMap_cons, ih]

/-- A link says nothing of the text. -/
theorem flatMap_linkLast (nodes : List (Option (CstNode GrammarElement))) (last next : Option ℕ) :
    (CstBuilder.linkLast nodes last next).flatMap slotExtents = nodes.flatMap slotExtents := by
  cases last with
  | none => rfl
  | some i =>
    refine flatMap_modify (fun slot => ?_) nodes i
    cases slot <;> rfl

theorem leafExtents_leaf (b : CstBuilder GrammarElement) (start stop : ℕ)
    (element : GrammarElement) (hidden recovered : Bool) :
    leafExtents (b.leaf start stop element hidden recovered)
      = leafExtents b ++ leafExtent start stop hidden recovered := by
  unfold leafExtents CstBuilder.leaf
  rw [flatMap_linkLast, List.flatMap_append]
  exact congrArg _ (List.append_nil _)

theorem leafExtents_hiddenLeaves (comments : List (GrammarElement × ℕ × ℕ))
    (b : CstBuilder GrammarElement) :
    leafExtents (ParseContext.hiddenLeaves b comments)
      = leafExtents b ++ commentExtents comments := by
  induction comments generalizing b with
  | nil => exact (List.append_nil _).symm
  | cons comment comments ih =>
    obtain ⟨element, start, stop⟩ := comment
    rw [ParseContext.hiddenLeaves, ih, leafExtents_leaf, List.append_assoc]
    rfl

theorem leafExtents_enter (b : CstBuilder GrammarElement) :
    leafExtents b.enter = leafExtents b := by
  unfold leafExtents CstBuilder.enter
  rw [List.flatMap_append]
  exact List.append_nil _

theorem leafExtents_override (b : CstBuilder GrammarElement) (id : ℕ) (element : GrammarElement) :
    leafExtents (b.overrideGrammarElement id element) = leafExtents b := by
  refine flatMap_modify (fun slot => ?_) b.nodes id
  cases slot <;> rfl

/-- An unwritten slot is written with a node that says nothing of the text. -/
theorem flatMap_write (pre tail : List (Option (CstNode GrammarElement)))
    {slot : Option (CstNode GrammarElement)} (h : slotExtents slot = []) :
    ((pre ++ none :: tail).set pre.length slot).flatMap slotExtents
      = (pre ++ none :: tail).flatMap slotExtents := by
  rw [List.set_append_right _ _ (Nat.le_refl _), Nat.sub_self, List.set_cons_zero,
    List.flatMap_append, List.flatMap_append, List.flatMap_cons, List.flatMap_cons, h]
  rfl

/-- A finished node is a leaf only if it has no children, and then it is empty. -/
theorem leafExtents_exit {tb : TreeBuilder GrammarElement} {b : CstBuilder GrammarElement}
    (hb : b = tb.toCstBuilder) {start stop : ℕ} (element : GrammarElement)
    (hempty : b.frame.last = none → stop ≤ start) :
    leafExtents (b.exit start stop element) = leafExtents b := by
  obtain ⟨top, below⟩ := tb
  rcases below with - | ⟨f, fs⟩
  · rw [hb]
    rfl
  -- the slot of the open node is unwritten
  let pre := TreeBuilder.levelsNodes fs ++ f.layout TreeBuilder.cell (levelsSize fs) none
  let tail := top.layout TreeBuilder.cell (levelsSize fs + f.size + 1) none
  have hpre : pre.length = levelsSize fs + f.size := by simp [pre]
  have hnodes : b.nodes = pre ++ none :: tail := by
    rw [hb]
    simp [TreeBuilder.toCstBuilder, TreeBuilder.levelsNodes, levelsSize, pre, tail]
  have hcurrent : b.current = some (levelsSize fs + f.size) := by rw [hb]; rfl
  have houter : b.outer = TreeBuilder.frameOf fs f :: TreeBuilder.levelsFrames fs := by rw [hb]; rfl
  have hfinished : slotExtents (some
      { begin := start, «end» := stop, grammarElement := element, nextSiblingId := none,
        isLeaf := b.frame.last.isNone, isHidden := false, isRecovered := false }) = [] := by
    show (if b.frame.last.isNone then leafExtent start stop false false else []) = []
    split
    next hlast => exact if_neg (Nat.not_lt.mpr (hempty (Option.isNone_iff_eq_none.mp hlast)))
    next => rfl
  unfold leafExtents CstBuilder.exit
  rw [hcurrent, houter]
  dsimp only
  rw [flatMap_linkLast, hnodes, ← hpre]
  exact flatMap_write pre tail hfinished

namespace RecoveryContext

/-! ### The ledger of a context -/

/-- Where a pending bridge starts. -/
def bridgeStart : DeleteBridgeState → Option ℕ
  | ⟨some start, some _⟩ => some start
  | _ => none

/-- The ledger of a context. -/
def ledger (c : RecoveryContext) : Ledger where
  cursor := c.cursor
  leaves := leafExtents c.builder
  edits := c.recoveryEdits
  bridge := bridgeStart c.deleteBridge

/-- What the ledger is made of. -/
def place (c : RecoveryContext) :
    ℕ × CstBuilder GrammarElement × List SyntaxScriptEntry × DeleteBridgeState :=
  (c.cursor, c.builder, c.recoveryEdits, c.deleteBridge)

variable {inp : RecoveryInput} {o : RecoveryOptions} {c c' d : RecoveryContext}

theorem ledger_eq (h : c'.place = c.place) : c'.ledger = c.ledger := by
  simp only [place, Prod.mk.injEq] at h
  unfold ledger
  rw [h.1, h.2.1, h.2.2.1, h.2.2.2]

theorem place_ite {p : Prop} [Decidable p] (h : c'.place = c.place) (h' : d.place = c.place) :
    (if p then c' else d).place = c.place := by
  split
  · exact h
  · exact h'

theorem place_maybeDisable : c.maybeDisableRecoveryBookkeeping.place = c.place :=
  place_ite rfl rfl

theorem place_becomeStable : c.becomeStable.place = c.place := place_maybeDisable

theorem place_complete (w : EditWindow) (reachedEof : Bool) :
    (c.completeActiveRecoveryWindow w reachedEof).place = c.place := place_maybeDisable

theorem place_refreshOutside (w : EditWindow) : (c.refreshOutside w).place = c.place :=
  place_ite rfl (place_ite rfl rfl)

theorem place_refreshLoop (w : EditWindow) : (c.refreshLoop w).place = c.place := by
  refine place_ite (place_ite ?_ (place_ite ?_ rfl)) (place_refreshOutside w)
  · exact place_refreshOutside w
  · exact (place_refreshOutside w).trans (place_complete w false)

theorem place_refresh : (c.refreshRecoveryPhase inp).place = c.place := by
  refine place_ite rfl ?_
  have hstable : (if c.recoveryState.windowReplay.awaitingStrictStability &&
      c.cursor == inp.text.length then c.becomeStable else c).place = c.place :=
    place_ite place_becomeStable rfl
  dsimp only
  split
  · exact hstable
  · exact (place_refreshLoop _).trans hstable

theorem place_onVisibleLeaf (b e : ℕ) : (c.onVisibleLeaf o b e).place = c.place := by
  unfold onVisibleLeaf
  exact place_ite rfl (place_ite (place_ite rfl (place_ite rfl rfl))
    (place_ite (place_ite place_becomeStable rfl) rfl))

theorem place_noteReplay (kind : ParseDiagnosticKind) :
    (c.noteReplayForwardRequirementForCurrentWindow o kind).place = c.place := by
  unfold noteReplayForwardRequirementForCurrentWindow
  refine place_ite rfl ?_
  split
  · rfl
  · exact place_ite rfl rfl

theorem place_consume : c.consumeCommittedRecoveryEdit.place = c.place := place_ite rfl rfl

theorem place_advance : c.advanceCommittedDeleteReplay.place = c.place := by
  unfold advanceCommittedDeleteReplay
  split
  · rfl
  · exact place_ite rfl (place_ite place_consume rfl)

theorem place_finalize : (c.finalizeRecoveryAtEof inp).place = c.place := by
  refine place_ite rfl ?_
  split
  · exact place_complete _ true
  · exact place_ite place_becomeStable rfl

/-! ### Operations as steps of the ledger -/

theorem ledger_clear : c.clearPendingDeleteHiddenTriviaBridge.ledger = c.ledger.unbridge := rfl

theorem ledger_skip :
    (c.skip inp o).ledger = c.ledger.pass (o.skip c.cursor).1 (o.skip c.cursor).2 := by
  refine (ledger_eq place_refresh).trans ?_
  unfold Ledger.pass ledger
  rw [← leafExtents_hiddenLeaves]
  rfl

theorem ledger_afterTrackedLeaf (b e : ℕ) (hidden : Bool) :
    (c.afterTrackedLeaf inp o b e hidden).ledger = c.ledger.unbridge := by
  rw [← ledger_clear]
  refine ledger_eq ?_
  unfold afterTrackedLeaf
  generalize c.clearPendingDeleteHiddenTriviaBridge = cleared
  have hvisible : (if cleared.recoveryState.windowReplay.recoveryBookkeepingEnabled && !hidden &&
      b < e then cleared.onVisibleLeaf o b e else cleared).place = cleared.place :=
    place_ite (place_onVisibleLeaf b e) rfl
  have hrefresh := (@place_refresh inp _).trans hvisible
  exact place_ite hrefresh hrefresh

/-- A leaf of any kind. -/
theorem ledger_leafFrom (start stop : ℕ) (element : GrammarElement) (hidden recovered : Bool) :
    (c.leafFrom inp o start stop element hidden recovered).ledger
      = { c.ledger with
          cursor := stop
          leaves := c.ledger.leaves ++ leafExtent start stop hidden recovered
          bridge := none } := by
  refine (ledger_afterTrackedLeaf _ _ _).trans ?_
  unfold Ledger.unbridge ledger
  rw [← leafExtents_leaf c.builder start stop element]
  rfl

theorem ledger_recordInsert (entry : SyntaxScriptEntry) (replaying : Bool) :
    (c.recordInsert o entry replaying).ledger
      = { c.ledger with edits := c.ledger.edits ++ [entry] } := by
  refine (ledger_eq (place_noteReplay _)).trans ?_
  split
  · exact ledger_eq place_consume
  · rfl

/-- Past a recorded deletion the skipper may go on. -/
theorem ledger_passDeleted (stop : ℕ) (replaying : Bool) :
    (c.passDeleted inp o stop replaying).ledger
      = if o.skipAfterDelete then
          Ledger.pass { c.ledger with cursor := stop } (o.skip stop).1 (o.skip stop).2
        else { c.ledger with cursor := stop } := by
  have hgo : (if o.skipAfterDelete then
        { c with cursor := stop, maxCursor := max c.maxCursor stop }.skip inp o
      else { c with cursor := stop, maxCursor := max c.maxCursor stop }.refreshRecoveryPhase
        inp).ledger
      = if o.skipAfterDelete then
          Ledger.pass { c.ledger with cursor := stop } (o.skip stop).1 (o.skip stop).2
        else { c.ledger with cursor := stop } := by
    split
    · exact ledger_skip
    · exact ledger_eq place_refresh
  refine Eq.trans ?_ hgo
  exact ledger_eq (place_ite place_advance rfl)

/-- A bridge that does not fit is given up, and the guards do not read it. -/
theorem pending_false (h : c.pendingHiddenTriviaDeleteEdit.2 = false) :
    c.pendingHiddenTriviaDeleteEdit.1.ledger = c.ledger.unbridge ∧
      c.pendingHiddenTriviaDeleteEdit.1.cursor = c.cursor ∧
      c.pendingHiddenTriviaDeleteEdit.1.admitsDelete inp o = c.admitsDelete inp o := by
  revert h
  fun_cases pendingHiddenTriviaDeleteEdit c with
  | case1 | case2 | case3 => exact fun _ => ⟨rfl, rfl, rfl⟩
  | case4 => rintro ⟨⟩
  | case5 hother =>
    refine fun _ => ⟨?_, rfl, rfl⟩
    have hnone : bridgeStart c.deleteBridge = none := by
      unfold bridgeStart
      split
      next start stop hbridge => exact absurd hbridge (hother start stop)
      next => rfl
    unfold ledger Ledger.unbridge
    rw [hnone]

end RecoveryContext

/-! ### What a step asks for -/

/-- Both entry points of the skipper in use end at the same place, and go forward. -/
structure RecoveryOptions.Skips (o : RecoveryOptions) (Skippers : Set SkipFn) : Prop where
  mem : o.skip ∈ Skippers
  agrees : ∀ p, o.skip_without_builder p = (o.skip p).2
  forward : ∀ p, p ≤ (o.skip p).2

namespace RecoveryContext

/-- What the parser keeps to: a leaf it records is visible and holds the cursor, a
matched one begins there, and a node that is closed without a child was opened
behind the last visible leaf. -/
def Disciplined (c : RecoveryContext) : RecoveryOp → Prop
  | .leaf start stop _ hidden recovered =>
    hidden = false ∧ start ≤ c.cursor ∧ c.cursor ≤ stop ∧ (recovered = false → start = c.cursor)
  | .exit checkpoint _ => c.builder.frame.last = none → c.lastVisibleCursor ≤ checkpoint
  | _ => True

section Guards

variable (inp : RecoveryInput) (o : RecoveryOptions) (c : RecoveryContext)

/-- Whether a deletion is recorded. -/
def deletes : Bool :=
  o.trackEditState && c.cursor < inp.text.length &&
    (!c.hasPendingCommittedRecoveryEdits || (c.matching_committed_delete c.cursor).isSome) &&
    c.admitsDelete inp o && c.cursor < next_codepoint_cursor inp.text c.cursor

/-- Whether the last deletion is bridged. -/
def bridges : Bool :=
  o.trackEditState && !c.recoveryEdits.isEmpty && c.cursor < inp.text.length &&
    (!c.hasPendingCommittedRecoveryEdits || (c.matching_committed_delete c.cursor).isSome) &&
    !(c.recoveryEdits.getLast?.any fun lastEdit =>
      lastEdit.kind != .deleted || lastEdit.endOffset != c.cursor) &&
    c.cursor < o.skip_without_builder c.cursor &&
    !((c.matching_committed_delete c.cursor).any
      (·.endOffset < o.skip_without_builder c.cursor)) &&
    o.skip_without_builder c.cursor < inp.text.length

/-- Whether a replacement is recorded. -/
def replaces (stop : ℕ) (element : GrammarElement) (replacementCost : UInt32)
    (fuzzyOperationDistance : UInt32) : Bool :=
  o.trackEditState && c.cursor < stop && stop ≤ inp.text.length &&
    (!c.hasPendingCommittedRecoveryEdits ||
      c.matches_committed_replace inp c.cursor stop element) &&
    c.canEdit o &&
    !c.destructiveEditOutsideActiveWindow o
      (!c.singleEditFuzzyKeywordReplace inp o stop element fuzzyOperationDistance) &&
    c.canEditAtOffset o stop && c.canAffordEdit o replacementCost

/-- **What the accounting asks of a step**: text is matched, newly deleted or
replaced behind all deletions and replacements, and no comment is bridged. -/
def Lossless : RecoveryOp → Prop
  | .leaf start stop _ _ recovered => recovered = false → start < stop → c.ledger.Settled
  | .deleteOneCodepoint =>
    c.deletes inp o → c.pendingHiddenTriviaDeleteEdit.2 = false → c.ledger.Settled
  | .extendLastDeleteThroughHiddenTrivia =>
    c.bridges inp o → commentExtents (o.skip c.cursor).1 = []
  | .replaceLeaf stop element cost _ distance =>
    c.replaces inp o stop element cost distance → c.ledger.Settled
  | _ => True

end Guards

/-! ### One operation -/

section Operations

variable {Skippers : Set SkipFn} {inp : RecoveryInput} {o : RecoveryOptions}
variable {c c' : RecoveryContext}

/-- The accounting goes on: the ledger balances and loses no leaf. -/
structure Continues (Skippers : Set SkipFn) (c c' : RecoveryContext) : Prop where
  balanced : c'.ledger.Balanced Skippers
  leaves : c.ledger.leaves ⊆ c'.ledger.leaves

theorem Continues.of_eq (h : c.ledger.Balanced Skippers) (heq : c'.ledger = c.ledger) :
    Continues Skippers c c' :=
  ⟨heq ▸ h, heq ▸ List.Subset.refl _⟩

theorem Continues.of_unbridge (h : c.ledger.Balanced Skippers)
    (heq : c'.ledger = c.ledger.unbridge) : Continues Skippers c c' :=
  ⟨heq ▸ h.unbridge, heq ▸ List.Subset.refl _⟩

theorem continues_skip (h : c.ledger.Balanced Skippers) (hskips : o.Skips Skippers) :
    Continues Skippers c (c.skip inp o) where
  balanced := ledger_skip ▸ h.pass hskips.mem (hskips.forward _)
  leaves := ledger_skip ▸ List.subset_append_left _ _

theorem continues_leaf (h : c.ledger.Balanced Skippers) {start stop : ℕ} (element : GrammarElement)
    {hidden recovered : Bool}
    (hdisciplined : c.Disciplined (.leaf start stop element hidden recovered))
    (hlossless : c.Lossless inp o (.leaf start stop element hidden recovered)) :
    Continues Skippers c (c.leafFrom inp o start stop element hidden recovered) := by
  obtain ⟨rfl, hstart, hstop, hmatched⟩ := hdisciplined
  have hledger : (c.leafFrom inp o start stop element false recovered).ledger
      = c.ledger.take start stop recovered := ledger_leafFrom _ _ _ _ _
  refine ⟨hledger ▸ h.take hstart hstop fun hr => ⟨hmatched hr, hlossless hr⟩, ?_⟩
  exact hledger ▸ List.subset_append_left _ _

/-- A recorded insertion. -/
theorem continues_insert (h : c.ledger.Balanced Skippers) {entry : SyntaxScriptEntry}
    (hentry : entry.kind = .inserted) (replaying : Bool) :
    Continues Skippers c
      (c.clearPendingDeleteHiddenTriviaBridge.recordInsert o entry replaying) := by
  have hledger : (c.clearPendingDeleteHiddenTriviaBridge.recordInsert o entry replaying).ledger
      = c.ledger.insert entry := ledger_recordInsert entry replaying
  exact ⟨hledger ▸ h.insert hentry, hledger ▸ List.Subset.refl _⟩

theorem continues_insertSynthetic (h : c.ledger.Balanced Skippers)
    (element : Option GrammarElement) :
    Continues Skippers c (c.insertSynthetic inp o element).1 := by
  fun_cases insertSynthetic inp o c element with
  | case1 | case2 => exact .of_eq h rfl
  | case3 => exact .of_unbridge h rfl
  | case4 => exact continues_insert h rfl _

theorem continues_insertSyntheticGapAt (h : c.ledger.Balanced Skippers) (position : ℕ)
    (message : String) :
    Continues Skippers c (c.insertSyntheticGapAt inp o position message).1 := by
  fun_cases insertSyntheticGapAt inp o c position message with
  | case1 | case2 => exact .of_eq h rfl
  | case3 => exact .of_unbridge h rfl
  | case4 => exact continues_insert h rfl _

/-- After a deletion the skipper may go on. -/
theorem continues_passDeleted {stop : ℕ} (hleaves : c.ledger.leaves ⊆ c'.ledger.leaves)
    (h : Ledger.Balanced Skippers { c'.ledger with cursor := stop }) (hskips : o.Skips Skippers)
    (replaying : Bool) : Continues Skippers c (c'.passDeleted inp o stop replaying) := by
  have hledger := @ledger_passDeleted inp o c' stop replaying
  split at hledger
  · refine ⟨hledger ▸ h.pass hskips.mem (hskips.forward stop), ?_⟩
    exact hledger ▸ List.Subset.trans hleaves (List.subset_append_left _ _)
  · exact ⟨hledger ▸ h, hledger ▸ hleaves⟩

/-- An operation that passes its guards records. -/
theorem deletes_of_guards (htrack : ¬ (!o.trackEditState) = true)
    (hend : ¬ inp.text.length ≤ c.cursor)
    (hpending : ¬ (c.hasPendingCommittedRecoveryEdits &&
      (c.matching_committed_delete c.cursor).isNone) = true)
    (hadmits : c.admitsDelete inp o = true)
    (hgoes : ¬ next_codepoint_cursor inp.text c.cursor ≤ c.cursor) : c.deletes inp o = true := by
  rw [Nat.not_le] at hend hgoes
  cases hmatch : c.matching_committed_delete c.cursor <;> simp_all [deletes]

theorem bridges_of_guards
    (hready : ¬ (!o.trackEditState || c.recoveryEdits.isEmpty ||
      decide (inp.text.length ≤ c.cursor)) = true)
    (hpending : ¬ (c.hasPendingCommittedRecoveryEdits &&
      (c.matching_committed_delete c.cursor).isNone) = true)
    (hlast : ¬ (c.recoveryEdits.getLast?.any fun lastEdit =>
      lastEdit.kind != .deleted || lastEdit.endOffset != c.cursor) = true)
    (hgoes : ¬ (decide (o.skip_without_builder c.cursor ≤ c.cursor) ||
      (c.matching_committed_delete c.cursor).any (·.endOffset < o.skip_without_builder c.cursor) ||
      decide (inp.text.length ≤ o.skip_without_builder c.cursor)) = true) :
    c.bridges inp o = true := by
  rw [Bool.not_eq_true] at hlast
  cases hmatch : c.matching_committed_delete c.cursor <;> simp_all [bridges]

theorem replaces_of_guards {stop : ℕ} {element : GrammarElement} {cost distance : UInt32}
    (htrack : ¬ (!o.trackEditState) = true)
    (hfits : ¬ (decide (stop ≤ c.cursor) || decide (inp.text.length < stop)) = true)
    (hpending : ¬ (c.hasPendingCommittedRecoveryEdits &&
      !c.matches_committed_replace inp c.cursor stop element) = true)
    (hallowed : ¬ (!c.canEdit o ||
      c.destructiveEditOutsideActiveWindow o
        (!c.singleEditFuzzyKeywordReplace inp o stop element distance) ||
      !c.canEditAtOffset o stop || !c.canAffordEdit o cost) = true) :
    c.replaces inp o stop element cost distance = true := by
  cases hmatch : c.matches_committed_replace inp c.cursor stop element <;> simp_all [replaces]

/-- A deletion is merged over the bridge, or begins behind all the others. -/
theorem continues_deleteOneCodepoint (h : c.ledger.Balanced Skippers) (hb : c.Bridged)
    (hskips : o.Skips Skippers) (hlossless : c.Lossless inp o .deleteOneCodepoint) :
    Continues Skippers c (c.deleteOneCodepoint inp o).1 := by
  have hfalse := @pending_false inp o c
  have htrue := c.pending_spec
  have hrefused : Continues Skippers c
      c.pendingHiddenTriviaDeleteEdit.1.clearPendingDeleteHiddenTriviaBridge := by
    rcases hmerged : c.pendingHiddenTriviaDeleteEdit.2 with - | -
    · exact .of_unbridge h (congrArg Ledger.unbridge (hfalse hmerged).1)
    · rw [(htrue hmerged).1]
      exact .of_unbridge h rfl
  revert hlossless
  fun_cases deleteOneCodepoint inp o c with
  | case1 => exact fun _ => .of_eq h rfl
  | case2 | case3 => exact fun _ => .of_unbridge h rfl
  | case4 htrack hend committed hpending d merged hd =>
    rw [hd] at hrefused
    exact fun _ => hrefused
  | case5 htrack hend committed hpending d merged hd =>
    rw [hd] at hrefused
    exact fun _ => hrefused
  | case6 htrack hend committed hpending d merged hd hadmits deletedEnd hgoes recorded noted =>
    intro hlossless
    have hnew : c.deletes inp o = true → c.pendingHiddenTriviaDeleteEdit.2 = false →
        c.ledger.Settled := hlossless
    rw [hd] at hfalse htrue hnew
    dsimp only at hfalse htrue hnew
    have hledger : noted.ledger = (d.recordDelete merged deletedEnd).ledger :=
      ledger_eq (place_noteReplay _)
    rcases merged with - | -
    · -- a new entry: nothing reaches beyond the cursor
      obtain ⟨hunbridged, hcursor, hsame⟩ := hfalse rfl
      have hsettled : c.ledger.Settled := by
        refine hnew (deletes_of_guards htrack hend hpending ?_ (hcursor ▸ hgoes)) rfl
        rw [← hsame]
        simpa using hadmits
      let entry : SyntaxScriptEntry := ⟨.deleted, d.cursor, d.cursor, deletedEnd, none, ""⟩
      have hend : c.cursor < deletedEnd := hcursor ▸ Nat.not_le.mp hgoes
      have hnone : ∀ leaf ∈ ([] : List LeafExtent), ¬ leaf.Strict := List.forall_mem_nil _
      have herased := h.erase (e := entry) hsettled rfl hcursor hend hnone
      have hstep : Ledger.mk deletedEnd noted.ledger.leaves noted.ledger.edits noted.ledger.bridge
          = c.ledger.erase entry [] := by
        rw [hledger]
        show Ledger.mk deletedEnd d.ledger.leaves (d.ledger.edits ++ [entry]) d.ledger.bridge = _
        rw [hunbridged, Ledger.erase, List.append_nil]
        rfl
      refine continues_passDeleted ?_ (hstep ▸ herased) hskips _
      rw [hledger]
      show c.ledger.leaves ⊆ d.ledger.leaves
      exact hunbridged ▸ List.Subset.refl _
    · -- the last entry goes on over the bridge
      obtain ⟨hsame, lastEdit, hkind, hlast, hbridge⟩ := htrue rfl
      obtain rfl : d = c := hsame
      obtain ⟨front, hedits⟩ := List.getLast?_eq_some_iff.mp hlast
      have hextended := h.extend hedits hkind (by rw [ledger, hbridge]; rfl)
        (Nat.le_of_lt (hb _ _ hbridge)) (Nat.le_of_lt (Nat.not_le.mp hgoes))
      have hstep : Ledger.mk deletedEnd noted.ledger.leaves noted.ledger.edits noted.ledger.bridge
          = d.ledger.extend deletedEnd := by
        rw [hledger]
        rfl
      refine continues_passDeleted ?_ (hstep ▸ hextended) hskips _
      exact hledger ▸ List.Subset.refl _

/-- A bridge over a stretch without comments. -/
theorem continues_extendLastDelete (h : c.ledger.Balanced Skippers) (hskips : o.Skips Skippers)
    (hlossless : c.Lossless inp o .extendLastDeleteThroughHiddenTrivia) :
    Continues Skippers c (c.extendLastDeleteThroughHiddenTrivia inp o).1 := by
  revert hlossless
  fun_cases extendLastDeleteThroughHiddenTrivia inp o c with
  | case1 | case2 => exact fun _ => .of_eq h rfl
  | case3 | case4 => exact fun _ => .of_unbridge h rfl
  | case5 hready committed hpending cleared hlast hiddenEnd hgoes bridged =>
    intro hlossless
    have hsilent : commentExtents (o.skip c.cursor).1 = [] :=
      hlossless (bridges_of_guards hready hpending hlast hgoes)
    have hend : hiddenEnd = (o.skip c.cursor).2 := hskips.agrees c.cursor
    have hbalanced := h.bridgeTo hskips.mem (hskips.forward c.cursor) hsilent
    have hstep : bridged.ledger = c.ledger.bridgeTo hiddenEnd := ledger_eq place_refresh
    have hledger := (ledger_eq (place_ite (p := committed.isSome) (place_advance (c := bridged))
      rfl)).trans hstep
    exact ⟨hledger ▸ hend ▸ hbalanced, hledger ▸ List.Subset.refl _⟩

theorem continues_replaceLeaf (h : c.ledger.Balanced Skippers) (stop : ℕ)
    (element : GrammarElement) (replacementCost : UInt32) (hidden : Bool)
    (fuzzyOperationDistance : UInt32)
    (hlossless : c.Lossless inp o
      (.replaceLeaf stop element replacementCost hidden fuzzyOperationDistance)) :
    Continues Skippers c
      (c.replaceLeaf inp o stop element replacementCost hidden fuzzyOperationDistance).1 := by
  revert hlossless
  fun_cases replaceLeaf inp o c stop element replacementCost hidden fuzzyOperationDistance with
  | case1 => exact fun _ => .of_eq h rfl
  | case2 | case3 | case4 => exact fun _ => .of_unbridge h rfl
  | case5 htrack cleared hfits replaying hpending hallowed entry recorded consumed noted =>
    intro hlossless
    have hsettled : c.ledger.Settled :=
      hlossless (replaces_of_guards htrack hfits hpending hallowed)
    have hrecorded : noted.place = recorded.place :=
      (place_noteReplay _).trans (place_ite place_consume rfl)
    have hcursor : noted.cursor = c.cursor := congrArg (·.1) hrecorded
    have hledger : (noted.leaf inp o stop element hidden true).ledger
        = c.ledger.erase entry (leafExtent c.cursor stop hidden true) := by
      unfold leaf
      rw [ledger_leafFrom, ledger_eq hrecorded, hcursor]
      rfl
    have hfit : c.cursor < stop := by
      by_contra hno
      exact hfits (by simp [Nat.not_lt.mp hno, cleared, clearPendingDeleteHiddenTriviaBridge])
    have hrecovered : ∀ leaf ∈ leafExtent c.cursor stop hidden true, ¬ leaf.Strict := by
      intro leaf hleaf hstrict
      rw [Ledger.mem_leafExtent hleaf] at hstrict
      exact absurd hstrict.2 (by rintro ⟨⟩)
    have herased := h.erase (e := entry) hsettled rfl rfl hfit hrecovered
    exact ⟨hledger ▸ herased, hledger ▸ List.subset_append_left _ _⟩

/-- **One operation keeps the accounting.** -/
theorem continues_apply (h : c.ledger.Balanced Skippers) (hb : c.Bridged)
    {tb : TreeBuilder GrammarElement} (htree : c.builder = tb.toCstBuilder)
    (hskips : o.Skips Skippers) {op : RecoveryOp} (hdisciplined : c.Disciplined op)
    (hlossless : c.Lossless inp o op) : Continues Skippers c (c.apply inp o op) := by
  cases op with
  | skip => exact continues_skip h hskips
  | leaf start stop element hidden recovered =>
    exact continues_leaf h element hdisciplined hlossless
  | enter =>
    refine .of_eq h ?_
    show Ledger.mk _ (leafExtents c.builder.enter) _ _ = _
    rw [leafExtents_enter]
    rfl
  | exit checkpoint element =>
    have hplace : (c.exit o checkpoint element).place
        = (c.cursor, c.builder.exit checkpoint c.lastVisibleCursor element, c.recoveryEdits,
          c.deleteBridge) := by
      unfold exit
      dsimp only
      split
      · rfl
      · rfl
    refine .of_eq h ?_
    have hledger : (c.exit o checkpoint element).ledger
        = { c.ledger with
            leaves := leafExtents (c.builder.exit checkpoint c.lastVisibleCursor element) } :=
      ledger_eq (c := { c with
        toParseContext := c.toParseContext.exit checkpoint element }) hplace
    show (c.exit o checkpoint element).ledger = _
    rw [hledger, leafExtents_exit htree element hdisciplined]
    rfl
  | overrideGrammarElement id element =>
    refine .of_eq h ?_
    show Ledger.mk _ (leafExtents (c.builder.overrideGrammarElement id element)) _ _ = _
    rw [leafExtents_override]
    rfl
  | insertSynthetic element => exact continues_insertSynthetic h element
  | insertSyntheticGapAt position message => exact continues_insertSyntheticGapAt h position message
  | deleteOneCodepoint => exact continues_deleteOneCodepoint h hb hskips hlossless
  | extendLastDeleteThroughHiddenTrivia => exact continues_extendLastDelete h hskips hlossless
  | replaceLeaf stop element cost hidden distance =>
    exact continues_replaceLeaf h stop element cost hidden distance hlossless
  | clearFrontierBlock | blockFrontier | allowBudgetOverflowEdits | restoreMaxCursor
  | bumpMaxCursor | bumpFurthestFailureHistorySize | bumpFurthestFailureOffset =>
    exact .of_eq h rfl
  | finalizeRecoveryAtEof => exact .of_eq h (ledger_eq place_finalize)

end Operations

/-- Entries are added or grow at the end, so the first ones are there up to their ends. -/
theorem EditsGrow.take_grown {merged : Bool} {edits edits' : List SyntaxScriptEntry}
    (h : EditsGrow merged edits edits') {n : ℕ} (hn : n ≤ edits.length) :
    ∀ e ∈ edits.take n, ∃ e' ∈ edits'.take n, e.Grown e' := by
  cases h with
  | add _ new =>
    rw [List.take_append_of_le_length hn]
    exact fun e he => ⟨e, he, .refl e⟩
  | @merge front lastEdit stop hstop =>
    rcases Nat.lt_or_ge front.length n with hlt | hle
    · -- the mark counts the last entry
      have hall : ∀ e : SyntaxScriptEntry, (front ++ [e]).length ≤ n := by
        intro e
        rw [List.length_append]
        exact hlt
      rw [List.take_of_length_le (hall _), List.take_of_length_le (hall _)]
      intro e he
      rcases List.mem_append.mp he with he | he
      · exact ⟨e, List.mem_append_left _ he, .refl e⟩
      · refine ⟨_, List.mem_append_right _ (List.mem_singleton_self _), ?_⟩
        rw [List.mem_singleton.mp he]
        exact ⟨rfl, rfl, Nat.le_of_lt hstop⟩
    · rw [List.take_append_of_le_length hle, List.take_append_of_le_length hle]
      exact fun e he => ⟨e, he, .refl e⟩

end RecoveryContext

namespace RecoverySession

variable {Skippers : Set SkipFn} {inp : RecoveryInput} {s s' : RecoverySession}

/-- What the parser keeps to in a call. -/
def Disciplined (Skippers : Set SkipFn) (s : RecoverySession) : RecoveryCall → Prop
  | .run o op => o.Skips Skippers ∧ s.context.Disciplined op
  | _ => True

/-- What the accounting asks of a call. -/
def Lossless (inp : RecoveryInput) (s : RecoverySession) : RecoveryCall → Prop
  | .run o op => s.context.Lossless inp o op
  | _ => True

/-- What a live mark can rely on to account for the text. -/
structure Relies (Skippers : Set SkipFn) (c : RecoveryContext) (m : RecoveryMark) : Prop where
  kept : m.taken.ledger.Kept Skippers
  leaves : m.taken.ledger.leaves ⊆ c.ledger.leaves
  edits : ∀ e ∈ m.taken.recoveryEdits,
    ∃ e' ∈ c.recoveryEdits.take m.taken.recoveryEdits.length, e.Grown e'

/-- **The invariant of the accounting.** -/
structure Balances (Skippers : Set SkipFn) (s : RecoverySession) : Prop where
  tracks : s.Tracks
  balanced : s.context.ledger.Balanced Skippers
  relies : ∀ m ∈ s.marks, Relies Skippers s.context m
  nested : s.marks.Pairwise fun young old => old.taken.ledger.leaves ⊆ young.taken.ledger.leaves

theorem Balances.run (h : s.Balances Skippers) {o : RecoveryOptions} {op : RecoveryOp}
    (hdisciplined : s.Disciplined Skippers (.run o op)) (hlossless : s.Lossless inp (.run o op)) :
    Balances Skippers
      { context := s.context.apply inp o op
        marks := (s.marks.filter (·.outlives s.context op)).map
          (·.note s.context (s.context.merges inp o op)) } := by
  obtain ⟨hgrows, -⟩ := @RecoveryContext.apply_spec inp o _ h.tracks.configured h.tracks.bridged op
  obtain ⟨tb, hb, -⟩ := h.tracks.nested
  have hnext := RecoveryContext.continues_apply h.balanced h.tracks.bridged hb hdisciplined.1
    hdisciplined.2 hlossless
  refine ⟨h.tracks.run o op, hnext.balanced, ?_, List.pairwise_map.mpr (h.nested.filter _)⟩
  intro m hm
  obtain ⟨m₀, hm₀, rfl⟩ := List.mem_map.mp hm
  have hmem := (List.mem_filter.mp hm₀).1
  have hrelies := h.relies m₀ hmem
  refine ⟨hrelies.kept, List.Subset.trans hrelies.leaves hnext.leaves, fun e he => ?_⟩
  obtain ⟨e', he', hgrown⟩ := hrelies.edits e he
  obtain ⟨e'', he'', hgrown'⟩ :=
    hgrows.edits.take_grown (h.tracks.keeps m₀ hmem).edits.length e' he'
  exact ⟨e'', he'', hgrown.trans hgrown'⟩

theorem Balances.mark (h : s.Balances Skippers) :
    Balances Skippers { s with marks := ⟨s.context.mark, s.context, false⟩ :: s.marks } := by
  refine ⟨h.tracks.mark, h.balanced, ?_, ?_⟩
  · rintro m (- | ⟨-, hm⟩)
    · refine ⟨h.balanced.toKept, List.Subset.refl _, fun e he => ⟨e, ?_, .refl e⟩⟩
      exact List.take_length.symm ▸ he
    · exact h.relies m hm
  · exact List.pairwise_cons.mpr ⟨fun m hm => (h.relies m hm).leaves, h.nested⟩

theorem Balances.rewind (h : s.Balances Skippers) {k : ℕ} {m : RecoveryMark}
    (hk : s.marks[k]? = some m) :
    Balances Skippers ⟨s.context.rewind m.checkpoint, s.marks.drop k⟩ := by
  have hmem : m ∈ s.marks := List.mem_of_getElem? hk
  have hrelies := h.relies m hmem
  have hrestored := (h.tracks.keeps m hmem).forgetFurthest_rewind (h.tracks.rewind_builder hk)
  have hledger : (s.context.rewind m.checkpoint).ledger
      = s.context.ledger.rewind m.taken.ledger := congrArg (·.ledger) hrestored
  have hedits : (s.context.rewind m.checkpoint).recoveryEdits
      = s.context.recoveryEdits.take m.taken.recoveryEdits.length := congrArg (·.edits) hledger
  have hdrop : s.marks.drop k = m :: s.marks.drop (k + 1) := by
    obtain ⟨hlt, rfl⟩ := List.getElem?_eq_some_iff.mp hk
    exact List.drop_eq_getElem_cons hlt
  have hnested := h.nested.drop (i := k)
  have hordered := h.tracks.ordered.drop (i := k)
  refine ⟨h.tracks.rewind hk, ?_, ?_, hnested⟩
  · exact hledger ▸ h.balanced.rewind hrelies.kept hrelies.leaves hrelies.edits
  · intro old hold
    have hrelies' := h.relies old (List.mem_of_mem_drop hold)
    -- an older mark counts fewer entries and fewer leaves
    have holder : old.taken.ledger.leaves ⊆ m.taken.ledger.leaves ∧
        old.taken.recoveryEdits.length ≤ m.taken.recoveryEdits.length := by
      rw [hdrop] at hold hnested hordered
      rcases List.mem_cons.mp hold with rfl | hold
      · exact ⟨List.Subset.refl _, Nat.le_refl _⟩
      · exact ⟨(List.pairwise_cons.mp hnested).1 old hold,
          ((List.pairwise_cons.mp hordered).1 old hold).1⟩
    refine ⟨hrelies'.kept, hledger ▸ holder.1, ?_⟩
    rw [hedits, List.take_take, Nat.min_eq_left holder.2]
    exact hrelies'.edits

theorem Balances.call (h : s.Balances Skippers) {e : RecoveryCall}
    (hdisciplined : s.Disciplined Skippers e) (hlossless : s.Lossless inp e)
    (hs : s.call inp e = some s') : s'.Balances Skippers := by
  cases e with
  | run o op =>
    simp only [RecoverySession.call, Option.ite_none_right_eq_some, Option.some.injEq] at hs
    obtain ⟨-, rfl⟩ := hs
    exact h.run hdisciplined hlossless
  | mark =>
    cases hs
    exact h.mark
  | rewind k =>
    simp only [RecoverySession.call] at hs
    split at hs
    next m hk =>
      cases hs
      exact h.rewind hk
    next => cases hs

/-- Before the parse there is nothing to account for. -/
theorem ledger_of_fresh {c : RecoveryContext} (h : c.Fresh) : c.ledger = ⟨0, [], [], none⟩ := by
  induction h with
  | initial => rfl
  | setEditWindow window h ih =>
    simp only [RecoveryContext.ledger, Ledger.mk.injEq] at ih ⊢
    exact ⟨ih.1, ih.2.1, ih.2.2.1, rfl⟩
  | setCommittedRecoveryPrefix edits resumeFloor h ih => exact ih

theorem balances_of_fresh {c : RecoveryContext} (h : c.Fresh) : Balances Skippers ⟨c, []⟩ where
  tracks := tracks_of_fresh h
  balanced := by
    show c.ledger.Balanced Skippers
    rw [ledger_of_fresh h]
    exact ⟨⟨.zero, nofun, nofun⟩, .nil, nofun⟩
  relies _ hm := absurd hm List.not_mem_nil
  nested := .nil

/-- **Recovery accounts for the whole text**: in every session whose steps are
lossless, the deleted and replaced ranges follow one another, no matched leaf is
deleted, and every byte before the cursor is in a visible leaf, in an edit, or in
a stretch of the skipper whose comments are recorded or deleted. -/
theorem accounts_of_reaches {c : RecoveryContext} (h : c.Fresh)
    (hs : (recoveryMachine inp).Reaches
      (fun s e => s.Disciplined Skippers e ∧ s.Lossless inp e) ⟨c, []⟩ s) :
    s.context.ledger.Accounts Skippers :=
  (hs.invariant (balances_of_fresh h) fun _ _ _ hbalances hallowed hcall =>
    hbalances.call hallowed.1 hallowed.2 hcall).balanced.accounts

/-! ### Runs that account for their text, and runs that do not -/

theorem scanOptions_skips : scanOptions.Skips {scanOptions.skip} where
  mem := rfl
  agrees _ := rfl
  forward p := by
    show p ≤ if byteAt blankInput.text p == 32 then p + 1 else p
    split
    · exact Nat.le_succ p
    · exact Nat.le_refl p

/-- A deletion goes on over a blank, and the context is rewound to before it. -/
theorem accounts_of_reaches_scan : ∃ s : RecoverySession,
    (recoveryMachine blankInput).run ⟨.initial, []⟩ (scanCalls ++ [.rewind 0]) = some s ∧
      s.context.ledger.Accounts {scanOptions.skip} := by
  have hrun : ((recoveryMachine blankInput).run ⟨.initial, []⟩
      (scanCalls ++ [.rewind 0])).isSome := by decide +kernel
  obtain ⟨s, hs⟩ := Option.isSome_iff_exists.mp hrun
  refine ⟨s, hs, accounts_of_reaches .initial (Machine.reaches_of_run hs ?_)⟩
  -- the second deletion is merged; nothing else is recorded after the first
  have hmerged : ((recoveryMachine blankInput).run ⟨.initial, []⟩
      [.run scanOptions .deleteOneCodepoint,
        .run scanOptions .extendLastDeleteThroughHiddenTrivia, .mark]).map
      (·.context.pendingHiddenTriviaDeleteEdit.2) = some true := by decide +kernel
  refine ⟨⟨⟨scanOptions_skips, trivial⟩, fun _ _ => nofun⟩, fun s₁ h₁ =>
    ⟨⟨⟨scanOptions_skips, trivial⟩, fun _ => rfl⟩, fun s₂ h₂ =>
    ⟨⟨trivial, trivial⟩, fun s₃ h₃ =>
    ⟨⟨⟨scanOptions_skips, trivial⟩, fun _ hpending => ?_⟩, fun s₄ _ =>
    ⟨⟨trivial, trivial⟩, fun _ _ => trivial⟩⟩⟩⟩⟩
  simp only [Machine.run, h₁, h₂, h₃, Option.bind_some, Option.map_some, Option.some.injEq,
    hpending] at hmerged
  cases hmerged

/-- A text with a comment between two letters. -/
def commentInput : RecoveryInput := ⟨"a#b".toUTF8.toList, fun _ => none⟩

/-- The skipper records the comment. -/
def commentOptions : RecoveryOptions where
  skip p :=
    if byteAt commentInput.text p == 35 then ([(.terminalRule 0, p, p + 1)], p + 1) else ([], p)
  skip_without_builder p := if byteAt commentInput.text p == 35 then p + 1 else p
  skipAfterDelete := false

/-- Delete `a`, bridge the comment, and match `b`. -/
def bridgeCalls : List RecoveryCall :=
  [.run commentOptions .deleteOneCodepoint,
    .run commentOptions .extendLastDeleteThroughHiddenTrivia,
    .run commentOptions (.leaf 2 3 (.terminalRule 1) false false)]

/-- Delete `a`, go on over the blank, mark, delete `b`, go back and match `b`. -/
def overlapCalls : List RecoveryCall :=
  scanCalls ++ [.rewind 0, .run scanOptions (.leaf 2 3 (.terminalRule 0) false false)]

theorem commentOptions_skips : commentOptions.Skips {commentOptions.skip} where
  mem := rfl
  agrees p := by
    show (if byteAt commentInput.text p == 35 then p + 1 else p) = (ite _ _ _ : _ × ℕ).2
    split
    · rfl
    · rfl
  forward p := by
    show p ≤ (ite _ _ _ : _ × ℕ).2
    split
    · exact Nat.le_succ p
    · exact Nat.le_refl p

/-- The comment is in no leaf and in no edit after the bridge. -/
theorem not_covers_bridged :
    ¬ Ledger.Covers {commentOptions.skip}
      ⟨3, [⟨⟨2, 3⟩, false, false⟩], [⟨.deleted, 0, 0, 1, none, ""⟩], none⟩ 1 := by
  rintro (⟨leaf, hleaf, -, hin⟩ | ⟨e, he, -, hin⟩ | ⟨skip, rfl, start, -, hstart, hstop, hkeeps⟩)
  · rw [List.mem_singleton.mp hleaf] at hin
    exact absurd hin.1 (by decide)
  · rw [List.mem_singleton.mp he] at hin
    exact absurd hin.2 (by decide)
  · -- only the stretch of the comment itself holds the byte
    obtain rfl | rfl : start = 0 ∨ start = 1 := by omega
    · exact absurd hstop (by decide +kernel)
    · rcases hkeeps (.terminalRule 0, 1, 2) (by decide +kernel) (by decide) with
        ⟨leaf, hleaf, hhidden, -⟩ | ⟨e, he, -, -, hstop⟩
      · rw [List.mem_singleton.mp hleaf] at hhidden
        cases hhidden
      · rw [List.mem_singleton.mp he] at hstop
        exact absurd hstop (by decide)

/-- **A bridged comment is lost, and a rewound deletion still takes its text.** -/
theorem not_accounts :
    (¬ ∀ (inp : RecoveryInput) (Skippers : Set SkipFn) (c : RecoveryContext) (s : RecoverySession),
      c.Fresh → (recoveryMachine inp).Reaches (fun s e => s.Disciplined Skippers e) ⟨c, []⟩ s →
        ∀ p < s.context.cursor, s.context.ledger.Covers Skippers p) ∧
    ¬ ∀ (inp : RecoveryInput) (Skippers : Set SkipFn) (c : RecoveryContext) (s : RecoverySession),
      c.Fresh → (recoveryMachine inp).Reaches (fun s e => s.Disciplined Skippers e) ⟨c, []⟩ s →
        ∀ leaf ∈ s.context.ledger.leaves, leaf.Strict → ∀ e ∈ s.context.recoveryEdits,
          e.kind = .deleted → leaf.toHalfOpenInterval.Apart e.range := by
  constructor
  · intro h
    have hledger : ((recoveryMachine commentInput).run ⟨.initial, []⟩ bridgeCalls).map
        (·.context.ledger) = some
          ⟨3, [⟨⟨2, 3⟩, false, false⟩], [⟨.deleted, 0, 0, 1, none, ""⟩], none⟩ := by
      decide +kernel
    obtain ⟨s, hs, hledger⟩ := Option.map_eq_some_iff.mp hledger
    have hcovers := h commentInput {commentOptions.skip} .initial s .initial
      (Machine.reaches_of_run hs ?_) 1 ?_
    · rw [hledger] at hcovers
      exact not_covers_bridged hcovers
    · refine ⟨⟨commentOptions_skips, trivial⟩, fun s₁ h₁ => ⟨⟨commentOptions_skips, trivial⟩,
        fun s₂ h₂ => ⟨⟨commentOptions_skips, rfl, ?_⟩, fun _ _ => trivial⟩⟩⟩
      have hcursor : ((recoveryMachine commentInput).run ⟨.initial, []⟩
          [.run commentOptions .deleteOneCodepoint,
            .run commentOptions .extendLastDeleteThroughHiddenTrivia]).map
          (·.context.cursor) = some 2 := by decide +kernel
      simp only [Machine.run, h₁, h₂, Option.bind_some, Option.map_some,
        Option.some.injEq] at hcursor
      rw [hcursor]
      exact ⟨by decide, by decide, fun _ => rfl⟩
    · rw [show s.context.cursor = s.context.ledger.cursor from rfl, hledger]
      decide
  · intro h
    have hledger : ((recoveryMachine blankInput).run ⟨.initial, []⟩ overlapCalls).map
        (·.context.ledger) = some
          ⟨3, [⟨⟨2, 3⟩, false, false⟩], [⟨.deleted, 0, 0, 3, none, ""⟩], none⟩ := by
      decide +kernel
    obtain ⟨s, hs, hledger⟩ := Option.map_eq_some_iff.mp hledger
    have hedits : s.context.recoveryEdits = [⟨.deleted, 0, 0, 3, none, ""⟩] :=
      congrArg (·.edits) hledger
    have hapart := h blankInput {scanOptions.skip} .initial s .initial
      (Machine.reaches_of_run hs ?_)
    · rw [hledger, hedits] at hapart
      refine hapart _ (List.mem_singleton_self _) ⟨rfl, rfl⟩ _ (List.mem_singleton_self _) rfl 2
        ⟨by decide, by decide⟩ ⟨by decide, by decide⟩
    · refine ⟨⟨scanOptions_skips, trivial⟩, fun s₁ h₁ => ⟨⟨scanOptions_skips, trivial⟩,
        fun s₂ h₂ => ⟨trivial, fun s₃ h₃ => ⟨⟨scanOptions_skips, trivial⟩, fun s₄ h₄ =>
        ⟨trivial, fun s₅ h₅ => ⟨⟨scanOptions_skips, rfl, ?_⟩, fun _ _ => trivial⟩⟩⟩⟩⟩⟩
      have hcursor : ((recoveryMachine blankInput).run ⟨.initial, []⟩
          (scanCalls ++ [.rewind 0])).map (·.context.cursor) = some 2 := by decide +kernel
      simp only [scanCalls, List.cons_append, List.nil_append, Machine.run, h₁, h₂, h₃, h₄, h₅,
        Option.bind_some, Option.map_some, Option.some.injEq] at hcursor
      rw [hcursor]
      exact ⟨by decide, by decide, fun _ => rfl⟩

end RecoverySession

end Pegium
