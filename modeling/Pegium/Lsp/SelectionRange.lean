/-
Pegium/Lsp/SelectionRange.lean

The selection ranges around an offset.

The innermost range is the word under the cursor, which is read off the text.  The
others are the nodes of the CST on the way down to the offset: on every level the first
visible node whose range holds the offset, both ends included.  A range that repeats
the one before it is left out.

Under the span law the nodes lie inside one another.  The word need not lie inside the
node where the way ends: after `+`, in `+x`, the way ends at the operator, while the
word is the `x`.  `selection_chain_nests_iff` says that this is all that can go wrong.
-/
import Mathlib.Data.List.Chain
import Pegium.Lsp.LspProviderUtils
import Pegium.SyntaxTree.CstUtils
import Pegium.Workspace.TextPositions

namespace Pegium

variable {G : Type*}

/-! ### The source -/

/-- A stretch of the text to select. -/
structure SelectionRangeSegment where
  begin : ℕ
  «end» : ℕ
  deriving DecidableEq

/-- A stretch that is the last one again is left out. -/
def append_if_distinct (chain : List SelectionRangeSegment) (range : SelectionRangeSegment) :
    List SelectionRangeSegment :=
  if chain.getLast? = some range then chain else chain ++ [range]

/-- The stretch of a node. -/
def CstItem.segment (node : CstItem G) : SelectionRangeSegment := ⟨node.begin, node.end⟩

/-- The stretch of a token. -/
def TokenSpan.segment (token : TokenSpan) : SelectionRangeSegment := ⟨token.begin, token.end⟩

/-- `collect_node_chain_for_offset`, tried on siblings until one is collected: a visible
one that holds the offset, behind what is collected below it. -/
def collect_node_chain (offset : ℕ) :
    Forest (CstItem G) → List SelectionRangeSegment → Option (List SelectionRangeSegment)
  | .nil, _ => none
  | .cons node below rest, chain =>
    if node.isHidden || (offset < node.begin || node.end < offset) then
      collect_node_chain offset rest chain
    else
      some (append_if_distinct ((collect_node_chain offset below chain).getD chain) node.segment)

/-- The chain of `compute_selection_range` over the top-level nodes of a CST. -/
def selection_chain (text : List UInt8) (roots : Forest (CstItem G)) (offset : ℕ) :
    List SelectionRangeSegment :=
  let token := token_at text offset
  let chain := if token.text ≠ [] then append_if_distinct [] token.segment else []
  (collect_node_chain offset roots chain).getD chain

/-- The range of a stretch. -/
def SelectionRangeSegment.range (text : List UInt8) (segment : SelectionRangeSegment) :
    TextRange :=
  ⟨positionAt text segment.begin, positionAt text segment.end⟩

/-- The range returned and its parents, innermost first.  A document that has not been
parsed has no CST. -/
def compute_selection_range (text : List UInt8) (cst : Option (RootCstNode G)) (offset : ℕ) :
    List TextRange :=
  let chain := selection_chain text ((cst.bind RootCstNode.read).getD .nil) offset
  if chain = [] then [⟨positionAt text offset, positionAt text offset⟩]
  else chain.map (SelectionRangeSegment.range text)

/-! ### Nested ranges -/

/-- The parent contains the child. -/
def SelectionRangeSegment.Holds (child parent : SelectionRangeSegment) : Prop :=
  parent.begin ≤ child.begin ∧ child.end ≤ parent.end

/-- Each range lies in the next one and differs from it. -/
def NestedSegments (chain : List SelectionRangeSegment) : Prop :=
  chain.IsChain fun child parent => child.Holds parent ∧ child ≠ parent

variable {chain : List SelectionRangeSegment} {first s : SelectionRangeSegment}
  {segments : List SelectionRangeSegment}

theorem append_if_distinct_grows (chain : List SelectionRangeSegment)
    (s : SelectionRangeSegment) : chain <+: append_if_distinct chain s := by
  rw [append_if_distinct]
  split
  · exact List.prefix_refl chain
  · exact List.prefix_append chain [s]

theorem getLast?_append_if_distinct (chain : List SelectionRangeSegment)
    (s : SelectionRangeSegment) : (append_if_distinct chain s).getLast? = some s := by
  rw [append_if_distinct]
  split
  next h => exact h
  next => rw [List.getLast?_append_of_ne_nil _ (List.cons_ne_nil s []), List.getLast?_singleton]

theorem foldl_append_if_distinct_grows (segments chain : List SelectionRangeSegment) :
    chain <+: segments.foldl append_if_distinct chain := by
  induction segments generalizing chain with
  | nil => exact List.prefix_refl chain
  | cons s segments ih => exact (append_if_distinct_grows chain s).trans (ih _)

/-- A range that contains the last one is added. -/
theorem NestedSegments.append_if_distinct (h : NestedSegments chain)
    (hlast : ∀ last ∈ chain.getLast?, last.Holds s) :
    NestedSegments (append_if_distinct chain s) := by
  rw [Pegium.append_if_distinct]
  split
  · exact h
  next hdistinct =>
    refine List.IsChain.append h (List.isChain_singleton s) ?_
    intro last hmem s' hs'
    obtain rfl : s = s' := Option.some.inj hs'
    refine ⟨hlast last hmem, ?_⟩
    rintro rfl
    exact hdistinct hmem

/-- Ranges that lie inside one another, behind a chain that the first of them contains. -/
theorem NestedSegments.foldl (h : NestedSegments chain)
    (hsegments : segments.IsChain SelectionRangeSegment.Holds)
    (hlast : ∀ last ∈ chain.getLast?, ∀ s ∈ segments.head?, last.Holds s) :
    NestedSegments (segments.foldl Pegium.append_if_distinct chain) := by
  induction segments generalizing chain with
  | nil => exact h
  | cons s segments ih =>
    apply ih (h.append_if_distinct fun last hmem => hlast last hmem s rfl) hsegments.tail
    intro last hmem s' hs'
    rw [getLast?_append_if_distinct] at hmem
    obtain rfl : s = last := Option.some.inj hmem
    cases segments with
    | nil => cases hs'
    | cons s'' segments =>
      obtain rfl : s'' = s' := Option.some.inj hs'
      exact (List.isChain_cons_cons.mp hsegments).1

/-- The first range behind a chain of one range contains it. -/
theorem holds_of_nested_foldl
    (h : NestedSegments ((s :: segments).foldl append_if_distinct [first])) : first.Holds s := by
  have hprefix := foldl_append_if_distinct_grows segments (append_if_distinct [first] s)
  rw [List.foldl_cons] at h
  obtain ⟨more, hmore⟩ := hprefix
  rw [← hmore, append_if_distinct] at h
  split at h
  next heq =>
    obtain rfl : first = s := Option.some.inj heq
    exact ⟨Nat.le_refl _, Nat.le_refl _⟩
  next => exact (List.isChain_cons_cons.mp h).1.1

/-! ### The way down -/

/-- A visible node whose range holds the offset, both ends included. -/
def CstItem.TakenAt (offset : ℕ) (node : CstItem G) : Prop :=
  node.isHidden = false ∧ node.begin ≤ offset ∧ offset ≤ node.end

instance (offset : ℕ) (node : CstItem G) : Decidable (node.TakenAt offset) :=
  inferInstanceAs (Decidable (_ ∧ _))

/-- A node on the way down to the offset: the node and those above it are visible and
hold the offset, and no sibling before one of them does. -/
def OnTheWay (offset : ℕ) (roots : Forest (CstItem G)) (node : CstItem G) : Prop :=
  ∃ above earlier below, roots.Leads above earlier node below ∧ node.TakenAt offset ∧
    (∀ item ∈ above, item.TakenAt offset) ∧ ∀ item ∈ earlier, ¬ item.TakenAt offset

/-- The nodes on the way, innermost first. -/
def wayTo (offset : ℕ) : Forest (CstItem G) → List (CstItem G)
  | .nil => []
  | .cons node below rest =>
    if node.TakenAt offset then wayTo offset below ++ [node] else wayTo offset rest

variable {offset : ℕ} {f : Forest (CstItem G)} {node item : CstItem G}

theorem not_takenAt_iff :
    ¬ node.TakenAt offset ↔
      (node.isHidden || (decide (offset < node.begin) || decide (node.end < offset))) = true := by
  rw [CstItem.TakenAt, Bool.or_eq_true, Bool.or_eq_true, decide_eq_true_eq, decide_eq_true_eq,
    not_and_or, not_and_or, Bool.not_eq_false, Nat.not_le, Nat.not_le]

/-- **The ranges of the nodes on the way are collected.** -/
theorem collect_node_chain_eq (f : Forest (CstItem G)) (chain : List SelectionRangeSegment) :
    collect_node_chain offset f chain =
      if wayTo offset f = [] then none
      else some (((wayTo offset f).map CstItem.segment).foldl append_if_distinct chain) := by
  induction f generalizing chain with
  | nil => rfl
  | cons node below rest ihbelow ihrest =>
    rw [collect_node_chain, wayTo]
    by_cases htaken : node.TakenAt offset
    · rw [if_neg (not_takenAt_iff.not_right.mp htaken), if_pos htaken,
        if_neg (List.append_ne_nil_of_right_ne_nil _ (List.cons_ne_nil _ _)), ihbelow,
        List.map_append, List.foldl_append]
      split
      next hnil => rw [hnil]; rfl
      next => rfl
    · rw [if_pos (not_takenAt_iff.mp htaken), if_neg htaken, ihrest]

theorem selection_chain_eq (text : List UInt8) (f : Forest (CstItem G)) (offset : ℕ) :
    selection_chain text f offset =
      ((wayTo offset f).map CstItem.segment).foldl append_if_distinct
        (if (token_at text offset).text ≠ [] then [(token_at text offset).segment] else []) := by
  rw [selection_chain, collect_node_chain_eq]
  split
  next hnil =>
    rw [hnil]
    rfl
  next => rfl

theorem mem_wayTo : item ∈ wayTo offset f ↔ OnTheWay offset f item := by
  induction f with
  | nil =>
    constructor
    · exact fun h => absurd h List.not_mem_nil
    · rintro ⟨_, _, _, hleads, -⟩
      cases hleads
  | cons node below rest ihbelow ihrest =>
    rw [wayTo]
    split
    next htaken =>
      rw [List.mem_append, List.mem_singleton, ihbelow]
      constructor
      · rintro (⟨above, earlier, c, hleads, hitem, habove, hearlier⟩ | rfl)
        · exact ⟨node :: above, earlier, c, .down node rest hleads, hitem,
            List.forall_mem_cons.mpr ⟨htaken, habove⟩, hearlier⟩
        · exact ⟨[], [], below, .here _ _ _, htaken, List.forall_mem_nil _, List.forall_mem_nil _⟩
      · rintro ⟨above, earlier, c, hleads, hitem, habove, hearlier⟩
        cases hleads with
        | here => exact .inr rfl
        | down _ _ hdown =>
          exact .inl ⟨_, _, _, hdown, hitem, (List.forall_mem_cons.mp habove).2, hearlier⟩
        | next _ _ hnext => exact absurd htaken (hearlier node List.mem_cons_self)
    next hskip =>
      rw [ihrest]
      constructor
      · rintro ⟨above, earlier, c, hleads, hitem, habove, hearlier⟩
        exact ⟨above, node :: earlier, c, .next node below hleads, hitem, habove,
          List.forall_mem_cons.mpr ⟨hskip, hearlier⟩⟩
      · rintro ⟨above, earlier, c, hleads, hitem, habove, hearlier⟩
        cases hleads with
        | here => exact absurd hitem hskip
        | down _ _ hdown => exact absurd (habove node List.mem_cons_self) hskip
        | next _ _ hnext =>
          exact ⟨_, _, _, hnext, hitem, habove, (List.forall_mem_cons.mp hearlier).2⟩

/-- The way begins at a root. -/
theorem getLast?_wayTo (h : item ∈ (wayTo offset f).getLast?) :
    item ∈ f.roots ∧ item.isHidden = false := by
  induction f with
  | nil => cases h
  | cons node below rest _ ihrest =>
    rw [wayTo] at h
    split at h
    next htaken =>
      rw [List.getLast?_append_of_ne_nil _ (List.cons_ne_nil node [])] at h
      obtain rfl : node = item := Option.some.inj h
      exact ⟨List.mem_cons_self, htaken.1⟩
    next => exact ⟨List.mem_cons_of_mem _ (ihrest h).1, (ihrest h).2⟩

/-- **Under the span law the nodes on the way lie inside one another.** -/
theorem isChain_wayTo (h : f.Nested fun a b => a.extent.Inside b.extent) :
    ((wayTo offset f).map CstItem.segment).IsChain SelectionRangeSegment.Holds := by
  induction f with
  | nil => exact List.IsChain.nil
  | cons node below rest ihbelow ihrest =>
    obtain ⟨hroots, hbelow, hrest⟩ := h
    rw [wayTo]
    split
    · rw [List.map_append]
      refine List.IsChain.append (ihbelow hbelow) (List.isChain_singleton _) ?_
      intro last hlast parent hparent
      obtain rfl : node.segment = parent := Option.some.inj hparent
      rw [List.getLast?_map] at hlast
      obtain ⟨child, hchild, rfl⟩ := Option.map_eq_some_iff.mp hlast
      obtain ⟨hroot, hvisible⟩ := getLast?_wayTo hchild
      exact hroots child hroot hvisible
    · exact ihrest hrest

/-- What the innermost node contains, every node on the way contains. -/
theorem holds_of_isChain {child s : SelectionRangeSegment}
    (h : (s :: segments).IsChain SelectionRangeSegment.Holds) (hs : child.Holds s) :
    ∀ parent ∈ s :: segments, child.Holds parent := by
  induction segments generalizing s with
  | nil =>
    intro parent hparent
    rwa [List.mem_singleton.mp hparent]
  | cons s' segments ih =>
    obtain ⟨hfirst, hrest⟩ := List.isChain_cons_cons.mp h
    have hnext : child.Holds s' :=
      ⟨Nat.le_trans hfirst.1 hs.1, Nat.le_trans hs.2 hfirst.2⟩
    exact List.forall_mem_cons.mpr ⟨hs, ih hrest hnext⟩

/-! ### The chain -/

/-- When there is a word at the offset, every node on the way contains it. -/
def WordInside (text : List UInt8) (roots : Forest (CstItem G)) (offset : ℕ) : Prop :=
  (token_at text offset).text ≠ [] → ∀ node, OnTheWay offset roots node →
    (token_at text offset).segment.Holds node.segment

/-- **The chain of ranges nests exactly when the nodes on the way contain the word at
the offset**, and the word is the innermost range in any case. -/
theorem selection_chain_nests_iff {text : List UInt8}
    (hlaw : SpanLaw text (f.map CstItem.extent)) :
    (NestedSegments (selection_chain text f offset) ↔ WordInside text f offset) ∧
      ((token_at text offset).text ≠ [] →
        (selection_chain text f offset).head? = some (token_at text offset).segment) := by
  have hchain := @isChain_wayTo G offset f ((Forest.nested_map CstItem.extent f).mp hlaw.nested)
  have hway : ∀ s, s ∈ (wayTo offset f).map CstItem.segment ↔
      ∃ node, OnTheWay offset f node ∧ node.segment = s := by
    intro s
    simp only [List.mem_map, mem_wayTo]
  rw [selection_chain_eq]
  generalize (wayTo offset f).map CstItem.segment = segments at hchain hway ⊢
  split
  next hword =>
    constructor
    · constructor
      · intro h _ node hnode
        cases segments with
        | nil => exact absurd ((hway _).mpr ⟨node, hnode, rfl⟩) List.not_mem_nil
        | cons s segments =>
          have hmem := (hway node.segment).mpr ⟨node, hnode, rfl⟩
          exact holds_of_isChain hchain (holds_of_nested_foldl h) _ hmem
      · intro h
        refine NestedSegments.foldl (List.isChain_singleton _) hchain ?_
        intro last hlast s hs
        obtain rfl : (token_at text offset).segment = last := Option.some.inj hlast
        obtain ⟨node, hnode, rfl⟩ := (hway s).mp (List.mem_of_head? hs)
        exact h hword node hnode
    · intro _
      obtain ⟨more, hmore⟩ :=
        foldl_append_if_distinct_grows segments [(token_at text offset).segment]
      rw [← hmore]
      rfl
  next hword =>
    refine ⟨⟨fun _ hne => absurd hne hword, fun _ => ?_⟩, fun hne => absurd hne hword⟩
    refine NestedSegments.foldl List.IsChain.nil hchain ?_
    exact fun _ hlast => absurd hlast (Option.not_mem_none _)

/-! ### Positions -/

/-- The parent contains the child: it starts no later and stops no earlier. -/
def TextRange.Contains (parent child : TextRange) : Prop :=
  ¬ child.start.Before parent.start ∧ ¬ parent.stop.Before child.stop

/-- Each range lies in the next one and differs from it. -/
def NestedRanges (ranges : List TextRange) : Prop :=
  ranges.IsChain fun child parent => parent.Contains child ∧ child ≠ parent

/-- No stretch begins or ends inside a character. -/
def OnBoundaries (text : List UInt8) (chain : List SelectionRangeSegment) : Prop :=
  ∀ s ∈ chain, AtBoundary text s.begin ∧ AtBoundary text s.end

theorem TextPosition.Before.asymm {p q : TextPosition} (h : p.Before q) : ¬ q.Before p := by
  rintro (h' | ⟨hline', h'⟩) <;> rcases h with h | ⟨hline, h⟩ <;> omega

variable {text : List UInt8} {k k' : ℕ}

/-- Positions are in the order of the offsets. -/
theorem not_before_iff (hfit : LinesFit text) (hk : AtBoundary text k)
    (hk' : AtBoundary text k') :
    ¬ (positionAt text k').Before (positionAt text k) ↔ k ≤ k' := by
  obtain ⟨line, hk⟩ := hk
  obtain ⟨line', hk'⟩ := hk'
  constructor
  · intro h
    exact Nat.le_of_not_lt fun hlt => h (increasing_of_fit hfit hk' hk hlt)
  · intro hle
    rcases Nat.lt_or_eq_of_le hle with hlt | rfl
    · exact (increasing_of_fit hfit hk hk' hlt).asymm
    · exact fun h => h.asymm h

theorem positionAt_inj (hfit : LinesFit text) (hk : AtBoundary text k)
    (hk' : AtBoundary text k') : positionAt text k = positionAt text k' ↔ k = k' := by
  constructor
  · intro heq
    apply Nat.le_antisymm
    · rw [← not_before_iff hfit hk hk', heq]
      exact fun h => h.asymm h
    · rw [← not_before_iff hfit hk' hk, heq]
      exact fun h => h.asymm h
  · exact congrArg (positionAt text)

/-- On codepoint boundaries the positions nest as the offsets do. -/
theorem nestedRanges_iff (hfit : LinesFit text) (h : OnBoundaries text chain) :
    NestedRanges (chain.map (SelectionRangeSegment.range text)) ↔ NestedSegments chain := by
  induction chain with
  | nil => exact ⟨fun _ => .nil, fun _ => .nil⟩
  | cons s chain ih =>
    obtain ⟨hs, hrest⟩ := List.forall_mem_cons.mp h
    cases chain with
    | nil => exact ⟨fun _ => .singleton s, fun _ => .singleton _⟩
    | cons parent chain =>
      have hp := hrest parent List.mem_cons_self
      rw [NestedSegments, List.isChain_cons_cons, List.map_cons, List.map_cons, NestedRanges,
        List.isChain_cons_cons]
      refine and_congr (and_congr ?_ (not_congr ?_)) (ih hrest)
      · exact and_congr (not_before_iff hfit hp.1 hs.1) (not_before_iff hfit hs.2 hp.2)
      · rw [SelectionRangeSegment.range, SelectionRangeSegment.range, TextRange.mk.injEq,
          positionAt_inj hfit hs.1 hp.1, positionAt_inj hfit hs.2 hp.2,
          ← SelectionRangeSegment.mk.injEq]

/-- **Selection ranges.**  The ranges nest, as offsets, exactly when the nodes on the way
to the offset contain the word there; on codepoint boundaries so do the positions that
are returned.  The word, if there is one, is the innermost range. -/
theorem compute_selection_range_nests_iff (text : List UInt8) (cst : Option (RootCstNode G))
    (offset : ℕ)
    (hlaw : SpanLaw text (((cst.bind RootCstNode.read).getD .nil).map CstItem.extent)) :
    (NestedSegments (selection_chain text ((cst.bind RootCstNode.read).getD .nil) offset) ↔
        WordInside text ((cst.bind RootCstNode.read).getD .nil) offset) ∧
      (LinesFit text →
        OnBoundaries text (selection_chain text ((cst.bind RootCstNode.read).getD .nil) offset) →
        (NestedRanges (compute_selection_range text cst offset) ↔
          WordInside text ((cst.bind RootCstNode.read).getD .nil) offset)) ∧
      ((token_at text offset).text ≠ [] →
        (selection_chain text ((cst.bind RootCstNode.read).getD .nil) offset).head?
            = some (token_at text offset).segment ∧
          (compute_selection_range text cst offset).head?
            = some ((token_at text offset).segment.range text)) := by
  obtain ⟨hiff, hhead⟩ := @selection_chain_nests_iff G offset _ text hlaw
  rw [compute_selection_range]
  generalize (cst.bind RootCstNode.read).getD .nil = roots at hiff hhead ⊢
  refine ⟨hiff, fun hfit hboundaries => ?_, fun hword => ⟨hhead hword, ?_⟩⟩
  · rw [← hiff, ← nestedRanges_iff hfit hboundaries]
    split
    next hnil =>
      rw [hnil]
      exact ⟨fun _ => .nil, fun _ => .singleton _⟩
    next => rfl
  · rw [if_neg]
    · rw [List.head?_map, hhead hword]
      rfl
    · intro hnil
      rw [hnil] at hhead
      exact Option.some_ne_none _ (hhead hword).symm

/-- `+x` with the cursor behind the `x`: the word, and the rule. -/
theorem compute_selection_range_nests_iff_behind :
    NestedSegments (selection_chain [43, 120] (numbered 0 (twoLeaves 0 1 1 2)) 2) ∧
      WordInside [43, 120] (numbered 0 (twoLeaves 0 1 1 2)) 2 := by
  have hnests : NestedSegments (selection_chain [43, 120] (numbered 0 (twoLeaves 0 1 1 2)) 2) := by
    have hchain : selection_chain [43, 120] (numbered 0 (twoLeaves 0 1 1 2)) 2
        = [⟨1, 2⟩, ⟨0, 2⟩] := by decide +kernel
    rw [hchain]
    exact List.isChain_pair.mpr ⟨⟨by decide, by decide⟩, by decide⟩
  have hread : ((TreeBuilder.empty.append (twoLeaves 0 1 1 2)).toCstBuilder.toRoot
      [43, 120]).read = some (numbered 0 (twoLeaves 0 1 1 2)) := read_toCstBuilder [43, 120] rfl
  have hiff := (compute_selection_range_nests_iff [43, 120]
    (some ((TreeBuilder.empty.append (twoLeaves 0 1 1 2)).toCstBuilder.toRoot [43, 120])) 2
    (by
      rw [Option.bind_some, hread]
      exact ⟨by decide, by decide, by decide, by decide⟩)).1
  rw [Option.bind_some, hread] at hiff
  exact ⟨hnests, hiff.mp hnests⟩

/-- `+x` with the cursor between the two: the word `x`, and around it the operator. -/
theorem operator_around_word :
    ∃ ctx, runStrictParse (.sample plusX false) [43, 120] 4 false .noop 0 = some (true, ctx) ∧
      (ctx.builder.toRoot [43, 120]).read = some (numbered 0 (twoLeaves 0 1 1 2)) ∧
      SpanLaw [43, 120] ((numbered 0 (twoLeaves 0 1 1 2)).map CstItem.extent) ∧
      compute_selection_range [43, 120] (some (ctx.builder.toRoot [43, 120])) 1
        = [⟨⟨0, 1⟩, ⟨0, 2⟩⟩, ⟨⟨0, 0⟩, ⟨0, 1⟩⟩, ⟨⟨0, 0⟩, ⟨0, 2⟩⟩] ∧
      ¬ NestedRanges (compute_selection_range [43, 120]
        (some (ctx.builder.toRoot [43, 120])) 1) := by
  have hranges : ∀ root : RootCstNode GrammarElement,
      root.read = some (numbered 0 (twoLeaves 0 1 1 2)) →
        compute_selection_range [43, 120] (some root) 1
          = [⟨⟨0, 1⟩, ⟨0, 2⟩⟩, ⟨⟨0, 0⟩, ⟨0, 1⟩⟩, ⟨⟨0, 0⟩, ⟨0, 2⟩⟩] := by
    intro root hread
    rw [compute_selection_range, Option.bind_some, hread]
    decide +kernel
  refine ⟨_, rfl, rfl, ⟨by decide, by decide, by decide, by decide⟩, hranges _ rfl, ?_⟩
  rw [hranges _ rfl]
  intro h
  exact (List.isChain_cons_cons.mp h).1.1.2 (.inr ⟨rfl, by decide⟩)

end Pegium
