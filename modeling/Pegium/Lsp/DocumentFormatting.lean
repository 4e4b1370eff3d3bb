/-
Pegium/Lsp/DocumentFormatting.lean

What formatting makes of a document.

Whatever the rules, the options and the requested range are, an edit either replaces what
stands between two leaves by blanks, or the text of a hidden leaf by one with the same
visible bytes (`Keeps`): that is shown for each way an edit is made, and along the walk
for all of them.  The edits that are kept leave each other alone, since one that overlaps
others takes their place.  So the formatted text has the leaves of the CST in their
order, the visible ones byte for byte, and nothing new that can be seen in between
(`Rearranged`).  Where only blanks are between the leaves, these are all that changes.

The walk needs a CST whose leaves follow each other, and no node of which begins behind a
leaf of its own or stops within one (`Arranged`).  And the tab size must not be a negative
number where it counts spaces (`TabsFit`).

Main results: `exists_rearranged`, `doDocumentFormat_reformats`.
-/
import Pegium.General.ForestOrder
import Pegium.General.SpliceRegions
import Pegium.Lsp.FormattingEdits
import Pegium.Workspace.TextEdits

namespace Pegium.Formatting

open Function (update)

/-! ### Blanks -/

/-- A blank, a tab or a line break. -/
def is_blank (ch : UInt8) : Bool := ch == 32 || ch == 9 || ch == 10 || ch == 13

/-- The bytes that can be seen. -/
def visible (text : List UInt8) : List UInt8 := text.filter fun ch => !is_blank ch

/-- The text is white space. -/
def AllBlank (text : List UInt8) : Prop := ∀ ch ∈ text, is_blank ch = true

theorem AllBlank.append {x y : List UInt8} (hx : AllBlank x) (hy : AllBlank y) :
    AllBlank (x ++ y) :=
  fun ch h => (List.mem_append.mp h).elim (hx ch) (hy ch)

theorem allBlank_replicate {ch : UInt8} (h : is_blank ch = true) (n : ℕ) :
    AllBlank (List.replicate n ch) := by
  intro ch' hmem
  rw [List.eq_of_mem_replicate hmem, h]

theorem visible_append (x y : List UInt8) : visible (x ++ y) = visible x ++ visible y :=
  List.filter_append ..

theorem AllBlank.visible_eq {x : List UInt8} (h : AllBlank x) : visible x = [] := by
  refine List.filter_eq_nil_iff.mpr fun ch hch => ?_
  simp [h ch hch]

/-- The tab size is below `2 ^ 31` when spaces are inserted. -/
def TabsFit (options : FormattingOptions) : Prop :=
  options.insertSpaces = true → options.tabSize < 2 ^ 31

theorem exists_indentation_text {options : FormattingOptions} (h : TabsFit options)
    (indentation : ℤ) :
    ∃ blanks, indentation_text indentation options = some blanks ∧ AllBlank blanks := by
  unfold indentation_text
  dsimp only
  split
  next hspaces =>
    have htabs : 0 ≤ int32 (effective_tab_size options) := by
      have hlt := h hspaces
      unfold int32 effective_tab_size
      split <;> rw [Int.bmod_def] <;> omega
    rw [if_neg (Int.not_lt.mpr (Int.mul_nonneg (Int.le_max_right _ _) htabs))]
    exact ⟨_, rfl, allBlank_replicate rfl _⟩
  · exact ⟨_, rfl, allBlank_replicate rfl _⟩

theorem allBlank_whitespace_text (characters : ℤ) (options : FormattingOptions) :
    AllBlank (whitespace_text characters options) := by
  unfold whitespace_text
  split
  · exact allBlank_replicate rfl _
  · exact allBlank_replicate rfl _

theorem visible_trimUpTo (n : ℕ) (line : List UInt8) :
    visible (trimUpTo n line) = visible line := by
  induction line generalizing n with
  | nil => cases n <;> rfl
  | cons ch rest ih =>
    cases n with
    | zero => rfl
    | succ n =>
      rw [trimUpTo]
      split
      next h =>
        have hblank : is_blank ch = true := by
          rw [is_blank, h]
          rfl
        rw [ih, visible, visible, List.filter_cons_of_neg]
        simp [hblank]
      · rfl

theorem visible_reindentLine (characterIncrease : ℤ) (context : FormattingContext)
    (line : List UInt8) : visible (reindentLine characterIncrease context line) = visible line := by
  have hlead : ∀ content : List UInt8,
      visible (if 0 < characterIncrease then
          whitespace_text characterIncrease context.options ++ content
        else trimUpTo characterIncrease.natAbs content) = visible content := by
    intro content
    split
    · rw [visible_append, (allBlank_whitespace_text _ _).visible_eq, List.nil_append]
    · exact visible_trimUpTo _ _
  rw [reindentLine, visible_append, hlead]
  by_cases hlast : line.getLast? = some 13
  · obtain ⟨content, rfl⟩ := List.getLast?_eq_some_iff.mp hlast
    simp [visible_append]
  · simp [hlast, visible]

theorem visible_intercalate (lines : List (List UInt8)) :
    visible ([10].intercalate lines) = (lines.map visible).flatten := by
  induction lines with
  | nil => rfl
  | cons line lines ih =>
    cases lines with
    | nil => simp
    | cons next lines =>
      rw [List.intercalate_cons_cons, visible_append, visible_append, ih]
      simp [visible, is_blank]

/-- **Indenting the lines of a text anew leaves what can be seen of it.** -/
theorem visible_reindent_hidden_text (text : List UInt8) (characterIncrease : ℤ)
    (context : FormattingContext) :
    visible (reindent_hidden_text text characterIncrease context) = visible text := by
  unfold reindent_hidden_text
  split
  · rfl
  · have hsplit : [10].intercalate (text.splitOn 10) = text := List.intercalate_splitOn 10
    rcases hlines : text.splitOn 10 with _ | ⟨first, rest⟩
    · rw [hlines] at hsplit
      rw [← hsplit]
      rfl
    · rw [hlines] at hsplit
      rw [← hsplit, visible_intercalate, visible_intercalate, List.map_cons, List.map_cons,
        List.map_map]
      congr 2
      exact List.map_congr_left fun line _ => visible_reindentLine _ _ line

/-! ### Rules that leave something -/

/-- The move asks for a space or a line where it asks for a number of them. -/
def FormattingMove.Separates (move : FormattingMove) : Prop :=
  match move.characters with
  | some characters => 0 < characters
  | none => ∀ lines, move.lines = some lines → 0 < lines

/-- No move of the action may leave a gap empty. -/
structure FormattingAction.Separates (formatting : FormattingAction) : Prop where
  exact : formatting.options.allowMore = true ∨ formatting.options.allowLess = false
  moves : ∀ move ∈ formatting.moves, move.Separates

/-- What a hidden formatter asks for leaves no gap empty. -/
def HiddenFormatting.Separates : HiddenFormatting → Prop
  | .prepend formatting | .append formatting => formatting.Separates
  | .replace _ => True

theorem mem_of_find_fitting_move {range : TextRange} {formatting : FormattingAction}
    {move : FormattingMove} (h : find_fitting_move range formatting = some move) :
    move ∈ formatting.moves := by
  unfold find_fitting_move at h
  split at h
  next => cases h
  next only hmoves =>
    cases h
    rw [hmoves]
    exact List.mem_singleton_self _
  next =>
    rcases Option.or_eq_some_iff.mp h with hfound | ⟨-, hlast⟩
    · exact List.mem_of_find?_eq_some hfound
    · exact List.mem_of_getLast? hlast

/-- More than nothing stays more than nothing, unless less is allowed. -/
theorem fit_into_options_pos {value : ℤ} (existing : ℤ) {options : FormattingActionOptions}
    (hvalue : 0 < value) (hexact : options.allowMore = true ∨ options.allowLess = false) :
    0 < fit_into_options value existing options := by
  unfold fit_into_options
  split
  · exact lt_max_of_lt_right hvalue
  next hmore =>
    rw [if_neg]
    · exact hvalue
    · rw [hexact.resolve_left hmore]
      exact Bool.false_ne_true

/-! ### What an edit does -/

variable {G : Type*} {text : List UInt8} {nodes : List (CstItem G)}

/-- What the text of a hidden leaf may come from: the leaf, or its hidden formatter. -/
def TextSource (text : List UInt8) (hiddenFormatter : CstItem G → ℤ → List HiddenFormatting)
    (leaf : CstItem G) (source : List UInt8) : Prop :=
  source = nodeText text leaf ∨
    ∃ indentation, .replace source ∈ hiddenFormatter leaf indentation

/-- A stretch of text that no leaf reaches into. -/
structure Gap (text : List UInt8) (nodes : List (CstItem G)) (begin stop : ℕ) : Prop where
  le : begin ≤ stop
  begin_boundary : AtBoundary text begin
  stop_boundary : AtBoundary text stop
  clear : ∀ leaf ∈ nodes, leaf.isLeaf = true → leaf.end ≤ begin ∨ stop ≤ leaf.begin

/-- Where the edit begins behind a leaf, it leaves something there. -/
def PendingEdit.Parts (nodes : List (CstItem G)) (edit : PendingEdit) : Prop :=
  edit.begin < edit.end → ∀ leaf ∈ nodes, leaf.isLeaf = true → leaf.end = edit.begin →
    edit.newText ≠ []

/-- An edit of blanks between the leaves, or of a hidden leaf.  Where all rules are separating
it leaves no gap empty. -/
inductive Keeps (text : List UInt8) (nodes : List (CstItem G))
    (Source : CstItem G → List UInt8 → Prop) (separating : Prop) (edit : PendingEdit) : Prop
  | gap (gap : Gap text nodes edit.begin edit.end) (blank : AllBlank edit.newText)
    (parts : separating → edit.Parts nodes)
  | hidden (leaf : CstItem G) (source : List UInt8) (mem : leaf ∈ nodes)
    (isHidden : leaf.isHidden = true) (begin : edit.begin = leaf.begin)
    (stop : edit.end = leaf.end) (isSource : Source leaf source)
    (seen : visible edit.newText = visible source)

variable {Source : CstItem G → List UInt8 → Prop} {separating : Prop} {begin stop : ℕ}
  {edit : PendingEdit}

theorem replicate_ne_nil {n : ℤ} (h : 0 < n) (ch : UInt8) :
    List.replicate (max n 0).toNat ch ≠ [] := by
  intro hnil
  have := (List.replicate_eq_nil_iff _).mp hnil
  omega

theorem keeps_create_space_edit (h : Gap text nodes begin stop) {spaces : ℤ}
    {options : FormattingActionOptions}
    (hsep : separating →
      0 < spaces ∧ (options.allowMore = true ∨ options.allowLess = false)) :
    Keeps text nodes Source separating (create_space_edit text begin stop spaces options) := by
  refine .gap h (allBlank_replicate rfl _) fun hseparating _ _ _ _ _ => replicate_ne_nil ?_ 32
  obtain ⟨hspaces, hexact⟩ := hsep hseparating
  split
  · exact fit_into_options_pos _ hspaces hexact
  · exact hspaces

/-- An edit has been made, and keeps what it is to keep. -/
def MadeKeeping (text : List UInt8) (nodes : List (CstItem G))
    (Source : CstItem G → List UInt8 → Prop) (separating : Prop) (edit : Option PendingEdit) :
    Prop :=
  ∃ made, edit = some made ∧ Keeps text nodes Source separating made

/-- The stretch before a place: no leaf ends in it but at its begin, and none does where there
is nothing before it. -/
structure GapBefore (text : List UInt8) (nodes : List (CstItem G))
    (previous : Option (CstItem G)) (stop : ℕ) : Prop where
  gap : Gap text nodes (gapBegin previous) stop
  behind : ∀ leaf ∈ nodes, leaf.isLeaf = true →
    (∃ node, previous = some node ∧ leaf.end ≤ node.end) ∨ stop ≤ leaf.end

variable {context : FormattingContext} {previous : Option (CstItem G)}

/-- A move changes the indentation, not the options. -/
theorem TabsFit.indented (h : TabsFit context.options) (move : Option FormattingMove) :
    TabsFit (context.indented move).options :=
  h

theorem made_create_line_edit (htabs : TabsFit context.options) (h : Gap text nodes begin stop)
    {lines : ℤ} {options : FormattingActionOptions}
    (hsep : separating →
      0 < lines ∧ (options.allowMore = true ∨ options.allowLess = false)) :
    MadeKeeping text nodes Source separating
      (create_line_edit begin stop lines context options) := by
  obtain ⟨blanks, hblanks, hall⟩ := exists_indentation_text htabs context.indentation
  unfold create_line_edit
  rw [hblanks]
  refine ⟨_, rfl, .gap h ((allBlank_replicate rfl _).append hall) ?_⟩
  intro hseparating _ _ _ _ _
  obtain ⟨hlines, hexact⟩ := hsep hseparating
  exact List.append_ne_nil_of_left_ne_nil
    (replicate_ne_nil (fit_into_options_pos _ hlines hexact) 10) _

theorem made_create_tab_edit (htabs : TabsFit context.options)
    (h : GapBefore text nodes previous stop) :
    MadeKeeping text nodes Source separating
      (create_tab_edit (gapBegin previous) stop previous.isSome context) := by
  obtain ⟨blanks, hblanks, hall⟩ := exists_indentation_text htabs context.indentation
  unfold create_tab_edit
  rw [hblanks]
  refine ⟨_, rfl, .gap h.gap ((allBlank_replicate rfl _).append hall) ?_⟩
  intro _ hlt leaf hmem hleaf hend
  cases previous with
  | none =>
    -- No leaf ends where the gap begins.
    rcases h.behind leaf hmem hleaf with ⟨node, hnode, -⟩ | hstop
    · cases hnode
    · replace hlt : gapBegin (none : Option (CstItem G)) < stop := hlt
      replace hend : leaf.end = gapBegin (none : Option (CstItem G)) := hend
      omega
  | some node =>
    refine List.append_ne_nil_of_left_ne_nil (fun hnil => ?_) _
    have := (List.replicate_eq_nil_iff _).mp hnil
    simp only [Option.isSome_some, if_true] at this
    omega

/-! ### The line of a hidden leaf -/

/-- A line begins at a boundary, not after what stands on it. -/
theorem line_start (hfit : LinesFit text) {offset : ℕ} (h : offset ≤ textSize text) :
    ∃ stop, LineSpan text (positionAt text offset).line
      (offsetAt text ⟨(positionAt text offset).line, 0⟩) stop ∧
      offsetAt text ⟨(positionAt text offset).line, 0⟩ ≤ offset ∧ offset ≤ stop := by
  obtain ⟨hspan, hstart, hstop⟩ := lineSpan_of_le h
  have hline : (positionAt text offset).line = newlinesBefore text offset :=
    (converts_of_fit hfit).line_eq offset h
  rw [hline, offsetAt_eq hspan, Decoder.reach_zero, Nat.add_zero]
  exact ⟨_, hspan, hstart, hstop⟩

/-- A gap that begins on an earlier line begins before its last line does. -/
theorem Gap.begin_lt_line (h : Gap text nodes begin stop) (hfit : LinesFit text)
    (hline : (positionAt text begin).line ≠ (positionAt text stop).line) :
    begin < offsetAt text ⟨(positionAt text stop).line, 0⟩ := by
  obtain ⟨lineStop, hspan, -, hstop⟩ := line_start hfit h.stop_boundary.le
  refine Nat.lt_of_not_le fun hle => hline ?_
  rw [(converts_of_fit hfit).line_eq begin h.begin_boundary.le]
  exact hspan.newlinesBefore_eq hle (Nat.le_trans h.le hstop)

/-- The white space of the last line of a gap. -/
theorem Gap.lastLine (h : Gap text nodes begin stop) (hfit : LinesFit text)
    (hline : begin = 0 ∨ (positionAt text begin).line ≠ (positionAt text stop).line) :
    Gap text nodes (offsetAt text ⟨(positionAt text stop).line, 0⟩) stop := by
  have hbegin : begin ≤ offsetAt text ⟨(positionAt text stop).line, 0⟩ := by
    rcases hline with rfl | hline
    · exact Nat.zero_le _
    · exact Nat.le_of_lt (h.begin_lt_line hfit hline)
  obtain ⟨lineStop, hspan, hstart, hstop⟩ := line_start hfit h.stop_boundary.le
  generalize offsetAt text ⟨(positionAt text stop).line, 0⟩ = start at hspan hstart hbegin ⊢
  refine ⟨hstart, ⟨_, start, lineStop, hspan, Nat.le_refl _, hspan.start_le, ?_⟩,
    h.stop_boundary, fun leaf hmem hleaf => ?_⟩
  · rw [Nat.sub_self]
    exact .start _
  · exact (h.clear leaf hmem hleaf).imp (fun hle => Nat.le_trans hle hbegin) id

/-! ### Edits of a rule -/

/-- A move found in an action that leaves something. -/
theorem FormattingAction.Separates.move {formatting : FormattingAction} {range : TextRange}
    {move : FormattingMove} (h : formatting.Separates)
    (hmove : find_fitting_move range formatting = some move) :
    move.Separates ∧ (formatting.options.allowMore = true ∨ formatting.options.allowLess = false) :=
  ⟨h.moves move (mem_of_find_fitting_move hmove), h.exact⟩

/-- The last line of the gap before a leaf that begins a line. -/
theorem GapBefore.lastLine (h : GapBefore text nodes previous stop) (hfit : LinesFit text)
    (hline : (!previous.any fun previous => decide
      ((positionAt text previous.end).line = (positionAt text stop).line)) = true) :
    Gap text nodes (offsetAt text ⟨(positionAt text stop).line, 0⟩) stop ∧
      ∀ newText, (⟨offsetAt text ⟨(positionAt text stop).line, 0⟩, stop, newText⟩ :
        PendingEdit).Parts nodes := by
  cases previous with
  | none =>
    refine ⟨h.gap.lastLine hfit (.inl rfl), fun newText hlt leaf hmem hleaf hend => ?_⟩
    rcases h.behind leaf hmem hleaf with ⟨node, hnode, -⟩ | hstop
    · cases hnode
    · exact absurd hlt (Nat.not_lt.mpr (hstop.trans hend.le))
  | some previous =>
    rw [Option.any_some, Bool.not_eq_true', decide_eq_false_iff_not] at hline
    refine ⟨h.gap.lastLine hfit (.inr hline), fun newText hlt leaf hmem hleaf hend => ?_⟩
    rcases h.behind leaf hmem hleaf with ⟨node, hnode, hle⟩ | hstop
    · cases hnode
      exact absurd (h.gap.begin_lt_line hfit hline) (Nat.not_lt.mpr (hend.ge.trans hle))
    · exact absurd hlt (Nat.not_lt.mpr (hstop.trans hend.le))

theorem made_create_hidden_text_edits {hidden : CstItem G}
    {formatting : Option FormattingAction} {replacementText : Option (List UInt8)}
    (htabs : TabsFit context.options) (hfit : LinesFit context.text)
    (hgap : GapBefore context.text nodes previous hidden.begin) (hmem : hidden ∈ nodes)
    (hhidden : hidden.isHidden = true) (hown : Source hidden (nodeText context.text hidden))
    (hreplacement : ∀ replaced, replacementText = some replaced → Source hidden replaced)
    (hsep : separating → ∀ action, formatting = some action → action.Separates) :
    ∀ edit ∈ create_hidden_text_edits previous hidden formatting replacementText context,
      MadeKeeping context.text nodes Source separating edit := by
  have hmoves : ∀ move, formatting.bind (find_fitting_move
      (to_lsp_range context.text (gapBegin previous) hidden.begin)) = some move →
      separating → move.Separates ∧
        (((formatting.map FormattingAction.options).getD ⟨0, false, false⟩).allowMore = true ∨
          ((formatting.map FormattingAction.options).getD ⟨0, false, false⟩).allowLess
            = false) := by
    intro move hmove hseparating
    obtain ⟨action, rfl, hfound⟩ := Option.bind_eq_some_iff.mp hmove
    exact (hsep hseparating action rfl).move hfound
  have htarget : Source hidden (replacementText.getD (nodeText context.text hidden)) := by
    cases replacementText with
    | none => exact hown
    | some replaced => exact hreplacement replaced rfl
  have hseen : ∀ (reindent : Bool) (source : List UInt8) (characterIncrease : ℤ)
      (context : FormattingContext), visible
        (if reindent = true then reindent_hidden_text source characterIncrease context else source)
          = visible source := by
    intro reindent source characterIncrease context
    split
    · exact visible_reindent_hidden_text _ _ _
    · rfl
  intro edit hedit
  unfold create_hidden_text_edits at hedit
  dsimp only at hedit
  rw [List.mem_append, List.mem_append] at hedit
  rcases hedit with (hmoved | hindented) | hreplaced
  · split at hmoved
    next => cases hmoved
    next hmove =>
      exact ⟨_, List.mem_singleton.mp hmoved, keeps_create_space_edit hgap.gap (hmoves _ hmove)⟩
    next hmove =>
      rw [List.mem_singleton.mp hmoved]
      exact made_create_line_edit (htabs.indented _) hgap.gap fun hseparating =>
        (hmoves _ hmove hseparating).imp_left fun h => h _ rfl
    next =>
      rw [List.mem_singleton.mp hmoved]
      exact made_create_tab_edit (htabs.indented _) hgap
    next => cases hmoved
  · obtain ⟨hcond, hindented⟩ := List.mem_ite_nil_right.mp hindented
    rw [Bool.and_eq_true, Bool.and_eq_true] at hcond
    obtain ⟨blanks, hblanks, hall⟩ := exists_indentation_text htabs
      (context.indented (formatting.bind (find_fitting_move
        (to_lsp_range context.text (gapBegin previous) hidden.begin)))).indentation
    obtain ⟨hlast, hparts⟩ := hgap.lastLine hfit hcond.1.2
    rw [List.mem_singleton.mp hindented, hblanks]
    exact ⟨_, rfl, .gap hlast hall fun _ => hparts blanks⟩
  · obtain ⟨-, hreplaced⟩ := List.mem_ite_nil_right.mp hreplaced
    exact ⟨_, List.mem_singleton.mp hreplaced,
      .hidden hidden _ hmem hhidden rfl rfl htarget (hseen _ _ _ _)⟩

theorem made_create_text_edits {node : CstItem G}
    {formatting : FormattingAction} (htabs : TabsFit context.options) (hfit : LinesFit context.text)
    (hgap : node.isHidden = true ∨ gapBegin previous ≤ node.begin →
      GapBefore context.text nodes previous node.begin) (hmem : node ∈ nodes)
    (hown : Source node (nodeText context.text node))
    (hsep : separating → formatting.Separates) :
    ∀ edit ∈ (create_text_edits previous node formatting context).1,
      MadeKeeping context.text nodes Source separating edit := by
  intro edit hedit
  unfold create_text_edits at hedit
  split at hedit
  next hhidden =>
    exact made_create_hidden_text_edits htabs hfit (hgap (.inl hhidden)) hmem hhidden hown
      (fun replaced h => by cases h)
      (fun hseparating action h => Option.some.inj h ▸ hsep hseparating) edit hedit
  next =>
    split at hedit
    · cases hedit
    next hnot =>
      have hle : gapBegin previous ≤ node.begin := by
        cases previous with
        | none => exact Nat.zero_le _
        | some previous => simpa [gapBegin] using hnot
      replace hgap := hgap (.inr hle)
      dsimp only at hedit
      split at hedit
      next => cases hedit
      next move hmove =>
        have hmoves := fun hseparating => (hsep hseparating).move hmove
        dsimp only at hedit
        split at hedit
        · split at hedit
          · cases hedit
          · exact ⟨_, List.mem_singleton.mp hedit, keeps_create_space_edit hgap.gap hmoves⟩
        · rw [List.mem_singleton.mp hedit]
          exact made_create_line_edit (htabs.indented _) hgap.gap fun hseparating =>
            (hmoves hseparating).imp_left fun h => h _ rfl
        · rw [List.mem_singleton.mp hedit]
          exact made_create_tab_edit (htabs.indented _) hgap
        · cases hedit

/-! ### The walk -/

/-- A CST that a text is arranged by, its nodes in the order they are stored in: the leaves
follow each other, and a node begins no later than the leaves below it and stops within none.
The node of an infix rule begins where its first operand does, which is stored before it. -/
structure Arranged (text : List UInt8) (nodes : List (CstItem G)) : Prop where
  fits : LinesFit text
  ordered : ∀ node ∈ nodes, node.begin ≤ node.end
  boundary : ∀ node ∈ nodes, AtBoundary text node.begin ∧ AtBoundary text node.end
  hidden : ∀ node ∈ nodes, node.isHidden = true → node.isLeaf = true ∧ node.begin < node.end
  after : nodes.Pairwise fun leaf node => leaf.isLeaf = true →
    leaf.end ≤ node.end ∧ (node.isLeaf = true → leaf.end ≤ node.begin)
  within : nodes.Pairwise fun node leaf => leaf.isLeaf = true →
    node.begin ≤ leaf.begin ∧ (leaf.end ≤ node.end ∨ node.end ≤ leaf.begin)

/-- A CST that a text is laid out by: between the leaves there are blanks. -/
structure Laid (text : List UInt8) (nodes : List (CstItem G)) : Prop
    extends Arranged text nodes where
  blank : ∀ offset < text.length,
    (∀ leaf ∈ nodes, leaf.isLeaf = true → offset < leaf.begin ∨ leaf.end ≤ offset) →
      is_blank (byteAt text offset) = true

variable {visited rest : List (CstItem G)} {node next : CstItem G}

/-- A gap behind a node. -/
theorem Arranged.gapBefore_some (h : Arranged text nodes) {previous : CstItem G}
    (hprevious : previous ∈ nodes) (hnode : node ∈ nodes) (hle : previous.end ≤ node.begin)
    (hclear : ∀ leaf ∈ nodes, leaf.isLeaf = true →
      leaf.end ≤ previous.end ∨ node.begin ≤ leaf.begin) :
    GapBefore text nodes (some previous) node.begin where
  gap := ⟨hle, (h.boundary previous hprevious).2, (h.boundary node hnode).1, hclear⟩
  behind leaf hmem hleaf :=
    (hclear leaf hmem hleaf).imp (fun hend => ⟨previous, rfl, hend⟩)
      fun hbegin => hbegin.trans (h.ordered leaf hmem)

/-- The stretch from the last leaf to a node. -/
theorem Arranged.gap_before (h : Arranged text nodes) (hnodes : nodes = visited ++ node :: rest)
    (hle : node.isHidden = true ∨ gapBegin (visited.filter (·.isLeaf)).getLast? ≤ node.begin) :
    GapBefore text nodes (visited.filter (·.isLeaf)).getLast? node.begin := by
  have hnode : node ∈ nodes := by
    rw [hnodes]
    exact List.mem_append_right _ List.mem_cons_self
  have hafter := h.after
  have hwithin := h.within
  rw [hnodes] at hafter hwithin
  obtain ⟨hvisited, -, hcross⟩ := List.pairwise_append.mp hafter
  obtain ⟨hbehind, -⟩ := List.pairwise_cons.mp (List.pairwise_append.mp hwithin).2.1
  have hlater : ∀ leaf ∈ node :: rest, leaf.isLeaf = true → node.begin ≤ leaf.begin := by
    intro leaf hmem hleaf
    rcases List.mem_cons.mp hmem with rfl | hmem
    · exact Nat.le_refl _
    · exact (hbehind leaf hmem hleaf).1
  rcases hlast : (visited.filter (·.isLeaf)).getLast? with _ | last
  · -- without a leaf before it the gap begins with the text
    have hnone := List.getLast?_eq_none_iff.mp hlast
    rw [hlast]
    have hclear : ∀ leaf ∈ nodes, leaf.isLeaf = true → node.begin ≤ leaf.begin := by
      intro leaf hmem hleaf
      rw [hnodes] at hmem
      rcases List.mem_append.mp hmem with hmem | hmem
      · have := List.mem_filter.mpr ⟨hmem, hleaf⟩
        rw [hnone] at this
        cases this
      · exact hlater leaf hmem hleaf
    exact ⟨⟨Nat.zero_le _, atBoundary_zero text, (h.boundary node hnode).1,
      fun leaf hmem hleaf => .inr (hclear leaf hmem hleaf)⟩,
      fun leaf hmem hleaf => .inr ((hclear leaf hmem hleaf).trans (h.ordered leaf hmem))⟩
  · obtain ⟨init, hinit⟩ := List.getLast?_eq_some_iff.mp hlast
    have hmem : last ∈ visited ∧ last.isLeaf = true := by
      refine List.mem_filter.mp ?_
      rw [hinit]
      exact List.mem_append_right _ List.mem_cons_self
    have hlastNodes : last ∈ nodes := hnodes ▸ List.mem_append_left _ hmem.1
    rw [hlast] at hle ⊢
    have hlastLe : last.end ≤ node.begin := by
      refine hle.elim (fun hhidden => ?_) id
      exact (hcross last hmem.1 node List.mem_cons_self hmem.2).2 (h.hidden node hnode hhidden).1
    refine h.gapBefore_some hlastNodes hnode hlastLe ?_
    -- the visited leaves end before the last of them, and the others come after the node
    intro leaf hleafMem hleaf
    rw [hnodes] at hleafMem
    rcases List.mem_append.mp hleafMem with hleafMem | hleafMem
    · have hfiltered := List.mem_filter.mpr ⟨hleafMem, hleaf⟩
      have hsorted := hvisited.sublist (List.filter_sublist (p := fun l => l.isLeaf))
      rw [hinit] at hfiltered hsorted
      rcases List.mem_append.mp hfiltered with hearlier | hearlier
      · have hbefore := (List.pairwise_append.mp hsorted).2.2 leaf hearlier last
          List.mem_cons_self hleaf
        exact .inl (Nat.le_trans (hbefore.2 hmem.2) (h.ordered last hlastNodes))
      · rw [List.mem_singleton.mp hearlier]
        exact .inl (Nat.le_refl _)
    · exact .inr (hlater leaf hleafMem hleaf)

/-- The stretch from a node to the next leaf. -/
theorem Arranged.gap_after (h : Arranged text nodes) (hnodes : nodes = visited ++ node :: rest)
    (hid : node.id = visited.length) (hnext : find_next_leaf nodes node = some next) :
    next ∈ nodes ∧ GapBefore text nodes (some node) next.begin := by
  have hdrop : nodes.drop (node.id + 1) = rest := by
    rw [hnodes, hid, ← List.drop_drop, List.drop_left]
    rfl
  rw [find_next_leaf, hdrop] at hnext
  obtain ⟨hfound, skipped, later, hrest, hskipped⟩ := List.find?_eq_some_iff_append.mp hnext
  rw [Bool.and_eq_true, Bool.not_eq_true', decide_eq_false_iff_not, Nat.not_lt] at hfound
  have hnode : node ∈ nodes := by
    rw [hnodes]
    exact List.mem_append_right _ List.mem_cons_self
  have hmem : next ∈ nodes := by
    rw [hnodes, hrest]
    simp
  refine ⟨hmem, h.gapBefore_some hnode hmem hfound.1 ?_⟩
  have hafter := h.after
  have hwithin := h.within
  rw [hnodes] at hafter hwithin
  obtain ⟨-, hrestAfter, hcross⟩ := List.pairwise_append.mp hafter
  obtain ⟨hbehind, -⟩ := List.pairwise_cons.mp (List.pairwise_append.mp hwithin).2.1
  intro leaf hleafMem hleaf
  rw [hnodes] at hleafMem
  rcases List.mem_append.mp hleafMem with hvisited | hleafMem
  · exact .inl (hcross leaf hvisited node List.mem_cons_self hleaf).1
  rcases List.mem_cons.mp hleafMem with rfl | hleafMem
  · exact .inl (Nat.le_refl _)
  rw [hrest] at hleafMem
  rcases List.mem_append.mp hleafMem with hearlier | hleafMem
  · -- it was skipped, so it begins before the node stops
    have hskip := hskipped leaf hearlier
    rw [hleaf, Bool.and_true, Bool.not_not, decide_eq_true_eq] at hskip
    have hbehind := (hbehind leaf (hrest ▸ List.mem_append_left _ hearlier) hleaf).2
    exact .inl (hbehind.resolve_right (Nat.not_le.mpr hskip))
  rcases List.mem_cons.mp hleafMem with rfl | hleafMem
  · exact .inr (Nat.le_refl _)
  · have hbetween := (List.pairwise_cons.mp hrestAfter).2
    rw [hrest] at hbetween
    have hlater := (List.pairwise_cons.mp (List.pairwise_append.mp hbetween).2.1).1 leaf hleafMem
      hfound.2
    exact .inr (Nat.le_trans (h.ordered next hmem) (hlater.2 hleaf))

/-- All rules that have been collected leave something. -/
def AllSeparate (formattings : Formattings) : Prop :=
  ∀ id mode action, formattings id mode = some action → action.Separates

theorem AllSeparate.collector {formattings : Formattings} (h : AllSeparate formattings)
    {formatting : FormattingAction} (hnew : formatting.Separates) (nodeId : ℕ)
    (mode : FormattingMode) : AllSeparate (collector formattings nodeId mode formatting) := by
  intro id mode' action haction
  unfold Formatting.collector at haction
  split at haction
  · exact h id mode' action haction
  · by_cases hid : id = nodeId
    · subst hid
      rw [Function.update_self] at haction
      by_cases hmode : mode' = mode
      · subst hmode
        rw [Function.update_self] at haction
        exact Option.some.inj haction ▸ hnew
      · rw [Function.update_of_ne hmode] at haction
        exact h _ _ action haction
    · rw [Function.update_of_ne hid] at haction
      exact h _ _ action haction

/-- What holds of the walk where some nodes have been visited. -/
structure Walked (text : List UInt8) (nodes : List (CstItem G))
    (Source : CstItem G → List UInt8 → Prop) (separating : Prop) (visited : List (CstItem G))
    (state : FormattingState G) : Prop where
  lastLeaf : state.lastLeaf = (visited.filter (·.isLeaf)).getLast?
  edits : ∀ edit ∈ state.edits, MadeKeeping text nodes Source separating edit
  separates : separating → AllSeparate state.formattings
  replacements : ∀ node ∈ nodes, ∀ replaced,
    state.hiddenReplacements node.id = some replaced → Source node replaced

variable {request : FormattingRequest G} {state : FormattingState G}

theorem Walked.formatHidden (h : Walked text nodes Source separating visited state)
    (hids : (nodes.map (·.id)).Nodup) (hmem : node ∈ nodes) {formatting : HiddenFormatting}
    (hsource : ∀ replaced, formatting = .replace replaced → Source node replaced)
    (hsep : separating → formatting.Separates) :
    Walked text nodes Source separating visited (state.formatHidden node formatting) := by
  cases formatting with
  | prepend formatting =>
    exact { h with separates := fun hs => (h.separates hs).collector (hsep hs) _ _ }
  | append formatting =>
    exact { h with separates := fun hs => (h.separates hs).collector (hsep hs) _ _ }
  | replace replaced =>
    refine { h with replacements := fun node' hmem' replaced' hreplaced => ?_ }
    replace hreplaced : update state.hiddenReplacements node.id (some replaced) node'.id
      = some replaced' := hreplaced
    by_cases hid : node'.id = node.id
    · rw [hid, Function.update_self] at hreplaced
      cases hreplaced
      rw [List.inj_on_of_nodup_map hids hmem' hmem hid]
      exact hsource replaced rfl
    · rw [Function.update_of_ne hid] at hreplaced
      exact h.replacements node' hmem' replaced' hreplaced

theorem Walked.callHiddenFormatter (h : Walked text nodes Source separating visited state)
    (hids : (nodes.map (·.id)).Nodup) (hmem : node ∈ nodes)
    (hsource : ∀ indentation replaced,
      .replace replaced ∈ request.hiddenFormatter node indentation → Source node replaced)
    (hsep : separating → ∀ indentation, ∀ formatting ∈ request.hiddenFormatter node indentation,
      formatting.Separates) (indentation : ℤ) :
    Walked text nodes Source separating visited
      (state.callHiddenFormatter request node indentation) := by
  unfold FormattingState.callHiddenFormatter
  dsimp only
  generalize hcalls : request.hiddenFormatter node _ = calls
  have hcall : ∀ replaced, .replace replaced ∈ calls → Source node replaced := by
    intro replaced hreplaced
    exact hsource _ replaced (hcalls ▸ hreplaced)
  have hseparates : separating → ∀ call ∈ calls, call.Separates := by
    intro hs call hmem
    exact hsep hs _ call (hcalls ▸ hmem)
  clear hcalls
  induction calls generalizing state with
  | nil => exact h
  | cons call calls ih =>
    refine ih (h.formatHidden hids hmem ?_ fun hs => hseparates hs call List.mem_cons_self)
      (fun replaced hreplaced => hcall replaced (List.mem_cons_of_mem _ hreplaced))
      fun hs call' hcall' => hseparates hs call' (List.mem_cons_of_mem _ hcall')
    rintro replaced rfl
    exact hcall replaced List.mem_cons_self

/-- What formatting needs of the CST and of what hidden formatters do. -/
structure FormatsArranged (request : FormattingRequest G)
    (Source : CstItem G → List UInt8 → Prop) (separating : Prop) : Prop where
  arranged : Arranged request.text request.nodes
  tabs : TabsFit request.options
  ids : request.nodes.map (·.id) = List.range request.nodes.length
  own : ∀ node ∈ request.nodes, Source node (nodeText request.text node)
  replaced : ∀ node ∈ request.nodes, ∀ indentation replaced,
    .replace replaced ∈ request.hiddenFormatter node indentation → Source node replaced
  separates : separating → ∀ node indentation,
    ∀ formatting ∈ request.hiddenFormatter node indentation, formatting.Separates

theorem FormatsArranged.nodup (h : FormatsArranged request Source separating) :
    (request.nodes.map (·.id)).Nodup := by
  rw [h.ids]
  exact List.nodup_range

/-- A node is numbered by its place. -/
theorem FormatsArranged.id_eq (h : FormatsArranged request Source separating)
    (hnodes : request.nodes = visited ++ node :: rest) : node.id = visited.length := by
  have hget : (request.nodes.map (·.id))[visited.length]? = some node.id := by
    rw [hnodes, List.getElem?_map, List.getElem?_append_right (Nat.le_refl _), Nat.sub_self]
    rfl
  rw [h.ids, List.getElem?_eq_some_iff] at hget
  obtain ⟨hlt, hget⟩ := hget
  rw [List.getElem_range] at hget
  exact hget.symm

/-- **One node**: its edits keep what they are to keep. -/
theorem Walked.visitNode (h : Walked request.text request.nodes Source separating visited state)
    (hformats : FormatsArranged request Source separating)
    (hnodes : request.nodes = visited ++ node :: rest) (indentation : ℤ) :
    Walked request.text request.nodes Source separating visited
      (state.visitNode request node indentation).1 := by
  have hmem : node ∈ request.nodes := by
    rw [hnodes]
    exact List.mem_append_right _ List.mem_cons_self
  have hfit := hformats.arranged.fits
  unfold FormattingState.visitNode
  dsimp only
  have hcalled : Walked request.text request.nodes Source separating visited
      (if node.isHidden = true then state.callHiddenFormatter request node indentation
        else state) := by
    split
    · exact h.callHiddenFormatter hformats.nodup hmem (hformats.replaced node hmem)
        (fun hs => hformats.separates hs node) indentation
    · exact h
  generalize (if node.isHidden = true then state.callHiddenFormatter request node indentation
    else state) = called at hcalled ⊢
  have hgap := @hformats.arranged.gap_before _ _ _ _ _ _ hnodes
  rw [← hcalled.lastLeaf] at hgap
  have hprepend : separating → ∀ action,
      (if (state.formattings node.id .prepend).isSome = true then
        called.formattings node.id .prepend else none) = some action → action.Separates := by
    intro hs action haction
    split at haction
    · exact hcalled.separates hs _ _ action haction
    · cases haction
  generalize (if (state.formattings node.id .prepend).isSome = true then
    called.formattings node.id .prepend else none) = prepend at hprepend ⊢
  refine { hcalled with edits := fun edit hedit => ?_ }
  rcases List.mem_append.mp hedit with hedit | hedit
  · exact hcalled.edits edit hedit
  have hcandidate := (List.mem_filter.mp hedit).1
  rw [List.mem_append, List.mem_append] at hcandidate
  rcases hcandidate with (hbefore | hafter) | hown
  · unfold FormattingState.prependEdits at hbefore
    split at hbefore
    · split at hbefore
      · cases hbefore
      · exact made_create_text_edits hformats.tabs hfit hgap hmem
          (hformats.own node hmem) (fun hs => hprepend hs _ rfl) edit hbefore
    · cases hbefore
  · unfold FormattingState.nextLeafEdits at hafter
    split at hafter
    next formatting next hfound hnext =>
      obtain ⟨hnextMem, hnextGap⟩ :=
        hformats.arranged.gap_after hnodes (hformats.id_eq hnodes) hnext
      exact made_create_text_edits hformats.tabs hfit (fun _ => hnextGap) hnextMem
        (hformats.own next hnextMem) (fun hs => hcalled.separates hs _ _ _ hfound) edit hafter
    · cases hafter
  · unfold FormattingState.hiddenEdits at hown
    split at hown
    next hhidden =>
      exact made_create_hidden_text_edits hformats.tabs hfit (hgap (.inl hhidden)) hmem hhidden
        (hformats.own node hmem) (hcalled.replacements node hmem) hprepend edit hown
    · cases hown

theorem Walked.enter (h : Walked text nodes Source separating visited state)
    (hleaf : node.isLeaf = false) :
    Walked text nodes Source separating (visited ++ [node]) state := by
  refine { h with lastLeaf := ?_ }
  rw [h.lastLeaf, List.filter_append, List.filter_singleton, hleaf]
  simp

theorem Walked.leaf (h : Walked text nodes Source separating visited state)
    (hleaf : node.isLeaf = true) :
    Walked text nodes Source separating (visited ++ [node])
      { state with lastLeaf := some node } := by
  refine { h with lastLeaf := ?_ }
  rw [List.filter_append, List.filter_singleton, hleaf]
  simp

/-- **The whole walk**, by induction on the CST. -/
theorem Walked.collect_cst_edits {f : Forest (CstLabel G)} {base : ℕ}
    (h : Walked request.text request.nodes Source separating visited state)
    (hformats : FormatsArranged request Source separating)
    (hnodes : request.nodes = visited ++ (numbered base f).preorder ++ rest) (indentation : ℤ) :
    Walked request.text request.nodes Source separating (visited ++ (numbered base f).preorder)
      (FormattingState.collect_cst_edits request state indentation (numbered base f)) := by
  induction f generalizing base visited rest state indentation with
  | nil => simpa [numbered, Forest.preorder, FormattingState.collect_cst_edits] using h
  | cons l c r ihc ihr =>
    simp only [numbered, Forest.preorder, FormattingState.collect_cst_edits] at hnodes ⊢
    generalize hnode : l.item base c = node at hnodes ⊢
    have hplace : request.nodes = visited ++ node ::
        ((numbered (base + 1) c).preorder ++ (numbered (base + 1 + c.size) r).preorder
          ++ rest) := by
      rw [hnodes]
      simp
    have hchildren : request.nodes = visited ++ [node] ++ (numbered (base + 1) c).preorder ++
        ((numbered (base + 1 + c.size) r).preorder ++ rest) := by
      rw [hnodes]
      simp
    have hsiblings : request.nodes = visited ++ [node] ++ (numbered (base + 1) c).preorder ++
        (numbered (base + 1 + c.size) r).preorder ++ rest := by
      rw [hnodes]
      simp
    have hvisit := h.visitNode hformats hplace indentation
    generalize state.visitNode request node indentation = result at hvisit ⊢
    have hwalked : Walked request.text request.nodes Source
        separating (visited ++ [node] ++ (numbered (base + 1) c).preorder)
        (if node.isLeaf = true then { result.1 with lastLeaf := some node }
          else FormattingState.collect_cst_edits request result.1 result.2
            (numbered (base + 1) c)) := by
      split
      next hleaf =>
        -- A leaf has no children.
        have hc : c = .nil := by
          rw [← hnode] at hleaf
          cases c with
          | nil => rfl
          | cons => cases hleaf
        subst hc
        simpa [numbered, Forest.preorder] using hvisit.leaf hleaf
      next hleaf =>
        exact ihc (hvisit.enter (Bool.not_eq_true _ ▸ hleaf)) hchildren _
    have hrest := ihr hwalked hsiblings indentation
    simpa using hrest

/-! ### The edits that are kept -/

theorem mem_keepLater {filtered : List PendingEdit} {e : PendingEdit}
    (h : e ∈ keepLater filtered edit) : e = edit ∨ e ∈ filtered := by
  unfold keepLater at h
  have hsub := @List.dropWhile_subset _ filtered fun last : PendingEdit => edit.begin < last.end
  split at h
  · exact .inl (List.mem_singleton.mp h)
  next last later hdrop =>
    rw [hdrop] at hsub
    split at h
    · exact (List.mem_cons.mp h).imp id fun hmem => hsub (List.mem_cons_of_mem _ hmem)
    · exact (List.mem_cons.mp h).imp id fun hmem => hsub hmem

/-- The edits that are kept stop before the next one begins; the last stands first. -/
theorem keepLater_apart {filtered : List PendingEdit}
    (h : filtered.Pairwise fun e f => f.end ≤ e.begin)
    (hordered : ∀ e ∈ filtered, e.begin ≤ e.end) :
    (keepLater filtered edit).Pairwise fun e f => f.end ≤ e.begin := by
  have hsuffix := @List.dropWhile_suffix _ filtered fun last : PendingEdit =>
    edit.begin < last.end
  unfold keepLater
  split
  · exact List.pairwise_singleton _ _
  next last later hdrop =>
    rw [hdrop] at hsuffix
    have hkept := h.sublist hsuffix.sublist
    have hhead : last.end ≤ edit.begin := by
      have hne : filtered.dropWhile (fun last => edit.begin < last.end) ≠ [] := by
        rw [hdrop]
        exact List.cons_ne_nil _ _
      have hnot := List.head_dropWhile_not (fun last : PendingEdit => edit.begin < last.end) hne
      simp only [hdrop, List.head_cons, decide_eq_false_iff_not, Nat.not_lt] at hnot
      exact hnot
    have hlater : ∀ e ∈ later, e.end ≤ edit.begin := by
      intro e he
      have hbefore := (List.pairwise_cons.mp hkept).1 e he
      have := hordered last (hsuffix.subset List.mem_cons_self)
      omega
    split
    · exact List.pairwise_cons.mpr ⟨hlater, (List.pairwise_cons.mp hkept).2⟩
    · refine List.pairwise_cons.mpr ⟨fun e he => ?_, hkept⟩
      rcases List.mem_cons.mp he with rfl | he
      · exact hhead
      · exact hlater e he

theorem foldl_keepLater {edits filtered : List PendingEdit}
    (hordered : ∀ e ∈ filtered ++ edits, e.begin ≤ e.end)
    (h : filtered.Pairwise fun e f => f.end ≤ e.begin) :
    (edits.foldl keepLater filtered).Pairwise (fun e f => f.end ≤ e.begin) ∧
      ∀ e ∈ edits.foldl keepLater filtered, e ∈ filtered ++ edits := by
  induction edits generalizing filtered with
  | nil => exact ⟨h, fun e he => List.mem_append_left _ he⟩
  | cons edit edits ih =>
    have hsub : ∀ e ∈ keepLater filtered edit ++ edits, e ∈ filtered ++ edit :: edits := by
      intro e he
      rcases List.mem_append.mp he with he | he
      · rcases mem_keepLater he with rfl | he
        · simp
        · exact List.mem_append_left _ he
      · exact List.mem_append_right _ (List.mem_cons_of_mem _ he)
    obtain ⟨hpairwise, hmem⟩ := ih (fun e he => hordered e (hsub e he))
      (keepLater_apart h fun e he => hordered e (List.mem_append_left _ he))
    exact ⟨hpairwise, fun e he => hsub e (hmem e he)⟩

/-- **The final edits are edits of the walk that leave each other alone.** -/
theorem exists_finalize_edits {edits : List PendingEdit} (h : ∀ e ∈ edits, e.begin ≤ e.end) :
    ∃ kept : List PendingEdit, kept ⊆ edits ∧ kept.Pairwise (fun e f => e.end ≤ f.begin) ∧
      finalize_edits text edits
        = kept.map fun edit => ⟨to_lsp_range text edit.begin edit.end, edit.newText⟩ := by
  have hmem : ∀ e, e ∈ edits.insertionSort startsBefore ↔ e ∈ edits :=
    fun e => (List.perm_insertionSort startsBefore edits).mem_iff
  obtain ⟨hapart, hkept⟩ := @foldl_keepLater (edits.insertionSort startsBefore) []
    (fun e he => h e ((hmem e).mp he)) .nil
  refine ⟨_, fun e he => ?_, ?_, rfl⟩
  · have := hkept e (List.mem_reverse.mp (List.mem_filter.mp he).1)
    exact (hmem e).mp this
  · exact (List.pairwise_reverse.mpr hapart).filter _

/-! ### From edits to splices -/

theorem Keeps.ordered (h : Keeps text nodes Source separating edit)
    (harranged : Arranged text nodes) : edit.begin ≤ edit.end := by
  cases h with
  | gap gap _ _ => exact gap.le
  | hidden leaf _ hmem _ hbegin hstop _ _ =>
    rw [hbegin, hstop]
    exact harranged.ordered leaf hmem

theorem Keeps.boundary (h : Keeps text nodes Source separating edit)
    (harranged : Arranged text nodes) :
    AtBoundary text edit.begin ∧ AtBoundary text edit.end := by
  cases h with
  | gap gap _ _ => exact ⟨gap.begin_boundary, gap.stop_boundary⟩
  | hidden leaf _ hmem _ hbegin hstop _ _ =>
    rw [hbegin, hstop]
    exact harranged.boundary leaf hmem

/-- The offsets of a range are those it was made of. -/
theorem splice_to_lsp_range (hfit : LinesFit text) {begin stop : ℕ} (hle : begin ≤ stop)
    (hbegin : AtBoundary text begin) (hstop : AtBoundary text stop) (newText : List UInt8) :
    ValidEdit text ⟨to_lsp_range text begin stop, newText⟩ ∧
      (TextEdit.splice text ⟨to_lsp_range text begin stop, newText⟩).start = begin ∧
      (TextEdit.splice text ⟨to_lsp_range text begin stop, newText⟩).stop = stop := by
  have hconverts := converts_of_fit hfit
  have hback : ∀ {offset : ℕ}, AtBoundary text offset →
      offsetAt text (positionAt text offset) = offset ∧
        OnBoundary text (positionAt text offset) := by
    intro offset hb
    have hoffset := hb.offset_position hfit
    exact ⟨hoffset, (hconverts.position_offset _).mp (by rw [hoffset])⟩
  obtain ⟨hbegin, hbeginOn⟩ := hback hbegin
  obtain ⟨hstop, hstopOn⟩ := hback hstop
  refine ⟨⟨hbeginOn, hstopOn, ?_⟩, hbegin, ?_⟩
  · show offsetAt text (positionAt text begin) ≤ offsetAt text (positionAt text stop)
    rw [hbegin, hstop]
    exact hle
  · show max (offsetAt text (positionAt text begin)) (offsetAt text (positionAt text stop)) = stop
    rw [hbegin, hstop]
    exact Nat.max_eq_right hle

/-- A splice that does what an edit of the walk does. -/
def KeepsSplice (text : List UInt8) (nodes : List (CstItem G))
    (Source : CstItem G → List UInt8 → Prop) (separating : Prop) (splice : Splice UInt8) : Prop :=
  ∃ edit, Keeps text nodes Source separating edit ∧ splice.start = edit.begin ∧
    splice.stop = edit.end ∧ splice.text = edit.newText

/-! ### The formatted text -/

/-- A text made of the leaves of another one: the visible ones as they are, of the hidden ones
what can be seen of a source, and in between nothing to be seen but what stood there, in its
order.  Where all rules are separating, leaves that are apart stay apart. -/
inductive Rearranged (text : List UInt8) (Source : CstItem G → List UInt8 → Prop)
    (separating : Prop) : Option (CstItem G) → List (CstItem G) → List UInt8 → Prop
  | done {previous : Option (CstItem G)} {trailing : List UInt8}
    (fewer : (visible trailing).Sublist (visible (text.drop (gapBegin previous)))) :
    Rearranged text Source separating previous [] trailing
  | leaf {previous : Option (CstItem G)} {leaf : CstItem G} {leaves : List (CstItem G)}
    {gap own later : List UInt8}
    (fewer : (visible gap).Sublist (visible (slice text (gapBegin previous) leaf.begin)))
    (apart : separating → previous.isSome = true → gapBegin previous < leaf.begin → gap ≠ [])
    (seen : leaf.isHidden = false → own = nodeText text leaf)
    (hidden : leaf.isHidden = true → ∃ source, Source leaf source ∧ visible own = visible source)
    (rest : Rearranged text Source separating (some leaf) leaves later) :
    Rearranged text Source separating previous (leaf :: leaves) (gap ++ (own ++ later))

/-- Two leaves are the same or apart. -/
theorem Arranged.apart_leaves (h : Arranged text nodes) {x y : CstItem G} (hx : x ∈ nodes)
    (hy : y ∈ nodes) (hxl : x.isLeaf = true) (hyl : y.isLeaf = true) :
    x = y ∨ x.end ≤ y.begin ∨ y.end ≤ x.begin := by
  obtain ⟨before, after, hnodes⟩ := List.append_of_mem hx
  have hafter := h.after
  rw [hnodes] at hafter hy
  obtain ⟨-, hbehind, hcross⟩ := List.pairwise_append.mp hafter
  rcases List.mem_append.mp hy with hy | hy
  · exact .inr (.inr ((hcross y hy x List.mem_cons_self hyl).2 hxl))
  · rcases List.mem_cons.mp hy with rfl | hy
    · exact .inl rfl
    · exact .inr (.inl (((List.pairwise_cons.mp hbehind).1 y hy hxl).2 hyl))

section Leaves

variable {past leaves : List (CstItem G)} {leaf : CstItem G}

theorem mem_leaves (hleaves : nodes.filter (·.isLeaf) = past ++ leaves) :
    leaf ∈ nodes ∧ leaf.isLeaf = true ↔ leaf ∈ past ∨ leaf ∈ leaves := by
  rw [← List.mem_append, ← hleaves, List.mem_filter]

/-- The leaves follow each other. -/
theorem Arranged.leaves_pairwise (h : Arranged text nodes)
    (hleaves : nodes.filter (·.isLeaf) = past ++ leaves) :
    (past ++ leaves).Pairwise fun x y => x.end ≤ y.begin := by
  have hsorted := h.after.sublist (List.filter_sublist (p := fun l => l.isLeaf))
  rw [hleaves] at hsorted
  refine hsorted.imp_of_mem fun {x y} hx hy hxy => ?_
  have hleaf : ∀ l ∈ past ++ leaves, l.isLeaf = true := fun l hl =>
    ((mem_leaves hleaves).mpr (List.mem_append.mp hl)).2
  exact (hxy (hleaf x hx)).2 (hleaf y hy)

/-- The leaves that have been passed end where the next gap begins. -/
theorem Arranged.end_le_gapBegin (h : Arranged text nodes)
    (hleaves : nodes.filter (·.isLeaf) = past ++ leaves) (hleaf : leaf ∈ past) :
    leaf.end ≤ gapBegin past.getLast? := by
  rcases List.eq_nil_or_concat past with rfl | ⟨init, last, rfl⟩
  · cases hleaf
  have hsorted := h.leaves_pairwise hleaves
  rw [List.concat_eq_append] at hleaves hsorted hleaf ⊢
  rw [List.getLast?_concat]
  show leaf.end ≤ last.end
  rcases List.mem_append.mp hleaf with hleaf | hleaf
  · have hbefore := (List.pairwise_append.mp (List.pairwise_append.mp hsorted).1).2.2 leaf hleaf
      last List.mem_cons_self
    have hlast := ((mem_leaves hleaves).mpr
      (.inl (List.mem_append_right _ (List.mem_singleton_self last)))).1
    exact hbefore.trans (h.ordered last hlast)
  · rw [List.mem_singleton.mp hleaf]

/-- The leaves to come begin behind the gap. -/
theorem Arranged.gapBegin_le (h : Arranged text nodes)
    (hleaves : nodes.filter (·.isLeaf) = past ++ leaves) (hleaf : leaf ∈ leaves) :
    gapBegin past.getLast? ≤ leaf.begin := by
  rcases hlast : past.getLast? with _ | last
  · exact Nat.zero_le _
  · exact (List.pairwise_append.mp (h.leaves_pairwise hleaves)).2.2 last
      (List.mem_of_getLast? hlast) leaf hleaf

/-- Every leaf ends before the gap behind the last one. -/
theorem Arranged.clear_end (h : Arranged text nodes)
    (hleaves : nodes.filter (·.isLeaf) = past ++ []) (stop : ℕ) :
    ∀ other ∈ nodes, other.isLeaf = true →
      other.end ≤ gapBegin past.getLast? ∨ stop ≤ other.begin := by
  intro other hmem hother
  rcases (mem_leaves hleaves).mp ⟨hmem, hother⟩ with hpast | hmore
  · exact .inl (h.end_le_gapBegin hleaves hpast)
  · cases hmore

/-- No leaf reaches into the gap before the next one. -/
theorem Arranged.clear_gap (h : Arranged text nodes)
    (hleaves : nodes.filter (·.isLeaf) = past ++ leaf :: leaves) :
    ∀ other ∈ nodes, other.isLeaf = true →
      other.end ≤ gapBegin past.getLast? ∨ leaf.begin ≤ other.begin := by
  intro other hmem hother
  rcases (mem_leaves hleaves).mp ⟨hmem, hother⟩ with hpast | hmore
  · exact .inl (h.end_le_gapBegin hleaves hpast)
  · rcases List.mem_cons.mp hmore with rfl | hlater
    · exact .inr (Nat.le_refl _)
    · have hleaf := ((mem_leaves hleaves).mpr (.inr List.mem_cons_self)).1
      have hsorted := (List.pairwise_append.mp (h.leaves_pairwise hleaves)).2.1
      exact .inr ((h.ordered leaf hleaf).trans ((List.pairwise_cons.mp hsorted).1 other hlater))

end Leaves

variable {splices : List (Splice UInt8)}

/-- What is written where no leaf is cannot be seen. -/
theorem Arranged.visible_splice (h : Arranged text nodes)
    (hkeeps : ∀ s ∈ splices, KeepsSplice text nodes Source separating s)
    (hclear : ∀ leaf ∈ nodes, leaf.isLeaf = true → leaf.end ≤ begin ∨ stop ≤ leaf.begin) :
    ∀ s ∈ splices, begin ≤ s.start → s.start < stop → visible s.text = [] := by
  intro s hs hle hlt
  obtain ⟨edit, hkeep, hstart, -, htext⟩ := hkeeps s hs
  cases hkeep with
  | gap _ hblank _ => exact htext ▸ hblank.visible_eq
  | hidden leaf _ hleaf hhidden hbegin _ _ _ =>
    -- a hidden leaf is not empty, so it would reach into the stretch
    obtain ⟨hisLeaf, hne⟩ := h.hidden leaf hleaf hhidden
    rcases hclear leaf hleaf hisLeaf with hclear | hclear <;> omega

/-- What can be seen where no leaf is stood there before. -/
theorem Arranged.visible_region (h : Arranged text nodes)
    (hkeeps : ∀ s ∈ splices, KeepsSplice text nodes Source separating s)
    (hclear : ∀ leaf ∈ nodes, leaf.isLeaf = true → leaf.end ≤ begin ∨ stop ≤ leaf.begin) :
    (visible (Splice.region text splices begin stop)).Sublist (visible (slice text begin stop)) :=
  Splice.filter_region_sublist _ (h.visible_splice hkeeps hclear)

/-- What is inserted where a leaf begins cannot be seen. -/
theorem Arranged.visible_insertions (h : Arranged text nodes)
    (hkeeps : ∀ s ∈ splices, KeepsSplice text nodes Source separating s) (o : ℕ) :
    visible (Splice.insertions splices o) = [] := by
  refine AllBlank.visible_eq fun ch hch => ?_
  obtain ⟨s, hs, hstart, hstop, hmem⟩ := Splice.mem_insertions hch
  obtain ⟨edit, hkeep, hbegin, hend, htext⟩ := hkeeps s hs
  cases hkeep with
  | gap _ hblank _ => exact hblank ch (htext ▸ hmem)
  | hidden leaf _ hleaf hhidden hbegin _ _ _ =>
    have := (h.hidden leaf hleaf hhidden).2
    omega

/-- **What a leaf becomes.** -/
theorem Arranged.leaf_region (h : Arranged text nodes)
    (hkeeps : ∀ s ∈ splices, KeepsSplice text nodes Source separating s)
    (hapart : splices.Pairwise Splice.Apart) {leaf : CstItem G} (hmem : leaf ∈ nodes)
    (hleaf : leaf.isLeaf = true) (hne : leaf.begin < leaf.end)
    (hown : Source leaf (nodeText text leaf)) :
    ∃ own, Splice.region text splices leaf.begin leaf.end
        = Splice.insertions splices leaf.begin ++ own ∧
      (leaf.isHidden = false → own = nodeText text leaf) ∧
      (leaf.isHidden = true → ∃ source, Source leaf source ∧ visible own = visible source) := by
  by_cases hsplice : ∃ s ∈ splices, s.start = leaf.begin ∧ s.stop = leaf.end
  · obtain ⟨s, hs, hstart, hstop⟩ := hsplice
    obtain ⟨edit, hkeep, hbegin, hend, htext⟩ := hkeeps s hs
    refine ⟨s.text, ?_, ?_⟩
    · have hregion := @Splice.region_replaced _ text s splices (by omega) hs hapart
      rwa [hstart, hstop] at hregion
    cases hkeep with
    | gap gap _ _ =>
      -- no gap reaches into the leaf
      have := gap.clear leaf hmem hleaf
      omega
    | hidden other source hother hhidden hotherBegin hotherEnd hsource hseen =>
      -- the hidden node that is replaced is the leaf: no other one is at its place
      obtain ⟨hotherLeaf, hotherNe⟩ := h.hidden other hother hhidden
      have hsame : leaf = other := by
        rcases h.apart_leaves hmem hother hleaf hotherLeaf with heq | hle | hle
        · exact heq
        · omega
        · omega
      subst hsame
      rw [htext]
      refine ⟨fun hvisible => ?_, fun _ => ⟨source, hsource, hseen⟩⟩
      rw [hhidden] at hvisible
      cases hvisible
  · -- no edit replaces the leaf, and what reaches into it would
    refine ⟨nodeText text leaf, Splice.region_untouched hne fun s hs => ?_, fun _ => rfl,
      fun _ => ⟨_, hown, rfl⟩⟩
    obtain ⟨edit, hkeep, hbegin, hend, -⟩ := hkeeps s hs
    cases hkeep with
    | gap gap _ _ =>
      have := gap.clear leaf hmem hleaf
      omega
    | hidden other source hother hhidden hotherBegin hotherEnd _ _ =>
      obtain ⟨hotherLeaf, -⟩ := h.hidden other hother hhidden
      rcases h.apart_leaves hmem hother hleaf hotherLeaf with rfl | hle | hle
      · exact absurd ⟨s, hs, by omega, by omega⟩ hsplice
      · omega
      · omega

/-- Where all rules are separating, something is left behind a leaf that the next one does not
follow at once. -/
theorem Arranged.region_ne_nil (h : Arranged text nodes)
    (hkeeps : ∀ s ∈ splices, KeepsSplice text nodes Source separating s) (hsep : separating)
    {last : CstItem G} (hlast : last ∈ nodes) (hleaf : last.isLeaf = true)
    (hlt : last.end < stop) (hstop : stop ≤ text.length)
    (hclear : ∀ leaf ∈ nodes, leaf.isLeaf = true → leaf.end ≤ last.end ∨ stop ≤ leaf.begin) :
    Splice.region text splices last.end stop ≠ [] := by
  rw [Splice.region_succ hlt]
  refine List.append_ne_nil_of_left_ne_nil (Splice.emit_ne_nil (hlt.trans_le hstop) ?_) _
  intro s hs hle hover
  obtain ⟨edit, hkeep, hbegin, hend, htext⟩ := hkeeps s hs
  cases hkeep with
  | gap gap _ parts =>
    -- an edit of the gap begins where the leaf before it ends, so it parts the two
    have hordered := h.ordered last hlast
    have hstart : last.end = edit.begin := by
      rcases gap.clear last hlast hleaf with hclear | hclear <;> omega
    exact ⟨by omega, htext ▸ parts hsep (by omega) last hlast hleaf hstart⟩
  | hidden other _ hother hhidden hotherBegin hotherEnd _ _ =>
    obtain ⟨hotherLeaf, -⟩ := h.hidden other hother hhidden
    rcases hclear other hother hotherLeaf with hclear | hclear <;> omega

/-- The text from an offset on, by induction on the leaves that are left. -/
theorem Arranged.rearranged_region (h : Arranged text nodes)
    (hkeeps : ∀ s ∈ splices, KeepsSplice text nodes Source separating s)
    (hapart : splices.Pairwise Splice.Apart)
    (hown : ∀ leaf ∈ nodes, Source leaf (nodeText text leaf)) {past leaves : List (CstItem G)}
    (hleaves : nodes.filter (·.isLeaf) = past ++ leaves)
    (hle : gapBegin past.getLast? ≤ text.length + 1) :
    Rearranged text Source separating past.getLast? leaves
      (Splice.region text splices (gapBegin past.getLast?) (text.length + 1)) := by
  induction leaves generalizing past with
  | nil =>
    have hregion := h.visible_region hkeeps (h.clear_end hleaves (text.length + 1))
    refine .done ?_
    rwa [slice, List.take_of_length_le (by rw [List.length_drop]; omega)] at hregion
  | cons leaf leaves ih =>
    obtain ⟨hmem, hleaf⟩ := (mem_leaves hleaves).mpr (.inr (List.mem_cons_self (a := leaf)))
    have hordered := h.ordered leaf hmem
    have hend : leaf.end ≤ text.length := (h.boundary leaf hmem).2.le.trans (textSize_le text)
    have hstart := h.gapBegin_le hleaves List.mem_cons_self
    have hclear := h.clear_gap hleaves
    have hrest := @ih (past ++ [leaf]) (by rw [hleaves]; simp) (by
      rw [List.getLast?_concat]
      exact hend.trans (Nat.le_succ _))
    rw [List.getLast?_concat] at hrest
    replace hrest : Rearranged text Source separating (some leaf) leaves
      (Splice.region text splices leaf.end (text.length + 1)) := hrest
    have hgap := h.visible_region hkeeps hclear
    have hne : separating → past.getLast?.isSome = true → gapBegin past.getLast? < leaf.begin →
        Splice.region text splices (gapBegin past.getLast?) leaf.begin ≠ [] := by
      intro hsep hsome hlt
      obtain ⟨last, hlast⟩ := Option.isSome_iff_exists.mp hsome
      rw [hlast] at hlt hclear ⊢
      obtain ⟨hlastMem, hlastLeaf⟩ :=
        (mem_leaves hleaves).mpr (.inl (List.mem_of_getLast? hlast))
      exact h.region_ne_nil hkeeps hsep hlastMem hlastLeaf hlt (hordered.trans hend) hclear
    -- the gap before the leaf, the leaf, and the rest
    rw [Splice.region_append hstart (by omega), Splice.region_append hordered (by omega)]
    rcases Nat.lt_or_eq_of_le hordered with hfilled | hempty
    · obtain ⟨own, hregion, hseen, hhidden⟩ :=
        h.leaf_region hkeeps hapart hmem hleaf hfilled (hown leaf hmem)
      rw [hregion, List.append_assoc, ← List.append_assoc]
      refine .leaf ?_ (fun hsep hsome hlt => ?_) hseen hhidden hrest
      · rwa [visible_append, h.visible_insertions hkeeps, List.append_nil]
      · exact List.append_ne_nil_of_left_ne_nil (hne hsep hsome hlt) _
    · -- an empty leaf is a visible one
      have hown : nodeText text leaf = [] := by
        rw [nodeText, slice, hempty, Nat.sub_self, List.take_zero]
      rw [← hempty] at hrest ⊢
      rw [Splice.region_self]
      refine .leaf hgap hne (fun _ => hown.symm) (fun hhidden => ?_) hrest
      have := (h.hidden leaf hmem hhidden).2
      omega

/-- **The edits of a walk are sorted and apart, and rearrange the text**, when each of them keeps
what it is to keep. -/
theorem Arranged.rearranged_finalize_edits (h : Arranged text nodes)
    (hown : ∀ leaf ∈ nodes, Source leaf (nodeText text leaf)) {edits : List PendingEdit}
    (hkeeps : ∀ e ∈ edits, Keeps text nodes Source separating e) :
    Applicable text (finalize_edits text edits) ∧
      ((finalize_edits text edits).Pairwise fun e f => ¬ f.range.start.Before e.range.stop) ∧
      ∀ sort, Sorts sort (finalize_edits text edits) → ∃ formatted,
        applyEdits sort text (finalize_edits text edits) = some formatted ∧
          Rearranged text Source separating none (nodes.filter (·.isLeaf)) formatted := by
  obtain ⟨kept, hsub, hkept, hfinal⟩ :=
    @exists_finalize_edits text edits fun e he => (hkeeps e he).ordered h
  rw [hfinal]
  generalize hmade : kept.map (fun edit : PendingEdit =>
    (⟨to_lsp_range text edit.begin edit.end, edit.newText⟩ : TextEdit)) = made
  have hsplice : ∀ e ∈ kept, ValidEdit text ⟨to_lsp_range text e.begin e.end, e.newText⟩ ∧
      (TextEdit.splice text ⟨to_lsp_range text e.begin e.end, e.newText⟩).start = e.begin ∧
      (TextEdit.splice text ⟨to_lsp_range text e.begin e.end, e.newText⟩).stop = e.end := by
    intro e he
    have hkeep := hkeeps e (hsub he)
    exact splice_to_lsp_range h.fits (hkeep.ordered h) (hkeep.boundary h).1 (hkeep.boundary h).2
      e.newText
  have happlicable : Applicable text made := by
    subst hmade
    refine ⟨fun edit hedit => ?_, List.pairwise_map.mpr (hkept.imp_of_mem ?_)⟩
    · obtain ⟨e, he, rfl⟩ := List.mem_map.mp hedit
      exact (hsplice e he).1
    · intro e e' he he' hle
      refine .inl ?_
      rw [(hsplice e he).2.2, (hsplice e' he').2.1]
      exact hle
  have hsorted : made.Pairwise fun e f => ¬ f.range.start.Before e.range.stop := by
    subst hmade
    refine List.pairwise_map.mpr (hkept.imp_of_mem fun {e e'} he he' hle hbefore => ?_)
    have hlt := offsetAt_lt (hsplice e' he').1.start (hsplice e he).1.stop hbefore
    have hstop := (hsplice e he).1.splice_stop.symm.trans (hsplice e he).2.2
    have hstart : offsetAt text (to_lsp_range text e'.begin e'.end).start = e'.begin :=
      (hsplice e' he').2.1
    exact absurd hle (Nat.not_le.mpr (hstart ▸ hstop ▸ hlt))
  refine ⟨happlicable, hsorted, fun sort hsort => ⟨_, applyEdits_eq happlicable hsort, ?_⟩⟩
  have hperm : (sort made).reverse.Perm made := (List.reverse_perm _).trans hsort.perm
  have hleaves : nodes.filter (·.isLeaf) = [] ++ nodes.filter (·.isLeaf) := rfl
  rw [Splice.substitute_eq_region]
  refine h.rearranged_region ?_ ?_ hown hleaves (Nat.zero_le _)
  · intro s hs
    obtain ⟨edit, hedit, rfl⟩ := List.mem_map.mp hs
    have hedit := hperm.mem_iff.mp hedit
    subst hmade
    obtain ⟨e, he, rfl⟩ := List.mem_map.mp hedit
    exact ⟨e, hkeeps e (hsub he), (hsplice e he).2.1, (hsplice e he).2.2, rfl⟩
  · exact List.pairwise_map.mpr (happlicable.perm hperm).apart

/-- A text made of leaves, with blanks between them: the visible ones as they are, and of the
hidden ones what can be seen of a source. -/
inductive Reformatted (text : List UInt8) (Source : CstItem G → List UInt8 → Prop) :
    List (CstItem G) → List UInt8 → Prop
  | done {trailing : List UInt8} (blank : AllBlank trailing) : Reformatted text Source [] trailing
  | leaf {leaf : CstItem G} {leaves : List (CstItem G)} {gap own later : List UInt8}
    (blank : AllBlank gap) (seen : leaf.isHidden = false → own = nodeText text leaf)
    (hidden : leaf.isHidden = true → ∃ source, Source leaf source ∧ visible own = visible source)
    (rest : Reformatted text Source leaves later) :
    Reformatted text Source (leaf :: leaves) (gap ++ (own ++ later))

theorem allBlank_of_visible {x : List UInt8} (h : visible x = []) : AllBlank x := by
  intro ch hch
  have := List.filter_eq_nil_iff.mp h ch hch
  simpa using this

/-- Nothing can be seen of a stretch that no leaf reaches into. -/
theorem Laid.visible_gap (h : Laid text nodes)
    (hclear : ∀ leaf ∈ nodes, leaf.isLeaf = true → leaf.end ≤ begin ∨ stop ≤ leaf.begin) :
    visible (slice text begin stop) = [] := by
  refine AllBlank.visible_eq fun ch hch => ?_
  obtain ⟨i, hi⟩ := List.mem_iff_getElem?.mp hch
  have hlt : i < stop - begin := by
    have := (List.getElem?_eq_some_iff.mp hi).1
    rw [slice, List.length_take] at this
    omega
  rw [slice, List.getElem?_take_of_lt hlt, List.getElem?_drop] at hi
  have hblank := h.blank (begin + i) (List.getElem?_eq_some_iff.mp hi).1 fun leaf hmem hleaf => by
    rcases hclear leaf hmem hleaf with hclear | hclear <;> omega
  rwa [byteAt, List.getD_eq_getElem?_getD, hi] at hblank

/-- A text that is laid out by its leaves has blanks between them afterwards. -/
theorem Rearranged.reformatted (h : Laid text nodes) (past : List (CstItem G))
    {leaves : List (CstItem G)} {formatted : List UInt8}
    (hrearranged : Rearranged text Source separating past.getLast? leaves formatted)
    (hleaves : nodes.filter (·.isLeaf) = past ++ leaves) :
    Reformatted text Source leaves formatted := by
  generalize hprevious : past.getLast? = previous at hrearranged
  induction hrearranged generalizing past with
  | @done previous trailing fewer =>
    refine .done (allBlank_of_visible (List.sublist_nil.mp ?_))
    have hnone := h.visible_gap (h.clear_end hleaves (text.length + 1))
    rw [slice, List.take_of_length_le (by rw [List.length_drop]; omega), hprevious] at hnone
    rwa [hnone] at fewer
  | @leaf previous leaf leaves gap own later fewer _ seen hidden _ ih =>
    refine .leaf (allBlank_of_visible (List.sublist_nil.mp ?_)) seen hidden
      (@ih (past ++ [leaf]) (by rw [hleaves]; simp) List.getLast?_concat)
    have hnone := h.visible_gap (h.clear_gap hleaves)
    rw [hprevious] at hnone
    rwa [hnone] at fewer

variable {options : FormattingOptions} {f : Forest (CstLabel G)}
  {rules : List (ℕ × FormattingMode × FormattingAction)}
  {hiddenFormatter : CstItem G → ℤ → List HiddenFormatting} {range : Option TextRange}

/-- The nodes of a CST are numbered by their places. -/
theorem ids_numbered (f : Forest (CstLabel G)) :
    (numbered 0 f).preorder.map (·.id) = List.range (numbered 0 f).preorder.length := by
  have hids := preorder_numbered 0 f
  have hlength := congrArg List.length hids
  rw [List.length_map, List.length_range'] at hlength
  rw [hlength, List.range_eq_range']
  exact hids

/-- No rule and no hidden formatter leaves a gap empty. -/
structure Separating (rules : List (ℕ × FormattingMode × FormattingAction))
    (hiddenFormatter : CstItem G → ℤ → List HiddenFormatting) : Prop where
  rules : ∀ rule ∈ rules, rule.2.2.Separates
  hidden : ∀ node indentation, ∀ formatting ∈ hiddenFormatter node indentation,
    formatting.Separates

/-- The rules that `format` attaches, one after the other. -/
theorem allSeparate_foldl {formattings : Formattings} (h : AllSeparate formattings)
    (hrules : ∀ rule ∈ rules, rule.2.2.Separates) :
    AllSeparate (rules.foldl
      (fun formattings rule => collector formattings rule.1 rule.2.1 rule.2.2) formattings) := by
  induction rules generalizing formattings with
  | nil => exact h
  | cons rule rules ih =>
    exact ih (h.collector (hrules rule List.mem_cons_self) _ _) fun rule' hrule' =>
      hrules rule' (List.mem_cons_of_mem _ hrule')

/-- The edits of a document are final edits of a walk that keeps what it is to keep. -/
theorem exists_walk (h : Arranged text (numbered 0 f).preorder) (htabs : TabsFit options) :
    ∃ edits : List PendingEdit,
      (∀ e ∈ edits, Keeps text (numbered 0 f).preorder (TextSource text hiddenFormatter)
        (Separating rules hiddenFormatter) e) ∧
      doDocumentFormat text options (numbered 0 f) rules hiddenFormatter range
        = some (finalize_edits text edits) := by
  unfold doDocumentFormat
  dsimp only
  have hseparate : Separating rules hiddenFormatter → AllSeparate (rules.foldl
      (fun formattings rule => collector formattings rule.1 rule.2.1 rule.2.2)
        fun _ _ => none) :=
    fun hs => allSeparate_foldl (fun _ _ _ haction => by cases haction) hs.rules
  generalize List.foldl _ _ rules = formattings at hseparate ⊢
  generalize hrequest : (⟨text, options, (numbered 0 f).preorder, hiddenFormatter, range⟩ :
    FormattingRequest G) = request
  have hformats : FormatsArranged request (TextSource text hiddenFormatter)
      (Separating rules hiddenFormatter) := by
    subst hrequest
    exact ⟨h, htabs, ids_numbered f, fun _ _ => .inl rfl,
      fun _ _ indentation _ hr => .inr ⟨indentation, hr⟩, fun hs => hs.hidden⟩
  have hinitial : Walked request.text request.nodes (TextSource text hiddenFormatter)
      (Separating rules hiddenFormatter) []
      (⟨formattings, fun _ => none, none, []⟩ : FormattingState G) :=
    ⟨rfl, fun _ he => absurd he List.not_mem_nil, hseparate, fun _ _ _ hr => by cases hr⟩
  have hnodes : request.nodes = [] ++ (numbered 0 f).preorder ++ [] := by
    subst hrequest
    simp
  have hwalked := hinitial.collect_cst_edits hformats hnodes 0
  subst hrequest
  have hmade := hwalked.edits
  refine ⟨_, fun e he => ?_, if_pos (List.all_eq_true.mpr fun edit hedit => ?_)⟩
  · obtain ⟨edit, hedit, rfl⟩ := List.mem_filterMap.mp he
    obtain ⟨made, hsome, hkeeps⟩ := hmade _ hedit
    cases hsome
    exact hkeeps
  · obtain ⟨made, rfl, -⟩ := hmade edit hedit
    rfl

/-- **Formatting rearranges a text**: for all rules, hidden formatters and ranges, the edits of
a document are sorted and apart, and what they give is made of its leaves. -/
theorem exists_rearranged (h : Arranged text (numbered 0 f).preorder) (htabs : TabsFit options) :
    ∃ edits, doDocumentFormat text options (numbered 0 f) rules hiddenFormatter range = some edits ∧
      Applicable text edits ∧
      (edits.Pairwise fun e f => ¬ f.range.start.Before e.range.stop) ∧
      ∀ sort, Sorts sort edits → ∃ formatted, applyEdits sort text edits = some formatted ∧
        Rearranged text (TextSource text hiddenFormatter) (Separating rules hiddenFormatter) none
          ((numbered 0 f).preorder.filter (·.isLeaf)) formatted := by
  obtain ⟨edits, hkeeps, heq⟩ :=
    @exists_walk G text options f rules hiddenFormatter range h htabs
  exact ⟨_, heq, h.rearranged_finalize_edits (fun _ _ => .inl rfl) hkeeps⟩

/-- Edits from the last one to the first. -/
def sortEdits (edits : List TextEdit) : List TextEdit :=
  edits.mergeSort fun e f => !edit_starts_after f e

theorem sorts_sortEdits (edits : List TextEdit) : Sorts sortEdits edits where
  perm := List.mergeSort_perm _ _
  sorted := by
    have htrans : ∀ e f g : TextEdit, (!edit_starts_after f e) = true →
        (!edit_starts_after g f) = true → (!edit_starts_after g e) = true := by
      intro e f g hef hfg
      simp only [Bool.not_eq_true', edit_starts_after_eq_false] at hef hfg ⊢
      exact le_trans hfg hef
    have htotal : ∀ e f : TextEdit,
        ((!edit_starts_after f e) || !edit_starts_after e f) = true := by
      intro e f
      simp only [Bool.or_eq_true, Bool.not_eq_true', edit_starts_after_eq_false]
      exact le_total _ _
    exact (List.pairwise_mergeSort htrans htotal edits).imp fun h => by simpa using h

/-- `a`, a comment on the same line, and `b` on the next one. -/
def commentedText : List UInt8 := [97, 47, 42, 32, 42, 47, 10, 32, 98]

def commentedCst : Forest (CstLabel Unit) :=
  .tree ⟨0, 9, (), false, false⟩
    (.cons ⟨0, 1, (), false, false⟩ .nil
      (.cons ⟨1, 6, (), true, false⟩ .nil (.cons ⟨8, 9, (), false, false⟩ .nil .nil)))

theorem laid_commented : Laid commentedText (numbered 0 commentedCst).preorder where
  fits := by
    show newlinesBefore commentedText (textSize commentedText) + 1 < uint32Size
    decide
  ordered := by decide
  boundary node hmem := by
    have hascii : ∀ byte ∈ commentedText, byte < 0x80 := by simp [commentedText]
    have hends : ∀ node ∈ (numbered 0 commentedCst).preorder,
        node.begin ≤ textSize commentedText ∧ node.end ≤ textSize commentedText := by decide
    exact ⟨atBoundary_of_ascii hascii (hends node hmem).1,
      atBoundary_of_ascii hascii (hends node hmem).2⟩
  hidden := by decide
  after := by decide
  within := by decide
  blank := by decide

end Pegium.Formatting
