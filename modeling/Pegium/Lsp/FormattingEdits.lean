/-
Pegium/Lsp/FormattingEdits.lean

From formatting rules to edits.

A rule is attached to a node, before or after it, and says how many spaces or line
breaks are to stand there, or by how much what follows is indented.  The walk over the
CST turns the rules into edits: each replaces the white space between a leaf and the node
that follows it, or a hidden leaf, whose lines are indented anew and whose text a hidden
formatter may have replaced.  The edits are then sorted, and of two that overlap the
later one is kept.

Counts are of 32 bits in the source; where one is cast from an unsigned number it is
wrapped here too, and sums and products are those of integers.  A negative number of spaces
is one that no string can have, so that the source throws: such an edit is `none`, and there
is no result then.
-/
import Mathlib.Data.List.Sort
import Mathlib.Logic.Function.Basic
import Pegium.SyntaxTree.CstView
import Pegium.Workspace.TextDocument

namespace Pegium.Formatting

open Function (update)

/-! ### Rules -/

/-- The options of a formatting request. -/
structure FormattingOptions where
  tabSize : ℕ
  insertSpaces : Bool
  deriving DecidableEq

/-- Which move wins at a gap, and whether it may leave more or less than it asks
for. -/
structure FormattingActionOptions where
  priority : ℤ
  allowMore : Bool
  allowLess : Bool
  deriving DecidableEq

/-- What an action puts into a gap: spaces, a change of the indentation, or lines. -/
structure FormattingMove where
  characters : Option ℤ
  tabs : Option ℤ
  lines : Option ℤ
  deriving DecidableEq

/-- The moves a rule offers for a gap. -/
structure FormattingAction where
  options : FormattingActionOptions
  moves : List FormattingMove
  deriving DecidableEq

/-- Whether a rule formats the gap before a node or the one after it. -/
inductive FormattingMode where
  | prepend
  | append
  deriving DecidableEq

/-- An edit in offsets. -/
structure PendingEdit where
  begin : ℕ
  «end» : ℕ
  newText : List UInt8
  deriving DecidableEq

/-- What the edits of a gap are made from: the text, the options and the
indentation there. -/
structure FormattingContext where
  text : List UInt8
  options : FormattingOptions
  indentation : ℤ

/-- The indentation after a move. -/
def FormattingContext.indented (context : FormattingContext) (move : Option FormattingMove) :
    FormattingContext :=
  { context with
    indentation := context.indentation + ((move.bind (·.tabs)).getD 0) }

/-- `static_cast<std::int32_t>` of an unsigned number. -/
def int32 (n : ℕ) : ℤ := (n : ℤ).bmod (2 ^ 32)

/-! ### White space -/

/-- A tab is at least one column wide. -/
def effective_tab_size (options : FormattingOptions) : ℕ :=
  if options.tabSize = 0 then 1 else options.tabSize

/-- The tab size is negative when it is taken for a signed number, if it is large. -/
def indentation_text (indentation : ℤ) (options : FormattingOptions) : Option (List UInt8) :=
  let indentation := max indentation 0
  if options.insertSpaces then
    let spaces := indentation * int32 (effective_tab_size options)
    if spaces < 0 then none else some (List.replicate spaces.toNat 32)
  else some (List.replicate indentation.toNat 9)

/-- So many spaces, or tabs. -/
def whitespace_text (characters : ℤ) (options : FormattingOptions) : List UInt8 :=
  List.replicate (max characters 0).toNat (if options.insertSpaces then 32 else 9)

/-- The columns that spaces and tabs at the start of a text take. -/
def countSpaces (tabSize : ℤ) : ℤ → List UInt8 → ℤ
  | count, ch :: rest =>
    if ch = 32 then countSpaces tabSize (count + 1) rest
    else if ch = 9 then countSpaces tabSize (count + tabSize) rest
    else count
  | count, [] => count

/-- The tabs that spaces and tabs at the start of a text stand for; spaces that do not fill
a tab count for one each. -/
def countTabs (tabSize : ℕ) : ℤ → ℕ → List UInt8 → ℤ
  | count, spaces, ch :: rest =>
    if ch = 32 then countTabs tabSize count (spaces + 1) rest
    else
      let count := count + int32 (spaces / tabSize) + int32 (spaces % tabSize)
      if ch = 9 then countTabs tabSize (count + 1) 0 rest else count
  | count, spaces, [] => count + int32 (spaces / tabSize) + int32 (spaces % tabSize)

/-- How far a line is indented already, in characters of the options. -/
def get_existing_indentation_character_count (text : List UInt8) (context : FormattingContext) :
    ℤ :=
  let tabSize := effective_tab_size context.options
  if context.options.insertSpaces then countSpaces (int32 tabSize) 0 text
  else countTabs tabSize 0 0 text

/-- How far a line is to be indented, in characters of the options. -/
def get_indentation_character_count (context : FormattingContext) : ℤ :=
  if context.options.insertSpaces then
    context.indentation * int32 (effective_tab_size context.options)
  else context.indentation

/-- The range of a span of offsets. -/
def to_lsp_range (text : List UInt8) (begin stop : ℕ) : TextRange :=
  ⟨positionAt text begin, positionAt text stop⟩

/-- How many line breaks a range has. -/
def lineBreaks (range : TextRange) : ℤ := int32 range.stop.line - int32 range.start.line

/-- Two ranges share a line. -/
def ranges_overlap (inside total : TextRange) : Bool :=
  inside.start.line ≤ total.stop.line && total.start.line ≤ inside.stop.line

/-- Whether a request for a range asks for the edit. -/
def edit_inside_range (text : List UInt8) (edit : PendingEdit) (range : Option TextRange) : Bool :=
  range.all (ranges_overlap (to_lsp_range text edit.begin edit.end))

/-! ### One rule -/

/-- The number asked for, unless more, or fewer, may stay. -/
def fit_into_options (value existing : ℤ) (options : FormattingActionOptions) : ℤ :=
  if options.allowMore then max existing value
  else if options.allowLess then min existing value
  else value

/-- The gap has no more lines than the move allows. -/
def FormattingMove.fits (existingLines : ℤ) (move : FormattingMove) : Bool :=
  match move.lines with
  | some lines => existingLines ≤ lines
  | none => existingLines = 0

/-- The first move that fits, or the last one. -/
def find_fitting_move (range : TextRange) (formatting : FormattingAction) : Option FormattingMove :=
  match formatting.moves with
  | [] => none
  | [move] => some move
  | moves => (moves.find? (·.fits (lineBreaks range))).or moves.getLast?

/-- So many spaces for the gap. -/
def create_space_edit (text : List UInt8) (begin stop : ℕ) (spaces : ℤ)
    (options : FormattingActionOptions) : PendingEdit :=
  let range := to_lsp_range text begin stop
  let spaces :=
    if range.start.line = range.stop.line then
      fit_into_options spaces (int32 range.stop.character - int32 range.start.character) options
    else spaces
  ⟨begin, stop, List.replicate (max spaces 0).toNat 32⟩

/-- So many line feeds, and the indentation of the next line. -/
def create_line_edit (begin stop : ℕ) (lines : ℤ) (context : FormattingContext)
    (options : FormattingActionOptions) : Option PendingEdit :=
  let lines := fit_into_options lines (lineBreaks (to_lsp_range context.text begin stop)) options
  (indentation_text context.indentation context.options).map fun indentation =>
    ⟨begin, stop, List.replicate (max lines 0).toNat 10 ++ indentation⟩

/-- The lines the gap has, at least one behind a node, and the indentation. -/
def create_tab_edit (begin stop : ℕ) (hasPrevious : Bool) (context : FormattingContext) :
    Option PendingEdit :=
  let minimumLines := if hasPrevious then 1 else 0
  let lines := max (lineBreaks (to_lsp_range context.text begin stop)) minimumLines
  (indentation_text context.indentation context.options).map fun indentation =>
    ⟨begin, stop, List.replicate lines.toNat 10 ++ indentation⟩

/-- Up to `n` spaces and tabs are dropped. -/
def trimUpTo : ℕ → List UInt8 → List UInt8
  | n + 1, ch :: rest => if ch == 32 || ch == 9 then trimUpTo n rest else ch :: rest
  | _, line => line

/-- A line of a hidden text but the first, a carriage return at its end apart. -/
def reindentLine (characterIncrease : ℤ) (context : FormattingContext) (line : List UInt8) :
    List UInt8 :=
  let hadCarriageReturn := line.getLast? = some 13
  let content := if hadCarriageReturn then line.dropLast else line
  (if 0 < characterIncrease then whitespace_text characterIncrease context.options ++ content
    else trimUpTo characterIncrease.natAbs content) ++
    (if hadCarriageReturn then [13] else [])

/-- The lines of a comment but the first move with the indentation. -/
def reindent_hidden_text (text : List UInt8) (characterIncrease : ℤ)
    (context : FormattingContext) : List UInt8 :=
  if characterIncrease = 0 then text
  else
    match text.splitOn 10 with
    | [] => []
    | first :: rest =>
      [10].intercalate (first :: rest.map (reindentLine characterIncrease context))

variable {G : Type*}

/-- The bytes of a node. -/
def nodeText (text : List UInt8) (node : CstItem G) : List UInt8 := slice text node.begin node.end

/-- Where the white space before a node begins. -/
def gapBegin (previous : Option (CstItem G)) : ℕ := (previous.map (·.end)).getD 0

/-- The edits of the white space before a hidden leaf and of its text. -/
def create_hidden_text_edits (previous : Option (CstItem G)) (hidden : CstItem G)
    (formatting : Option FormattingAction) (replacementText : Option (List UInt8))
    (context : FormattingContext) : List (Option PendingEdit) :=
  let text := context.text
  let startLine := (positionAt text hidden.begin).line
  let previousEndsOnSameLine :=
    previous.any fun previous => (positionAt text previous.end).line = startLine
  let lineStartOffset := offsetAt text ⟨startLine, 0⟩
  let hiddenStartText := slice text lineStartOffset hidden.begin
  let begin := gapBegin previous
  let move := formatting.bind (find_fitting_move (to_lsp_range text begin hidden.begin))
  let effectiveContext := context.indented move
  let options := (formatting.map (·.options)).getD ⟨0, false, false⟩
  let moved : List (Option PendingEdit) :=
    match move with
    | none => []
    | some ⟨some characters, _, _⟩ =>
      [some (create_space_edit text begin hidden.begin characters options)]
    | some ⟨none, _, some lines⟩ =>
      [create_line_edit begin hidden.begin lines effectiveContext options]
    | some ⟨none, some _, none⟩ =>
      [create_tab_edit begin hidden.begin previous.isSome effectiveContext]
    | some ⟨none, none, none⟩ => []
  let hiddenStartChars := get_existing_indentation_character_count hiddenStartText context
  let shouldReindentHiddenText :=
    match move with
    | none => !previousEndsOnSameLine
    | some move => move.characters.isNone
  let expectedStartChars :=
    if shouldReindentHiddenText then get_indentation_character_count effectiveContext
    else hiddenStartChars
  let characterIncrease := expectedStartChars - hiddenStartChars
  let indented : List (Option PendingEdit) :=
    if move.isNone && !previousEndsOnSameLine && characterIncrease ≠ 0 then
      [(indentation_text effectiveContext.indentation context.options).map fun indentation =>
        ⟨lineStartOffset, hidden.begin, indentation⟩]
    else []
  let targetText := replacementText.getD (nodeText text hidden)
  let reindentChars := if replacementText.isSome then expectedStartChars else characterIncrease
  let normalizedHiddenText :=
    if shouldReindentHiddenText then
      reindent_hidden_text targetText reindentChars effectiveContext
    else targetText
  let replaced : List (Option PendingEdit) :=
    if replacementText.isSome || normalizedHiddenText ≠ nodeText text hidden then
      [some ⟨hidden.begin, hidden.end, normalizedHiddenText⟩]
    else []
  moved ++ indented ++ replaced

/-- The edits of the white space before a node, and what is indented from there on; after a
leaf nothing is. -/
def create_text_edits (previous : Option (CstItem G)) (node : CstItem G)
    (formatting : FormattingAction) (context : FormattingContext) :
    List (Option PendingEdit) × ℤ :=
  if node.isHidden then
    (create_hidden_text_edits previous node (some formatting) none context, context.indentation)
  else if previous.any fun previous => node.begin < previous.end then ([], context.indentation)
  else
    let begin := gapBegin previous
    match find_fitting_move (to_lsp_range context.text begin node.begin) formatting with
    | none => ([], context.indentation)
    | some move =>
      let moved := context.indented (some move)
      let edits : List (Option PendingEdit) :=
        match move with
        | ⟨some characters, _, _⟩ =>
          if previous.any (·.isHidden) then []
          else [some
            (create_space_edit context.text begin node.begin characters formatting.options)]
        | ⟨none, _, some lines⟩ =>
          [create_line_edit begin node.begin lines moved formatting.options]
        | ⟨none, some _, none⟩ => [create_tab_edit begin node.begin previous.isSome moved]
        | ⟨none, none, none⟩ => []
      (edits, if node.isLeaf then context.indentation else moved.indentation)

/-! ### The walk -/

/-- What a hidden formatter asks for at its node. -/
inductive HiddenFormatting where
  | prepend (formatting : FormattingAction)
  | append (formatting : FormattingAction)
  | replace (text : List UInt8)

/-- The rules by node and mode. -/
abbrev Formattings := ℕ → FormattingMode → Option FormattingAction

/-- `FormattingCollector`: a rule gives way to one of the same or a higher priority. -/
def collector (formattings : Formattings) (nodeId : ℕ) (mode : FormattingMode)
    (formatting : FormattingAction) : Formattings :=
  let keep : Bool := (formattings nodeId mode).any fun old =>
    decide (formatting.options.priority < old.options.priority)
  if keep then formattings
  else update formattings nodeId (update (formattings nodeId) mode (some formatting))

/-- What the walk has collected. -/
structure FormattingState (G : Type*) where
  formattings : Formattings
  hiddenReplacements : ℕ → Option (List UInt8)
  lastLeaf : Option (CstItem G)
  edits : List (Option PendingEdit)

/-- What the walk does not change: the nodes in the order they are stored in, what hidden
formatters ask for, and the range of the request. -/
structure FormattingRequest (G : Type*) where
  text : List UInt8
  options : FormattingOptions
  nodes : List (CstItem G)
  hiddenFormatter : CstItem G → ℤ → List HiddenFormatting
  range : Option TextRange

/-- `find_next_leaf`: the first leaf that is stored after a node and does not begin before
the node ends. -/
def find_next_leaf (nodes : List (CstItem G)) (node : CstItem G) : Option (CstItem G) :=
  (nodes.drop (node.id + 1)).find? fun candidate =>
    !decide (candidate.begin < node.end) && candidate.isLeaf

namespace FormattingState

/-- What a formatter of hidden nodes asks for is recorded. -/
def formatHidden (state : FormattingState G) (node : CstItem G) :
    HiddenFormatting → FormattingState G
  | .prepend formatting =>
    { state with formattings := collector state.formattings node.id .prepend formatting }
  | .append formatting =>
    { state with formattings := collector state.formattings node.id .append formatting }
  | .replace text =>
    { state with hiddenReplacements := update state.hiddenReplacements node.id (some text) }

/-- `append_filtered_edits`. -/
def appendEdits (request : FormattingRequest G) (candidates : List (Option PendingEdit))
    (state : FormattingState G) : FormattingState G :=
  { state with
    edits := state.edits ++
      candidates.filter fun edit => edit.all (edit_inside_range request.text · request.range) }

/-- The hidden formatter is called with the indentation that the rule before its node
gives. -/
def callHiddenFormatter (request : FormattingRequest G) (node : CstItem G) (indentation : ℤ)
    (state : FormattingState G) : FormattingState G :=
  let range := to_lsp_range request.text (gapBegin state.lastLeaf) node.begin
  let move := (state.formattings node.id .prepend).bind (find_fitting_move range)
  let context : FormattingContext := ⟨request.text, request.options, indentation⟩
  (request.hiddenFormatter node (context.indented move).indentation).foldl
    (·.formatHidden node) state

/-- The edits of the rule before a visible node, and what is indented from there on. -/
def prependEdits (state : FormattingState G) (node : CstItem G)
    (prepend : Option FormattingAction) (context : FormattingContext) :
    List (Option PendingEdit) × ℤ :=
  match prepend with
  | some formatting =>
    if node.isHidden then ([], context.indentation)
    else create_text_edits state.lastLeaf node formatting context
  | none => ([], context.indentation)

/-- The edits of the rule after a node, which is one before the next leaf. -/
def nextLeafEdits (state : FormattingState G) (request : FormattingRequest G) (node : CstItem G)
    (context : FormattingContext) : List (Option PendingEdit) :=
  match state.formattings node.id .append, find_next_leaf request.nodes node with
  | some formatting, some next => (create_text_edits (some node) next formatting context).1
  | _, _ => []

/-- The edits of a hidden node. -/
def hiddenEdits (state : FormattingState G) (node : CstItem G) (prepend : Option FormattingAction)
    (context : FormattingContext) : List (Option PendingEdit) :=
  if node.isHidden then
    create_hidden_text_edits state.lastLeaf node prepend (state.hiddenReplacements node.id) context
  else []

/-- What is done at a node before its children, and what is indented below it.  A rule before
a hidden node counts only if it was there before the hidden formatter was called. -/
def visitNode (request : FormattingRequest G) (node : CstItem G) (indentation : ℤ)
    (state : FormattingState G) : FormattingState G × ℤ :=
  let found := (state.formattings node.id .prepend).isSome
  let called :=
    if node.isHidden then state.callHiddenFormatter request node indentation else state
  let prepend := if found then called.formattings node.id .prepend else none
  let before := called.prependEdits node prepend ⟨request.text, request.options, indentation⟩
  let context : FormattingContext := ⟨request.text, request.options, before.2⟩
  let candidates := before.1 ++ called.nextLeafEdits request node context ++
    called.hiddenEdits node prepend context
  (called.appendEdits request candidates, before.2)

/-- `collect_cst_edits` of some siblings, one after the other. -/
def collect_cst_edits (request : FormattingRequest G) (state : FormattingState G)
    (indentation : ℤ) : Forest (CstItem G) → FormattingState G
  | .nil => state
  | .cons node children rest =>
    let visited := state.visitNode request node indentation
    let walked :=
      if node.isLeaf then { visited.1 with lastLeaf := some node }
      else collect_cst_edits request visited.1 visited.2 children
    collect_cst_edits request walked indentation rest

end FormattingState

/-! ### The edits of a document -/

/-- An edit that changes no more than carriage returns is not made. -/
def is_necessary_edit_text (text : List UInt8) (edit : PendingEdit) : Bool :=
  edit.newText ≠ (slice text edit.begin edit.end).filter (· ≠ 13)

/-- An edit takes the place of those kept last that overlap it; the last one stands first. -/
def keepLater (filtered : List PendingEdit) (edit : PendingEdit) : List PendingEdit :=
  match filtered.dropWhile fun last => edit.begin < last.end with
  | [] => [edit]
  | last :: filtered =>
    if last.begin = edit.begin && last.end = edit.end then edit :: filtered
    else edit :: last :: filtered

/-- The order the edits are sorted by. -/
def startsBefore (left right : PendingEdit) : Prop :=
  left.begin < right.begin ∨ left.begin = right.begin ∧ left.end ≤ right.end

instance : DecidableRel startsBefore := fun _ _ => inferInstanceAs (Decidable (_ ∨ _ ∧ _))

/-- Of edits that overlap the later one stays; those that change nothing go. -/
def finalize_edits (text : List UInt8) (edits : List PendingEdit) : List TextEdit :=
  let filtered := ((edits.insertionSort startsBefore).foldl keepLater []).reverse
  (filtered.filter (is_necessary_edit_text text)).map fun edit =>
    ⟨to_lsp_range text edit.begin edit.end, edit.newText⟩

/-- `doDocumentFormat`: the rules that `format` attaches, one after the other, and the walk.
Nothing is returned when an edit cannot be made. -/
def doDocumentFormat (text : List UInt8) (options : FormattingOptions)
    (roots : Forest (CstItem G)) (rules : List (ℕ × FormattingMode × FormattingAction))
    (hiddenFormatter : CstItem G → ℤ → List HiddenFormatting) (range : Option TextRange) :
    Option (List TextEdit) :=
  let formattings : Formattings := rules.foldl
    (fun formattings rule => collector formattings rule.1 rule.2.1 rule.2.2) fun _ _ => none
  let request : FormattingRequest G := ⟨text, options, roots.preorder, hiddenFormatter, range⟩
  let state : FormattingState G := ⟨formattings, fun _ => none, none, []⟩
  let edits := (FormattingState.collect_cst_edits request state 0 roots).edits
  if edits.all (·.isSome) then some (finalize_edits text (edits.filterMap id)) else none

end Pegium.Formatting
