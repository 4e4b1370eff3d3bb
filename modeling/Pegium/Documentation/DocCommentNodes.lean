/-
Pegium/Documentation/DocCommentNodes.lean

The nodes of a documentation comment.

The parser reads the tokens from the front: text and inline tags make up paragraphs, a
block tag takes the text behind it, and a break is an empty line of the element before
it.  An inline tag has the text behind it for content.

What a node locates in the comment is its mark (`DocCommentNode.mark`), and each token
has one mark (`Token.mark`), so that nothing is lost is one equation between the marks
of the nodes in pre-order and those of the tokens.

Main result: `parseElements_spec`, every token is read, in order, and elements stand
apart if the tokens do.
-/
import Pegium.Documentation.DocComment

namespace Pegium.Documentation

/-! ### Nodes -/

/-- The kinds of nodes. -/
inductive DocCommentKind where
  | paragraph
  | tag
  | line
  deriving DecidableEq

/-- A node of a comment with the data of all kinds. -/
structure DocCommentNode where
  kind : DocCommentKind
  range : DocCommentRange
  text : List UInt8
  name : List UInt8
  inlineTag : Bool
  children : List DocCommentNode

/-- A parsed comment. -/
structure DocComment where
  elements : List DocCommentNode
  range : DocCommentRange

/-- A line of text. -/
def make_line (text : List UInt8) (range : DocCommentRange) : DocCommentNode :=
  { kind := .line, range := range, text := text, name := [], inlineTag := false, children := [] }

/-- The line of a token. -/
def parse_line (token : Token) : DocCommentNode := make_line token.content token.range

/-- The node of a tag; its name is what is behind the `@`. -/
def makeTag (tagToken : Token) (inlineTag : Bool) (range : DocCommentRange)
    (children : List DocCommentNode) : DocCommentNode :=
  { kind := .tag, range := range, text := [], name := tagToken.content.drop 1,
    inlineTag := inlineTag, children := children }

/-- An inline tag, whose content is one line. -/
def parse_inline_tag (tagToken : Token) (tokens : List Token) : DocCommentNode × List Token :=
  match tokens with
  | [] => (makeTag tagToken true tagToken.range [], [])
  | token :: rest =>
    if token.type = .text then
      let line := parse_line token
      (makeTag tagToken true ⟨tagToken.range.start, line.range.end⟩ [line], rest)
    else (makeTag tagToken true tagToken.range [], token :: rest)

/-- An inline tag, or a line of text. -/
def parse_inline (token : Token) (rest : List Token) : DocCommentNode × List Token :=
  if token.type = .inlineTag then parse_inline_tag token rest else (parse_line token, rest)

theorem parse_inline_length (token : Token) (rest : List Token) :
    (parse_inline token rest).2.length ≤ rest.length := by
  unfold parse_inline
  split
  next =>
    cases rest with
    | nil => exact Nat.le_refl _
    | cons next rest =>
      unfold parse_inline_tag
      dsimp only
      split
      next => exact Nat.le_succ _
      next => exact Nat.le_refl _
  next => exact Nat.le_refl _

/-- The loop over the tokens of a text, with the range of the last token read. -/
def parseTextFrom (lastRange : DocCommentRange) (tokens : List Token) :
    List DocCommentNode × DocCommentRange × List Token :=
  match tokens with
  | [] => ([], lastRange, [])
  | token :: rest =>
    if token.type = .break ∨ token.type = .tag then ([], lastRange, token :: rest)
    else
      let inline := parse_inline token rest
      let more := parseTextFrom token.range inline.2
      (inline.1 :: more.1, more.2)
termination_by tokens.length
decreasing_by exact Nat.lt_succ_of_le (parse_inline_length token rest)

/-- A paragraph: what follows the first token up to a break or a block tag. -/
def parse_text (firstToken : Token) (rest : List Token) : DocCommentNode × List Token :=
  let read := parseTextFrom firstToken.range (firstToken :: rest)
  ({ kind := .paragraph, range := ⟨firstToken.range.start, read.2.1.end⟩, text := [], name := [],
     inlineTag := false, children := read.1 }, read.2.2)

/-- A block tag, whose content is the text behind it. -/
def parse_block_tag (tagToken : Token) (tokens : List Token) : DocCommentNode × List Token :=
  match tokens with
  | [] => (makeTag tagToken false tagToken.range [], [])
  | token :: rest =>
    if token.type = .text then
      let text := parse_text token rest
      (makeTag tagToken false ⟨tagToken.range.start, text.1.range.end⟩ text.1.children, text.2)
    else (makeTag tagToken false tagToken.range [], token :: rest)

/-- A break puts an empty line behind the last element. -/
def append_empty_line (token : Token) (elements : List DocCommentNode) : List DocCommentNode :=
  match elements.getLast? with
  | none => elements
  | some last =>
    elements.dropLast ++ [{ last with children := last.children ++ [make_line [] token.range] }]

/-- One turn of the loop over the tokens: the elements, and the tokens that are left. -/
def parse_element (elements : List DocCommentNode) (next : Token) (rest : List Token) :
    List DocCommentNode × List Token :=
  match next.type with
  | .tag =>
    let tag := parse_block_tag next rest
    (elements ++ [tag.1], tag.2)
  | .text | .inlineTag =>
    let text := parse_text next rest
    (elements ++ [text.1], text.2)
  | .break => (append_empty_line next elements, rest)

theorem parseTextFrom_length (lastRange : DocCommentRange) (tokens : List Token) :
    (parseTextFrom lastRange tokens).2.2.length ≤ tokens.length := by
  induction lastRange, tokens using parseTextFrom.induct with
  | case1 => exact Nat.le_of_eq (by rw [parseTextFrom])
  | case2 lastRange token rest hstop =>
    exact Nat.le_of_eq (by rw [parseTextFrom, if_pos hstop])
  | case3 lastRange token rest hstop inline ih =>
    rw [parseTextFrom, if_neg hstop]
    exact Nat.le_succ_of_le (Nat.le_trans ih (parse_inline_length token rest))

theorem parse_text_length {token : Token} (rest : List Token)
    (h : ¬(token.type = .break ∨ token.type = .tag)) :
    (parse_text token rest).2.length ≤ rest.length := by
  unfold parse_text
  rw [parseTextFrom, if_neg h]
  exact Nat.le_trans (parseTextFrom_length _ _) (parse_inline_length token rest)

theorem parse_element_length (elements : List DocCommentNode) (next : Token)
    (rest : List Token) : (parse_element elements next rest).2.length ≤ rest.length := by
  unfold parse_element
  split
  next =>
    cases rest with
    | nil => exact Nat.le_refl _
    | cons token rest =>
      unfold parse_block_tag
      dsimp only
      split
      next htext => exact Nat.le_succ_of_le (parse_text_length rest (by simp [htext]))
      next => exact Nat.le_refl _
  next htext => exact parse_text_length rest (by simp [htext])
  next htext => exact parse_text_length rest (by simp [htext])
  next => exact Nat.le_refl _

/-- The loop over the tokens. -/
def parseElements (elements : List DocCommentNode) (tokens : List Token) : List DocCommentNode :=
  match tokens with
  | [] => elements
  | token :: rest =>
    let element := parse_element elements token rest
    parseElements element.1 element.2
termination_by tokens.length
decreasing_by exact Nat.lt_succ_of_le (parse_element_length elements token rest)

/-- The elements of a comment; the range of an empty one is its start. -/
def parse_comment (start : DocCommentPosition) (tokens : List Token) : DocComment :=
  if tokens.isEmpty then ⟨[], ⟨start, start⟩⟩
  else
    let elements := parseElements [] tokens
    ⟨elements, ⟨(elements.head?.map fun element => element.range.start).getD start,
      (elements.getLast?.map fun element => element.range.end).getD start⟩⟩

/-- A comment is cut into tokens and the tokens are parsed. -/
def parse_doc_comment (comment : List UInt8) (start : DocCommentPosition)
    (options : DocCommentParseOptions) : DocComment :=
  parse_comment start (tokenize (get_lines comment) start options)

/-! ### Marks -/

/-- What one node or one token locates in the comment. -/
inductive Mark where
  | line (text : List UInt8) (range : DocCommentRange)
  | tag (name : List UInt8) (start : DocCommentPosition)
  | inlineTag (name : List UInt8) (range : DocCommentRange)

/-- What a node stands for in the comment; a paragraph only holds others. -/
def DocCommentNode.mark (node : DocCommentNode) : Option Mark :=
  match node.kind with
  | .paragraph => none
  | .tag =>
    if node.inlineTag then some (.inlineTag node.name node.range)
    else some (.tag node.name node.range.start)
  | .line => some (.line node.text node.range)

mutual

/-- A node and what is below it, in pre-order. -/
def DocCommentNode.nodes : DocCommentNode → List DocCommentNode
  | ⟨kind, range, text, name, inlineTag, children⟩ =>
    ⟨kind, range, text, name, inlineTag, children⟩ :: nodesOf children

/-- The nodes with all that is below them, in preorder. -/
def nodesOf : List DocCommentNode → List DocCommentNode
  | [] => []
  | node :: rest => node.nodes ++ nodesOf rest

end

/-- What the nodes stand for, in order. -/
def marksOf (nodes : List DocCommentNode) : List Mark :=
  (nodesOf nodes).filterMap DocCommentNode.mark

/-- The mark of a token; an inline tag goes on to the end of the text behind it. -/
def Token.mark (token : Token) (rest : List Token) : Mark :=
  match token.type with
  | .text => .line token.content token.range
  | .tag => .tag (token.content.drop 1) token.range.start
  | .inlineTag =>
    .inlineTag (token.content.drop 1) ⟨token.range.start,
      match rest with
      | [] => token.range.end
      | next :: _ => if next.type = .text then next.range.end else token.range.end⟩
  | .break => .line [] token.range

/-- What the tokens stand for, in order. -/
def tokenMarks : List Token → List Mark
  | [] => []
  | token :: rest => token.mark rest :: tokenMarks rest

variable {token next : Token} {tokens rest left : List Token} {node : DocCommentNode}
  {elements nodes : List DocCommentNode} {range : DocCommentRange}

@[simp] theorem marksOf_nil : marksOf [] = [] := by rw [marksOf, nodesOf, List.filterMap_nil]

theorem marksOf_cons (node : DocCommentNode) (rest : List DocCommentNode) :
    marksOf (node :: rest) = node.mark.toList ++ marksOf node.children ++ marksOf rest := by
  obtain ⟨kind, range, text, name, inlineTag, children⟩ := node
  simp only [marksOf, nodesOf, DocCommentNode.nodes, List.cons_append]
  rw [List.filterMap_cons]
  cases DocCommentNode.mark ⟨kind, range, text, name, inlineTag, children⟩ with
  | none => simp
  | some mark => simp

theorem marksOf_append (nodes rest : List DocCommentNode) :
    marksOf (nodes ++ rest) = marksOf nodes ++ marksOf rest := by
  induction nodes with
  | nil => simp
  | cons node nodes ih => simp [marksOf_cons, ih]

@[simp] theorem marksOf_parse_line (token : Token) :
    marksOf [parse_line token] = [.line token.content token.range] := by
  simp [marksOf_cons, parse_line, make_line, DocCommentNode.mark]

/-! ### The parser -/

theorem parse_inline_marks (h : ¬(token.type = .break ∨ token.type = .tag)) :
    tokenMarks (token :: rest)
      = marksOf [(parse_inline token rest).1] ++ tokenMarks (parse_inline token rest).2 := by
  unfold parse_inline
  split
  next htype =>
    cases rest with
    | nil => simp [tokenMarks, Token.mark, htype, parse_inline_tag, makeTag, marksOf_cons,
        DocCommentNode.mark]
    | cons next rest =>
      unfold parse_inline_tag
      dsimp only
      split
      next htext =>
        rw [marksOf_cons, makeTag, marksOf_parse_line]
        simp [tokenMarks, Token.mark, htype, htext, DocCommentNode.mark, parse_line, make_line]
      next htext =>
        rw [marksOf_cons, makeTag]
        simp [tokenMarks, Token.mark, htype, htext, DocCommentNode.mark]
  next htype =>
    have htext : token.type = .text := by
      cases hcase : token.type <;> simp_all
    rw [marksOf_parse_line]
    simp [tokenMarks, Token.mark, htext]

theorem parse_inline_read (token : Token) (rest : List Token) :
    ∃ read, rest = read ++ (parse_inline token rest).2 := by
  unfold parse_inline
  split
  next =>
    cases rest with
    | nil => exact ⟨[], rfl⟩
    | cons next rest =>
      unfold parse_inline_tag
      dsimp only
      split
      next => exact ⟨[next], rfl⟩
      next => exact ⟨[], rfl⟩
  next => exact ⟨[], rfl⟩

/-- The loop over a text reads tokens from the front, and its last range is that of one
of them. -/
theorem parseTextFrom_spec (range : DocCommentRange) (tokens : List Token) :
    tokenMarks tokens
        = marksOf (parseTextFrom range tokens).1 ++ tokenMarks (parseTextFrom range tokens).2.2 ∧
      ∃ read, tokens = read ++ (parseTextFrom range tokens).2.2 ∧
        ((parseTextFrom range tokens).2.1 = range ∨
          ∃ token ∈ read, (parseTextFrom range tokens).2.1 = token.range) := by
  induction range, tokens using parseTextFrom.induct with
  | case1 range =>
    rw [parseTextFrom]
    exact ⟨rfl, [], rfl, .inl rfl⟩
  | case2 range token rest hstop =>
    rw [parseTextFrom, if_pos hstop]
    exact ⟨by simp, [], rfl, .inl rfl⟩
  | case3 range token rest hstop inline ih =>
    obtain ⟨hmarks, read, hread, hlast⟩ := ih
    have hmore : tokenMarks (parse_inline token rest).2 = _ := hmarks
    obtain ⟨inner, hinner⟩ := parse_inline_read token rest
    rw [parseTextFrom, if_neg hstop]
    dsimp only
    constructor
    · rw [parse_inline_marks hstop, hmore, marksOf_cons, marksOf_cons (parse_inline token rest).1]
      simp [inline]
    · refine ⟨token :: (inner ++ read), ?_, .inr ?_⟩
      · rw [List.cons_append, List.append_assoc, ← hread, ← hinner]
      · rcases hlast with hlast | ⟨last, hmem, hlast⟩
        · exact ⟨token, List.mem_cons_self, hlast⟩
        · exact ⟨last, List.mem_cons_of_mem _ (List.mem_append_right _ hmem), hlast⟩

/-- An element is read from the front of the tokens, from its first token up to the end of
one that was read. -/
structure Reads (token : Token) (rest : List Token) (node : DocCommentNode) (left : List Token) :
    Prop where
  marks : tokenMarks (token :: rest) = marksOf [node] ++ tokenMarks left
  start : node.range.start = token.range.start
  read : ∃ read, rest = read ++ left ∧ ∃ last ∈ token :: read, node.range.end = last.range.end

theorem parse_text_spec (h : ¬(token.type = .break ∨ token.type = .tag)) :
    Reads token rest (parse_text token rest).1 (parse_text token rest).2 := by
  obtain ⟨hmarks, read, hread, hlast⟩ := parseTextFrom_spec token.range (token :: rest)
  have hparagraph : marksOf [(parse_text token rest).1]
      = marksOf (parseTextFrom token.range (token :: rest)).1 := by
    simp [parse_text, marksOf_cons, DocCommentNode.mark]
  have hend : (parse_text token rest).1.range.end
      = (parseTextFrom token.range (token :: rest)).2.1.end := rfl
  refine ⟨by rw [hparagraph]; exact hmarks, rfl, ?_⟩
  rw [hend]
  -- the first token is read
  cases read with
  | nil =>
    have hshort := parse_text_length rest h
    rw [List.nil_append] at hread
    rw [parse_text, ← hread] at hshort
    exact absurd hshort (Nat.not_succ_le_self _)
  | cons first read =>
    rw [List.cons_append, List.cons.injEq] at hread
    obtain ⟨rfl, hread⟩ := hread
    refine ⟨read, hread, ?_⟩
    rcases hlast with hlast | ⟨last, hmem, hlast⟩
    · exact ⟨token, List.mem_cons_self, congrArg DocCommentRange.end hlast⟩
    · exact ⟨last, hmem, congrArg DocCommentRange.end hlast⟩

theorem parse_block_tag_spec (h : token.type = .tag) :
    Reads token rest (parse_block_tag token rest).1 (parse_block_tag token rest).2 := by
  have hmark : ∀ left, token.mark left = .tag (token.content.drop 1) token.range.start := by
    intro left
    simp [Token.mark, h]
  have hbare : Reads token rest (makeTag token false token.range []) rest := by
    refine ⟨?_, rfl, [], rfl, token, List.mem_cons_self, rfl⟩
    rw [tokenMarks, hmark, marksOf_cons]
    simp [makeTag, DocCommentNode.mark]
  cases rest with
  | nil => exact hbare
  | cons next rest =>
    unfold parse_block_tag
    dsimp only
    split
    next htext =>
      obtain ⟨hmarks, -, read, hread, last, hlast, hend⟩ :=
        @parse_text_spec next rest (by simp [htext])
      have hparagraph : (parse_text next rest).1.mark = none := rfl
      refine ⟨?_, rfl, next :: read, congrArg (next :: ·) hread, last,
        List.mem_cons_of_mem _ hlast, hend⟩
      rw [tokenMarks, hmark, hmarks, marksOf_cons, marksOf_cons, hparagraph]
      simp [makeTag, DocCommentNode.mark]
    next => exact hbare

/-! ### The order of the elements -/

instance : LE DocCommentPosition :=
  ⟨fun a b => a.line < b.line ∨ a.line = b.line ∧ a.character ≤ b.character⟩

theorem DocCommentPosition.le_def {a b : DocCommentPosition} :
    a ≤ b ↔ a.line < b.line ∨ a.line = b.line ∧ a.character ≤ b.character := Iff.rfl

theorem DocCommentPosition.le_trans {a b c : DocCommentPosition} (hab : a ≤ b) (hbc : b ≤ c) :
    a ≤ c := by
  rw [le_def] at hab hbc ⊢
  omega

/-- Each token ends before the next one begins. -/
structure InOrder (tokens : List Token) : Prop where
  forward : ∀ token ∈ tokens, token.range.start ≤ token.range.end
  apart : tokens.Pairwise fun token next => token.range.end ≤ next.range.start

/-- The elements so far are in order, and before the tokens that are left. -/
structure Laid (elements : List DocCommentNode) (left : List Token) : Prop where
  forward : ∀ node ∈ elements, node.range.start ≤ node.range.end
  apart : elements.Pairwise fun node next => node.range.end ≤ next.range.start
  before : ∀ node ∈ elements, ∀ token ∈ left, node.range.end ≤ token.range.start

theorem Laid.append (h : Laid elements (token :: rest)) (horder : InOrder (token :: rest))
    (hreads : Reads token rest node left) : Laid (elements ++ [node]) left := by
  obtain ⟨-, hstart, read, rfl, last, hlast, hend⟩ := hreads
  obtain ⟨hforward, hapart⟩ := horder
  have hread : (token :: read) ++ left = token :: (read ++ left) := rfl
  rw [← hread] at hforward hapart
  have hfirst : token.range.start ≤ last.range.end := by
    rcases List.mem_cons.mp hlast with rfl | hmem
    · exact hforward _ (List.mem_append_left _ hlast)
    · have hnext := (List.pairwise_append.mp hapart).1
      have hbetween := (List.pairwise_cons.mp hnext).1 last hmem
      exact DocCommentPosition.le_trans
        (DocCommentPosition.le_trans (hforward _ List.mem_cons_self) hbetween)
        (hforward _ (List.mem_append_left _ hlast))
  have hbefore : ∀ next ∈ left, node.range.end ≤ next.range.start := by
    intro next hnext
    rw [hend]
    exact (List.pairwise_append.mp hapart).2.2 last hlast next hnext
  constructor
  · intro other hmem
    rcases List.mem_append.mp hmem with hold | hnew
    · exact h.forward other hold
    · obtain rfl := List.mem_singleton.mp hnew
      rw [hstart, hend]
      exact hfirst
  · refine List.pairwise_append.mpr ⟨h.apart, List.pairwise_singleton _ _, ?_⟩
    intro other hold new hnew
    obtain rfl := List.mem_singleton.mp hnew
    rw [hstart]
    exact h.before other hold token List.mem_cons_self
  · intro other hmem next hnext
    rcases List.mem_append.mp hmem with hold | hnew
    · exact h.before other hold next (List.mem_cons_of_mem _ (List.mem_append_right _ hnext))
    · obtain rfl := List.mem_singleton.mp hnew
      exact hbefore next hnext

theorem InOrder.of_append {read : List Token} (h : InOrder (read ++ left)) : InOrder left :=
  ⟨fun token hmem => h.forward token (List.mem_append_right _ hmem),
    (List.pairwise_append.mp h.apart).2.1⟩

/-- An empty line changes no range. -/
theorem append_empty_line_eq (h : elements ≠ []) :
    ∃ before last, elements = before ++ [last] ∧ append_empty_line token elements
      = before ++ [{ last with children := last.children ++ [make_line [] token.range] }] := by
  have hlast := List.dropLast_append_getLast h
  refine ⟨elements.dropLast, elements.getLast h, hlast.symm, ?_⟩
  rw [append_empty_line, List.getLast?_eq_getLast_of_ne_nil h]

theorem append_empty_line_marks (h : elements ≠ []) :
    marksOf (append_empty_line token elements)
      = marksOf elements ++ [.line [] token.range] := by
  obtain ⟨before, last, rfl, hline⟩ := @append_empty_line_eq token _ h
  have hmark : ({ last with children := last.children ++ [make_line [] token.range] } :
      DocCommentNode).mark = last.mark := rfl
  rw [hline, marksOf_append, marksOf_append, marksOf_cons, marksOf_cons last, hmark,
    marksOf_append]
  simp [marksOf_cons, make_line, DocCommentNode.mark]

theorem Laid.append_empty_line (h : Laid elements (token :: rest)) (hsome : elements ≠ []) :
    Laid (append_empty_line token elements) rest := by
  obtain ⟨before, last, rfl, hline⟩ := @append_empty_line_eq token _ hsome
  rw [hline]
  constructor
  · intro other hmem
    rcases List.mem_append.mp hmem with hold | hnew
    · exact h.forward other (List.mem_append_left _ hold)
    · obtain rfl := List.mem_singleton.mp hnew
      exact h.forward last (List.mem_append_right _ (List.mem_singleton_self last))
  · obtain ⟨hbefore, -, hlast⟩ := List.pairwise_append.mp h.apart
    refine List.pairwise_append.mpr ⟨hbefore, List.pairwise_singleton _ _, ?_⟩
    intro other hold new hnew
    obtain rfl := List.mem_singleton.mp hnew
    exact hlast other hold last (List.mem_singleton_self last)
  · intro other hmem next hnext
    rcases List.mem_append.mp hmem with hold | hnew
    · exact h.before other (List.mem_append_left _ hold) next (List.mem_cons_of_mem _ hnext)
    · obtain rfl := List.mem_singleton.mp hnew
      exact h.before last (List.mem_append_right _ (List.mem_singleton_self last)) next
        (List.mem_cons_of_mem _ hnext)

/-- **One turn of the loop** reads tokens from the front, and what it read is in the
elements. -/
theorem parse_element_spec (hsome : elements = [] → token.type ≠ .break) :
    (parse_element elements token rest).1 ≠ [] ∧
      marksOf elements ++ tokenMarks (token :: rest)
        = marksOf (parse_element elements token rest).1
          ++ tokenMarks (parse_element elements token rest).2 ∧
      (InOrder (token :: rest) → Laid elements (token :: rest) →
        InOrder (parse_element elements token rest).2 ∧
          Laid (parse_element elements token rest).1 (parse_element elements token rest).2) := by
  have happend : ∀ {node left}, Reads token rest node left → elements ++ [node] ≠ [] ∧
      marksOf elements ++ tokenMarks (token :: rest)
        = marksOf (elements ++ [node]) ++ tokenMarks left ∧
      (InOrder (token :: rest) → Laid elements (token :: rest) →
        InOrder left ∧ Laid (elements ++ [node]) left) := by
    intro node left hreads
    refine ⟨by simp, ?_, fun horder hlaid => ⟨?_, hlaid.append horder hreads⟩⟩
    · rw [hreads.marks, marksOf_append, List.append_assoc]
    · obtain ⟨-, -, read, rfl, -⟩ := hreads
      exact @InOrder.of_append left (token :: read) horder
  unfold parse_element
  split
  next htype => exact happend (parse_block_tag_spec htype)
  next htype => exact happend (parse_text_spec (by simp [htype]))
  next htype => exact happend (parse_text_spec (by simp [htype]))
  next htype =>
    have hne : elements ≠ [] := fun hnil => hsome hnil htype
    refine ⟨?_, ?_, fun horder hlaid => ⟨?_, hlaid.append_empty_line hne⟩⟩
    · obtain ⟨before, last, -, hline⟩ := @append_empty_line_eq token _ hne
      simp [hline]
    · rw [append_empty_line_marks hne, tokenMarks, List.append_assoc]
      simp [Token.mark, htype]
    · exact @InOrder.of_append rest [token] horder

/-- **The loop** reads every token in order. -/
theorem parseElements_spec (elements : List DocCommentNode) (tokens : List Token)
    (hsome : elements = [] → ∀ token ∈ tokens.head?, token.type ≠ .break) :
    marksOf (parseElements elements tokens) = marksOf elements ++ tokenMarks tokens ∧
      (InOrder tokens → Laid elements tokens → Laid (parseElements elements tokens) []) := by
  induction elements, tokens using parseElements.induct with
  | case1 elements =>
    rw [parseElements]
    exact ⟨by simp [tokenMarks], fun _ hlaid => hlaid⟩
  | case2 elements token rest element ih =>
    obtain ⟨hne, hmarks, hlaid⟩ :=
      @parse_element_spec token rest elements fun hnil => hsome hnil token rfl
    obtain ⟨hrest, hend⟩ := ih fun hnil => absurd hnil hne
    rw [parseElements, hmarks]
    exact ⟨hrest, fun horder hstart => hend (hlaid horder hstart).1 (hlaid horder hstart).2⟩

end Pegium.Documentation
