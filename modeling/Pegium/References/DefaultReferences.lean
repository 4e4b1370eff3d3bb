/-
Pegium/References/DefaultReferences.lean

Declarations and references of what is at the cursor.

The cursor is on the smallest reference around it, or else on the smallest declaration
site: the name of a node, or the whole node where it has no name.  A reference leads to
its targets, a declaration to all targets of a multi-reference to it.  The references
to a declaration are the sites of these declarations and the indexed references.

In a linked workspace (`LinkedWorkspace`) every reference has named targets that are
indexed.  Where names and references are different pieces of text as well
(`DistinctNames`), each search is described by what it finds: `smallest_spec`,
`find_named_declaration_spec` and `mem_get_self_nodes`.
-/
import Mathlib.Data.List.Nodup
import Mathlib.Data.List.Pairwise
import Mathlib.Data.Set.Basic
import Pegium.SyntaxTree.CstUtils
import Pegium.Workspace.Symbol

namespace Pegium.Navigation

/-! ### The workspace -/

/-- A range of a text. -/
structure TextSpan where
  begin : ℕ
  «end» : ℕ
  deriving DecidableEq

/-- A stretch of a document. -/
structure LocationData where
  documentId : ℕ
  begin : ℕ
  «end» : ℕ
  deriving DecidableEq

/-- The largest offset, the bound of a search for the smallest span. -/
def maxOffset : ℕ := 4294967295

/-- A reference of a document.  A single reference has one resolved description. -/
structure SourceReference where
  refNode : TextSpan
  isMultiReference : Bool
  resolvedDescriptions : List Symbol.NodeKey
  deriving DecidableEq

/-- What renaming reads: of each document its CST, its references and its nodes in
document order, of each node its name and its CST node, and the index. -/
structure Workspace where
  cst : ℕ → Option (RootCstNode GrammarElement)
  references : ℕ → List SourceReference
  getAllContent : ℕ → List Symbol.NodeKey
  getNameNode : Symbol.NodeKey → Option TextSpan
  getCstNode : Symbol.NodeKey → Option TextSpan
  findAllReferences : Symbol.NodeKey → List Symbol.ReferenceDescription

namespace Workspace

variable (ws : Workspace)

/-- Where a declaration stands: its name, or all of it. -/
def declaration_site_node (node : Symbol.NodeKey) : Option TextSpan :=
  match ws.getNameNode node with
  | some nameNode => some nameNode
  | none => ws.getCstNode node

/-- The source asserts that there is a site. -/
def required_declaration_site_node (node : Symbol.NodeKey) : TextSpan :=
  (ws.declaration_site_node node).getD ⟨0, 0⟩

/-! ### Finding what is at the cursor -/

/-- The new smallest span, if the candidate encloses the target more tightly. -/
def tightens_enclosing_span (candidate target : TextSpan) (bestSpan : ℕ) : Option ℕ :=
  if target.begin < candidate.begin ∨ candidate.end < target.end then none
  else
    let span := candidate.end - candidate.begin
    if span ≥ bestSpan then none else some span

/-- One candidate of the search for the smallest span; those without a span are
passed over. -/
def consider {α : Type} (span : α → Option TextSpan) (target : TextSpan)
    (best : Option α × ℕ) (candidate : α) : Option α × ℕ :=
  match span candidate with
  | none => best
  | some node =>
    match tightens_enclosing_span node target best.2 with
    | some bestSpan => (some candidate, bestSpan)
    | none => best

/-- The smallest reference around the selected node. -/
def find_reference_at_cst_node (documentId : ℕ) (selectedNode : TextSpan) :
    Option SourceReference :=
  ((ws.references documentId).foldl
    (consider (fun reference => some reference.refNode) selectedNode) (none, maxOffset)).1

/-- The smallest declaration around the selected node. -/
def find_named_declaration (documentId : ℕ) (selectedNode : TextSpan) : Option Symbol.NodeKey :=
  ((ws.getAllContent documentId).foldl
    (consider ws.declaration_site_node selectedNode) (none, maxOffset)).1

/-- The first reference that begins at the offset. -/
def find_reference_at_offset (documentId offset : ℕ) : Option SourceReference :=
  (ws.references documentId).find? fun reference => reference.refNode.begin = offset

/-- The targets, each once. -/
def append_reference_targets (reference : SourceReference) : List Symbol.NodeKey :=
  reference.resolvedDescriptions.foldl
    (fun results target => if target ∈ results then results else results ++ [target]) []

/-! ### Declarations and references -/

/-- The loop of `get_self_nodes` over the incoming references. -/
def selfNodesFrom (node : Symbol.NodeKey) : List Symbol.ReferenceDescription → List Symbol.NodeKey
  | [] => [node]
  | incoming :: rest =>
    if !incoming.multiReference then selfNodesFrom node rest
    else
      match ws.find_reference_at_offset incoming.sourceDocumentId incoming.sourceOffset with
      | none => selfNodesFrom node rest
      | some sourceReference =>
        if !sourceReference.isMultiReference then selfNodesFrom node rest
        else if node ∈ append_reference_targets sourceReference then
          append_reference_targets sourceReference
        else selfNodesFrom node rest

/-- The declarations that share the references of one. -/
def get_self_nodes (node : Symbol.NodeKey) : List Symbol.NodeKey :=
  ws.selfNodesFrom node (ws.findAllReferences node)

/-- The declarations that a node refers to, or the one it declares. -/
def findDeclarations (documentId : ℕ) (sourceCstNode : TextSpan) : List Symbol.NodeKey :=
  match ws.find_reference_at_cst_node documentId sourceCstNode with
  | some reference => append_reference_targets reference
  | none =>
    match ws.find_named_declaration documentId sourceCstNode with
    | some declaration => ws.get_self_nodes declaration
    | none => []

/-- The description of a declaration as a reference to itself. -/
def selfReference (selfNode : Symbol.NodeKey) : Symbol.ReferenceDescription :=
  let declarationNode := ws.required_declaration_site_node selfNode
  { sourceDocumentId := selfNode.documentId
    sourceOffset := declarationNode.begin
    sourceLength := declarationNode.end - declarationNode.begin
    «local» := true
    targetDocumentId := some selfNode.documentId
    targetSymbolId := some selfNode.symbolId }

/-- A filter on the source document is an option of the search. -/
def findReferences (targetNode : Symbol.NodeKey) (includeDeclaration : Bool)
    (documentId : Option ℕ) : List Symbol.ReferenceDescription :=
  let declarations :=
    if includeDeclaration then (ws.get_self_nodes targetNode).map ws.selfReference else []
  (declarations ++ ws.findAllReferences targetNode).filter fun reference =>
    documentId.all fun id => reference.sourceDocumentId = id

/-- Where a reference stands. -/
def to_location (reference : Symbol.ReferenceDescription) : LocationData :=
  ⟨reference.sourceDocumentId, reference.sourceOffset,
    reference.sourceOffset + reference.sourceLength⟩

end Workspace

/-! ### Linked workspaces -/

/-- Two spans that have no text in common. -/
def TextSpan.Apart (a b : TextSpan) : Prop := a.end ≤ b.begin ∨ b.end ≤ a.begin

/-- Some text within a place. -/
structure TextSpan.Within (selected place : TextSpan) : Prop where
  first : place.begin ≤ selected.begin
  text : selected.begin < selected.end
  last : selected.end ≤ place.end

/-- The description of a reference for one of its targets. -/
def describe (documentId : ℕ) (reference : SourceReference) (target : Symbol.NodeKey) :
    Symbol.ReferenceDescription where
  sourceDocumentId := documentId
  sourceOffset := reference.refNode.begin
  sourceLength := reference.refNode.end - reference.refNode.begin
  «local» := documentId = target.documentId
  multiReference := reference.isMultiReference
  targetDocumentId := some target.documentId
  targetSymbolId := some target.symbolId

/-- A workspace whose references are linked and indexed.  References are the texts of
assignments, which do not nest. -/
structure LinkedWorkspace extends Workspace where
  own : ∀ d, ∀ n ∈ getAllContent d, n.documentId = d
  nodup : ∀ d, (getAllContent d).Nodup
  resolved : ∀ d, ∀ r ∈ references d, r.resolvedDescriptions ≠ []
  single : ∀ d, ∀ r ∈ references d, r.isMultiReference = false →
    ∃ t, r.resolvedDescriptions = [t]
  targets_named : ∀ d, ∀ r ∈ references d, ∀ t ∈ r.resolvedDescriptions,
    t ∈ getAllContent t.documentId ∧ (getNameNode t).isSome
  indexed : ∀ n x, x ∈ findAllReferences n ↔
    ∃ d, ∃ r ∈ references d, n ∈ r.resolvedDescriptions ∧ x = describe d r n
  reference_text : ∀ d, ∀ r ∈ references d,
    r.refNode.begin < r.refNode.end ∧ r.refNode.end < maxOffset
  name_text : ∀ d, ∀ n ∈ getAllContent d, ∀ s ∈ getNameNode n,
    s.begin < s.end ∧ s.end < maxOffset
  references_apart : ∀ d, (references d).Pairwise fun r r' => r.refNode.Apart r'.refNode

/-- Names are different pieces of text, also from references, and an unnamed node that has
a part of a name in it has all of it. -/
structure Workspace.DistinctNames (ws : Workspace) : Prop where
  names_apart : ∀ d, ∀ n ∈ ws.getAllContent d, ∀ n' ∈ ws.getAllContent d, n ≠ n' →
    ∀ s ∈ ws.getNameNode n, ∀ s' ∈ ws.getNameNode n', s.Apart s'
  apart : ∀ d, ∀ r ∈ ws.references d, ∀ n ∈ ws.getAllContent d, ∀ s ∈ ws.getNameNode n,
    r.refNode.Apart s
  unnamed : ∀ d, ∀ x ∈ ws.getAllContent d, ws.getNameNode x = none →
    ∀ c ∈ ws.getCstNode x, ∀ n ∈ ws.getAllContent d, ∀ s ∈ ws.getNameNode n,
      c.Apart s ∨ (c.begin ≤ s.begin ∧ s.end ≤ c.end)

/-- A named node of the workspace. -/
def Workspace.Declared (ws : Workspace) (n : Symbol.NodeKey) : Prop :=
  n ∈ ws.getAllContent n.documentId ∧ (ws.getNameNode n).isSome

/-! ### The smallest span -/

/-- The candidate encloses the target, with a span of a size. -/
def EnclosesBy {α : Type} (span : α → Option TextSpan) (target : TextSpan) (size : ℕ) (x : α) :
    Prop :=
  ∃ s, span x = some s ∧ s.begin ≤ target.begin ∧ target.end ≤ s.end ∧ size = s.end - s.begin

/-- The test for the candidate that is found, when `size` is the smallest size. -/
def enclosesWith {α : Type} (span : α → Option TextSpan) (target : TextSpan) (size : ℕ)
    (x : α) : Bool :=
  match span x with
  | some s =>
    s.begin ≤ target.begin && target.end ≤ s.end && s.end - s.begin = size && size < maxOffset
  | none => false

section Smallest

open Pegium.Navigation.Workspace (consider tightens_enclosing_span)

variable {α : Type} {span : α → Option TextSpan} {target : TextSpan} {size : ℕ} {x : α}

theorem enclosesWith_iff :
    enclosesWith span target size x = true ↔ EnclosesBy span target size x ∧ size < maxOffset := by
  unfold enclosesWith EnclosesBy
  cases span x with
  | none => simp
  | some s =>
    simp only [Bool.and_eq_true, decide_eq_true_eq, Option.some.injEq, exists_eq_left', and_assoc]
    constructor
    · rintro ⟨hb, he, hs, hm⟩
      exact ⟨hb, he, hs.symm, hm⟩
    · rintro ⟨hb, he, hs, hm⟩
      exact ⟨hb, he, hs.symm, hm⟩

/-- One candidate either is smaller than the best, or changes nothing. -/
theorem consider_cases (best : Option α × ℕ) (x : α) :
    (∃ k, EnclosesBy span target k x ∧ k < best.2 ∧ consider span target best x = (some x, k)) ∨
      (consider span target best x = best ∧ ∀ k, EnclosesBy span target k x → best.2 ≤ k) := by
  unfold consider EnclosesBy
  cases span x with
  | none => exact .inr ⟨rfl, fun k ⟨s, hs, _⟩ => nomatch hs⟩
  | some s =>
    dsimp only
    unfold tightens_enclosing_span
    by_cases hout : target.begin < s.begin ∨ s.end < target.end
    · rw [if_pos hout]
      refine .inr ⟨rfl, fun k ⟨s', hs', hb, he, _⟩ => ?_⟩
      obtain rfl := Option.some.inj hs'
      omega
    · rw [if_neg hout]
      rw [not_or, Nat.not_lt, Nat.not_lt] at hout
      dsimp only
      by_cases hsize : s.end - s.begin ≥ best.2
      · rw [if_pos hsize]
        refine .inr ⟨rfl, fun k ⟨s', hs', _, _, hk⟩ => ?_⟩
        obtain rfl := Option.some.inj hs'
        rw [hk]
        exact hsize
      · rw [if_neg hsize]
        exact .inl ⟨s.end - s.begin, ⟨s, rfl, hout.1, hout.2, rfl⟩, Nat.lt_of_not_le hsize, rfl⟩

/-- **The search finds the first of the smallest candidates.** -/
theorem smallest_spec (candidates : List α) :
    ∃ size, candidates.foldl (consider span target) (none, maxOffset)
        = (candidates.find? (enclosesWith span target size), size) ∧
      (∀ x ∈ candidates, ∀ k, EnclosesBy span target k x → size ≤ k) ∧
      (candidates.find? (enclosesWith span target size) = none → size = maxOffset) := by
  induction candidates using List.reverseRecOn with
  | nil => exact ⟨maxOffset, rfl, nofun, fun _ => rfl⟩
  | append_singleton candidates x ih =>
    obtain ⟨size, hfold, hleast, hnone⟩ := ih
    rw [List.foldl_append, hfold]
    have hbound : size ≤ maxOffset := by
      cases hfound : candidates.find? (enclosesWith span target size) with
      | none => exact (hnone hfound).le
      | some y => exact (enclosesWith_iff.mp (List.find?_some hfound)).2.le
    rcases consider_cases (candidates.find? (enclosesWith span target size), size) x with
      ⟨k, hencloses, hless, hstep⟩ | ⟨hstep, hmore⟩
    · refine ⟨k, ?_, ?_, ?_⟩
      all_goals
        have hold : candidates.find? (enclosesWith span target k) = none := by
          refine List.find?_eq_none.mpr fun y hy hby => ?_
          exact absurd (hleast y hy k (enclosesWith_iff.mp hby).1) (Nat.not_le.mpr hless)
        have hnew : enclosesWith span target k x = true :=
          enclosesWith_iff.mpr ⟨hencloses, Nat.lt_of_lt_of_le hless hbound⟩
      · rw [List.foldl_cons, List.foldl_nil, hstep, List.find?_append, hold, Option.none_or,
          List.find?_singleton, if_pos hnew]
      · intro y hy j hj
        rcases List.mem_append.mp hy with hy | hy
        · exact hless.le.trans (hleast y hy j hj)
        · rw [List.mem_singleton] at hy
          subst hy
          obtain ⟨s, hs, -, -, hk⟩ := hencloses
          obtain ⟨s', hs', -, -, hk'⟩ := hj
          obtain rfl := Option.some.inj (hs.symm.trans hs')
          rw [hk, hk']
      · intro hfind
        rw [List.find?_append, hold, Option.none_or, List.find?_singleton, if_pos hnew] at hfind
        exact nomatch hfind
    · refine ⟨size, ?_, ?_, ?_⟩
      · rw [List.foldl_cons, List.foldl_nil, hstep, List.find?_append]
        cases hfound : candidates.find? (enclosesWith span target size) with
        | some y => rfl
        | none =>
          have hmax := hnone hfound
          have hout : ¬enclosesWith span target size x = true := fun hby =>
            absurd (enclosesWith_iff.mp hby).2 (by rw [hmax]; exact lt_irrefl _)
          rw [Option.none_or, List.find?_singleton, if_neg hout]
      · intro y hy j hj
        rcases List.mem_append.mp hy with hy | hy
        · exact hleast y hy j hj
        · rw [List.mem_singleton] at hy
          subst hy
          exact hmore j hj
      · intro hfind
        rw [List.find?_append, Option.or_eq_none_iff] at hfind
        exact hnone hfind.1

end Smallest

/-! ### What the cursor is on -/

namespace LinkedWorkspace

variable {ws : LinkedWorkspace} {d : ℕ} {r r' : SourceReference} {n t : Symbol.NodeKey}
  {selected a b : TextSpan}

/-- Places with some text in common. -/
theorem not_apart (ha : selected.Within a) (hb : selected.Within b) : ¬a.Apart b := by
  have h₁ := ha.first
  have h₂ := ha.text
  have h₃ := ha.last
  have h₄ := hb.first
  have h₅ := hb.last
  unfold TextSpan.Apart
  omega

theorem within_of_encloses {α : Type} {span : α → Option TextSpan} {size : ℕ} {x : α}
    (htext : selected.begin < selected.end) (h : EnclosesBy span selected size x) :
    ∃ s, span x = some s ∧ selected.Within s ∧ size = s.end - s.begin := by
  obtain ⟨s, hs, hb, he, hsize⟩ := h
  exact ⟨s, hs, ⟨hb, htext, he⟩, hsize⟩

/-- Text belongs to one reference. -/
theorem references_eq (hr : r ∈ ws.references d) (hr' : r' ∈ ws.references d)
    (h : ¬r.refNode.Apart r'.refNode) : r = r' := by
  have hsymm : Std.Symm fun r r' : SourceReference => r.refNode.Apart r'.refNode :=
    ⟨fun _ _ => Or.symm⟩
  by_contra hne
  exact h ((ws.references_apart d).forall hr hr' hne)

/-- **In a reference the cursor is on it.** -/
theorem find_reference_at_cst_node_eq (hr : r ∈ ws.references d)
    (h : selected.Within r.refNode) : ws.find_reference_at_cst_node d selected = some r := by
  obtain ⟨size, hfold, hleast, hnone⟩ :=
    @smallest_spec _ (fun reference : SourceReference => some reference.refNode) selected
      (ws.references d)
  unfold Workspace.find_reference_at_cst_node
  rw [hfold]
  cases hfound : (ws.references d).find? (enclosesWith _ selected size) with
  | none =>
    -- the reference itself would have been found
    have hle := hleast r hr _ ⟨r.refNode, rfl, h.first, h.last, rfl⟩
    rw [hnone hfound] at hle
    have hbound := (ws.reference_text d r hr).2
    omega
  | some y =>
    obtain ⟨s, hs, hwithin, -⟩ :=
      within_of_encloses h.text (enclosesWith_iff.mp (List.find?_some hfound)).1
    obtain rfl := Option.some.inj hs
    rw [references_eq (List.mem_of_find?_eq_some hfound) hr (not_apart hwithin h)]

/-- In a name the cursor is on no reference. -/
theorem find_reference_at_cst_node_none (hdistinct : ws.DistinctNames)
    (hn : n ∈ ws.getAllContent d) (hname : ws.getNameNode n = some a)
    (h : selected.Within a) :
    ws.find_reference_at_cst_node d selected = none := by
  obtain ⟨size, hfold, -, -⟩ :=
    @smallest_spec _ (fun reference : SourceReference => some reference.refNode) selected
      (ws.references d)
  unfold Workspace.find_reference_at_cst_node
  rw [hfold]
  refine List.find?_eq_none.mpr fun y hy hby => ?_
  obtain ⟨s, hs, hwithin, -⟩ := within_of_encloses h.text (enclosesWith_iff.mp hby).1
  obtain rfl := Option.some.inj hs
  exact not_apart hwithin h (hdistinct.apart d y hy n hn a hname)

/-- An unnamed node that comes before a named one, and has the name for its text. -/
def Shadowed (ws : LinkedWorkspace) (n : Symbol.NodeKey) : Prop :=
  ∃ before x after, ws.getAllContent n.documentId = before ++ x :: after ∧ n ∈ after ∧
    ws.getNameNode x = none ∧ ws.getCstNode x = ws.getNameNode n

theorem declaration_site_node_of_named (h : ws.getNameNode n = some a) :
    ws.declaration_site_node n = some a := by
  unfold Workspace.declaration_site_node
  rw [h]

/-- Around a name stand the name itself and unnamed nodes that have all of it. -/
theorem encloses_name (hdistinct : ws.DistinctNames) (hn : n ∈ ws.getAllContent d)
    (hname : ws.getNameNode n = some a) (h : selected.Within a) {x : Symbol.NodeKey}
    (hx : x ∈ ws.getAllContent d) {size : ℕ}
    (hencloses : EnclosesBy ws.declaration_site_node selected size x) :
    x = n ∨ (ws.getNameNode x = none ∧ ∃ c, ws.getCstNode x = some c ∧
      size = c.end - c.begin ∧ c.begin ≤ a.begin ∧ a.end ≤ c.end) := by
  obtain ⟨s, hs, hwithin, hsize⟩ := within_of_encloses h.text hencloses
  unfold Workspace.declaration_site_node at hs
  cases hnamex : ws.getNameNode x with
  | some b =>
    rw [hnamex] at hs
    obtain rfl := Option.some.inj hs
    left
    by_contra hne
    exact not_apart hwithin h (hdistinct.names_apart d x hx n hn hne b hnamex a hname)
  | none =>
    rw [hnamex] at hs
    refine .inr ⟨rfl, s, hs, hsize, ?_⟩
    exact (hdistinct.unnamed d x hx hnamex s hs n hn a hname).resolve_left
      (not_apart hwithin h)

/-- What is found first has no shadow. -/
theorem not_shadowed_of_found {size : ℕ} (hname : ws.getNameNode n = some a)
    (h : selected.Within a) (hencloses : EnclosesBy ws.declaration_site_node selected size n)
    (hfound : (ws.getAllContent n.documentId).find?
      (enclosesWith ws.declaration_site_node selected size) = some n) : ¬ws.Shadowed n := by
  rintro ⟨before, y, after, hcontent, hafter, hunnamed, hcst⟩
  have hsite : ws.declaration_site_node y = some a := by
    unfold Workspace.declaration_site_node
    rw [hunnamed]
    exact hcst.trans hname
  have hsize : size = a.end - a.begin := by
    obtain ⟨s, hs, -, -, hsize⟩ := hencloses
    obtain rfl := Option.some.inj (hs.symm.trans (declaration_site_node_of_named hname))
    exact hsize
  have htest : enclosesWith ws.declaration_site_node selected size y = true :=
    enclosesWith_iff.mpr ⟨⟨a, hsite, h.first, h.last, hsize⟩,
      (enclosesWith_iff.mp (List.find?_some hfound)).2⟩
  have hnodup := ws.nodup n.documentId
  rw [hcontent] at hfound hnodup
  rw [List.find?_append, List.find?_cons_of_pos htest] at hfound
  cases hbefore : before.find? (enclosesWith ws.declaration_site_node selected size) with
  | none =>
    rw [hbefore] at hfound
    obtain rfl : y = n := Option.some.inj hfound
    rw [hname] at hunnamed
    exact nomatch hunnamed
  | some z =>
    rw [hbefore] at hfound
    obtain rfl : z = n := Option.some.inj hfound
    exact (List.nodup_append.mp hnodup).2.2 z (List.mem_of_find?_eq_some hbefore) z
      (List.mem_cons_of_mem _ hafter) rfl

/-- **In a name the cursor is on the declaration**, unless an unnamed node stands for
the name. -/
theorem find_named_declaration_spec (hdistinct : ws.DistinctNames) (hn : ws.Declared n)
    (hname : ws.getNameNode n = some a) (h : selected.Within a) :
    (¬ws.Shadowed n → ws.find_named_declaration n.documentId selected = some n) ∧
      (ws.Shadowed n → ∃ x, ws.find_named_declaration n.documentId selected = some x ∧
        x.documentId = n.documentId ∧ ws.getNameNode x = none ∧ ws.getCstNode x = some a) := by
  obtain ⟨size, hfold, hleast, hnone⟩ :=
    @smallest_spec _ ws.declaration_site_node selected (ws.getAllContent n.documentId)
  unfold Workspace.find_named_declaration
  rw [hfold]
  have hself : EnclosesBy ws.declaration_site_node selected (a.end - a.begin) n :=
    ⟨a, declaration_site_node_of_named hname, h.first, h.last, rfl⟩
  have hle : size ≤ a.end - a.begin := hleast n hn.1 _ hself
  have hbound : a.end - a.begin < maxOffset := by
    have := (ws.name_text _ n hn.1 a hname).2
    omega
  cases hfound : (ws.getAllContent n.documentId).find? (enclosesWith _ selected size) with
  | none => exact absurd (hnone hfound) (Nat.ne_of_lt (Nat.lt_of_le_of_lt hle hbound))
  | some x =>
    have hx := List.mem_of_find?_eq_some hfound
    have hencloses := (enclosesWith_iff.mp (List.find?_some hfound)).1
    rcases encloses_name hdistinct hn.1 hname h hx hencloses with
      rfl | ⟨hunnamed, c, hc, hsize, hb, he⟩
    · refine ⟨fun _ => rfl, fun hshadowed => ?_⟩
      exact absurd hshadowed (not_shadowed_of_found hname h hencloses hfound)
    · -- the node is no larger than the name, so it is the name
      obtain rfl : c = a := by
        have htext := (ws.name_text _ n hn.1 a hname).1
        have hbegin : c.begin = a.begin := by omega
        have hend : c.end = a.end := by omega
        cases c
        cases a
        exact congr (congrArg _ hbegin) hend
      refine ⟨fun hshown => absurd ?_ hshown, fun _ => ⟨x, rfl, ws.own _ x hx, hunnamed, hc⟩⟩
      obtain ⟨-, before, after, hcontent, hbefore⟩ := List.find?_eq_some_iff_append.mp hfound
      refine ⟨before, x, after, hcontent, ?_, hunnamed, hc.trans hname.symm⟩
      have hmem := hn.1
      rw [hcontent, List.mem_append, List.mem_cons] at hmem
      rcases hmem with hbef | rfl | hafter
      · -- the name would have been found first
        have htest := hbefore n hbef
        rw [hsize, enclosesWith_iff.mpr ⟨hself, hbound⟩] at htest
        exact absurd htest (by decide)
      · rw [hname] at hunnamed
        exact nomatch hunnamed
      · exact hafter

/-! ### Siblings -/

theorem mem_append_reference_targets (r : SourceReference) (t : Symbol.NodeKey) :
    t ∈ Workspace.append_reference_targets r ↔ t ∈ r.resolvedDescriptions := by
  have hfold : ∀ (targets results : List Symbol.NodeKey),
      t ∈ targets.foldl (fun results target =>
          if target ∈ results then results else results ++ [target]) results
        ↔ t ∈ results ∨ t ∈ targets := by
    intro targets
    induction targets with
    | nil => simp
    | cons target targets ih =>
      intro results
      rw [List.foldl_cons, ih, List.mem_cons, ← or_assoc]
      refine or_congr_left ?_
      split
      next hmem =>
        refine ⟨.inl, ?_⟩
        rintro (h | rfl)
        · exact h
        · exact hmem
      next => rw [List.mem_append, List.mem_singleton]
  rw [Workspace.append_reference_targets, hfold]
  exact or_iff_right List.not_mem_nil

theorem find_reference_at_offset_eq (hr : r ∈ ws.references d) :
    ws.find_reference_at_offset d r.refNode.begin = some r := by
  unfold Workspace.find_reference_at_offset
  cases hfound : (ws.references d).find? fun reference =>
      reference.refNode.begin = r.refNode.begin with
  | none => exact absurd (List.find?_eq_none.mp hfound r hr) (by simp)
  | some r' =>
    have hbegin : r'.refNode.begin = r.refNode.begin := by simpa using List.find?_some hfound
    have hr' := List.mem_of_find?_eq_some hfound
    rw [references_eq hr' hr ?_]
    -- both have text where they begin
    have htext := (ws.reference_text d r hr).1
    have htext' := (ws.reference_text d r' hr').1
    unfold TextSpan.Apart
    omega

/-- The siblings of a declaration: the targets of the first multi-reference that the
index has for it, or the declaration alone. -/
def siblings (ws : LinkedWorkspace) (n : Symbol.NodeKey) : Set Symbol.NodeKey :=
  {t | match (ws.findAllReferences n).find? (·.multiReference) with
    | some x => ∃ r ∈ ws.references x.sourceDocumentId,
        r.refNode.begin = x.sourceOffset ∧ t ∈ r.resolvedDescriptions
    | none => t = n}

/-- The loop stops at the first multi-reference. -/
theorem selfNodesFrom_spec (incoming : List Symbol.ReferenceDescription)
    (hindexed : ∀ x ∈ incoming, ∃ d, ∃ r ∈ ws.references d,
      n ∈ r.resolvedDescriptions ∧ x = describe d r n) :
    (incoming.find? (·.multiReference) = none ∧ ws.selfNodesFrom n incoming = [n]) ∨
      ∃ d, ∃ r ∈ ws.references d, n ∈ r.resolvedDescriptions ∧ r.isMultiReference = true ∧
        incoming.find? (·.multiReference) = some (describe d r n) ∧
        ws.selfNodesFrom n incoming = Workspace.append_reference_targets r := by
  induction incoming with
  | nil => exact .inl ⟨rfl, rfl⟩
  | cons x rest ih =>
    obtain ⟨⟨d, r, hr, hn, rfl⟩, hrest⟩ := List.forall_mem_cons.mp hindexed
    unfold Workspace.selfNodesFrom
    cases hmulti : r.isMultiReference with
    | false =>
      have hskip : (describe d r n).multiReference = false := hmulti
      rw [List.find?_cons_of_neg (by simp [hskip]), if_pos (by simp [hskip])]
      exact ih hrest
    | true =>
      have hstop : (describe d r n).multiReference = true := hmulti
      have hfound : ws.find_reference_at_offset (describe d r n).sourceDocumentId
          (describe d r n).sourceOffset = some r := find_reference_at_offset_eq hr
      have hmem : n ∈ Workspace.append_reference_targets r :=
        (mem_append_reference_targets r n).mpr hn
      refine .inr ⟨d, r, hr, hn, hmulti, ?_, ?_⟩
      · exact List.find?_cons_of_pos hstop
      · rw [if_neg (by simp [hstop]), hfound]
        dsimp only
        rw [if_neg (by simp [hmulti]), if_pos hmem]

theorem mem_get_self_nodes (n t : Symbol.NodeKey) :
    t ∈ ws.get_self_nodes n ↔ t ∈ ws.siblings n := by
  unfold Workspace.get_self_nodes siblings
  rw [Set.mem_ofPred_eq]
  rcases selfNodesFrom_spec (ws.findAllReferences n) fun x hx => (ws.indexed n x).mp hx with
    ⟨hnone, heq⟩ | ⟨d, r, hr, -, -, hsome, heq⟩
  · rw [hnone, heq, List.mem_singleton]
  · rw [hsome, heq, mem_append_reference_targets]
    dsimp only
    constructor
    · exact fun ht => ⟨r, hr, rfl, ht⟩
    · rintro ⟨r', hr', hbegin, ht⟩
      -- only one reference begins there
      have hsame := find_reference_at_offset_eq hr'
      rw [hbegin] at hsame
      have hr := find_reference_at_offset_eq hr
      obtain rfl := Option.some.inj (hsame.symm.trans hr)
      exact ht

/-- Siblings are the targets of one multi-reference, or there is none. -/
theorem siblings_cases (n : Symbol.NodeKey) :
    (∃ d, ∃ r ∈ ws.references d, n ∈ r.resolvedDescriptions ∧
        ws.siblings n = {t | t ∈ r.resolvedDescriptions}) ∨
      (ws.siblings n = {n} ∧ ∀ d, ∀ r ∈ ws.references d, n ∈ r.resolvedDescriptions →
        r.isMultiReference = false) := by
  have hsiblings : ws.siblings n = {t | t ∈ ws.get_self_nodes n} :=
    Set.ext fun t => (mem_get_self_nodes n t).symm
  rw [hsiblings, Workspace.get_self_nodes]
  rcases selfNodesFrom_spec (ws.findAllReferences n) fun x hx => (ws.indexed n x).mp hx with
    ⟨hnone, heq⟩ | ⟨d, r, hr, hn, -, -, heq⟩
  · refine .inr ⟨?_, fun d r hr hn => ?_⟩
    · rw [heq]
      exact Set.ext fun t => List.mem_singleton
    · have hmem := (ws.indexed n _).mpr ⟨d, r, hr, hn, rfl⟩
      have hsingle := List.find?_eq_none.mp hnone _ hmem
      exact Bool.eq_false_iff.mpr hsingle
  · refine .inl ⟨d, r, hr, hn, ?_⟩
    rw [heq]
    exact Set.ext fun t => mem_append_reference_targets r t

end LinkedWorkspace

end Pegium.Navigation
