/-
Pegium/SyntaxTree/CstUtils.lean

Looking up the node at an offset.

The search goes down from the top-level nodes.  On every level it takes the
first visible node whose range contains the offset, both ends included, and it
gives up at a node that begins after the offset.  A declaration is looked up at
the offset itself when an identifier-like codepoint starts there, and at the
start of the codepoint before it otherwise.

Since both ends count, a node that ends at the offset is taken before the one
that starts there.  `find_declaration_node_at_offset_iff` says exactly when the
leaf under the cursor is found all the same: no earlier sibling of the leaf, or
of a node above it, halts the search.
-/
import Mathlib.Data.List.Nodup
import Pegium.Parser.SpanLaw

namespace Pegium

variable {G : Type*}

instance : DecidableRel Extent.Inside := fun parent child =>
  inferInstanceAs (Decidable (child.isHidden = false →
    parent.begin ≤ child.begin ∧ child.end ≤ parent.end))

/-! ### The search -/

/-- The walk of `find_direct_child_at_offset` over a list of siblings; the child
is returned with its own children. -/
def child_at_offset (offset : ℕ) : Forest (CstItem G) → Option (CstItem G × Forest (CstItem G))
  | .nil => none
  | .cons child below rest =>
    if offset < child.begin then none
    else if !child.isHidden && offset ≤ child.end then some (child, below)
    else child_at_offset offset rest

/-- The first visible child of `node` whose range contains the offset. -/
def find_direct_child_at_offset (node : CstItem G) (children : Forest (CstItem G)) (offset : ℕ) :
    Option (CstItem G × Forest (CstItem G)) :=
  if node.isLeaf then none else child_at_offset offset children

/-- The loop of `find_node_at_offset`: go down while a child contains the
offset.  Every step enters a smaller forest. -/
def deepest_at_offset (offset : ℕ) : ℕ → CstItem G → Forest (CstItem G) → CstItem G
  | 0, current, _ => current
  | fuel + 1, current, children =>
    match find_direct_child_at_offset current children offset with
    | none => current
    | some (child, below) => deepest_at_offset offset fuel child below

/-- The deepest visible node under `node` that contains the offset. -/
def find_node_at_offset (node : CstItem G) (children : Forest (CstItem G)) (offset : ℕ) :
    Option (CstItem G) :=
  if node.isHidden || offset < node.begin || node.end < offset then none
  else some (deepest_at_offset offset children.size node children)

/-- The deepest visible node of a CST that contains the offset. -/
def RootCstNode.find_node_at_offset (root : RootCstNode G) (offset : ℕ) : Option (CstItem G) :=
  root.read.bind fun roots =>
    (child_at_offset offset roots).bind fun found =>
      Pegium.find_node_at_offset found.1 found.2 offset

/-- The offset a declaration is looked up at: the one given, or the start of the
codepoint before it when no identifier-like codepoint starts there. -/
def declaration_offset (text : List UInt8) (offset : ℕ) : ℕ :=
  let size := text.length
  let adjustedOffset := min offset size
  if 0 < adjustedOffset ∧
      (size ≤ adjustedOffset ∨ is_identifier_like_codepoint_at text adjustedOffset size = false)
  then previous_codepoint_start text adjustedOffset
  else adjustedOffset

/-- The declaration-relevant CST node at the offset. -/
def find_declaration_node_at_offset (root : RootCstNode G) (offset : ℕ) : Option (CstItem G) :=
  root.find_node_at_offset (declaration_offset root.text offset)

/-! ### What the search returns -/

/-- The search does not get past this sibling: it begins after the offset, or it
is visible and reaches the offset. -/
def CstItem.Halts (offset : ℕ) (item : CstItem G) : Prop :=
  offset < item.begin ∨ (item.isHidden = false ∧ offset ≤ item.end)

instance (offset : ℕ) (item : CstItem G) : Decidable (item.Halts offset) :=
  inferInstanceAs (Decidable (_ ∨ _))

/-- A place the search reaches: every node above it is visible, and no earlier
sibling halts the search. -/
def Clear (offset : ℕ) (above earlier : List (CstItem G)) : Prop :=
  (∀ item ∈ above, item.isHidden = false) ∧ ∀ item ∈ earlier, ¬ item.Halts offset

theorem child_at_offset_leads {offset : ℕ} {f c : Forest (CstItem G)} {child : CstItem G}
    (h : child_at_offset offset f = some (child, c)) :
    ∃ earlier, f.Leads [] earlier child c ∧ (∀ item ∈ earlier, ¬ item.Halts offset) ∧
      child.isHidden = false := by
  induction f with
  | nil => cases h
  | cons a below rest _ ih =>
    rw [child_at_offset] at h
    split at h
    · cases h
    next hbegin =>
      split at h
      next htake =>
        simp only [Bool.and_eq_true, Bool.not_eq_true', decide_eq_true_eq] at htake
        simp only [Option.some.injEq, Prod.mk.injEq] at h
        obtain ⟨rfl, rfl⟩ := h
        exact ⟨[], .here _ _ _, List.forall_mem_nil _, htake.1⟩
      next hskip =>
        simp only [Bool.and_eq_true, Bool.not_eq_true', decide_eq_true_eq] at hskip
        obtain ⟨earlier, hleads, hclear, hvisible⟩ := ih h
        refine ⟨a :: earlier, .next a below hleads, ?_, hvisible⟩
        intro item hitem
        rcases List.mem_cons.mp hitem with rfl | hitem
        · rintro (hhalt | hhalt)
          · exact hbegin hhalt
          · exact hskip hhalt
        · exact hclear item hitem

theorem find_direct_child_at_offset_eq_some {node child : CstItem G} {f c : Forest (CstItem G)}
    {offset : ℕ} (h : find_direct_child_at_offset node f offset = some (child, c)) :
    child_at_offset offset f = some (child, c) := by
  rw [find_direct_child_at_offset] at h
  split at h
  · cases h
  · exact h

/-- The loop ends where it started or at a place it reaches. -/
theorem deepest_at_offset_leads (offset fuel : ℕ) (current : CstItem G)
    (children : Forest (CstItem G)) :
    deepest_at_offset offset fuel current children = current ∨
      ∃ above earlier c, Clear offset above earlier ∧
        children.Leads above earlier (deepest_at_offset offset fuel current children) c := by
  induction fuel generalizing current children with
  | zero => exact .inl rfl
  | succ fuel ih =>
    rw [deepest_at_offset]
    split
    next => exact .inl rfl
    next child below hchild =>
      obtain ⟨earlier, hleads, hclear, hvisible⟩ :=
        child_at_offset_leads (find_direct_child_at_offset_eq_some hchild)
      right
      rcases ih child below with hsame | ⟨above', earlier', c, hclear', hleads'⟩
      · rw [hsame]
        exact ⟨[], earlier, below, ⟨List.forall_mem_nil _, hclear⟩, hleads⟩
      · refine ⟨child :: above', earlier ++ earlier', c, ⟨?_, ?_⟩, hleads.trans hleads'⟩
        · exact List.forall_mem_cons.mpr ⟨hvisible, hclear'.1⟩
        · exact List.forall_mem_append.mpr ⟨hclear, hclear'.2⟩

/-- **A node is found at a place the search reaches.** -/
theorem find_node_at_offset_leads {root : RootCstNode G} {roots : Forest (CstItem G)}
    {offset : ℕ} {item : CstItem G} (hread : root.read = some roots)
    (h : root.find_node_at_offset offset = some item) :
    ∃ above earlier c, Clear offset above earlier ∧ roots.Leads above earlier item c := by
  rw [RootCstNode.find_node_at_offset, hread, Option.bind_some, Option.bind_eq_some_iff] at h
  obtain ⟨⟨top, below⟩, htop, h⟩ := h
  obtain ⟨earlier, hleads, hclear, hvisible⟩ := child_at_offset_leads htop
  rw [find_node_at_offset] at h
  split at h
  · cases h
  next =>
    rw [Option.some.injEq] at h
    subst h
    rcases deepest_at_offset_leads offset below.size top below with
      hsame | ⟨above', earlier', c, hclear', hleads'⟩
    · rw [hsame]
      exact ⟨[], earlier, below, ⟨List.forall_mem_nil _, hclear⟩, hleads⟩
    · refine ⟨top :: above', earlier ++ earlier', c, ⟨?_, ?_⟩, hleads.trans hleads'⟩
      · exact List.forall_mem_cons.mpr ⟨hvisible, hclear'.1⟩
      · exact List.forall_mem_append.mpr ⟨hclear, hclear'.2⟩

/-! ### Where the search goes -/

/-- The offset is in the range of the node, both ends included. -/
def CstItem.Reaches (offset : ℕ) (item : CstItem G) : Prop :=
  item.begin ≤ offset ∧ offset ≤ item.end

instance (offset : ℕ) (item : CstItem G) : Decidable (item.Reaches offset) :=
  inferInstanceAs (Decidable (_ ∧ _))

/-- The first node on the way to a place, and the rest of the way. -/
theorem child_at_offset_of_leads {offset : ℕ} {f c : Forest (CstItem G)}
    {above earlier : List (CstItem G)} {leaf : CstItem G} (h : f.Leads above earlier leaf c)
    (hclear : Clear offset above earlier) (hvisible : leaf.isHidden = false)
    (hreach : ∀ item ∈ above, item.Reaches offset) (hleaf : leaf.Reaches offset) :
    (above = [] ∧ child_at_offset offset f = some (leaf, c)) ∨
      ∃ child below above' earlier', above = child :: above' ∧
        child_at_offset offset f = some (child, below) ∧
        below.Leads above' earlier' leaf c ∧ Clear offset above' earlier' := by
  induction h with
  | here a c r =>
    left
    refine ⟨rfl, ?_⟩
    rw [child_at_offset, if_neg (Nat.not_lt.mpr hleaf.1), if_pos]
    simp [hvisible, hleaf.2]
  | @down c above earlier b d a r hdown _ =>
    right
    have ha := hreach a List.mem_cons_self
    have hav := hclear.1 a List.mem_cons_self
    refine ⟨a, c, above, earlier, rfl, ?_, hdown, ?_⟩
    · rw [child_at_offset, if_neg (Nat.not_lt.mpr ha.1), if_pos]
      simp [hav, ha.2]
    · exact ⟨fun item hitem => hclear.1 item (List.mem_cons_of_mem _ hitem), hclear.2⟩
  | @next r above earlier b d a c _ ih =>
    have ha := hclear.2 a List.mem_cons_self
    have hstep : child_at_offset offset (.cons a c r) = child_at_offset offset r := by
      rw [child_at_offset, if_neg (fun h => ha (.inl h)), if_neg]
      simp only [Bool.and_eq_true, Bool.not_eq_true', decide_eq_true_eq]
      exact fun h => ha (.inr h)
    rw [hstep]
    exact ih ⟨hclear.1, fun item hitem => hclear.2 item (List.mem_cons_of_mem _ hitem)⟩
      hvisible hreach hleaf

/-- The loop stays at a node without a child at the offset. -/
theorem deepest_at_offset_of_stop {offset : ℕ} {node : CstItem G} {c : Forest (CstItem G)}
    (hstop : find_direct_child_at_offset node c offset = none) (fuel : ℕ) :
    deepest_at_offset offset fuel node c = node := by
  cases fuel with
  | zero => rfl
  | succ fuel => rw [deepest_at_offset, hstop]

/-- The loop follows the way to a visible node that it reaches, and stops there when no
child of the node contains the offset. -/
theorem deepest_at_offset_of_leads {offset fuel : ℕ} {current node : CstItem G}
    {f c : Forest (CstItem G)} {above earlier : List (CstItem G)}
    (h : f.Leads above earlier node c) (hfuel : f.size ≤ fuel)
    (hinner : ∀ item ∈ current :: above, item.isLeaf = false)
    (hclear : Clear offset above earlier) (hvisible : node.isHidden = false)
    (hreach : ∀ item ∈ above, item.Reaches offset) (hat : node.Reaches offset)
    (hstop : find_direct_child_at_offset node c offset = none) :
    deepest_at_offset offset fuel current f = node := by
  induction fuel generalizing current f above earlier with
  | zero =>
    have hlt := h.size_lt
    omega
  | succ fuel ih =>
    have hcurrent := hinner current List.mem_cons_self
    rw [deepest_at_offset, find_direct_child_at_offset, hcurrent]
    rcases child_at_offset_of_leads h hclear hvisible hreach hat with
      ⟨_, hchild⟩ | ⟨child, below, above', earlier', rfl, hchild, hbelow, hclear'⟩
    · -- the node is a child of the current one
      rw [if_neg Bool.false_ne_true, hchild]
      exact deepest_at_offset_of_stop hstop fuel
    · rw [if_neg Bool.false_ne_true, hchild]
      show deepest_at_offset offset fuel child below = node
      obtain ⟨_, hplace, _⟩ := child_at_offset_leads hchild
      have hsize := hplace.size_lt
      refine ih hbelow (by omega) ?_ hclear' ?_
      · exact fun item hitem => hinner item (List.mem_cons_of_mem _ hitem)
      · exact fun item hitem => hreach item (List.mem_cons_of_mem _ hitem)

/-- Without a visible child at the offset there is none to go to. -/
theorem find_direct_child_at_offset_eq_none {offset : ℕ} {node : CstItem G}
    {c : Forest (CstItem G)}
    (h : ∀ child ∈ c.roots, child.isHidden = false → ¬ child.Reaches offset) :
    find_direct_child_at_offset node c offset = none := by
  rw [find_direct_child_at_offset]
  split
  next => rfl
  next =>
    induction c with
    | nil => rfl
    | cons a below rest _ ih =>
      rw [child_at_offset]
      split
      next => rfl
      next hbegin =>
        have ha := h a List.mem_cons_self
        rw [if_neg, ih fun child hchild => h child (List.mem_cons_of_mem _ hchild)]
        simp only [Bool.and_eq_true, Bool.not_eq_true', decide_eq_true_eq]
        exact fun htake => ha htake.1 ⟨Nat.le_of_not_lt hbegin, htake.2⟩

/-! ### Places of a CST -/

/-- In a CST the leaf flag of a node says whether it has children. -/
theorem isLeaf_of_leads_numbered {base : ℕ} {f : Forest (CstLabel G)} {c : Forest (CstItem G)}
    {above earlier : List (CstItem G)} {item : CstItem G}
    (h : (numbered base f).Leads above earlier item c) :
    (item.isLeaf = true ↔ c = .nil) ∧ ∀ a ∈ above, a.isLeaf = false := by
  induction f generalizing base above earlier with
  | nil => cases h
  | cons l below rest ihb ihr =>
    rw [numbered] at h
    have hflag : (l.item base below).isLeaf = true ↔ numbered (base + 1) below = .nil := by
      cases below with
      | nil => exact ⟨fun _ => rfl, fun _ => rfl⟩
      | cons l' c' r' => simp [CstLabel.item, numbered, Forest.headId_cons]
    cases h with
    | here => exact ⟨hflag, List.forall_mem_nil _⟩
    | down _ _ hdown =>
      obtain ⟨hitem, habove⟩ := ihb hdown
      refine ⟨hitem, List.forall_mem_cons.mpr ⟨?_, habove⟩⟩
      rw [← Bool.not_eq_true, hflag]
      intro hnil
      rw [hnil] at hdown
      cases hdown
    | next _ _ hnext => exact ihr hnext

/-- The nodes of a CST differ by their ids. -/
theorem nodup_numbered (base : ℕ) (f : Forest (CstLabel G)) :
    (numbered base f).preorder.Nodup := by
  apply List.Nodup.of_map CstItem.id
  rw [preorder_numbered]
  exact List.nodup_range'

/-- Under the span law a visible node lies inside every visible node above it. -/
theorem inside_of_leads {f c : Forest (CstItem G)} {above earlier : List (CstItem G)}
    {leaf : CstItem G} (h : f.Leads above earlier leaf c)
    (hnested : f.Nested fun a b => a.extent.Inside b.extent)
    (habove : ∀ item ∈ above, item.isHidden = false) (hvisible : leaf.isHidden = false) :
    (∀ item ∈ above, item.begin ≤ leaf.begin ∧ leaf.end ≤ item.end) ∧
      ∃ root ∈ f.roots, root.isHidden = false ∧ root.begin ≤ leaf.begin ∧ leaf.end ≤ root.end := by
  induction h with
  | here a c r =>
    refine ⟨List.forall_mem_nil _, a, List.mem_cons_self, hvisible, ?_⟩
    exact ⟨Nat.le_refl _, Nat.le_refl _⟩
  | @down c above earlier b d a r hdown ih =>
    obtain ⟨hroots, hbelow, _⟩ := hnested
    obtain ⟨ha, habove⟩ := List.forall_mem_cons.mp habove
    obtain ⟨hall, root, hroot, hv, hbegin, hend⟩ := ih hbelow habove hvisible
    have hin := hroots root hroot hv
    have hself : a.begin ≤ b.begin ∧ b.end ≤ a.end :=
      ⟨Nat.le_trans hin.1 hbegin, Nat.le_trans hend hin.2⟩
    exact ⟨List.forall_mem_cons.mpr ⟨hself, hall⟩, a, List.mem_cons_self, ha, hself⟩
  | @next r above earlier b d a c hnext ih =>
    obtain ⟨hall, root, hroot, hrest⟩ := ih hnested.2.2 habove hvisible
    exact ⟨hall, root, List.mem_cons_of_mem _ hroot, hrest⟩

/-- **The search finds the place it reaches**, when the nodes on the way contain the
offset and no child of the last one does. -/
theorem find_node_at_offset_of_leads {root : RootCstNode G} {f : Forest (CstLabel G)}
    {offset : ℕ} {above earlier : List (CstItem G)} {node : CstItem G}
    {children : Forest (CstItem G)} (hread : root.read = some (numbered 0 f))
    (hplace : (numbered 0 f).Leads above earlier node children)
    (hclear : Clear offset above earlier) (hvisible : node.isHidden = false)
    (hreach : ∀ item ∈ above, item.Reaches offset) (hat : node.Reaches offset)
    (hchildren : ∀ child ∈ children.roots, child.isHidden = false → ¬ child.Reaches offset) :
    root.find_node_at_offset offset = some node := by
  obtain ⟨_, hinner⟩ := isLeaf_of_leads_numbered hplace
  have hstop := @find_direct_child_at_offset_eq_none _ _ node _ hchildren
  rw [RootCstNode.find_node_at_offset, hread, Option.bind_some]
  rcases child_at_offset_of_leads hplace hclear hvisible hreach hat with
    ⟨_, hchild⟩ | ⟨child, below, above', earlier', rfl, hchild, hbelow, hclear'⟩
  · rw [hchild, Option.bind_some, find_node_at_offset, if_neg]
    · rw [deepest_at_offset_of_stop hstop]
    · simp [hvisible, hat.1, hat.2]
  · have hchildAt := hreach child List.mem_cons_self
    have hchildVisible := hclear.1 child List.mem_cons_self
    rw [hchild, Option.bind_some, find_node_at_offset, if_neg]
    · rw [deepest_at_offset_of_leads hbelow (Nat.le_refl _) hinner hclear' hvisible
        (fun item hitem => hreach item (List.mem_cons_of_mem _ hitem)) hat hstop]
    · simp [hchildVisible, hchildAt.1, hchildAt.2]

/-! ### The leaf under the cursor -/

/-- The text of a node. -/
def CstItem.getText (item : CstItem G) (text : List UInt8) : List UInt8 :=
  (text.drop item.begin).take (item.end - item.begin)

/-- The node starts with a codepoint and all its codepoints are
identifier-like. -/
structure CstItem.IdentifierLike (text : List UInt8) (item : CstItem G) : Prop where
  starts : isContinuation (byteAt text item.begin) = false
  wordLike : is_word_like_terminal (item.getText text) = true

/-- The offset is that of an identifier-like codepoint inside the node. -/
def CstItem.HasIdentifierAt (text : List UInt8) (offset : ℕ) (item : CstItem G) : Prop :=
  is_identifier_like_codepoint_at text offset text.length = true ∧
    item.begin ≤ offset ∧ offset < item.end

instance (text : List UInt8) (offset : ℕ) (item : CstItem G) :
    Decidable (item.HasIdentifierAt text offset) :=
  inferInstanceAs (Decidable (_ ∧ _ ∧ _))

/-- `leaf` is the identifier under the cursor: the codepoint at the offset is
identifier-like and in the leaf, or the leaf is identifier-like and ends at the
offset, and no leaf has an identifier-like codepoint there. -/
def UnderCursor (text : List UInt8) (roots : Forest (CstItem G)) (offset : ℕ)
    (leaf : CstItem G) : Prop :=
  leaf.HasIdentifierAt text offset ∨
    (leaf.IdentifierLike text ∧ offset = leaf.end ∧
      ∀ other ∈ roots.preorder, other.isLeaf = true → other.isHidden = false →
        ¬ other.HasIdentifierAt text offset)

theorem CstItem.IdentifierLike.begin_lt_end {text : List UInt8} {item : CstItem G}
    (h : item.IdentifierLike text) : item.begin < item.end := by
  have hword := h.wordLike
  by_contra hle
  have hnil : item.getText text = [] := by
    rw [CstItem.getText, Nat.sub_eq_zero_of_le (Nat.le_of_not_lt hle), List.take_zero]
  rw [hnil] at hword
  exact absurd hword (by decide)

/-- The offset a declaration is looked up at is in the range of the leaf under
the cursor. -/
theorem UnderCursor.reaches {text : List UInt8} {roots : Forest (CstItem G)} {offset : ℕ}
    {leaf : CstItem G} (h : UnderCursor text roots offset leaf)
    (hlength : leaf.end ≤ text.length) : leaf.Reaches (declaration_offset text offset) := by
  rcases h with ⟨hat, hbegin, hend⟩ | ⟨hlike, rfl, _⟩
  · have hmin : min offset text.length = offset := Nat.min_eq_left (by omega)
    have hstay : declaration_offset text offset = offset := by
      rw [declaration_offset, hmin, if_neg]
      rintro ⟨_, hpast | hother⟩
      · omega
      · exact absurd (hother.symm.trans hat) Bool.false_ne_true
    rw [hstay]
    exact ⟨hbegin, Nat.le_of_lt hend⟩
  · have hmin : min leaf.end text.length = leaf.end := Nat.min_eq_left hlength
    have hlt := hlike.begin_lt_end
    rw [declaration_offset, hmin]
    split
    · -- the codepoint before the offset is the last one of the leaf
      refine ⟨le_previous_codepoint_start hlt hlike.starts, ?_⟩
      exact Nat.le_of_lt (previous_codepoint_start_lt (by omega))
    · exact ⟨Nat.le_of_lt hlt, Nat.le_refl _⟩

/-- **The leaf under the cursor is found exactly when the search is not halted
on its way to it**: every node above the leaf is visible, and no earlier sibling
of the leaf, or of a node above it, begins after the offset looked up, or is
visible and reaches it. -/
theorem find_declaration_node_at_offset_iff {root : RootCstNode G} {f : Forest (CstLabel G)}
    {offset : ℕ} {above earlier : List (CstItem G)} {leaf : CstItem G}
    {children : Forest (CstItem G)} (hread : root.read = some (numbered 0 f))
    (hlaw : SpanLaw root.text ((numbered 0 f).map CstItem.extent))
    (hplace : (numbered 0 f).Leads above earlier leaf children)
    (hleaf : leaf.isLeaf = true) (hvisible : leaf.isHidden = false)
    (hcursor : UnderCursor root.text (numbered 0 f) offset leaf) :
    find_declaration_node_at_offset root offset = some leaf ↔
      (∀ item ∈ above, item.isHidden = false) ∧
      ∀ item ∈ earlier, ¬ item.Halts (declaration_offset root.text offset) := by
  constructor
  · intro h
    -- the place the search reaches is the place of the leaf
    obtain ⟨above', earlier', c, hclear, hplace'⟩ := find_node_at_offset_leads hread h
    obtain ⟨rfl, rfl, _⟩ := hplace.unique (nodup_numbered 0 f) hplace'
    exact hclear
  · intro hclear
    obtain ⟨hnochild, _⟩ := isLeaf_of_leads_numbered hplace
    have hmem : leaf.extent ∈ ((numbered 0 f).map CstItem.extent).preorder := by
      rw [Forest.preorder_map]
      exact List.mem_map_of_mem hplace.mem_preorder
    have hat := hcursor.reaches (hlaw.end_le_length _ hmem)
    have hnested := (Forest.nested_map CstItem.extent _).mp hlaw.nested
    obtain ⟨hin, _⟩ := inside_of_leads hplace hnested hclear.1 hvisible
    have hreach : ∀ item ∈ above, item.Reaches (declaration_offset root.text offset) := by
      intro item hitem
      obtain ⟨hbegin, hend⟩ := hin item hitem
      exact ⟨Nat.le_trans hbegin hat.1, Nat.le_trans hat.2 hend⟩
    refine find_node_at_offset_of_leads hread hplace hclear hvisible hreach hat ?_
    -- nothing is below a leaf
    rw [hnochild.mp hleaf]
    exact List.forall_mem_nil _

/-- The CST of a rule with two leaves. -/
def twoLeaves (begin₁ end₁ begin₂ end₂ : ℕ) : Forest (CstLabel GrammarElement) :=
  .tree ⟨begin₁, end₂, .parserRule 0, false, false⟩
    (.cons ⟨begin₁, end₁, .expression 0, false, false⟩ .nil
      (.cons ⟨begin₂, end₂, .expression 1, false, false⟩ .nil .nil))

/-- The literals `"x" "x"` over `x x`: the second one is found from its first
byte. -/
theorem find_declaration_node_at_offset_iff_second :
    find_declaration_node_at_offset
        ((TreeBuilder.empty.append (twoLeaves 0 1 2 3)).toCstBuilder.toRoot [120, 32, 120]) 2
      = some ⟨2, 2, 3, .expression 1, true, false, false⟩ := by
  have hplace : (numbered 0 (twoLeaves 0 1 2 3)).Leads
      [⟨0, 0, 3, .parserRule 0, false, false, false⟩]
      [⟨1, 0, 1, .expression 0, true, false, false⟩]
      ⟨2, 2, 3, .expression 1, true, false, false⟩ .nil := .down _ _ (.next _ _ (.here _ _ _))
  refine (find_declaration_node_at_offset_iff
    (read_toCstBuilder [120, 32, 120] rfl) ⟨?_, ?_, ?_, ?_⟩ hplace rfl rfl (.inl ?_)).mpr ⟨?_, ?_⟩
  all_goals decide

/-- The rule `"+" "x"`. -/
def plusX : Expr := .group [.literal 0 [43] true, .literal 1 [120] true]

/-- After `"+"` the leaf `"+"` is found in place of the identifier `x` that starts
there. -/
theorem identifier_after_plus_missed :
    ∃ ctx plus x, runStrictParse (.sample plusX false) [43, 120] 4 false .noop 0
        = some (true, ctx) ∧
      (ctx.builder.toRoot [43, 120]).read = some (numbered 0 (twoLeaves 0 1 1 2)) ∧
      SpanLaw [43, 120] ((numbered 0 (twoLeaves 0 1 1 2)).map CstItem.extent) ∧
      x ∈ (numbered 0 (twoLeaves 0 1 1 2)).preorder ∧
      x.isLeaf = true ∧ x.isHidden = false ∧ x.HasIdentifierAt [43, 120] 1 ∧
      plus.end = 1 ∧ plus ≠ x ∧
      find_declaration_node_at_offset (ctx.builder.toRoot [43, 120]) 1 = some plus := by
  refine ⟨_, ⟨1, 0, 1, .expression 0, true, false, false⟩,
    ⟨2, 1, 2, .expression 1, true, false, false⟩, rfl, rfl, ⟨?_, ?_, ?_, ?_⟩, ?_, rfl, rfl,
    ?_, rfl, ?_, rfl⟩
  all_goals decide

end Pegium
