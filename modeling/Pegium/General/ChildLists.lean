/-
Pegium/General/ChildLists.lean

Trees in a store, linked by child lists.

A node of the store knows its container, its first and last child, and the
sibling after it.  A child is attached at the end of its container's list, and
only when it has no container yet.  `Holds` says that the links of a store hold
a forest; a label of the forest is the position of the node with its value.

Attaching a tree of the store to the root of another one appends it to the
root's children (`attach_holds`).  Where the links hold a forest, following the
sibling links lists the roots (`siblings_of_holds`), and the traversal with a
stack of nodes to visit meets the nodes in preorder (`descend_of_holds`).
-/
import Mathlib.Data.List.Nodup
import Mathlib.Data.List.Perm.Subperm
import Mathlib.Data.List.Range
import Pegium.General.ForestOrder

universe u

/-- A node of a store of linked trees. -/
structure Linked (α : Type u) where
  container : Option ℕ
  firstChild : Option ℕ
  lastChild : Option ℕ
  nextSibling : Option ℕ
  value : α
  deriving DecidableEq

namespace Linked

variable {α : Type u}

/-- A node with no links. -/
def single (value : α) : Linked α := ⟨none, none, none, none, value⟩

/-- Link `child` behind `last`, the last of the children of `parent` so far. -/
def link (nodes : List (Linked α)) (child parent : ℕ) (last : Option ℕ) : List (Linked α) :=
  let nodes := nodes.modify child fun n => { n with container := some parent }
  let nodes :=
    match last with
    | none => nodes.modify parent fun n => { n with firstChild := some child }
    | some last => nodes.modify last fun n => { n with nextSibling := some child }
  nodes.modify parent fun n => { n with lastChild := some child }

/-- Attach `child` as the last child of `parent`; `none` when it has a container
already, or when one of the nodes is not in the store. -/
def attach (nodes : List (Linked α)) (child parent : ℕ) : Option (List (Linked α)) :=
  match nodes[child]?, nodes[parent]? with
  | some c, some p =>
    if c.container.isSome then none else some (link nodes child parent p.lastChild)
  | _, _ => none

/-- The nodes met from `it` on by following the sibling links; `none` when `fuel`
steps do not reach the end. -/
def siblings (nodes : List (Linked α)) : ℕ → Option ℕ → Option (List ℕ)
  | _, none => some []
  | 0, some _ => none
  | fuel + 1, some x =>
    nodes[x]?.bind fun n => (siblings nodes fuel n.nextSibling).map (x :: ·)

/-- The nodes met by the traversal that keeps a stack of nodes to visit: after a
node come its children, then its sibling, then the rest of the stack; `none` when
`fuel` steps do not empty the stack. -/
def descend (nodes : List (Linked α)) : ℕ → List ℕ → Option (List ℕ)
  | _, [] => some []
  | 0, _ :: _ => none
  | fuel + 1, x :: stack =>
    nodes[x]?.bind fun n =>
      (descend nodes fuel (n.firstChild.toList ++ (n.nextSibling.toList ++ stack))).map (x :: ·)

/-! ### The forest held by a store -/

/-- The positions of the nodes of a forest, in preorder. -/
def ids (f : Forest (ℕ × α)) : List ℕ := f.preorder.map Prod.fst

/-- The position of the first root. -/
def firstId : Forest (ℕ × α) → Option ℕ
  | .nil => none
  | .cons x _ _ => some x.1

/-- The position of the last root. -/
def lastId : Forest (ℕ × α) → Option ℕ
  | .nil => none
  | .cons x _ r => (lastId r).or (some x.1)

/-- The links of the store hold the forest: its roots are children of
`container`, and `next` is the sibling after the last of them. -/
def Holds (nodes : List (Linked α)) (container next : Option ℕ) : Forest (ℕ × α) → Prop
  | .nil => True
  | .cons x c r =>
    nodes[x.1]? = some ⟨container, firstId c, lastId c, (firstId r).or next, x.2⟩ ∧
      Holds nodes (some x.1) none c ∧ Holds nodes container next r

@[simp] theorem ids_nil : ids (.nil : Forest (ℕ × α)) = [] := rfl

@[simp] theorem ids_cons (x : ℕ × α) (c r : Forest (ℕ × α)) :
    ids (.cons x c r) = x.1 :: (ids c ++ ids r) := by
  simp [ids, Forest.preorder]

@[simp] theorem ids_append (f g : Forest (ℕ × α)) : ids (f ++ g) = ids f ++ ids g := by
  simp [ids]

@[simp] theorem ids_tree (x : ℕ × α) (c : Forest (ℕ × α)) :
    ids (.tree x c) = x.1 :: ids c := by
  simp [Forest.tree]

theorem length_ids (f : Forest (ℕ × α)) : (ids f).length = f.size := by
  rw [ids, List.length_map, Forest.length_preorder]

theorem firstId_append (f g : Forest (ℕ × α)) :
    firstId (f ++ g) = (firstId f).or (firstId g) := by
  cases f with
  | nil => rfl
  | cons x c r => rfl

theorem lastId_append (f g : Forest (ℕ × α)) :
    lastId (f ++ g) = (lastId g).or (lastId f) := by
  induction f with
  | nil => simp [lastId]
  | cons x c r _ ih => rw [Forest.cons_append, lastId, lastId, ih, Option.or_assoc]

theorem firstId_eq_none {f : Forest (ℕ × α)} : firstId f = none ↔ f = .nil := by
  cases f with
  | nil => simp [firstId]
  | cons x c r => simp [firstId]

theorem lastId_eq_none {f : Forest (ℕ × α)} : lastId f = none ↔ f = .nil := by
  cases f with
  | nil => simp [lastId]
  | cons x c r => simp [lastId]

theorem lastId_mem {f : Forest (ℕ × α)} {l : ℕ} (h : lastId f = some l) : l ∈ ids f := by
  induction f with
  | nil => cases h
  | cons x c r _ ih =>
    rw [lastId, Option.or_eq_some_iff] at h
    rw [ids_cons]
    rcases h with h | ⟨_, h⟩
    · exact List.mem_cons_of_mem _ (List.mem_append_right _ (ih h))
    · rw [← Option.some.inj h]
      exact List.mem_cons_self

variable {nodes nodes' : List (Linked α)} {container next : Option ℕ} {f g c d : Forest (ℕ × α)}
variable {x p : ℕ × α}

theorem holds_append : Holds nodes container next (f ++ g) ↔
    Holds nodes container ((firstId g).or next) f ∧ Holds nodes container next g := by
  induction f with
  | nil => simp [Holds]
  | cons x c r _ ih =>
    rw [Forest.cons_append, Holds, Holds, ih, firstId_append, Option.or_assoc]
    tauto

/-- What is held does not depend on the nodes outside the forest. -/
theorem Holds.congr (h : Holds nodes container next f)
    (hsame : ∀ y ∈ ids f, nodes'[y]? = nodes[y]?) : Holds nodes' container next f := by
  induction f generalizing container next with
  | nil => trivial
  | cons x c r ihc ihr =>
    obtain ⟨hx, hc, hr⟩ := h
    rw [ids_cons] at hsame
    refine ⟨(hsame _ List.mem_cons_self).trans hx, ihc hc ?_, ihr hr ?_⟩
    · exact fun y hy => hsame y (List.mem_cons_of_mem _ (List.mem_append_left _ hy))
    · exact fun y hy => hsame y (List.mem_cons_of_mem _ (List.mem_append_right _ hy))

theorem Holds.lt_length (h : Holds nodes container next f) : ∀ y ∈ ids f, y < nodes.length := by
  induction f generalizing container next with
  | nil => exact List.forall_mem_nil _
  | cons x c r ihc ihr =>
    obtain ⟨hx, hc, hr⟩ := h
    rw [ids_cons]
    refine List.forall_mem_cons.mpr ⟨?_, List.forall_mem_append.mpr ⟨ihc hc, ihr hr⟩⟩
    exact (List.getElem?_eq_some_iff.mp hx).1

/-- A forest with its nodes at different places is no larger than the store. -/
theorem Holds.size_le (h : Holds nodes container next f) (hnodup : (ids f).Nodup) :
    f.size ≤ nodes.length := by
  have hsub : ids f ⊆ List.range nodes.length :=
    fun y hy => List.mem_range.mpr (h.lt_length y hy)
  have hle := (List.subperm_of_subset hnodup hsub).length_le
  rwa [length_ids, List.length_range] at hle

/-- A node of the forest has its value in the store. -/
theorem Holds.value_of_mem (h : Holds nodes container next f) :
    ∀ p ∈ f.preorder, nodes[p.1]?.map value = some p.2 := by
  induction f generalizing container next with
  | nil => exact List.forall_mem_nil _
  | cons x c r ihc ihr =>
    obtain ⟨hx, hc, hr⟩ := h
    rw [Forest.preorder]
    refine List.forall_mem_cons.mpr ⟨?_, List.forall_mem_append.mpr ⟨ihc hc, ihr hr⟩⟩
    rw [hx]
    rfl

theorem getElem?_modify_self {i : ℕ} (g : Linked α → Linked α) {n : Linked α}
    (h : nodes[i]? = some n) : (nodes.modify i g)[i]? = some (g n) := by
  rw [List.getElem?_modify_eq, h]
  rfl

/-- Give the last root another sibling. -/
theorem Holds.set_next (h : Holds nodes container next f) (hnodup : (ids f).Nodup) {l : ℕ}
    (hl : lastId f = some l) {m : Option ℕ} (hsame : ∀ y ∈ ids f, y ≠ l → nodes'[y]? = nodes[y]?)
    (hlast : ∀ n, nodes[l]? = some n → nodes'[l]? = some { n with nextSibling := m }) :
    Holds nodes' container m f := by
  induction f generalizing next with
  | nil => cases hl
  | cons x c r _ ih =>
    obtain ⟨hx, hc, hr⟩ := h
    rw [ids_cons] at hnodup hsame
    obtain ⟨hxc, hrest⟩ := List.nodup_cons.mp hnodup
    obtain ⟨_, hnr, hdisjoint⟩ := List.nodup_append.mp hrest
    rw [lastId, Option.or_eq_some_iff] at hl
    have hin : ∀ y ∈ ids c, y ∈ x.1 :: (ids c ++ ids r) := fun y hy =>
      List.mem_cons_of_mem _ (List.mem_append_left _ hy)
    rcases hl with hl | ⟨hnone, hl⟩
    · -- the last root is among the later ones
      have hmem := lastId_mem hl
      have hlx : x.1 ≠ l := by
        rintro rfl
        exact hxc (List.mem_append_right _ hmem)
      refine ⟨?_, hc.congr ?_, ih hr hnr hl ?_⟩
      · rw [hsame _ List.mem_cons_self hlx, hx]
        cases r with
        | nil => cases hl
        | cons y d r => rfl
      · exact fun y hy => hsame y (hin y hy) (hdisjoint y hy l hmem)
      · exact fun y hy => hsame y (List.mem_cons_of_mem _ (List.mem_append_right _ hy))
    · obtain rfl := lastId_eq_none.mp hnone
      obtain rfl := Option.some.inj hl
      refine ⟨hlast _ hx, hc.congr ?_, trivial⟩
      intro y hy
      apply hsame y (hin y hy)
      rintro rfl
      exact hxc (List.mem_append_left _ hy)

/-- Change the value of a root. -/
theorem Holds.modify_value (h : Holds nodes container next (.cons x c f))
    (hnodup : (ids (.cons x c f)).Nodup) (v : α) :
    Holds (nodes.modify x.1 fun n => { n with value := v }) container next
      (.cons (x.1, v) c f) := by
  obtain ⟨hx, hc, hf⟩ := h
  have hnot := (List.nodup_cons.mp (ids_cons x c f ▸ hnodup)).1
  refine ⟨getElem?_modify_self _ hx, hc.congr ?_, hf.congr ?_⟩
  · intro y hy
    apply List.getElem?_modify_ne
    rintro rfl
    exact hnot (List.mem_append_left _ hy)
  · intro y hy
    apply List.getElem?_modify_ne
    rintro rfl
    exact hnot (List.mem_append_right _ hy)

section Link

variable {child parent : ℕ} {n : Linked α}

theorem length_link (last : Option ℕ) : (link nodes child parent last).length = nodes.length := by
  cases last <;> simp [link]

theorem link_child (last : Option ℕ) (h : nodes[child]? = some n) (hp : parent ≠ child)
    (hl : last ≠ some child) :
    (link nodes child parent last)[child]? = some { n with container := some parent } := by
  have hc := getElem?_modify_self (fun n => { n with container := some parent }) h
  refine (List.getElem?_modify_ne _ _ hp).trans ?_
  cases last with
  | none => exact (List.getElem?_modify_ne _ _ hp).trans hc
  | some l =>
    have hne : l ≠ child := fun heq => hl (congrArg some heq)
    exact (List.getElem?_modify_ne _ _ hne).trans hc

theorem link_parent (last : Option ℕ) (h : nodes[parent]? = some n) (hc : child ≠ parent)
    (hl : last ≠ some parent) :
    (link nodes child parent last)[parent]? = some
      { n with
        firstChild := if last = none then some child else n.firstChild
        lastChild := some child } := by
  have hp := (List.getElem?_modify_ne (fun n => { n with container := some parent })
    nodes hc).trans h
  cases last with
  | none => exact getElem?_modify_self _ (getElem?_modify_self _ hp)
  | some l =>
    have hne : l ≠ parent := fun heq => hl (congrArg some heq)
    exact getElem?_modify_self _ ((List.getElem?_modify_ne _ _ hne).trans hp)

theorem link_last {l : ℕ} (h : nodes[l]? = some n) (hc : child ≠ l) (hp : parent ≠ l) :
    (link nodes child parent (some l))[l]? = some { n with nextSibling := some child } := by
  refine (List.getElem?_modify_ne _ _ hp).trans ?_
  exact getElem?_modify_self _ ((List.getElem?_modify_ne _ _ hc).trans h)

theorem link_of_ne {last : Option ℕ} {y : ℕ} (hc : child ≠ y) (hp : parent ≠ y)
    (hl : last ≠ some y) : (link nodes child parent last)[y]? = nodes[y]? := by
  refine (List.getElem?_modify_ne _ _ hp).trans ?_
  cases last with
  | none =>
    exact (List.getElem?_modify_ne _ _ hp).trans (List.getElem?_modify_ne _ _ hc)
  | some l =>
    have hne : l ≠ y := fun heq => hl (congrArg some heq)
    exact (List.getElem?_modify_ne _ _ hne).trans (List.getElem?_modify_ne _ _ hc)

end Link

/-- **Attaching a tree appends it to the children of its new container**, and
changes nothing outside the two trees. -/
theorem attach_holds (hp : Holds nodes none none (.tree p c))
    (hx : Holds nodes none none (.tree x d))
    (hnodup : (ids (.tree p c ++ .tree x d)).Nodup) :
    ∃ nodes', attach nodes x.1 p.1 = some nodes' ∧
      Holds nodes' none none (.tree p (c ++ .tree x d)) ∧ nodes'.length = nodes.length ∧
      ∀ y, y ∉ ids (.tree p c ++ .tree x d) → nodes'[y]? = nodes[y]? := by
  obtain ⟨hpn, hc, _⟩ := hp
  obtain ⟨hxn, hd, _⟩ := hx
  rw [ids_append, ids_tree, ids_tree] at hnodup ⊢
  obtain ⟨hp', hx', hdisjoint⟩ := List.nodup_append.mp hnodup
  obtain ⟨hpnot, hcnodup⟩ := List.nodup_cons.mp hp'
  obtain ⟨hxnot, _⟩ := List.nodup_cons.mp hx'
  have hpx : p.1 ≠ x.1 := hdisjoint _ List.mem_cons_self _ List.mem_cons_self
  have hxc : ∀ y ∈ ids c, x.1 ≠ y := fun y hy =>
    (hdisjoint y (List.mem_cons_of_mem _ hy) _ List.mem_cons_self).symm
  have hpc : ∀ y ∈ ids c, p.1 ≠ y := by
    rintro y hy rfl
    exact hpnot hy
  have hlast : ∀ y, y ∉ ids c → lastId c ≠ some y := fun y hy hl => hy (lastId_mem hl)
  have hpl : lastId c ≠ some p.1 := hlast _ hpnot
  have hxl : lastId c ≠ some x.1 := hlast _ fun hmem => hxc _ hmem rfl
  refine ⟨link nodes x.1 p.1 (lastId c), ?_, ⟨?_, ?_, trivial⟩, length_link _, ?_⟩
  · rw [attach, hxn, hpn]
    rfl
  · rw [link_parent _ hpn hpx.symm hpl, firstId_append, lastId_append]
    cases c with
    | nil => rfl
    | cons y c' r => simp [firstId, lastId, Forest.tree]
  · rw [holds_append]
    refine ⟨?_, ?_, ?_, trivial⟩
    · -- the children so far: the last one has got a sibling
      cases hl : lastId c with
      | none =>
        rw [lastId_eq_none.mp hl]
        trivial
      | some l =>
        have hmem := lastId_mem hl
        refine hc.set_next hcnodup hl ?_ fun n hn => ?_
        · intro y hy hyl
          refine link_of_ne (hxc y hy) (hpc y hy) fun heq => hyl (Option.some.inj heq).symm
        · exact link_last hn (hxc l hmem) (hpc l hmem)
    · rw [link_child _ hxn hpx hxl]
    · refine hd.congr fun z hz => link_of_ne ?_ ?_ (hlast z fun hzc => ?_)
      · rintro rfl
        exact hxnot hz
      · exact hdisjoint _ List.mem_cons_self z (List.mem_cons_of_mem _ hz)
      · exact hdisjoint z (List.mem_cons_of_mem _ hzc) z (List.mem_cons_of_mem _ hz) rfl
  · intro y hy
    rw [List.mem_append, List.mem_cons, List.mem_cons, not_or, not_or, not_or] at hy
    exact link_of_ne (Ne.symm hy.2.1) (Ne.symm hy.1.1) (hlast y hy.1.2)

/-! ### Separate trees -/

/-- The links of the store hold each tree of the forest on its own: its root has
no container and no sibling. -/
def HoldsRoots (nodes : List (Linked α)) : Forest (ℕ × α) → Prop
  | .nil => True
  | .cons x c r => Holds nodes none none (.tree x c) ∧ HoldsRoots nodes r

theorem holdsRoots_append :
    HoldsRoots nodes (f ++ g) ↔ HoldsRoots nodes f ∧ HoldsRoots nodes g := by
  induction f with
  | nil => simp [HoldsRoots]
  | cons x c r _ ih => rw [Forest.cons_append, HoldsRoots, HoldsRoots, ih, and_assoc]

theorem HoldsRoots.congr (h : HoldsRoots nodes f) (hsame : ∀ y ∈ ids f, nodes'[y]? = nodes[y]?) :
    HoldsRoots nodes' f := by
  induction f with
  | nil => trivial
  | cons x c r _ ih =>
    obtain ⟨hx, hr⟩ := h
    rw [ids_cons] at hsame
    refine ⟨hx.congr ?_, ih hr fun y hy => ?_⟩
    · rw [ids_tree]
      intro y hy
      apply hsame
      rcases List.mem_cons.mp hy with rfl | hy
      · exact List.mem_cons_self
      · exact List.mem_cons_of_mem _ (List.mem_append_left _ hy)
    · exact hsame y (List.mem_cons_of_mem _ (List.mem_append_right _ hy))

theorem HoldsRoots.value_of_mem (h : HoldsRoots nodes f) :
    ∀ p ∈ f.preorder, nodes[p.1]?.map value = some p.2 := by
  induction f with
  | nil => exact List.forall_mem_nil _
  | cons x c r _ ih =>
    obtain ⟨hx, hr⟩ := h
    intro p hp
    have hsplit : (Forest.cons x c r).preorder = (Forest.tree x c).preorder ++ r.preorder := by
      simp [Forest.preorder, Forest.tree]
    rw [hsplit] at hp
    rcases List.mem_append.mp hp with hp | hp
    · exact hx.value_of_mem p hp
    · exact ih hr p hp

/-- A new node is a tree of its own. -/
theorem holdsRoots_single (nodes : List (Linked α)) (v : α) :
    HoldsRoots (nodes ++ [single v]) (.tree (nodes.length, v) .nil) := by
  refine ⟨⟨?_, trivial, trivial⟩, trivial⟩
  rw [List.getElem?_append_right (Nat.le_refl _), Nat.sub_self]
  rfl

theorem HoldsRoots.attach (h : HoldsRoots nodes (.tree p c ++ (.tree x d ++ f)))
    (hnodup : (ids (.tree p c ++ (.tree x d ++ f))).Nodup) :
    ∃ nodes', Linked.attach nodes x.1 p.1 = some nodes' ∧
      HoldsRoots nodes' (.tree p (c ++ .tree x d) ++ f) ∧ nodes'.length = nodes.length ∧
      ∀ y, y ∉ ids (.tree p c ++ .tree x d) → nodes'[y]? = nodes[y]? := by
  obtain ⟨hp, hx, hf⟩ := h
  rw [← Forest.append_assoc, ids_append] at hnodup
  obtain ⟨hboth, _, hdisjoint⟩ := List.nodup_append.mp hnodup
  obtain ⟨nodes', hattach, hholds, hlength, hframe⟩ := attach_holds hp hx hboth
  refine ⟨nodes', hattach, ⟨hholds, ?_⟩, hlength, hframe⟩
  exact HoldsRoots.congr hf fun y hy => hframe y fun hmem => hdisjoint y hmem y hy rfl

theorem HoldsRoots.modify_value (h : HoldsRoots nodes (.tree p c ++ f))
    (hnodup : (ids (.tree p c ++ f)).Nodup) (v : α) :
    HoldsRoots (nodes.modify p.1 fun n => { n with value := v }) (.tree (p.1, v) c ++ f) := by
  obtain ⟨hp, hf⟩ := h
  rw [ids_append] at hnodup
  obtain ⟨htree, _, hdisjoint⟩ := List.nodup_append.mp hnodup
  refine ⟨hp.modify_value htree v, HoldsRoots.congr hf fun y hy => ?_⟩
  apply List.getElem?_modify_ne
  rintro rfl
  exact hdisjoint p.1 (by rw [ids_tree]; exact List.mem_cons_self) p.1 hy rfl

/-! ### Reading the links -/

/-- **The sibling links list the roots.** -/
theorem siblings_of_holds {fuel : ℕ} (h : Holds nodes container none f)
    (hfuel : f.roots.length ≤ fuel) :
    siblings nodes fuel (firstId f) = some (f.roots.map Prod.fst) := by
  induction f generalizing fuel with
  | nil => cases fuel <;> rfl
  | cons x c r _ ih =>
    obtain ⟨hx, _, hr⟩ := h
    obtain ⟨fuel, rfl⟩ : ∃ n, fuel = n + 1 := by
      rw [Forest.roots, List.length_cons] at hfuel
      exact ⟨fuel - 1, by omega⟩
    have hrest := ih hr (Nat.le_of_succ_le_succ hfuel)
    rw [firstId, siblings, hx, Option.bind_some, Option.or_none, hrest]
    rfl

/-- **The traversal visits a forest in preorder** and then the rest of the
stack. -/
theorem descend_of_holds {fuel : ℕ} (h : Holds nodes container none f) (stack : List ℕ) :
    descend nodes (f.size + fuel) ((firstId f).toList ++ stack)
      = (descend nodes fuel stack).map (ids f ++ ·) := by
  induction f generalizing container fuel stack with
  | nil =>
    rw [Forest.size_nil, Nat.zero_add]
    exact Option.map_id'.symm
  | cons x c r ihc ihr =>
    obtain ⟨hx, hc, hr⟩ := h
    have hsize : (Forest.cons x c r).size + fuel = (c.size + (r.size + fuel)) + 1 := by
      rw [Forest.size_cons]
      omega
    rw [hsize, firstId, Option.toList_some, List.singleton_append, descend, hx, Option.bind_some,
      Option.or_none, ihc hc, ihr hr, Option.map_map, Option.map_map, ids_cons]
    congr 1
    funext l
    simp

end Linked
