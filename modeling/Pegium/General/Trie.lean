/-
Pegium/General/Trie.lean

Tries: trees whose edges carry a segment and whose nodes may carry an element.

A path of segments leads to at most one node, so a trie is a finite map from paths
to elements, `find`.  Inserting at a path changes that path only; erasing a path
cuts its node off, with all that is below it (`find_erase`).  The children of a node
are a list in which every segment stands once (`Unique`), and then the values of a
trie are exactly what `find` finds (`mem_values`).
-/
import Mathlib.Data.List.Basic
import Mathlib.Data.List.Infix

universe u v

mutual

/-- A node: the element that stands at it and its children. -/
inductive Trie (σ : Type u) (τ : Type v) where
  | node (element : Option τ) (children : TrieChildren σ τ)

/-- The children of a node with the segments of their edges. -/
inductive TrieChildren (σ : Type u) (τ : Type v) where
  | nil
  | cons (segment : σ) (child : Trie σ τ) (rest : TrieChildren σ τ)

end

variable {σ : Type u} {τ : Type v} [DecidableEq σ]

/-! ### Children -/

namespace TrieChildren

/-- The child under a segment. -/
def get (s : σ) : TrieChildren σ τ → Option (Trie σ τ)
  | nil => none
  | cons s' child rest => if s' = s then some child else get s rest

/-- The child under a segment, put there or replaced. -/
def set (s : σ) (child : Trie σ τ) : TrieChildren σ τ → TrieChildren σ τ
  | nil => cons s child nil
  | cons s' child' rest =>
    if s' = s then cons s' child rest else cons s' child' (set s child rest)

/-- The children without those under a segment. -/
def remove (s : σ) : TrieChildren σ τ → TrieChildren σ τ
  | nil => nil
  | cons s' child rest => if s' = s then remove s rest else cons s' child (remove s rest)

theorem get_set (s s' : σ) (child : Trie σ τ) :
    (cs : TrieChildren σ τ) → get s' (set s child cs) = if s' = s then some child else get s' cs
  | nil => by
    show (if s = s' then some child else none) = _
    simp only [eq_comm, get]
  | cons t child' rest => by
    unfold set
    split_ifs with hts hs hs
    · subst hts hs
      exact if_pos rfl
    · rw [get, get, if_neg (fun h => hs (h.symm.trans hts)),
        if_neg (fun h => hs (h.symm.trans hts))]
    · rw [get, if_neg (fun h => hts (h.trans hs)), get_set s s' child rest, if_pos hs]
    · rw [get, get, get_set s s' child rest, if_neg hs]

theorem get_remove (s s' : σ) :
    (cs : TrieChildren σ τ) → get s' (remove s cs) = if s' = s then none else get s' cs
  | nil => by
    rw [remove, get, ite_self]
  | cons t child rest => by
    unfold remove
    split_ifs with hts hs hs
    · rw [get_remove s s' rest, if_pos hs]
    · rw [get_remove s s' rest, if_neg hs, get, if_neg (fun h => hs (h.symm.trans hts))]
    · rw [get, if_neg (fun h => hts (h.trans hs)), get_remove s s' rest, if_pos hs]
    · rw [get, get, get_remove s s' rest, if_neg hs]

end TrieChildren

/-! ### Tries as maps -/

namespace Trie

/-- The trie without elements. -/
def empty : Trie σ τ := node none .nil

/-- The element of the root. -/
def element : Trie σ τ → Option τ
  | node e _ => e

/-- The children of the root. -/
def children : Trie σ τ → TrieChildren σ τ
  | node _ cs => cs

/-- The node a path leads to. -/
def getNode : List σ → Trie σ τ → Option (Trie σ τ)
  | [], t => some t
  | s :: path, t => (t.children.get s).bind (getNode path)

/-- The element at a path. -/
def find (path : List σ) (t : Trie σ τ) : Option τ := (getNode path t).bind element

/-- The nodes on the way are created where they are missing. -/
def insert (x : τ) : List σ → Trie σ τ → Trie σ τ
  | [], t => node (some x) t.children
  | s :: path, t =>
    node t.element (t.children.set s (insert x path ((t.children.get s).getD empty)))

/-- The node of the path is cut off; at the root, everything is. -/
def erase : List σ → Trie σ τ → Trie σ τ
  | [], _ => empty
  | [s], t => node t.element (t.children.remove s)
  | s :: s' :: path, t =>
    match t.children.get s with
    | none => t
    | some child => node t.element (t.children.set s (erase (s' :: path) child))

variable {t : Trie σ τ} {x : τ} {s : σ} {path path' : List σ}

@[simp] theorem getNode_nil : getNode [] t = some t := rfl

@[simp] theorem find_nil : find [] t = t.element := rfl

theorem find_cons : find (s :: path) t = (t.children.get s).bind (find path) := by
  rw [find, getNode, Option.bind_assoc]
  rfl

@[simp] theorem find_empty : find path (empty : Trie σ τ) = none := by
  cases path with
  | nil => rfl
  | cons s path => rfl

/-- **Inserting changes the element of its path only.** -/
theorem find_insert (x : τ) (path path' : List σ) (t : Trie σ τ) :
    find path' (insert x path t) = if path' = path then some x else find path' t := by
  induction path generalizing path' t with
  | nil =>
    cases path' with
    | nil => rfl
    | cons s' path' =>
      rw [if_neg (List.cons_ne_nil _ _)]
      rfl
  | cons s path ih =>
    cases path' with
    | nil =>
      rw [if_neg (List.cons_ne_nil _ _).symm]
      rfl
    | cons s' path' =>
      rw [insert, find_cons, find_cons]
      show ((t.children.set s _).get s').bind _ = _
      rw [TrieChildren.get_set]
      by_cases hs : s' = s
      · subst hs
        rw [if_pos rfl, Option.bind_some, ih]
        by_cases hp : path' = path
        · rw [if_pos hp, if_pos (by rw [hp])]
        · rw [if_neg hp, if_neg fun h => hp (List.cons.inj h).2]
          cases t.children.get s' with
          | none => exact find_empty
          | some child => rfl
      · rw [if_neg hs, if_neg fun h => hs (List.cons.inj h).1]

theorem erase_of_none {s' : σ} (h : t.children.get s = none) : erase (s :: s' :: path) t = t := by
  rw [erase, h]

theorem erase_of_some {s' : σ} {child : Trie σ τ} (h : t.children.get s = some child) :
    erase (s :: s' :: path) t
      = node t.element (t.children.set s (erase (s' :: path) child)) := by
  rw [erase, h]

/-- **Erasing a path erases it and every path below it.** -/
theorem find_erase (path path' : List σ) (t : Trie σ τ) :
    find path' (erase path t) = if path <+: path' then none else find path' t := by
  induction path generalizing path' t with
  | nil => rw [erase, find_empty, if_pos List.nil_prefix]
  | cons s path ih =>
    cases path' with
    | nil =>
      rw [if_neg (fun h => List.cons_ne_nil _ _ (List.prefix_nil.mp h))]
      cases path with
      | nil => rfl
      | cons s' path =>
        unfold erase
        cases t.children.get s with
        | none => rfl
        | some child => rfl
    | cons s' path' =>
      cases path with
      | nil =>
        rw [erase, find_cons, find_cons]
        show ((t.children.remove s).get s').bind _ = _
        simp only [TrieChildren.get_remove, List.cons_prefix_cons]
        by_cases hs : s' = s
        · rw [if_pos hs, if_pos ⟨hs.symm, List.nil_prefix⟩]
          rfl
        · rw [if_neg hs, if_neg fun h => hs h.1.symm]
      | cons s'' path =>
        rw [@find_cons _ _ _ t]
        simp only [List.cons_prefix_cons]
        cases hchild : t.children.get s with
        | none =>
          rw [erase_of_none hchild, find_cons]
          by_cases hs : s = s'
          · rw [← hs, hchild]
            exact (ite_self none).symm
          · rw [if_neg fun h => hs h.1]
        | some child =>
          rw [erase_of_some hchild, find_cons]
          show ((t.children.set s _).get s').bind _ = _
          rw [TrieChildren.get_set]
          by_cases hs : s' = s
          · subst hs
            rw [if_pos rfl, Option.bind_some, ih, hchild, Option.bind_some]
            by_cases hp : s'' :: path <+: path'
            · rw [if_pos hp, if_pos ⟨rfl, hp⟩]
            · rw [if_neg hp, if_neg fun h => hp h.2]
          · rw [if_neg hs, if_neg fun h => hs h.1.symm]

end Trie

/-! ### The values of a trie -/

mutual

/-- All elements of a trie, those of a node before those below it. -/
def Trie.values : Trie σ τ → List τ
  | .node e cs => e.toList ++ cs.values

/-- All elements below the children. -/
def TrieChildren.values : TrieChildren σ τ → List τ
  | .nil => []
  | .cons _ child rest => child.values ++ rest.values

end

mutual

/-- Every segment stands once among the children of a node. -/
def Trie.Unique : Trie σ τ → Prop
  | .node _ cs => cs.Unique

/-- Every segment stands once, at every node below. -/
def TrieChildren.Unique : TrieChildren σ τ → Prop
  | .nil => True
  | .cons s child rest => rest.get s = none ∧ child.Unique ∧ rest.Unique

end

namespace TrieChildren

theorem Unique.set {s : σ} {child : Trie σ τ} (hchild : child.Unique) :
    {cs : TrieChildren σ τ} → cs.Unique → (cs.set s child).Unique
  | nil, _ => ⟨rfl, hchild, trivial⟩
  | cons t child' rest, h => by
    unfold TrieChildren.set
    split_ifs with hts
    · exact ⟨h.1, hchild, h.2.2⟩
    · refine ⟨?_, h.2.1, Unique.set hchild h.2.2⟩
      rw [get_set, if_neg hts]
      exact h.1

theorem Unique.remove {s : σ} : {cs : TrieChildren σ τ} → cs.Unique → (cs.remove s).Unique
  | nil, _ => trivial
  | cons t child rest, h => by
    unfold TrieChildren.remove
    split_ifs with hts
    · exact h.2.2.remove
    · refine ⟨?_, h.2.1, h.2.2.remove⟩
      rw [get_remove, if_neg hts]
      exact h.1

theorem Unique.get {s : σ} {child : Trie σ τ} :
    {cs : TrieChildren σ τ} → cs.Unique → cs.get s = some child → child.Unique
  | cons t child' rest, h, hget => by
    unfold TrieChildren.get at hget
    split_ifs at hget
    · cases hget
      exact h.2.1
    · exact h.2.2.get hget

end TrieChildren

namespace Trie

variable {x y : τ} {path : List σ}

theorem unique_empty : (empty : Trie σ τ).Unique := trivial

theorem Unique.insert (x : τ) (path : List σ) {t : Trie σ τ} (h : t.Unique) :
    (t.insert x path).Unique := by
  induction path generalizing t with
  | nil =>
    cases t
    exact h
  | cons s path ih =>
    cases t with
    | node e cs =>
      refine TrieChildren.Unique.set (ih ?_) h
      show ((cs.get s).getD empty).Unique
      cases hget : cs.get s with
      | none => exact unique_empty
      | some child => exact TrieChildren.Unique.get h hget

theorem Unique.erase (path : List σ) {t : Trie σ τ} (h : t.Unique) : (t.erase path).Unique := by
  induction path generalizing t with
  | nil => exact unique_empty
  | cons s path ih =>
    cases t with
    | node e cs =>
      cases path with
      | nil => exact TrieChildren.Unique.remove h
      | cons s' path =>
        unfold Trie.erase
        show Trie.Unique (match cs.get s with
          | none => node e cs
          | some child => node e (cs.set s (child.erase (s' :: path))))
        cases hget : cs.get s with
        | none => exact h
        | some child => exact TrieChildren.Unique.set (ih (TrieChildren.Unique.get h hget)) h

theorem Unique.getNode {t t' : Trie σ τ} (h : t.Unique) (hnode : t.getNode path = some t') :
    t'.Unique := by
  induction path generalizing t with
  | nil =>
    cases hnode
    exact h
  | cons s path ih =>
    obtain ⟨child, hget, hchild⟩ := Option.bind_eq_some_iff.mp hnode
    cases t
    exact ih (TrieChildren.Unique.get h hget) hchild

end Trie

mutual

/-- **The values of a trie are what its paths lead to.** -/
theorem Trie.mem_values {x : τ} : {t : Trie σ τ} → t.Unique →
    (x ∈ t.values ↔ ∃ path, t.find path = some x)
  | .node e cs, h => by
    rw [Trie.values, List.mem_append, Option.mem_toList, TrieChildren.mem_values h]
    constructor
    · rintro (hx | ⟨s, path, hx⟩)
      · exact ⟨[], hx⟩
      · exact ⟨s :: path, Trie.find_cons.trans hx⟩
    · rintro ⟨path, hx⟩
      cases path with
      | nil => exact .inl hx
      | cons s path => exact .inr ⟨s, path, Trie.find_cons.symm.trans hx⟩

theorem TrieChildren.mem_values {x : τ} : {cs : TrieChildren σ τ} → cs.Unique →
    (x ∈ cs.values ↔ ∃ s path, (cs.get s).bind (Trie.find path) = some x)
  | .nil, _ => by
    constructor
    · intro hx
      cases hx
    · rintro ⟨s, path, hx⟩
      cases hx
  | .cons t child rest, h => by
    rw [TrieChildren.values, List.mem_append, Trie.mem_values h.2.1,
      TrieChildren.mem_values h.2.2]
    constructor
    · rintro (⟨path, hx⟩ | ⟨s, path, hx⟩)
      · refine ⟨t, path, ?_⟩
        rw [TrieChildren.get, if_pos rfl]
        exact hx
      · have hne : t ≠ s := by
          rintro rfl
          rw [h.1] at hx
          cases hx
        refine ⟨s, path, ?_⟩
        rw [TrieChildren.get, if_neg hne]
        exact hx
    · rintro ⟨s, path, hx⟩
      rw [TrieChildren.get] at hx
      split_ifs at hx
      · exact .inl ⟨path, hx⟩
      · exact .inr ⟨s, path, hx⟩

end

namespace Trie

variable {x : τ} {path : List σ}

/-- The values at a path and below it. -/
def findAll (path : List σ) (t : Trie σ τ) : List τ :=
  match t.getNode path with
  | some t' => t'.values
  | none => []

theorem getNode_append (path path' : List σ) (t : Trie σ τ) :
    getNode (path ++ path') t = (getNode path t).bind (getNode path') := by
  induction path generalizing t with
  | nil => rfl
  | cons s path ih =>
    rw [List.cons_append, getNode, getNode, Option.bind_assoc]
    congr 1
    funext child
    exact ih child

theorem mem_findAll {t : Trie σ τ} (h : t.Unique) :
    x ∈ t.findAll path ↔ ∃ path', t.find (path ++ path') = some x := by
  unfold findAll
  cases hnode : t.getNode path with
  | none =>
    constructor
    · intro hx
      cases hx
    · rintro ⟨path', hx⟩
      rw [find, getNode_append, hnode] at hx
      cases hx
  | some t' =>
    rw [mem_values (h.getNode hnode)]
    refine exists_congr fun path' => ?_
    rw [find, find, getNode_append, hnode, Option.bind_some]

end Trie
