/-
Pegium/Parser/RuleObjects.lean

The objects a rule node makes current.

While the child loop of a rule node runs, one object after the other is current.
Some are made for the rule node itself: by a create or nest child, or because
there was none.  The others come from below, from a rule call or an infix child.
`HeldObject` keeps for each of them what is executed on it while it is current.

`treeLoop_level` splits the value the loop builds into these objects and what is
built for the single children, and `outline` tells from the kinds of the children
which objects come to be held and whether assignments are executed on one that
comes from below.
-/
import Pegium.Parser.ValueShape

namespace Pegium

variable {G : Type}

/-! ### Labels -/

/-- The data of the objects of a value: those of its tree and the replaced ones. -/
def labels (t : Option (AstTree G)) (dropped : Forest (AstData G)) : List (AstData G) :=
  (optionForest t).preorder ++ dropped.preorder

/-- What is below an object that may be missing. -/
def contentOf : Option (AstTree G) → Forest (AstData G)
  | none => .nil
  | some t => t.content

namespace PendingTree

/-- The assignment with the id of its CST node. -/
def entry (e : PendingTree G) : G × ℕ := (e.assignment, e.nodeId)

/-- The data of the objects built for the value. -/
def labels (e : PendingTree G) : List (AstData G) :=
  e.value.elim [] fun v => Pegium.labels v.1 v.2

end PendingTree

theorem mem_labels_some {t : AstTree G} {d : Forest (AstData G)} {v : AstData G} :
    v ∈ labels (some t) d ↔ v = t.data ∨ v ∈ t.content.preorder ∨ v ∈ d.preorder := by
  simp [labels, optionForest, AstTree.forest, Forest.tree, Forest.preorder]

theorem mem_labels_none {d : Forest (AstData G)} {v : AstData G} :
    v ∈ labels none d ↔ v ∈ d.preorder := by
  simp [labels, optionForest, Forest.preorder]

/-- The object of an infix node, over its operands. -/
theorem mem_labels_operator {cstNode : CstSubtree G} {left right : AstTree G}
    {d d' : Forest (AstData G)} {v : AstData G} :
    v ∈ labels (some ((AstTree.new cstNode).attach (left.forest ++ right.forest))) (d' ++ d) ↔
      v = ⟨cstNode, []⟩ ∨ v ∈ labels (some left) d ∨ v ∈ labels (some right) d' := by
  rw [mem_labels_some]
  refine or_congr_right ?_
  simp only [AstTree.attach, AstTree.new, Forest.nil_append, Forest.preorder_append,
    List.mem_append, labels, optionForest, or_assoc, or_left_comm, or_comm]

theorem forall_labels_infix {P : AstData G → Prop} {cstNode : CstSubtree G}
    {left right : AstTree G} {d d' : Forest (AstData G)} :
    (∀ v ∈ labels (some ((AstTree.new cstNode).attach (left.forest ++ right.forest))) (d' ++ d),
        P v) ↔
      P ⟨cstNode, []⟩ ∧ (∀ v ∈ labels (some left) d, P v) ∧
        ∀ v ∈ labels (some right) d', P v := by
  simp only [mem_labels_operator, or_imp, forall_and, forall_eq]

/-! ### Objects that have been current -/

/-- An object that has been current: its data when it became current, and the
assignments executed on it while it was.  `own` tells that it was made for the
rule node itself. -/
structure HeldObject (G : Type) where
  own : Bool
  data : AstData G
  given : List (G × ℕ)

/-- The data of the object afterwards. -/
def HeldObject.label (h : HeldObject G) : AstData G :=
  { h.data with assigned := h.data.assigned ++ h.given }

/-- Execute assignments on the object that is current, the first one. -/
def give (entries : List (G × ℕ)) : List (HeldObject G) → List (HeldObject G)
  | [] => []
  | h :: held => { h with given := h.given ++ entries } :: held

theorem give_nil (held : List (HeldObject G)) : give [] held = held := by
  cases held with
  | nil => rfl
  | cons h held => simp [give]

/-- The state holds the objects of `held`, the current one first, and otherwise
those of `inner`. -/
structure Level (node : CstSubtree G) (s : TreeState G) (held : List (HeldObject G))
    (inner : List (AstData G)) : Prop where
  current : s.current.map AstTree.data = held.head?.map HeldObject.label
  others : ∀ v, v ∈ (contentOf s.current).preorder ∨ v ∈ s.dropped.preorder ↔
    v ∈ held.tail.map HeldObject.label ∨ v ∈ inner
  own : ∀ h ∈ held, h.own = true → h.data = ⟨node, []⟩

/-- The objects built below the rule node. -/
def Below (s : TreeState G) (held : List (HeldObject G)) (inner : List (AstData G))
    (v : AstData G) : Prop :=
  v ∈ inner ∨ (∃ h ∈ held, h.own = false ∧ h.data = v) ∨ ∃ e ∈ s.pending, v ∈ e.labels

section Steps

variable {node : CstSubtree G} {s s' : TreeState G} {held : List (HeldObject G)}
variable {inner : List (AstData G)} {v : AstData G}

theorem Level.initial (node : CstSubtree G) : Level node .initial [] [] where
  current := rfl
  others _ := Iff.rfl
  own := List.forall_mem_nil _

theorem Level.mem_labels (h : Level node s held inner) :
    v ∈ labels s.current s.dropped ↔ v ∈ held.map HeldObject.label ∨ v ∈ inner := by
  have hothers := h.others v
  have hcurrent := h.current
  cases ht : s.current with
  | none =>
    rw [ht] at hcurrent hothers
    cases held with
    | nil => simpa [labels, optionForest, contentOf, Forest.preorder] using hothers
    | cons x xs => cases hcurrent
  | some t =>
    rw [ht] at hcurrent hothers
    cases held with
    | nil => cases hcurrent
    | cons x xs =>
      have hdata : t.data = x.label := Option.some.inj hcurrent
      rw [mem_labels_some, List.map_cons, List.mem_cons, hdata, or_assoc]
      exact or_congr_right hothers

theorem Level.wait (h : Level node s held inner) (e : PendingTree G) :
    Level node (s.wait e) held inner :=
  ⟨h.current, h.others, h.own⟩

theorem below_wait {e : PendingTree G} :
    Below (s.wait e) held inner v ↔ Below s held inner v ∨ v ∈ e.labels := by
  simp only [Below, TreeState.wait, List.mem_append, List.mem_singleton, or_and_right, exists_or,
    exists_eq_left, or_assoc]

/-- Another object becomes current. -/
theorem Level.replace (h : Level node s held inner) (own : Bool) (t : AstTree G)
    (d : Forest (AstData G)) (hown : own = true → t.data = ⟨node, []⟩) :
    Level node (s.replace t d) (⟨own, t.data, []⟩ :: held)
      (inner ++ (t.content.preorder ++ d.preorder)) := by
  refine ⟨?_, fun v => ?_, List.forall_mem_cons.mpr ⟨hown, h.own⟩⟩
  · simp [TreeState.replace, HeldObject.label]
  · have hlabels := h.mem_labels (v := v)
    simp only [labels, List.mem_append] at hlabels
    simp only [TreeState.replace, contentOf, Forest.preorder_append, List.mem_append,
      List.tail_cons, hlabels]
    tauto

theorem below_replace {own : Bool} {t : AstTree G} {d : Forest (AstData G)} :
    Below (s.replace t d) (⟨own, t.data, []⟩ :: held)
      (inner ++ (t.content.preorder ++ d.preorder)) v
      ↔ Below s held inner v ∨ (own = false ∧ v = t.data) ∨ v ∈ t.content.preorder ∨
        v ∈ d.preorder := by
  simp only [Below, TreeState.replace, List.mem_append, List.mem_cons, or_and_right, exists_or,
    exists_eq_left, @eq_comm _ t.data, or_assoc, or_left_comm, or_comm]

/-- The current object is put under a new one. -/
theorem Level.push (h : Level node s held inner) {t t' : AstTree G} (ht : s.current = some t)
    (own : Bool) (more : Forest (AstData G)) (d : Forest (AstData G))
    (hcontent : t'.content = t.forest ++ more)
    (hown : own = true → t'.data = ⟨node, []⟩) :
    Level node { s with current := some t', dropped := d ++ s.dropped } (⟨own, t'.data, []⟩ :: held)
      (inner ++ (more.preorder ++ d.preorder)) := by
  refine ⟨?_, fun v => ?_, List.forall_mem_cons.mpr ⟨hown, h.own⟩⟩
  · simp [HeldObject.label]
  · have hlabels := h.mem_labels (v := v)
    simp only [ht, labels, optionForest, List.mem_append] at hlabels
    simp only [contentOf, hcontent, Forest.preorder_append, List.mem_append, List.tail_cons]
    tauto

theorem below_push {own : Bool} {t' : AstTree G} {more d : Forest (AstData G)} :
    Below { s with current := some t', dropped := d ++ s.dropped } (⟨own, t'.data, []⟩ :: held)
        (inner ++ (more.preorder ++ d.preorder)) v
      ↔ Below s held inner v ∨ (own = false ∧ v = t'.data) ∨ v ∈ more.preorder ∨
        v ∈ d.preorder := by
  simp only [Below, List.mem_append, List.mem_cons, or_and_right, exists_or, exists_eq_left,
    @eq_comm _ t'.data, or_assoc, or_left_comm, or_comm]

theorem give_cons (e : G × ℕ) (es : List (G × ℕ)) (held : List (HeldObject G)) :
    give (e :: es) held = give es (give [e] held) := by
  cases held with
  | nil => rfl
  | cons h held => simp [give]

/-- Execute one assignment. -/
theorem Level.assign {t : AstTree G} {d : Forest (AstData G)} {p : List (PendingTree G)}
    (h : Level node ⟨some t, p, d⟩ held inner) (entry : G × ℕ)
    (value : Option (AstTree G) × Forest (AstData G)) :
    Level node ⟨some ((t.attach (optionForest value.1)).record entry), p, value.2 ++ d⟩
      (give [entry] held) (inner ++ Pegium.labels value.1 value.2) := by
  obtain ⟨hcurrent, hothers, hown⟩ := h
  cases held with
  | nil => cases hcurrent
  | cons x xs =>
    have hdata : t.data = x.label := Option.some.inj hcurrent
    obtain ⟨hx, hxs⟩ := List.forall_mem_cons.mp hown
    refine ⟨?_, fun v => ?_, List.forall_mem_cons.mpr ⟨hx, hxs⟩⟩
    · simp [give, AstTree.record, AstTree.attach, hdata, HeldObject.label]
    · have hothers := hothers v
      simp only [contentOf, List.tail_cons] at hothers
      simp only [contentOf, AstTree.record, AstTree.attach, Forest.preorder_append, give,
        List.tail_cons, List.mem_append, Pegium.labels]
      tauto

theorem Level.executeAll {es : List (PendingTree G)} {t : AstTree G} {d : Forest (AstData G)}
    {p : List (PendingTree G)} {done : AstTree G × Forest (AstData G)}
    (h : Level node ⟨some t, p, d⟩ held inner) (hes : TreeState.executeAll es t d = some done) :
    Level node ⟨some done.1, p, done.2⟩ (give (es.map PendingTree.entry) held)
      (inner ++ es.flatMap PendingTree.labels) := by
  induction es generalizing t d held inner with
  | nil =>
    obtain rfl := Option.some.inj hes
    rw [List.map_nil, give_nil, List.flatMap_nil, List.append_nil]
    exact h
  | cons e es ih =>
    rw [TreeState.executeAll, Option.bind_eq_some_iff] at hes
    obtain ⟨value, hvalue, hes⟩ := hes
    have hlabels : e.labels = Pegium.labels value.1 value.2 := by
      rw [PendingTree.labels, hvalue]
      rfl
    rw [List.map_cons, give_cons, List.flatMap_cons, ← List.append_assoc, hlabels]
    exact ih (h.assign e.entry value) hes

/-- Execute what waits. -/
theorem Level.flush (h : Level node s held inner) (hs' : s.flush = some s') :
    Level node s' (give (s.pending.map PendingTree.entry) held)
        (inner ++ s.pending.flatMap PendingTree.labels) ∧
      s'.pending = [] ∧ (s.pending ≠ [] → held ≠ []) := by
  rw [TreeState.flush] at hs'
  split at hs'
  next hpending =>
    obtain rfl := Option.some.inj hs'
    rw [hpending, List.map_nil, give_nil, List.flatMap_nil, List.append_nil]
    exact ⟨h, rfl, fun hne => absurd rfl hne⟩
  next e es hpending =>
    rw [Option.bind_eq_some_iff] at hs'
    obtain ⟨t, ht, hs'⟩ := hs'
    rw [Option.map_eq_some_iff] at hs'
    obtain ⟨done, hdone, rfl⟩ := hs'
    have hs : s = ⟨some t, s.pending, s.dropped⟩ := by rw [← ht]
    rw [hs] at h
    obtain ⟨hcurrent, hothers, hown⟩ := h.executeAll hdone
    rw [hpending]
    refine ⟨⟨hcurrent, hothers, hown⟩, rfl, fun _ hheld => ?_⟩
    have hnone := h.current
    rw [hheld] at hnone
    cases hnone

theorem below_flush (hs' : s'.pending = []) (entries : List (G × ℕ)) :
    Below s' (give entries held) (inner ++ s.pending.flatMap PendingTree.labels) v
      ↔ Below s held inner v := by
  have hdata : (∃ h ∈ give entries held, h.own = false ∧ h.data = v) ↔
      ∃ h ∈ held, h.own = false ∧ h.data = v := by
    cases held with
    | nil => rfl
    | cons x xs => simp [give]
  simp only [Below, hdata, hs', List.mem_append, List.mem_flatMap, List.not_mem_nil, false_and,
    exists_false, false_or, or_left_comm, or_comm]

end Steps

/-! ### What the kinds of the children tell -/

/-- What is known from the kinds of some children: whether the current object is
made for the rule node itself, how many have been, whether assignments wait, and
whether some have been executed on an object from below. -/
structure Outline where
  current : Option Bool
  own : ℕ
  waits : Bool
  astray : Bool
  deriving DecidableEq

namespace Outline

/-- Before the first child. -/
def initial : Outline := ⟨none, 0, false, false⟩

def wait (o : Outline) : Outline := { o with waits := true }

/-- Another object becomes current. -/
def hold (own : Bool) (o : Outline) : Outline :=
  { o with current := some own, own := o.own + own.toNat }

/-- An object is made for the rule node when there is none. -/
def ensureCurrent (o : Outline) : Outline := if o.current = none then o.hold true else o

/-- Execute what waits. -/
def flush (o : Outline) : Outline :=
  { o with waits := false, astray := o.astray || (o.waits && decide (o.current = some false)) }

/-- At the end of the rule. -/
def finish (o : Outline) : Outline := o.ensureCurrent.flush

end Outline

/-- The outline describes the objects held and what waits. -/
structure Fits (o : Outline) (held : List (HeldObject G)) (pending : List (PendingTree G)) :
    Prop where
  current : o.current = held.head?.map HeldObject.own
  own : o.own = held.countP HeldObject.own
  waits : o.waits = !pending.isEmpty
  astray : o.astray = held.any fun h => !h.own && !h.given.isEmpty

namespace Fits

variable {o : Outline} {held : List (HeldObject G)} {pending : List (PendingTree G)}

theorem initial : Fits .initial ([] : List (HeldObject G)) [] := ⟨rfl, rfl, rfl, rfl⟩

theorem wait (h : Fits o held pending) (e : PendingTree G) :
    Fits o.wait held (pending ++ [e]) :=
  ⟨h.current, h.own, by simp [Outline.wait], h.astray⟩

theorem hold (h : Fits o held pending) (own : Bool) (data : AstData G) :
    Fits (o.hold own) (⟨own, data, []⟩ :: held) pending := by
  refine ⟨rfl, ?_, h.waits, ?_⟩
  · rw [Outline.hold, h.own, List.countP_cons]
    cases own <;> rfl
  · simp [Outline.hold, h.astray]

theorem flush (h : Fits o held pending) (hheld : pending ≠ [] → held ≠ []) :
    Fits o.flush (give (pending.map PendingTree.entry) held) [] := by
  cases held with
  | nil =>
    obtain rfl : pending = [] := by
      by_contra hne
      exact hheld hne rfl
    have hcurrent := h.current
    have hastray := h.astray
    exact ⟨hcurrent, h.own, rfl, by simp [Outline.flush, hcurrent, hastray, give]⟩
  | cons x xs =>
    obtain ⟨hcurrent, hown, hwaits, hastray⟩ := h
    refine ⟨hcurrent, hown, rfl, ?_⟩
    simp only [Outline.flush, hcurrent, hwaits, hastray, give, List.any_cons, List.head?_cons,
      Option.map_some]
    cases x.own <;> cases x.given <;> cases pending <;> simp

end Fits

/-- The state holds some objects as the outline says, among them they have got or
will get the assignments of `entries` in this order, and `built` lists what has
been built below the rule node. -/
def Tracks (node : CstSubtree G) (o : Outline) (entries : List (G × ℕ))
    (built : List (AstData G)) (s : TreeState G) : Prop :=
  ∃ held inner, Level node s held inner ∧ Fits o held s.pending ∧
    held.reverse.flatMap HeldObject.given ++ s.pending.map PendingTree.entry = entries ∧
    ∀ v, Below s held inner v ↔ v ∈ built

namespace Tracks

variable {node : CstSubtree G} {o : Outline} {entries : List (G × ℕ)}
variable {built : List (AstData G)} {s s' : TreeState G}

theorem initial (node : CstSubtree G) : Tracks node .initial [] [] .initial :=
  ⟨[], [], .initial node, .initial, rfl, fun v => by simp [Below, TreeState.initial]⟩

theorem wait (h : Tracks node o entries built s) (e : PendingTree G) :
    Tracks node o.wait (entries ++ [e.entry]) (built ++ e.labels) (s.wait e) := by
  obtain ⟨held, inner, hlevel, hfits, rfl, hbelow⟩ := h
  refine ⟨held, inner, hlevel.wait e, hfits.wait e, ?_, fun v => ?_⟩
  · simp [TreeState.wait]
  · rw [below_wait, hbelow, List.mem_append]

theorem create (h : Tracks node o entries built s) :
    Tracks node (o.hold true) entries built (s.replace (.new node) .nil) := by
  obtain ⟨held, inner, hlevel, hfits, rfl, hbelow⟩ := h
  refine ⟨_, _, hlevel.replace true _ _ fun _ => rfl, hfits.hold true _, ?_, fun v => ?_⟩
  · simp [TreeState.replace]
  · rw [below_replace, hbelow]
    simp [AstTree.new, Forest.preorder]

theorem ensureCurrent (h : Tracks node o entries built s) :
    Tracks node o.ensureCurrent entries built (s.ensureCurrent node) := by
  rw [Outline.ensureCurrent, TreeState.ensureCurrent]
  obtain ⟨held, inner, hlevel, hfits, horder, hbelow⟩ := h
  have hcurrent := hlevel.current
  have hoCurrent := hfits.current
  cases ht : s.current with
  | none =>
    rw [ht] at hcurrent
    cases held with
    | nil =>
      have hnone : o.current = none := hoCurrent
      rw [if_pos hnone]
      exact create ⟨[], inner, hlevel, hfits, horder, hbelow⟩
    | cons x xs => cases hcurrent
  | some t =>
    rw [ht] at hcurrent
    cases held with
    | nil => cases hcurrent
    | cons x xs =>
      rw [if_neg (by simp [hoCurrent])]
      exact ⟨x :: xs, inner, hlevel, hfits, horder, hbelow⟩

theorem call (h : Tracks node o entries built s) (t : AstTree G) (d : Forest (AstData G)) :
    Tracks node (o.hold false) entries (built ++ labels (some t) d) (s.replace t d) := by
  obtain ⟨held, inner, hlevel, hfits, rfl, hbelow⟩ := h
  refine ⟨_, _, hlevel.replace false t d fun hfalse => absurd hfalse Bool.false_ne_true,
    hfits.hold false _, ?_, fun v => ?_⟩
  · simp [TreeState.replace]
  · rw [below_replace, hbelow, List.mem_append, mem_labels_some]
    simp

theorem flush (h : Tracks node o entries built s) (hs' : s.flush = some s') :
    Tracks node o.flush entries built s' ∧ s'.pending = [] := by
  obtain ⟨held, inner, hlevel, hfits, rfl, hbelow⟩ := h
  obtain ⟨hlevel', hnone, hheld⟩ := hlevel.flush hs'
  refine ⟨⟨_, _, hlevel', ?_, ?_, fun v => ?_⟩, hnone⟩
  · rw [hnone]
    exact hfits.flush hheld
  · rw [hnone, List.map_nil, List.append_nil]
    cases held with
    | nil =>
      obtain hpending : s.pending = [] := by
        by_contra hne
        exact hheld hne rfl
      rw [hpending]
      rfl
    | cons x xs => simp [give]
  · rw [below_flush hnone, hbelow]

theorem nest (h : Tracks node o entries built s) (hs' : s.nest node = some s') :
    Tracks node (o.hold true) entries built s' := by
  rw [TreeState.nest, Option.map_eq_some_iff] at hs'
  obtain ⟨t, ht, rfl⟩ := hs'
  obtain ⟨held, inner, hlevel, hfits, rfl, hbelow⟩ := h
  have hcontent : ((AstTree.new node).attach t.forest).content = t.forest ++ .nil :=
    (Forest.append_nil _).symm
  refine ⟨_, _, hlevel.push ht true .nil .nil hcontent fun _ => rfl, hfits.hold true _, ?_,
    fun v => ?_⟩
  · simp
  · refine below_push.trans ?_
    rw [hbelow]
    simp [Forest.preorder]

/-- An infix child puts the current object under the object of the infix node. -/
theorem putInfix (h : Tracks node o entries built s) {t right : AstTree G}
    (ht : s.current = some t) (cstNode : CstSubtree G) (d : Forest (AstData G)) :
    Tracks node (o.hold false) entries (built ++ ⟨cstNode, []⟩ :: labels (some right) d)
      { s with
        current := some ((AstTree.new cstNode).attach (t.forest ++ right.forest))
        dropped := d ++ s.dropped } := by
  obtain ⟨held, inner, hlevel, hfits, rfl, hbelow⟩ := h
  have hcontent : ((AstTree.new cstNode).attach (t.forest ++ right.forest)).content
      = t.forest ++ right.forest := rfl
  refine ⟨_, _, hlevel.push ht false right.forest d hcontent fun hfalse =>
    absurd hfalse Bool.false_ne_true, hfits.hold false _, ?_, fun v => ?_⟩
  · simp
  · refine below_push.trans ?_
    rw [hbelow, List.mem_append, List.mem_cons, labels, List.mem_append]
    simp [AstTree.attach, AstTree.new, optionForest]

end Tracks

/-! ### The child loop -/

namespace AstGrammar

variable (Γ : AstGrammar G)

/-- The outline after some children. -/
def outline : Forest (CstItem G) → Outline → Outline
  | .nil, o => o
  | .cons child _ rest, o =>
    if child.isHidden then outline rest o
    else
      match Γ.kind child.grammarElement with
      | .assignment _ _ => outline rest o.wait
      | .create => outline rest (o.hold true)
      | .nest => outline rest (o.ensureCurrent.flush.hold true)
      | .parserRule => outline rest (o.hold false)
      | .infixRule _ _ => outline rest (o.flush.hold false)
      | .other => outline rest o

variable [DecidableEq G]

/-- The value of an assignment child. -/
def assignedTree (child : CstItem G) (below : Forest (CstItem G)) :
    AssignedElement G → Option (Option (AstTree G) × Forest (AstData G))
  | .parserRule =>
    (ruleTree ⟨child, below⟩ (Γ.treeLoop ⟨child, below⟩ below)).map fun value =>
      (some value.1, value.2)
  | .orderedChoice choices => Γ.selectedTree choices (containsRecovery ⟨child, below⟩) below
  | .data => some (none, .nil)

/-- The data of the objects built for a visible child. -/
def builtFor (child : CstItem G) (below : Forest (CstItem G)) : List (AstData G) :=
  match Γ.kind child.grammarElement with
  | .assignment _ element =>
    (Γ.assignedTree child below element).elim [] fun value => labels value.1 value.2
  | .parserRule =>
    (ruleTree ⟨child, below⟩ (Γ.treeLoop ⟨child, below⟩ below)).elim [] fun value =>
      labels (some value.1) value.2
  | .infixRule primary operators =>
    (Γ.operandTrees child.grammarElement primary operators below none none .nil).elim []
      fun read => ⟨⟨child, below⟩, []⟩ :: labels (some read.2.1) read.2.2
  | _ => []

/-- The data of the objects built below a rule node with these children. -/
def builtBelow : Forest (CstItem G) → List (AstData G)
  | .nil => []
  | .cons child below rest =>
    (if child.isHidden then [] else Γ.builtFor child below) ++ builtBelow rest

/-- **What the child loop builds**: the objects the outline describes, which get
the assignment children in source order, and what is built for the children. -/
theorem treeLoop_tracks {node : CstSubtree G} {f : Forest (CstItem G)} {o : Outline}
    {entries : List (G × ℕ)} {built : List (AstData G)} {s s' : TreeState G}
    (h : Tracks node o entries built s) (hs' : Γ.treeLoop node f s = some s') :
    Tracks node (Γ.outline f o) (entries ++ Γ.assignments f) (built ++ Γ.builtBelow f) s' := by
  induction f generalizing o entries built s with
  | nil =>
    obtain rfl := Option.some.inj hs'
    simpa [outline, assignments, Forest.roots, builtBelow] using h
  | cons child below rest _ ih =>
    rw [treeLoop] at hs'
    rw [outline, builtBelow, assignments_cons]
    by_cases hhidden : child.isHidden = true
    · rw [if_pos hhidden] at hs' ⊢
      rw [if_pos hhidden]
      rw [assignments_tree_of_hidden hhidden]
      exact ih h hs'
    · rw [if_neg hhidden] at hs' ⊢
      rw [if_neg hhidden, builtFor, ← List.append_assoc, ← List.append_assoc]
      cases hkind : Γ.kind child.grammarElement with
      | assignment feature element =>
        rw [hkind] at hs'
        rw [assignments_tree hhidden hkind]
        refine ih ?_ hs'
        cases element <;> exact h.wait _
      | create =>
        rw [hkind] at hs'
        rw [assignments_tree_of_ne (by simp [hkind]), List.append_nil, List.append_nil]
        exact ih h.create hs'
      | nest =>
        rw [hkind, Option.bind_eq_some_iff] at hs'
        obtain ⟨s₁, hs₁, hs'⟩ := hs'
        rw [Option.bind_eq_some_iff] at hs'
        obtain ⟨s₂, hs₂, hs'⟩ := hs'
        rw [assignments_tree_of_ne (by simp [hkind]), List.append_nil, List.append_nil]
        exact ih ((h.ensureCurrent.flush hs₁).1.nest hs₂) hs'
      | parserRule =>
        rw [hkind, Option.bind_eq_some_iff] at hs'
        obtain ⟨value, hvalue, hs'⟩ := hs'
        rw [assignments_tree_of_ne (by simp [hkind]), List.append_nil, hvalue]
        exact ih (h.call value.1 value.2) hs'
      | infixRule primary operators =>
        rw [hkind, Option.bind_eq_some_iff] at hs'
        obtain ⟨s₁, hs₁, hs'⟩ := hs'
        simp only [Option.bind_eq_some_iff] at hs'
        obtain ⟨t, ht, read, hread, value, hvalue, hs'⟩ := hs'
        rw [infixTree] at hvalue
        split at hvalue
        · obtain rfl := Option.some.inj hvalue
          rw [assignments_tree_of_ne (by simp [hkind]), List.append_nil]
          simp only [hread]
          exact ih ((h.flush hs₁).1.putInfix ht ⟨child, below⟩ read.2.2) hs'
        · cases hvalue
      | other =>
        rw [hkind] at hs'
        rw [assignments_tree_of_ne (by simp [hkind]), List.append_nil, List.append_nil]
        exact ih h hs'

/-- The objects of a rule node that has children: those it makes current, and what
is built below. -/
theorem ruleTree_tracks {node : CstSubtree G} {v : AstTree G × Forest (AstData G)}
    (hleaf : node.node.isLeaf = false)
    (h : ruleTree node (Γ.treeLoop node node.children) = some v) :
    ∃ s, Tracks node (Γ.outline node.children .initial).finish (Γ.assignments node.children)
        (Γ.builtBelow node.children) s ∧
      s.pending = [] ∧ s.current = some v.1 ∧ s.dropped = v.2 := by
  rw [ruleTree, if_neg (by simp [hleaf]), Option.bind_eq_some_iff] at h
  obtain ⟨s, h, hv⟩ := h
  rw [Option.bind_eq_some_iff] at h
  obtain ⟨s₁, hs₁, hfinish⟩ := h
  rw [Option.map_eq_some_iff] at hv
  obtain ⟨t, ht, rfl⟩ := hv
  have htracks := Γ.treeLoop_tracks (.initial node) hs₁
  rw [List.nil_append, List.nil_append] at htracks
  obtain ⟨hlast, hnone⟩ := htracks.ensureCurrent.flush hfinish
  exact ⟨s, hlast, hnone, ht, rfl⟩

end AstGrammar

end Pegium
