/-
Pegium/SyntaxTree/Speculation.lean

Speculative building: marks, rewinds, and the operations that survive them.

A run of the builder is a sequence of calls.  A mark is *live* until the node
that was open when it was taken is exited, until the builder is rewound to an
older mark, or until the grammar element of a node older than the mark is
overridden (a rewind cuts links and truncates the array, it does not restore
the record of an older node; the parser only overrides the node it has just
built, which is younger than every mark it still holds).

`committed` computes the calls that were not rewound, without looking at the
builder.  The invariant of a run (`Session.Tracks`) relates three things: the
streaming builder, the tree builder run on the committed calls alone, and for
each live mark the tree builder as it was when the mark was taken.

Main result: `read_speculation`.  The array, read through the views, is the
ordered tree of the committed calls, and its ids in preorder are exactly
`0, 1, …, nodeCount - 1`.
-/
import Pegium.SyntaxTree.CstView

namespace Pegium

variable {G : Type*}

/-! ### Calls and sessions -/

/-- The calls that build. -/
inductive BuildOp (G : Type*) where
  | enter
  | leaf (beginOffset endOffset : ℕ) (ge : G) (hidden recovered : Bool)
  | exit (beginOffset endOffset : ℕ) (ge : G)
  | overrideGrammarElement (id : ℕ) (ge : G)
  deriving DecidableEq

/-- All calls; `rewind k` goes to the `k`-th live mark, youngest first. -/
inductive BuilderCall (G : Type*) where
  | build (op : BuildOp G)
  | mark
  | rewind (k : ℕ)
  deriving DecidableEq

/-- One building call on the streaming builder. -/
def CstBuilder.apply (b : CstBuilder G) : BuildOp G → CstBuilder G
  | .enter => b.enter
  | .leaf s e ge hidden recovered => b.leaf s e ge hidden recovered
  | .exit s e ge => b.exit s e ge
  | .overrideGrammarElement id ge => b.overrideGrammarElement id ge

/-- One building call on the tree builder. -/
def TreeBuilder.apply (tb : TreeBuilder G) : BuildOp G → TreeBuilder G
  | .enter => tb.enter
  | .leaf s e ge hidden recovered => tb.leaf s e ge hidden recovered
  | .exit s e ge => tb.exit s e ge
  | .overrideGrammarElement id ge => tb.overrideGrammarElement id ge

/-- The tree builder after a sequence of building calls. -/
def TreeBuilder.run (ops : List (BuildOp G)) : TreeBuilder G := ops.foldl apply empty

/-- A live mark, with the building calls that were committed when it was taken. -/
structure LiveMark (G : Type*) where
  checkpoint : CstBuilder.Checkpoint
  committed : List (BuildOp G)

/-- A builder in use: its state, the building calls made and not rewound, and
the live marks, youngest first. -/
structure Session (G : Type*) where
  builder : CstBuilder G
  committed : List (BuildOp G)
  marks : List (LiveMark G)

namespace Session

/-- A session that has made no call. -/
def start : Session G := ⟨.empty, [], []⟩

/-- Whether a building call is one the builder accepts: an exit closes an open
node and an override names an allocated one. -/
def accepts (s : Session G) : BuildOp G → Bool
  | .exit _ _ _ => 0 < s.builder.depth
  | .overrideGrammarElement id _ => id < s.builder.nodeCount
  | _ => true

/-- Whether a mark outlives a building call.  `exit` ends the marks taken under
the node it closes; under the rule `strict`, an override ends the marks that are
younger than its node. -/
def outlives (strict : Bool) (s : Session G) (m : LiveMark G) : BuildOp G → Bool
  | .exit _ _ _ => m.checkpoint.depth < s.builder.depth
  | .overrideGrammarElement id _ => !strict || m.checkpoint.nodeCount ≤ id
  | _ => true

/-- One call.  `none` when the builder's assertions forbid it or it rewinds to a
mark that is not live. -/
def call (strict : Bool) (s : Session G) : BuilderCall G → Option (Session G)
  | .build op =>
    if s.accepts op then
      some ⟨s.builder.apply op, s.committed ++ [op], s.marks.filter (s.outlives strict · op)⟩
    else none
  | .mark => some { s with marks := ⟨s.builder.mark, s.committed⟩ :: s.marks }
  | .rewind k =>
    match s.marks[k]? with
    | some m => some ⟨s.builder.rewind m.checkpoint, m.committed, s.marks.drop k⟩
    | none => none

/-- A sequence of calls. -/
def calls (strict : Bool) : Session G → List (BuilderCall G) → Option (Session G)
  | s, [] => some s
  | s, c :: cs => (s.call strict c).bind fun s' => s'.calls strict cs

end Session

/-! ### Growing a tree builder -/

/-- `tb` was reached from `m` without leaving the node open in `m`: the level of
`m` has grown by some finished siblings, and further levels may be open. -/
inductive TreeBuilder.Extends (m : TreeBuilder G) : TreeBuilder G → Prop
  | here (g : Forest (CstLabel G)) : Extends m (m.append g)
  | inside {f : Forest (CstLabel G)} {fs : List (Forest (CstLabel G))}
      (g : Forest (CstLabel G)) : Extends m ⟨f, fs⟩ → Extends m ⟨g, f :: fs⟩

namespace TreeBuilder

theorem Extends.refl (m : TreeBuilder G) : m.Extends m := by
  simpa using Extends.here (m := m) .nil

theorem Extends.append {m tb : TreeBuilder G} (h : m.Extends tb) (g : Forest (CstLabel G)) :
    m.Extends (tb.append g) := by
  cases h with
  | here f => rw [append_append]; exact .here _
  | inside f h => exact .inside _ h

theorem Extends.enter {m tb : TreeBuilder G} (h : m.Extends tb) : m.Extends tb.enter :=
  .inside _ h

theorem Extends.trans {m tb tb' : TreeBuilder G} (h : m.Extends tb) (h' : tb.Extends tb') :
    m.Extends tb' := by
  induction h' with
  | here g => exact h.append g
  | inside g _ ih => exact .inside g ih

theorem Extends.depth_le {m tb : TreeBuilder G} (h : m.Extends tb) : m.depth ≤ tb.depth := by
  induction h with
  | here g => exact Nat.le_refl _
  | inside g _ ih => exact Nat.le_succ_of_le ih

theorem Extends.nodeCount_le {m tb : TreeBuilder G} (h : m.Extends tb) :
    m.nodeCount ≤ tb.nodeCount := by
  induction h with
  | here g => simp
  | inside g _ ih => simp only [nodeCount, levelsSize] at ih ⊢; omega

/-- Without a new node there is no new level and no new sibling. -/
theorem Extends.eq_of_nodeCount {m tb : TreeBuilder G} (h : m.Extends tb)
    (hc : tb.nodeCount = m.nodeCount) : tb = m := by
  cases h with
  | here g =>
    have hg : g = .nil := by rw [← Forest.size_eq_zero]; simpa using hc
    rw [hg, append_nil]
  | inside g h =>
    have hle := h.nodeCount_le
    simp only [nodeCount, levelsSize] at hc hle
    omega

theorem exit_of_below {f g : Forest (CstLabel G)} {fs : List (Forest (CstLabel G))}
    (b e : ℕ) (ge : G) :
    (⟨g, f :: fs⟩ : TreeBuilder G).exit b e ge
      = (⟨f, fs⟩ : TreeBuilder G).append (.tree ⟨b, e, ge, false, false⟩ g) := rfl

/-- Exiting a node opened after `m` keeps the node open in `m` open. -/
theorem Extends.exit {m tb : TreeBuilder G} (h : m.Extends tb) (hd : m.depth < tb.depth)
    (b e : ℕ) (ge : G) : m.Extends (tb.exit b e ge) := by
  cases h with
  | here g => exact absurd hd (Nat.lt_irrefl _)
  | inside g h => rw [exit_of_below]; exact h.append _

/-- Either the level below the open one is younger than `m`, or it is older. -/
theorem Extends.inside_or_le {m : TreeBuilder G} {f e : Forest (CstLabel G)}
    {fs : List (Forest (CstLabel G))} (h : m.Extends ⟨f, e :: fs⟩) :
    m.Extends ⟨e, fs⟩ ∨ levelsSize (e :: fs) ≤ m.nodeCount := by
  generalize htb : (⟨f, e :: fs⟩ : TreeBuilder G) = tb at h
  cases h with
  | here g =>
    right
    have hbelow : e :: fs = m.below := congrArg TreeBuilder.below htb
    simp [hbelow, nodeCount]
  | inside g h =>
    left
    simp only [TreeBuilder.mk.injEq, List.cons.injEq] at htb
    obtain ⟨-, rfl, rfl⟩ := htb
    exact h

theorem Extends.override_top {m : TreeBuilder G} {f : Forest (CstLabel G)}
    {fs : List (Forest (CstLabel G))} (h : m.Extends ⟨f, fs⟩) {id : ℕ}
    (hid : m.nodeCount ≤ id) (g : CstLabel G → CstLabel G) :
    m.Extends ⟨f.modify g (id - levelsSize fs), fs⟩ := by
  rcases h with g' | ⟨g', h⟩
  · have hsub : id - levelsSize m.below = m.top.size + (id - m.nodeCount) := by
      simp only [nodeCount] at hid ⊢
      omega
    have key : (m.top ++ g').modify g (id - levelsSize m.below)
        = m.top ++ g'.modify g (id - m.nodeCount) := by
      rw [hsub, Forest.modify_append_right]
    exact key ▸ Extends.here _
  · exact .inside _ h

theorem Extends.override_levels {m : TreeBuilder G} {id : ℕ} (hid : m.nodeCount ≤ id) (ge : G)
    {fs : List (Forest (CstLabel G))} {f : Forest (CstLabel G)} (h : m.Extends ⟨f, fs⟩) :
    ∃ f' fs', overrideLevels id ge (f :: fs) = f' :: fs' ∧ m.Extends ⟨f', fs'⟩ := by
  induction fs generalizing f with
  | nil =>
    have htop := h.override_top hid fun l => { l with grammarElement := ge }
    exact ⟨_, _, by simp [overrideLevels, levelsSize], htop⟩
  | cons e fs ih =>
    rw [overrideLevels]
    split
    next hlt =>
      -- the node lies under an enclosing node, which is itself younger than `m`
      rcases h.inside_or_le with h | hle
      · obtain ⟨e', fs', he, h'⟩ := ih h
        exact ⟨f, _, rfl, he ▸ .inside f h'⟩
      · omega
    next => exact ⟨_, _, rfl, h.override_top hid _⟩

/-- Overriding a node younger than `m`. -/
theorem Extends.override {m tb : TreeBuilder G} (h : m.Extends tb) {id : ℕ}
    (hid : m.nodeCount ≤ id) (ge : G) : m.Extends (tb.overrideGrammarElement id ge) := by
  rw [overrideGrammarElement]
  split
  next hlt =>
    rcases h with g | ⟨g, h⟩
    · simp only [nodeCount, append_below] at hid hlt
      omega
    · obtain ⟨f', fs', hf, h'⟩ := h.override_levels hid ge
      exact hf ▸ .inside g h'
  next => exact h.override_top hid _

/-! ### Rewinding -/

theorem levelsFrames_drop {m tb : TreeBuilder G} (h : m.Extends tb) :
    (frameOf tb.below tb.top :: levelsFrames tb.below).drop (tb.depth + 1 - m.depth)
      = levelsFrames m.below := by
  have hlen := h.depth_le
  induction h with
  | here g => simp [depth]
  | @inside f fs g h ih =>
    have hd := h.depth_le
    have e : depth ⟨g, f :: fs⟩ + 1 - m.depth = (depth ⟨f, fs⟩ + 1 - m.depth) + 1 := by
      simp only [depth, List.length_cons] at hd ⊢
      omega
    rw [e, List.drop_succ_cons]
    exact ih hd

/-- The slots of `m` in the array of any `tb` that extends it: only the link of
the last sibling at the level of `m` may have been set since. -/
theorem nodes_take {m tb : TreeBuilder G} (h : m.Extends tb) :
    ∃ nx, tb.toCstBuilder.nodes.take m.nodeCount
      = levelsNodes m.below ++ m.top.layout cell (levelsSize m.below) nx := by
  induction h with
  | here g =>
    refine ⟨g.headId (levelsSize m.below + m.top.size) none, ?_⟩
    have hnodes : (m.append g).toCstBuilder.nodes
        = levelsNodes m.below ++ m.top.layout cell (levelsSize m.below)
            (g.headId (levelsSize m.below + m.top.size) none)
          ++ g.layout cell (levelsSize m.below + m.top.size) none := by
      simp [toCstBuilder, Forest.layout_append]
    rw [hnodes]
    exact List.take_left' (by simp [nodeCount])
  | @inside f fs g h ih =>
    obtain ⟨nx, hnx⟩ := ih
    refine ⟨nx, ?_⟩
    have hle := h.nodeCount_le
    have hsplit : (toCstBuilder ⟨g, f :: fs⟩).nodes
        = (toCstBuilder ⟨f, fs⟩).nodes
          ++ ([none] ++ g.layout cell (levelsSize (f :: fs)) none) := by
      simp [toCstBuilder, levelsNodes]
    have hcount : m.nodeCount ≤ (toCstBuilder ⟨f, fs⟩).nodes.length := by
      exact Nat.le_trans hle (Nat.le_of_eq (toCstBuilder_nodeCount _).symm)
    rw [hsplit, List.take_append_of_le_length hcount, hnx]

/-- **Rewinding undoes growth**: from the state of any builder that extends `m`,
the checkpoint taken at `m` leads back to the state of `m`. -/
theorem rewind_toCstBuilder {m tb : TreeBuilder G} (h : m.Extends tb) :
    tb.toCstBuilder.rewind m.toCstBuilder.mark = m.toCstBuilder := by
  rw [CstBuilder.rewind]
  split
  next hc =>
    rw [h.eq_of_nodeCount (by simpa [CstBuilder.mark] using hc)]
  next =>
    obtain ⟨nx, hnx⟩ := nodes_take h
    have link := linkLast_layout (levelsNodes m.below) [] m.top nx none
    rw [length_levelsNodes, List.append_nil, List.append_nil] at link
    simp only [CstBuilder.mark, toCstBuilder_nodeCount, toCstBuilder_depth, hnx]
    rw [show (m.toCstBuilder.frame.last) = m.top.lastRoot (levelsSize m.below) from rfl, link]
    have hframes := levelsFrames_drop h
    exact congrArg (CstBuilder.mk _ _ _) hframes

theorem toCstBuilder_apply (tb : TreeBuilder G) (op : BuildOp G) :
    (tb.apply op).toCstBuilder = tb.toCstBuilder.apply op := by
  cases op with
  | enter => exact toCstBuilder_enter tb
  | leaf s e ge hidden recovered => exact toCstBuilder_leaf tb s e ge hidden recovered
  | exit s e ge => exact toCstBuilder_exit tb s e ge
  | overrideGrammarElement id ge => exact toCstBuilder_override tb id ge

theorem run_append (ops : List (BuildOp G)) (op : BuildOp G) :
    run (ops ++ [op]) = (run ops).apply op := by
  simp [run]

end TreeBuilder

/-! ### The invariant of a session -/

namespace Session

/-- The streaming builder holds the tree of the committed calls; every live mark
is a checkpoint of the tree it was taken at, which the current one extends; and
the marks are nested in the same way. -/
structure Tracks (s : Session G) : Prop where
  builder : s.builder = (TreeBuilder.run s.committed).toCstBuilder
  checkpoint : ∀ m ∈ s.marks, m.checkpoint = (TreeBuilder.run m.committed).toCstBuilder.mark
  extends_mark : ∀ m ∈ s.marks,
    (TreeBuilder.run m.committed).Extends (TreeBuilder.run s.committed)
  nested : s.marks.Pairwise fun young old =>
    (TreeBuilder.run old.committed).Extends (TreeBuilder.run young.committed)

theorem tracks_start : (start : Session G).Tracks where
  builder := TreeBuilder.toCstBuilder_empty.symm
  checkpoint m hm := by cases hm
  extends_mark m hm := by cases hm
  nested := .nil

/-- A mark that outlives a building call is extended by its result. -/
theorem Tracks.extends_apply {s : Session G} (h : s.Tracks) {m : LiveMark G}
    (hm : m ∈ s.marks) {op : BuildOp G} (hop : s.outlives true m op) :
    (TreeBuilder.run m.committed).Extends ((TreeBuilder.run s.committed).apply op) := by
  have ext := h.extends_mark m hm
  have hcp := h.checkpoint m hm
  cases op with
  | enter => exact ext.enter
  | leaf b e ge hidden recovered => exact ext.append _
  | exit b e ge =>
    refine ext.exit ?_ b e ge
    simpa [outlives, hcp, h.builder, CstBuilder.mark] using hop
  | overrideGrammarElement id ge =>
    refine ext.override ?_ ge
    simpa [outlives, hcp, CstBuilder.mark] using hop

theorem Tracks.call {s s' : Session G} (h : s.Tracks) {c : BuilderCall G}
    (hc : s.call true c = some s') : s'.Tracks := by
  cases c with
  | build op =>
    simp only [Session.call, Option.ite_none_right_eq_some, Option.some.injEq] at hc
    obtain ⟨-, rfl⟩ := hc
    have hmem : ∀ m ∈ s.marks.filter (s.outlives true · op),
        m ∈ s.marks ∧ s.outlives true m op := fun m hm => List.mem_filter.mp hm
    refine ⟨?_, ?_, ?_, h.nested.filter _⟩
    · rw [TreeBuilder.run_append, TreeBuilder.toCstBuilder_apply, h.builder]
    · exact fun m hm => h.checkpoint m (hmem m hm).1
    · intro m hm
      rw [TreeBuilder.run_append]
      exact h.extends_apply (hmem m hm).1 (hmem m hm).2
  | mark =>
    simp only [Session.call, Option.some.injEq] at hc
    subst hc
    refine ⟨h.builder, ?_, ?_, List.pairwise_cons.mpr ⟨h.extends_mark, h.nested⟩⟩
    · rintro m (- | ⟨-, hm⟩)
      · exact congrArg CstBuilder.mark h.builder
      · exact h.checkpoint m hm
    · rintro m (- | ⟨-, hm⟩)
      · exact .refl _
      · exact h.extends_mark m hm
  | rewind k =>
    simp only [Session.call] at hc
    split at hc
    next m hk =>
      simp only [Option.some.injEq] at hc
      subst hc
      have hmem : m ∈ s.marks := List.mem_of_getElem? hk
      have hdrop : s.marks.drop k = m :: s.marks.drop (k + 1) := by
        obtain ⟨hlt, rfl⟩ := List.getElem?_eq_some_iff.mp hk
        exact List.drop_eq_getElem_cons hlt
      have hnested := h.nested.drop (i := k)
      have holder := hnested
      rw [hdrop, List.pairwise_cons] at holder
      refine ⟨?_, ?_, ?_, hnested⟩
      · rw [h.builder, h.checkpoint m hmem]
        exact TreeBuilder.rewind_toCstBuilder (h.extends_mark m hmem)
      · exact fun m' hm' => h.checkpoint m' (List.mem_of_mem_drop hm')
      · intro m' hm'
        rw [hdrop] at hm'
        rcases List.mem_cons.mp hm' with rfl | hm'
        · exact .refl _
        · exact holder.1 m' hm'
    next => cases hc

theorem Tracks.calls {cs : List (BuilderCall G)} {s s' : Session G} (h : s.Tracks)
    (hc : s.calls true cs = some s') : s'.Tracks := by
  induction cs generalizing s with
  | nil =>
    simp only [Session.calls, Option.some.injEq] at hc
    exact hc ▸ h
  | cons c cs ih =>
    obtain ⟨s₁, h₁, h₂⟩ := Option.bind_eq_some_iff.mp hc
    exact ih (h.call h₁) h₂

/-! ### Reading the result of a session -/

/-- **Speculative building is building the committed calls**: whatever was
marked, overridden and rewound on the way, the views read exactly the tree that
the committed calls alone build, and they reach every node of the array. -/
theorem read_speculation {text : List UInt8} {cs : List (BuilderCall G)} {s : Session G}
    (hcs : start.calls true cs = some s) (hdepth : s.builder.depth = 0) :
    (s.builder.toRoot text).read = some (numbered 0 (TreeBuilder.run s.committed).top) ∧
      (numbered 0 (TreeBuilder.run s.committed).top).preorder.map CstItem.id
        = List.range s.builder.nodeCount := by
  have hs := tracks_start.calls hcs
  have hb := hs.builder
  have hd : (TreeBuilder.run s.committed).depth = 0 := by
    rw [← hdepth, hb, TreeBuilder.toCstBuilder_depth]
  constructor
  · rw [hb]
    exact read_toCstBuilder text hd
  · have hbelow : (TreeBuilder.run s.committed).below = [] := List.length_eq_zero_iff.mp hd
    rw [preorder_numbered, hb, TreeBuilder.toCstBuilder_nodeCount, TreeBuilder.nodeCount,
      hbelow, List.range_eq_range', levelsSize, Nat.zero_add]

/-- A branch with an open node is rewound inside another open node. -/
theorem read_speculation_nested :
    let cs : List (BuilderCall ℕ) :=
      [.build .enter, .build (.leaf 0 1 1 false false), .mark, .build (.leaf 1 2 1 false false),
        .build .enter, .build (.leaf 2 3 1 false false), .rewind 0,
        .build (.leaf 1 3 2 false false), .build (.exit 0 3 3)]
    ∃ s, start.calls true cs = some s ∧ s.builder.depth = 0 ∧
      (s.builder.toRoot [97, 98, 99]).read
        = some (.cons ⟨0, 0, 3, 3, false, false, false⟩
            (.cons ⟨1, 0, 1, 1, true, false, false⟩ .nil
              (.cons ⟨2, 1, 3, 2, true, false, false⟩ .nil .nil)) .nil) := by
  intro cs
  refine ⟨_, rfl, rfl, ?_⟩
  exact (@read_speculation ℕ [97, 98, 99] cs _ rfl rfl).1

/-- Without the rule on overrides the tree of the committed calls is not what is
read: a rewind does not restore the element that an override replaced on an
older node. -/
theorem not_read_speculation_documented :
    ¬ ∀ (text : List UInt8) (cs : List (BuilderCall ℕ)) (s : Session ℕ),
      start.calls false cs = some s → s.builder.depth = 0 →
        (s.builder.toRoot text).read
          = some (numbered 0 (TreeBuilder.run s.committed).top) := by
  intro h
  -- a leaf, a mark, an override of the leaf, another leaf, a rewind
  let cs : List (BuilderCall ℕ) :=
    [.build (.leaf 0 1 1 false false), .mark, .build (.overrideGrammarElement 0 2),
      .build (.leaf 1 2 1 false false), .rewind 0]
  have hread := h [97, 98] cs _ rfl rfl
  revert hread
  decide

end Session

end Pegium
