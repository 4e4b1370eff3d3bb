/-
Pegium/Parser/TextCoverage.lean

A parse accounts for every byte that it consumes.

The childless nodes of the CST follow each other in the text.  A visible one is what a
terminal of its own grammar element matches, or empty, a hidden one is what a hidden rule
of a skipper matches, and from the end of one to the begin of the next there is nothing but
matches of ignored rules (`Tiled`).  So the text can be put together again from the CST and
what is ignored, and no byte is in two leaves (`Tiled.covered`).

The other nodes are placed around the leaves: a node begins no later than a leaf below or
after it, and no node stops within a leaf.

Both are read off how a match is built (`Match.Built`).

Main result: `parse_covers_text`.
-/
import Mathlib.Data.List.Pairwise
import Pegium.Parser.MatchBuild

namespace Pegium

/-! ### Spots -/

/-- Where a node of the CST is. -/
structure Spot where
  begin : ℕ
  «end» : ℕ
  isLeaf : Bool
  isHidden : Bool
  deriving DecidableEq

variable {G : Type*}

def CstItem.spot (item : CstItem G) : Spot := ⟨item.begin, item.end, item.isLeaf, item.isHidden⟩

/-- The spots of a forest, in preorder. -/
def spots : Forest (CstLabel G) → List Spot
  | .nil => []
  | .cons l c r =>
    ⟨l.begin, l.end, (c.headId 0 none).isNone, l.isHidden⟩ :: (spots c ++ spots r)

theorem spots_append (f g : Forest (CstLabel G)) : spots (f ++ g) = spots f ++ spots g := by
  induction f with
  | nil => rfl
  | cons l c r _ ih => simp [spots, ih]

theorem spots_numbered (base : ℕ) (f : Forest (CstLabel G)) :
    (numbered base f).preorder.map CstItem.spot = spots f := by
  induction f generalizing base with
  | nil => rfl
  | cons l c r ihc ihr =>
    rw [numbered, Forest.preorder, List.map_cons, List.map_append, ihc, ihr]
    rfl

theorem spots_rebind (element : G) (f : Forest (CstLabel G)) :
    spots (f.modifyHead fun l => { l with grammarElement := element }) = spots f := by
  cases f <;> rfl

/-! ### Leaves -/

/-- The leaf flag tells the childless nodes. -/
theorem leaves_numbered (base : ℕ) (f : Forest (CstLabel G)) :
    (numbered base f).leaves = (numbered base f).preorder.filter (·.isLeaf) := by
  induction f generalizing base with
  | nil => rfl
  | cons l c r ihc ihr =>
    rw [numbered, Forest.leaves, Forest.preorder, List.filter_cons, List.filter_append, ← ihc,
      ← ihr]
    cases c <;> rfl

/-! ### Tiles -/

/-- Leaves in a stretch of text, with nothing but ignored matches between them.  After a leaf
the stretch goes on where it ends, or where it begins if it ends before. -/
inductive Tiled (Ignored : ℕ → ℕ → Prop) (Explained : CstLabel G → Prop) :
    ℕ → List (CstLabel G) → ℕ → Prop
  | stop {p q : ℕ} (ignored : Relation.ReflTransGen Ignored p q) : Tiled Ignored Explained p [] q
  | leaf {p q : ℕ} {leaf : CstLabel G} {leaves : List (CstLabel G)}
    (ignored : Relation.ReflTransGen Ignored p leaf.begin) (explained : Explained leaf)
    (rest : Tiled Ignored Explained (max leaf.begin leaf.end) leaves q) :
    Tiled Ignored Explained p (leaf :: leaves) q

namespace Tiled

variable {Ignored : ℕ → ℕ → Prop} {Explained Explained' : CstLabel G → Prop} {p p' q r : ℕ}
  {leaves leaves' : List (CstLabel G)}

theorem before (h : Tiled Ignored Explained p' leaves q)
    (hp : Relation.ReflTransGen Ignored p p') : Tiled Ignored Explained p leaves q := by
  cases h with
  | stop ignored => exact .stop (hp.trans ignored)
  | leaf ignored explained rest => exact .leaf (hp.trans ignored) explained rest

theorem append (h : Tiled Ignored Explained p leaves q)
    (h' : Tiled Ignored Explained q leaves' r) :
    Tiled Ignored Explained p (leaves ++ leaves') r := by
  induction h with
  | stop ignored => exact h'.before ignored
  | leaf ignored explained _ ih => exact .leaf ignored explained (ih h')

theorem mono (h : Tiled Ignored Explained p leaves q)
    (hexplained : ∀ {leaf}, Explained leaf → Explained' leaf) :
    Tiled Ignored Explained' p leaves q := by
  induction h with
  | stop ignored => exact .stop ignored
  | leaf ignored explained _ ih => exact .leaf ignored (hexplained explained) ih

/-- The first leaf is explained in another way. -/
theorem head {leaf leaf' : CstLabel G} (h : Tiled Ignored Explained p (leaf :: leaves) q)
    (hbegin : leaf'.begin = leaf.begin) (hend : leaf'.end = leaf.end)
    (hleaf : Explained leaf → Explained' leaf')
    (hexplained : ∀ {leaf}, Explained leaf → Explained' leaf) :
    Tiled Ignored Explained' p (leaf' :: leaves) q := by
  cases h with
  | leaf ignored explained rest =>
    refine .leaf (hbegin ▸ ignored) (hleaf explained) ?_
    rw [hbegin, hend]
    exact rest.mono hexplained

/-- **Every byte of the stretch is in a leaf or in an ignored match.** -/
theorem covered (h : Tiled Ignored Explained p leaves q) {o : ℕ} (hp : p ≤ o) (hq : o < q) :
    (∃ leaf ∈ leaves, leaf.begin ≤ o ∧ o < leaf.end) ∨ ∃ a b, Ignored a b ∧ a ≤ o ∧ o < b := by
  have hrun : ∀ {a b}, Relation.ReflTransGen Ignored a b → a ≤ o → o < b →
      ∃ c d, Ignored c d ∧ c ≤ o ∧ o < d := by
    intro a b hab ha hb
    induction hab with
    | refl => omega
    | @tail c d _ hstep ih =>
      rcases Nat.lt_or_ge o c with hc | hc
      · exact ih hc
      · exact ⟨c, d, hstep, hc, hb⟩
  induction h with
  | stop ignored => exact .inr (hrun ignored hp hq)
  | @leaf p q leaf leaves ignored _ _ ih =>
    rcases Nat.lt_or_ge o leaf.begin with hb | hb
    · exact .inr (hrun ignored hp hb)
    · rcases Nat.lt_or_ge o leaf.end with he | he
      · exact .inl ⟨leaf, List.mem_cons_self, hb, he⟩
      · rcases ih (Nat.max_le.mpr ⟨hb, he⟩) hq with ⟨leaf', hmem, hleaf'⟩ | hignored
        · exact .inl ⟨leaf', List.mem_cons_of_mem _ hmem, hleaf'⟩
        · exact .inr hignored

end Tiled

/-! ### The tiles of a grammar -/

variable (Γ : Grammar) (text : List UInt8)

/-- A match of an ignored rule. -/
def Grammar.Ignores (entry : Skipper) (begin stop : ℕ) : Prop :=
  ∃ n sk rule, Γ.Skips entry sk ∧ sk.WellFormed Γ ∧ rule ∈ sk.ignoredRules ∧ begin ≤ text.length ∧
    (peg Γ text n).terminal rule begin = some (some stop)

/-- A match of a hidden rule. -/
def Grammar.Hides (entry : Skipper) (begin stop : ℕ) : Prop :=
  ∃ n sk rule, Γ.Skips entry sk ∧ sk.WellFormed Γ ∧ rule ∈ sk.hiddenRules ∧ begin < stop ∧
    (peg Γ text n).terminal rule.2 begin = some (some stop)

/-- What a leaf is a match of: a hidden one of a hidden rule, and a visible one, if it is not
empty, of a terminal that its grammar element stands for. -/
structure Grammar.Explains (entry : Skipper) (Leaf : GrammarElement → Expr → Prop)
    (leaf : CstLabel GrammarElement) : Prop where
  hidden : leaf.isHidden = true → Γ.Hides text entry leaf.begin leaf.end
  visible : leaf.isHidden = false → leaf.begin < leaf.end → ∃ n terminal,
    Leaf leaf.grammarElement terminal ∧
      (peg Γ text n).terminal terminal leaf.begin = some (some leaf.end)

/-- A stretch of text with the tiles of a grammar. -/
abbrev Grammar.Tiles (entry : Skipper) (Leaf : GrammarElement → Expr → Prop) :
    ℕ → List (CstLabel GrammarElement) → ℕ → Prop :=
  Tiled (Γ.Ignores text entry) (Γ.Explains text entry Leaf)

variable {Γ text} {entry : Skipper} {Leaf : GrammarElement → Expr → Prop} {pos : Position}
  {m : Match}

theorem FirstMatch.exists_mem {α : Type} {matchAt : α → ℕ → Option (Option ℕ)} {rules : List α}
    {p q : ℕ} {rule : α} (h : FirstMatch matchAt rules p rule q) :
    rule ∈ rules ∧ matchAt rule p = some (some q) := by
  induction h with
  | head h => exact ⟨List.mem_cons_self, h⟩
  | tail _ _ ih => exact ⟨List.mem_cons_of_mem _ ih.1, ih.2⟩

/-- The spots of the hidden leaves of a skip. -/
theorem spots_hidden (leaves : List (GrammarElement × ℕ × ℕ)) (stop : ℕ) :
    spots (Match.hidden pos leaves stop).forest
      = leaves.map fun l => ⟨l.2.1, l.2.2, true, true⟩ := by
  induction leaves with
  | nil => rfl
  | cons l leaves ih =>
    show (_ : Spot) :: spots (_ : Forest (CstLabel GrammarElement)) = _ :: _
    exact congrArg _ ih

theorem leaves_hidden (leaves : List (GrammarElement × ℕ × ℕ)) (stop : ℕ) :
    (Match.hidden pos leaves stop).forest.leaves
      = leaves.map fun l => ⟨l.2.1, l.2.2, l.1, true, false⟩ := by
  induction leaves with
  | nil => rfl
  | cons l leaves ih =>
    show (_ : CstLabel GrammarElement) :: Forest.leaves _ = _ :: _
    exact congrArg _ ih

/-- The ignored matches of one skip are ignored matches of the grammar. -/
theorem ignores_of_run (hΓ : Γ.WellFormed) {n : ℕ} {sk : Skipper} (hskips : Γ.Skips entry sk)
    (hsk : sk.WellFormed Γ) {p q : ℕ} (hp : p ≤ text.length)
    (h : IgnoredRun (peg Γ text n).terminal sk p q) :
    Relation.ReflTransGen (Γ.Ignores text entry) p q ∧ q ≤ text.length := by
  induction h with
  | refl => exact ⟨.refl, hp⟩
  | tail _ hstep ih =>
    obtain ⟨hrun, hle⟩ := ih
    obtain ⟨rule, hfirst⟩ := hstep
    obtain ⟨hmem, hmatch⟩ := hfirst.exists_mem
    have hstep := (spanned_peg hΓ text n).terminal rule _ _ (hsk.2 rule hmem).1 hle hmatch
    exact ⟨hrun.tail ⟨n, sk, rule, hskips, hsk, hmem, hle, hmatch⟩, hstep.le_length⟩

/-- What a skip passes over. -/
theorem Trivia.tiled {begin : ℕ} {leaves : List (GrammarElement × ℕ × ℕ)} {stop : ℕ}
    (h : Trivia Γ text entry begin leaves stop) (hΓ : Γ.WellFormed) :
    Γ.Tiles text entry Leaf begin (leaves.map fun l => ⟨l.2.1, l.2.2, l.1, true, false⟩) stop ∧
      LeavesWithin begin leaves stop := by
  obtain ⟨n, sk, hskips, hsk, hskip⟩ := h.skipped
  have hrec := (spanned_peg hΓ text n).terminal
  obtain ⟨-, hgaps, hwithin⟩ :=
    (skippersConverge_of_bounded hrec hsk h.begin_le).greedy leaves stop hskip
  refine ⟨?_, hwithin⟩
  have hle := h.begin_le
  clear h hskip
  induction leaves generalizing begin with
  | nil => exact .stop (ignores_of_run hΓ hskips hsk hle hgaps).1
  | cons l leaves ih =>
    obtain ⟨element, b, e⟩ := l
    obtain ⟨hignored, ⟨rule, -, hfirst⟩, hrest⟩ := hgaps
    obtain ⟨-, hlt, hwithin⟩ := hwithin
    obtain ⟨hmem, hmatch⟩ := hfirst.exists_mem
    obtain ⟨hrun, hb⟩ := ignores_of_run hΓ hskips hsk hle hignored
    have hstep := hrec rule.2 _ _ (hsk.1 rule hmem).1 hb hmatch
    refine .leaf hrun ⟨fun _ => ⟨n, sk, rule, hskips, hsk, hmem, hlt, hmatch⟩,
      fun hvisible => by cases hvisible⟩ ?_
    show Γ.Tiles text entry Leaf (max b e) _ stop
    rw [Nat.max_eq_right (Nat.le_of_lt hlt)]
    exact ih hrest hwithin hstep.le_length

/-! ### Placing nodes -/

/-- The leaves of a match and where its nodes are. -/
structure Match.Placed (Γ : Grammar) (text : List UInt8) (entry : Skipper)
    (Leaf : GrammarElement → Expr → Prop) (pos : Position) (m : Match) : Prop where
  tiled : Γ.Tiles text entry Leaf pos.cursor m.forest.leaves m.stop.cursor
  cursor_le : pos.cursor ≤ m.stop.cursor
  lastVisible_le : pos.lastVisible ≤ m.stop.lastVisible ∧ m.stop.lastVisible ≤ m.stop.cursor
  silent : m.visibleLeaves = 0 → m.stop.lastVisible = pos.lastVisible
  visible : 0 < m.visibleLeaves → pos.cursor ≤ m.stop.lastVisible
  bare : m.forest = .nil → m.visibleLeaves = 0
  before : ∀ s ∈ spots m.forest, s.begin ≤ m.stop.cursor ∧ s.end ≤ m.stop.cursor
  behind : ∀ s ∈ spots m.forest, (s.isLeaf = true → pos.cursor ≤ s.begin) ∧
    (s.begin ≤ s.end → pos.cursor ≤ s.end)
  ends : ∀ s ∈ spots m.forest, pos.cursor ≤ s.end ∨ s.end = pos.lastVisible
  hiddenLeaf : ∀ s ∈ spots m.forest, s.isHidden = true → s.isLeaf = true ∧ s.begin < s.end
  split : ∀ s ∈ spots m.forest, s.isLeaf = true →
    s.end ≤ m.stop.lastVisible ∨ m.stop.lastVisible ≤ s.begin
  within : (spots m.forest).Pairwise fun node leaf => leaf.isLeaf = true →
    node.begin ≤ leaf.begin ∧ (leaf.end ≤ node.end ∨ node.end ≤ leaf.begin)
  past : (spots m.forest).Pairwise fun leaf node => leaf.isLeaf = true →
    leaf.end ≤ node.end ∨ node.end ≤ leaf.begin
  after : (∀ s ∈ spots m.forest, s.begin ≤ s.end) →
    (spots m.forest).Pairwise fun leaf node => leaf.isLeaf = true →
      leaf.end ≤ node.end ∧ (node.isLeaf = true → leaf.end ≤ node.begin)

namespace Match.Placed

theorem nil (hpos : pos.lastVisible ≤ pos.cursor) :
    (Match.nil pos).Placed Γ text entry Leaf pos where
  tiled := .stop .refl
  cursor_le := Nat.le_refl _
  lastVisible_le := ⟨Nat.le_refl _, hpos⟩
  silent _ := rfl
  visible h := absurd h (Nat.lt_irrefl 0)
  bare _ := rfl
  before _ h := absurd h List.not_mem_nil
  behind _ h := absurd h List.not_mem_nil
  ends _ h := absurd h List.not_mem_nil
  hiddenLeaf _ h := absurd h List.not_mem_nil
  split _ h := absurd h List.not_mem_nil
  within := .nil
  past := .nil
  after _ := .nil

theorem leaf {stop : ℕ} {element : GrammarElement} (hpos : pos.lastVisible ≤ pos.cursor)
    (h : Token Γ text Leaf element pos.cursor stop) :
    (Match.leaf pos stop element).Placed Γ text entry Leaf pos := by
  have hspots : spots (Match.leaf pos stop element).forest
      = [⟨pos.cursor, stop, true, false⟩] := rfl
  have hle := h.le
  refine ⟨?_, h.le, ⟨Nat.le_trans hpos h.le, Nat.le_refl _⟩, ?_, fun _ => h.le, ?_, ?_, ?_, ?_, ?_,
    ?_, ?_, ?_, ?_⟩
  · refine .leaf .refl ⟨fun hhidden => (by cases hhidden), fun _ hlt => ?_⟩ (.stop ?_)
    · exact h.scanned.resolve_left (Nat.ne_of_lt hlt)
    · show Relation.ReflTransGen _ (max pos.cursor stop) stop
      rw [Nat.max_eq_right h.le]
  · exact fun hnone => absurd hnone Nat.one_ne_zero
  · exact fun hnil => by cases hnil
  all_goals rw [hspots]
  · intro s hs
    rw [List.mem_singleton.mp hs]
    exact ⟨hle, Nat.le_refl _⟩
  · intro s hs
    rw [List.mem_singleton.mp hs]
    exact ⟨fun _ => Nat.le_refl _, fun _ => hle⟩
  · intro s hs
    rw [List.mem_singleton.mp hs]
    exact .inl hle
  · intro s hs hhidden
    rw [List.mem_singleton.mp hs] at hhidden
    cases hhidden
  · intro s hs _
    rw [List.mem_singleton.mp hs]
    exact .inl (Nat.le_refl _)
  · exact List.pairwise_singleton _ _
  · exact List.pairwise_singleton _ _
  · exact fun _ => List.pairwise_singleton _ _

/-- The hidden leaves of a skip are in order. -/
theorem pairwise_leavesWithin {leaves : List (GrammarElement × ℕ × ℕ)} {p stop : ℕ}
    (h : LeavesWithin p leaves stop) :
    (∀ l ∈ leaves, p ≤ l.2.1 ∧ l.2.1 < l.2.2 ∧ l.2.2 ≤ stop) ∧
      leaves.Pairwise fun l l' => l.2.2 ≤ l'.2.1 := by
  induction leaves generalizing p with
  | nil => exact ⟨fun _ hl => absurd hl List.not_mem_nil, .nil⟩
  | cons l leaves ih =>
    obtain ⟨hp, hlt, hrest⟩ := h
    obtain ⟨hall, hpairwise⟩ := ih hrest
    have hle := hrest.le
    refine ⟨List.forall_mem_cons.mpr ⟨⟨hp, hlt, hle⟩, fun l' hl' => ?_⟩,
      List.pairwise_cons.mpr ⟨fun l' hl' => (hall l' hl').1, hpairwise⟩⟩
    have := hall l' hl'
    omega

theorem hidden {leaves : List (GrammarElement × ℕ × ℕ)} {stop : ℕ} (hΓ : Γ.WellFormed)
    (hpos : pos.lastVisible ≤ pos.cursor) (h : Trivia Γ text entry pos.cursor leaves stop) :
    (Match.hidden pos leaves stop).Placed Γ text entry Leaf pos := by
  obtain ⟨htiled, hwithin⟩ := h.tiled hΓ
  obtain ⟨hall, hpairwise⟩ := pairwise_leavesWithin hwithin
  have hspots := @spots_hidden pos leaves stop
  have hle := hwithin.le
  refine ⟨(leaves_hidden leaves stop).symm ▸ htiled, hle, ⟨Nat.le_refl _, Nat.le_trans hpos hle⟩,
    fun _ => rfl, fun hv => absurd hv (Nat.lt_irrefl 0), fun _ => rfl, ?_, ?_, ?_, ?_, ?_, ?_, ?_,
    ?_⟩
  all_goals rw [hspots]
  · intro s hs
    obtain ⟨l, hl, rfl⟩ := List.mem_map.mp hs
    obtain ⟨-, hlt, hstop⟩ := hall l hl
    exact ⟨Nat.le_trans (Nat.le_of_lt hlt) hstop, hstop⟩
  · intro s hs
    obtain ⟨l, hl, rfl⟩ := List.mem_map.mp hs
    obtain ⟨hbegin, hlt, -⟩ := hall l hl
    exact ⟨fun _ => hbegin, fun _ => Nat.le_trans hbegin (Nat.le_of_lt hlt)⟩
  · intro s hs
    obtain ⟨l, hl, rfl⟩ := List.mem_map.mp hs
    obtain ⟨hbegin, hlt, -⟩ := hall l hl
    exact .inl (Nat.le_trans hbegin (Nat.le_of_lt hlt))
  · intro s hs _
    obtain ⟨l, hl, rfl⟩ := List.mem_map.mp hs
    exact ⟨rfl, (hall l hl).2.1⟩
  · intro s hs _
    obtain ⟨l, hl, rfl⟩ := List.mem_map.mp hs
    exact .inr (Nat.le_trans hpos (hall l hl).1)
  · refine List.pairwise_map.mpr (hpairwise.imp_of_mem fun {l l'} hl hl' hll' _ => ?_)
    exact ⟨Nat.le_trans (Nat.le_of_lt (hall l hl).2.1) hll', .inr hll'⟩
  · refine List.pairwise_map.mpr (hpairwise.imp_of_mem fun {l l'} _ hl' hll' _ => ?_)
    exact .inl (Nat.le_trans hll' (Nat.le_of_lt (hall l' hl').2.1))
  · refine fun _ => List.pairwise_map.mpr (hpairwise.imp_of_mem fun {l l'} hl hl' hll' _ => ?_)
    exact ⟨Nat.le_trans hll' (Nat.le_of_lt (hall l' hl').2.1), fun _ => hll'⟩

variable {m' : Match}

/-- The last visible leaf is one of the match, or the one before it. -/
theorem stop_lastVisible (h : m.Placed Γ text entry Leaf pos) :
    pos.cursor ≤ m.stop.lastVisible ∨ m.stop.lastVisible = pos.lastVisible := by
  rcases Nat.eq_zero_or_pos m.visibleLeaves with hzero | hvisible
  · exact .inr (h.silent hzero)
  · exact .inl (h.visible hvisible)

theorem append (h : m.Placed Γ text entry Leaf pos) (h' : m'.Placed Γ text entry Leaf m.stop) :
    (m.append m').Placed Γ text entry Leaf pos := by
  have hspots : spots (m.append m').forest = spots m.forest ++ spots m'.forest :=
    spots_append _ _
  have hcursor := h'.cursor_le
  have hlast := h'.lastVisible_le
  refine ⟨?_, Nat.le_trans h.cursor_le hcursor, ⟨Nat.le_trans h.lastVisible_le.1 hlast.1, hlast.2⟩,
    ?_, ?_, ?_, ?_, ?_, ?_, ?_, ?_, ?_, ?_, ?_⟩
  · show Γ.Tiles text entry Leaf _ (m.forest ++ m'.forest).leaves _
    rw [Forest.leaves_append]
    exact h.tiled.append h'.tiled
  · intro hsilent
    obtain ⟨h₁, h₂⟩ := Nat.add_eq_zero_iff.mp hsilent
    exact (h'.silent h₂).trans (h.silent h₁)
  · intro hvisible
    rcases Nat.eq_zero_or_pos m'.visibleLeaves with hzero | hpos
    · rw [show (m.append m').stop.lastVisible = m.stop.lastVisible from h'.silent hzero]
      refine h.visible ?_
      have : 0 < m.visibleLeaves + m'.visibleLeaves := hvisible
      omega
    · exact Nat.le_trans h.cursor_le (h'.visible hpos)
  · intro hnil
    obtain ⟨h₁, h₂⟩ := Forest.append_eq_nil.mp hnil
    show m.visibleLeaves + m'.visibleLeaves = 0
    rw [h.bare h₁, h'.bare h₂]
  all_goals rw [hspots]
  · intro s hs
    rcases List.mem_append.mp hs with hs | hs
    · obtain ⟨hb, he⟩ := h.before s hs
      exact ⟨Nat.le_trans hb hcursor, Nat.le_trans he hcursor⟩
    · exact h'.before s hs
  · intro s hs
    rcases List.mem_append.mp hs with hs | hs
    · exact h.behind s hs
    · obtain ⟨hb, he⟩ := h'.behind s hs
      exact ⟨fun hleaf => Nat.le_trans h.cursor_le (hb hleaf),
        fun hle => Nat.le_trans h.cursor_le (he hle)⟩
  · intro s hs
    rcases List.mem_append.mp hs with hs | hs
    · exact h.ends s hs
    · rcases h'.ends s hs with hle | heq
      · exact .inl (Nat.le_trans h.cursor_le hle)
      · rw [heq]
        exact h.stop_lastVisible
  · intro s hs
    exact (List.mem_append.mp hs).elim (h.hiddenLeaf s) (h'.hiddenLeaf s)
  · intro s hs hleaf
    rcases List.mem_append.mp hs with hs | hs
    · rcases Nat.eq_zero_or_pos m'.visibleLeaves with hzero | hpos
      · rw [show (m.append m').stop.lastVisible = m.stop.lastVisible from h'.silent hzero]
        exact h.split s hs hleaf
      · exact .inl (Nat.le_trans (h.before s hs).2 (h'.visible hpos))
    · exact h'.split s hs hleaf
  · refine List.pairwise_append.mpr ⟨h.within, h'.within, fun node hnode leaf hmem hleaf => ?_⟩
    have hbegin := (h'.behind leaf hmem).1 hleaf
    obtain ⟨hb, he⟩ := h.before node hnode
    exact ⟨Nat.le_trans hb hbegin, .inr (Nat.le_trans he hbegin)⟩
  · refine List.pairwise_append.mpr ⟨h.past, h'.past, fun leaf hmem node hnode hleaf => ?_⟩
    -- A node of the second match ends in it, or where the last visible leaf before it does.
    rcases h'.ends node hnode with hle | heq
    · exact .inl (Nat.le_trans (h.before leaf hmem).2 hle)
    · rw [heq]
      exact h.split leaf hmem hleaf
  · intro hordered
    have hordered' : ∀ s ∈ spots m'.forest, s.begin ≤ s.end :=
      fun s hs => hordered s (List.mem_append_right _ hs)
    refine List.pairwise_append.mpr ⟨h.after fun s hs => hordered s (List.mem_append_left _ hs),
      h'.after hordered', fun leaf hmem node hnode _ => ?_⟩
    have he := (h.before leaf hmem).2
    exact ⟨Nat.le_trans he ((h'.behind node hnode).2 (hordered' node hnode)),
      fun hleaf => Nat.le_trans he ((h'.behind node hnode).1 hleaf)⟩

theorem node {checkpoint : ℕ} {element : GrammarElement} (hpos : pos.lastVisible ≤ pos.cursor)
    (h : m.Placed Γ text entry Leaf pos) (hle : checkpoint ≤ pos.cursor)
    (hv : checkpoint = pos.cursor ∨ 0 < m.visibleLeaves) :
    (Match.node pos checkpoint element m).Placed Γ text entry Leaf pos := by
  have hspots : spots (Match.node pos checkpoint element m).forest
      = ⟨checkpoint, m.stop.lastVisible, (m.forest.headId 0 none).isNone, false⟩ ::
        spots m.forest := by
    show _ :: (_ ++ []) = _
    rw [List.append_nil]
  have hcursor := h.cursor_le
  -- A node without children begins where its match does.
  have hchildless : (m.forest.headId 0 none).isNone = true →
      m.forest = .nil ∧ checkpoint = pos.cursor := by
    intro hnone
    have hnil : m.forest = .nil := by
      cases hforest : m.forest with
      | nil => rfl
      | cons l c r =>
        rw [hforest] at hnone
        cases hnone
    have hsilent := h.bare hnil
    exact ⟨hnil, hv.resolve_right (by omega)⟩
  have hlastCursor : checkpoint ≤ m.stop.lastVisible → pos.cursor ≤ m.stop.lastVisible := by
    intro hcheck
    rcases hv with rfl | hv
    · exact hcheck
    · exact h.visible hv
  refine ⟨?_, hcursor, h.lastVisible_le, h.silent, h.visible, fun hnil => (by cases hnil),
    ?_, ?_, ?_, ?_, ?_, ?_, ?_, ?_⟩
  · have htiled := h.tiled
    show Γ.Tiles text entry Leaf pos.cursor (Forest.orSelf _ m.forest.leaves m.forest ++ [])
      m.stop.cursor
    rw [List.append_nil]
    cases hforest : m.forest with
    | nil =>
      have hcheck : checkpoint = pos.cursor := (hchildless (by rw [hforest]; rfl)).2
      have hlast : m.stop.lastVisible = pos.lastVisible := h.silent (h.bare hforest)
      rw [hforest] at htiled
      refine .leaf (hcheck ▸ .refl) ⟨fun hhidden => (by cases hhidden), fun _ hlt => ?_⟩ ?_
      · have : checkpoint < m.stop.lastVisible := hlt
        omega
      · show Γ.Tiles text entry Leaf (max checkpoint m.stop.lastVisible) [] m.stop.cursor
        rw [Nat.max_eq_left (by omega), hcheck]
        exact htiled
    | cons l c r =>
      rw [hforest] at htiled
      exact htiled
  all_goals rw [hspots]
  · refine List.forall_mem_cons.mpr ⟨⟨Nat.le_trans hle hcursor, h.lastVisible_le.2⟩, h.before⟩
  · refine List.forall_mem_cons.mpr ⟨⟨fun hleaf => ?_, hlastCursor⟩, h.behind⟩
    exact Nat.le_of_eq (hchildless hleaf).2.symm
  · exact List.forall_mem_cons.mpr ⟨h.stop_lastVisible, h.ends⟩
  · exact List.forall_mem_cons.mpr ⟨fun hhidden => (by cases hhidden), h.hiddenLeaf⟩
  · exact List.forall_mem_cons.mpr ⟨fun _ => .inl (Nat.le_refl _), h.split⟩
  · refine List.pairwise_cons.mpr ⟨fun leaf hmem hleaf => ?_, h.within⟩
    exact ⟨Nat.le_trans hle ((h.behind leaf hmem).1 hleaf), h.split leaf hmem hleaf⟩
  · refine List.pairwise_cons.mpr ⟨fun node hnode hleaf => ?_, h.past⟩
    rw [(hchildless hleaf).1] at hnode
    cases hnode
  · intro hordered
    refine List.pairwise_cons.mpr ⟨fun node hnode hleaf => ?_,
      h.after fun s hs => hordered s (List.mem_cons_of_mem _ hs)⟩
    rw [(hchildless hleaf).1] at hnode
    cases hnode

theorem rebind {Inner : GrammarElement → Expr → Prop} {element : GrammarElement}
    (h : m.Placed Γ text entry Inner pos)
    (kept : ∀ {first terminal}, Inner first terminal → Leaf first terminal)
    (bound : ∀ {first terminal}, Inner first terminal → Leaf element terminal) :
    (Match.rebind element m).Placed Γ text entry Leaf pos := by
  have hspots : spots (Match.rebind element m).forest = spots m.forest := spots_rebind element _
  have hkept : ∀ {leaf}, Γ.Explains text entry Inner leaf → Γ.Explains text entry Leaf leaf :=
    fun hleaf => ⟨hleaf.hidden, fun hvisible hlt =>
      let ⟨n, terminal, hterminal, hmatch⟩ := hleaf.visible hvisible hlt
      ⟨n, terminal, kept hterminal, hmatch⟩⟩
  refine ⟨?_, h.cursor_le, h.lastVisible_le, h.silent, h.visible, ?_, ?_, ?_, ?_, ?_, ?_, ?_, ?_,
    ?_⟩
  · have htiled := h.tiled
    show Γ.Tiles text entry Leaf pos.cursor (m.forest.modifyHead _).leaves m.stop.cursor
    cases hforest : m.forest with
    | nil =>
      rw [hforest] at htiled
      exact htiled.mono hkept
    | cons l c r =>
      rw [hforest] at htiled
      cases c with
      | nil =>
        -- The first node is a leaf, and has the new element.
        refine @Tiled.head _ _ _ _ _ _ _ l _ htiled rfl rfl (fun hleaf => ⟨hleaf.hidden, ?_⟩) hkept
        intro hvisible hlt
        obtain ⟨n, terminal, hterminal, hmatch⟩ := hleaf.visible hvisible hlt
        exact ⟨n, terminal, bound hterminal, hmatch⟩
      | cons l' c' r' => exact htiled.mono hkept
  · intro hnil
    refine h.bare ?_
    cases hforest : m.forest with
    | nil => rfl
    | cons l c r =>
      rw [Match.rebind, hforest] at hnil
      cases hnil
  all_goals rw [hspots]
  · exact h.before
  · exact h.behind
  · exact h.ends
  · exact h.hiddenLeaf
  · exact h.split
  · exact h.within
  · exact h.past
  · exact h.after

/-- **No node stops within a leaf**, whichever comes first. -/
theorem apart (h : m.Placed Γ text entry Leaf pos) :
    ∀ node ∈ spots m.forest, ∀ leaf ∈ spots m.forest, leaf.isLeaf = true →
      leaf.end ≤ node.end ∨ node.end ≤ leaf.begin := by
  let Apart (s s' : Spot) : Prop := (s'.isLeaf = true → s'.end ≤ s.end ∨ s.end ≤ s'.begin) ∧
    (s.isLeaf = true → s.end ≤ s'.end ∨ s'.end ≤ s.begin)
  have : Std.Symm Apart := ⟨fun _ _ h => h.symm⟩
  have hself : ∀ s ∈ spots m.forest, Apart s s :=
    fun _ _ => ⟨fun _ => .inl (Nat.le_refl _), fun _ => .inl (Nat.le_refl _)⟩
  have hboth : (spots m.forest).Pairwise Apart :=
    h.within.imp₂ (fun _ _ hwithin hpast => ⟨fun hleaf => (hwithin hleaf).2, hpast⟩) h.past
  exact fun node hnode leaf hleaf => (hboth.forall_of_forall hself hnode hleaf).1

end Match.Placed

/-- **Every match of a parse is placed**, by induction on how it is built. -/
theorem Match.Built.placed (h : m.Built Γ text entry Leaf pos) (hΓ : Γ.WellFormed)
    (hpos : pos.lastVisible ≤ pos.cursor) : m.Placed Γ text entry Leaf pos := by
  induction h with
  | nil => exact .nil hpos
  | leaf token => exact .leaf hpos token
  | hidden trivia => exact .hidden hΓ hpos trivia
  | append _ _ ih ih' => exact (ih hpos).append (ih' (ih hpos).lastVisible_le.2)
  | node _ _ hle hv ih => exact .node hpos (ih hpos) hle hv
  | rebind _ kept bound ih => exact (ih hpos).rebind kept bound

/-! ### The CST of a parse -/

/-- The CST that a successful parse leaves, with its nodes placed. -/
theorem placed_runStrictParse (hΓ : Γ.WellFormed) {n : ℕ} {tracked : Bool}
    (hentry : entry.WellFormed Γ) {entryRule : ℕ} {ctx : ParseContext}
    (h : runStrictParse Γ text n tracked entry entryRule = some (true, ctx)) :
    ∃ m, pegRun Γ text n tracked entry entryRule = some (some m) ∧
      (ctx.builder.toRoot text).read = some (numbered 0 m.forest) ∧
      m.Placed Γ text entry (Γ.Makes (.parserRule entryRule)) ⟨0, 0⟩ ∧ ctx.cursor = m.stop.cursor ∧
        ctx.cursor ≤ text.length := by
  obtain ⟨m, hm, rfl⟩ := runStrictParse_eq h
  have hbuilt := built_pegRun hΓ hentry hm
  have hstart : (⟨0, 0⟩ : Position).Valid text := ⟨Nat.le_refl 0, Nat.zero_le _⟩
  have hdepth : (TreeBuilder.empty.append m.forest).depth = 0 := rfl
  exact ⟨m, hm, read_toCstBuilder text hdepth, hbuilt.placed hΓ (Nat.le_refl 0), rfl,
    (hbuilt.valid hΓ hstart).le_length⟩

/-- **A successful parse accounts for every byte up to its cursor**: the childless nodes of
its CST tile the text, and no node of the CST stops within one of them. -/
theorem parse_covers_text (hΓ : Γ.WellFormed) {n : ℕ} {tracked : Bool}
    (hentry : entry.WellFormed Γ) {entryRule : ℕ} {ctx : ParseContext}
    (h : runStrictParse Γ text n tracked entry entryRule = some (true, ctx)) :
    ∃ t, (ctx.builder.toRoot text).read = some t ∧ ctx.cursor ≤ text.length ∧
      Γ.Tiles text entry (Γ.Makes (.parserRule entryRule)) 0 (t.leaves.map CstItem.label)
        ctx.cursor ∧
      ∀ node ∈ t.preorder, ∀ leaf ∈ t.leaves,
        leaf.end ≤ node.end ∨ node.end ≤ leaf.begin := by
  obtain ⟨m, -, hread, hplaced, hcursor, hlength⟩ := placed_runStrictParse hΓ hentry h
  refine ⟨_, hread, hlength, ?_, fun node hnode leaf hleaf => ?_⟩
  · rw [← Forest.leaves_map, map_label_numbered, hcursor]
    exact hplaced.tiled
  · rw [leaves_numbered] at hleaf
    obtain ⟨hmem, hleaf⟩ := List.mem_filter.mp hleaf
    have hspot : ∀ {item}, item ∈ (numbered 0 m.forest).preorder →
        CstItem.spot item ∈ spots m.forest := by
      intro item hitem
      rw [← spots_numbered 0]
      exact List.mem_map_of_mem hitem
    exact hplaced.apart _ (hspot hnode) _ (hspot hmem) hleaf

/-- The text ` #x ` with comments hidden and blanks ignored. -/
theorem parse_covers_text_comment :
    ∃ ctx t, runStrictParse (.sample (.literal 0 [120] true) false) [32, 35, 120, 32] 4 false
        commentSkipper 0 = some (true, ctx) ∧
      (ctx.builder.toRoot [32, 35, 120, 32]).read = some t ∧
      t.leaves.map CstItem.label
        = [⟨1, 2, .expression 1, true, false⟩, ⟨2, 3, .expression 0, false, false⟩] ∧
      (Grammar.sample (.literal 0 [120] true) false).Tiles [32, 35, 120, 32] commentSkipper
        ((Grammar.sample (.literal 0 [120] true) false).Makes (.parserRule 0)) 0
        [⟨1, 2, .expression 1, true, false⟩, ⟨2, 3, .expression 0, false, false⟩] 4 := by
  have hΓ : (Grammar.sample (.literal 0 [120] true) false).WellFormed :=
    Grammar.sample_wellFormed (Expr.literal_wellFormed (by decide)) (by simp [Expr.nullable])
  obtain ⟨t, hread, -, htiles, -⟩ := @parse_covers_text _ [32, 35, 120, 32] _ hΓ 4 false
    commentSkipper_wellFormed 0 _ rfl
  have hleaves : t.leaves.map CstItem.label
      = [⟨1, 2, .expression 1, true, false⟩, ⟨2, 3, .expression 0, false, false⟩] := by
    cases hread
    rfl
  rw [hleaves] at htiles
  exact ⟨_, t, rfl, hread, hleaves, htiles⟩

end Pegium
