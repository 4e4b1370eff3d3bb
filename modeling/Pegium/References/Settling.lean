/-
Pegium/References/Settling.lean

References come to the same, whoever resolves them.

The calls of a thread are in a state that fits the reference they are for
(`FrameFits`), and so are the fields of a reference (`CellFits`).  A step changes
the target of a reference only when the call that goes on has the resolver role of
it; everything else that is relied on stays (`Grows`).
-/
import Pegium.References.Comes
import Pegium.References.Deadlock

namespace Pegium

variable {R V : Type} [DecidableEq R]

namespace ResolutionState

variable (linker : R → Option (Resolution R V)) (s : ResolutionState R V)

/-! ### What fits -/

/-- A call fits what its reference comes to, and what was done for it. -/
def FrameFits (t : ℕ) (frame : ResolutionFrame R V) : Prop :=
  match frame.phase with
  | .own | .awaiting _ => (s.cells frame.reference).target = none
  | .resolving resolution => (s.cells frame.reference).target = none ∧
    ∀ o, Settles linker frame.reference o → resolution.Comes linker o
  | .writing target => ∀ o, Settles linker frame.reference o → o = ⟨.resolved, some target, none⟩
  | .failing thrown => (t, frame.reference) ∈ s.threw ∧
    ∀ o, Settles linker frame.reference o → o = ⟨.errorException, none, some thrown⟩
  | .disown state thrown | .store state thrown =>
    (state ≠ .resolved → (s.cells frame.reference).target = none) ∧
    (thrown.isSome → (t, frame.reference) ∈ s.threw) ∧
    (state = .unresolved → 0 < s.retries frame.reference) ∧
    ∀ o, Settles linker frame.reference o → o = ⟨state, (s.cells frame.reference).target, thrown⟩
  | .notify thrown => s.published frame.reference ≠ none ∧
    (thrown.isSome → (t, frame.reference) ∈ s.threw) ∧
    ∀ o, Settles linker frame.reference o → o.thrown = thrown
  | .reading none => s.published frame.reference ≠ none
  | .reading (some state) =>
    (s.cells frame.reference).state = state ∧ state.terminal = true
  | _ => True

/-- The fields of a reference fit what it comes to, and what was published. -/
structure CellFits (r : R) : Prop where
  blank : (s.cells r).state = .unresolved → (s.cells r).target = none
  published : (s.cells r).state.terminal = true → s.published r = some (s.cells r).reading
  settled : ∀ o, Settles linker r o → (s.cells r).state.terminal = true →
    (s.cells r).state = o.state ∧ (s.cells r).target = o.target
  retried : ∀ o, Settles linker r o → o.state = .unresolved → (s.cells r).target = none
  reopened : ∀ o, Settles linker r o → s.published r ≠ none → (s.cells r).state.terminal = false →
    o.state = .unresolved
  again : s.published r ≠ none → (s.cells r).state.terminal = false → 0 < s.retries r

/-- The calls below a call for `r` come to what they do by way of what `r` comes to. -/
def Awaited (r : R) : List (ResolutionFrame R V) → Prop
  | ⟨r₀, .awaiting k⟩ :: rest =>
    (∀ o, Settles linker r₀ o →
      ∃ o', Settles linker r o' ∧ o'.thrown = none ∧ (k o'.reading).Comes linker o) ∧
    Awaited r₀ rest
  | _ => True

/-- The same for the calls of a thread. -/
def Awaits : List (ResolutionFrame R V) → Prop
  | ⟨r, _⟩ :: rest => Awaited linker r rest
  | [] => True

/-- What a step leaves as it is: the targets, but for the one of a reference that is being resolved
by the call that goes on, terminal states, and what was recorded. -/
structure Grows (s s' : ResolutionState R V) (r : R) (holds : Bool) : Prop where
  target : ∀ r', (r' = r → holds = false) → (s'.cells r').target = (s.cells r').target
  terminal : ∀ r', (s.cells r').state.terminal = true → (s'.cells r').state = (s.cells r').state
  published : ∀ r', s.published r' ≠ none → s'.published r' ≠ none
  threw : ∀ entry ∈ s.threw, entry ∈ s'.threw
  retries : ∀ r', s.retries r' ≤ s'.retries r'

variable {linker s} {s' : ResolutionState R V}

omit [DecidableEq R] in
theorem FrameFits.grows {t : ℕ} {frame : ResolutionFrame R V} {r : R} {holds : Bool}
    (h : s.FrameFits linker t frame) (hg : Grows s s' r holds)
    (hother : frame.phase.holds = true → frame.reference = r → holds = false) :
    s'.FrameFits linker t frame := by
  obtain ⟨r', phase⟩ := frame
  have htarget := hg.target r'
  have hterminal := hg.terminal r'
  have hpublished := hg.published r'
  have hthrew := hg.threw (t, r')
  have hretries := hg.retries r'
  unfold FrameFits at h ⊢
  cases phase with
  | reading told => cases told <;> grind
  | _ => grind [ResolutionPhase.holds]

/-- The calls of every thread fit. -/
def Fits (linker : R → Option (Resolution R V)) (s : ResolutionState R V) : Prop :=
  ∀ t stack, s.threads[t]? = some stack → ∀ frame ∈ stack, s.FrameFits linker t frame

namespace Fits

variable {t : ℕ} {r : R} {phase : ResolutionPhase R V} {rest stack' : List (ResolutionFrame R V)}

theorem set (h : s.Fits linker) (hheld : s.Held)
    (ht : s.threads[t]? = some (⟨r, phase⟩ :: rest))
    (hthreads : s'.threads = s.threads.set t stack') (hg : Grows s s' r phase.holds)
    (hnew : ∀ frame ∈ stack', frame ∈ rest ∨ s'.FrameFits linker t frame) : s'.Fits linker := by
  intro t' stack ht' frame hmem
  rw [hthreads, List.getElem?_set] at ht'
  by_cases heq : t = t'
  · subst heq
    rw [if_pos rfl, if_pos (List.getElem?_eq_some_iff.mp ht).1] at ht'
    cases ht'
    refine (hnew frame hmem).elim (fun hrest => ?_) id
    refine (h t _ ht frame (.tail _ hrest)).grows hg fun hholds href => ?_
    -- Two calls of one thread do not both have the role.
    have honce := hheld.once ht r
    have hpos : 0 < tally ResolutionPhase.holds r rest :=
      List.countP_pos_iff.mpr ⟨frame, hrest, by simp [href, hholds]⟩
    grind
  · rw [if_neg heq] at ht'
    refine (h t' stack ht' frame hmem).grows hg fun hholds href => ?_
    have hpos : 0 < tally ResolutionPhase.holds r stack :=
      List.countP_pos_iff.mpr ⟨frame, hmem, by simp [href, hholds]⟩
    have := fun hp => hheld.alone ht ht' (Ne.symm heq) (tally_pos hp)
    grind

theorem notifyAll (h : s.Fits linker) (r : R) : (s.notifyAll r).Fits linker := by
  intro t stack ht frame hmem
  rw [notifyAll_stack] at ht
  split at ht
  · obtain ⟨stack', ht', rfl⟩ := Option.map_eq_some_iff.mp ht
    rcases stack' with - | ⟨⟨r', phase⟩, rest⟩
    · cases hmem
    · by_cases heq : r' = r
      · rw [wakeStack, if_pos heq] at hmem
        rcases List.mem_cons.mp hmem with rfl | hmem
        · have := h t _ ht' _ List.mem_cons_self
          cases phase <;> exact this
        · exact h t _ ht' frame (.tail _ hmem)
      · rw [wakeStack, if_neg heq] at hmem
        exact h t _ ht' frame hmem
  · exact h t stack ht frame hmem

end Fits

omit [DecidableEq R] in
theorem fits_seen (t : ℕ) (r : R) : s.FrameFits linker t ⟨r, seen (s.cells r).state⟩ := by
  cases h : (s.cells r).state <;> simp_all [FrameFits, seen, ReferenceState.terminal]

omit [DecidableEq R] in
/-- A caller reads what the reference comes to. -/
theorem CellFits.reading {t : ℕ} {r : R} {told : Option ReferenceState} {o : ResolutionOutcome V}
    (h : s.CellFits linker r) (ho : Settles linker r o)
    (hframe : s.FrameFits linker t ⟨r, .reading told⟩) : (s.cells r).reading = o.reading := by
  have hsettled := h.settled o ho
  have hretried := h.retried o ho
  have hopen := h.reopened o ho
  have htarget := ho.target_eq_none
  unfold ReferenceCell.reading ResolutionOutcome.reading
  cases told <;> grind [FrameFits, ReferenceState.terminal]

/-- What holds of every state that is reached. -/
structure Settling (linker : R → Option (Resolution R V)) (s : ResolutionState R V) : Prop where
  roles : s.Roles linker
  fits : s.Fits linker
  cells : ∀ r, s.CellFits linker r
  awaits : ∀ stack ∈ s.threads, Awaits linker stack

theorem Settling.fits_move (h : s.Settling linker) (acyclic : ∀ r, ¬ Forces linker r r)
    {e : ResolutionEvent R} (hm : s.Move linker e s') : s'.Fits linker := by
  have hheld := h.roles.held
  have hframe : ∀ {t r phase rest}, s.threads[t]? = some (⟨r, phase⟩ :: rest) →
      s.FrameFits linker t ⟨r, phase⟩ := fun ht => h.fits _ _ ht _ List.mem_cons_self
  have hbelow : ∀ {t frame r phase rest}, s.threads[t]? = some (frame :: ⟨r, phase⟩ :: rest) →
      s.FrameFits linker t ⟨r, phase⟩ := fun ht => h.fits _ _ ht _ (.tail _ List.mem_cons_self)
  cases hm with
  | @get t r ht =>
    intro t' stack ht' frame hmem
    have ht' : (s.threads.set t [⟨r, .load⟩])[t']? = some stack := ht'
    rw [List.getElem?_set] at ht'
    split at ht'
    · split at ht'
      · cases ht'
        cases List.mem_singleton.mp hmem
        trivial
      · cases ht'
    · exact h.fits t' stack ht' frame hmem
  | clear idle =>
    intro t stack ht frame hmem
    rw [eq_nil_of_idle idle (List.mem_of_getElem? ht)] at hmem
    cases hmem
  | load ht | lose ht taken =>
    refine h.fits.set hheld ht rfl ⟨fun _ _ => rfl, fun _ _ => rfl, fun _ => id, fun _ => id,
      fun _ => le_rfl⟩ ?_
    intro frame hmem
    rcases List.mem_cons.mp hmem with rfl | hmem
    · exact .inr (fits_seen _ _)
    · exact .inl hmem
  | acquire ht free =>
    have := (h.cells _).blank free
    refine h.fits.set hheld ht rfl ?_ ?_
    · constructor <;> grind [ReferenceState.terminal, ResolutionPhase.holds]
    · grind [FrameFits]
  | enqueue ht other | addWaiter ht | sleep ht | pass ht | removeWaiter ht =>
    refine h.fits.set hheld ht rfl ?_ ?_
    · constructor <;> grind [ReferenceState.terminal, ResolutionPhase.holds]
    · grind [FrameFits]
  | ownUnlinked ht hr =>
    have hframe := hframe ht
    refine h.fits.set hheld ht rfl ?_ ?_
    · constructor <;> grind [ReferenceState.terminal, ResolutionPhase.holds]
    · grind [FrameFits, settles_of_none, ResolutionOutcome.unlinked]
  | own ht hr =>
    have hframe := hframe ht
    refine h.fits.set hheld ht rfl ?_ ?_
    · constructor <;> grind [ReferenceState.terminal, ResolutionPhase.holds]
    · grind [FrameFits, settles_of_some]
  | ask ht =>
    have hframe := hframe ht
    refine h.fits.set hheld ht rfl ?_ ?_
    · constructor <;> grind [ReferenceState.terminal, ResolutionPhase.holds]
    · grind [FrameFits]
  | link ht | refuse ht | throw ht =>
    have hframe := hframe ht
    refine h.fits.set hheld ht rfl ?_ ?_
    · constructor <;> grind [ReferenceState.terminal, ResolutionPhase.holds]
    · grind [FrameFits, Resolution.Comes]
  | write ht | fail ht | disown ht =>
    have hframe := hframe ht
    refine h.fits.set hheld ht rfl ?_ ?_
    · constructor <;> grind [ReferenceState.terminal, ResolutionPhase.holds]
    · grind [FrameFits]
  | store ht =>
    have hframe := hframe ht
    have hresolving := hheld.resolving ht (tally_pos rfl)
    refine h.fits.set hheld ht rfl ?_ ?_
    · constructor <;> grind [ReferenceState.terminal, ResolutionPhase.holds]
    · grind [FrameFits]
  | notify ht | escape ht =>
    have hframe := hframe ht
    refine (h.fits.notifyAll _).set (hheld.notifyAll _) (notifyAll_self ht) rfl ?_ ?_
    · constructor <;> grind [ReferenceState.terminal, ResolutionPhase.holds]
    · grind [FrameFits]
  | fallThrough ht | cancelThrough ht =>
    have hframe := hframe ht
    have hbelow := hbelow ht
    have hawaits := h.awaits _ (List.mem_of_getElem? ht)
    refine (h.fits.notifyAll _).set (hheld.notifyAll _) (notifyAll_self ht) rfl ?_ ?_
    · constructor <;> grind [ReferenceState.terminal, ResolutionPhase.holds]
    · grind [FrameFits, Awaits, Awaited]
  | finish ht =>
    refine h.fits.set hheld ht rfl ?_ ?_
    · constructor <;> grind [ReferenceState.terminal, ResolutionPhase.holds]
    · grind [FrameFits]
  | answer ht =>
    have hread := fun o (ho : Settles linker _ o) => (h.cells _).reading ho (hframe ht)
    have hbelow := hbelow ht
    have hawaits := h.awaits _ (List.mem_of_getElem? ht)
    refine h.fits.set hheld ht rfl ?_ ?_
    · constructor <;> grind [ReferenceState.terminal, ResolutionPhase.holds]
    · grind [FrameFits, Awaits, Awaited]
  | closeCycle ht own => exact absurd (h.roles.forces_self ht own) (acyclic _)
  | @wake t r phase rest ht =>
    have hframe := hframe ht
    refine h.fits.set hheld ht rfl ⟨fun _ _ => rfl, fun _ _ => rfl, fun _ => id, fun _ => id,
      fun _ => le_rfl⟩ ?_
    intro frame hmem
    rcases List.mem_cons.mp hmem with rfl | hmem
    · right
      cases phase <;> exact hframe
    · exact .inl hmem

omit [DecidableEq R] in
theorem CellFits.of_eq {r : R} (h : s.CellFits linker r) (hcell : s'.cells r = s.cells r)
    (hpublished : s'.published r = s.published r) (hretries : s'.retries r = s.retries r) :
    s'.CellFits linker r := by
  obtain ⟨blank, published, settled, retried, reopened, again⟩ := h
  constructor <;> simpa only [hcell, hpublished, hretries]

omit [DecidableEq R] in
/-- Only the state, the target and what was published count; a reference may be retried. -/
theorem CellFits.congr {r : R} (h : s.CellFits linker r)
    (hstate : (s'.cells r).state = (s.cells r).state)
    (htarget : (s'.cells r).target = (s.cells r).target)
    (hpublished : s'.published r = s.published r) (hretries : s.retries r ≤ s'.retries r) :
    s'.CellFits linker r := by
  obtain ⟨blank, published, settled, retried, reopened, again⟩ := h
  have hreading : (s'.cells r).reading = (s.cells r).reading := by
    rw [ReferenceCell.reading, ReferenceCell.reading, hstate, htarget]
  constructor <;> simp only [hstate, htarget, hpublished, hreading]
  · exact blank
  · exact published
  · exact settled
  · exact retried
  · exact reopened
  · exact fun hp ht => Nat.lt_of_lt_of_le (again hp ht) hretries

/-- The fields of a reference change, but not its state and its target. -/
theorem CellFits.putCell {r r' : R} {cell : ReferenceCell V} (h : s.CellFits linker r')
    (hcells : s'.cells = (s.putCell r cell).cells) (hpublished : s'.published = s.published)
    (hretries : s'.retries = s.retries) (hstate : cell.state = (s.cells r).state)
    (htarget : cell.target = (s.cells r).target) : s'.CellFits linker r' := by
  have hcell : (s'.cells r').state = (s.cells r').state ∧
      (s'.cells r').target = (s.cells r').target := by
    rw [hcells, putCell_cells]
    split
    next heq =>
      subst heq
      exact ⟨hstate, htarget⟩
    next => exact ⟨rfl, rfl⟩
  exact h.congr hcell.1 hcell.2 (by rw [hpublished]) (by rw [hretries])

/-- A step changes the fields of a reference only as its resolver does, and those fit again. -/
theorem Settling.cells_move (h : s.Settling linker) {e : ResolutionEvent R}
    (hm : s.Move linker e s') (r' : R) : s'.CellFits linker r' := by
  obtain ⟨blank, published, settled, retried, reopened, again⟩ := h.cells r'
  have hframe : ∀ {t r phase rest}, s.threads[t]? = some (⟨r, phase⟩ :: rest) →
      s.FrameFits linker t ⟨r, phase⟩ := fun ht => h.fits _ _ ht _ List.mem_cons_self
  cases hm with
  | get | load | lose | enqueue | sleep | pass | ask | link | notify | escape | fallThrough
  | cancelThrough | finish | answer | closeCycle | wake => exact (h.cells r').of_eq rfl rfl rfl
  | addWaiter | removeWaiter | ownUnlinked | own | disown =>
    exact (h.cells r').putCell rfl rfl rfl rfl rfl
  | @refuse t r kind =>
    refine (h.cells r').congr rfl rfl rfl ?_
    dsimp only [putStack]
    split
    · by_cases heq : r' = r
      · rw [heq, Function.update_self]
        exact Nat.le_succ _
      · rw [Function.update_of_ne heq]
    · exact Nat.le_refl _
  | acquire => constructor <;> grind [ReferenceState.terminal, ReferenceCell.reading]
  | throw ht =>
    obtain ⟨-, hcomes⟩ : _ ∧ ∀ o, Settles linker _ o → _ := hframe ht
    have hresolving := h.roles.held.resolving ht (tally_pos rfl)
    constructor <;> grind [ReferenceState.terminal, ReferenceCell.reading, Resolution.Comes]
  | write ht | fail ht =>
    have hframe := hframe ht
    have hresolving := h.roles.held.resolving ht (tally_pos rfl)
    unfold FrameFits at hframe
    constructor <;> grind [ReferenceState.terminal, ReferenceCell.reading]
  | @store t r state thrown rest ht =>
    obtain ⟨hblank, -, hagain, hout⟩ := hframe ht
    dsimp only at hblank hagain hout
    have hne := (h.roles.stacked _ (List.mem_of_getElem? ht)).1.1
    by_cases heq : r' = r
    · subst heq
      have hopen : state.terminal = false → state = .unresolved := by
        cases state <;> simp_all [ReferenceState.terminal]
      clear blank published settled retried reopened again
      constructor <;> simp only [putStack_cells, putCell_cells, if_true, Function.update_self]
      · grind
      · exact fun _ => trivial
      · exact fun o ho _ => ⟨(congrArg ResolutionOutcome.state (hout o ho)).symm,
          (congrArg ResolutionOutcome.target (hout o ho)).symm⟩
      · grind
      · grind
      · exact fun _ h => hagain (hopen h)
    · exact (h.cells r').of_eq (by grind) (Function.update_of_ne heq ..) rfl
  | @clear r idle =>
    by_cases heq : r' = r
    · subst heq
      constructor <;> simp [clear, putCell, ReferenceState.terminal]
    · exact (h.cells r').of_eq (by grind) (Function.update_of_ne heq ..)
        (Function.update_of_ne heq ..)

theorem awaits_notifyAll {r : R} (h : ∀ stack ∈ s.threads, Awaits linker stack) :
    ∀ stack ∈ (s.notifyAll r).threads, Awaits linker stack := by
  unfold notifyAll
  intro stack hmem
  dsimp only at hmem
  split at hmem
  · obtain ⟨stack', hmem', rfl⟩ := List.mem_map.mp hmem
    have := h stack' hmem'
    rcases stack' with - | ⟨⟨r', phase⟩, rest⟩
    · trivial
    · by_cases heq : r' = r
      · rwa [wakeStack, if_pos heq]
      · rwa [wakeStack, if_neg heq]
  · exact h stack hmem

theorem Settling.awaits_move (h : s.Settling linker) {e : ResolutionEvent R}
    (hm : s.Move linker e s') : ∀ stack ∈ s'.threads, Awaits linker stack := by
  have hs := fun {t : ℕ} {stack : List (ResolutionFrame R V)} (ht : s.threads[t]? = some stack) =>
    h.awaits stack (List.mem_of_getElem? ht)
  cases hm with
  | get ht | finish ht => exact forall_putStack h.awaits trivial
  | load ht | acquire ht | lose ht | enqueue ht | addWaiter ht | sleep ht | pass ht
  | removeWaiter ht | ownUnlinked ht | own ht | link ht | refuse ht | throw ht | write ht
  | fail ht | disown ht | store ht | wake ht =>
    have := hs ht
    exact forall_putStack h.awaits this
  | closeCycle ht | answer ht => exact forall_putStack h.awaits (hs ht).2
  | ask ht =>
    obtain ⟨-, hcomes⟩ := h.fits _ _ ht _ List.mem_cons_self
    exact forall_putStack h.awaits ⟨fun o ho => (hcomes o ho).asked, hs ht⟩
  | notify ht =>
    have := hs ht
    exact forall_putStack (awaits_notifyAll h.awaits) this
  | escape ht => exact forall_putStack (awaits_notifyAll h.awaits) trivial
  | fallThrough ht | cancelThrough ht =>
    exact forall_putStack (awaits_notifyAll h.awaits) (hs ht).2
  | clear => exact h.awaits

theorem Settling.move (h : s.Settling linker) (acyclic : ∀ r, ¬ Forces linker r r)
    {e : ResolutionEvent R} (hm : s.Move linker e s') : s'.Settling linker :=
  ⟨h.roles.move hm, h.fits_move acyclic hm, h.cells_move hm, h.awaits_move hm⟩

variable (linker) in
theorem settling_initial (n : ℕ) : (initial n : ResolutionState R V).Settling linker := by
  refine ⟨roles_initial linker n, fun t stack ht frame hmem => ?_, fun r => ?_,
    fun stack hmem => ?_⟩
  · rw [eq_nil_initial (List.mem_of_getElem? ht)] at hmem
    cases hmem
  · constructor <;> simp [initial, ReferenceState.terminal]
  · rw [eq_nil_initial hmem]
    trivial

end ResolutionState

end Pegium
