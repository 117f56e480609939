import SemanticRelaxation.ElasticLpw.Invariant

/-!
# The windows of the elastic LpW queue without interference

`contract` is what the steps of a run are measured by. It assumes that a shift of the get window
skips no sub-queue (`Skipped`), so that its rows are used up, and guarantees that such a shift
leaves no item behind and that no get count passes its put count.

Under that assumption both window functions return and keep the invariant (`putWindow_spec`,
`getWindow_spec`). What `get_window` finds is described by the put count it compares with
(`putBound`): this is not always the put count of the sub-queue.
-/

namespace ElasticLpw

open AtomicProg Linked TwoD

variable {set : Params} {g : Ghost} {s s₀ s' : State} {C : Contract State}

/-- What `create_queue` guarantees of the stored parameters, as far as no C type overflows. -/
structure Params.WF (set : Params) : Prop where
  width_lt : set.maxWidth < 2 ^ 16
  hops_lt : set.randomHops < 2 ^ 16

theorem Params.WF.fits (hp : set.WF) {width : ℕ} (hw : 1 ≤ width ∧ width ≤ set.maxWidth) :
    Fits types set.randomHops width :=
  .of_lt hw.1 (hw.2.trans_lt hp.width_lt) hp.hops_lt rfl rfl

/-! ### The contract -/

/-- `get_window` takes sub-queue `j` for empty, but its rows of the get window are not used up: its
get count is the bottom of the put window, or it is empty above that bottom. -/
def Skipped (s : State) (j : ℕ) : Prop :=
  (s.getArray j).count < s.globalGWindow.max ∧
    ((s.getArray j).count = s.globalPWindow.bottom ∨ s.globalPWindow.bottom < (s.getArray j).count ∧
      (s.putArray j).count ≤ (s.getArray j).count)

/-- Every sub-queue of the get window has been emptied up to its maximum. -/
def UsedUp (s : State) : Prop :=
  ∀ j < s.globalGWindow.width, s.globalGWindow.max ≤ (s.getArray j).count

/-- No item is left in a row of the get window or below it. -/
def NoneBehind (s : State) : Prop := ∀ x ∈ s.nodes.hist.present, s.globalGWindow.max < x.tag

/-- No get count exceeds the put count of its sub-queue. -/
def GetLePut (set : Params) (s : State) : Prop :=
  ∀ j < set.maxWidth, (s.getArray j).count ≤ (s.putArray j).count

/-- A shift of the get window skips no sub-queue; then it leaves nothing behind, and whenever a
descriptor changes no get count passes its put count. -/
def contract (set : Params) : Contract State where
  assume s s' := s'.globalGWindow ≠ s.globalGWindow → ∀ j < s.globalGWindow.width, ¬ Skipped s j
  guarantee s s' := (s'.globalGWindow ≠ s.globalGWindow → NoneBehind s) ∧
    (s'.getArray ≠ s.getArray ∨ s'.putArray ≠ s.putArray → GetLePut set s')
  assume_refl _ h := absurd rfl h
  guarantee_refl _ := ⟨fun h => absurd rfl h, fun h => by simp at h⟩

theorem guarantee_frame (hg : s'.globalGWindow = s.globalGWindow) (hget : s'.getArray = s.getArray)
    (hput : s'.putArray = s.putArray) : (contract set).guarantee s s' := by
  refine ⟨fun h => absurd hg h, fun h => ?_⟩
  rcases h with h | h
  · exact absurd hget h
  · exact absurd hput h

theorem guarantee_array (hg : s'.globalGWindow = s.globalGWindow) (hle : GetLePut set s') :
    (contract set).guarantee s s' :=
  ⟨fun h => absurd hg h, fun _ => hle⟩

/-- A window whose rows are used up leaves no item behind. -/
theorem Inv.noneBehind (h : Inv set g s) (hu : UsedUp s) : NoneBehind s := by
  intro x hx
  by_contra hge
  have h₁ := hu _ (h.idx_lt_gWidth hx (not_lt.1 hge))
  have h₂ := (h.row_present' hx).2.2.2.2
  omega

/-! ### What threads remember -/

/-- The windows of `s'` are those of `s`, or have moved up. -/
structure Grows (s s' : State) : Prop where
  put_le : s.globalPWindow.max ≤ s'.globalPWindow.max
  put_eq : s'.globalPWindow.max = s.globalPWindow.max → s'.globalPWindow = s.globalPWindow
  get_le : s.globalGWindow.max ≤ s'.globalGWindow.max
  get_eq : s'.globalGWindow.max = s.globalGWindow.max → s'.globalGWindow = s.globalGWindow

namespace Grows

theorem of_eq (hp : s'.globalPWindow = s.globalPWindow) (hg : s'.globalGWindow = s.globalGWindow) :
    Grows s s' := by
  refine ⟨?_, fun _ => hp, ?_, fun _ => hg⟩
  · rw [hp]
  · rw [hg]

theorem trans (h : Grows s₀ s) (h' : Grows s s') : Grows s₀ s' where
  put_le := h.put_le.trans h'.put_le
  put_eq he := by
    have h₁ := h.put_le
    have h₂ := h'.put_le
    exact (h'.put_eq (by omega)).trans (h.put_eq (by omega))
  get_le := h.get_le.trans h'.get_le
  get_eq he := by
    have h₁ := h.get_le
    have h₂ := h'.get_le
    exact (h'.get_eq (by omega)).trans (h.get_eq (by omega))

end Grows

/-- The thread's windows are current, or their first words tell that they are not. -/
structure Local.Ok (l : Local) (s : State) : Prop where
  put_le : l.pWindow.max ≤ s.globalPWindow.max
  put_eq : l.pWindow.max = s.globalPWindow.max → l.pWindow = s.globalPWindow
  get_le : l.gWindow.max ≤ s.globalGWindow.max
  get_eq : l.gWindow.max = s.globalGWindow.max →
    l.gWindow = s.globalGWindow ∧ l.getIndex < s.globalGWindow.width

theorem Local.Ok.mono {l : Local} (h : l.Ok s) (hg : Grows s s') : l.Ok s' where
  put_le := h.put_le.trans hg.put_le
  put_eq he := by
    have heq := hg.put_eq (le_antisymm (he.ge.trans h.put_le) hg.put_le)
    rw [heq] at he ⊢
    exact h.put_eq he
  get_le := h.get_le.trans hg.get_le
  get_eq he := by
    have heq := hg.get_eq (le_antisymm (he.ge.trans h.get_le) hg.get_le)
    rw [heq] at he ⊢
    exact h.get_eq he

/-! ### The parts of the loops -/

theorem readDescriptor_spec {β : Type} {Q : β → State → Prop} {array : State → ℕ → Descriptor}
    {index : ℕ} {k : Descriptor → Prog State β} (h : Total C Q (k (array s index)) s) :
    Total C Q (readDescriptor array index >>= k) s := by
  simp only [readDescriptor, Prog.bind_assoc, Total.read_iff]
  exact h

theorem assert_spec {β : Type} {Q : β → State → Prop} {b : Bool} {k : Unit → Prog State β}
    (hb : b = true) (h : Total C Q (k ()) s) : Total C Q (assert b >>= k) s := by
  subst hb
  exact h

theorem syncIndex_lt {width : ℕ} (hw : 0 < width) (index : ℕ) : syncIndex width index < width := by
  unfold syncIndex
  split <;> omega

theorem startIndex_spec {contention : Bool} {width index : ℕ}
    (hf : Fits types set.randomHops width) :
    Total C (fun i s' => s' = s ∧ i < width) (startIndex contention width index) s := by
  unfold startIndex
  split
  · exact randomIndex_spec hf.modulus
  next h => exact .ret ⟨rfl, not_le.1 fun h' => h (.inr h')⟩

/-- The loops through the lateral queue stop at the last node with a count up to `c`. -/
theorem skip_spec (h : Widths g s) {c k : ℕ} (hk : k ≤ s.lateral.last)
    (hc : (s.lateral.valAt k).count ≤ c) :
    Total C (fun r s' => s' = s ∧ ∃ l ≤ s.lateral.last, r = (s.line[l]?, s.line[l + 1]?) ∧
        (s.lateral.valAt l).count ≤ c ∧
        (l < s.lateral.last → c < (s.lateral.valAt (l + 1)).count))
      (Prog.forever (skipLateral c) (s.line[k]?, s.line[k + 1]?)) s := by
  refine Total.forever_ghost (fun m b s' => s' = s ∧ ∃ l ≤ s.lateral.last,
    b = (s.line[l]?, s.line[l + 1]?) ∧ (s.lateral.valAt l).count ≤ c ∧ m = s.lateral.last - l) ?_
    ⟨rfl, k, hk, rfl, hc, rfl⟩
  rintro _ _ s' ⟨rfl, l, hl, rfl, hcl, rfl⟩
  simp only [skipLateral]
  rcases hl.lt_or_eq with hlt | rfl
  · obtain ⟨n, hn⟩ := h.line_eq_some hlt
    have hsome : s'.line[l + 1]? ≠ none := hn ▸ Option.some_ne_none n
    rw [if_neg hsome]
    simp only [readLateral, readLateralNext, Total.read_iff]
    split
    next hle =>
      rw [Total.read_iff, h.next_line hlt]
      exact .ret ⟨_, by omega, rfl, l + 1, hlt, rfl, hle, rfl⟩
    next hgt => exact .ret ⟨rfl, l, hl, rfl, hcl, fun _ => not_le.1 hgt⟩
  · rw [if_pos h.line_eq_none]
    exact .ret ⟨rfl, _, le_rfl, rfl, hcl, fun hlt => absurd hlt (lt_irrefl _)⟩

/-! ### `put_window` -/

theorem loadPWindow_spec {β : Type} {Q : β → State → Prop} {k : PutWindow → Prog State β}
    (h : Total C Q (k s.globalPWindow) s) :
    Total C Q (loadPWindow s.globalPWindow.max >>= k) s := by
  simp only [loadPWindow, Total.read_iff]
  exact h

theorem syncPWindow_spec (hw : Windows set g s) {w : PutWindow}
    (he : w.max = s.globalPWindow.max → w = s.globalPWindow) :
    Total C (fun w s' => s' = s ∧ w = s.globalPWindow) (syncPWindow w) s := by
  simp only [syncPWindow, readPMax, Total.read_iff]
  split
  · refine loadPWindow_spec (assert_spec (decide_eq_true ?_) (.ret ⟨rfl, rfl⟩))
    have := hw.put_depth.1
    omega
  next h => exact .ret ⟨rfl, he (not_not.1 h)⟩

/-- `maybe_enq_lateral` records a change of width. -/
theorem maybeEnqLateral_spec (h : Widths g s) (hw : Windows set g s) :
    Total (contract set) (fun _ s' => ∃ m t, Recorded s m t ∧
        s' = { s with lateral := m, lateralTail := t })
      (maybeEnqLateral s.globalPWindow.max s.globalPWindow.width s.globalPWindow.nextWidth) s := by
  unfold maybeEnqLateral
  by_cases hne : s.globalPWindow.width ≠ s.globalPWindow.nextWidth
  · have hlt : (s.lateral.valAt s.lateral.last).count < s.globalPWindow.max + 1 := by
      have h₁ := h.last_count
      have h₂ := hw.put_bottom_lt
      omega
    rw [if_pos hne]
    simp only [tryEnqLateral, linkLateral, readLateral, readLateralNext, createLateralNode,
      Total.read_iff, h.tail_val, if_pos hlt, h.tail_next, if_true, Prog.bind_assoc,
      Total.update_iff]
    refine fun _ => ⟨guarantee_frame rfl rfl rfl, ?_⟩
    refine Total.cae_of_eq h.create_next fun _ => ⟨guarantee_frame rfl rfl rfl, ?_⟩
    refine assert_spec rfl (Total.cae_of_eq rfl fun _ => ⟨guarantee_frame rfl rfl rfl, .ret ?_⟩)
    exact ⟨_, _, .change hne, rfl⟩
  · rw [if_neg hne]
    exact .ret ⟨_, _, .same (not_not.1 hne), rfl⟩

/-- A shift of the current put window succeeds. -/
theorem tryShiftPut_spec (h : Widths g s) (hw : Windows set g s) :
    Total (contract set) (fun w s' => w = s.nextPWindow ∧ ∃ m t, Recorded s m t ∧
        s' = { s with lateral := m, lateralTail := t, globalPWindow := s.nextPWindow })
      (tryShiftPut s.globalPWindow) s := by
  simp only [tryShiftPut, readPMax, Total.read_iff, if_true]
  refine Total.bind_of (maybeEnqLateral_spec h hw) ?_
  rintro _ _ ⟨m, t, hlat, rfl⟩
  simp only [Total.read_iff]
  refine Total.cae_of_eq rfl fun _ => ⟨guarantee_frame rfl rfl rfl, .ret ?_⟩
  exact ⟨rfl, m, t, hlat, rfl⟩

/-- Some sub-queue of the put window accepts an item. -/
def CanPut (s : State) : Prop :=
  ∃ j < s.globalPWindow.width, (s.putArray j).count < s.globalPWindow.max

/-- At the head of every round: the thread's window is current, and every index left since the last
random hop is full. -/
structure PutLoop (set : Params) (s₀ : State) (st : Search) (s : State) : Prop where
  inv : ∃ g, Inv set g s
  grows : Grows s₀ s
  nodes_eq : s.nodes = s₀.nodes
  window : st.tl.pWindow = s.globalPWindow
  ok : st.tl.Ok s
  scan : Scan set.randomHops s.globalPWindow.width
    (fun j => s.globalPWindow.max ≤ (s.putArray j).count) st.tl.putIndex st.random st.hops

open Classical in
/-- The rounds left: the hops of this scan, and one scan more after a shift. -/
noncomputable def putMeasure (set : Params) (st : Search) (s : State) : ℕ :=
  hopsLeft set.randomHops s.globalPWindow.width st.random st.hops +
    if CanPut s then 0 else set.maxWidth + 1

/-- What `put_window` returns, for the state before and after: a sub-queue of the put window with
its tail descriptor, below the last row of the window. -/
structure PutPost (set : Params) (s₀ : State) (r : Descriptor × Local) (s : State) : Prop where
  inv : ∃ g, Inv set g s
  grows : Grows s₀ s
  nodes_eq : s.nodes = s₀.nodes
  window : r.2.pWindow = s.globalPWindow
  ok : r.2.Ok s
  index_lt : r.2.putIndex < s.globalPWindow.width
  descriptor : r.1 = s.putArray r.2.putIndex
  count_lt : (s.putArray r.2.putIndex).count < s.globalPWindow.max

theorem putRound_spec (hp : set.WF) {st : Search} (h : PutLoop set s₀ st s) :
    Total (contract set) (fun r s' => Sum.elim
      (fun st' => PutLoop set s₀ st' s' ∧ putMeasure set st' s' < putMeasure set st s)
      (fun a => PutPost set s₀ a s') r) (putRound set st) s := by
  obtain ⟨⟨pWindow, gWindow, putIndex, getIndex⟩, hops, random, notempty⟩ := st
  obtain ⟨⟨g, hi⟩, hgr, hn, hwin, hok, hscan⟩ := h
  obtain rfl : pWindow = s.globalPWindow := hwin
  have hlt : putIndex < s.globalPWindow.width := hscan.lt
  refine readDescriptor_spec ?_
  simp only [readPMax, Total.read_iff, ne_eq, not_true_eq_false, if_false]
  by_cases hc : (s.putArray putIndex).count < s.globalPWindow.max
  · rw [if_pos hc]
    refine assert_spec (decide_eq_true hlt) (.ret ⟨⟨g, hi⟩, hgr, hn, rfl, ?_, hlt, rfl, hc⟩)
    refine ⟨hok.put_le, hok.put_eq, hok.get_le, fun he => ?_⟩
    obtain ⟨h₁, h₂⟩ := hok.get_eq he
    replace h₁ : gWindow = s.globalGWindow := h₁
    refine ⟨h₁, ?_⟩
    show (if gWindow.width = s.globalPWindow.width then putIndex else getIndex) < _
    split
    next hw => rwa [← h₁, hw]
    · exact h₂
  rw [if_neg hc]
  have hfull : s.globalPWindow.max ≤ (s.putArray putIndex).count := not_lt.1 hc
  by_cases hh : hops = s.globalPWindow.width
  · -- the round is complete: after the shift every count is below the maximum
    have hall := hscan.all hh
    have hstuck : ¬ CanPut s := by
      rintro ⟨j, hj, hlt⟩
      exact absurd (hall j hj) (not_le.2 hlt)
    rw [if_neg (not_lt.2 hh.ge)]
    refine Total.bind_of (tryShiftPut_spec hi.widths hi.windows) ?_
    rintro _ _ ⟨rfl, m, t, hlat, rfl⟩
    have hi' := hi.shiftPut hlat hall
    have hdepth := hi.windows.set_depth.1
    have hgr' : Grows s
        { s with lateral := m, lateralTail := t, globalPWindow := s.nextPWindow } :=
      ⟨Nat.le_add_right _ _, fun he => absurd he (Nat.lt_add_of_pos_right hdepth).ne', le_rfl,
        fun _ => rfl⟩
    have hok' := hok.mono hgr'
    have hpos := hi'.pWidth_ok
    refine .ret ⟨⟨⟨_, hi'⟩, hgr.trans hgr', hn, rfl,
      ⟨le_rfl, fun _ => rfl, hok'.get_le, hok'.get_eq⟩, .start (syncIndex_lt hpos.1 _)⟩, ?_⟩
    have hcan : CanPut
        { s with lateral := m, lateralTail := t, globalPWindow := s.nextPWindow } := by
      refine ⟨0, hpos.1, ?_⟩
      have h₁ := hi.put_le 0 (Nat.lt_of_lt_of_le hpos.1 hpos.2)
      exact h₁.trans_lt (Nat.lt_add_of_pos_right hdepth)
    have hle : s.nextPWindow.width ≤ set.maxWidth := hpos.2
    simp only [putMeasure, hopsLeft, if_pos hcan, if_neg hstuck]
    omega
  · have hlt : hops < s.globalPWindow.width := lt_of_le_of_ne hscan.hops_le hh
    rw [if_pos hlt]
    refine Total.bind_of (hop_spec (hp.fits hi.pWidth_ok) hscan hfull hh) ?_
    rintro ⟨i, random', hops'⟩ s' ⟨rfl, hs, hlt⟩
    refine .ret ⟨⟨⟨g, hi⟩, hgr, hn, rfl, ⟨hok.put_le, hok.put_eq, hok.get_le, hok.get_eq⟩, hs⟩, ?_⟩
    exact Nat.add_lt_add_right hlt _

/-- `put_window` returns a sub-queue of the put window that is not full. -/
theorem putWindow_spec (hp : set.WF) {contention : Bool} {tl : Local} (hi : Inv set g s)
    (hok : tl.Ok s) :
    Total (contract set) (PutPost set s) (putWindow set contention tl) s := by
  refine Total.bind_of (syncPWindow_spec hi.windows hok.put_eq) ?_
  rintro _ s' ⟨rfl, rfl⟩
  refine Total.bind_of (startIndex_spec (hp.fits hi.pWidth_ok)) ?_
  rintro i s'' ⟨rfl, hlt⟩
  exact Total.forever (PutLoop set s'') (putMeasure set) (fun _ _ => putRound_spec hp)
    ⟨⟨g, hi⟩, .of_eq rfl rfl, rfl, rfl, ⟨le_rfl, fun _ => rfl, hok.get_le, hok.get_eq⟩,
      .start hlt⟩

/-! ### `get_window` -/

/-- The state with another get window and lateral head. -/
def State.atGet (s : State) (w : GetWindow) (head : Option ℕ) : State :=
  { s with globalGWindow := w, lateralHead := head }

/-- The put count that `get_window` compares with. -/
def putBound (s : State) (j : ℕ) : ℕ :=
  if (s.getArray j).count ≤ s.globalPWindow.bottom then s.globalPWindow.bottom
  else (s.putArray j).count

/-- `get_window` finds nothing in sub-queue `j`. -/
def Exhausted (s : State) (j : ℕ) : Prop :=
  ¬ ((s.getArray j).count < s.globalGWindow.max ∧ (s.getArray j).count < putBound s j)

/-- A complete round that skips no sub-queue has found the rows of the get window used up. -/
theorem usedUp_of_exhausted (hall : ∀ j < s.globalGWindow.width, Exhausted s j)
    (hskip : ∀ j < s.globalGWindow.width, ¬ Skipped s j) : UsedUp s := by
  intro j hj
  by_contra hlt
  replace hlt := not_le.1 hlt
  have hbound : putBound s j ≤ (s.getArray j).count := not_lt.1 fun h => hall j hj ⟨hlt, h⟩
  refine hskip j hj ⟨hlt, ?_⟩
  unfold putBound at hbound
  split at hbound
  next hle => exact .inl (le_antisymm hle hbound)
  next hgt => exact .inr ⟨not_le.1 hgt, hbound⟩

theorem Inv.putBound_le (h : Inv set g s) {j : ℕ} (hj : j < set.maxWidth) :
    putBound s j ≤ s.globalPWindow.max := by
  unfold putBound
  split
  · exact h.windows.put_bottom_lt.le
  · exact h.put_le j hj

theorem readPutCount_spec {β : Type} {Q : β → State → Prop} {j : ℕ} {k : ℕ → Prog State β}
    (h : Total C Q (k (putBound s j)) s) :
    Total C Q (readPutCount s.globalPWindow.bottom j (s.getArray j).count >>= k) s := by
  unfold readPutCount
  unfold putBound at h
  split at h
  next hle =>
    rw [if_pos hle]
    exact h
  next hgt =>
    rw [if_neg hgt]
    exact Total.read_iff.2 h

/-- The next maximum lies above the current one, not above the put window's, and no more than
`depth` away. -/
theorem getShiftMax_spec (h : Windows set g s) {tl : Local} (hpw : tl.pWindow = s.globalPWindow)
    (hgw : tl.gWindow = s.globalGWindow) (hlt : s.globalGWindow.max < s.globalPWindow.max) :
    Total C (fun m s' => s' = s ∧ s.globalGWindow.max < m ∧ m ≤ s.globalPWindow.max ∧
      m ≤ s.globalGWindow.max + s.depth) (getShiftMax tl) s := by
  have hd := h.set_depth.1
  simp only [getShiftMax, readPMax, Total.read_iff, hpw, hgw]
  split
  next h₁ => exact .act (fun _ _ => C.guarantee_refl s) fun _ _ => .ret ⟨rfl, hlt, le_rfl, h₁.le⟩
  next h₁ =>
    rw [Total.read_iff, if_neg h₁]
    exact .ret ⟨rfl, by omega, not_lt.1 h₁, le_rfl⟩

/-- The next get window lies in rows of one width. -/
theorem getNextWindowLateral_spec (h : Inv set g s) {m : ℕ} (hlt : s.globalGWindow.max < m)
    (hle : m ≤ s.globalPWindow.max) :
    Total C (fun r s' => s' = s ∧ s.globalGWindow.max < r.2 ∧ r.2 ≤ m ∧
        ∀ q, s.globalGWindow.max < q → q ≤ r.2 → g.width q = r.1)
      (getNextWindowLateral s.globalGWindow.max m) s := by
  have hw := h.widths
  obtain ⟨n, hn⟩ := hw.line_eq_some hw.head_le
  simp only [getNextWindowLateral, readLateralNext, readLateral, Total.read_iff, hw.head,
    hw.next_line hw.head_le]
  refine assert_spec (Option.isSome_iff_exists.2 ⟨n, hn⟩) ?_
  rw [Total.read_iff]
  refine assert_spec (decide_eq_true (hw.head_count.trans hlt.le)) ?_
  refine Total.bind_of (skip_spec hw hw.head_le (hw.head_count.trans (Nat.le_succ _))) ?_
  rintro _ s' ⟨rfl, l, hl, rfl, hcl, hnext⟩
  -- the rows up to the cut are those of the lateral node at `l`
  have hcut : Total C (fun r s'' => s'' = s' ∧ s'.globalGWindow.max < r ∧ r ≤ m ∧
      ∀ q, s'.globalGWindow.max < q → q ≤ r → g.width q = (s'.lateral.valAt l).width)
      (cutMax s'.line[l + 1]? m) s' := by
    unfold cutMax
    rcases hl.lt_or_eq with hll | rfl
    · obtain ⟨n', hn'⟩ := hw.line_eq_some hll
      have hsome : s'.line[l + 1]? ≠ none := hn' ▸ Option.some_ne_none n'
      have hc : s'.globalGWindow.max + 1 < (s'.lateral.valAt (l + 1)).count := hnext hll
      rw [if_neg hsome]
      have hval : (s'.lateral.deref s'.line[l + 1]?).val = s'.lateral.valAt (l + 1) := rfl
      simp only [readLateral, Total.read_iff, hval]
      refine .ret ⟨rfl, ?_⟩
      rw [Words.usub_of_le (by omega)]
      split
      · exact ⟨by omega, by omega, fun q hq hq' => hw.between l hll q (by omega) (by omega)⟩
      · exact ⟨hlt, le_rfl, fun q hq hq' => hw.between l hll q (by omega) (by omega)⟩
    · rw [if_pos hw.line_eq_none]
      refine .ret ⟨rfl, hlt, le_rfl, fun q hq hq' => ?_⟩
      rw [hw.last_width]
      exact hw.last_rows q (by omega) (hq'.trans hle)
  refine Total.bind_of hcut ?_
  rintro r s'' ⟨rfl, h₁, h₂, h₃⟩
  rw [Total.read_iff]
  refine assert_spec (decide_eq_true ?_) (.ret ⟨rfl, h₁, h₂, h₃⟩)
  have h₄ := (h.windows.width_ok (s''.globalGWindow.max + 1)).1
  rw [h₃ _ (Nat.lt_succ_self _) h₁] at h₄
  exact (Nat.lt_of_lt_of_le one_pos h₄).ne'

/-- `deq_lateral` moves the head of the lateral queue on. -/
theorem deqLateral_spec (h : Inv set g s) :
    Total (contract set) (fun _ s' => ∃ g' p, Inv set g' s' ∧ s' = { s with lateralHead := p })
      (deqLateral s.globalGWindow.max) s := by
  have hw := h.widths
  simp only [deqLateral, readLateralNext, Total.read_iff, hw.head, hw.next_line hw.head_le]
  refine Total.bind_of (skip_spec hw hw.head_le hw.head_count) ?_
  rintro _ s' ⟨rfl, l, hl, rfl, hcl, -⟩
  by_cases he : s'.line[g.head]? = s'.line[l]?
  · rw [if_neg (not_not.2 he)]
    exact .ret ⟨g, s'.lateralHead, h, rfl⟩
  · rw [if_pos he]
    refine Total.cae_of_eq hw.head fun _ => ⟨guarantee_frame rfl rfl rfl, .ret ?_⟩
    exact ⟨_, _, h.moveHead hl hcl, rfl⟩

/-- The shift branch moves the get window up. -/
theorem shiftGet_spec (h : Inv set g s) {tl : Local} (hpw : tl.pWindow = s.globalPWindow)
    (hgw : tl.gWindow = s.globalGWindow) (hlt : s.globalGWindow.max < s.globalPWindow.max)
    (hall : ∀ j < s.globalGWindow.width, Exhausted s j) :
    Total (contract set) (fun tl' s' => ∃ g' w p, Inv set g' s' ∧ s' = s.atGet w p ∧
        s.globalGWindow.max < w.max ∧ tl'.pWindow = tl.pWindow ∧ tl'.gWindow = w ∧
        tl'.getIndex < w.width) (shiftGet tl) s := by
  refine Total.bind_of (getShiftMax_spec h.windows hpw hgw hlt) ?_
  rintro m s' ⟨rfl, h₁, h₂, h₃⟩
  rw [hgw]
  refine Total.bind_of (getNextWindowLateral_spec h h₁ h₂) ?_
  rintro ⟨width, max⟩ s'' ⟨rfl, h₄, h₅, h₆⟩
  replace h₄ : s''.globalGWindow.max < max := h₄
  have hdepth : Words.usub 64 max s''.globalGWindow.max % 2 ^ 16 =
      max - s''.globalGWindow.max := by
    have h₇ := h.windows.set_depth.2
    rw [Words.usub_of_le h₄.le, Nat.mod_eq_of_lt (by omega)]
  dsimp only
  rw [hdepth]
  set w : GetWindow := ⟨max, max - s''.globalGWindow.max, width⟩ with hw
  have hshift : Total (contract set) (fun w' s' => ∃ g' p, Inv set g' s' ∧ s' = s''.atGet w p ∧
      w' = w) (tryShiftGet s''.globalGWindow w) s'' := by
    simp only [tryShiftGet, readGMax, Total.read_iff, if_true]
    refine assert_spec (decide_eq_true h₄.le) ?_
    have hne : w ≠ s''.globalGWindow := fun he => absurd (congrArg GetWindow.max he) h₄.ne'
    refine Total.cae_of_eq rfl fun ha => ?_
    have hused : UsedUp s'' := usedUp_of_exhausted hall (ha hne)
    have hi := h.shiftGet h₄ (h₅.trans h₂) rfl h₆ hused
    refine ⟨⟨fun _ => h.noneBehind hused, fun he => ?_⟩, ?_⟩
    · simp at he
    · refine Total.bind_of (deqLateral_spec hi) ?_
      rintro _ _ ⟨g', p, hi', rfl⟩
      exact .ret ⟨g', p, hi', rfl, rfl⟩
  refine Total.bind_of hshift ?_
  rintro _ _ ⟨g', p, hi', rfl, rfl⟩
  exact .ret ⟨g', w, p, hi', rfl, h₄, rfl, rfl, syncIndex_lt hi'.windows.gWidth_ok.1 _⟩

/-- At the head of every round: nothing but the get window and the lateral head has changed, the
thread's windows are current, and every index left since the last random hop is exhausted. -/
structure GetLoop (set : Params) (s₀ : State) (st : Search) (s : State) : Prop where
  inv : ∃ g, Inv set g s
  variant : ∃ w p, s = s₀.atGet w p
  grows : Grows s₀ s
  pWindow : st.tl.pWindow = s.globalPWindow
  gWindow : st.tl.gWindow = s.globalGWindow
  notempty : st.notempty = true → s.globalGWindow.max < s.globalPWindow.max
  scan : Scan set.randomHops s.globalGWindow.width (Exhausted s) st.tl.getIndex st.random st.hops

/-- The rounds left: the hops of this scan, and one scan more for every shift. -/
def getMeasure (set : Params) (st : Search) (s : State) : ℕ :=
  (s.globalPWindow.max - s.globalGWindow.max) * (set.maxWidth + 1) +
    hopsLeft set.randomHops s.globalGWindow.width st.random st.hops

/-- What `get_window` returns, for the state before and after: a sub-queue that it takes for
non-empty and its head descriptor, or any one after a round in the last rows that found none. -/
structure GetPost (set : Params) (s₀ : State) (r : Descriptor × Local) (s : State) : Prop where
  inv : ∃ g, Inv set g s
  variant : ∃ w p, s = s₀.atGet w p
  grows : Grows s₀ s
  pWindow : r.2.pWindow = s.globalPWindow
  gWindow : r.2.gWindow = s.globalGWindow
  index_lt : r.2.getIndex < s.globalGWindow.width
  descriptor : r.1 = s.getArray r.2.getIndex
  answer : ¬ Exhausted s r.2.getIndex ∨ s.globalGWindow.max = s.globalPWindow.max ∧
    ∀ j < s.globalGWindow.width, Exhausted s j

theorem getRound_spec (hp : set.WF) {st : Search} (h : GetLoop set s₀ st s) :
    Total (contract set) (fun r s' => Sum.elim
      (fun st' => GetLoop set s₀ st' s' ∧ getMeasure set st' s' < getMeasure set st s)
      (fun a => GetPost set s₀ a s') r) (getRound set s.globalPWindow.bottom st) s := by
  obtain ⟨⟨pWindow, gWindow, putIndex, getIndex⟩, hops, random, notempty⟩ := st
  obtain ⟨⟨g, hi⟩, hv, hgr, hpw, hgw, hne, hscan⟩ := h
  obtain rfl : gWindow = s.globalGWindow := hgw
  have hlt : getIndex < s.globalGWindow.width := hscan.lt
  refine readDescriptor_spec (readPutCount_spec ?_)
  simp only [readGMax, Total.read_iff, ne_eq, not_true_eq_false, if_false]
  by_cases hc : Exhausted s getIndex
  swap
  · rw [if_pos (not_not.1 hc)]
    exact .ret ⟨⟨g, hi⟩, hv, hgr, hpw, rfl, hlt, rfl, .inl hc⟩
  rw [if_neg hc]
  by_cases hh : hops = s.globalGWindow.width
  · have hall := hscan.all hh
    have hcan : Total (contract set) (fun b s' => s' = s ∧
        if b then s.globalGWindow.max < s.globalPWindow.max
        else s.globalGWindow.max = s.globalPWindow.max)
        (canShift notempty s.globalGWindow.max) s := by
      have hle := hi.windows.get_le_put
      cases notempty with
      | true => exact .ret ⟨rfl, hne rfl⟩
      | false =>
        refine Total.read_iff.2 (.ret ⟨rfl, ?_⟩)
        by_cases he : s.globalGWindow.max = s.globalPWindow.max
        · simp [he]
        · simpa [he] using lt_of_le_of_ne hle he
    rw [if_neg (not_not.2 hh)]
    refine Total.bind_of hcan ?_
    rintro b s' ⟨rfl, hb⟩
    cases b with
    | false => exact .ret ⟨⟨g, hi⟩, hv, hgr, hpw, rfl, hlt, rfl, .inr ⟨hb, hall⟩⟩
    | true =>
      replace hb : s'.globalGWindow.max < s'.globalPWindow.max := hb
      rw [if_pos rfl]
      refine Total.bind_of (shiftGet_spec hi hpw rfl hb hall) ?_
      rintro tl' _ ⟨g', w, p, hi', rfl, hlt', hpw', hgw', hidx⟩
      have hle : w.max ≤ s'.globalPWindow.max := hi'.windows.get_le_put
      have hw : w.width ≤ set.maxWidth := hi'.windows.gWidth_ok.2
      refine .ret ⟨⟨⟨g', hi'⟩, ?_, ?_, hpw'.trans hpw, hgw', (by intros; contradiction),
        .start hidx⟩, ?_⟩
      · obtain ⟨w₀, p₀, rfl⟩ := hv
        exact ⟨w, p, rfl⟩
      · exact hgr.trans ⟨le_rfl, fun _ => rfl, hlt'.le, fun he => absurd he hlt'.ne'⟩
      · have h₁ : s'.globalPWindow.max - w.max + 1 ≤
            s'.globalPWindow.max - s'.globalGWindow.max := by omega
        have h₂ := Nat.mul_le_mul_right (set.maxWidth + 1) h₁
        rw [Nat.succ_mul] at h₂
        show (s'.globalPWindow.max - w.max) * (set.maxWidth + 1) +
            ((set.randomHops - random) + (w.width - 0)) <
          (s'.globalPWindow.max - s'.globalGWindow.max) * (set.maxWidth + 1) +
            ((set.randomHops - random) + (s'.globalGWindow.width - hops))
        omega
  · rw [if_pos hh]
    refine Total.bind_of (hop_spec (hp.fits hi.windows.gWidth_ok) hscan hc hh) ?_
    rintro ⟨i, random', hops'⟩ s' ⟨rfl, hs, hlt'⟩
    refine .ret ⟨⟨⟨g, hi⟩, hv, hgr, hpw, rfl, fun h => ?_, hs⟩, Nat.add_lt_add_left hlt' _⟩
    -- a sub-queue with items, but none in the window, has them above it
    rcases Bool.or_eq_true .. ▸ h with h | h
    · exact hne h
    · have hb : (s'.getArray getIndex).count < putBound s' getIndex := of_decide_eq_true h
      have hle := hi.putBound_le (hlt.trans_le hi.windows.gWidth_ok.2)
      by_contra hge
      exact hc ⟨by omega, hb⟩

/-- `get_window` returns a sub-queue that it takes for non-empty, or finds none. -/
theorem getWindow_spec (hp : set.WF) {tl : Local} (hi : Inv set g s)
    (hpw : tl.pWindow = s.globalPWindow) (hok : tl.Ok s) :
    Total (contract set) (GetPost set s) (getWindow set false tl) s := by
  have henter : Total (contract set) (fun tl' s' => s' = s ∧ tl'.pWindow = s.globalPWindow ∧
      tl'.gWindow = s.globalGWindow ∧ tl'.getIndex < s.globalGWindow.width) (enterGet tl) s := by
    simp only [enterGet, readGMax, Total.read_iff]
    split
    · simp only [syncGWindow, loadGWindow, Total.read_iff]
      exact .ret ⟨rfl, hpw, rfl, syncIndex_lt hi.windows.gWidth_ok.1 _⟩
    next h =>
      obtain ⟨h₁, h₂⟩ := hok.get_eq (not_not.1 h)
      exact .ret ⟨rfl, hpw, h₁, h₂⟩
  have hstart : Total (contract set) (fun i s' => s' = s ∧ i = tl.getIndex)
      (startGetIndex false tl) s := .ret ⟨rfl, rfl⟩
  refine Total.bind_of hstart ?_
  rintro _ s' ⟨rfl, rfl⟩
  refine Total.bind_of henter ?_
  rintro tl' s' ⟨rfl, hpw', hgw', hidx⟩
  rw [hpw']
  have hloop : Total (contract set) (GetPost set s')
      (Prog.forever (getRound set s'.globalPWindow.bottom) ⟨tl', 0, 0, false⟩) s' := by
    refine Total.forever (GetLoop set s') (getMeasure set) (fun st s'' h => ?_)
      ⟨⟨g, hi⟩, ⟨_, _, rfl⟩, .of_eq rfl rfl, hpw', hgw', (by intros; contradiction), .start hidx⟩
    obtain ⟨w, p, rfl⟩ := h.variant
    exact getRound_spec hp h
  refine Total.bind_of hloop ?_
  rintro ⟨d, tl''⟩ s'' h
  exact .ret ⟨h.inv, h.variant, h.grows, h.pWindow, h.gWindow, h.index_lt, h.descriptor, h.answer⟩

end ElasticLpw
