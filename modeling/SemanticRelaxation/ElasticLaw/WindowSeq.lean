import SemanticRelaxation.ElasticLaw.Invariant

/-!
# The windows of the elastic LaW queue without interference

Both window functions return, keep the invariant and touch neither the descriptors nor the nodes
(`putWindow_spec`, `getWindow_spec`). The lateral queue only grows (`Grows`), so that what a thread
remembers of it stays true (`Local.At.mono`).

`get_window` compares with the bottom of the put window as long as that is above the get window. All
sub-queues of the get window are full then, so a count below its maximum means an item.
-/

namespace ElasticLaw

open AtomicProg Linked TwoD

variable {set : Params} {g : Ghost} {s s₀ s' : State} {C : Contract State}

/-- What `create_queue` guarantees of the stored parameters, as far as no C type overflows. -/
structure Params.WF (set : Params) : Prop where
  width_lt : set.maxWidth < 2 ^ 16
  hops_lt : set.randomHops < 2 ^ 16

theorem LateralOk.fits (h : LateralOk set s) (hp : set.WF) {k : ℕ} (hk : k ≤ s.last) :
    Fits types set.randomHops (s.win k).width :=
  .of_lt (h.width_pos k hk) ((h.width_le k hk).trans_lt hp.width_lt) hp.hops_lt rfl rfl

/-! ### What threads remember -/

/-- The lateral queue of `s'` continues that of `s`. -/
structure Grows (s s' : State) : Prop where
  last_le : s.last ≤ s'.last
  line : ∀ k ≤ s.last, s'.line[k]? = s.line[k]?
  win : ∀ k ≤ s.last, s'.win k = s.win k

namespace Grows

theorem of_eq (h : s'.lateral = s.lateral) : Grows s s' := by
  refine ⟨?_, fun k _ => ?_, fun k _ => ?_⟩
  · exact (congrArg Cells.last h).ge
  · exact congrArg (fun m : Cells Window => (m.line 0)[k]?) h
  · exact congrArg (fun m : Cells Window => m.valAt k) h

theorem refl (s : State) : Grows s s := of_eq rfl

theorem trans (h : Grows s₀ s) (h' : Grows s s') : Grows s₀ s' where
  last_le := h.last_le.trans h'.last_le
  line k hk := (h'.line k (hk.trans h.last_le)).trans (h.line k hk)
  win k hk := (h'.win k (hk.trans h.last_le)).trans (h.win k hk)

theorem shifted (h : LateralOk set s) : Grows s (LateralOk.shifted s) where
  last_le := (Nat.le_succ _).trans h.last_snoc.ge
  line _ hk := h.line_snoc hk
  win _ hk := h.valAt_snoc hk

end Grows

/-- The thread last saw the lateral head at position `p`. -/
structure Local.At (l : Local) (s : State) (p : ℕ) : Prop where
  lt : p < s.last
  head : l.lheadPointer = s.line[p]?
  window : l.getWindow = s.line[p + 1]?
  index_lt : l.getIndex < (s.win (p + 1)).width

namespace Local.At

variable {l : Local} {p : ℕ}

theorem mono (h : l.At s p) (hg : Grows s s') : l.At s' p where
  lt := h.lt.trans_le hg.last_le
  head := h.head.trans (hg.line p h.lt.le).symm
  window := h.window.trans (hg.line _ h.lt).symm
  index_lt := by
    rw [hg.win _ h.lt]
    exact h.index_lt

theorem window_val (h : l.At s p) : (s.lateral.deref l.getWindow).val = s.win (p + 1) := by
  rw [h.window]
  rfl

end Local.At

/-! ### The parts of the loops -/

theorem readDescriptor_spec {β : Type} {Q : β → State → Prop} {array : State → ℕ → Descriptor}
    {index : ℕ} {k : Descriptor → Prog State β} (h : Total C Q (k (array s index)) s) :
    Total C Q (readDescriptor array index >>= k) s := by
  simp only [readDescriptor, Prog.bind_assoc, Total.read_iff]
  exact h

theorem assert_spec {β : Type} {Q : β → State → Prop} {b : Bool} {k : Unit → Prog State β}
    (hb : b = true) (h : Total C Q (k ()) s) : Total C Q (assert b >>= k) s := by
  subst hb
  exact h

theorem syncIndex_lt {width : ℕ} (hw : 0 < width) (index : ℕ) : syncIndex width index < width := by
  unfold syncIndex
  split <;> omega

theorem startIndex_spec {contention : Bool} {width index : ℕ}
    (hf : Fits types set.randomHops width) :
    Total C (fun i s' => s' = s ∧ i < width) (startIndex contention width index) s := by
  unfold startIndex
  split
  · exact randomIndex_spec hf.modulus
  next h => exact .ret ⟨rfl, not_le.1 fun h' => h (.inr h')⟩

/-- An index that follows the other one stays below the width of its window. -/
theorem followIndex_spec {window otherWindow : Option ℕ} {index otherIndex w w' : ℕ}
    (hw : (s.lateral.deref window).val.width = w)
    (hw' : (s.lateral.deref otherWindow).val.width = w')
    (hi : index < w) (ho : otherIndex < w') :
    Total C (fun i s' => s' = s ∧ i < w')
      (followIndex window otherWindow index otherIndex) s := by
  simp only [followIndex, readWindow, Total.read_iff, Prog.pure_eq_ret, Total.ret_iff, hw, hw',
    true_and]
  split
  next h => exact h.2 ▸ hi
  · exact ho

/-! ### `put_window` -/

/-- `shift_put` with the current tail appends a window. -/
theorem tryShiftPut_spec (h : LateralOk set s) {tl : Local} (ht : tl.ltailPointer = s.lateralTail) :
    Total (.trivial _) (fun _ s' => s' = LateralOk.shifted s)
      (tryShiftPut tl (s.win s.last).max) s := by
  simp only [tryShiftPut, shiftPut, ht, Total.read_iff, if_true, linkLateral, readLateralNext,
    h.tail_next, createLateralNode, Prog.bind_assoc, Total.update_iff]
  refine fun _ => ⟨True.intro, ?_⟩
  refine Total.cae_of_eq h.create_next fun _ => ⟨True.intro, ?_⟩
  simp only [Prog.pure_eq_ret, Prog.ret_bind, Total.read_iff]
  refine Total.cae_of_eq rfl fun _ => ⟨True.intro, .ret ?_⟩
  have hlink := h.snoc_next (v := ⟨(s.win s.last).max + s.depth, s.width, s.depth⟩)
  rw [Cells.snoc] at hlink
  rw [hlink]
  rfl

/-- Some sub-queue of the put window accepts an item. -/
def CanPut (s : State) : Prop :=
  ∃ j < (s.win s.last).width, (s.putArray j).count < (s.win s.last).max

/-- At the head of every round: the thread's window is the last one, and every index left since the
last random hop is full. -/
structure PutLoop (set : Params) (g : Ghost) (p : ℕ) (s₀ : State) (st : Search) (s : State) :
    Prop where
  inv : Inv set g s
  grows : Grows s₀ s
  nodes_eq : s.nodes = s₀.nodes
  window : st.tl.putWindow = s.lateralTail
  pointer : st.tl.ltailPointer = s.lateralTail
  at_pos : st.tl.At s p
  scan : Scan set.randomHops (s.win s.last).width
    (fun j => (s.win s.last).max ≤ (s.putArray j).count) st.tl.putIndex st.random st.hops

open Classical in
/-- The rounds left: the hops of this scan, and one scan more after a shift. -/
noncomputable def putMeasure (set : Params) (st : Search) (s : State) : ℕ :=
  hopsLeft set.randomHops (s.win s.last).width st.random st.hops +
    if CanPut s then 0 else set.maxWidth + 1

/-- What `put_window` returns, for the state before and after: a sub-queue of the put window with
its tail descriptor, below the last row of the window. -/
structure PutPost (set : Params) (g : Ghost) (p : ℕ) (s₀ : State) (r : Descriptor × Local)
    (s : State) : Prop where
  inv : Inv set g s
  grows : Grows s₀ s
  nodes_eq : s.nodes = s₀.nodes
  window : r.2.putWindow = s.lateralTail
  at_pos : r.2.At s p
  index_lt : r.2.putIndex < (s.win s.last).width
  descriptor : r.1 = s.putArray r.2.putIndex
  count_lt : (s.putArray r.2.putIndex).count < (s.win s.last).max

theorem putRound_spec (hp : set.WF) {p : ℕ} {st : Search} (h : PutLoop set g p s₀ st s) :
    Total (.trivial _) (fun r s' => Sum.elim
      (fun st' => PutLoop set g p s₀ st' s' ∧ putMeasure set st' s' < putMeasure set st s)
      (fun a => PutPost set g p s₀ a s') r) (putRound set st) s := by
  obtain ⟨⟨putWindow, getWindow, lhead, ltail, putIndex, getIndex⟩, hops, random⟩ := st
  obtain ⟨hi, hgr, hn, hwin, hptr, hat, hscan⟩ := h
  obtain rfl : putWindow = s.lateralTail := hwin
  obtain rfl : ltail = s.lateralTail := hptr
  have hval := hi.lateral.tail_val
  refine readDescriptor_spec ?_
  simp only [Total.read_iff, readWindow, ne_eq, not_true_eq_false, if_false, hval]
  by_cases hc : (s.putArray putIndex).count < (s.win s.last).max
  · rw [if_pos hc]
    refine assert_spec (decide_eq_true hscan.lt) ?_
    refine Total.bind_of (followIndex_spec (congrArg Window.width hval)
      (congrArg Window.width hat.window_val) hscan.lt hat.index_lt) ?_
    rintro i s' ⟨rfl, hlt⟩
    exact .ret ⟨hi, hgr, hn, rfl, ⟨hat.lt, hat.head, hat.window, hlt⟩, hscan.lt, rfl, hc⟩
  rw [if_neg hc]
  have hfull : (s.win s.last).max ≤ (s.putArray putIndex).count := not_lt.1 hc
  by_cases hh : hops = (s.win s.last).width
  · -- the round is complete: after the shift every count is below the maximum
    have hall := hscan.all hh
    have hstuck : ¬ CanPut s := by
      rintro ⟨j, hj, hlt⟩
      exact absurd (hall j hj) (not_le.2 hlt)
    rw [if_neg (not_lt.2 hh.ge)]
    refine Total.bind_of (tryShiftPut_spec hi.lateral rfl) ?_
    rintro _ _ rfl
    have hi' := hi.shiftPut hall
    have hgr' := Grows.shifted hi.lateral
    have hat' := hat.mono hgr'
    have hpos := hi'.lateral.width_pos _ le_rfl
    simp only [loadPutWindow, Total.read_iff, readWindow, Prog.bind_assoc, Prog.pure_eq_ret,
      Prog.ret_bind, Total.ret_iff, Sum.elim_inl, hi'.lateral.tail_val]
    refine ⟨⟨hi', hgr.trans hgr', hn, rfl, rfl,
      ⟨hat'.lt, hat'.head, hat'.window, hat'.index_lt⟩, .start (syncIndex_lt hpos _)⟩, ?_⟩
    · have hcan : CanPut (LateralOk.shifted s) := by
        refine ⟨0, hpos, ?_⟩
        have h₁ := hi.put_le 0 (lt_of_lt_of_le hpos (hi'.lateral.width_le _ le_rfl))
        have h₂ := hi'.lateral.max_lt (Nat.sub_one_lt_of_lt hi'.lateral.last_pos) le_rfl
        rw [show (LateralOk.shifted s).last = s.last + 1 from hi.lateral.last_snoc] at h₂ ⊢
        rw [Nat.add_sub_cancel, hgr'.win _ le_rfl] at h₂
        exact h₁.trans_lt h₂
      have hle := hi'.lateral.width_le _ le_rfl
      simp only [putMeasure, hopsLeft, if_pos hcan, if_neg hstuck]
      omega
  · have hlt : hops < (s.win s.last).width := lt_of_le_of_ne hscan.hops_le hh
    rw [if_pos hlt]
    refine Total.bind_of (hop_spec (hi.lateral.fits hp le_rfl) hscan hfull hh) ?_
    rintro ⟨i, random', hops'⟩ s' ⟨rfl, hs, hlt⟩
    refine .ret ⟨⟨hi, hgr, hn, rfl, rfl, ⟨hat.lt, hat.head, hat.window, hat.index_lt⟩, hs⟩, ?_⟩
    exact Nat.add_lt_add_right hlt _

/-- `put_window` returns a sub-queue of the put window that is not full. -/
theorem putWindow_spec (hp : set.WF) {contention : Bool} {tl : Local} {p : ℕ} (hi : Inv set g s)
    (hat : tl.At s p) :
    Total (.trivial _) (PutPost set g p s) (putWindow set contention tl) s := by
  simp only [putWindow, Total.read_iff, readWindow, hi.lateral.tail_val]
  refine Total.bind_of (startIndex_spec (hi.lateral.fits hp le_rfl)) ?_
  rintro i s' ⟨rfl, hlt⟩
  exact Total.forever (PutLoop set g p s') (putMeasure set) (fun _ _ => putRound_spec hp)
    ⟨hi, .refl _, rfl, rfl, rfl, ⟨hat.lt, hat.head, hat.window, hat.index_lt⟩, .start hlt⟩

/-! ### `get_window` -/

/-- The state with the lateral head at position `h`. -/
def State.atHead (s : State) (h : ℕ) : State := { s with lateralHead := s.line[h]? }

theorem Grows.atHead (s : State) (h : ℕ) : Grows s (s.atHead h) := .of_eq rfl

/-- The count that `get_window` compares with, where the get window is at position `k`. -/
def putBound (s : State) (k j : ℕ) : ℕ :=
  if (s.win k).max < (s.win s.last).max then (s.win s.last).bottom else (s.putArray j).count

/-- `get_window` finds nothing in sub-queue `j`. -/
def Exhausted (s : State) (k j : ℕ) : Prop :=
  ¬ ((s.getArray j).count < (s.win k).max ∧ (s.getArray j).count < putBound s k j)

/-- Sub-queue `j` has a node behind its head in the rows of the get window. -/
def Ready (g : Ghost) (s : State) (j : ℕ) : Prop :=
  ∃ p < (s.nodes.line j).length, (s.getArray j).count < g.row j p ∧
    g.row j p ≤ (s.win (g.head + 1)).max

namespace Inv

/-- What `get_window` accepts is there: below the put window the sub-queues are full. -/
theorem ready (h : Inv set g s) {j : ℕ} (hj : j < (s.win (g.head + 1)).width)
    (hc : ¬ Exhausted s (g.head + 1) j) : Ready g s j := by
  obtain ⟨h₁, h₂⟩ := not_not.1 hc
  rcases (Nat.succ_le_of_lt h.head_lt).lt_or_eq with hlt | he
  · obtain ⟨p, hp, hrow⟩ := h.full _ (Nat.lt_succ_self _) hlt j hj
    exact ⟨p, hp, hrow ▸ h₁, hrow.le⟩
  · have hj' := hj.trans_le (h.lateral.width_le _ h.head_lt)
    have hpos := h.pos_lt j hj'
    have hput := h.put_le j hj'
    have he : g.head + 1 = s.last := he
    rw [putBound, he, if_neg (lt_irrefl _), h.putCount j hj'] at h₂
    rw [h.putCount j hj', ← he] at hput
    exact ⟨_, by omega, h₂, hput⟩

/-- A round that found nothing: every sub-queue has been emptied up to the last row. -/
theorem max_le_of_exhausted (h : Inv set g s) (hlt : g.head + 1 < s.last) {j : ℕ}
    (hc : Exhausted s (g.head + 1) j) : (s.win (g.head + 1)).max ≤ (s.getArray j).count := by
  by_contra hlt'
  refine hc ⟨not_le.1 hlt', ?_⟩
  have h₁ := h.lateral.bottom_eq (k := s.last - 1) (by omega)
  have h₂ := h.lateral.max_le (show g.head + 1 ≤ s.last - 1 by omega) (Nat.sub_le _ _)
  rw [Nat.sub_add_cancel (by omega)] at h₁
  rw [putBound, if_pos (h.lateral.max_lt hlt le_rfl), h₁]
  omega

/-- A round in the put window that found nothing: the whole queue is empty. -/
theorem present_eq_nil (h : Inv set g s) (he : g.head + 1 = s.last)
    (hall : ∀ j < (s.win (g.head + 1)).width, Exhausted s (g.head + 1) j) :
    s.nodes.hist.present = [] := by
  refine List.eq_nil_iff_forall_not_mem.2 fun x hx => ?_
  obtain ⟨k, hk⟩ := h.items x hx
  obtain rfl : k = g.head + 1 := by
    have h₁ := hk.head_lt
    have h₂ := hk.le_last
    omega
  -- the item lies behind the head, and not above the tail
  obtain ⟨h₁, h₂⟩ := h.row_present hx
  refine hall _ hk.idx_lt ⟨h₁.trans_le hk.row_le, ?_⟩
  rw [putBound, he, if_neg (lt_irrefl _)]
  exact h₁.trans_le h₂

end Inv

theorem readPutCount_spec {β : Type} {Q : β → State → Prop} {tl : Local} {p : ℕ}
    {k : ℕ → Prog State β} (ho : LateralOk set s) (hw : tl.putWindow = s.lateralTail)
    (hat : tl.At s p) (h : Total C Q (k (putBound s (p + 1) tl.getIndex)) s) :
    Total C Q (readPutCount tl >>= k) s := by
  simp only [readPutCount, readWindow, Prog.bind_assoc, Total.read_iff, hw, ho.tail_val,
    hat.window_val]
  unfold putBound at h
  split at h
  next hlt =>
    rw [if_pos hlt]
    exact h
  next hlt =>
    rw [if_neg hlt]
    exact Total.read_iff.2 h

/-- The head of the lateral queue moves on while another window follows. -/
theorem moveGetWindow_spec (h : Inv set g s) (hlt : g.head + 1 < s.last) {tl : Local}
    (hat : tl.At s g.head) :
    Total (.trivial _) (fun tl' s' => s' = s.atHead (g.head + 1) ∧ tl' = { tl with
      lheadPointer := s.line[g.head + 1]?
      getWindow := s.line[g.head + 2]?
      getIndex := syncIndex (s.win (g.head + 2)).width tl.getIndex }) (moveGetWindow tl) s := by
  have hnext := h.lateral.next_line h.head_lt.le
  have hnext' := h.lateral.next_line hlt.le
  have hsome : ∀ k ≤ s.last, (s.line[k]?).isSome = true := by
    intro k hk
    obtain ⟨n, hn⟩ := h.lateral.line_eq_some hk
    rw [hn]
    rfl
  simp only [moveGetWindow, readLateralNext, Total.read_iff, hat.window, hat.head, hnext',
    shiftGet, Prog.bind_assoc]
  refine assert_spec (hsome _ hlt) ?_
  simp only [Total.read_iff, hnext]
  refine assert_spec (hsome _ hlt.le) ?_
  refine Total.cae_of_eq h.head fun _ => ⟨True.intro, ?_⟩
  simp only [loadGetWindow, readLateralNext, readWindow, Prog.pure_eq_ret, Prog.ret_bind,
    Prog.bind_assoc, Total.read_iff, hnext']
  exact assert_spec (hsome _ hlt) (.ret ⟨rfl, rfl⟩)

/-- At the head of every round: the thread's window is the one behind the lateral head, which has
moved on to `h`, and every index left since the last random hop is exhausted. -/
structure GetLoop (set : Params) (g : Ghost) (s₀ : State) (h : ℕ) (st : Search) (s : State) :
    Prop where
  state_eq : s = s₀.atHead h
  inv : Inv set { g with head := h } s
  window : st.tl.putWindow = s.lateralTail
  at_head : st.tl.At s h
  scan : Scan set.randomHops (s.win (h + 1)).width (Exhausted s (h + 1)) st.tl.getIndex st.random
    st.hops

/-- The rounds left: the hops of this scan, and one scan more for every shift. -/
def getMeasure (set : Params) (h : ℕ) (st : Search) (s : State) : ℕ :=
  (s.last - h) * (set.maxWidth + 1) +
    hopsLeft set.randomHops (s.win (h + 1)).width st.random st.hops

/-- What `get_window` returns, for the state before and after: a sub-queue with an item in the get
window and its head descriptor, or any one if all are empty. -/
structure GetPost (set : Params) (g : Ghost) (s₀ : State) (h : ℕ) (r : Descriptor × Local)
    (s : State) : Prop where
  state_eq : s = s₀.atHead h
  inv : Inv set { g with head := h } s
  window : r.2.putWindow = s.lateralTail
  at_head : r.2.At s h
  descriptor : r.1 = s.getArray r.2.getIndex
  answer : Ready { g with head := h } s r.2.getIndex ∨
    h + 1 = s.last ∧ s.nodes.hist.present = []

theorem getRound_spec (hp : set.WF) {h : ℕ} {st : Search} (hl : GetLoop set g s₀ h st s) :
    Total (.trivial _) (fun r s' => Sum.elim
      (fun st' => ∃ h', GetLoop set g s₀ h' st' s' ∧
        getMeasure set h' st' s' < getMeasure set h st s)
      (fun a => ∃ h', GetPost set g s₀ h' a s') r) (getRound set st) s := by
  obtain ⟨⟨putWindow, getWindow, lhead, ltail, putIndex, getIndex⟩, hops, random⟩ := st
  obtain ⟨hs, hi, hwin, hat, hscan⟩ := hl
  have hval := hat.window_val
  have hhead : s.lateralHead = lhead := hi.head.trans hat.head.symm
  refine readDescriptor_spec (readPutCount_spec hi.lateral hwin hat ?_)
  simp only [Total.read_iff, readWindow, hhead, ne_eq, not_true_eq_false, if_false, hval]
  by_cases hc : Exhausted s (h + 1) getIndex
  swap
  · rw [if_pos (not_not.1 hc)]
    exact .ret ⟨h, hs, hi, hwin, hat, rfl, .inl (hi.ready hat.index_lt hc)⟩
  rw [if_neg hc]
  by_cases hh : hops = (s.win (h + 1)).width
  · have hall := hscan.all hh
    rw [if_neg (not_not.2 hh), Total.read_iff]
    by_cases he : h + 1 = s.last
    · -- the get window is the put window
      have htail : getWindow = s.lateralTail := by
        refine hat.window.trans ?_
        rw [he]
        exact hi.lateral.tail.symm
      rw [if_neg (not_not.2 htail)]
      exact .ret ⟨h, hs, hi, hwin, hat, rfl, .inr ⟨he, hi.present_eq_nil he hall⟩⟩
    · have hlt : h + 1 < s.last := lt_of_le_of_ne hi.head_lt he
      have htail : getWindow ≠ s.lateralTail := by
        rw [hi.lateral.tail]
        exact fun h' => he (hi.lateral.pos_eq hlt.le (hat.window.symm.trans h'))
      have hi' := hi.shiftGet hlt fun j hj => hi.max_le_of_exhausted hlt (hall j hj)
      rw [if_pos htail]
      refine Total.bind_of (moveGetWindow_spec hi hlt hat) ?_
      rintro _ _ ⟨rfl, rfl⟩
      have hpos := hi.lateral.width_pos (h + 2) hlt
      have hsync := syncIndex_lt (Nat.lt_of_succ_le hpos) getIndex
      refine .ret ⟨h + 1, ⟨?_, hi', hwin, ⟨hlt, rfl, rfl, hsync⟩, .start hsync⟩, ?_⟩
      · rw [hs]
        rfl
      · have hle := hi.lateral.width_le (h + 2) hlt
        obtain ⟨k, hk⟩ := Nat.exists_eq_add_of_lt hlt
        have h₁ : s.last - h = s.last - (h + 1) + 1 := by omega
        show (s.last - (h + 1)) * (set.maxWidth + 1) +
            ((set.randomHops - random) + ((s.win (h + 2)).width - 0)) <
          (s.last - h) * (set.maxWidth + 1) +
            ((set.randomHops - random) + ((s.win (h + 1)).width - hops))
        rw [h₁, Nat.succ_mul]
        omega
  · rw [if_pos hh]
    refine Total.bind_of (hop_spec (hi.lateral.fits hp hat.lt) hscan hc hh) ?_
    rintro ⟨i, random', hops'⟩ s' ⟨rfl, hsc, hlt⟩
    refine .ret ⟨h, ⟨hs, hi, hwin, ⟨hat.lt, hat.head, hat.window, hsc.lt⟩, hsc⟩, ?_⟩
    exact Nat.add_lt_add_left hlt _

/-- The first synchronisation leads to the window behind the lateral head. -/
theorem enterGet_spec (hi : Inv set g s) {tl : Local} {p : ℕ} (hat : tl.At s p) :
    Total C (fun tl' s' => s' = s ∧ tl'.putWindow = tl.putWindow ∧ tl'.At s g.head)
      (enterGet tl) s := by
  have hnext := hi.lateral.next_line hi.head_lt.le
  have hsome : (s.line[g.head + 1]?).isSome = true := by
    obtain ⟨n, hn⟩ := hi.lateral.line_eq_some hi.head_lt
    rw [hn]
    rfl
  simp only [enterGet, readLateralNext, Total.read_iff, hi.head, hnext, hsome, and_true]
  by_cases hne : s.line[g.head]? = tl.lheadPointer
  · obtain rfl : g.head = p := hi.lateral.pos_eq hi.head_lt.le (hne.trans hat.head)
    rw [if_neg (not_not.2 hne)]
    exact .ret ⟨rfl, rfl, hat⟩
  · rw [if_pos hne]
    simp only [loadGetWindow, readLateralNext, readWindow, Total.read_iff, hnext]
    exact .ret ⟨rfl, rfl, hi.head_lt, rfl, rfl,
      syncIndex_lt (hi.lateral.width_pos (g.head + 1) hi.head_lt) _⟩

/-- `get_window` returns a sub-queue with an item in the get window, or all are empty. -/
theorem getWindow_spec (hp : set.WF) {contention : Bool} {tl : Local} {p : ℕ} (hi : Inv set g s)
    (hw : tl.putWindow = s.lateralTail) (hat : tl.At s p) :
    Total (.trivial _) (fun r s' => ∃ h, GetPost set g s h r s') (getWindow set contention tl)
      s := by
  have hstart : Total (.trivial _) (fun i s' => s' = s ∧ i < (s.win (p + 1)).width)
      (startGetIndex contention tl) s := by
    simp only [startGetIndex, readWindow, Total.read_iff, hat.window_val]
    split
    · exact randomIndex_spec (hi.lateral.fits hp hat.lt).modulus
    · exact .ret ⟨rfl, hat.index_lt⟩
  refine Total.bind_of hstart ?_
  rintro i s' ⟨rfl, hlt⟩
  refine Total.bind_of (enterGet_spec hi ⟨hat.lt, hat.head, hat.window, hlt⟩) ?_
  rintro tl' s' ⟨rfl, hw', hat'⟩
  have hloop : Total (.trivial _) (fun r s'' => ∃ h, GetPost set g s' h r s'')
      (Prog.forever (getRound set) ⟨tl', 0, 0⟩) s' := by
    refine Total.forever_ghost
      (fun m st s => ∃ h, GetLoop set g s' h st s ∧ getMeasure set h st s = m) ?_
      ⟨g.head, ⟨?_, hi, hw'.trans hw, hat', .start hat'.index_lt⟩, rfl⟩
    · rintro _ st s ⟨h, hl, rfl⟩
      refine (getRound_spec hp hl).mono ?_
      rintro (st' | a) s'' hr
      · obtain ⟨h', hl', hlt⟩ := hr
        exact ⟨_, hlt, h', hl', rfl⟩
      · exact hr
    · show s' = { s' with lateralHead := s'.line[g.head]? }
      rw [← hi.head]
  refine Total.bind_of hloop ?_
  rintro ⟨d, tl''⟩ s'' ⟨h, hs, hi', hwin, hat'', hd, hans⟩
  simp only [followIndex, readWindow, Prog.bind_assoc, Total.read_iff, Prog.pure_eq_ret,
    Prog.ret_bind]
  exact .ret ⟨h, hs, hi', hwin, ⟨hat''.lt, hat''.head, hat''.window, hat''.index_lt⟩, hd, hans⟩

end ElasticLaw
