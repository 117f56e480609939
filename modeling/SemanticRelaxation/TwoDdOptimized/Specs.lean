import SemanticRelaxation.TwoDdOptimized.Queue
import SemanticRelaxation.TwoDd.QueueSpecs

/-!
# The operations of the optimized 2Dd queue under interference

The steps and the rules are those of the 2Dd queue.

* `putRound_spec`: the put window moves on after a round over full sub-queues only;
* `getRound_spec`: the get window stays below the put window; the head that is returned has a
  successor, or the thread's put window is not above its get window;
* `enqueueRound_spec`: the assertions hold, since the get window that a thread has kept from a call
  before is not above the put window;
* `dequeueRound_spec`: a head that is not compared with the tail is before it.
-/

namespace TwoDdOptimized

open AtomicProg Linked TwoD TwoDd TwoDd.Queue TwoDd.Queue.Concurrent

variable {set : Params} {assume : State → State → Prop}
  {E : Results (object set).service (regime Call set assume)} {c : Caller}
  {v v₁ v₂ : View E.protocol c} {j n p : ℕ}

/-- What a thread's variables keep over its calls. -/
structure Knows (set : Params) (tl : Local) (s : State) : Prop where
  putIndex : tl.putIndex < set.width
  getIndex : tl.getIndex < set.width
  gWindow : tl.gWindow ≤ s.globalGWindow

theorem Knows.later {tl : Local} (h : Knows set tl v.state) (hl : Later v v₁) :
    Knows set tl v₁.state := ⟨h.putIndex, h.getIndex, h.gWindow.trans hl.gWindow⟩

theorem startIndex_spec (hf : Fits types set.randomHops set.width) {contention : Bool} {index : ℕ}
    (hi : index < set.width) : wp E.protocol c (startIndex set contention index)
      (fun i v' => v ≤ v' ∧ i < set.width) v := by
  unfold startIndex
  split
  next => exact randomIndex_rely hf.modulus
  next => exact ⟨le_rfl, hi⟩

/-- The attempt to move a window on, where the step is allowed. -/
theorem shiftWindow_spec {window : State → ℕ} {store : ℕ → State → State} {old new : ℕ}
    (hle : ∀ v₁, v ≤ v₁ → old ≤ window v₁.state) (hnew : ∀ s, window (store new s) = new)
    (hok : ∀ v₁, v ≤ v₁ → window v₁.state = old → assume v₁.state (store new v₁.state) →
      E.protocol.Allows c v₁.now (v₁.after (store new v₁.state) v₁.now.2) ∧
        ∀ o, Kept set.width o v₁.pair (store new v₁.state, v₁.now.2)) :
    wp E.protocol c (shiftWindow window store old new)
      (fun m v' => Since v v' ∧ m ≤ window v'.state) v := by
  refine wp.read fun v₁ h₁ => ?_
  split
  next =>
    refine wp.cae (fun v₂ h₂ he ha => ?_) fun v₂ h₂ _ => ⟨.of_le (h₁.trans h₂), le_rfl⟩
    obtain ⟨hall, hk⟩ := hok v₂ (h₁.trans h₂) he ha
    exact ⟨v₂.now.2, hall, (Since.of_le (h₁.trans h₂)).trans (.step hk), (hnew _).ge⟩
  next => exact ⟨.of_le h₁, hle v₁ h₁⟩

/-! ### `put_window` -/

/-- What a round of `put_window` starts with: the put counts of the indices that it has left are not
below its window. -/
structure PutLoop (v₀ : View E.protocol c) (st : Search) (v : View E.protocol c) : Prop where
  since : Since v₀ v
  knows : Knows set st.tl v.state
  window : st.tl.pWindow ≤ v.state.globalPWindow
  scan : Scan set.randomHops set.width (fun j => st.tl.pWindow ≤ (v.state.mem.putArray j).count)
    st.tl.putIndex st.random st.hops

/-- What `put_window` returns: a node that was the tail of its sub-queue, with what `enqueue`
asserts. -/
structure PutPost (v₀ : View E.protocol c) (r : Descriptor × Local) (v : View E.protocol c) :
    Prop where
  since : Since v₀ v
  knows : Knows set r.2 v.state
  window : r.2.pWindow ≤ v.state.globalPWindow
  asserted : r.2.gWindow ≤ r.2.pWindow ∧ r.1.count < r.2.pWindow
  tail : ∃ p, At r.2.putIndex p r.1.node v.state ∧ p ≤ (v.state.mem.putArray r.2.putIndex).count

theorem putRound_spec (hf : Fits types set.randomHops set.width) {v₀ : View E.protocol c}
    {st : Search} (h : PutLoop v₀ st v) : wp E.protocol c (putRound set st) (fun r v' =>
      Sum.elim (fun st' => PutLoop v₀ st' v') (fun a => PutPost v₀ a v') r) v := by
  obtain ⟨hs, hknows, hwin, hscan⟩ := h
  have hidx := hknows.putIndex
  unfold putRound readDescriptor
  simp only [Prog.bind_assoc, Prog.pure_eq_ret, Prog.ret_bind]
  refine wp.read fun v₁ h₁ => wp.read fun v₂ h₂ => wp.read fun v₃ h₃ => ?_
  have h₀₃ := (h₁.trans h₂).trans h₃
  have hs₃ := hs.trans (.of_le h₀₃)
  have hl₃ := later_of_le h₀₃
  have hknows₃ := hknows.later hl₃
  split
  next => exact ⟨hs₃, ⟨hidx, hknows.getIndex, hknows₃.gWindow⟩, le_rfl, .start hidx⟩
  next heq =>
    have heq : st.tl.pWindow = v₃.state.globalPWindow := not_not.1 heq
    split
    next hlt =>
      have hl₁₃ := later_of_le (h₂.trans h₃)
      have hle : st.tl.gWindow ≤ st.tl.pWindow :=
        hknows₃.gWindow.trans ((inv_of v₃).windows.trans heq.ge)
      exact ⟨hs₃, ⟨hidx, hidx, hknows₃.gWindow⟩, heq.le, ⟨hle, hlt⟩, _,
        (at_put hidx v₁).later hl₁₃, hl₁₃.put _⟩
    next hfull =>
      have hfull : st.tl.pWindow ≤ (v₂.state.mem.putArray st.tl.putIndex).count := not_lt.1 hfull
      have hfull₃ := hfull.trans ((later_of_le h₃).put st.tl.putIndex)
      have hscan₃ := hscan.mono fun j _ hj => hj.trans (hl₃.put j)
      split
      next hh =>
        refine wp.bind_of (hop_rely hf hscan₃ hfull₃ hh.ne) ?_
        rintro ⟨index, random, hops⟩ v₄ ⟨h₄, hscan₄⟩
        have hl₄ := later_of_le h₄
        have hscan₄ : Scan set.randomHops set.width
          (fun j => st.tl.pWindow ≤ (v₃.state.mem.putArray j).count) index random hops := hscan₄
        exact ⟨hs₃.trans (.of_le h₄), ⟨hscan₄.lt, hknows.getIndex, (hknows₃.later hl₄).gWindow⟩,
          heq.le.trans hl₄.pWindow, hscan₄.mono fun j _ hj => hj.trans (hl₄.put j)⟩
      next hh =>
        have hall := hscan₃.all (le_antisymm hscan₃.hops_le (not_lt.1 hh))
        refine wp.bind_of (shiftWindow_spec (fun v₄ h₄ => heq.le.trans (later_of_le h₄).pWindow)
          (fun _ => rfl) fun v₄ h₄ he _ => ?_) ?_
        · have he : v₄.state.globalPWindow = st.tl.pWindow := he
          have hstep := shiftPut_allows (v := v₄) fun j hj =>
            he.le.trans ((hall j hj).trans ((later_of_le h₄).put j))
          rw [he] at hstep
          exact hstep
        · rintro m v₄ ⟨h₄, hm⟩
          have hgwin := (hknows₃.later (later_since h₄)).gWindow
          exact ⟨hs₃.trans h₄, ⟨hidx, hknows.getIndex, hgwin⟩, hm, .start hidx⟩

theorem putWindow_spec (hf : Fits types set.randomHops set.width) {contention : Bool} {tl : Local}
    (h : Knows set tl v.state) :
    wp E.protocol c (putWindow set contention tl) (fun a v' => PutPost v a v') v := by
  refine wp.bind_of (startIndex_spec hf h.putIndex) ?_
  rintro index v₁ ⟨h₁, hidx⟩
  refine wp.read fun v₂ h₂ => ?_
  refine wp.forever (fun st v' => PutLoop v st v') ⟨.of_le (h₁.trans h₂),
    ⟨hidx, h.getIndex, (h.later (later_of_le (h₁.trans h₂))).gWindow⟩, le_rfl, .start hidx⟩ ?_
  exact fun st v' h => putRound_spec hf h

/-! ### `get_window` -/

/-- The count that `get_window` compares with is not above the put count. -/
theorem putCount_spec {tl : Local} (hi : tl.getIndex < set.width)
    (hw : tl.pWindow ≤ v.state.globalPWindow) : wp E.protocol c (putCount set tl) (fun m v' =>
      v ≤ v' ∧ m ≤ (v'.state.mem.putArray tl.getIndex).count) v := by
  unfold putCount
  split
  next =>
    have hle := (inv_of v).le_put _ hi
    exact ⟨le_rfl, by omega⟩
  next =>
    intro v₁ h₁ _ _
    exact wp.same (k := .ret) ⟨h₁, le_rfl⟩

/-- The window is moved on below another put window only. -/
theorem canShift_spec {st : Search} (hg : st.tl.gWindow ≤ v.state.globalGWindow)
    (hn : st.notempty = true → st.tl.gWindow < v.state.globalPWindow) :
    wp E.protocol c (canShift st) (fun b v' => v ≤ v' ∧
      if b then st.tl.gWindow < v'.state.globalPWindow
      else st.tl.gWindow = v'.state.globalPWindow) v := by
  unfold canShift
  split
  next hne => exact ⟨le_rfl, hn hne⟩
  next =>
    refine wp.read fun v₁ h₁ => ⟨h₁, ?_⟩
    have hle := (hg.trans (later_of_le h₁).gWindow).trans (inv_of v₁).windows
    by_cases he : st.tl.gWindow = v₁.state.globalPWindow
    · simp [he]
    · simpa [he] using lt_of_le_of_ne hle he

/-- What a round of `get_window` starts with: if it has met an item, the put window is above the
thread's get window. -/
structure GetLoop (v₀ : View E.protocol c) (st : Search) (v : View E.protocol c) : Prop where
  since : Since v₀ v
  knows : Knows set st.tl v.state
  window : st.tl.pWindow ≤ v.state.globalPWindow
  scan : Scan set.randomHops set.width (fun _ => True) st.tl.getIndex st.random st.hops
  notempty : st.notempty = true → st.tl.gWindow < v.state.globalPWindow

/-- What `get_window` returns: a node that was the head of its sub-queue. There is an item behind
it, or the thread's put window is not above its get window. -/
structure GetPost (v₀ : View E.protocol c) (r : Descriptor × Local) (v : View E.protocol c) :
    Prop where
  since : Since v₀ v
  knows : Knows set r.2 v.state
  window : r.2.pWindow ≤ v.state.globalPWindow
  head : ∃ p, At r.2.getIndex p r.1.node v.state ∧ p ≤ (v.state.mem.getArray r.2.getIndex).count ∧
    (p < (v.state.mem.putArray r.2.getIndex).count ∨ r.2.pWindow ≤ r.2.gWindow)

theorem getRound_spec (hf : Fits types set.randomHops set.width) {v₀ : View E.protocol c}
    {st : Search} (h : GetLoop v₀ st v) : wp E.protocol c (getRound set st) (fun r v' =>
      Sum.elim (fun st' => GetLoop v₀ st' v') (fun a => GetPost v₀ a v') r) v := by
  obtain ⟨hs, hknows, hwin, hscan, hnot⟩ := h
  have hidx := hknows.getIndex
  unfold getRound readDescriptor
  simp only [Prog.bind_assoc, Prog.pure_eq_ret, Prog.ret_bind]
  refine wp.read fun v₁ h₁ => wp.read fun v₂ h₂ => ?_
  refine wp.bind_of (putCount_spec hidx (hwin.trans (later_of_le (h₁.trans h₂)).pWindow)) ?_
  rintro m v₃ ⟨h₃, hm⟩
  refine wp.read fun v₄ h₄ => ?_
  have h₀₄ := ((h₁.trans h₂).trans h₃).trans h₄
  have hs₄ := hs.trans (.of_le h₀₄)
  have hl₄ := later_of_le h₀₄
  have hl₁₄ := later_of_le ((h₂.trans h₃).trans h₄)
  have hknows₄ := hknows.later hl₄
  have hwin₄ := hwin.trans hl₄.pWindow
  have hhead : At st.tl.getIndex (v₁.state.mem.getArray st.tl.getIndex).count
      (v₁.state.mem.getArray st.tl.getIndex).node v₄.state := (at_get hidx v₁).later hl₁₄
  split
  next => exact ⟨hs₄, ⟨hknows.putIndex, hidx, le_rfl⟩, hwin₄, .start hidx, nofun⟩
  next heq =>
    have hm₄ := hm.trans ((later_of_le h₄).put st.tl.getIndex)
    split
    next hvalid =>
      have hlt : (v₂.state.mem.getArray st.tl.getIndex).count < m := hvalid.2
      have hle := (later_of_le h₂).get st.tl.getIndex
      exact ⟨hs₄, ⟨hidx, hidx, hknows₄.gWindow⟩, hwin₄, _, hhead, hl₁₄.get _,
        .inl (hle.trans_lt (hlt.trans_le hm₄))⟩
    next hvalid =>
      -- an item above the get window is below the maximum of the put window
      have hput : (v₂.state.mem.getArray st.tl.getIndex).count < m →
          st.tl.gWindow < v₄.state.globalPWindow := by
        intro hlt
        have hge : st.tl.gWindow ≤ (v₂.state.mem.getArray st.tl.getIndex).count :=
          not_lt.1 fun hg => hvalid ⟨hg, hlt⟩
        have hle := (inv_of v₄).put_le hidx
        omega
      have hnot₄ : st.notempty = true → st.tl.gWindow < v₄.state.globalPWindow := fun hn =>
        (hnot hn).trans_le hl₄.pWindow
      split
      next hh =>
        refine wp.bind_of (hop_rely hf hscan True.intro hh) ?_
        rintro ⟨index, random, hops⟩ v₅ ⟨h₅, hscan₅⟩
        have hl₅ := later_of_le h₅
        have hscan₅ : Scan set.randomHops set.width (fun _ => True) index random hops := hscan₅
        refine ⟨hs₄.trans (.of_le h₅),
          ⟨hknows.putIndex, hscan₅.lt, (hknows₄.later hl₅).gWindow⟩, hwin₄.trans hl₅.pWindow,
          hscan₅, fun hn => lt_of_lt_of_le ?_ hl₅.pWindow⟩
        rcases (Bool.or_eq_true _ _).mp hn with hn | hn
        · exact hnot₄ hn
        · exact hput (of_decide_eq_true hn)
      next hh =>
        refine wp.bind_of (canShift_spec hknows₄.gWindow hnot₄) ?_
        rintro (_ | _) v₅ ⟨h₅, hshift⟩
        · have hl₅ := later_of_le h₅
          have hshift : st.tl.gWindow = v₅.state.globalPWindow := hshift
          exact ⟨hs₄.trans (.of_le h₅), ⟨hidx, hidx, (hknows₄.later hl₅).gWindow⟩,
            hwin₄.trans hl₅.pWindow, _, hhead.later hl₅, (hl₁₄.get _).trans (hl₅.get _),
            .inr ((hwin₄.trans hl₅.pWindow).trans hshift.ge)⟩
        · have hl₅ := later_of_le h₅
          have hknows₅ := hknows₄.later hl₅
          have hshift : st.tl.gWindow < v₅.state.globalPWindow := hshift
          refine wp.bind_of (shiftWindow_spec
            (fun v₆ h₆ => hknows₅.gWindow.trans (later_of_le h₆).gWindow) (fun _ => rfl)
            fun v₆ h₆ he ha => ?_) ?_
          · have he : v₆.state.globalGWindow = st.tl.gWindow := he
            rw [← he] at ha
            have hstep := shiftGet_allows (v := v₆)
              (he.trans_lt (hshift.trans_le (later_of_le h₆).pWindow)) ha
            rw [he] at hstep
            exact hstep
          · rintro g v₆ ⟨h₆, hg⟩
            have hl₆ := later_since h₆
            exact ⟨(hs₄.trans (.of_le h₅)).trans h₆, ⟨hknows.putIndex, hidx, hg⟩,
              (hwin₄.trans hl₅.pWindow).trans hl₆.pWindow, .start hidx, nofun⟩

theorem getWindow_spec (hf : Fits types set.randomHops set.width) {contention : Bool} {tl : Local}
    (h : Knows set tl v.state) (hw : tl.pWindow ≤ v.state.globalPWindow) :
    wp E.protocol c (getWindow set contention tl) (fun a v' => GetPost v a v') v := by
  refine wp.bind_of (startIndex_spec hf h.getIndex) ?_
  rintro index v₁ ⟨h₁, hidx⟩
  refine wp.read fun v₂ h₂ => ?_
  have hl₂ := later_of_le (h₁.trans h₂)
  refine wp.forever (fun st v' => GetLoop v st v') ⟨.of_le (h₁.trans h₂),
    ⟨h.putIndex, hidx, le_rfl⟩, hw.trans hl₂.pWindow, .start hidx, nofun⟩ ?_
  exact fun st v' h => getRound_spec hf h

/-! ### `enqueue` -/

/-- What a round of `enqueue` ends with; the assertions have not failed. -/
def Enqueued (set : Params) (n : ℕ)
    (r : (Bool × Local) ⊕ (Local × Option (Descriptor × Descriptor))) (v : View E.protocol c) :
    Prop :=
  Sum.elim (fun a => Knows set a.2 v.state ∧ Mine set.width c.op n v.pair)
    (fun a => Knows set a.1 v.state ∧ ∃ d : Descriptor, a.2 = some (d, ⟨some n, d.count + 1⟩) ∧
      Behind a.1.putIndex n d.node v.state) r

theorem enqueueRound_spec (hf : Fits types set.randomHops set.width) {contention : Bool}
    {tl : Local} (h : Knows set tl v.state) (hn : Mine set.width c.op n v.pair) :
    wp E.protocol c (enqueueRound set n contention tl) (Enqueued set n) v := by
  refine wp.bind_of (putWindow_spec hf h) ?_
  rintro ⟨d, tl'⟩ v₁ ⟨hs, hknows, hwin, hassert, p, hat, hle⟩
  have hn₁ := hn.since hs
  dsimp only
  rw [if_pos hassert]
  refine wp.read fun v₂ h₂ => ?_
  have hl₂ := later_of_le h₂
  split
  next => exact ⟨hknows.later hl₂, hn₁.since (.of_le h₂)⟩
  next hlt =>
    have hlt : (v₂.state.mem.putArray tl'.putIndex).count < tl'.pWindow := not_le.1 hlt
    refine wp.read fun v₃ h₃ => ?_
    have hl₃ := hl₂.trans (later_of_le h₃)
    have hn₃ := hn₁.since (.of_le (h₂.trans h₃))
    have hknows₃ := hknows.later hl₃
    split
    next =>
      have hp : p < v₃.state.globalPWindow :=
        (hle.trans (hl₂.put _)).trans_lt (hlt.trans_le (hwin.trans hl₃.pWindow))
      refine wp.bind_of (enqCas_spec hknows.putIndex (hat.later hl₃)
        (hle.trans (hl₃.put _)) hp hn₃) ?_
      rintro (_ | _) v₄ ⟨hl₄, h₄⟩
      · exact ⟨hknows₃.later hl₄, h₄⟩
      · exact ⟨hknows₃.later hl₄, d, rfl, h₄⟩
    next hne =>
      have hnext := (hat.later hl₃).next hknows.putIndex
      obtain ⟨m, hm⟩ := Option.ne_none_iff_exists'.1 hne
      refine help_spec hknows.putIndex (hat.later hl₃) (hnext.symm.trans hm) fun _ v₄ h₄ => ?_
      exact ⟨hknows₃.later (later_since h₄), hn₃.since h₄⟩

theorem enqueue_spec (hf : Fits types set.randomHops set.width) {tl : Local}
    (h : Knows set tl v.state) (val : ℤ) : wp E.protocol c (enqueue set val tl)
      (fun r v' => Knows set r.1 v'.state ∧ r.2 ≠ .assertFailed) v := by
  refine wp.bind_of (createNode_spec val) fun n v₁ h₁ => ?_
  refine wp.bind_of (wp.forever (Q := fun a v' => Enqueued set n (.inr a) v')
    (fun b v' => Enqueued set n (.inl b) v') ⟨h.later (later_since h₁.1), h₁.2⟩ ?_) ?_
  · rintro ⟨contention, tl'⟩ v₂ h₂
    refine (enqueueRound_spec hf h₂.1 h₂.2).mono ?_
    rintro (a | a) v₃ h₃
    · exact h₃
    · exact h₃
  · rintro ⟨tl', descriptors⟩ v₂ ⟨hknows, d, hd, p, hat, hm⟩
    obtain rfl : descriptors = some (d, ⟨some n, d.count + 1⟩) := hd
    refine wp.bind_of (putCae_spec hknows.putIndex hat hm) fun _ v₃ h₃ => ?_
    exact ⟨hknows.later (later_since h₃), nofun⟩

/-! ### `dequeue` -/

/-- What a round of `dequeue` ends with. -/
def Dequeued (set : Params) (r : (Bool × Local) ⊕ (Local × Answer)) (v : View E.protocol c) :
    Prop :=
  Sum.elim (fun a => Knows set a.2 v.state ∧ a.2.pWindow ≤ v.state.globalPWindow)
    (fun a => Knows set a.1 v.state ∧ a.2 ≠ .assertFailed) r

theorem dequeueHead_spec {d : Descriptor} {tl : Local} (h : Knows set tl v.state)
    (hw : tl.pWindow ≤ v.state.globalPWindow) (hh : At tl.getIndex p d.node v.state)
    (hlt : p < (v.state.mem.putArray tl.getIndex).count) :
    wp E.protocol c (dequeueHead d tl) (Dequeued set) v := by
  refine wp.read fun v₁ h₁ => ?_
  have hl₁ := later_of_le h₁
  have hlt₁ := hlt.trans_le (hl₁.put tl.getIndex)
  have hlen : (v₁.state.mem.putArray tl.getIndex).count <
      (v₁.state.mem.nodes.line tl.getIndex).length := (inv_of v₁).valid.put_lt h.getIndex
  have hm := List.getElem?_eq_getElem
    (show p + 1 < (v₁.state.mem.nodes.line tl.getIndex).length by omega)
  rw [(hh.later hl₁).next h.getIndex, hm]
  refine wp.bind_of (deqCae_spec h.getIndex (hh.later hl₁) hlt₁ hm) fun done v₂ h₂ => ?_
  have hl₂ := hl₁.trans (later_since h₂)
  cases done with
  | true =>
    refine wp.read fun v₃ h₃ => ?_
    exact ⟨h.later (hl₂.trans (later_of_le h₃)), nofun⟩
  | false => exact ⟨h.later hl₂, hw.trans hl₂.pWindow⟩

theorem dequeueRound_spec (hf : Fits types set.randomHops set.width) {contention : Bool}
    {tl : Local} (h : Knows set tl v.state) (hw : tl.pWindow ≤ v.state.globalPWindow) :
    wp E.protocol c (dequeueRound set contention tl) (Dequeued set) v := by
  refine wp.bind_of (getWindow_spec hf h hw) ?_
  rintro ⟨d, tl'⟩ v₁ ⟨-, hknows, hwin, p, hat, hget, hor⟩
  have hidx := hknows.getIndex
  unfold readDescriptor
  simp only [Prog.bind_assoc, Prog.pure_eq_ret, Prog.ret_bind]
  refine wp.read fun v₂ h₂ => wp.read fun v₃ h₃ => ?_
  have hl₂ := later_of_le h₂
  have hl₃ := later_of_le h₃
  have hknows₃ := hknows.later (hl₂.trans hl₃)
  have hwin₃ := hwin.trans (hl₂.trans hl₃).pWindow
  have hat₃ := hat.later (hl₂.trans hl₃)
  split
  next hsafe =>
    have hlt : p < (v₁.state.mem.putArray tl'.getIndex).count := hor.resolve_right (not_le.2 hsafe)
    exact dequeueHead_spec hknows₃ hwin₃ hat₃ (hlt.trans_le ((hl₂.trans hl₃).put _))
  next =>
    split
    next heq =>
      have heq : d.node = (v₂.state.mem.putArray tl'.getIndex).node := heq
      refine wp.read fun v₄ h₄ => ?_
      have hl₄ := later_of_le h₄
      have hat₄ := hat₃.later hl₄
      split
      next => exact ⟨hknows₃.later hl₄, nofun⟩
      next hne =>
        obtain ⟨m, hm⟩ := Option.ne_none_iff_exists'.1 hne
        have hm₄ := (hat₄.next hidx).symm.trans hm
        dsimp only [Arrays.copy, Arrays.put]
        refine help_spec hidx (heq ▸ hat₄) hm₄ fun _ v₅ h₅ => ?_
        have hl₅ := hl₄.trans (later_since h₅)
        exact ⟨hknows₃.later hl₅, hwin₃.trans hl₅.pWindow⟩
    next hne =>
      have hlt := (hat.later hl₂).lt_put hidx (hget.trans (hl₂.get _)) hne
      exact dequeueHead_spec hknows₃ hwin₃ hat₃ (hlt.trans_le (hl₃.put _))

theorem dequeue_spec (hf : Fits types set.randomHops set.width) {tl : Local}
    (h : Knows set tl v.state) : wp E.protocol c (dequeue set tl)
      (fun r v' => Knows set r.1 v'.state ∧ r.2 ≠ .assertFailed) v := by
  refine wp.read fun v₁ h₁ => ?_
  refine wp.forever (fun b v' => Knows set b.2 v'.state ∧ b.2.pWindow ≤ v'.state.globalPWindow)
    ⟨⟨h.putIndex, h.getIndex, (h.later (later_of_le h₁)).gWindow⟩, le_rfl⟩ ?_
  rintro ⟨contention, tl'⟩ v₂ ⟨hknows, hw⟩
  refine (dequeueRound_spec hf hknows hw).mono ?_
  rintro (a | a) v₃ h₃
  · exact h₃
  · exact h₃

end TwoDdOptimized
