import SemanticRelaxation.TwoDd.QueueSteps
import SemanticRelaxation.TwoD.Rely

/-!
# The operations of the 2Dd queue under interference

* `createNode_spec`, `enqCas_spec`, `putCae_spec`, `deqCae_spec`: the exchanges, which the optimized
  queue has as well;
* `putWindow_spec`: the put window moves on after a round over full sub-queues only;
* `getWindow_spec`: the get window stays below the put window, and an answer without an item in
  sight comes with the configurations in which the sub-queues were empty;
* `enqueue_spec` and `dequeue_spec`.
-/

namespace TwoDd

namespace Queue

namespace Concurrent

open AtomicProg Linked MichaelScott TwoD

section Exchanges

variable {L : Type} {S : Service State L} {set : Params} {assume : State → State → Prop}
  {E : Results S (regime S.Call set assume)} {c : Caller} {v v₁ v₂ : View E.protocol c} {j n p : ℕ}

/-- The node `t` stands at position `p` of line `j`. -/
def At (j p : ℕ) (t : Option ℕ) (s : State) : Prop :=
  ∃ n, t = some n ∧ (s.mem.nodes.line j)[p]? = some n

theorem At.later {t : Option ℕ} (h : At j p t v.state) (hv : Later v v₁) : At j p t v₁.state := by
  obtain ⟨n, hn, hp⟩ := h
  exact ⟨n, hn, hv.line hp⟩

theorem at_put (hj : j < set.width) (v : View E.protocol c) :
    At j (v.state.mem.putArray j).count (v.state.mem.putArray j).node v.state := by
  obtain ⟨t, ht⟩ := (inv_of v).valid.tail_some hj
  exact ⟨t, ht, ((inv_of v).valid.tail j hj).trans ht⟩

theorem at_get (hj : j < set.width) (v : View E.protocol c) :
    At j (v.state.mem.getArray j).count (v.state.mem.getArray j).node v.state := by
  obtain ⟨t, ht⟩ := (inv_of v).valid.head_some hj
  exact ⟨t, ht, ((inv_of v).valid.head j hj).trans ht⟩

/-- A node has one position. -/
theorem At.pos_eq {t : Option ℕ} {q : ℕ} (hj : j < set.width) (h : At j p t v.state)
    (h' : At j q t v.state) : p = q := by
  obtain ⟨n, rfl, hp⟩ := h
  obtain ⟨m, hm, hq⟩ := h'
  obtain rfl := Option.some.inj hm
  exact (inv_of v).valid.pos_inj hj hp hq

/-- The successor of a node of a line. -/
theorem At.next {t : Option ℕ} (hj : j < set.width) (h : At j p t v.state) :
    (v.state.mem.nodes.deref t).next = (v.state.mem.nodes.line j)[p + 1]? := by
  obtain ⟨n, rfl, hp⟩ := h
  exact (inv_of v).valid.lines.next j hj p n hp

/-- A node that was the head and is not the tail is before the tail. -/
theorem At.lt_put {t : Option ℕ} (hj : j < set.width) (h : At j p t v.state)
    (hle : p ≤ (v.state.mem.getArray j).count) (hne : t ≠ (v.state.mem.putArray j).node) :
    p < (v.state.mem.putArray j).count := by
  have hput : (v.state.mem.getArray j).count ≤ (v.state.mem.putArray j).count :=
    (inv_of v).valid.le j hj
  refine lt_of_le_of_ne (hle.trans hput) fun e => hne ?_
  obtain ⟨n, hn, hp⟩ := h
  obtain ⟨m, hm, hq⟩ := at_put hj v
  rw [← e, hp] at hq
  rw [hn, hm, hq]

/-- The node `n` of the running call is not linked yet. -/
structure Mine (w op n : ℕ) (x : State × (ℕ → ℕ)) : Prop where
  owner : x.2 n = op
  unlinked : Unlinked w x.1.mem.nodes.toCells n

theorem Mine.since (hn : Mine set.width c.op n v.pair) (h : Since v v₁) :
    Mine set.width c.op n v₁.pair where
  owner := (h.frame.nodes.owner n hn.unlinked.lt_fresh).trans hn.owner
  unlinked := h.frame.nodes.unlinked n (congrArg _ hn.owner.symm) hn.unlinked

theorem createNode_spec (val : ℤ) : wp E.protocol c (createNode val)
    (fun n v' => Since v v' ∧ Mine set.width c.op n v'.pair) v := by
  intro v₁ h₁ _ _
  obtain ⟨hall, hk⟩ := create_allows (v := v₁) val
  exact ⟨_, hall, (Since.of_le h₁).trans (.step hk), Function.update_self ..,
    .create (inv_of v₁).valid.lines val⟩

/-- The node `n` stands behind `tail` in line `j`. -/
def Behind (j n : ℕ) (tail : Option ℕ) (s : State) : Prop :=
  ∃ p, At j p tail s ∧ (s.mem.nodes.line j)[p + 1]? = some n

/-- The link behind a tail that was below the maximum of the put window. -/
theorem enqCas_spec (hj : j < set.width) {tail : Option ℕ} (ht : At j p tail v.state)
    (hle : p ≤ (v.state.mem.putArray j).count) (hlt : p < v.state.globalPWindow)
    (hn : Mine set.width c.op n v.pair) : wp E.protocol c (enqCas j tail n) (fun r v' =>
      Later v v' ∧ if r then Behind j n tail v'.state else Mine set.width c.op n v'.pair) v := by
  unfold enqCas
  refine wp.cae (fun v₁ h₁ he _ => ?_) fun v₁ h₁ _ => ?_
  · have hl := later_of_le h₁
    obtain ⟨t, rfl, ht₁⟩ := ht.later hl
    have hle₁ : p ≤ (v₁.state.mem.putArray j).count := hle.trans (hl.put j)
    obtain ⟨-, hlast⟩ := (inv_of v₁).valid.put_of_last hj ht₁ hle₁ he
    have hlast : p + 1 = (v₁.state.mem.nodes.line j).length := hlast
    have hn₁ := hn.since (.of_le h₁)
    have hall := link_allows hj ht₁ hle₁ he hn₁.unlinked hn₁.owner
      (hlt.trans_le hl.pWindow)
    have hg := Grows.link v₁.state.store j t n
    refine ⟨v₁.now.2, hall, hl.trans ⟨v₁.subset_step _ _ hall.inv, hg, le_rfl, le_rfl⟩, p,
      ⟨t, rfl, hg.getElem? ht₁⟩, ?_⟩
    show (Function.update v₁.state.mem.nodes.line j
      (v₁.state.mem.nodes.line j ++ [n]) j)[p + 1]? = _
    rw [Function.update_self, hlast, List.getElem?_concat_length]
  · exact ⟨later_of_le h₁, hn.since (.of_le h₁)⟩

/-- The tail is swung to the node behind the one that was read. -/
theorem putCae_spec (hj : j < set.width) {tail : Option ℕ} {m count : ℕ} (ht : At j p tail v.state)
    (hm : (v.state.mem.nodes.line j)[p + 1]? = some m) :
    wp E.protocol c (putCae j ⟨tail, count⟩ ⟨some m, count + 1⟩) (fun _ v' => Since v v') v := by
  unfold putCae
  refine wp.cae (fun v₁ h₁ he _ => ?_) fun v₁ h₁ _ => Since.of_le h₁
  have hl := later_of_le h₁
  have he : v₁.state.mem.putArray j = ⟨tail, count⟩ := he
  have hat := at_put hj v₁
  rw [he] at hat
  obtain rfl : p = count := (ht.later hl).pos_eq hj hat
  have hm₁ := hl.line hm
  rw [show p + 1 = (v₁.state.mem.putArray j).count + 1 by rw [he]] at hm₁
  obtain ⟨hall, hk⟩ := swing_allows hm₁
  rw [show (v₁.state.mem.putArray j).count = p by rw [he]] at hall hk
  exact ⟨v₁.now.2, hall, (Since.of_le h₁).trans (.step hk)⟩

/-- A pending enqueue behind `tail` is helped. -/
theorem help_spec {α : Type} {k : Bool → Prog State α} {Q : α → View E.protocol c → Prop}
    (hj : j < set.width) {tail : Option ℕ} {m count : ℕ} (ht : At j p tail v.state)
    (hm : (v.state.mem.nodes.line j)[p + 1]? = some m)
    (hk : ∀ done v', Since v v' → wp E.protocol c (k done) Q v') :
    wp E.protocol c (readNext tail >>= fun next => putCae j ⟨tail, count⟩ ⟨next, count + 1⟩ >>= k)
      Q v := by
  refine wp.read fun v₁ h₁ => ?_
  have hl₁ := later_of_le h₁
  rw [(ht.later hl₁).next hj, hl₁.line hm]
  refine wp.bind_of (putCae_spec hj (ht.later hl₁) (hl₁.line hm)) fun done v₂ h₂ => ?_
  exact hk done v₂ ((Since.of_le h₁).trans h₂)

/-- The head is moved on, where the put count is known to be above its position. -/
theorem deqCae_spec (hj : j < set.width) {head : Option ℕ} {m count : ℕ}
    (hh : At j p head v.state) (hlt : p < (v.state.mem.putArray j).count)
    (hm : (v.state.mem.nodes.line j)[p + 1]? = some m) :
    wp E.protocol c (deqCae j ⟨head, count⟩ ⟨some m, count + 1⟩) (fun _ v' => Since v v') v := by
  unfold deqCae
  refine wp.cae (fun v₁ h₁ he ha => ?_) fun v₁ h₁ _ => Since.of_le h₁
  have hl := later_of_le h₁
  have he : v₁.state.mem.getArray j = ⟨head, count⟩ := he
  have hat := at_get hj v₁
  rw [he] at hat
  obtain rfl : p = count := (hh.later hl).pos_eq hj hat
  have hcount : (v₁.state.mem.getArray j).count = p := by rw [he]
  have hm₁ := hl.line hm
  have hlt₁ := hlt.trans_le (hl.put j)
  rw [← hcount] at hm₁ hlt₁ ha
  obtain ⟨hall, hk⟩ := take_allows hj hlt₁ hm₁ ha
  rw [hcount] at hall hk
  exact ⟨v₁.now.2, hall, (Since.of_le h₁).trans (.step hk)⟩

end Exchanges

section Operations

variable {set : Params} {assume : State → State → Prop}
  {E : Results (object set).service (regime Call set assume)} {c : Caller}
  {v v₁ v₂ : View E.protocol c} {j n p : ℕ}

/-! ### `put_window` -/

theorem startIndex_spec (hf : Fits types set.randomHops set.width) {contention : Bool} {index : ℕ}
    (hi : index < set.width) : wp E.protocol c (startIndex set contention index)
      (fun i v' => v ≤ v' ∧ i < set.width) v := by
  unfold startIndex
  split
  next => exact randomIndex_rely hf.modulus
  next => exact ⟨le_rfl, hi⟩

/-- A thread's copy of a window is one that the window once was. -/
theorem syncWindow_spec {window : State → ℕ} {old : ℕ} :
    wp E.protocol c (syncWindow window old) (fun m v' => v ≤ v' ∧ m ≤ window v'.state) v := by
  refine wp.read fun v₁ h₁ => ?_
  split
  next =>
    intro v₂ h₂ _ _
    exact wp.same (k := .ret) ⟨h₁.trans h₂, le_rfl⟩
  next heq => exact ⟨h₁, (not_not.1 heq).le⟩

/-- The put counts of the indices that a round of `put_window` has left are not below its window. -/
def PutScan (set : Params) (st : Search) (s : State) : Prop :=
  Scan set.randomHops set.width (fun j => st.tl.pWindow ≤ (s.mem.putArray j).count)
    st.tl.index st.random st.hops

theorem PutScan.later {st : Search} (h : PutScan set st v.state) (hv : Later v v₁) :
    PutScan set st v₁.state :=
  Scan.mono h fun j _ hj => hj.trans (hv.put j)

/-- What a round of `put_window` starts with. -/
structure PutLoop (v₀ : View E.protocol c) (st : Search) (v : View E.protocol c) : Prop where
  since : Since v₀ v
  window : st.tl.pWindow ≤ v.state.globalPWindow
  scan : PutScan set st v.state

/-- What `put_window` returns: a node that was the tail of its sub-queue. -/
structure PutPost (v₀ : View E.protocol c) (r : Descriptor × Local) (v : View E.protocol c) :
    Prop where
  since : Since v₀ v
  window : r.2.pWindow ≤ v.state.globalPWindow
  index : r.2.index < set.width
  tail : ∃ p, At r.2.index p r.1.node v.state ∧ p ≤ (v.state.mem.putArray r.2.index).count

/-- The attempt to move the put window on after a complete round. -/
theorem shiftPut_spec {old : ℕ} (hall : ∀ j < set.width, old ≤ (v.state.mem.putArray j).count) :
    wp E.protocol c (shiftWindow Shared.globalPWindow (fun m s => { s with globalPWindow := m })
      old (old + set.depth)) (fun m v' => Since v v' ∧ m ≤ v'.state.globalPWindow) v := by
  simp only [shiftWindow, tryShift, Prog.bind_assoc]
  refine wp.read fun v₁ h₁ => ?_
  split
  next =>
    simp only [Prog.bind_assoc]
    refine wp.cae (fun v₂ h₂ he _ => ?_) fun v₂ h₂ _ => ?_
    · have he : v₂.state.globalPWindow = old := he
      have hs := h₁.trans h₂
      have hall₂ : ∀ j < set.width, v₂.state.globalPWindow ≤ (v₂.state.mem.putArray j).count :=
        fun j hj => he.le.trans ((hall j hj).trans ((later_of_le hs).put j))
      obtain ⟨hok, hk⟩ := shiftPut_allows hall₂
      rw [he] at hok hk
      refine ⟨v₂.now.2, hok, fun v₃ h₃ _ _ => wp.same (k := .ret) ⟨?_, le_rfl⟩⟩
      exact ((Since.of_le hs).trans (.step hk)).trans (.of_le h₃)
    · intro v₃ h₃ _ _
      exact wp.same (k := .ret) ⟨.of_le ((h₁.trans h₂).trans h₃), le_rfl⟩
  next =>
    intro v₂ h₂ _ _
    exact wp.same (k := .ret) ⟨.of_le (h₁.trans h₂), le_rfl⟩

theorem putRound_spec (hf : Fits types set.randomHops set.width) {v₀ : View E.protocol c}
    {st : Search} (h : PutLoop v₀ st v) : wp E.protocol c (putRound set st) (fun r v' =>
      Sum.elim (fun st' => PutLoop v₀ st' v') (fun a => PutPost v₀ a v') r) v := by
  obtain ⟨hs, hwin, hscan⟩ := h
  have hidx : st.tl.index < set.width := Scan.lt hscan
  unfold putRound readDescriptor
  simp only [Prog.bind_assoc, Prog.pure_eq_ret, Prog.ret_bind]
  refine wp.read fun v₁ h₁ => wp.read fun v₂ h₂ => wp.read fun v₃ h₃ => ?_
  have hs₃ := hs.trans (.of_le ((h₁.trans h₂).trans h₃))
  have hl₃ := later_of_le ((h₁.trans h₂).trans h₃)
  split
  next => exact ⟨hs₃, le_rfl, .start hidx⟩
  next heq =>
    have heq : v₃.state.globalPWindow = st.tl.pWindow := not_not.1 heq
    split
    next =>
      have hl₁₃ := later_of_le (h₂.trans h₃)
      exact ⟨hs₃, heq.ge, hidx, _, (at_put hidx v₁).later hl₁₃, hl₁₃.put _⟩
    next hfull =>
      have hfull : v₃.state.globalPWindow ≤ (v₂.state.mem.putArray st.tl.index).count :=
        not_lt.1 hfull
      have hfull₃ : st.tl.pWindow ≤ (v₃.state.mem.putArray st.tl.index).count :=
        heq.ge.trans (hfull.trans ((later_of_le h₃).put _))
      have hscan₃ := hscan.later hl₃
      split
      next hh =>
        refine wp.bind_of (hop_rely hf hscan₃ hfull₃ hh) ?_
        rintro ⟨index, random, hops⟩ v₄ ⟨h₄, hscan₄⟩
        have hl₄ := later_of_le h₄
        exact ⟨hs₃.trans (.of_le h₄), heq.ge.trans hl₄.pWindow,
          Scan.mono hscan₄ fun j _ hj => hj.trans (hl₄.put j)⟩
      next hh =>
        refine wp.bind_of (shiftPut_spec (Scan.all hscan₃ (not_not.1 hh))) ?_
        rintro m v₄ ⟨h₄, hm⟩
        exact ⟨hs₃.trans h₄, hm, .start hidx⟩

theorem putWindow_spec (hf : Fits types set.randomHops set.width) {contention : Bool} {tl : Local}
    (hi : tl.index < set.width) :
    wp E.protocol c (putWindow set contention tl) (fun a v' => PutPost v a v') v := by
  refine wp.bind_of (startIndex_spec hf hi) ?_
  rintro index v₁ ⟨h₁, hidx⟩
  refine wp.bind_of syncWindow_spec ?_
  rintro pWindow v₂ ⟨h₂, hwin⟩
  refine wp.forever (fun st v' => PutLoop v st v') ⟨.of_le (h₁.trans h₂), hwin, .start hidx⟩ ?_
  exact fun st v' h => putRound_spec hf h

/-! ### `get_window` -/

/-- Sub-queue `j` was empty in a configuration that the call has seen. -/
def WasClear (j : ℕ) (v : View E.protocol c) : Prop :=
  ∃ u ∈ v.seen, (u.1.shared.mem.putArray j).count = (u.1.shared.mem.getArray j).count

theorem WasClear.later (h : WasClear j v) (hv : v.seen ⊆ v₁.seen) : WasClear j v₁ := by
  obtain ⟨u, hu, he⟩ := h
  exact ⟨u, hv hu, he⟩

/-- What a round of `get_window` starts with: if the indices it has left had no items, they were
empty, and otherwise the put window is above the thread's get window. -/
structure GetLoop (v₀ : View E.protocol c) (st : Search) (v : View E.protocol c) : Prop where
  since : Since v₀ v
  scan : Scan set.randomHops set.width (fun j => st.notempty = true ∨ WasClear j v)
    st.tl.index st.random st.hops
  notempty : st.notempty = true → st.tl.gWindow < v.state.globalPWindow

/-- What `get_window` returns: a node that was the head of its sub-queue. There is an item behind
it, or all sub-queues were empty. -/
structure GetPost (v₀ : View E.protocol c) (r : Descriptor × Local) (v : View E.protocol c) :
    Prop where
  since : Since v₀ v
  index : r.2.index < set.width
  head : ∃ p, At r.2.index p r.1.node v.state ∧ p ≤ (v.state.mem.getArray r.2.index).count ∧
    (p < (v.state.mem.putArray r.2.index).count ∨ ∀ j < set.width, WasClear j v)

/-- The attempt to move the get window on. -/
theorem shiftGet_spec {old : ℕ} (hlt : old < v.state.globalPWindow) :
    wp E.protocol c (shiftWindow Shared.globalGWindow (fun m s => { s with globalGWindow := m })
      old (old + set.depth)) (fun _ v' => Since v v') v := by
  simp only [shiftWindow, tryShift, Prog.bind_assoc]
  refine wp.read fun v₁ h₁ => ?_
  split
  next =>
    simp only [Prog.bind_assoc]
    refine wp.cae (fun v₂ h₂ he ha => ?_) fun v₂ h₂ _ => ?_
    · have he : v₂.state.globalGWindow = old := he
      have hs := h₁.trans h₂
      have hlt₂ : v₂.state.globalGWindow < v₂.state.globalPWindow :=
        he.trans_lt (hlt.trans_le (later_of_le hs).pWindow)
      rw [← he] at ha
      obtain ⟨hok, hk⟩ := shiftGet_allows hlt₂ ha
      rw [he] at hok hk
      refine ⟨v₂.now.2, hok, fun v₃ h₃ _ _ => wp.same (k := .ret) ?_⟩
      exact ((Since.of_le hs).trans (.step hk)).trans (.of_le h₃)
    · intro v₃ h₃ _ _
      exact wp.same (k := .ret) (.of_le ((h₁.trans h₂).trans h₃))
  next =>
    intro v₂ h₂ _ _
    exact wp.same (k := .ret) (.of_le (h₁.trans h₂))

/-- A get count that is read first, and a put count that is read later and differs, are those of a
sub-queue with an item. -/
theorem count_lt (hj : j < set.width) (h : v₁ ≤ v₂)
    (hne : (v₂.state.mem.putArray j).count ≠ (v₁.state.mem.getArray j).count) :
    (v₁.state.mem.getArray j).count < (v₂.state.mem.putArray j).count := by
  have h₁ := (later_of_le h).get j
  have h₂ : (v₂.state.mem.getArray j).count ≤ (v₂.state.mem.putArray j).count :=
    (inv_of v₂).valid.le j hj
  omega

theorem wasClear_of_eq (hj : j < set.width) (h : v₁ ≤ v₂)
    (he : (v₂.state.mem.putArray j).count = (v₁.state.mem.getArray j).count) : WasClear j v₂ := by
  have h₁ := (later_of_le h).get j
  have h₂ : (v₂.state.mem.getArray j).count ≤ (v₂.state.mem.putArray j).count :=
    (inv_of v₂).valid.le j hj
  exact ⟨v₂.now, v₂.mem, le_antisymm (he.le.trans h₁) h₂⟩

theorem getRound_spec (hf : Fits types set.randomHops set.width) {v₀ : View E.protocol c}
    {st : Search} (h : GetLoop v₀ st v) : wp E.protocol c (getRound set st) (fun r v' =>
      Sum.elim (fun st' => GetLoop v₀ st' v') (fun a => GetPost v₀ a v') r) v := by
  obtain ⟨hs, hscan, hnot⟩ := h
  have hidx : st.tl.index < set.width := Scan.lt hscan
  unfold getRound readDescriptor
  simp only [Prog.bind_assoc, Prog.pure_eq_ret, Prog.ret_bind]
  refine wp.read fun v₁ h₁ => wp.read fun v₂ h₂ => wp.read fun v₃ h₃ => wp.read fun v₄ h₄ => ?_
  have h₀₄ := ((h₁.trans h₂).trans h₃).trans h₄
  have hs₄ := hs.trans (.of_le h₀₄)
  have hl₁₄ := later_of_le ((h₂.trans h₃).trans h₄)
  have hhead : At st.tl.index (v₁.state.mem.getArray st.tl.index).count
      (v₁.state.mem.getArray st.tl.index).node v₄.state := (at_get hidx v₁).later hl₁₄
  split
  next => exact ⟨hs₄, .start hidx, nofun⟩
  next heq =>
    have heq : v₄.state.globalGWindow = st.tl.gWindow := not_not.1 heq
    split
    next hvalid =>
      have hlt := count_lt hidx h₃ hvalid.2
      have hle := (later_of_le h₂).get st.tl.index
      refine ⟨hs₄, hidx, _, hhead, hl₁₄.get _, .inl ?_⟩
      exact hle.trans_lt (hlt.trans_le ((later_of_le h₄).put _))
    next hvalid =>
      have hscan₄ := hscan.mono fun j _ hj => hj.imp_right fun hc =>
        hc.later (show _ ⊆ v₄.seen from h₀₄.1)
      -- an item above the get window is below the maximum of the put window
      have hput : (v₃.state.mem.putArray st.tl.index).count ≠
          (v₂.state.mem.getArray st.tl.index).count → st.tl.gWindow < v₄.state.globalPWindow := by
        intro hne
        have hlt := count_lt hidx h₃ hne
        have hge : v₄.state.globalGWindow ≤ (v₂.state.mem.getArray st.tl.index).count :=
          not_lt.1 fun hlt => hvalid ⟨hlt, hne⟩
        have hle := (inv_of v₃).put_le hidx
        have hwin := (later_of_le h₄).pWindow
        omega
      have hnot₄ : st.notempty = true → st.tl.gWindow < v₄.state.globalPWindow := fun hn =>
        (hnot hn).trans_le (later_of_le h₀₄).pWindow
      split
      next hh =>
        have hclear : (st.notempty || decide ((v₃.state.mem.putArray st.tl.index).count ≠
            (v₂.state.mem.getArray st.tl.index).count)) = true ∨ WasClear st.tl.index v₄ := by
          by_cases hne : (v₃.state.mem.putArray st.tl.index).count ≠
            (v₂.state.mem.getArray st.tl.index).count
          · exact .inl (by simp [hne])
          · exact .inr ((wasClear_of_eq hidx h₃ (not_not.1 hne)).later h₄.1)
        have hscan' : Scan set.randomHops set.width (fun j => (st.notempty ||
            decide ((v₃.state.mem.putArray st.tl.index).count ≠
              (v₂.state.mem.getArray st.tl.index).count)) = true ∨ WasClear j v₄)
            st.tl.index st.random st.hops :=
          hscan₄.mono fun j _ hj => hj.imp_left fun hn => by simp [hn]
        refine wp.bind_of (hop_rely hf hscan' hclear hh) ?_
        rintro ⟨index, random, hops⟩ v₅ ⟨h₅, hscan₅⟩
        refine ⟨hs₄.trans (.of_le h₅), hscan₅.mono fun j _ hj => hj.imp_right fun hc =>
          hc.later h₅.1, fun hn => ?_⟩
        refine lt_of_lt_of_le ?_ (later_of_le h₅).pWindow
        rcases (Bool.or_eq_true _ _).mp hn with hn | hn
        · exact hnot₄ hn
        · exact hput (of_decide_eq_true hn)
      next hh =>
        have hall := hscan₄.all (not_not.1 hh)
        split
        next hn =>
          refine wp.bind_of (shiftGet_spec (hnot₄ hn)) fun m v₅ h₅ => ?_
          exact ⟨hs₄.trans h₅, .start hidx, nofun⟩
        next hn =>
          exact ⟨hs₄, hidx, _, hhead, hl₁₄.get _, .inr fun j hj => (hall j hj).resolve_left hn⟩

theorem getWindow_spec (hf : Fits types set.randomHops set.width) {contention : Bool} {tl : Local}
    (hi : tl.index < set.width) :
    wp E.protocol c (getWindow set contention tl) (fun a v' => GetPost v a v') v := by
  refine wp.read fun v₁ h₁ => wp.bind_of (startIndex_spec hf hi) ?_
  rintro index v₂ ⟨h₂, hidx⟩
  refine wp.bind_of syncWindow_spec ?_
  rintro gWindow v₃ ⟨h₃, -⟩
  refine wp.forever (fun st v' => GetLoop v st v')
    ⟨.of_le ((h₁.trans h₂).trans h₃), .start hidx, nofun⟩ ?_
  exact fun st v' h => getRound_spec hf h

/-! ### `enqueue` -/

/-- What a round of `enqueue` ends with. -/
def Enqueued (w n : ℕ) (r : (Bool × Local) ⊕ (Local × Descriptor × Descriptor))
    (v : View E.protocol c) : Prop :=
  Sum.elim (fun a => a.2.index < w ∧ Mine w c.op n v.pair)
    (fun a => a.1.index < w ∧ a.2.2 = ⟨some n, a.2.1.count + 1⟩ ∧
      Behind a.1.index n a.2.1.node v.state) r

theorem enqueueRound_spec (hf : Fits types set.randomHops set.width) {contention : Bool}
    {tl : Local} (hi : tl.index < set.width) (hn : Mine set.width c.op n v.pair) :
    wp E.protocol c (enqueueRound set n contention tl) (Enqueued set.width n) v := by
  refine wp.bind_of (putWindow_spec hf hi) ?_
  rintro ⟨d, tl'⟩ v₁ ⟨hs, hwin, hidx, p, hat, hle⟩
  have hn₁ := hn.since hs
  refine wp.read fun v₂ h₂ => ?_
  have hl₂ := later_of_le h₂
  have hat₂ := hat.later hl₂
  split
  next =>
    refine wp.read fun v₃ h₃ => ?_
    have hl₃ := hl₂.trans (later_of_le h₃)
    have hn₃ := hn₁.since (.of_le (h₂.trans h₃))
    split
    next => exact ⟨hidx, hn₃⟩
    next hlt =>
      have hlt : (v₃.state.mem.putArray tl'.index).count < tl'.pWindow := not_le.1 hlt
      have hle₃ := hle.trans (hl₃.put _)
      refine wp.bind_of (enqCas_spec hidx (hat.later hl₃) hle₃
        (hle₃.trans_lt (hlt.trans_le (hwin.trans hl₃.pWindow))) hn₃) ?_
      rintro (_ | _) v₄ ⟨-, h₄⟩
      · exact ⟨hidx, h₄⟩
      · exact ⟨hidx, rfl, h₄⟩
  next hne =>
    have hnext := hat₂.next hidx
    obtain ⟨m, hm⟩ := Option.ne_none_iff_exists'.1 hne
    refine help_spec hidx hat₂ (hnext.symm.trans hm) fun _ v₃ h₃ => ?_
    exact ⟨hidx, hn₁.since ((Since.of_le h₂).trans h₃)⟩

theorem enqueue_spec (hf : Fits types set.randomHops set.width) {tl : Local}
    (hi : tl.index < set.width) (val : ℤ) :
    wp E.protocol c (enqueue set val tl) (fun r _ => r.1.index < set.width) v := by
  refine wp.bind_of (createNode_spec val) fun n v₁ h₁ => ?_
  refine wp.bind_of (wp.forever (Q := fun a v' => Enqueued set.width n (.inr a) v')
    (fun b v' => Enqueued set.width n (.inl b) v') ⟨hi, h₁.2⟩ ?_) ?_
  · rintro ⟨contention, tl'⟩ v₂ h₂
    refine (enqueueRound_spec hf h₂.1 h₂.2).mono ?_
    rintro (a | a) v₃ h₃
    · exact h₃
    · exact h₃
  · rintro ⟨tl', d, d'⟩ v₂ ⟨hidx, hd, p, hat, hm⟩
    obtain rfl : d' = ⟨some n, d.count + 1⟩ := hd
    exact wp.bind_of (putCae_spec hidx hat hm) fun _ _ _ => hidx

/-! ### `dequeue` -/

/-- What a round of `dequeue` ends with: an answer 0 comes with the configurations in which the
sub-queues were empty. -/
def Dequeued (w : ℕ) (r : (Bool × Local) ⊕ (Local × Option ℤ)) (v : View E.protocol c) : Prop :=
  Sum.elim (fun a => a.2.index < w)
    (fun a => a.1.index < w ∧ (a.2 = none → ∀ j < w, WasClear j v)) r

theorem dequeueHead_spec {d : Descriptor} {tl : Local} (hi : tl.index < set.width)
    (hh : At tl.index p d.node v.state) (hlt : p < (v.state.mem.putArray tl.index).count) :
    wp E.protocol c (dequeueHead d tl) (Dequeued set.width) v := by
  refine wp.read fun v₁ h₁ => ?_
  have hl₁ := later_of_le h₁
  have hlt₁ := hlt.trans_le (hl₁.put tl.index)
  have hlen : (v₁.state.mem.putArray tl.index).count < (v₁.state.mem.nodes.line tl.index).length :=
    (inv_of v₁).valid.put_lt hi
  have hm := List.getElem?_eq_getElem (show p + 1 < (v₁.state.mem.nodes.line tl.index).length by
    omega)
  rw [(hh.later hl₁).next hi, hm]
  refine wp.bind_of (deqCae_spec hi (hh.later hl₁) hlt₁ hm) fun done v₂ h₂ => ?_
  cases done with
  | true => exact wp.read fun v₃ _ => wp.read fun v₄ _ => ⟨hi, nofun⟩
  | false => exact hi

theorem dequeueRound_spec (hf : Fits types set.randomHops set.width) {contention : Bool}
    {tl : Local} (hi : tl.index < set.width) :
    wp E.protocol c (dequeueRound set contention tl) (Dequeued set.width) v := by
  refine wp.bind_of (getWindow_spec hf hi) ?_
  rintro ⟨d, tl'⟩ v₁ ⟨-, hidx, p, hat, hget, hor⟩
  unfold readDescriptor
  simp only [Prog.bind_assoc, Prog.pure_eq_ret, Prog.ret_bind]
  refine wp.read fun v₂ h₂ => wp.read fun v₃ h₃ => ?_
  have hl₂ := later_of_le h₂
  have htail := at_put hidx v₂
  split
  next heq =>
    have heq : d.node = (v₂.state.mem.putArray tl'.index).node := heq
    rw [← heq] at htail
    -- the head is the tail, so there was no item behind it
    have hp := (hat.later hl₂).pos_eq hidx htail
    have hall : ∀ j < set.width, WasClear j v₁ := by
      refine hor.resolve_left fun hlt => ?_
      exact absurd hp (Nat.lt_of_lt_of_le hlt (hl₂.put tl'.index)).ne
    refine wp.read fun v₄ h₄ => ?_
    have h₁₄ := (h₂.trans h₃).trans h₄
    have hl₄ := later_of_le (h₃.trans h₄)
    split
    next => exact ⟨hidx, fun _ j hj => (hall j hj).later h₁₄.1⟩
    next hne =>
      obtain ⟨m, hm⟩ := Option.ne_none_iff_exists'.1 hne
      have hm₄ := ((htail.later hl₄).next hidx).symm.trans hm
      dsimp only [Arrays.copy, Arrays.put]
      refine help_spec hidx (heq ▸ htail.later hl₄) hm₄ fun _ v₅ _ => ?_
      exact hidx
  next hne =>
    have hne : d.node ≠ (v₂.state.mem.putArray tl'.index).node := hne
    have hlt := (hat.later hl₂).lt_put hidx (hget.trans (hl₂.get _)) hne
    exact dequeueHead_spec hidx (hat.later (later_of_le (h₂.trans h₃)))
      (hlt.trans_le ((later_of_le h₃).put _))

theorem dequeue_spec (hf : Fits types set.randomHops set.width) {tl : Local}
    (hi : tl.index < set.width) : wp E.protocol c (dequeue set tl) (fun r v' =>
      r.1.index < set.width ∧ (r.2 = none → ∀ j < set.width, WasClear j v')) v := by
  refine wp.forever (fun b v' => b.2.index < set.width) hi ?_
  rintro ⟨contention, tl'⟩ v₁ h₁
  refine (dequeueRound_spec hf h₁).mono ?_
  rintro (a | a) v₂ h₂
  · exact h₂
  · exact h₂

end Operations

end Concurrent

end Queue

end TwoDd
