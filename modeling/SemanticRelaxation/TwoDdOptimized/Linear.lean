import SemanticRelaxation.TwoDd.QueueLinear
import SemanticRelaxation.TwoDdOptimized.Relaxed

/-!
# The calls of the optimized 2Dd queue

The exchanges are those of the 2Dd queue. A dequeue that does not compare head and tail takes a node
that is there: the put window is above its get window.

* `enqueueRound_commits`, `dequeueRound_commits`: where the operations take effect;
* `queue_explained`, `optimizedQueue_linearizable` and `optimizedQueue_relaxed`.
-/

namespace TwoDdOptimized

open AtomicProg Linked MichaelScott TwoD TwoDd TwoDd.Queue TwoDd.Queue.Concurrent Fifos

/-! ### Quiet steps -/

section Quiet

variable {set : Params}

theorem quiet_startIndex (contention : Bool) (index : ℕ) :
    (startIndex set contention index).Steps Quiet := by
  unfold startIndex
  split
  · exact quiet_randomIndex _ _
  · exact True.intro

theorem quiet_shiftWindow {window : State → ℕ} {store : ℕ → State → State}
    (h : ∀ m s, Quiet s (store m s)) (old new : ℕ) :
    (shiftWindow window store old new).Steps Quiet := by
  refine .bind (quiet_read _) fun max => ?_
  split
  · exact .bind (.cae Quiet.refl fun s _ => h new s) fun _ => True.intro
  · exact True.intro

theorem quiet_putRound (st : Search) : (putRound set st).Steps Quiet := by
  refine .bind (quiet_readDescriptor _ _) fun d => .bind (quiet_read _) fun max => ?_
  split
  · exact True.intro
  · split
    · exact True.intro
    · split
      · exact .bind (quiet_hop _ _ _ _ _ _) fun _ => True.intro
      · refine .bind (quiet_shiftWindow ?_ _ _) fun _ => True.intro
        exact fun _ _ => ⟨rfl, rfl⟩

theorem quiet_putWindow (contention : Bool) (tl : Local) :
    (putWindow set contention tl).Steps Quiet :=
  .bind (quiet_startIndex _ _) fun _ => .bind (quiet_read _) fun _ => .forever quiet_putRound _

theorem quiet_putCount (tl : Local) : (putCount set tl).Steps Quiet := by
  unfold putCount
  split
  · exact True.intro
  · exact quiet_read _

theorem quiet_canShift (st : Search) : (canShift st).Steps Quiet := by
  unfold canShift
  split
  · exact True.intro
  · exact .bind (quiet_read _) fun _ => True.intro

theorem quiet_getRound (st : Search) : (getRound set st).Steps Quiet := by
  refine .bind (quiet_readDescriptor _ _) fun d => .bind (quiet_putCount _) fun count => ?_
  refine .bind (quiet_read _) fun max => ?_
  split
  · exact True.intro
  · split
    · exact True.intro
    · split
      · exact .bind (quiet_hop _ _ _ _ _ _) fun _ => True.intro
      · refine .bind (quiet_canShift _) fun shift => ?_
        split
        · refine .bind (quiet_shiftWindow ?_ _ _) fun _ => True.intro
          exact fun _ _ => ⟨rfl, rfl⟩
        · exact True.intro

theorem quiet_getWindow (contention : Bool) (tl : Local) :
    (getWindow set contention tl).Steps Quiet :=
  .bind (quiet_startIndex _ _) fun _ => .bind (quiet_read _) fun _ => .forever quiet_getRound _

end Quiet

/-! ### The operations -/

/-- What the calls answer. -/
def callInterface : Interface Call Answer where
  kind
    | .enqueue val => .put val
    | .dequeue => .get
  done := .enqueued
  got := .value
  empty := .empty

section Operations

variable {set : Params} {A : Spec Call Answer} {assume : State → State → Prop} {stands : A.State →
  State → Prop}

/-- The rules of the queue. -/
abbrev rules (A : Spec Call Answer) (set : Params) (assume : State → State → Prop)
    (stands : A.State → State → Prop) : Protocol (object set).service ((ℕ → ℕ) × Account A) :=
  (Model.results (S := (object set).service) (linear A set assume stands)).protocol

variable {c : Caller} {v v₁ : View (rules A set assume stands) c} {call : (object set).service.Call}
  {val : ℤ} {n p : ℕ}
  {tl : Local}

theorem Knows.plain (h : Knows set tl v.state) (hl : Later (plain v) (plain v₁)) :
    Knows set tl v₁.state :=
  ⟨h.putIndex, h.getIndex, h.gWindow.trans hl.gWindow⟩

/-- What a round of `enqueue` ends with. -/
def Put (call : (object set).service.Call) (val : ℤ) (n : ℕ)
    (r : (Bool × Local) ⊕ (Local × Option (Descriptor × Descriptor)))
    (v : View (rules A set assume stands) c) : Prop :=
  Sum.elim (fun a => Knows set a.2 v.state ∧ Ready call val n v)
    (fun a => Knows set a.1 v.state ∧ Model.Done v Answer.enqueued ∧
      ∃ d : Descriptor, a.2 = some (d, ⟨some n, d.count + 1⟩) ∧
        Behind a.1.putIndex n d.node v.state) r

/-- What a round of `dequeue` ends with. -/
def Got (call : (object set).service.Call) (r : (Bool × Local) ⊕ (Local × Answer))
    (v : View (rules A set assume stands) c) : Prop :=
  Sum.elim (fun a => Knows set a.2 v.state ∧ a.2.pWindow ≤ v.state.globalPWindow ∧
    Model.Waiting call v)
    (fun a => Knows set a.1 v.state ∧ Model.Answered v call a.2) r

variable (hx : Explains A callInterface set assume stands)
include hx

theorem enqueueRound_commits (hf : Fits types set.randomHops set.width) {contention : Bool}
    (h : Knows set tl v.state) (hk : callInterface.kind call = .put val) (hn : Ready call val n v) :
    wp (rules A set assume stands) c (enqueueRound set n contention tl) (Put call val n) v := by
  refine wp.bind_of (quietly hx (quiet_putWindow _ _) (putWindow_spec hf h)) ?_
  rintro ⟨d, tl'⟩ v₁ ⟨⟨hs, hknows, hwin, hassert, p, hat, hle⟩, ht⟩
  have hidx := hknows.putIndex
  have hn₁ := hn.tracks ht hs
  dsimp only
  rw [if_pos hassert]
  refine wp.read fun v₂ h₂ => ?_
  have hl₂ := later_plain h₂
  split
  next => exact ⟨Knows.plain hknows hl₂, hn₁.later h₂⟩
  next hlt =>
    have hlt : (v₂.state.mem.putArray tl'.putIndex).count < tl'.pWindow := not_le.1 hlt
    refine wp.read fun v₃ h₃ => ?_
    have hl₃ := hl₂.trans (later_plain h₃)
    have hn₃ := hn₁.later (h₂.trans h₃)
    have hknows₃ : Knows set tl' v₃.state := Knows.plain hknows hl₃
    have hat₃ : At tl'.putIndex p d.node v₃.state := At.later (v := plain v₁) hat hl₃
    split
    next =>
      have hp : p < v₃.state.globalPWindow :=
        (hle.trans (hl₂.put _)).trans_lt (hlt.trans_le (hwin.trans hl₃.pWindow))
      refine wp.bind_of (enqCas_commits hx hk hidx hat₃ (hle.trans (hl₃.put _)) hp hn₃) ?_
      rintro (_ | _) v₄ ⟨hl₄, h₄⟩
      · exact ⟨Knows.plain hknows₃ hl₄, h₄⟩
      · exact ⟨Knows.plain hknows₃ hl₄, h₄.1, d, rfl, h₄.2⟩
    next hne =>
      obtain ⟨m, hm⟩ := Option.ne_none_iff_exists'.1 hne
      refine wp.read fun v₄ h₄ => ?_
      have hat₄ : At tl'.putIndex p d.node v₄.state :=
        At.later (v := plain v₃) hat₃ (later_plain h₄)
      have hm₄ : (v₄.state.mem.nodes.line tl'.putIndex)[p + 1]? = some m :=
        (later_plain h₄).line ((At.next (v := plain v₃) hidx hat₃).symm.trans hm)
      rw [show (v₄.state.mem.nodes.deref d.node).next =
        some m from (At.next (v := plain v₄) hidx hat₄).trans hm₄]
      refine wp.bind_of (quietly hx (quiet_putCae _ _ _) (putCae_spec hidx hat₄ hm₄)) ?_
      rintro done v₅ ⟨hs₅, ht₅⟩
      exact ⟨Knows.plain hknows₃ ((later_plain h₄).trans (later_since hs₅)),
        (hn₃.later h₄).tracks ht₅ hs₅⟩

theorem enqueue_commits (hf : Fits types set.randomHops set.width) (h : Knows set tl v.state)
    (hk : callInterface.kind call = .put val) (hw : Model.Waiting call v) :
    wp (rules A set assume stands) c (enqueue set val tl) (fun r v' => Model.Done v' r.2 ∧
      Knows set r.1 v'.state) v := by
  refine wp.bind_of (createNode_ready hx hw val) fun n v₁ h₁ => ?_
  refine wp.bind_of (wp.forever (Q := fun a v' => Put call val n (.inr a) v')
    (fun b v' => Put call val n (.inl b) v')
    ⟨Knows.plain h h₁.1, h₁.2⟩ ?_) ?_
  · rintro ⟨contention, tl'⟩ v₂ h₂
    refine (enqueueRound_commits hx hf h₂.1 hk h₂.2).mono ?_
    rintro (a | a) v₃ h₃
    · exact h₃
    · exact h₃
  · rintro ⟨tl', descriptors⟩ v₂ ⟨hknows, hd, d, he, p, hat, hm⟩
    obtain rfl : descriptors = some (d, ⟨some n, d.count + 1⟩) := he
    refine wp.bind_of (quietly hx (quiet_putCae _ _ _) (putCae_spec hknows.putIndex hat hm)) ?_
    rintro done v₃ ⟨hs, ht⟩
    exact ⟨hd.tracks ht, Knows.plain hknows (later_since hs)⟩

theorem dequeueHead_commits {d : Descriptor} (h : Knows set tl v.state)
    (hw : tl.pWindow ≤ v.state.globalPWindow) (hk : callInterface.kind call = .get)
    (hh : At tl.getIndex p d.node v.state) (hlt : p < (v.state.mem.putArray tl.getIndex).count)
    (hwait : Model.Waiting call v) :
    wp (rules A set assume stands) c (dequeueHead d tl) (Got call) v := by
  have hi := h.getIndex
  refine wp.read fun v₁ h₁ => ?_
  have hl₁ := later_plain h₁
  have hh₁ : At tl.getIndex p d.node v₁.state := At.later (v := plain v) hh hl₁
  have hlt₁ : p < (v₁.state.mem.putArray tl.getIndex).count := hlt.trans_le (hl₁.put tl.getIndex)
  have hlen : (v₁.state.mem.putArray tl.getIndex).count <
    (v₁.state.mem.nodes.line tl.getIndex).length :=
    (inv_of (plain v₁)).valid.put_lt hi
  obtain ⟨m, hm⟩ : ∃ m, (v₁.state.mem.nodes.line tl.getIndex)[p + 1]? = some m :=
    ⟨_, List.getElem?_eq_getElem (show p + 1 < (v₁.state.mem.nodes.line tl.getIndex).length by
      omega)⟩
  rw [show (v₁.state.mem.nodes.deref d.node).next =
    some m from (At.next (v := plain v₁) hi hh₁).trans hm]
  refine wp.bind_of (deqCae_commits hx hk hi hh₁ hlt₁ hm (hwait.later h₁)) ?_
  rintro (_ | _) v₂ ⟨hl₂, h₂⟩
  · exact ⟨Knows.plain h (hl₁.trans hl₂), hw.trans (hl₁.trans hl₂).pWindow, h₂⟩
  · refine wp.read fun v₃ h₃ => ?_
    have hl₃ := hl₂.trans (later_plain h₃)
    have hval : (v₃.state.mem.nodes.heap m).val = (v₁.state.mem.nodes.heap m).val :=
      hl₃.grows.val m ((inv_of (plain v₁)).valid.lines.lt_fresh _ hi m (List.mem_of_getElem? hm))
    refine ⟨Knows.plain h (hl₁.trans hl₃), .inl ?_⟩
    show Model.Done v₃ (Answer.value (v₃.state.mem.nodes.heap m).val)
    rw [hval]
    exact Model.Done.since h₂ (.of_le h₃)

theorem dequeueRound_commits (hf : Fits types set.randomHops set.width) {contention : Bool}
    (h : Knows set tl v.state) (hw : tl.pWindow ≤ v.state.globalPWindow)
    (hk : callInterface.kind call = .get) (hwait : Model.Waiting call v) :
    wp (rules A set assume stands) c (dequeueRound set contention tl) (Got call) v := by
  refine wp.bind_of (quietly hx (quiet_getWindow _ _) (getWindow_spec hf h hw)) ?_
  rintro ⟨d, tl'⟩ v₁ ⟨⟨-, hknows, hwin, p, hat, hget, hor⟩, ht⟩
  have hidx := hknows.getIndex
  have h₁ := hwait.tracks ht
  unfold readDescriptor
  simp only [Prog.bind_assoc, Prog.pure_eq_ret, Prog.ret_bind]
  refine wp.read fun v₂ h₂ => wp.read fun v₃ h₃ => ?_
  have hl₂ := later_plain h₂
  have hl₃ := hl₂.trans (later_plain h₃)
  have hknows₃ : Knows set tl' v₃.state := Knows.plain hknows hl₃
  have hwin₃ : tl'.pWindow ≤ v₃.state.globalPWindow := hwin.trans hl₃.pWindow
  have hat₂ : At tl'.getIndex p d.node v₂.state := At.later (v := plain v₁) hat hl₂
  have hat₃ : At tl'.getIndex p d.node v₃.state := At.later (v := plain v₁) hat hl₃
  have h₃' := h₁.later (h₂.trans h₃)
  split
  next hsafe =>
    have hlt : p < (v₁.state.mem.putArray tl'.getIndex).count := hor.resolve_right (not_le.2 hsafe)
    exact dequeueHead_commits hx hknows₃ hwin₃ hk hat₃ (hlt.trans_le (hl₃.put _)) h₃'
  next =>
    split
    next heq =>
      have heq : d.node = (v₂.state.mem.putArray tl'.getIndex).node := heq
      refine Model.read_cases fun v₄ h₄ => ?_
      have hl₄ := hl₃.trans (later_plain h₄)
      have hat₄ : At tl'.getIndex p d.node v₄.state := At.later (v := plain v₁) hat hl₄
      have hw₄ := h₃'.later h₄
      split
      next hnone =>
        obtain ⟨g, hall, hdone⟩ := misses hx hw₄ hk hidx hat₄ (hget.trans (hl₄.get _)) hnone
        have hknows₄ : Knows set tl' v₄.state := Knows.plain hknows hl₄
        exact .inr ⟨g, hall, hknows₄, .inl hdone⟩
      next hne =>
        obtain ⟨m, hm⟩ := Option.ne_none_iff_exists'.1 hne
        refine .inl (wp.read fun v₅ h₅ => ?_)
        have hl₅ := later_plain h₅
        have hat₅ : At tl'.getIndex p d.node v₅.state := At.later (v := plain v₄) hat₄ hl₅
        have hm₅ : (v₅.state.mem.nodes.line tl'.getIndex)[p + 1]? = some m :=
          hl₅.line ((At.next (v := plain v₄) hidx hat₄).symm.trans hm)
        dsimp only [Arrays.copy, Arrays.put]
        rw [← heq, show (v₅.state.mem.nodes.deref d.node).next = some m from
          (At.next (v := plain v₅) hidx hat₅).trans hm₅]
        refine wp.bind_of (quietly hx (quiet_putCae _ _ _) (putCae_spec hidx hat₅ hm₅)) ?_
        rintro done v₆ ⟨hs₆, ht₆⟩
        have hl₆ := (hl₄.trans hl₅).trans (later_since hs₆)
        exact ⟨Knows.plain hknows hl₆, hwin.trans hl₆.pWindow, (hw₄.later h₅).tracks ht₆⟩
    next hne =>
      have hlt : p < (v₂.state.mem.putArray tl'.getIndex).count :=
        At.lt_put (v := plain v₂) hidx hat₂ (hget.trans (hl₂.get _)) hne
      exact dequeueHead_commits hx hknows₃ hwin₃ hk hat₃ (hlt.trans_le ((later_plain h₃).put _)) h₃'

theorem dequeue_commits (hf : Fits types set.randomHops set.width) (h : Knows set tl v.state)
    (hk : callInterface.kind call = .get) (hw : Model.Waiting call v) :
    wp (rules A set assume stands) c (dequeue set tl) (fun r v' => Model.Answered v' call r.2 ∧
      Knows set r.1 v'.state) v := by
  refine wp.read fun v₁ h₁ => ?_
  have hknows₁ : Knows set tl v₁.state := Knows.plain h (later_plain h₁)
  refine wp.forever (fun b v' => Knows set b.2 v'.state ∧ b.2.pWindow ≤ v'.state.globalPWindow ∧
    Model.Waiting call v')
    ⟨⟨h.putIndex, h.getIndex, hknows₁.gWindow⟩, le_rfl, hw.later h₁⟩ ?_
  rintro ⟨contention, tl'⟩ v₂ ⟨hknows, hwin, h₂⟩
  refine (dequeueRound_commits hx hf hknows hwin hk h₂).mono ?_
  rintro (a | a) v₃ h₃
  · exact h₃
  · exact ⟨h₃.2, h₃.1⟩

theorem queue_linear (h₀ : stands A.init (initial set)) (hf : Fits types set.randomHops set.width) :
    Linear (S := (object set).service) (linear A set assume stands) (fun _ => True)
      (fun _ l x => Knows set l x.1)
      (initial set) (fun _ => 0) .zero where
  init := ⟨⟨inv_initial set, fun _ => contained_initial set⟩, h₀⟩
  init_fresh _ := True.intro
  init_loc _ := ⟨hf.width_pos, hf.width_pos, Nat.zero_le _⟩
  loc_later _ _ _ _ _ _ _ _ _ _ hf h := ⟨h.putIndex, h.getIndex, h.gWindow.trans hf.gWindow⟩
  code t op call l v hcall _ hl _ hu hm := by
    have hw : Model.Waiting call v := ⟨hcall, hu, _, hm⟩
    cases call with
    | enqueue val => exact (enqueue_commits hx hf hl rfl hw).mono fun r v' h => ⟨.inl h.1, h.2⟩
    | dequeue => exact dequeue_commits hx hf hl rfl hw

/-- What explains the nodes explains the calls. -/
theorem queue_explained (h₀ : stands A.init (initial set))
    (hf : Fits types set.randomHops set.width) {P : Pool (object set).service}
    (hr : Reach (fun _ _ => True) assume (initial set) .zero P) :
    ∃ log x, Linearizes A P.world log ∧ A.Run log x ∧ stands x P.world.shared := by
  obtain ⟨log, x, _, hlog, hrun, -, hst⟩ := (queue_linear hx h₀ hf).linearizes hr
  exact ⟨log, x, hlog, hrun, hst⟩

end Operations

/-- For any number of threads and any order of their steps, `width` queues explain the calls, and
they hold what the nodes behind the heads hold. -/
theorem optimizedQueue_linearizable (depth : ℕ) {width : ℕ} (hw : 0 < width) (hw' : width < 2 ^ 16)
    {P : Pool (object (params width depth)).service}
    (hr : Reachable (initial (params width depth)) .zero P) :
    ∃ log x, Linearizes (spec callInterface width) P.world log ∧
      (spec callInterface width).Run log x ∧
      Holds width P.world.shared.store x :=
  queue_explained (explains_queues _ _ _) (Holds.init width) (params_fits hw hw') hr

/-- The answer of a call. -/
def answer {set : Params} (P : Pool (object set).service) (op : ℕ) : Option Answer :=
  (P.world.returned op).map Prod.fst

/-- The put window is above the get window: a dequeue does not look at the tail. The next one helps
an enqueue. -/
theorem optimizedQueue_linearizable_one : ∃ P : Pool (object (params 1 1)).service,
    (answer P 2 = some (.value 7) ∧ answer P 3 = some (.value 8)) ∧ ∃ log x,
      Linearizes (spec callInterface 1) P.world log ∧ (spec callInterface 1).Run log x ∧
        Holds 1 P.world.shared.store x := by
  have h : (((Pool.init (object (params 1 1)).service (initial (params 1 1)) .zero).exec
    (List.flatten [
      [.invoke 0 (Call.enqueue 7)], List.replicate 12 (.step 0 0), [.invoke 0 (Call.enqueue 8)],
      List.replicate 30 (.step 0 0), [.invoke 1 Call.dequeue], List.replicate 13 (.step 1 0),
        [.invoke 1 Call.dequeue],
      List.replicate 53 (.step 1 0)])).any fun P =>
        decide (answer P 2 = some (.value 7) ∧ answer P 3 = some (.value 8))) = true := by
    decide +kernel
  obtain ⟨P, hP, h⟩ := Pool.exec_of_check h
  exact ⟨P, of_decide_eq_true h, optimizedQueue_linearizable 1 (by decide) (by decide)
    (Pool.exec_reach hP (fun _ _ _ _ => True.intro) .init)⟩

/-- In a run of fair steps a queue explains the calls in which a dequeue passes over `depth * (width
- 1)` older values at most. It holds the values in the order in which their nodes were linked. -/
theorem optimizedQueue_relaxed {depth width : ℕ} (hw : 0 < width) (hw' : width < 2 ^ 16)
    {P : Pool (object (params width depth)).service}
    (hr : Reach (fun _ _ => True) (Fair (params width depth))
      (initial (params width depth)) .zero P) :
    ∃ log, Linearizes (relaxed callInterface width (· ≤ depth * (width - 1))) P.world log ∧
      (relaxed callInterface width (· ≤ depth * (width - 1))).Run log
      (entries P.world.shared.mem.nodes) := by
  obtain ⟨log, x, hlog, hrun, rfl⟩ := queue_explained (explains_relaxed _ _) rfl
    (params_fits hw hw') hr
  exact ⟨log, hlog, hrun⟩

/-- Two sub-queues with a value each. The thread that has enqueued the younger one dequeues it. -/
theorem optimizedQueue_relaxed_two : ∃ P : Pool (object (params 2 1)).service,
    (answer P 2 = some (.value 8) ∧ entries P.world.shared.mem.nodes = [(0, 7)]) ∧
      ∃ log, Linearizes (relaxed callInterface 2 (· ≤ 1 * (2 - 1))) P.world log ∧
        (relaxed callInterface 2 (· ≤ 1 * (2 - 1))).Run log (entries P.world.shared.mem.nodes) := by
  have h : (((Pool.init (object (params 2 1)).service (initial (params 2 1)) .zero).execIf
      (fun s s' => decide (Fair (params 2 1) s s')) (List.flatten [
      [.invoke 0 (Call.enqueue 7)], List.replicate 12 (.step 0 0), [.invoke 1 (Call.enqueue 8)],
      List.replicate 17 (.step 1 1), [.invoke 1 Call.dequeue], List.replicate 14 (.step 1 0)])).any
        fun P =>
        decide (answer P 2 = some (.value 8) ∧ entries P.world.shared.mem.nodes = [(0, 7)])) =
          true := by
    decide +kernel
  obtain ⟨P, hP, h⟩ := (Option.any_eq_true _ _).1 h
  exact ⟨P, of_decide_eq_true h, optimizedQueue_relaxed (by decide) (by decide)
    (Pool.execIf_reach (fun _ _ => of_decide_eq_true) hP (fun _ _ _ _ => True.intro) .init)⟩

end TwoDdOptimized
