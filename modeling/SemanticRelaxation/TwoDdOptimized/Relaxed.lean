import SemanticRelaxation.TwoDdOptimized.Specs
import SemanticRelaxation.TwoDd.QueueConcurrent
import SemanticRelaxation.Prog.Steps

/-!
# The optimized 2Dd queue with many threads

* `optimizedQueue_safe`: the put counts are in the put window, the get window is not above it, the
  assertions of `enqueue` hold, and a head that is moved on has a successor. The last part is read
  off the state after the exchange, where the get count is still not above the put count;
* `optimizedQueue_bounded`: a dequeued item has at most `depth * (width - 1)` older ones as long as
  the get window moves off sub-queues without items in it only, and items are removed below its
  maximum only.
-/

namespace TwoDdOptimized

open AtomicProg TwoDd TwoDd.Queue TwoDd.Queue.Concurrent TwoD

variable {set : Params}

theorem optimized_obligations (assume : State → State → Prop)
    (hf : Fits types set.randomHops set.width) :
    Obligations (.trivial (object set).service (regime Call set assume)) (fun _ => True)
      (fun _ l x => Knows set l x.1)
      (fun _ _ x v => Knows set x.1 v.state ∧ x.2 ≠ .assertFailed)
      (initial set) (fun _ => 0) .zero where
  init := ⟨inv_initial set, fun _ => contained_initial set⟩
  init_fresh _ := True.intro
  init_loc _ := ⟨hf.width_pos, hf.width_pos, Nat.zero_le _⟩
  loc_later _ _ _ _ _ _ _ _ hk h := ⟨h.putIndex, h.getIndex, h.gWindow.trans hk.gWindow⟩
  post_stable _ _ _ _ _ h hp := ⟨hp.1.later (later_of_le h), hp.2⟩
  code t op call l v _ _ _ hl _ := by
    cases call with
    | enqueue val => exact enqueue_spec hf hl val
    | dequeue => exact dequeue_spec hf hl
  finish _ _ _ _ _ h := ⟨fun _ _ => True.intro, h.1⟩

theorem params_fits {width depth : ℕ} (hw : 0 < width) (hw' : width < 2 ^ 16) :
    Fits types (params width depth).randomHops (params width depth).width :=
  .of_lt hw hw' (by decide : 2 < 2 ^ 16) rfl rfl

/-! ### What a step does to the heads -/

/-- A step that moves a head on leaves the nodes and the tails alone. -/
def Moves (s s' : State) : Prop :=
  ∀ j, s'.mem.getArray j ≠ s.mem.getArray j → s'.mem.nodes.toCells = s.mem.nodes.toCells ∧
    s'.mem.putArray = s.mem.putArray ∧ (s'.mem.getArray j).count = (s.mem.getArray j).count + 1

theorem Moves.of_eq {s s' : State} (h : s'.mem.getArray = s.mem.getArray) : Moves s s' :=
  fun j hj => absurd (congrFun h j) hj

theorem Moves.refl (s : State) : Moves s s := .of_eq rfl

theorem steps_read {α : Type} (f : State → α) : (Prog.read f).Steps Moves := .read Moves.refl f

theorem steps_readDescriptor (array : Memory → ℕ → Linked.Descriptor) (index : ℕ) :
    (readDescriptor array index).Steps Moves :=
  .bind (steps_read _) fun _ => .bind (steps_read _) fun _ => True.intro

theorem steps_randomIndex (width : ℕ) : (randomIndex width).Steps Moves :=
  .bind (.choose Moves.refl) fun _ => True.intro

theorem steps_hop (index random hops : ℕ) : (hop set index random hops).Steps Moves := by
  unfold hop TwoD.hop
  split
  · exact .bind (steps_randomIndex _) fun _ => True.intro
  · exact True.intro

theorem steps_startIndex (contention : Bool) (index : ℕ) :
    (startIndex set contention index).Steps Moves := by
  unfold startIndex
  split
  · exact steps_randomIndex _
  · exact True.intro

theorem steps_shiftWindow {window : State → ℕ} {store : ℕ → State → State} {old new : ℕ}
    (h : ∀ s, (store new s).mem = s.mem) : (shiftWindow window store old new).Steps Moves := by
  refine .bind (steps_read _) fun max => ?_
  split
  · refine .bind (.cae Moves.refl fun s _ => .of_eq ?_) fun _ => True.intro
    rw [h]
  · exact True.intro

theorem steps_putRound (st : Search) : (putRound set st).Steps Moves := by
  refine .bind (steps_readDescriptor _ _) fun d => .bind (steps_read _) fun gmax => ?_
  dsimp only
  split
  · exact True.intro
  · split
    · exact True.intro
    · split
      · exact .bind (steps_hop _ _ _) fun _ => True.intro
      · exact .bind (steps_shiftWindow fun _ => rfl) fun _ => True.intro

theorem steps_putWindow (contention : Bool) (tl : Local) :
    (putWindow set contention tl).Steps Moves :=
  .bind (steps_startIndex _ _) fun _ => .bind (steps_read _) fun _ => .forever steps_putRound _

theorem steps_getRound (st : Search) : (getRound set st).Steps Moves := by
  have hcount : (putCount set st.tl).Steps Moves := by
    unfold putCount
    split
    · exact True.intro
    · exact steps_read _
  have hshift : (canShift st).Steps Moves := by
    unfold canShift
    split
    · exact True.intro
    · exact .bind (steps_read _) fun _ => True.intro
  refine .bind (steps_readDescriptor _ _) fun d => .bind hcount fun m =>
    .bind (steps_read _) fun gmax => ?_
  dsimp only
  split
  · exact True.intro
  · split
    · exact True.intro
    · split
      · exact .bind (steps_hop _ _ _) fun _ => True.intro
      · refine .bind hshift fun shift => ?_
        split
        · exact .bind (steps_shiftWindow fun _ => rfl) fun _ => True.intro
        · exact True.intro

theorem steps_getWindow (contention : Bool) (tl : Local) :
    (getWindow set contention tl).Steps Moves :=
  .bind (steps_startIndex _ _) fun _ => .bind (steps_read _) fun _ => .forever steps_getRound _

theorem steps_enqCas (idx : ℕ) (tail : Option ℕ) (n : ℕ) : (enqCas idx tail n).Steps Moves :=
  .bind (.cae Moves.refl fun _ _ => .of_eq rfl) fun _ => True.intro

theorem steps_putCae (idx : ℕ) (old new : Linked.Descriptor) : (putCae idx old new).Steps Moves :=
  .bind (.cae Moves.refl fun _ _ => .of_eq rfl) fun _ => True.intro

/-- The exchange on a head. -/
theorem steps_deqCae (idx : ℕ) (old : Linked.Descriptor) (node : Option ℕ) :
    (deqCae idx old ⟨node, old.count + 1⟩).Steps Moves := by
  refine .bind (.cae Moves.refl fun s he j hj => ⟨?_, rfl, ?_⟩) fun _ => True.intro
  · cases node <;> rfl
  have he : s.mem.getArray idx = old := he
  have hj : Function.update s.mem.getArray idx ⟨node, old.count + 1⟩ j ≠ s.mem.getArray j := hj
  show (Function.update s.mem.getArray idx ⟨node, old.count + 1⟩ j).count = _
  by_cases hji : j = idx
  · subst hji
    rw [Function.update_self, he]
  · exact absurd (Function.update_of_ne hji _ _) hj

theorem steps_enqueueRound (n : ℕ) (contention : Bool) (tl : Local) :
    (enqueueRound set n contention tl).Steps Moves := by
  refine .bind (steps_putWindow _ _) fun ⟨d, tl'⟩ => ?_
  dsimp only
  split
  · refine .bind (steps_read _) fun count => ?_
    split
    · exact True.intro
    · refine .bind (steps_read _) fun next => ?_
      split
      · refine .bind (steps_enqCas _ _ _) fun done => ?_
        split <;> exact True.intro
      · exact .bind (steps_read _) fun next => .bind (steps_putCae _ _ _) fun _ => True.intro
  · exact True.intro

theorem steps_dequeueHead (d : Linked.Descriptor) (tl : Local) :
    (dequeueHead d tl).Steps Moves := by
  refine .bind (steps_read _) fun next => .bind (steps_deqCae _ _ _) fun done => ?_
  split
  · exact .bind (steps_read _) fun _ => True.intro
  · exact True.intro

theorem steps_dequeueRound (contention : Bool) (tl : Local) :
    (dequeueRound set contention tl).Steps Moves := by
  refine .bind (steps_getWindow _ _) fun ⟨d, tl'⟩ => .bind (steps_readDescriptor _ _) fun e => ?_
  dsimp only
  split
  · exact steps_dequeueHead _ _
  · split
    · refine .bind (steps_read _) fun next => ?_
      split
      · exact True.intro
      · exact .bind (steps_read _) fun next => .bind (steps_putCae _ _ _) fun _ => True.intro
    · exact steps_dequeueHead _ _

theorem steps_code (c : Caller) (call : Call) (tl : Local) :
    ((object set).service.code c call tl).Steps Moves := by
  cases call with
  | enqueue val =>
    refine .bind (.update fun _ => .of_eq rfl) fun n =>
      .bind (.forever (fun b => steps_enqueueRound n b.1 b.2) _) fun ⟨tl', descriptors⟩ => ?_
    cases descriptors with
    | none => exact True.intro
    | some d => exact .bind (steps_putCae _ _ _) fun _ => True.intro
  | dequeue =>
    exact .bind (steps_read _) fun _ => .forever (fun b => steps_dequeueRound b.1 b.2) _

/-! ### The results -/

/-- What holds of the put side of the queue in every reachable state. -/
structure PutSafe (width depth : ℕ) (p : Pool (object (params width depth)).service) : Prop where
  /-- The put counts are in the put window. -/
  counts : ∀ j < width,
    p.world.shared.globalPWindow - depth ≤ (p.world.shared.mem.putArray j).count ∧
      (p.world.shared.mem.putArray j).count ≤ p.world.shared.globalPWindow
  windows : p.world.shared.globalGWindow ≤ p.world.shared.globalPWindow
  /-- No call has failed one of the assertions. -/
  asserted : ∀ t op call seen tl, p.thread t ≠ .running op call seen (.ret (tl, .assertFailed))
  /-- A head that a move replaces has a successor. -/
  successor : ∀ m p', p.move m = some p' → ∀ j < width,
    p'.world.shared.mem.getArray j ≠ p.world.shared.mem.getArray j →
      ∃ head next, (p.world.shared.mem.getArray j).node = some head ∧
        (p.world.shared.mem.nodes.heap head).next = some next

theorem optimizedQueue_safe {width depth : ℕ} (hw : 0 < width) (hw' : width < 2 ^ 16)
    {p : Pool (object (params width depth)).service}
    (hr : Reachable (initial (params width depth)) .zero p) : PutSafe width depth p := by
  have himp := (optimized_obligations (fun _ _ => True)
    (params_fits hw hw' : Fits types (params width depth).randomHops _)).implements
  obtain ⟨g, ⟨hinv, -⟩, -⟩ := himp.inv hr
  have hinv : Concurrent.Inv (params width depth) p.world.shared := hinv
  refine ⟨fun j hj => ⟨?_, hinv.put_le hj⟩, hinv.windows, fun t op call seen tl ht => ?_,
    fun m p' hm j hj hne => ?_⟩
  · have hle : p.world.shared.globalPWindow ≤ (p.world.shared.mem.putArray j).count + depth :=
      hinv.le_put j hj
    omega
  · obtain ⟨v, -, -, hpost⟩ := himp.returns hr ht
    exact hpost.2 rfl
  · obtain ⟨-, hput, hcount⟩ := hr.move_steps steps_code Moves.refl hm j hne
    -- the state after the exchange is reachable as well
    obtain ⟨g', ⟨hinv', -⟩, -⟩ := himp.inv (hr.later (.single ⟨m, hm⟩))
    have hinv' : Concurrent.Inv (params width depth) p'.world.shared := hinv'
    have hle : (p'.world.shared.mem.getArray j).count ≤ (p'.world.shared.mem.putArray j).count :=
      hinv'.valid.le j hj
    have hlt : (p.world.shared.mem.putArray j).count < (p.world.shared.mem.nodes.line j).length :=
      hinv.valid.put_lt hj
    rw [hput, hcount] at hle
    obtain ⟨head, hhead⟩ := hinv.valid.head_some hj
    have hnext : (p.world.shared.mem.nodes.heap head).next = _ :=
      hinv.valid.lines.next j hj _ head ((hinv.valid.head j hj).trans hhead)
    refine ⟨head, _, hhead, hnext.trans (List.getElem?_eq_getElem ?_)⟩
    exact hle.trans_lt hlt

/-- An enqueue and a dequeue that does not look at the tail. -/
theorem optimizedQueue_safe_two : ∃ p : Pool (object (params 2 1)).service,
    (p.world.shared.mem.getArray 0).count = 1 ∧ PutSafe 2 1 p := by
  have h : (((Pool.init (object (params 2 1)).service (initial (params 2 1)) .zero).exec
      (Move.invoke 0 (Call.enqueue 7) :: List.replicate 12 (Move.step 0 0) ++
        Move.invoke 0 Call.dequeue :: List.replicate 14 (Move.step 0 0))).any fun p =>
      decide ((p.world.shared.mem.getArray 0).count = 1)) = true := by
    decide +kernel
  obtain ⟨p, hp, hc⟩ := Pool.exec_of_check h
  exact ⟨p, of_decide_eq_true hc, optimizedQueue_safe (by decide) (by decide)
    (Pool.exec_reach hp (fun _ _ _ _ => True.intro) .init)⟩

/-- In a run of fair steps no dequeued item had more than `depth * (width - 1)` older ones. -/
theorem optimizedQueue_bounded {width depth : ℕ} (hw : 0 < width) (hw' : width < 2 ^ 16)
    {p : Pool (object (params width depth)).service}
    (hr : Reach (fun _ _ => True) (Fair (params width depth))
      (initial (params width depth)) .zero p) :
    ∀ d ∈ p.world.shared.mem.nodes.hist.dists, d ≤ depth * (width - 1) := by
  obtain ⟨g, ⟨-, hfair⟩, -⟩ := (optimized_obligations (Fair (params width depth))
    (params_fits hw hw')).implements.inv hr
  have hc : Contained (params width depth) p.world.shared := hfair fun _ _ h => h
  exact hc.dists

/-- Three enqueues and three dequeues on two sub-queues, with a move of each window. -/
theorem optimizedQueue_bounded_two : ∃ p : Pool (object (params 2 1)).service,
    p.world.shared.globalGWindow = 2 ∧ ∀ d ∈ p.world.shared.mem.nodes.hist.dists, d ≤ 1 *
      (2 - 1) := by
  have h : (((Pool.init (object (params 2 1)).service (initial (params 2 1)) .zero).execIf
      (fun s s' => decide (Fair (params 2 1) s s'))
      (Move.invoke 0 (Call.enqueue 1) :: List.replicate 12 (Move.step 0 0) ++
        Move.invoke 0 (Call.enqueue 2) :: List.replicate 26 (Move.step 0 0) ++
        Move.invoke 0 (Call.enqueue 3) :: List.replicate 36 (Move.step 0 0) ++
        Move.invoke 0 Call.dequeue :: List.replicate 13 (Move.step 0 0) ++
        Move.invoke 0 Call.dequeue :: List.replicate 27 (Move.step 0 0) ++
        Move.invoke 0 Call.dequeue :: List.replicate 39 (Move.step 0 0))).any fun p =>
      decide (p.world.shared.globalGWindow = 2)) = true := by
    decide +kernel
  obtain ⟨p, hp, hc⟩ := (Option.any_eq_true _ _).1 h
  exact ⟨p, of_decide_eq_true hc, optimizedQueue_bounded (by decide) (by decide)
    (Pool.execIf_reach (fun _ _ => of_decide_eq_true) hp (fun _ _ _ _ => True.intro) .init)⟩

/-- A dequeue has counted a round over two empty sub-queues to the end. Before it reads the put
window two rows are enqueued: it finds another put window and moves the get window off the first
row. -/
theorem optimizedQueue_unbounded : ∃ p : Pool (object (params 2 1)).service,
    Reachable (initial (params 2 1)) .zero p ∧
      ¬ ∀ d ∈ p.world.shared.mem.nodes.hist.dists, d ≤ 1 * (2 - 1) := by
  have h : (((Pool.init (object (params 2 1)).service (initial (params 2 1)) .zero).exec
      (Move.invoke 1 Call.dequeue :: List.replicate 29 (Move.step 1 0) ++
        Move.invoke 0 (Call.enqueue 1) :: List.replicate 12 (Move.step 0 0) ++
        Move.invoke 0 (Call.enqueue 2) :: List.replicate 26 (Move.step 0 0) ++
        Move.invoke 0 (Call.enqueue 3) :: List.replicate 36 (Move.step 0 0) ++
        Move.invoke 0 (Call.enqueue 4) :: List.replicate 26 (Move.step 0 0) ++
        List.replicate 4 (Move.step 1 0) ++
        Move.invoke 0 Call.dequeue :: List.replicate 14 (Move.step 0 0) ++
        Move.invoke 0 Call.dequeue :: List.replicate 14 (Move.step 0 0))).any fun p =>
      decide (¬ ∀ d ∈ p.world.shared.mem.nodes.hist.dists, d ≤ 1 * (2 - 1))) = true := by
    decide +kernel
  obtain ⟨p, hp, hc⟩ := Pool.exec_of_check h
  exact ⟨p, Pool.exec_reach hp (fun _ _ _ _ => True.intro) .init, of_decide_eq_true hc⟩

end TwoDdOptimized
