import SemanticRelaxation.TwoDd.QueueSpecs

/-!
# The 2Dd queue with many threads

* `decoupledQueue_empty`: a dequeue answers 0 only if each sub-queue was empty at some time of the
  call. A round without items sees a configuration for each of them, and starts afresh with the
  window; the later comparison of head and tail finds an item if `get_window` has seen one;
* `decoupledQueue_contained`: the get counts stay in the get window if the window moves off
  sub-queues without items in it only, and items are removed below its maximum only. A dequeue that
  has counted its round to the end does not look for new items before it does either.
-/

namespace TwoDd

namespace Queue

open AtomicProg Concurrent TwoD

variable {set : Params} {assume : State → State → Prop}

theorem queue_obligations (hf : Fits types set.randomHops set.width) :
    Obligations (.trivial (object set).service (regime Call set assume)) (fun _ => True)
      (fun _ l _ => l.index < set.width)
      (fun _ call x v => x.1.index < set.width ∧
        (call = .dequeue → x.2 = none → ∀ j < set.width, WasClear j v))
      (initial set) (fun _ => 0) .zero where
  init := ⟨inv_initial set, fun _ => contained_initial set⟩
  init_fresh _ := True.intro
  init_loc _ := hf.width_pos
  loc_later _ _ _ _ _ _ _ _ _ h := h
  post_stable _ _ _ _ _ h hp :=
    ⟨hp.1, fun hc hr j hj => (hp.2 hc hr j hj).later h.1⟩
  code t op call l v _ _ _ hl _ := by
    cases call with
    | enqueue val => exact wp.bind_of (enqueue_spec hf hl val) fun _ _ h => ⟨h, nofun⟩
    | dequeue => exact (dequeue_spec hf hl).mono fun _ _ h => ⟨h.1, fun _ => h.2⟩
  finish _ _ _ _ _ h := ⟨fun _ _ => True.intro, h.1⟩

theorem params_fits {width depth : ℕ} (hw : 0 < width % 2 ^ 32) (hw' : width < 2 ^ 64) :
    Fits types (params width depth).randomHops (params width depth).width :=
  ⟨hw, (by decide : 2 < 2 ^ 64), hw'⟩

/-- While a dequeue that answers 0 was running, no sub-queue had items all the time. -/
theorem decoupledQueue_empty {width depth : ℕ} (hw : 0 < width % 2 ^ 32) (hw' : width < 2 ^ 64)
    {p : Pool (object (params width depth)).service}
    (hr : Reachable (initial (params width depth)) .zero p) {t op : ℕ}
    {seen : List (World (object (params width depth)).service)} {tl : Local}
    (ht : p.thread t = .running op Call.dequeue seen (.ret (tl, none))) :
    ¬ ∃ j < width, ∀ u ∈ seen,
      (u.shared.mem.getArray j).count < (u.shared.mem.putArray j).count := by
  obtain ⟨v, -, hsub, hpost⟩ := (queue_obligations (params_fits hw hw')).implements.returns hr ht
  rintro ⟨j, hj, hall⟩
  obtain ⟨u, hu, he⟩ := hpost.2 rfl rfl j hj
  exact absurd he (hall u.1 (hsub u hu)).ne'

/-- A dequeue is about to answer that the queue is empty. -/
def dequeueAnswersEmpty (th : Thread (object (params 2 1)).service) : Bool :=
  match th.result with
  | some (_, .dequeue, _, _, r) => @Option.isNone ℤ r
  | _ => false

/-- A dequeue on two sub-queues of which one has had an item. -/
theorem decoupledQueue_empty_two : ∃ p : Pool (object (params 2 1)).service, ∃ op seen tl,
    p.thread 1 = .running op Call.dequeue seen (.ret (tl, none)) ∧
      ¬ ∃ j < 2, ∀ u ∈ seen,
        (u.shared.mem.getArray j).count < (u.shared.mem.putArray j).count := by
  have h : (((Pool.init (object (params 2 1)).service (initial (params 2 1)) .zero).exec
      (Move.invoke 0 (Call.enqueue 7) :: List.replicate 13 (Move.step 0 0) ++
        Move.invoke 0 Call.dequeue :: List.replicate 15 (Move.step 0 0) ++
        Move.invoke 1 Call.dequeue :: List.replicate 33 (Move.step 1 0))).any fun p =>
      dequeueAnswersEmpty (p.thread 1)) = true := by
    decide +kernel
  obtain ⟨p, hp, hc⟩ := Pool.exec_of_check h
  unfold dequeueAnswersEmpty at hc
  split at hc
  next op seen tl r hres =>
    have ht := Thread.eq_of_result hres
    obtain rfl : r = none := Option.isNone_iff_eq_none.1 hc
    exact ⟨p, op, seen, tl, ht, decoupledQueue_empty (by decide) (by decide)
      (Pool.exec_reach hp (fun _ _ _ _ => True.intro) .init) ht⟩
  next => cases hc

/-! ### Containment -/

instance (s : State) (j : ℕ) : Decidable (Passes s j) := inferInstanceAs (Decidable (_ ∧ _))

instance (set : Params) (s s' : State) : Decidable (Fair set s s') :=
  decidable_of_iff ((s'.globalGWindow ≠ s.globalGWindow → ∀ j < set.width, ¬ Passes s j) ∧
    ∀ j < set.width, s'.mem.getArray j ≠ s.mem.getArray j →
      (s.mem.getArray j).count < s.globalGWindow) ⟨fun h => ⟨h.1, h.2⟩, fun h => ⟨h.1, h.2⟩⟩

/-- In a run of fair steps the get counts are in the get window. -/
theorem decoupledQueue_contained {width depth : ℕ} (hw : 0 < width % 2 ^ 32) (hw' : width < 2 ^ 64)
    {p : Pool (object (params width depth)).service}
    (hr : Reach (fun _ _ => True) (Fair (params width depth))
      (initial (params width depth)) .zero p) :
    ∀ j < width, p.world.shared.globalGWindow ≤ (p.world.shared.mem.getArray j).count + depth ∧
      (p.world.shared.mem.getArray j).count ≤ p.world.shared.globalGWindow := by
  obtain ⟨g, hi, -⟩ := (queue_obligations (params_fits hw hw')).implements.inv hr
  have hc : Contained (params width depth) p.world.shared := hi.2 fun _ _ h => h
  exact fun j hj => ⟨hc.le_get j hj, hc.get_le j hj⟩

/-- Two enqueues and two dequeues on one sub-queue, with a move of the get window. -/
theorem decoupledQueue_contained_one : ∃ p : Pool (object (params 1 1)).service,
    p.world.shared.globalGWindow = 2 ∧ ∀ j < 1,
      p.world.shared.globalGWindow ≤ (p.world.shared.mem.getArray j).count + 1 ∧
        (p.world.shared.mem.getArray j).count ≤ p.world.shared.globalGWindow := by
  have h : (((Pool.init (object (params 1 1)).service (initial (params 1 1)) .zero).execIf
      (fun s s' => decide (Fair (params 1 1) s s'))
      (Move.invoke 0 (Call.enqueue 7) :: List.replicate 13 (Move.step 0 0) ++
        Move.invoke 0 (Call.enqueue 8) :: List.replicate 33 (Move.step 0 0) ++
        Move.invoke 0 Call.dequeue :: List.replicate 15 (Move.step 0 0) ++
        Move.invoke 0 Call.dequeue :: List.replicate 40 (Move.step 0 0))).any fun p =>
      decide (p.world.shared.globalGWindow = 2)) = true := by
    decide +kernel
  obtain ⟨p, hp, hc⟩ := (Option.any_eq_true _ _).1 h
  refine ⟨p, of_decide_eq_true hc, decoupledQueue_contained (by decide) (by decide)
    (Pool.execIf_reach (fun _ _ => of_decide_eq_true) hp (fun _ _ _ _ => True.intro) .init)⟩

/-- A dequeue has counted a round over one empty sub-queue to the end. Before it compares head and
tail an enqueue moves the put window on: the dequeue takes the get count above the get window. -/
theorem decoupledQueue_uncontained : ∃ p : Pool (object (params 1 1)).service,
    Reachable (initial (params 1 1)) .zero p ∧ p.world.shared.globalGWindow = 1 ∧
      ¬ (p.world.shared.mem.getArray 0).count ≤ p.world.shared.globalGWindow := by
  have h : (((Pool.init (object (params 1 1)).service (initial (params 1 1)) .zero).exec
      (Move.invoke 0 (Call.enqueue 7) :: List.replicate 13 (Move.step 0 0) ++
        Move.invoke 0 Call.dequeue :: List.replicate 15 (Move.step 0 0) ++
        Move.invoke 1 Call.dequeue :: List.replicate 20 (Move.step 1 0) ++
        Move.invoke 0 (Call.enqueue 8) :: List.replicate 33 (Move.step 0 0) ++
        List.replicate 12 (Move.step 1 0))).any fun p =>
      decide (p.world.shared.globalGWindow = 1 ∧
        ¬ (p.world.shared.mem.getArray 0).count ≤ p.world.shared.globalGWindow)) = true := by
    decide +kernel
  obtain ⟨p, hp, hc⟩ := Pool.exec_of_check h
  exact ⟨p, Pool.exec_reach hp (fun _ _ _ _ => True.intro) .init, of_decide_eq_true hc⟩

end Queue

end TwoDd
