import SemanticRelaxation.DcboMs.Counts
import SemanticRelaxation.Dcbo.DoubleCollect

/-!
# `EMPTY` of the d-CBO queue over Michael-Scott queues

The version of a tail is its count, the number of nodes its queue ever had. A queue found empty with
this count is empty as long as the count stays, since the head cannot pass the tail.

The value 0 stands for `EMPTY`: a 0 that was enqueued and comes out again is taken for an empty
sub-queue, so the theorem asks for other values.
-/

namespace DcboMs

open AtomicProg Linked MichaelScott

variable {set : Dcbo.Params}

/-- Nothing is recorded of the answers of the d-CBO queue. -/
abbrev balanced (set : Dcbo.Params) :
    Results (Dcbo.service partialMs set) (regime Dcbo.Call set.width (· ≠ 0)) := .trivial _ _

variable {c : Caller} {q : ℕ}

/-- While the count of the tail stays, an empty queue is empty. -/
theorem Clear.later {w : ℕ} {good : ℤ → Prop} {s s' : Memory} (hq : q < w) (hi : Inv w good s')
    (hg : Grows s.store s'.store) (he : (s.tail q).count = (s'.tail q).count) (h : Clear q s) :
    Clear q s' := by
  have hget : (s.head q).count ≤ (s'.head q).count := hg.get q
  have hle : (s'.head q).count ≤ (s'.tail q).count := hi.valid.le q hq
  have hc : (s.head q).count = (s.tail q).count := h
  show (s'.head q).count = (s'.tail q).count
  omega

/-- An answer `EMPTY` does not come from a value, as no value is 0. -/
theorem wasClear_of_empty {v v' : View (balanced set).protocol c} (hq : q < set.width)
    (h : Dequeued q v Dcbo.EMPTY v') : Untaken c.op v'.state ∧ WasClear q v v' := by
  rcases h.2 with ⟨p, n, -, hn, hr⟩ | ⟨-, hu, hc⟩
  · exact absurd hr ((inv_of v').good q hq p n hn)
  · exact ⟨hu, hc⟩

/-- The partial queue provides what the double collect needs. -/
def emptiness (set : Dcbo.Params) (c : Caller) :
    Dcbo.Emptiness (balanced set).protocol c partialMs set.width where
  mono u u' := Grows u.1.shared.store u'.1.shared.store
  refl u := .refl _
  trans := Grows.trans
  of_le h := grows_of_le h
  answer r v := r = Dcbo.EMPTY → Untaken c.op v.state
  stable _ v v' h ha hr := Untaken.stable v v' h (ha hr)
  version q u := (u.1.shared.tail q).count
  clear q u := Clear q u.1.shared
  version_mono q _ _ _ _ _ hg := hg.put q
  clear_mono _ hq _ _ _ hi hg he hc := hc.later hq hi.1 hg he
  deqCount _ _ := .read _
  tailVersion q _ v ha := by
    intro v₁ h₁ _ _
    exact wp.same (k := .ret) ⟨⟨h₁.1, grows_of_le h₁⟩, fun _ => Untaken.stable _ _ h₁ (ha rfl),
      (grows_of_le h₁).put q, le_rfl⟩
  dequeue q hq v ha := by
    refine (msDequeue_spec hq (ha rfl)).mono fun r v' h => ⟨⟨h.1.seen, h.1.grows⟩, ?_, ?_⟩
    · rintro rfl
      exact (wasClear_of_empty hq h).1
    · rintro rfl he
      obtain ⟨-, u, -, hg₁, hg₂, hclear⟩ := wasClear_of_empty hq h
      refine hclear.later hq (inv_of v') hg₂ (le_antisymm (hg₂.put q) ?_)
      exact he.symm.le.trans (hg₁.put q)

theorem balanced_obligations (hw : 0 < set.width) (hmax : set.width ≤ 2 ^ 31) :
    Obligations (balanced set) (fun call : Dcbo.Call => ∀ val, call = .enqueue val → val ≠ 0)
      (fun _ _ _ => True)
      (fun _ call x v => call = .dequeue → x.2 = Dcbo.EMPTY →
        ∃ u ∈ v.seen, ∀ q < set.width, Clear q u.1.shared)
      (initial set.width) (fun _ => 0) () where
  init := inv_initial _ _
  init_fresh _ _ := List.not_mem_nil
  init_loc _ := True.intro
  loc_later _ _ _ _ _ _ _ _ _ h := h
  post_stable _ _ _ _ _ h hp hc hr := by
    obtain ⟨u, hu, hall⟩ := hp hc hr
    exact ⟨u, h.1 hu, hall⟩
  code t op call l v _ _ hok _ hf := by
    cases call with
    | enqueue val =>
      have hread : ∀ j < set.width, Dcbo.ReadOnly (balanced set).protocol ⟨t, op⟩
          (Dcbo.enqHeuristic partialMs j) := fun j _ => (Dcbo.ReadOnly.read _).bind fun _ => .ret _
      refine wp.bind (Dcbo.randomIndex_spec hw fun i v₁ _ hi => ?_)
      refine wp.bind (hread i hi v₁ _ fun x v₂ _ => ?_)
      refine wp.bind (Dcbo.chooseIndex_spec hw hread _ hi fun k v₃ _ hk => ?_)
      exact wp.bind_of (msEnqueue_spec hk (hok val rfl)) fun _ _ _ => nofun
    | dequeue =>
      refine wp.bind_of ((emptiness set ⟨t, op⟩).dequeue_spec hw hmax fun _ => hf) ?_
      exact fun r v' ⟨_, _, hr⟩ _ he => hr he
  finish _ _ _ _ _ _ := ⟨fun _ _ => True.intro, True.intro⟩

/-- If no 0 is enqueued, a dequeue that answers `EMPTY` ran through a configuration in which all
sub-queues were empty. -/
theorem msBalanced_empty {set : Dcbo.Params} (hmax : set.width ≤ 2 ^ 31)
    {p : Pool (Dcbo.service partialMs set)}
    (hr : Reach (fun (call : Dcbo.Call) _ => ∀ val, call = .enqueue val → val ≠ 0)
      (fun _ _ => True) (initial set.width) () p)
    {t op : ℕ} {seen : List (World (Dcbo.service partialMs set))}
    (ht : p.thread t = .running op Dcbo.Call.dequeue seen (.ret ((), Dcbo.EMPTY))) :
    ∃ u ∈ seen, ∀ q < set.width, (u.shared.head q).node = (u.shared.tail q).node := by
  rcases Nat.eq_zero_or_pos set.width with hw | hw
  · obtain ⟨u, hu⟩ := List.exists_mem_of_ne_nil _ (hr.seen_ne_nil ht)
    exact ⟨u, hu, fun q hq => absurd hq (by omega)⟩
  · obtain ⟨v, -, hsub, hpost⟩ := (balanced_obligations hw hmax).implements.returns hr ht
    obtain ⟨u, hu, hall⟩ := hpost rfl rfl
    exact ⟨u.1, hsub u hu, fun q hq => ((v.inv u hu).1.valid.node_eq_iff hq).2 (hall q hq)⟩

/-- One queue: `enqueue(1)` returns, and after a `dequeue` that takes it a second one answers
`EMPTY`. -/
theorem msBalanced_empty_one : ∃ p : Pool (Dcbo.service partialMs ⟨1, 1⟩), ∃ op seen,
    p.thread 1 = .running op Dcbo.Call.dequeue seen (.ret ((), Dcbo.EMPTY)) ∧
      ∃ u ∈ seen, ∀ q < 1, (u.shared.head q).node = (u.shared.tail q).node := by
  have h : (((Pool.init (Dcbo.service partialMs ⟨1, 1⟩) (initial 1) ()).exec
      (Move.invoke 0 (Dcbo.Call.enqueue 1) :: List.replicate 11 (Move.step 0 0) ++
        Move.invoke 1 Dcbo.Call.dequeue :: List.replicate 14 (Move.step 1 0) ++
        Move.invoke 1 Dcbo.Call.dequeue :: List.replicate 21 (Move.step 1 0))).any fun p =>
      match (p.thread 1).result with
      | some (_, .dequeue, _, _, r) => decide (r = Dcbo.EMPTY)
      | _ => false) = true := by
    decide +kernel
  obtain ⟨p, hp, hc⟩ := Pool.exec_of_check h
  split at hc
  next op seen _ r hres =>
    have ht := Thread.eq_of_result hres
    obtain rfl : r = Dcbo.EMPTY := of_decide_eq_true hc
    refine ⟨p, op, seen, ht, @msBalanced_empty ⟨1, 1⟩ (by decide) p ?_ 1 op seen ht⟩
    refine Pool.exec_reach hp ?_ .init
    intro t call hm _ val hv
    simp only [List.cons_append, List.mem_cons, List.mem_append, List.mem_replicate] at hm
    subst hv
    simp at hm
    omega
  next => cases hc

/-- With zeros enqueued it is different: of `0, 0, 5` a `dequeue` takes the two zeros for empty
sub-queues and answers `EMPTY`, though the queue was not empty at any time. -/
theorem msBalanced_empty_zero : ∃ p : Pool (Dcbo.service partialMs ⟨1, 1⟩),
    Reachable (initial 1) () p ∧ ∃ op seen,
      p.thread 1 = .running op Dcbo.Call.dequeue seen (.ret ((), Dcbo.EMPTY)) ∧
        ∀ u ∈ seen, (u.shared.head 0).node ≠ (u.shared.tail 0).node := by
  have h : (((Pool.init (Dcbo.service partialMs ⟨1, 1⟩) (initial 1) ()).exec
      (Move.invoke 0 (Dcbo.Call.enqueue 0) :: List.replicate 11 (Move.step 0 0) ++
        Move.invoke 0 (Dcbo.Call.enqueue 0) :: List.replicate 11 (Move.step 0 0) ++
        Move.invoke 0 (Dcbo.Call.enqueue 5) :: List.replicate 11 (Move.step 0 0) ++
        Move.invoke 1 Dcbo.Call.dequeue :: List.replicate 27 (Move.step 1 0))).any fun p =>
      match (p.thread 1).result with
      | some (_, .dequeue, seen, _, r) => decide (r = Dcbo.EMPTY) &&
          seen.all fun u => decide ((u.shared.head 0).node ≠ (u.shared.tail 0).node)
      | _ => false) = true := by
    decide +kernel
  obtain ⟨p, hp, hc⟩ := Pool.exec_of_check h
  refine ⟨p, Pool.exec_reach hp (fun _ _ _ _ => True.intro) .init, ?_⟩
  split at hc
  next op seen _ r hres =>
    obtain ⟨hr, hall⟩ := (Bool.and_eq_true _ _).mp hc
    obtain rfl : r = Dcbo.EMPTY := of_decide_eq_true hr
    exact ⟨op, seen, Thread.eq_of_result hres,
      fun u hu => of_decide_eq_true (List.all_eq_true.1 hall u hu)⟩
  next => cases hc

end DcboMs
