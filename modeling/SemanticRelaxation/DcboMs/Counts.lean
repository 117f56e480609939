import SemanticRelaxation.DcboMs.Invariant

/-!
# The counts of the Michael-Scott partial queue

For any interleaving of `ms_enqueue` and `ms_dequeue`, the counts in the descriptors are the
positions of their nodes in the chain, and the positions up to the count of the head have been taken
one after the other, each by a call of its own that returns the value stored there.
-/

namespace DcboMs

open AtomicProg Linked MichaelScott

/-- Queue `q` is one chain of nodes from its dummy node on, the descriptors carry positions of this
chain, and what stands up to the head has been taken in order. -/
structure Represented (q : ℕ) (u : World partialService) : Prop where
  first : (u.shared.cells.line q)[0]? = some q
  chain : ∀ p n : ℕ, (u.shared.cells.line q)[p]? = some n →
    (u.shared.cells.heap n).next = (u.shared.cells.line q)[p + 1]?
  nodup : (u.shared.cells.line q).Nodup
  tail : (u.shared.cells.line q)[(u.shared.tail q).count]? = (u.shared.tail q).node
  near : (u.shared.tail q).count + 1 = (u.shared.cells.line q).length ∨
    (u.shared.tail q).count + 2 = (u.shared.cells.line q).length
  head : (u.shared.cells.line q)[(u.shared.head q).count]? = (u.shared.head q).node
  le : (u.shared.head q).count ≤ (u.shared.tail q).count
  taken : (u.shared.taken q).length = (u.shared.head q).count
  once : ∀ i i' op : ℕ, (u.shared.taken q)[i]? = some op → (u.shared.taken q)[i']? = some op →
    i = i'
  value : ∀ i op r k, (u.shared.taken q)[i]? = some op → u.returned op = some (r, k) →
    u.calls[op]? = some (.dequeue q) ∧
      ∃ n, (u.shared.cells.line q)[i + 1]? = some n ∧ (u.shared.cells.heap n).val = r

/-- What remains true of the answer of a call on the partial queues. -/
def Answer (w : ℕ) (op : ℕ) (call : Call) (r : ℤ) (s : Memory) : Prop :=
  call.queue < w ∧ match call with
  | .enqueue _ _ => Untaken op s
  | .dequeue q => Got op q r s ∨ Untaken op s

theorem Answer.later {w : ℕ} {good : ℤ → Prop} {op : ℕ} {call : Call} {r : ℤ}
    {s s' : Memory × (ℕ → ℕ)} (hi : Inv w good s.1) (hk : Kept w (.op op) s s')
    (h : Answer w op call r s.1) : Answer w op call r s'.1 := by
  obtain ⟨hq, h⟩ := h
  have hu : Untaken op s.1 → Untaken op s'.1 := fun hu q hm => hu q (hk.own op rfl q hm)
  refine ⟨hq, ?_⟩
  cases call with
  | enqueue q val => exact hu h
  | dequeue q => exact h.imp (Got.later hq hi hk) hu

/-- The answers of the partial queues. -/
def results (w : ℕ) : Results partialService (regime Call w fun _ => True) where
  holds op call r _ s := Answer w op call r s.1
  later _ _ _ _ _ _ _ _ hi _ hk h := h.later hi hk

theorem inv_initial (w : ℕ) (good : ℤ → Prop) : Inv w good (initial w) where
  valid := .init
  count _ _ := rfl
  once _ _ _ _ _ _ _ h _ := by cases h
  good _ _ _ _ h := by cases h
  first _ _ := rfl

theorem partial_obligations (w : ℕ) : Obligations (results w) (fun call : Call => call.queue < w)
    (fun _ _ _ => True) (fun c call x v => Answer w c.op call x.2 v.state)
    (initial w) (fun _ => 0) () where
  init := inv_initial w _
  init_fresh _ _ := List.not_mem_nil
  init_loc _ := True.intro
  loc_later _ _ _ _ _ _ _ _ _ h := h
  post_stable _ _ _ v _ h ha := ha.later (inv_of v) (View.frame_op h)
  code t op call l v _ _ hq _ hf := by
    cases call with
    | enqueue q val =>
      exact wp.bind_of (msEnqueue_spec hq True.intro) fun _ _ h => ⟨hq, h.2 hf⟩
    | dequeue q =>
      refine wp.bind_of (msDequeue_spec hq hf) fun r v' h => ⟨hq, ?_⟩
      exact h.2.imp_right fun h => h.2.1
  finish _ _ _ _ _ h := ⟨fun _ _ => h, True.intro⟩

theorem msQueue_counts {w : ℕ} {p : Pool partialService}
    (hr : Reach (fun (call : Call) _ => call.queue < w) (fun _ _ => True) (initial w) () p) :
    ∀ q < w, Represented q p.world := by
  obtain ⟨g, hi, hres, -⟩ := (partial_obligations w).implements.inv hr
  intro q hq
  have hi : Inv w (fun _ => True) p.world.shared := hi
  refine ⟨hi.first q hq, hi.valid.lines.next q hq, ?_, hi.valid.tail q hq, hi.valid.near q hq,
    hi.valid.head q hq, hi.valid.le q hq, hi.count q hq,
    fun i i' op h h' => (hi.once q hq q hq i i' op h h').2, fun i op r k ho hret => ?_⟩
  · refine List.nodup_iff_injective_getElem.2 fun a b hab => Fin.ext ?_
    refine hi.valid.pos_inj hq (List.getElem?_eq_getElem a.2) ?_
    exact (List.getElem?_eq_getElem b.2).trans (congrArg some hab.symm)
  · obtain ⟨call, hc, hq', ha⟩ := hres op r k hret
    have hmem : op ∈ p.world.shared.taken q := List.mem_of_getElem? ho
    cases call with
    | enqueue q' val => exact absurd hmem (ha q)
    | dequeue q' =>
      obtain ⟨i', n, hi', hn, hv⟩ := ha.resolve_right fun hu => hu q hmem
      obtain ⟨rfl, rfl⟩ := hi.once q hq q' hq' i i' op ho hi'
      exact ⟨hc, n, hn, hv⟩

/-- One value goes in and out. -/
theorem msQueue_counts_one : ∃ p : Pool partialService,
    ((p.world.shared.head 0).count = 1 ∧ (p.world.returned 1).isSome = true) ∧
      Represented 0 p.world := by
  have h : (((Pool.init partialService (initial 1) ()).exec
      (Move.invoke 0 (Call.enqueue 0 7) :: List.replicate 9 (Move.step 0 0) ++
        Move.invoke 1 (Call.dequeue 0) :: List.replicate 12 (Move.step 1 0))).any fun p =>
      decide ((p.world.shared.head 0).count = 1 ∧ (p.world.returned 1).isSome = true)) = true := by
    decide +kernel
  obtain ⟨p, hp, hc⟩ := Pool.exec_of_check h
  refine ⟨p, of_decide_eq_true hc, msQueue_counts (Pool.exec_reach hp ?_ .init) 0 Nat.one_pos⟩
  intro t c hm _
  simp only [List.cons_append, List.mem_cons, List.mem_append, List.mem_replicate] at hm
  rcases hm with hm | hm | hm | hm
  · cases hm
    decide
  · cases hm.2
  · cases hm
    decide
  · cases hm.2

end DcboMs
