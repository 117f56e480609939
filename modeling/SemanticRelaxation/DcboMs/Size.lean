import SemanticRelaxation.DcboMs.Counts
import SemanticRelaxation.Prog.History

/-!
# The size of a Michael-Scott partial queue (`ms_queue_size`)

The size is the count of the tail less the count of the head, in 64 bits. The two counts are loaded
one after the other, so that the head may have passed the tail that was loaded.

`Loads` is ghost state: the two counts that a call has loaded.

* `msQueue_size`: the size never exceeds the number of items that were linked, if the loads of the
  call are in order.
-/

namespace DcboMs

open AtomicProg Linked MichaelScott

/-- A difference of two `uint64_t`. -/
def difference (a b : ℕ) : ℕ := (a % 2 ^ 64 + (2 ^ 64 - b % 2 ^ 64)) % 2 ^ 64

/-- `ms_queue_size`. -/
def msQueueSize (q : ℕ) : Prog Memory ℕ := do
  let tail ← Prog.read fun s : Memory => (s.tail q).count
  let head ← Prog.read fun s : Memory => (s.head q).count
  return difference tail head

/-- The calls on the partial queues, and on their size. -/
inductive SizedCall
  | partialCall (call : Call)
  | size (q : ℕ)
  deriving DecidableEq

/-- The queue that a call is made on. -/
def SizedCall.queue : SizedCall → ℕ
  | .partialCall call => call.queue
  | .size q => q

/-- The partial queues with `ms_queue_size`. -/
abbrev sizedService : Service Memory Unit where
  Call := SizedCall
  Ret := ℤ
  code
    | c, .partialCall call, l => partialService.code c call l
    | _, .size q, l => do
      let r ← msQueueSize q
      return (l, (r : ℤ))

/-- The counts of the tail and of the head that each call of `ms_queue_size` has loaded. -/
abbrev Loads : Type := ℕ → ℕ × ℕ

/-- `ms_queue_size` with a record of what it loads. -/
def recordedSize (c : Caller) (q : ℕ) : Prog (Memory × Loads) ℕ := do
  let tail ← Prog.readWith (fun s => (s.tail q).count) fun s loads =>
    Function.update loads c.op ((s.tail q).count, 0)
  let head ← Prog.readWith (fun s => (s.head q).count) fun s loads =>
    Function.update loads c.op ((loads c.op).1, (s.head q).count)
  return difference tail head

/-- The service with this record. -/
abbrev recordedService : Service (Memory × Loads) Unit where
  Call := SizedCall
  Ret := ℤ
  code
    | c, .partialCall call, l => (partialService.code c call l).onFst
    | c, .size q, l => do
      let r ← recordedSize c q
      return (l, (r : ℤ))

/-- The number of items that were linked into queue `q` so far. -/
def Memory.linked (s : Memory) (q : ℕ) : ℕ := (s.cells.line q).length - 1

/-! ### The invariant of the queues -/

theorem recorded_annotates (c : Caller) (call : SizedCall) (l : Unit) :
    (recordedService.code c call l).Annotates (sizedService.code c call l) := by
  cases call with
  | partialCall call => exact .onFst _
  | size q =>
    exact .bind (.bind (.readWith _ _) fun _ => .bind (.readWith _ _) fun _ => .ret _)
      fun _ => .ret _

theorem sized_obligations (w : ℕ) :
    Obligations (.trivial sizedService (regime SizedCall w fun _ => True))
    (fun call : SizedCall => call.queue < w) (fun _ _ _ => True) (fun _ _ _ _ => True) (initial w)
    (fun _ => 0) () where
  init := inv_initial w _
  init_fresh _ _ := List.not_mem_nil
  init_loc _ := True.intro
  loc_later _ _ _ _ _ _ _ _ _ h := h
  post_stable _ _ _ _ _ _ _ := True.intro
  code t op call l v _ _ hq _ hf := by
    cases call with
    | partialCall call =>
      cases call with
      | enqueue q val => exact wp.bind_of (msEnqueue_spec hq True.intro) fun _ _ _ => True.intro
      | dequeue q => exact wp.bind_of (msDequeue_spec hq hf) fun _ _ _ => True.intro
    | size q =>
      have hsize : wp _ ⟨t, op⟩ (msQueueSize q) (fun _ _ => True) v :=
        wp.read fun _ _ => wp.read fun _ _ => True.intro
      exact wp.bind_of hsize fun _ _ _ => True.intro
  finish _ _ _ _ _ _ := ⟨fun _ _ => True.intro, True.intro⟩

section Recorded

variable {w : ℕ} {loads : Loads} {p : Pool recordedService}

theorem inv_of_recorded
    (hr : Reach (fun (call : SizedCall) _ => call.queue < w) (fun _ _ => True) (initial w, loads)
      () p) :
    Inv w (fun _ => True) p.world.shared.1 := by
  obtain ⟨p', hr', ha⟩ :=
    Reach.of_annotated_ok (fun call : SizedCall => call.queue < w) recorded_annotates hr
  obtain ⟨g, hi, -⟩ := (sized_obligations w).implements.inv hr'
  rw [ha.world.shared]
  exact hi

/-- The counts of all queues. -/
structure CountsGrow (s s' : Memory) : Prop where
  tail : ∀ q, (s.tail q).count ≤ (s'.tail q).count
  head : ∀ q, (s.head q).count ≤ (s'.head q).count

namespace CountsGrow

theorem refl (s : Memory) : CountsGrow s s := ⟨fun _ => le_rfl, fun _ => le_rfl⟩

theorem trans {s₁ s₂ s₃ : Memory} (h : CountsGrow s₁ s₂) (h' : CountsGrow s₂ s₃) :
    CountsGrow s₁ s₃ :=
  ⟨fun q => (h.tail q).trans (h'.tail q), fun q => (h.head q).trans (h'.head q)⟩

theorem of_counts (s : Memory) {s' : Memory} (h : ∀ q, s'.tail q = s.tail q ∧
      s'.head q = s.head q) : CountsGrow s s' :=
  ⟨fun q => (congrArg Descriptor.count (h q).1).ge, fun q => (congrArg Descriptor.count (h q).2).ge⟩

/-- The exchange of a tail by one with the next count. -/
theorem tailCae (q : ℕ) (tail : Descriptor) (node : Option ℕ) :
    (tailCae q tail ⟨node, tail.count + 1⟩).Steps CountsGrow := by
  refine .bind (.cae refl fun s he => ⟨fun q' => ?_, fun _ => le_rfl⟩) fun _ => True.intro
  show (s.tail q').count ≤ (Function.update s.tail q ⟨node, tail.count + 1⟩ q').count
  by_cases hq : q' = q
  · subst hq
    rw [Function.update_self, he]
    exact Nat.le_succ _
  · rw [Function.update_of_ne hq]

theorem deqCae (c : Caller) (q : ℕ) (head : Descriptor) (node : Option ℕ) :
    (deqCae c q head ⟨node, head.count + 1⟩).Steps CountsGrow := by
  refine .bind (.cae refl fun s he => ⟨fun _ => le_rfl, fun q' => ?_⟩) fun _ => True.intro
  show (s.head q').count ≤ (Function.update s.head q ⟨node, head.count + 1⟩ q').count
  by_cases hq : q' = q
  · subst hq
    rw [Function.update_self, he]
    exact Nat.le_succ _
  · rw [Function.update_of_ne hq]

theorem readDescriptor (loc : Memory → Descriptor) : (readDescriptor loc).Steps CountsGrow := by
  refine .bind (.choose refl) fun n => ?_
  split
  · exact .bind (.read refl _) fun _ => .bind (.read refl _) fun _ => True.intro
  · exact .bind (.read refl _) fun _ => .bind (.read refl _) fun _ => True.intro

theorem msEnqueue (q : ℕ) (val : ℤ) : (msEnqueue q val).Steps CountsGrow := by
  refine .bind (.update fun s => .of_counts s fun _ => ⟨rfl, rfl⟩) fun newNode =>
    .bind (.forever (fun _ => ?_) ()) fun tail => ?_
  · refine .bind (readDescriptor _) fun tail => .bind (.read refl _) fun next => ?_
    split
    · refine .bind (.bind (.cae refl fun s _ => .of_counts s fun _ => ⟨rfl, rfl⟩)
        fun _ => True.intro) fun _ => True.intro
    · exact .bind (.read refl _) fun next => .bind (tailCae q tail next) fun _ => True.intro
  · exact .bind (tailCae q tail _) fun _ => True.intro

theorem msDequeue (c : Caller) (q : ℕ) : (msDequeue c q).Steps CountsGrow := by
  refine .forever (fun _ => .bind (readDescriptor _) fun head => .bind (readDescriptor _)
    fun tail => ?_) ()
  split
  · refine .bind (.read refl _) fun next => ?_
    split
    · exact True.intro
    · exact .bind (.read refl _) fun next => .bind (tailCae q tail next) fun _ => True.intro
  · refine .bind (.read refl _) fun next => .bind (deqCae c q head next) fun done => ?_
    split
    · exact .bind (.read refl _) fun _ => .bind (.read refl _) fun _ => True.intro
    · exact True.intro

theorem partialCode (c : Caller) (call : Call) (l : Unit) :
    (partialService.code c call l).Steps CountsGrow := by
  cases call with
  | enqueue q val => exact .bind (msEnqueue q val) fun _ => True.intro
  | dequeue q => exact .bind (msDequeue c q) fun _ => True.intro

end CountsGrow

/-! ### The loads -/

/-- The counts grow, and the record of the owner stays. -/
structure LoadsKept (o : Owner) (s s' : (Memory × Loads) × Unit) : Prop where
  counts : CountsGrow s.1.1 s'.1.1
  own : ∀ n, o = .op n → s'.1.2 n = s.1.2 n

/-- What the record of the loads relies on and keeps. -/
def loadsRegime : Regime SizedCall (Memory × Loads) Unit where
  inv _ _ := True
  frame := LoadsKept
  fresh _ _ := True
  assume _ _ := True
  refl _ s := ⟨.refl s.1.1, fun _ _ => rfl⟩
  trans _ _ _ _ h h' := ⟨h.counts.trans h'.counts, fun n ho => (h'.own n ho).trans (h.own n ho)⟩
  inv_call _ _ _ _ := True.intro
  fresh_later _ _ _ _ _ := True.intro

/-- The call has loaded both counts and returned their difference. -/
structure Sized (op q : ℕ) (r : ℤ) (s : Memory × Loads) : Prop where
  value : r = difference (s.2 op).1 (s.2 op).2
  tail : (s.2 op).1 ≤ (s.1.tail q).count
  head : (s.2 op).2 ≤ (s.1.head q).count

theorem Sized.later {op q : ℕ} {r : ℤ} {s s' : (Memory × Loads) × Unit}
    (hk : LoadsKept (.op op) s s') (h : Sized op q r s.1) : Sized op q r s'.1 := by
  have hown := hk.own op rfl
  refine ⟨?_, ?_, ?_⟩
  · rw [hown]
    exact h.value
  · rw [hown]
    exact h.tail.trans (hk.counts.tail q)
  · rw [hown]
    exact h.head.trans (hk.counts.head q)

/-- What remains true of the answer of a call. -/
def SizeAnswer (w op : ℕ) (call : SizedCall) (r : ℤ) (s : Memory × Loads) : Prop :=
  match call with
  | .partialCall _ => True
  | .size q => q < w ∧ Sized op q r s

theorem SizeAnswer.later {op : ℕ} {call : SizedCall} {r : ℤ} {s s' : (Memory × Loads) × Unit}
    (hk : LoadsKept (.op op) s s') (h : SizeAnswer w op call r s.1) :
    SizeAnswer w op call r s'.1 := by
  cases call with
  | partialCall call => exact True.intro
  | size q => exact ⟨h.1, h.2.later hk⟩

/-- The answers of the calls. -/
def sizeResults (w : ℕ) : Results recordedService loadsRegime where
  holds op call r _ s := SizeAnswer w op call r s.1
  later _ _ _ _ _ _ _ _ _ _ hk h := h.later hk

variable {c : Caller} {v : View (sizeResults w).protocol c} {q : ℕ}

/-- A load of a count, with its record, is a step that concerns nobody else. -/
theorem record_allows (l : ℕ × ℕ) : (sizeResults w).protocol.Allows c v.now
    (v.after (v.state.1, Function.update v.state.2 c.op l) v.now.2) := by
  refine Regime.allows v True.intro fun o ho => ⟨.refl _, fun n hn => ?_⟩
  have hne : n ≠ c.op := fun he => ho (by rw [hn, he]; rfl)
  exact Function.update_of_ne hne _ _

theorem recordedSize_spec :
    wp (sizeResults w).protocol c (recordedSize c q) (fun r v' => Sized c.op q r v'.state) v := by
  refine wp.update fun v₁ h₁ _ => ⟨v₁.now.2, record_allows _, ?_⟩
  refine wp.update fun v₂ h₂ _ => ⟨v₂.now.2, record_allows _, ?_⟩
  have hk : LoadsKept (.op c.op)
    ((v₁.state.1, Function.update v₁.state.2 c.op ((v₁.state.1.tail q).count, 0)), v₁.now.2)
      v₂.pair := View.frame_op h₂
  have hown : v₂.state.2 c.op = ((v₁.state.1.tail q).count, 0) :=
    (hk.own c.op rfl).trans (Function.update_self ..)
  have hloads : Function.update v₂.state.2 c.op ((v₂.state.2 c.op).1,
    (v₂.state.1.head q).count) c.op =
      ((v₁.state.1.tail q).count, (v₂.state.1.head q).count) := by
    rw [Function.update_self, hown]
  refine ⟨?_, ?_, ?_⟩
  · exact congrArg (fun x : ℕ × ℕ => (difference x.1 x.2 : ℤ)) hloads.symm
  · exact (congrArg Prod.fst hloads).le.trans (hk.counts.tail q)
  · exact (congrArg Prod.snd hloads).le

theorem loads_obligations (loads : Loads) :
    Obligations (sizeResults w) (fun call : SizedCall => call.queue < w)
    (fun _ _ _ => True) (fun c call x v => SizeAnswer w c.op call x.2 v.state) (initial w, loads) ()
    () where
  init := True.intro
  init_fresh _ := True.intro
  init_loc _ := True.intro
  loc_later _ _ _ _ _ _ _ _ _ h := h
  post_stable _ _ _ _ _ h ha := ha.later (View.frame_op h)
  code t op call l v _ _ hq _ _ := by
    cases call with
    | partialCall call =>
      have hsteps := Prog.Steps.onFst (τ := Loads) (CountsGrow.partialCode ⟨t, op⟩ call l)
      refine wp.mono (wp.of_steps hsteps (fun _ _ _ _ _ => True.intro) fun o x s hs => ?_)
        fun _ _ _ => True.intro
      have hframe : LoadsKept o x (s, x.2) := ⟨hs.1, fun n _ => congrFun hs.2 n⟩
      exact hframe
    | size q => exact wp.bind_of recordedSize_spec fun _ _ h => ⟨hq, h⟩
  finish _ _ _ _ _ h := ⟨fun _ _ => h, True.intro⟩

end Recorded

theorem difference_of_le {a b : ℕ} (h : b ≤ a) : difference a b ≤ a := by
  unfold difference
  omega

theorem lt_difference {a b n : ℕ} (h : a < b) (hb : b ≤ n) (hn : n < 2 ^ 63) :
    n < difference a b := by
  unfold difference
  omega

/-- For any interleaving of the three operations: the size that a call returns is not larger than
the number of items that were linked, if the head that it loaded is not beyond the tail that it
loaded before. With less than 2^63 items it is larger in all other cases. -/
theorem msQueue_size {w : ℕ} {p : Pool recordedService}
    (hr : Reach (fun (call : SizedCall) _ => call.queue < w) (fun _ _ => True)
      (initial w, fun _ => (0, 0)) () p)
    {op q k : ℕ} {r : ℤ} (hcall : p.world.calls[op]? = some (.size q))
    (hret : p.world.returned op = some (r, k)) :
    ((p.world.shared.2 op).2 ≤ (p.world.shared.2 op).1 → r ≤ p.world.shared.1.linked q) ∧
      (p.world.shared.1.linked q < 2 ^ 63 →
        (r ≤ p.world.shared.1.linked q ↔ (p.world.shared.2 op).2 ≤ (p.world.shared.2 op).1)) := by
  have hi := inv_of_recorded hr
  obtain ⟨g, hg⟩ := (loads_obligations (w := w) fun _ => (0, 0)).implements.inv hr
  obtain ⟨call, hc, ha⟩ := hg.2.1 op r k hret
  obtain rfl : SizedCall.size q = call := Option.some.inj (hcall.symm.trans hc)
  obtain ⟨hq, hsized⟩ : q < w ∧ Sized op q r p.world.shared := ha
  have hnear := hi.valid.near q hq
  have hle : (p.world.shared.1.tail q).count ≤ p.world.shared.1.linked q := by
    unfold Memory.linked
    change (p.world.shared.1.tail q).count + 1 = (p.world.shared.1.cells.line q).length ∨
      (p.world.shared.1.tail q).count + 2 = (p.world.shared.1.cells.line q).length at hnear
    omega
  have hheads : (p.world.shared.1.head q).count ≤ (p.world.shared.1.tail q).count :=
    hi.valid.le q hq
  have htail := hsized.tail
  have hhead := hsized.head
  have hholds : (p.world.shared.2 op).2 ≤ (p.world.shared.2 op).1 →
    r ≤ p.world.shared.1.linked q := by
    intro horder
    rw [hsized.value]
    exact_mod_cast (difference_of_le horder).trans (htail.trans hle)
  refine ⟨hholds, fun hfew => ⟨fun hr => ?_, hholds⟩⟩
  by_contra hpast
  have hlt := lt_difference (Nat.lt_of_not_le hpast) (hhead.trans (hheads.trans hle)) hfew
  rw [hsized.value] at hr
  exact absurd (by exact_mod_cast hr) (Nat.not_le.2 hlt)

/-- The moves of a run make calls on queue 0 only. -/
theorem lt_of_allow {ms : List (Move recordedService)}
    (h : Move.allow (fun call : SizedCall => decide (call.queue < 1)) ms = true) {t : ℕ}
    {call : SizedCall} (hm : .invoke t call ∈ ms) : call.queue < 1 :=
  of_decide_eq_true (Move.valid_of_allow h hm)

/-- A size is taken of a queue with one item. -/
theorem msQueue_size_one : ∃ p : Pool recordedService, p.world.returned 1 = some (1, 2) ∧
    (((p.world.shared.2 1).2 ≤ (p.world.shared.2 1).1 → (1 : ℤ) ≤ p.world.shared.1.linked 0) ∧
      (p.world.shared.1.linked 0 < 2 ^ 63 →
        ((1 : ℤ) ≤ p.world.shared.1.linked 0 ↔ (p.world.shared.2 1).2 ≤
          (p.world.shared.2 1).1))) := by
  have h : (((Pool.init recordedService (initial 1, fun _ => (0, 0)) ()).exec
      (Move.invoke 0 (SizedCall.partialCall (.enqueue 0 7)) :: List.replicate 9 (Move.step 0 0) ++
        Move.invoke 1 (SizedCall.size 0) :: List.replicate 3 (Move.step 1 0))).any fun p =>
      decide (p.world.returned 1 = some (1, 2) ∧ p.world.calls[1]? = some (.size 0))) = true := by
    decide +kernel
  obtain ⟨p, hp, hc⟩ := Pool.exec_of_check h
  obtain ⟨hret, hcall⟩ := of_decide_eq_true hc
  exact ⟨p, hret, msQueue_size
    (Pool.exec_reach hp (fun _ _ hm _ => lt_of_allow (by decide) hm) .init) hcall hret⟩

/-- Between the two loads of a size an item goes in and out: the size is 2^64 - 1. -/
theorem msQueue_size_wraps : ∃ p : Pool recordedService,
    Reach (fun (call : SizedCall) _ => call.queue < 1) (fun _ _ => True)
      (initial 1, fun _ => (0, 0)) () p ∧
      p.world.calls[0]? = some (.size 0) ∧ p.world.returned 0 = some (2 ^ 64 - 1, 3) ∧
      p.world.shared.1.linked 0 = 1 := by
  have h : (((Pool.init recordedService (initial 1, fun _ => (0, 0)) ()).exec
      (Move.invoke 0 (SizedCall.size 0) :: Move.step 0 0 ::
        Move.invoke 1 (SizedCall.partialCall (.enqueue 0 7)) :: List.replicate 9 (Move.step 1 0) ++
        Move.invoke 1 (SizedCall.partialCall (.dequeue 0)) :: List.replicate 12 (Move.step 1 0) ++
        List.replicate 2 (Move.step 0 0))).any
      fun p => decide (p.world.calls[0]? = some (.size 0) ∧
        p.world.returned 0 = some (2 ^ 64 - 1, 3) ∧
        p.world.shared.1.linked 0 = 1)) = true := by
    decide +kernel
  obtain ⟨p, hp, hc⟩ := Pool.exec_of_check h
  exact ⟨p, Pool.exec_reach hp (fun _ _ hm _ => lt_of_allow (by decide) hm) .init,
    of_decide_eq_true hc⟩

end DcboMs
