import SemanticRelaxation.DcboFaaaq.Order
import SemanticRelaxation.Dcbo.Alone
import SemanticRelaxation.Dcbo.DoubleCollect
import SemanticRelaxation.Prog.Solo

/-!
# `EMPTY` of the d-CBO queue over FAAArrayQueues

The version of a tail is the number of the next slot for an enqueue. A queue that is `Clear` with
this version is clear as long as the version stays, and then the items of all enqueues that have
returned are in slots that dequeues have claimed.

With more than `2 ^ 31` sub-queues the index of a round of the double collect overflows, and a round
may leave out sub-queues that hold items.
-/

namespace DcboFaaaq

open AtomicProg Linked Segments

variable {set : Dcbo.Params}

/-- What a call of the d-CBO queue puts into a queue. -/
def puts (call : Dcbo.Call) (_ : ℕ) (val : ℤ) : Prop := call = .enqueue val

/-- What remains true of the answers of the d-CBO queue. -/
def balanced (set : Dcbo.Params) :
    Results (Dcbo.service partialFaaaq set) (regime Dcbo.Call set.width puts) where
  holds op call _ _ x := Settled set.width op x ∧
    ∀ val, call = .enqueue val → ∃ q < set.width, Placed op q val x
  later op call _ _ _ _ x x' hi _ hk h := by
    refine ⟨h.1.kept hi.1 hk, fun val hv => ?_⟩
    obtain ⟨q, hq, hp⟩ := h.2 val hv
    exact ⟨q, hq, hp.later hq hk⟩

variable {c : Caller} {q : ℕ}

theorem readOnly_enqCount (P : Protocol (Dcbo.service partialFaaaq set) Ghost) (q : ℕ) :
    Dcbo.ReadOnly P c (faaaqEnqCount q) :=
  (Dcbo.ReadOnly.read _).bind fun _ => (Dcbo.ReadOnly.read _).bind fun _ =>
    (Dcbo.ReadOnly.read _).bind fun _ => .ret _

theorem readOnly_deqCount (P : Protocol (Dcbo.service partialFaaaq set) Ghost) (q : ℕ) :
    Dcbo.ReadOnly P c (faaaqDeqCount q) :=
  (Dcbo.ReadOnly.read _).bind fun _ => (Dcbo.ReadOnly.read _).bind fun _ =>
    (Dcbo.ReadOnly.read _).bind fun _ => .ret _

theorem capped_eq (idx : ℕ) : capped idx = min idx bufferSize := by
  unfold capped bufferSize
  split
  next h => omega
  next h => omega

/-- `faaaq_enq_count` returns a number between the next slot at its beginning and the one at its
end. -/
theorem faaaqEnqCount_spec {v : View (balanced set).protocol c} (hq : q < set.width) :
    wp (balanced set).protocol c (faaaqEnqCount q) (fun y v' => Since v v' ∧
      v.state.enqPos q ≤ y ∧ y ≤ v'.state.enqPos q) v := by
  refine wp.read fun v₁ h₁ => wp.read fun v₂ h₂ => wp.read fun v₃ h₃ => ?_
  have ht₁ := read_tail hq v₁
  have ht₂ := (grows_of_le h₂).getElem? ht₁
  have hidx := (inv_of v₃).nodeIdx q hq _ _ ((grows_of_le h₃).getElem? ht₂)
  rw [hidx, capped_eq]
  refine ⟨.of_le (h₁.trans (h₂.trans h₃)), ?_, ?_⟩
  · have h₀₁ := (Since.of_le h₁).frame.enqPos q hq
    have henq := enqIdx_of_le h₂ hq ht₁
    refine h₀₁.trans ?_
    show v₁.state.enqPos q ≤ _
    unfold Memory.enqPos
    omega
  · refine le_trans ?_ ((Since.of_le h₃).frame.enqPos q hq)
    show _ ≤ v₂.state.enqPos q
    have htail := tailPos_of_le hq h₂ le_rfl
    unfold Memory.enqPos
    rcases htail.lt_or_eq with hlt | heq
    · have := Nat.mul_le_mul_left bufferSize hlt
      rw [Nat.mul_succ] at this
      omega
    · have hseg : v₂.state.chain.tail q = v₁.state.chain.tail q := by
        have h := read_tail hq v₂
        rw [← heq] at h
        exact Option.some.inj (h.symm.trans ht₂)
      rw [hseg, ← heq]

/-- The partial queue provides what the double collect needs. -/
def emptiness (set : Dcbo.Params) (c : Caller) :
    Dcbo.Emptiness (balanced set).protocol c partialFaaaq set.width where
  mono u u' := Grown set.width u.1.shared u'.1.shared
  refl u := .refl _
  trans := Grown.trans
  of_le h := (Since.of_le h).frame.grown
  answer r v := Settled set.width c.op v.pair ∧ (r = Dcbo.EMPTY → Wasted set.width c.op v.pair)
  stable r v v' h ha := by
    have hs := Since.of_le h
    exact ⟨ha.1.kept (inv_of v) hs.frame, fun hr => (ha.2 hr).kept (inv_of v) hs.frame⟩
  version q u := u.1.shared.enqPos q
  clear q u := Clear q u.1.shared
  version_mono q hq _ _ _ _ hg := hg.enqPos q hq
  clear_mono q hq _ _ _ _ hg he hc := hc.grown hg he.ge
  deqCount q _ := readOnly_deqCount _ q
  tailVersion q hq v ha := by
    refine (faaaqEnqCount_spec hq).mono ?_
    rintro y v' ⟨hs, h₁, h₂⟩
    exact ⟨⟨hs.seen, hs.frame.grown⟩,
      ⟨ha.1.kept (inv_of v) hs.frame, fun hr => (ha.2 hr).kept (inv_of v) hs.frame⟩, h₁, h₂⟩
  dequeue q hq v ha := by
    refine (faaaqDequeue_spec hq (ha.2 rfl)).mono fun r v' h => ⟨⟨h.1.seen, h.1.grown⟩, ?_, ?_⟩
    · rcases h.2 with ⟨hne, hg⟩ | ⟨-, hw, -⟩
      · exact ⟨hg.settled, fun hr => absurd hr hne⟩
      · exact ⟨hw.settled, fun _ => hw⟩
    · rintro rfl heq
      rcases h.2 with ⟨hne, -⟩ | ⟨-, -, hc⟩
      · exact absurd rfl hne
      · exact hc heq

/-- The values that are enqueued: those that the code has no other use for. -/
def Allowed (call : Dcbo.Call) : Prop := ∀ val, call = .enqueue val → val ≠ Dcbo.EMPTY ∧ val ≠ TAKEN

theorem balanced_obligations (hw : 0 < set.width) (hmax : set.width ≤ 2 ^ 31) :
    Obligations (balanced set) Allowed (fun _ _ _ => True)
      (fun c call x v => (balanced set).holds c.op call x.2 0 v.pair ∧
        (call = .dequeue → x.2 = Dcbo.EMPTY →
          ∃ u ∈ v.seen, ∀ q < set.width, Clear q u.1.shared))
      (initial set.width) (fun _ => .op 0, fun _ _ => none) () where
  init := ⟨inv_initial _, nofun⟩
  init_fresh _ := ⟨nofun, fun _ _ _ => List.not_mem_nil, fun _ => rfl⟩
  init_loc _ := True.intro
  loc_later _ _ _ _ _ _ _ _ _ h := h
  post_stable c call x v v' h hp := by
    refine ⟨(balanced set).later c.op call x.2 0 _ _ _ _ v.inv_pair v'.inv_pair
      (View.frame_op h) hp.1, fun hc hr => ?_⟩
    obtain ⟨u, hu, hall⟩ := hp.2 hc hr
    exact ⟨u, h.1 hu, hall⟩
  code t op call l v _ hcall hok _ hf := by
    cases call with
    | enqueue val =>
      have hread : ∀ j < set.width, Dcbo.ReadOnly (balanced set).protocol ⟨t, op⟩
          (Dcbo.enqHeuristic partialFaaaq j) := fun j _ => (readOnly_enqCount _ j).bind fun _ =>
          .ret _
      refine wp.bind (Dcbo.randomIndex_spec hw fun i v₁ h₁ hi => ?_)
      refine wp.bind (hread i hi v₁ _ fun x v₂ h₂ => ?_)
      refine wp.bind (Dcbo.chooseIndex_spec hw hread _ hi fun k v₃ h₃ hk => ?_)
      have hs := Since.of_le (h₁.trans (h₂.trans h₃))
      obtain ⟨hne, hne'⟩ := hok val rfl
      have he : Enqueues puts set.width k val v₃ :=
        ⟨hk, hne, hne', ⟨_, hs.call hcall, rfl⟩, blank_since hs ⟨hf.1, hf.2.1⟩⟩
      refine wp.bind_of (faaaqEnqueue_spec he) fun r v₄ h => ⟨⟨?_, ?_⟩, nofun⟩
      · exact fun j hj z hz => absurd hz (h.2 j hj z)
      · rintro _ ⟨⟩
        exact ⟨k, hk, h.1⟩
    | dequeue =>
      have hwaste : Wasted set.width op v.pair :=
        ⟨hf.1, fun j hj z hz _ => absurd hz (hf.2.1 j hj z)⟩
      refine wp.bind_of ((emptiness set ⟨t, op⟩).dequeue_spec hw hmax
        ⟨Wasted.settled hwaste, fun _ => hwaste⟩) ?_
      exact fun r v' ⟨_, ha, hr⟩ => ⟨⟨ha.1, nofun⟩, fun _ he => hr he⟩
  finish _ _ _ _ _ h := ⟨fun _ _ => h.1, True.intro⟩

/-- The items of all enqueues that have returned are taken, or in slots that running dequeues have
claimed. -/
def Covered (w : ℕ) (u : World (Dcbo.service partialFaaaq set)) : Prop :=
  ∀ o val x, u.calls[o]? = some (Dcbo.Call.enqueue val) → u.returned o = some x →
    ∃ y, u.shared.stored y = some (o, val) ∧
      (u.shared.item y = TAKEN ∨ ∃ q < w, ∃ d, (y, d) ∈ u.shared.claims q ∧ u.Live d)

/-- With at most `2 ^ 31` sub-queues, a dequeue that answers `EMPTY` ran through a configuration in
which the items of all enqueues that had returned were taken or claimed. -/
theorem faaaqBalanced_empty {set : Dcbo.Params} (hw : 0 < set.width) (hmax : set.width ≤ 2 ^ 31)
    {p : Pool (Dcbo.service partialFaaaq set)}
    (hr : Reach (fun (call : Dcbo.Call) _ => Allowed call) (fun _ _ => True)
      (initial set.width) () p)
    {t op : ℕ} {seen : List (World (Dcbo.service partialFaaaq set))}
    (ht : p.thread t = .running op Dcbo.Call.dequeue seen (.ret ((), Dcbo.EMPTY))) :
    ∃ u ∈ seen, Covered set.width u := by
  obtain ⟨v, -, hsub, -, hpost⟩ := (balanced_obligations hw hmax).implements.returns hr ht
  obtain ⟨u, hu, hall⟩ := hpost rfl rfl
  refine ⟨u.1, hsub u hu, fun o val x hc hret => ?_⟩
  obtain ⟨⟨hinv, -⟩, hres, hfresh⟩ := v.inv u hu
  have hinv : Inv set.width u.1.shared u.2.2 := hinv
  obtain ⟨r, k⟩ := x
  obtain ⟨call, hc', -, hp⟩ := hres o r k hret
  obtain rfl : Dcbo.Call.enqueue val = call := Option.some.inj (hc.symm.trans hc')
  obtain ⟨q, hq, y, p', hy, hline, hle⟩ := hp val rfl
  have hidx := (hinv.stored y o val hy).1
  have hlt : bufferSize * p' + y.idx < (u.1.shared.claims q).length :=
    (number_lt hinv hq hy hline hle).trans_le (hall q hq)
  obtain ⟨d, hd⟩ := hinv.claim_of_lt hq hline hidx hlt
  have hd := List.mem_of_getElem? hd
  refine ⟨y, hy, ?_⟩
  cases hret' : u.1.returned d with
  | some x' =>
    obtain ⟨r', k'⟩ := x'
    obtain ⟨call', -, hset, -⟩ := hres d r' k' hret'
    exact .inl (hset q hq y hd)
  | none =>
    refine .inr ⟨q, hq, d, hd, ?_, hret'⟩
    by_contra hge
    exact (hfresh d (not_lt.1 hge)).2.1 q hq y hd

/-- One queue: `enqueue(7)` returns, a `dequeue` takes it, and a second one answers `EMPTY`. -/
theorem faaaqBalanced_empty_one : ∃ p : Pool (Dcbo.service partialFaaaq ⟨1, 1⟩), ∃ op seen,
    p.thread 1 = .running op Dcbo.Call.dequeue seen (.ret ((), Dcbo.EMPTY)) ∧
      ∃ u ∈ seen, Covered 1 u := by
  have h : (((Pool.init (Dcbo.service partialFaaaq ⟨1, 1⟩) (initial 1) ()).exec
      (.invoke 0 (.enqueue 7) :: List.replicate 9 (.step 0 0) ++
        .invoke 1 .dequeue :: List.replicate 12 (.step 1 0) ++
        .invoke 1 .dequeue :: List.replicate 23 (.step 1 0))).any fun p =>
      match (p.thread 1).result with
      | some (_, .dequeue, _, _, r) => decide (r = Dcbo.EMPTY)
      | _ => false) = true := by
    decide +kernel
  obtain ⟨p, hp, hc⟩ := Pool.exec_of_check h
  split at hc
  next op seen _ r hres =>
    have ht := Thread.eq_of_result hres
    obtain rfl : r = Dcbo.EMPTY := of_decide_eq_true hc
    refine ⟨p, op, seen, ht, @faaaqBalanced_empty ⟨1, 1⟩ (by decide) (by decide) p ?_ 1 op seen ht⟩
    refine Pool.exec_reach hp ?_ .init
    intro t call hm _ val hv
    simp only [List.cons_append, List.mem_cons, List.mem_append, List.mem_replicate] at hm
    subst hv
    obtain ⟨-, rfl⟩ : t = 0 ∧ val = 7 := by simpa using hm
    decide
  next => cases hc

/-! ### More than `2 ^ 31` sub-queues -/

/-- Only the queue `j₀` has been used, and nothing has been dequeued. -/
structure OnlyUsed (j₀ : ℕ) (s : Memory) : Prop where
  head : ∀ j, s.chain.head j = j
  tail : ∀ j, s.chain.tail j = j
  next : ∀ j, (s.chain.cells.heap j).next = none
  unused : ∀ j, j ≠ j₀ → (s.seg j).enqIdx = 0 ∧ (s.seg j).deqIdx = 0
  claims : ∀ j, s.claims j = []
  item : ∀ y, s.item y ≠ TAKEN

theorem enqueue_total (w j₀ : ℕ) (c : Caller) :
    Total (.trivial Memory) (fun _ s => OnlyUsed j₀ s) (faaaqEnqueue c j₀ 5) (initial w) := by
  refine Total.forever_once ?_
  simp only [faaaqEnqueueRound, readTail, fetchAddEnq, Total.read_iff, Total.update_iff]
  intro _
  refine ⟨True.intro, ?_⟩
  show Total _ _ (if 0 > bufferSize - 1 then leaveSegment c j₀ j₀ 5 else
    enqCae c ⟨j₀, 0⟩ 5 >>= fun done => .ret (if done = true then .inr (1 : ℤ) else .inl ()))
    ((initial w).onChain (·.modify j₀ nextEnq))
  rw [if_neg (show ¬ (0 : ℕ) > bufferSize - 1 by decide)]
  simp only [enqCae, Prog.bind_assoc]
  have hseg := (initial w).seg_modify j₀ nextEnq
  refine Total.cae_of_eq ?_ fun _ => ⟨True.intro, ?_⟩
  · exact modify_items (f := nextEnq) (fun _ => rfl) ⟨j₀, 0⟩
  · refine Total.ret ⟨1, rfl, fun _ => rfl, fun _ => rfl, fun j => ?_, fun j hj => ?_, fun _ => rfl,
      fun y => ?_⟩
    · refine (Chain.modify_next _ j₀ _ j).trans ?_
      exact (Chain.modify_next _ j₀ nextEnq j).trans rfl
    · have h : (((initial w).onChain (·.modify j₀ nextEnq)).put c.op ⟨j₀, 0⟩ 5).seg j =
        (initial w).seg j := by
        refine (Memory.seg_setItem _ ⟨j₀, 0⟩ 5 j).trans ?_
        rw [if_neg hj, hseg, if_neg hj]
      exact ⟨congrArg Segment.enqIdx h, congrArg Segment.deqIdx h⟩
    · have h : (((initial w).onChain (·.modify j₀ nextEnq)).put c.op ⟨j₀, 0⟩ 5).item y =
        if y = ⟨j₀, 0⟩ then 5 else Dcbo.EMPTY := by
        refine (Memory.item_setItem _ ⟨j₀, 0⟩ y 5).trans ?_
        rw [modify_items (f := nextEnq) fun _ => rfl]
        rfl
      refine fun ht => absurd (h.symm.trans ht) ?_
      split <;> decide
/-- The contract of code that only reads. -/
def readOnly : Contract Memory := ⟨fun _ _ => True, fun s s' => s' = s, fun _ => True.intro,
      fun _ => rfl⟩

/-- The version of the tail of queue `j`. -/
def versionOf (s : Memory) (j : ℕ) : ℕ :=
  capped (s.seg (s.chain.tail j)).enqIdx + bufferSize * (s.seg (s.chain.tail j)).nodeIdx

theorem enqCount_alone (s : Memory) (j : ℕ) :
    Total readOnly (fun y s' => versionOf s j = y ∧ s = s') (faaaqEnqCount j) s := by
  simp only [faaaqEnqCount, readTail, Total.read_iff]
  exact .ret ⟨rfl, rfl⟩

variable {j₀ j : ℕ} {s : Memory} {c : Caller}

theorem noneLeft_alone (h : OnlyUsed j₀ s) (hj : j ≠ j₀) :
    Total readOnly (fun b s' => b = true ∧ s = s') (noneLeft j) s := by
  obtain ⟨henq, hdeq⟩ := h.unused j hj
  refine Total.bind_of (P := fun x s' => (0, 0) = x ∧ s = s') ?_ ?_
  · simp only [readIndices, Total.choose_iff]
    intro n
    split
    · simp only [Total.read_iff, henq, hdeq]
      exact .ret ⟨rfl, rfl⟩
    · simp only [Total.read_iff, henq, hdeq]
      exact .ret ⟨rfl, rfl⟩
  · rintro _ _ ⟨rfl, rfl⟩
    simp only [readNext, Total.read_iff, h.next, ge_iff_le, le_refl, if_true]
    exact .ret ⟨rfl, rfl⟩

theorem dequeue_alone (h : OnlyUsed j₀ s) (hj : j ≠ j₀) :
    Total readOnly (fun r s' => Dcbo.EMPTY = r ∧ s = s') (faaaqDequeue c j) s := by
  refine Total.forever_once (Total.bind_of (P := fun head s' => j = head ∧ s = s') ?_ ?_)
  · exact .act (fun _ _ => rfl) fun _ _ => .ret ⟨(h.head j).symm, rfl⟩
  · rintro _ _ ⟨rfl, rfl⟩
    refine Total.bind_of (noneLeft_alone h hj) ?_
    rintro _ _ ⟨rfl, rfl⟩
    exact .ret ⟨_, rfl, rfl, rfl⟩

/-- A sub-queue that no round visits is not missed. -/
theorem dry (h : OnlyUsed j₀ s) :
    Dcbo.Dry readOnly (s = ·) partialFaaaq c (· ≠ j₀) (versionOf s) where
  tailVersion := by
    rintro j - _ rfl
    exact enqCount_alone s j
  deqCount := by
    rintro j - _ rfl
    simp only [partialFaaaq, faaaqDeqCount, readHead, Total.read_iff]
    exact .ret rfl
  dequeue := by
    rintro j hj _ rfl
    exact dequeue_alone h hj

/-- One sub-queue more than the arithmetic in `uint32_t` can go round. -/
def wide : Dcbo.Params := ⟨2 ^ 31 + 1, 1⟩

/-- The sub-queue that a round from the last sub-queue on leaves out. -/
def missed : ℕ := 2 ^ 31 - 1

theorem indexAt_ne_missed {k : ℕ} (hk : k < wide.width) :
    Dcbo.indexAt wide (2 ^ 31 + 1) k ≠ missed := by
  simp only [Dcbo.indexAt, wide, missed] at hk ⊢
  omega

/-- `enqueue` once `missed` is drawn. -/
theorem wide_enqueue (c : Caller) :
    Total (.trivial Memory) (fun _ s => OnlyUsed missed s)
      (Dcbo.enqueueFrom partialFaaaq wide c 5 () missed) (initial wide.width) := by
  refine Total.bind_of (P := fun i s' => missed = i ∧ initial wide.width = s') ?_ ?_
  · have hn : missed % wide.width = missed := by decide
    rw [hn]
    simp only [Dcbo.chooseIndex_one (show wide.d = 1 from rfl), Dcbo.enqHeuristic, partialFaaaq,
      faaaqEnqCount, readTail, Total.read_iff, Prog.bind_assoc]
    exact .ret ⟨rfl, rfl⟩
  · rintro _ _ ⟨rfl, rfl⟩
    show Total _ _ (faaaqEnqueue c missed 5 >>= fun r => .ret ((), r)) _
    exact Total.bind_of (enqueue_total wide.width missed c) fun _ _ h => .ret h

theorem wide_dequeue {s : Memory} (h : OnlyUsed missed s) (c : Caller) :
    Total readOnly (fun x s' => Dcbo.EMPTY = x.2 ∧ s = s')
      (Dcbo.dequeueFrom partialFaaaq wide c (2 ^ 31) >>= fun v => .ret ((), v)) s := by
  have hn : 2 ^ 31 % wide.width = 2 ^ 31 := by decide
  refine Total.bind_of ((dry h).dequeueFrom rfl ?_ (fun k hk => ?_) rfl) ?_
  · rw [hn]
    decide
  · rw [hn]
    exact indexAt_ne_missed hk
  · rintro _ _ ⟨rfl, rfl⟩
    exact .ret ⟨rfl, rfl⟩

/-- `enqueue(5)` puts its item into the last sub-queue but one, and returns. A `dequeue` that draws
the last sub-queue goes round from there, leaves out the one with the item, and answers `EMPTY`. -/
theorem faaaqBalanced_empty_wide : ∃ p : Pool (Dcbo.service partialFaaaq wide),
    Reach (fun (call : Dcbo.Call) _ => Allowed call) (fun _ _ => True) (initial wide.width) () p ∧
      ∃ op seen, p.thread 1 = .running op Dcbo.Call.dequeue seen (.ret ((), Dcbo.EMPTY)) ∧
        ∀ u ∈ seen, ¬ Covered wide.width u := by
  have hok : Allowed (.enqueue 5) := by
    rintro _ ⟨⟩
    decide
  have hr₀ : Alone (Dcbo.service partialFaaaq wide) (fun call _ => Allowed call)
    (initial wide.width) () (.init _ _ ()) := .init
  obtain ⟨P₁, seen₁, ⟨⟨⟩, r⟩, hr₁, ht₁, hs₁, ⟨hw₁, hi₁⟩, -⟩ := Total.call (C := .trivial Memory)
    (I := fun _ => True) (fun _ _ => True.intro) (fun _ _ _ _ => True.intro) hr₀
    (t := 0) (l := ()) rfl (c := .enqueue 5) hok missed (Dcbo.code_enqueue _ _ _ _ _)
    (wide_enqueue _)
    True.intro
  obtain ⟨P₂, hr₂, -, hw₂, hi₂⟩ := Reach.finish hr₁ ht₁
  have hs₂ : OnlyUsed missed P₂.world.shared := by
    rw [hw₂]
    exact hs₁
  have ht₂ : P₂.thread 1 = .idle () := hi₂ 1 () (by decide) (hi₁ 1 () (by decide) rfl)
  obtain ⟨P₃, seen, ⟨⟨⟩, e⟩, hr₃, ht₃, ⟨rfl, -⟩, -, hseen⟩ := Total.call (C := readOnly)
    (Q := fun x s' => Dcbo.EMPTY = x.2 ∧ P₂.world.shared = s')
    (I := fun s => s = P₂.world.shared) (fun _ _ => True.intro) (fun _ _ h hs => h.trans hs) hr₂
    ht₂ (c := .dequeue) nofun (2 ^ 31) (Dcbo.code_dequeue _ _ _ _) (wide_dequeue hs₂ _) rfl
  refine ⟨P₃, hr₃, _, seen, ht₃, fun u hu hcov => ?_⟩
  obtain ⟨hu, hsu⟩ := hseen u hu
  have hcalls : u.calls[0]? = some (Dcbo.Call.enqueue 5) := by
    rw [hu, hw₂, hw₁]
    rfl
  have hret : u.returned 0 = some (r, 1) := by
    rw [hu, hw₂, hw₁]
    simp [World.finish, World.invoke, World.set, Pool.init, World.init]
  obtain ⟨y, -, hy⟩ := hcov 0 5 _ hcalls hret
  rw [hsu] at hy
  rcases hy with hy | ⟨q, -, d, hd, -⟩
  · exact hs₂.item y hy
  · rw [hs₂.claims] at hd
    exact List.not_mem_nil hd

end DcboFaaaq
