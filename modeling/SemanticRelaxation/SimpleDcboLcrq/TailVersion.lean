import SemanticRelaxation.SimpleDcboLcrq.Tails
import SemanticRelaxation.DcboLcrq.Closing
import SemanticRelaxation.Prog.History

/-!
# The version of the tail (`wrapped_tail_version`)

The version should change with every enqueue. `lcrq_tail_version` puts the index of the tail of the
last ring into the low half of a word, and the items of the rings before it into the high half; but
`wrapped_tail_version` returns an `int`, which has no place for the high half.

* `tailVersion_unique`: as long as the tail is on one ring, versions differ if an enqueue has come
  and gone;
* `tailVersion_repeats`: they do not when there is a new ring.
-/

namespace SimpleDcboLcrq

open AtomicProg Linked Segments DcboLcrq Words

variable {w size q : ℕ} {s s' : Memory}

/-! ### The version -/

/-- The version of the tail of queue `q`. -/
def version (s : Memory) (q : ℕ) : ℤ :=
  toInt ((s.ring (s.chain.tail q)).tail.index % 2 ^ 32 +
    2 ^ 32 * ((s.ring (s.chain.tail q)).itemsEnqueued % 2 ^ 32))

theorem wrappedTailVersion_alone (q : ℕ) (x : Wrapped) :
    Total (.trivial Wrapped) (fun v x' => v = version x.1 q ∧ x' = x) (wrappedTailVersion q) x := by
  have h : Total (.trivial Memory) (fun v s' => v = (x.1.ring (x.1.chain.tail q)).tail.index %
    2 ^ 32 +
      2 ^ 32 * ((x.1.ring (x.1.chain.tail q)).itemsEnqueued % 2 ^ 32) ∧
        s' = x.1) (lcrqTailVersion q) x.1 := by
    simp only [lcrqTailVersion, readTail, readRingTail, Total.read_iff]
    exact .ret ⟨rfl, rfl⟩
  refine Total.bind_of (h.onFst x.2) ?_
  rintro v ⟨s, k⟩ ⟨⟨rfl, rfl⟩, rfl⟩
  exact .ret ⟨rfl, rfl⟩

/-- The high half has no place in an `int`. -/
theorem version_eq (s : Memory) (q : ℕ) :
    version s q = toInt (s.ring (s.chain.tail q)).tail.index := by
  unfold version toInt
  have h : (((s.ring (s.chain.tail q)).tail.index % 2 ^ 32 +
      2 ^ 32 * ((s.ring (s.chain.tail q)).itemsEnqueued % 2 ^ 32) : ℕ) : ℤ) % 2 ^ 32 =
      ((s.ring (s.chain.tail q)).tail.index : ℤ) % 2 ^ 32 := by omega
  rw [← Int.emod_bmod, ← Int.emod_bmod (n := 2 ^ 32)
    (x := ((s.ring (s.chain.tail q)).tail.index : ℤ))]
  exact congrArg (Int.bmod · (2 ^ 32)) h

theorem wrappedTailVersion_runs (x : Wrapped) (q : ℕ) :
    ∃ x' tr, (wrappedTailVersion q).Runs x (version x.1 q) x' tr := by
  have htotal := wrappedTailVersion_alone q x
  obtain ⟨n, hn⟩ := htotal.terminates (fun _ _ => True.intro) fun _ => 0
  obtain ⟨⟨v, x', tr⟩, hrun⟩ := Option.isSome_iff_exists.1 hn
  have hruns : (wrappedTailVersion q).Runs x v x' tr := ⟨n, _, hrun⟩
  obtain ⟨⟨hv, -⟩, -⟩ := htotal.runs hruns fun _ _ => True.intro
  exact ⟨x', tr, hv ▸ hruns⟩

/-- If the tail of queue `q` is on the same ring at two times, and the version as well, then no
enqueue into the queue has been called after the first time and has returned by the second. -/
theorem tailVersion_unique {P P' : Pool (service size)}
    (hr : Reach (fun (call : Call) _ => call.Valid w) (fun _ _ => True) (initialWrapped w) none P)
    (hb : Between (fun (call : Call) _ => call.Valid w) (fun _ _ => True) P P') (hq : q < w)
    (hring : P'.world.shared.1.chain.tail q = P.world.shared.1.chain.tail q)
    (hfew : P'.world.shared.2.attempts < 2 ^ 32) {v : ℤ} {x x' : Wrapped}
    {tr tr' : List (Wrapped × Wrapped)} (hv : (wrappedTailVersion q).Runs P.world.shared v x tr)
    (hv' : (wrappedTailVersion q).Runs P'.world.shared v x' tr') {op : ℕ} {val : ℤ}
    (hlate : P.world.calls.length ≤ op) (hcall : P'.world.calls[op]? = some (.enqueue q val)) :
    P'.world.returned op = none := by
  by_contra hne
  obtain ⟨⟨r, k⟩, hret⟩ := Option.ne_none_iff_exists'.1 hne
  obtain ⟨g, g', hg, hg', hf⟩ := (obligations w size).implements.between hr hb
  have hk : Kept w (.op (P'.world.calls.length + 1)) (P.world.shared, g) (P'.world.shared, g') :=
    hf _ (Nat.lt_succ_self _)
  have hi : Inv w P.world.shared := hg.1
  have hi' : Inv w P'.world.shared := hg'.1
  -- the call has started from the place of the first time on, and has moved the tail
  obtain ⟨call, hc, ha⟩ := hg'.2.1 op r k hret
  obtain rfl : Call.enqueue q val = call := Option.some.inj (hcall.symm.trans hc)
  obtain ⟨-, F, hF, hlt⟩ : q < w ∧ Passed op q (P'.world.shared, g') := ha q val rfl
  have hfresh : g.starts q op = none := hg.2.2 op hlate q
  have hstart : place P.world.shared.1 q ≤ F := by
    rcases hk.new q hq op F hF with h | h
    · cases hfresh.symm.trans h
    · exact h
  have hplace : place P.world.shared.1 q < place P'.world.shared.1 q := hstart.trans_lt hlt
  -- the ring is the same, so the index of its tail is another one
  have hpos : P'.world.shared.1.chain.tailPos q = P.world.shared.1.chain.tailPos q := by
    have hmem := hi.valid.tail q hq
    unfold Chain.tailPos
    rw [hring]
    exact pos_of_grown (hk.nodes.grows.line q) hmem
  have hindex : (P.world.shared.1.ring (P.world.shared.1.chain.tail q)).tail.index <
      (P'.world.shared.1.ring (P'.world.shared.1.chain.tail q)).tail.index := by
    unfold place at hplace
    rw [Prod.Lex.toLex_lt_toLex] at hplace
    rcases hplace with h | ⟨-, h⟩
    · exact absurd h (hpos ▸ lt_irrefl _)
    · exact h
  obtain ⟨⟨hv, -⟩, -⟩ := (wrappedTailVersion_alone q _).runs hv fun _ _ => True.intro
  obtain ⟨⟨hv', -⟩, -⟩ := (wrappedTailVersion_alone q _).runs hv' fun _ _ => True.intro
  rw [version_eq] at hv hv'
  exact toInt_ne hindex ((hi'.index _).trans_lt hfew) (hv.symm.trans hv')

/-- Two enqueues. -/
def twoEnqueues : List (Move (service LCRQ_RING_SIZE)) :=
  Move.invoke 0 (Call.enqueue 0 7) :: List.replicate 10 (Move.step 0 0) ++
    Move.invoke 0 (Call.enqueue 0 8) :: List.replicate 10 (Move.step 0 0)

/-- A dequeue of another thread, and the start of an enqueue of a third one. -/
def dequeueAndStart : List (Move (service LCRQ_RING_SIZE)) :=
  Move.invoke 1 (Call.dequeue 0) :: List.replicate 12 (Move.step 1 0) ++
    Move.invoke 2 (Call.enqueue 0 9) :: List.replicate 3 (Move.step 2 0)

/-- The version is 2 after two enqueues. A dequeue has come and gone since, and the version is still
2: the third enqueue has not returned. -/
theorem tailVersion_unique_two : ∃ P P' : Pool (service LCRQ_RING_SIZE),
    (P.world.calls.length = 2 ∧ ∃ x tr, (wrappedTailVersion 0).Runs P.world.shared 2 x tr) ∧
      (P'.world.returned 2 = some (7, 3) ∧ ∃ x tr,
        (wrappedTailVersion 0).Runs P'.world.shared 2 x tr) ∧
      P'.world.calls[3]? = some (.enqueue 0 9) ∧ P'.world.returned 3 = none := by
  have h₁ : (((Pool.init (service LCRQ_RING_SIZE) (initialWrapped 1) none).exec twoEnqueues).any
    fun P =>
      (P.exec dequeueAndStart).any fun P' =>
      decide ((P.world.calls.length = 2 ∧
        (P.world.shared.1.ring (P.world.shared.1.chain.tail 0)).tail.index = 2) ∧
        (P'.world.returned 2 = some (7, 3) ∧
          (P'.world.shared.1.ring (P'.world.shared.1.chain.tail 0)).tail.index = 2) ∧
        P'.world.calls[3]? = some (.enqueue 0 9) ∧
        P'.world.shared.1.chain.tail 0 = P.world.shared.1.chain.tail 0 ∧
        P'.world.shared.2.attempts < 2 ^ 32)) = true := by
    decide +kernel
  have hok : Move.allow (fun call : Call => decide (call.Valid 1))
    (twoEnqueues ++ dequeueAndStart) = true := by
    decide +kernel
  have hvalid : ∀ ms ⊆ twoEnqueues ++ dequeueAndStart, ∀ t c, Move.invoke t c ∈ ms →
      ∀ w : World (service LCRQ_RING_SIZE), Call.Valid 1 c := fun _ hs _ _ hm _ =>
    of_decide_eq_true (Move.valid_of_allow hok (hs hm))
  obtain ⟨P, hP, h₂⟩ := Pool.exec_of_check h₁
  obtain ⟨P', hP', h₃⟩ := Pool.exec_of_check h₂
  obtain ⟨⟨hlen, hindex⟩, ⟨hret, hindex'⟩, hcall, htail, hfew⟩ := of_decide_eq_true h₃
  obtain ⟨x, tr, hx⟩ := wrappedTailVersion_runs P.world.shared 0
  obtain ⟨x', tr', hx'⟩ := wrappedTailVersion_runs P'.world.shared 0
  rw [version_eq, hindex] at hx
  rw [version_eq, hindex'] at hx'
  refine ⟨P, P', ⟨hlen, x, tr, hx⟩, ⟨hret, x', tr', hx'⟩, hcall, tailVersion_unique (w := 1)
    (Pool.exec_reach hP (hvalid _ (List.subset_append_left ..)) .init)
    (Pool.exec_between hP' (hvalid _ (List.subset_append_right ..))) Nat.one_pos htail hfew hx hx'
    (hlen.trans_le (by decide)) hcall⟩

/-! ### A new ring -/

/-- A ring is appended behind the closed one, with the item. -/
theorem appendRing_alone {c : Caller} (h : Stuck size s) (val : ℤ) :
    Total (.trivial Memory) (fun r s' => .inr none = r ∧ (s'.ring (s'.chain.tail 0)).tail.index = 1)
      (appendRing c 0 0 size val none) s := by
  simp only [appendRing, allocRing, Total.update_iff, Total.read_iff]
  refine fun _ => ⟨True.intro, fun _ => ⟨True.intro, ?_⟩⟩
  have hne : (0 : ℕ) ≠ s.chain.cells.fresh := h.fresh.symm
  -- the ring that is appended, with the step on it
  generalize hf : (fun x : RingQueue => x.prepare c.op val
    (((s.onChain (·.create initRing)).ring 0).itemsEnqueued + size)) = f
  have hindex : (f initRing).tail.index = 1 := by
    rw [← hf]
    rfl
  have hring : ((s.onChain (·.create initRing)).onRing s.chain.cells.fresh f).ring
    s.chain.cells.fresh =
      f initRing := by
    rw [Memory.ring_onRing, if_pos rfl]
    exact congrArg f (s.chain.create_seg_self initRing)
  refine Total.cae_of_eq ?_ fun _ => ⟨True.intro, ?_⟩
  · refine (Chain.modify_next _ _ _ 0).trans ?_
    show (Function.update s.chain.cells.heap s.chain.cells.fresh _ 0).next = none
    rw [Function.update_of_ne hne]
    exact h.next
  · refine Total.bind_of (P := fun _ s' => (s'.ring (s'.chain.tail 0)).tail.index = 1) ?_
      fun _ s' hs' => .ret ⟨rfl, hs'⟩
    refine Total.cae_of_eq h.tail fun _ => ⟨True.intro, .ret ?_⟩
    have htail : Function.update s.chain.tail 0 s.chain.cells.fresh 0 = s.chain.cells.fresh :=
      Function.update_self ..
    have hseg := Chain.link_seg
      ((s.onChain (·.create initRing)).onRing s.chain.cells.fresh f).chain 0 0
      s.chain.cells.fresh s.chain.cells.fresh
    rw [← hindex, ← hring]
    refine congrArg (fun a : RingQueue => a.tail.index) (Eq.trans ?_ hseg)
    exact congrArg (Chain.seg _) htail

section Alone

variable {c : Caller} {k : ℕ} {val : ℤ} {x : Wrapped}

theorem readTail_alone (h : OneRing x.1) :
    Total (.trivial Wrapped) (fun rq y => 0 = rq ∧ x = y) (readTail 0).onFst x :=
  .act (fun _ _ => True.intro) fun _ _ => .ret ⟨h.tail.symm, rfl⟩

theorem readNext_alone (h : OneRing x.1) :
    Total (.trivial Wrapped) (fun next y => none = next ∧ x = y) (readNext 0).onFst x :=
  .act (fun _ _ => True.intro) fun _ _ => .ret ⟨h.next.symm, rfl⟩

theorem startAttempt_alone (h : (x.1.ring 0).tail = ⟨k, false⟩) :
    Total (.trivial Wrapped) (fun t y => ⟨k, false⟩ = t ∧
      (x.1.onRing 0 (·.addTail), { x.2 with attempts := x.2.attempts + 1 }) = y)
      (startAttempt 0) x :=
  .act (fun _ _ => True.intro) fun _ _ => .ret ⟨h.symm, rfl⟩

/-- An enqueue into a ring with cells left makes one attempt. -/
theorem lcrqPut_stored (h : Filled size k x.1) (hk : k < size) (hval : val ≠ -1) :
    Total (.trivial Wrapped) (fun l y => none = l ∧ Filled size (k + 1) y.1 ∧
      y.2.attempts = x.2.attempts + 1)
      (lcrqPut size c 0 val none) x := by
  refine Total.forever_once ?_
  refine Total.bind_of (readTail_alone h.toOneRing) ?_
  rintro _ _ ⟨rfl, rfl⟩
  refine Total.bind_of (readNext_alone h.toOneRing) ?_
  rintro _ _ ⟨rfl, rfl⟩
  refine Total.bind_of (startAttempt_alone h.ringTail) ?_
  rintro _ _ ⟨rfl, rfl⟩
  refine Total.bind_of ((putCell_stored h hk val hval).onFst _) ?_
  rintro _ ⟨s, n⟩ ⟨⟨rfl, hs⟩, hn⟩
  exact .ret ⟨none, rfl, rfl, hs, congrArg Counters.attempts hn⟩

/-- An enqueue that finds the ring full closes it and appends one with its item, all in one attempt.
-/
theorem lcrqPut_full (h : Filled size size x.1) (hs : 0 < size) :
    Total (.trivial Wrapped) (fun l y => none = l ∧ (y.1.ring (y.1.chain.tail 0)).tail.index = 1 ∧
      y.2.attempts = x.2.attempts + 1) (lcrqPut size c 0 val none) x := by
  refine Total.forever_once ?_
  refine Total.bind_of (readTail_alone h.toOneRing) ?_
  rintro _ _ ⟨rfl, rfl⟩
  refine Total.bind_of (readNext_alone h.toOneRing) ?_
  rintro _ _ ⟨rfl, rfl⟩
  refine Total.bind_of (startAttempt_alone h.ringTail) ?_
  rintro _ _ ⟨rfl, rfl⟩
  refine Total.bind_of ((putCell_alone h hs val).onFst _) ?_
  rintro _ ⟨s, n⟩ ⟨⟨rfl, hstuck⟩, hn⟩
  refine Total.bind_of ((appendRing_alone hstuck val).onFst _) ?_
  rintro _ ⟨s', n'⟩ ⟨⟨rfl, hindex⟩, hn'⟩
  exact .ret ⟨none, rfl, rfl, hindex, congrArg Counters.attempts (hn'.trans hn)⟩

/-- The counter is incremented behind the enqueue. -/
theorem wrappedEnqueue_alone {A : Memory → Prop} {a : ℕ}
    (h : Total (.trivial Wrapped) (fun l y => none = l ∧ A y.1 ∧ y.2.attempts = a)
      (lcrqPut size c 0 val none) x) :
    Total (.trivial Wrapped) (fun z y => none = z.1 ∧ A y.1 ∧ y.2.attempts = a)
      (wrappedEnqueue size c 0 val none) x := by
  refine Total.bind_of h ?_
  rintro l y hy
  simp only [addEnqCount, Total.update_iff]
  exact fun _ => ⟨True.intro, .ret hy⟩

end Alone

/-- A run of one thread: queue 0 has been filled by `k` enqueues since `P₀`. -/
structure Filling (size : ℕ) (P₀ : Pool (service size)) (k : ℕ) (P : Pool (service size)) :
    Prop where
  between : Between (fun (call : Call) _ => call.Valid 1) (fun _ _ => True) P₀ P
  thread : P.thread 0 = .idle none
  filled : Filled size k P.world.shared.1
  calls : P.world.calls.length = k
  attempts : P.world.shared.2.attempts = k

theorem valid_one : Call.Valid 1 (.enqueue 0 1) := Nat.one_pos

theorem Filling.next {P₀ P : Pool (service size)} {k : ℕ} (h : Filling size P₀ k P)
    (hk : k < size) :
    ∃ P', Filling size P₀ (k + 1) P' := by
  obtain ⟨P', l, r, hb, ht, ⟨hl, hf, ha⟩, hcalls, -⟩ :=
    Total.between (fun _ _ => True.intro) h.between h.thread
    valid_one (wrappedEnqueue_alone (lcrqPut_stored h.filled hk (by decide)))
  obtain rfl : none = l := hl
  refine ⟨P', hb, ht, hf, ?_, ha.trans (congrArg Nat.succ h.attempts)⟩
  rw [hcalls, List.length_append, List.length_singleton, h.calls]

theorem Filling.upTo {P₀ P : Pool (service size)} {k m : ℕ} (h : Filling size P₀ k P)
    (hm : k + m ≤ size) :
    ∃ P', Filling size P₀ (k + m) P' := by
  induction m with
  | zero => exact ⟨P, h⟩
  | succ m ih =>
    obtain ⟨P', h'⟩ := ih (Nat.le_of_succ_le hm)
    exact h'.next hm

theorem filling_init : Filling size (.init (service size) (initialWrapped 1) none) 0
    (.init (service size) (initialWrapped 1) none) where
  between := .refl
  thread := rfl
  filled := ⟨⟨rfl, rfl, rfl, rfl, Nat.one_ne_zero, rfl, rfl, fun _ => rfl, fun _ => rfl⟩, rfl,
    nofun, fun _ _ _ => rfl⟩
  calls := rfl
  attempts := rfl

/-- One thread enqueues until the ring is full, and once more. The version is 1 when the first
enqueue has returned, and 1 when the last one has. -/
theorem tailVersion_repeats : ∃ P P' : Pool (service LCRQ_RING_SIZE),
    Reach (fun (call : Call) _ => call.Valid 1) (fun _ _ => True) (initialWrapped 1) none P ∧
      Between (fun (call : Call) _ => call.Valid 1) (fun _ _ => True) P P' ∧
      (P'.world.calls.length = LCRQ_RING_SIZE + 1 ∧
        P'.world.shared.2.attempts = LCRQ_RING_SIZE + 1) ∧
      (∃ x tr x' tr', (wrappedTailVersion 0).Runs P.world.shared 1 x tr ∧
        (wrappedTailVersion 0).Runs P'.world.shared 1 x' tr') ∧
      ∃ op y, P.world.calls.length ≤ op ∧ P'.world.calls[op]? = some (.enqueue 0 1) ∧
        P'.world.returned op = some y := by
  have hpos : 0 < LCRQ_RING_SIZE := by decide
  have hsize : 1 + (LCRQ_RING_SIZE - 1) = LCRQ_RING_SIZE := Nat.add_sub_of_le hpos
  obtain ⟨P, hP⟩ := (@filling_init LCRQ_RING_SIZE).next hpos
  have hrefl : Filling LCRQ_RING_SIZE P 1 P := ⟨.refl, hP.thread, hP.filled, hP.calls, hP.attempts⟩
  obtain ⟨P₁, h₁⟩ := hrefl.upTo (m := LCRQ_RING_SIZE - 1) hsize.le
  rw [hsize] at h₁
  obtain ⟨P', l, r, hb, -, ⟨-, hindex, ha⟩, hcalls, hret⟩ :=
    Total.between (fun _ _ => True.intro) h₁.between
    h₁.thread valid_one (wrappedEnqueue_alone
      (A := fun s => (s.ring (s.chain.tail 0)).tail.index = 1)
      (lcrqPut_full h₁.filled hpos))
  have hversion : version P.world.shared.1 0 = 1 := by
    rw [version_eq, hP.filled.tail, hP.filled.ringTail]
    exact toInt_of_lt (by decide)
  have hversion' : version P'.world.shared.1 0 = 1 := by
    rw [version_eq, hindex]
    exact toInt_of_lt (by decide)
  obtain ⟨x, tr, hx⟩ := wrappedTailVersion_runs P.world.shared 0
  obtain ⟨x', tr', hx'⟩ := wrappedTailVersion_runs P'.world.shared 0
  rw [hversion] at hx
  rw [hversion'] at hx'
  refine ⟨P, P', hP.between.reach .init, hb, ⟨?_, ha.trans (congrArg Nat.succ h₁.attempts)⟩,
    ⟨x, tr, x', tr', hx, hx'⟩, P₁.world.calls.length, _, ?_, ?_, hret⟩
  · rw [hcalls, List.length_append, List.length_singleton, h₁.calls]
  · rw [hP.calls, h₁.calls]
    exact hpos
  · rw [hcalls]
    exact List.getElem?_concat_length

end SimpleDcboLcrq
