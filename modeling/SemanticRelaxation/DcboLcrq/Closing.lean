import SemanticRelaxation.Dcbo.Alone
import SemanticRelaxation.DcboLcrq.Emptiness

/-!
# An `EMPTY` of a full queue

One thread enqueues until the ring is full. Its next enqueue closes the ring, and is held up before
it appends a new one. A dequeue reads the closed tail as a negative number, finds no next ring, and
answers `EMPTY` although all items are there.
-/

namespace DcboLcrq

open AtomicProg Linked Segments

variable {size k : ℕ} {s : Memory} {c : Caller}

/-- There is one ring, and nothing has been dequeued. -/
structure OneRing (s : Memory) : Prop where
  head : s.chain.head 0 = 0
  tail : s.chain.tail 0 = 0
  line : s.line 0 = [0]
  next : (s.chain.cells.heap 0).next = none
  fresh : s.chain.cells.fresh ≠ 0
  ringHead : (s.ring 0).head = 0
  items : (s.ring 0).itemsEnqueued = 0
  claims : ∀ h, (s.ring 0).claims h = none
  taken : ∀ h, (s.ring 0).taken h = none

/-- The first `k` cells of the ring are full. -/
structure Filled (size k : ℕ) (s : Memory) : Prop extends OneRing s where
  ringTail : (s.ring 0).tail = ⟨k, false⟩
  full : ∀ i < k, ((s.ring 0).array i).val ≠ -1
  empty : ∀ i, k ≤ i → i < size → (s.ring 0).array i = ⟨-1, ⟨i, false⟩⟩

/-- A step on the ring. -/
theorem OneRing.onRing (h : OneRing s) {f : RingQueue → RingQueue} (hh : (f (s.ring 0)).head = 0)
    (hi : (f (s.ring 0)).itemsEnqueued = 0) (hc : (f (s.ring 0)).claims = (s.ring 0).claims)
    (ht : (f (s.ring 0)).taken = (s.ring 0).taken) : OneRing (s.onRing 0 f) := by
  have hring : (s.onRing 0 f).ring 0 = f (s.ring 0) := by
    rw [s.ring_onRing, if_pos rfl]
  refine ⟨h.head, h.tail, h.line, (Chain.modify_next _ 0 f 0).trans h.next, h.fresh, ?_, ?_,
    fun i => ?_,
    fun i => ?_⟩
  · rw [hring, hh]
  · rw [hring, hi]
  · rw [hring, hc, h.claims]
  · rw [hring, ht, h.taken]

/-- The copy of a cell, when nobody else moves. -/
theorem readCell_alone (i : ℕ) :
    Total (.trivial Memory) (fun x s' => (s.ring 0).array i = x ∧ s = s') (readCell 0 i) s := by
  simp only [readCell, Total.choose_iff]
  intro n
  split
  · simp only [Total.read_iff]
    exact .ret ⟨rfl, rfl⟩
  · simp only [Total.read_iff]
    exact .ret ⟨rfl, rfl⟩

/-- The item goes into the cell of its index if there are cells left. -/
theorem putCell_stored (h : Filled size k s) (hk : k < size) (val : ℤ) (hval : val ≠ -1) :
    Total (.trivial Memory) (fun r s' => .stored = r ∧ Filled size (k + 1) s')
      (putCell size c 0 ⟨k, false⟩ val 0) (s.onRing 0 (·.addTail)) := by
  have hone := (h.toOneRing.onRing (f := (·.addTail)) h.ringHead h.items rfl rfl)
  have hring : (s.onRing 0 (·.addTail)).ring 0 = (s.ring 0).addTail := by
    rw [s.ring_onRing, if_pos rfl]
  have hcell : ((s.onRing 0 (·.addTail)).ring 0).array (k % size) = ⟨-1, ⟨k, false⟩⟩ := by
    rw [hring, Nat.mod_eq_of_lt hk]
    exact h.empty k le_rfl hk
  show Total _ _ (do
    let cell ← readCell 0 (k % size)
    let safe ← readSafe 0 k cell
    let done ← enqCae size c 0 k val cell safe
    if done then return .stored else closeFull size 0 k 0) _
  refine Total.bind_of (readCell_alone _) ?_
  rintro _ _ ⟨rfl, rfl⟩
  rw [hcell]
  have hsafe : readSafe 0 k ⟨-1, ⟨k, false⟩⟩ = .ret true := by simp [readSafe]
  rw [hsafe]
  simp only [Prog.ret_bind, enqCae, if_true, cellCae, Prog.bind_assoc]
  refine Total.cae_of_eq hcell fun _ => ⟨True.intro, .ret ⟨rfl, ?_⟩⟩
  have hput : ((s.onRing 0 (·.addTail)).onRing 0 (·.put size c.op k val)).ring 0 =
      (s.ring 0).addTail.put size c.op k val := by
    rw [Memory.ring_onRing, if_pos rfl, hring]
  have hone' : OneRing ((s.onRing 0 (·.addTail)).onRing 0 (·.put size c.op k val)) :=
    hone.onRing (f := (·.put size c.op k val)) hone.ringHead hone.items rfl rfl
  have harray : ∀ i, ((s.ring 0).addTail.put size c.op k val).array i =
      if i = k then ⟨val, ⟨k, false⟩⟩ else (s.ring 0).array i := by
    intro i
    show Function.update (s.ring 0).array (k % size) ⟨val, ⟨k, false⟩⟩ i = _
    rw [Nat.mod_eq_of_lt hk]
    split
    next e => rw [e, Function.update_self]
    next e => rw [Function.update_of_ne e]
  refine ⟨hone', ?_, fun i hi => ?_, fun i hi hlt => ?_⟩
  · rw [hput]
    show (⟨(s.ring 0).tail.index + 1, (s.ring 0).tail.mark⟩ : Word) = _
    rw [h.ringTail]
  · rw [hput, harray]
    split
    next => exact hval
    next e => exact h.full i (by omega)
  · rw [hput, harray, if_neg (by omega)]
    exact h.empty i (by omega) hlt

/-- An enqueue into a ring with cells left. -/
theorem lcrqPut_alone (h : Filled size k s) (hk : k < size) (val : ℤ) (hval : val ≠ -1) :
    Total (.trivial Memory) (fun l s' => none = l ∧ Filled size (k + 1) s')
      (lcrqPut size c 0 val none)
      s := by
  refine Total.forever_once ?_
  simp only [lcrqPutRound, readTail, readNext, Total.read_iff, h.tail, h.next, fetchAddTail,
    Total.update_iff, h.ringTail]
  refine fun _ => ⟨True.intro, Total.bind_of (putCell_stored h hk val hval) ?_⟩
  rintro _ s' ⟨rfl, hs'⟩
  exact .ret ⟨none, rfl, rfl, hs'⟩

/-- The ring is full and closed. -/
structure Stuck (size : ℕ) (s : Memory) : Prop extends OneRing s where
  ringTail : (s.ring 0).tail = ⟨size + 1, true⟩

/-- The next enqueue closes the ring. -/
theorem putCell_alone (h : Filled size size s) (hs : 0 < size) (val : ℤ) :
    Total (.trivial Memory) (fun r s' => .alloc 1 = r ∧ Stuck size s')
      (putCell size c 0 ⟨size, false⟩ val 0) (s.onRing 0 (·.addTail)) := by
  have hone := (h.toOneRing.onRing (f := (·.addTail)) h.ringHead h.items rfl rfl)
  have hring : (s.onRing 0 (·.addTail)).ring 0 = (s.ring 0).addTail := by
    rw [s.ring_onRing, if_pos rfl]
  have hcell : (((s.onRing 0 (·.addTail)).ring 0).array (size % size)).val ≠ -1 := by
    rw [hring, Nat.mod_self]
    exact h.full 0 hs
  show Total _ _ (do
    let cell ← readCell 0 (size % size)
    let safe ← readSafe 0 size cell
    let done ← enqCae size c 0 size val cell safe
    if done then return .stored else closeFull size 0 size 0) _
  refine Total.bind_of (readCell_alone _) ?_
  rintro _ _ ⟨rfl, rfl⟩
  have hsafe : readSafe 0 size (((s.onRing 0 (·.addTail)).ring 0).array (size % size)) =
    .ret false := by
    rw [readSafe, if_neg fun e => hcell e.1]
    rfl
  rw [hsafe]
  simp only [Prog.ret_bind, enqCae, Bool.false_eq_true, if_false, Prog.pure_eq_ret, closeFull,
    readRingHead, Total.read_iff, hone.ringHead]
  rw [if_pos (by omega)]
  refine Total.bind_of (P := fun b s' => true = b ∧ Stuck size s') ?_ ?_
  swap
  · rintro _ s' ⟨rfl, h⟩
    exact .ret ⟨rfl, h⟩
  have hlt : 0 + 1 < 10 := by decide
  simp only [closeCrq, hlt, if_true]
  refine Total.cae_of_eq ?_ fun _ =>
    ⟨True.intro, .ret ⟨rfl, hone.onRing (f := (·.close)) hone.ringHead hone.items rfl rfl, ?_⟩⟩
  · rw [hring]
    show (⟨(s.ring 0).tail.index + 1, (s.ring 0).tail.mark⟩ : Word) = _
    rw [h.ringTail]
  · rw [Memory.ring_onRing, if_pos rfl, hring]
    show (⟨(s.ring 0).tail.index + 1, true⟩ : Word) = _
    rw [h.ringTail]

/-! ### The dequeue -/

theorem nothingLeft_alone (h : Stuck size s) (hs : size < 2 ^ 62) :
    Total (.keeping (Stuck size)) (fun b s' => true = b ∧ Stuck size s') (nothingLeft 0) s := by
  simp only [nothingLeft, readRingHead, readRingTail, Total.read_iff, h.ringHead, h.ringTail]
  have hneg : ((0 : ℕ) : ℤ) ≥ (⟨size + 1, true⟩ : Word).signed := by
    show (0 : ℤ) ≥ ((size + 1 : ℕ) : ℤ) - 2 ^ 63
    omega
  rw [if_pos hneg]
  simp only [readNextEarly, Total.update_iff]
  have hmis : Stuck size { s with misled := true } :=
    ⟨⟨h.head, h.tail, h.line, h.next, h.fresh, h.ringHead, h.items, h.claims, h.taken⟩, h.ringTail⟩
  refine fun _ => ⟨fun _ => ?_, .ret ⟨?_, ?_⟩⟩
  · split
    next => exact hmis
    next => exact h
  · rw [h.next]
    rfl
  · split
    next => exact hmis
    next => exact h

theorem dequeueWrap_alone (h : Stuck size s) (hs : size < 2 ^ 62) :
    Total (.keeping (Stuck size)) (fun r s' => Dcbo.EMPTY = r ∧ Stuck size s')
      (dequeueWrap size c 0)
      s := by
  refine Total.bind_of (P := fun r s' => -1 = r ∧ Stuck size s') (Total.forever_once ?_) ?_
  · simp only [lcrqGetRound, readHead, Total.read_iff, h.head]
    refine Total.bind_of (nothingLeft_alone h hs) ?_
    rintro _ s' ⟨rfl, h'⟩
    exact .ret ⟨-1, rfl, rfl, h'⟩
  · rintro _ s' ⟨rfl, h'⟩
    exact .ret ⟨rfl, h'⟩

/-- The version of the tail of the closed ring. -/
def stuckVersion (size : ℕ) : ℕ := (size + 1) % 2 ^ 32 + 2 ^ 32 * (0 % 2 ^ 32)

theorem dry (hs : size < 2 ^ 62) :
    Dcbo.Dry (.keeping (Stuck size)) (Stuck size) (partialLcrq size) c
    (· = 0) fun _ => stuckVersion size where
  tailVersion := by
    rintro _ rfl s h
    simp only [partialLcrq, lcrqTailVersion, readTail, readRingTail, Total.read_iff, h.tail,
      h.ringTail, h.items]
    exact .ret ⟨rfl, h⟩
  deqCount := by
    rintro _ rfl s h
    simp only [partialLcrq, lcrqDeqCount, readHead, readRingHead, Total.read_iff]
    exact .ret h
  dequeue := by
    rintro _ rfl s h
    exact dequeueWrap_alone h hs

/-! ### The run -/

/-- One sub-queue. -/
def single : Dcbo.Params := ⟨1, 1⟩

/-- The pools that this service reaches. -/
abbrev Reaches (size : ℕ) : Pool (Dcbo.service (partialLcrq size) single) → Prop :=
  Alone (Dcbo.service (partialLcrq size) single) (fun call _ => Nonzero call) (initial 1) none

theorem nonzero_one : Nonzero (.enqueue 1) := by
  rintro _ ⟨⟩
  decide

/-- The index of an enqueue has been chosen. -/
theorem heuristic_alone (n : ℕ) (s : Memory) :
    Total (.trivial Memory) (fun i s' => 0 = i ∧ s = s') (do
      let opt ← Dcbo.enqHeuristic (partialLcrq size) (n % single.width)
      Dcbo.chooseIndex single (Dcbo.enqHeuristic (partialLcrq size)) (single.d - 1)
        (n % single.width)
        opt) s := by
  have hn : n % single.width = 0 := Nat.mod_one n
  rw [hn]
  simp only [Dcbo.chooseIndex_one (show single.d = 1 from rfl), Dcbo.enqHeuristic, partialLcrq,
    lcrqEnqCount, readTail, readRingTail, Prog.bind_assoc, Total.read_iff]
  exact .ret ⟨rfl, rfl⟩

/-- The first `k` items of one thread. -/
theorem reach_filled (hk : k ≤ size) : ∃ P, Reaches size P ∧ Filled size k P.world.shared ∧
    (∀ t, P.thread t = .idle none) ∧ (0 < k → P.world.calls[0]? = some (Dcbo.Call.enqueue 1) ∧
      ∃ x, P.world.returned 0 = some x) ∧ P.world.calls.length = k := by
  induction k with
  | zero =>
    refine ⟨.init _ _ _, .init,
      ⟨⟨rfl, rfl, rfl, rfl, Nat.one_ne_zero, rfl, rfl, fun _ => rfl, fun _ => rfl⟩, rfl, nofun,
      fun _ _ _ => rfl⟩, fun _ => rfl, nofun, rfl⟩
  | succ k ih =>
    obtain ⟨P, hr, hf, hi, hc, hlen⟩ := ih (Nat.le_of_succ_le hk)
    have htotal : Total (.trivial Memory) (fun x s' => none = x.1 ∧ Filled size (k + 1) s')
        (Dcbo.enqueueFrom (partialLcrq size) single ⟨0, P.world.calls.length⟩ 1 none 0)
        P.world.shared := by
      refine Total.bind_of (heuristic_alone 0 _) ?_
      rintro _ _ ⟨rfl, rfl⟩
      refine Total.bind_of (lcrqPut_alone hf hk 1 (by decide)) ?_
      rintro _ s' ⟨rfl, hs'⟩
      exact .ret ⟨rfl, hs'⟩
    obtain ⟨P₁, seen, ⟨l, r⟩, hr₁, ht₁, ⟨hl, hs₁⟩, ⟨hw₁, hi₁⟩, -⟩ :=
      htotal.call (I := fun _ => True)
      (fun _ _ => True.intro) (fun _ _ _ _ => True.intro) hr (hi 0) nonzero_one 0
      (Dcbo.code_enqueue _ _ _ _ _) True.intro
    obtain rfl : none = l := hl
    obtain ⟨P₂, hr₂, ht₂, hw₂, hi₂⟩ := Reach.finish hr₁ ht₁
    refine ⟨P₂, hr₂, ?_, fun t => ?_, fun _ => ?_, ?_⟩
    · rw [hw₂]
      exact hs₁
    · by_cases ht : t = 0
      · subst ht
        exact ht₂
      · exact hi₂ t none ht (hi₁ t none ht (hi t))
    · have hcalls : P₂.world.calls = P.world.calls ++ [Dcbo.Call.enqueue 1] := by
        rw [hw₂, hw₁]
        rfl
      rcases Nat.eq_zero_or_pos k with rfl | hpos
      · rw [hcalls, List.eq_nil_of_length_eq_zero hlen]
        refine ⟨rfl, ?_⟩
        rw [hw₂, hlen]
        exact ⟨_, World.finish_returned_self ..⟩
      · obtain ⟨hcall, x, hx⟩ := hc hpos
        refine ⟨?_, x, ?_⟩
        · rw [hcalls, List.getElem?_append_left (by omega), hcall]
        · rw [hw₂, World.finish_returned_of_ne _ _ (by omega), hw₁]
          exact hx
    · rw [hw₂, hw₁]
      simp [hlen]

/-- A further enqueue comes to the point where the ring is closed. -/
theorem enqueue_passes (h : Filled size size s) (hs : 0 < size) :
    Passes (Stuck size) (Dcbo.enqueueFrom (partialLcrq size) single c 1 none 0) s := by
  refine Passes.of_total (fun _ _ => True.intro) (heuristic_alone 0 s) ?_
  rintro _ _ ⟨rfl, rfl⟩
  refine Passes.bind (.loop (Passes.bind ?_))
  refine Passes.read (Passes.read ?_)
  rw [h.tail, h.next]
  refine Passes.update ?_
  have ht : (s.ring 0).tail = ⟨size, false⟩ := h.ringTail
  rw [ht]
  exact Passes.of_total (fun _ _ => True.intro) (putCell_alone h hs 1) fun _ _ h => .here h.2

/-- The next enqueue is held up when it has closed the ring. -/
theorem reach_stuck (hs : 0 < size) : ∃ P, Reaches size P ∧ Stuck size P.world.shared ∧
    P.thread 1 = .idle none ∧ P.world.calls[0]? = some (Dcbo.Call.enqueue 1) ∧
      ∃ x, P.world.returned 0 = some x := by
  obtain ⟨P, hr, hf, hi, hc, -⟩ := @reach_filled size size le_rfl
  obtain ⟨hcall, x, hx⟩ := hc hs
  obtain ⟨P₁, seen₁, hr₁, ht₁, ⟨hw₁, hi₁⟩, -⟩ := Reach.call hr (hi 0) nonzero_one 0
    (Dcbo.code_enqueue _ _ _ _ _)
  have hf₁ : Filled size size P₁.world.shared := by
    rw [hw₁]
    exact hf
  obtain ⟨P₂, hr₂, hstuck, hsame⟩ := (enqueue_passes hf₁ hs).reach hr₁ ht₁ rfl
  refine ⟨P₂, hr₂, hstuck, hsame.idle 1 none (by decide) (hi₁ 1 none (by decide) (hi 1)), ?_, x, ?_⟩
  · rw [hsame.world, hw₁]
    show (P.world.calls ++ [Dcbo.Call.enqueue 1])[0]? = _
    rw [List.getElem?_append_left, hcall]
    exact (List.getElem?_eq_some_iff.1 hcall).1
  · rw [hsame.world, hw₁]
    exact hx

/-- Items fill a ring, and their enqueues return. The next enqueue closes the ring, and is held up
before it appends a new one. A `dequeue` answers `EMPTY`, and all this time the items are there, and
nobody has got their indices. -/
theorem lcrqBalanced_empty_closed : ∃ p : Pool (Dcbo.service (partialLcrq LCRQ_RING_SIZE) single),
    Reach (fun (call : Dcbo.Call) _ => Nonzero call) (fun _ _ => True) (initial 1) none p ∧
      ∃ op l seen, p.thread 1 = .running op Dcbo.Call.dequeue seen (.ret (l, Dcbo.EMPTY)) ∧
        ∀ u ∈ seen, ¬ Covered 1 u := by
  obtain ⟨P, hr, hs, hi, hcall, x, hx⟩ := @reach_stuck LCRQ_RING_SIZE (by decide)
  have htotal : Total (.keeping (Stuck LCRQ_RING_SIZE)) (fun y s' => Dcbo.EMPTY = y.2)
      (Dcbo.dequeueFrom (partialLcrq LCRQ_RING_SIZE) single ⟨1, P.world.calls.length⟩ 0 >>= fun v =>
        .ret ((none : Option ℕ), v)) P.world.shared := by
    refine Total.bind_of ((dry (by decide)).dequeueFrom rfl (Nat.mod_one 0)
      (fun k _ => Nat.mod_one _) hs) ?_
    rintro _ s' ⟨rfl, -⟩
    exact .ret rfl
  obtain ⟨P', seen, ⟨l, r⟩, hr', ht', hres, -, hseen⟩ := htotal.call (I := Stuck LCRQ_RING_SIZE)
    (fun _ _ => True.intro) (fun _ _ h => h) hr hi (c := .dequeue) nofun 0
    (Dcbo.code_dequeue _ _ _ _) hs
  obtain rfl : Dcbo.EMPTY = r := hres
  refine ⟨P', hr', _, l, seen, ht', fun u hu hcov => ?_⟩
  obtain ⟨hu, hsu⟩ := hseen u hu
  have hcalls : u.calls[0]? = some (Dcbo.Call.enqueue 1) := by
    rw [hu]
    show (P.world.calls ++ [Dcbo.Call.dequeue])[0]? = _
    rw [List.getElem?_append_left, hcall]
    exact (List.getElem?_eq_some_iff.1 hcall).1
  have hret : u.returned 0 = some x := by
    rw [hu]
    exact hx
  obtain ⟨q, hq, n, hn, i, -, htaken⟩ := hcov 0 1 x hcalls hret
  obtain rfl : q = 0 := Nat.lt_one_iff.1 hq
  rw [hsu.line] at hn
  obtain rfl := List.mem_singleton.1 hn
  rcases htaken with htaken | ⟨d, hd, -⟩
  · exact htaken (hsu.taken i)
  · rw [hsu.claims i] at hd
    cases hd

end DcboLcrq
