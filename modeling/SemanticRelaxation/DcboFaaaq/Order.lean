import SemanticRelaxation.DcboFaaaq.Specs

/-!
# The FAAArrayQueue partial queue is a FIFO queue

For any interleaving of `faaaq_enqueue` and `faaaq_dequeue`: nothing is lost or returned twice, and
slots are claimed by dequeues in the order in which the enqueues that filled them were made.

* `Conserved`: what becomes of the items of the enqueues that have returned;
* `Ordered`: the order of the claims.
-/

namespace DcboFaaaq

open AtomicProg Linked Segments

/-- The queue that a call is made on. -/
def Call.queue : Call → ℕ
  | .enqueue q _ => q
  | .dequeue q => q

/-- The calls that are made: on `w` queues, with values that the code has no other use for. -/
def Call.Valid (w : ℕ) (call : Call) : Prop :=
  call.queue < w ∧ ∀ q val, call = .enqueue q val → val ≠ Dcbo.EMPTY ∧ val ≠ TAKEN

variable {w q : ℕ} {u : World partialService}

/-- The dequeue `d` has returned the item that the enqueue `a` has put into queue `q`. -/
def Takes (q : ℕ) (u : World partialService) (d a : ℕ) : Prop :=
  ∃ y val k, (y, d) ∈ u.shared.claims q ∧ u.shared.stored y = some (a, val) ∧
    u.calls[d]? = some (.dequeue q) ∧ u.returned d = some (val, k)

/-- A segment that is reached from the head of queue `q`. -/
def FromHead (q : ℕ) (s : Memory) (n : ℕ) : Prop :=
  ∃ p, s.chain.headPos q ≤ p ∧ (s.line q)[p]? = some n

/-- Where the item `val` of an enqueue is that is in the slot `y`: still there, in a slot that a
running dequeue has claimed, or returned. -/
inductive Whereabouts (q : ℕ) (u : World partialService) (a : ℕ) (val : ℤ) (y : Slot) : Prop
  | inSlot (h : ∀ d, (y, d) ∉ u.shared.claims q) (hitem : u.shared.item y = val)
      (hr : FromHead q u.shared y.seg)
  | claimed (d : ℕ) (hd : (y, d) ∈ u.shared.claims q) (hl : u.Live d)
  | returned (d : ℕ) (hd : Takes q u d a)

/-- Dequeues return items of enqueues, each item at most once, and the item of an enqueue that has
returned is not lost. -/
structure Conserved (q : ℕ) (u : World partialService) : Prop where
  source : ∀ d r k, u.calls[d]? = some (.dequeue q) → u.returned d = some (r, k) → r ≠ Dcbo.EMPTY →
    ∃ a, u.calls[a]? = some (.enqueue q r) ∧ Takes q u d a
  one : ∀ d a a', Takes q u d a → Takes q u d a' → a = a'
  once : ∀ a d d', Takes q u d a → Takes q u d' a → d = d'
  kept : ∀ a val x, u.calls[a]? = some (.enqueue q val) → u.returned a = some x →
    ∃ y, u.shared.stored y = some (a, val) ∧ Whereabouts q u a val y

/-- If the enqueue `a` has returned before `b` was called, no dequeue claims the slot of `b` before
one has claimed the slot of `a`. -/
def Ordered (q : ℕ) (u : World partialService) : Prop :=
  ∀ a b val val' y z, u.calls[a]? = some (.enqueue q val) → u.calls[b]? = some (.enqueue q val') →
    u.Before a b → u.shared.stored y = some (a, val) → u.shared.stored z = some (b, val') →
    ∀ i d : ℕ, (u.shared.claims q)[i]? = some (z, d) →
      ∃ j < i, ∃ d', (u.shared.claims q)[j]? = some (y, d')

/-! ### What remains true of an answer -/

/-- The call `op` has put `val` into queue `q`, into a slot with a number below the floors of the
calls from `k` on. -/
def PlacedBefore (op q : ℕ) (val : ℤ) (k : ℕ) (x : Memory × Ghost) : Prop :=
  ∃ y, ∃ p : ℕ, x.1.stored y = some (op, val) ∧ (x.1.line q)[p]? = some y.seg ∧
    p ≤ x.1.chain.tailPos q ∧ ∀ b, k ≤ b → ∀ F, x.2.2 q b = some F → bufferSize * p + y.idx < F

/-- The slot of an item has a number below the next slot. -/
theorem number_lt {s : Memory} {f : ℕ → ℕ → Option ℕ} (hi : Inv w s f) (hq : q < w) {y : Slot}
    {p op : ℕ} {val : ℤ} (hy : s.stored y = some (op, val)) (hp : (s.line q)[p]? = some y.seg)
    (hle : p ≤ s.chain.tailPos q) : bufferSize * p + y.idx < s.enqPos q := by
  have hidx := (hi.stored y op val hy).1
  exact hi.lt_enqPos hq hp hle hidx ((hi.slots q hq p y.seg hp y.idx hidx).stored op val hy).1

theorem PlacedBefore.kept {o : Owner} {op k : ℕ} {val : ℤ} {x x' : Memory × Ghost} (hq : q < w)
    (hi : Inv w x.1 x.2.2) (hk : Kept w o x x') (h : PlacedBefore op q val k x) :
    PlacedBefore op q val k x' := by
  obtain ⟨y, p, hy, hp, hle, hF⟩ := h
  refine ⟨y, p, hk.stored y _ hy, hk.nodes.grows.getElem? hp, hle.trans (hk.nodes.grows.tail q hq),
    fun b hb F hF' => ?_⟩
  rcases hk.newFloor q hq b F hF' with hold | hnew
  · exact hF b hb F hold
  · exact (number_lt hi hq hy hp hle).trans_le hnew

/-- What remains true of the answer `r` of a call on the partial queues. -/
def Answer (w op : ℕ) (call : Call) (r : ℤ) (k : ℕ) (x : Memory × Ghost) : Prop :=
  call.queue < w ∧ match call with
  | .enqueue q val => PlacedBefore op q val k x ∧ Unclaimed w op x
  | .dequeue q => r ≠ Dcbo.EMPTY ∧ Got w op q r x ∨ r = Dcbo.EMPTY ∧ Wasted w op x

/-- What a call on the partial queues puts into a queue. -/
def Call.puts (call : Call) (q : ℕ) (val : ℤ) : Prop := call = .enqueue q val

/-- The answers of the partial queues. -/
def results (w : ℕ) : Results partialService (regime Call w Call.puts) where
  holds := Answer w
  later op call r k _ _ x x' hi _ hk h := by
    obtain ⟨hq, h⟩ := h
    refine ⟨hq, ?_⟩
    cases call with
    | enqueue q val =>
      exact ⟨h.1.kept hq hi.1 hk, fun q hq y hy => h.2 q hq y (hk.ownClaims op rfl q y hy)⟩
    | dequeue q =>
      exact h.imp (fun h => ⟨h.1, h.2.kept hq hi.1 hk⟩) fun h => ⟨h.1, h.2.kept hi.1 hk⟩

theorem initial_line {p n : ℕ} (h : ((initial w).line q)[p]? = some n) : p = 0 ∧ n = q := by
  have h : [q][p]? = some n := h
  rw [List.getElem?_singleton] at h
  split at h
  next hp =>
    cases h
    exact ⟨hp, rfl⟩
  next => cases h

theorem inv_initial (w : ℕ) : Inv w (initial w) fun _ _ => none where
  valid := .init
  nodeIdx q _ p n h := (initial_line h).1.symm
  full q _ p n h hp := by
    have hp : p + 1 < 1 := hp
    omega
  claimed q _ p n h := by
    show min 0 bufferSize = min (0 - bufferSize * p) bufferSize
    rw [Nat.zero_sub]
  head q _ := by
    have hpos : (initial w).chain.headPos q = 0 := by simp [initial, Chain.init, Chain.headPos,
      Chain.pos, Cells.init]
    rw [hpos]
    exact ⟨Nat.zero_le _, Nat.zero_le _⟩
  claims _ _ _ _ _ h := by cases h
  slots q _ p n _ i _ := ⟨nofun, fun _ => .inl rfl, fun h => absurd h.symm taken_ne_empty⟩
  stored := nofun
  once := nofun
  floor := nofun

theorem partial_obligations (w : ℕ) : Obligations (results w) (Call.Valid w) (fun _ _ _ => True)
    (fun c call x v => call.queue < w ∧ match call with
      | .enqueue q val => Enqueued w q val v
      | .dequeue q => x.2 ≠ Dcbo.EMPTY ∧ Got w c.op q x.2 v.pair ∨
          x.2 = Dcbo.EMPTY ∧ Wasted w c.op v.pair)
    (initial w) (fun _ => .op 0, fun _ _ => none) () where
  init := ⟨inv_initial w, nofun⟩
  init_fresh _ := ⟨nofun, fun _ _ _ => List.not_mem_nil, fun _ => rfl⟩
  init_loc _ := True.intro
  loc_later _ _ _ _ _ _ _ _ _ h := h
  post_stable c call x v v' hle h := by
    obtain ⟨hq, h⟩ := h
    refine ⟨hq, ?_⟩
    have hs := Since.of_le hle
    cases call with
    | enqueue q val => exact h.since hq hs
    | dequeue q =>
      exact h.imp (fun h => ⟨h.1, h.2.kept hq (inv_of v) hs.frame⟩)
        fun h => ⟨h.1, h.2.kept (inv_of v) hs.frame⟩
  code t op call l v _ hcall hok _ hf := by
    cases call with
    | enqueue q val =>
      obtain ⟨hne, hne'⟩ := hok.2 q val rfl
      have he : Enqueues Call.puts w q val v :=
        ⟨hok.1, hne, hne', ⟨_, hcall, rfl⟩, hf.1, hf.2.1⟩
      exact wp.bind_of (faaaqEnqueue_spec he) fun _ _ h => ⟨hok.1, h⟩
    | dequeue q =>
      have hw : Wasted w op v.pair := ⟨hf.1, fun j hj z hz _ => absurd hz (hf.2.1 j hj z)⟩
      exact wp.bind_of (faaaqDequeue_spec hok.1 hw) fun r v' h =>
        ⟨hok.1, h.2.imp_right fun h => ⟨h.1, h.2.1⟩⟩
  finish c call l r v h := by
    refine ⟨fun k hk => ⟨h.1, ?_⟩, True.intro⟩
    obtain ⟨hq, h⟩ := h
    cases call with
    | enqueue q val =>
      obtain ⟨⟨y, p, hy, hp, hle⟩, hu⟩ := h
      refine ⟨⟨y, p, hy, hp, hle, fun b hb F hF => ?_⟩, hu⟩
      exact absurd (hF.symm.trans ((hk b hb).2.2 q)) (Option.some_ne_none F)
    | dequeue q => exact h

/-! ### The theorem -/

/-- What is known of a reachable world. -/
structure Known (w : ℕ) (u : World partialService) (g : Ghost) : Prop where
  inv : Inv w u.shared g.2
  made : ∀ q < w, ∀ y op val, u.shared.stored y = some (op, val) → y.seg ∈ u.shared.line q →
    u.calls[op]? = some (.enqueue q val)
  answer : ∀ o r k, u.returned o = some (r, k) →
    ∃ call, u.calls[o]? = some call ∧ Answer w o call r k (u.shared, g)
  live : ∀ q < w, ∀ y d, (y, d) ∈ u.shared.claims q → d < u.calls.length

namespace Known

variable {g : Ghost} (h : Known w u g)
include h

/-- The segment of a claimed slot is one of the queue. -/
theorem mem_line (hq : q < w) {y : Slot} {d : ℕ} (hy : (y, d) ∈ u.shared.claims q) :
    y.seg ∈ u.shared.line q := by
  obtain ⟨k, hk⟩ := List.mem_iff_getElem?.1 hy
  exact List.mem_of_getElem? (h.inv.claims q hq k y d hk).2

theorem line_eq {q' : ℕ} (hq : q < w) (hq' : q' < w) {n : ℕ} (hn : n ∈ u.shared.line q)
    (hn' : n ∈ u.shared.line q') : q = q' := by
  obtain ⟨i, hi⟩ := List.mem_iff_getElem?.1 hn
  obtain ⟨j, hj⟩ := List.mem_iff_getElem?.1 hn'
  exact (h.inv.valid.lines.inj q hq q' hq' i j n hi hj).1

/-- A call that has returned and has claimed a slot with an item has taken this item. -/
theorem takes (hq : q < w) {y : Slot} {d a k : ℕ} {val r : ℤ} (hy : (y, d) ∈ u.shared.claims q)
    (hs : u.shared.stored y = some (a, val)) (hr : u.returned d = some (r, k)) :
    u.calls[d]? = some (.dequeue q) ∧ r = val ∧
      ∀ z, (z, d) ∈ u.shared.claims q → z ≠ y → u.shared.stored z = none := by
  obtain ⟨call, hc, hq', ha⟩ := h.answer d r k hr
  cases call with
  | enqueue q' val' => exact absurd hy (ha.2 q hq y)
  | dequeue q' =>
    have hq' : q' < w := hq'
    rcases ha with ⟨-, y', e, hy', hs', -, hrest⟩ | ⟨-, hw⟩
    · have hyy : y' = y := by
        by_contra hne
        have := (hrest.2 q hq y hy fun e => hne (Option.some.inj e).symm).2
        exact Option.some_ne_none _ (hs.symm.trans this)
      subst hyy
      obtain rfl := h.line_eq hq hq' (h.mem_line hq hy) (h.mem_line hq' hy')
      have hs' : u.shared.stored y' = some (e, r) := hs'
      rw [hs] at hs'
      cases hs'
      exact ⟨hc, rfl, fun z hz hzy => (hrest.2 q hq z hz fun e => hzy (Option.some.inj e)).2⟩
    · exact absurd (hs.symm.trans (hw.2 q hq y hy nofun).2) (Option.some_ne_none _)

theorem conserved (hq : q < w) : Conserved q u where
  source d r k hc hr hne := by
    obtain ⟨call, hc', hq', ha⟩ := h.answer d r k hr
    obtain rfl : Call.dequeue q = call := Option.some.inj (hc.symm.trans hc')
    obtain ⟨-, y, e, hy, hs, -, -⟩ := ha.resolve_right fun h => hne h.1
    exact ⟨e, h.made q hq y e r hs (h.mem_line hq hy), y, r, k, hy, hs, hc, hr⟩
  one d a a' := by
    rintro ⟨y, val, k, hy, hs, -, hr⟩ ⟨y', val', k', hy', hs', -, -⟩
    have hyy : y' = y := by
      by_contra hne
      exact absurd (hs'.symm.trans ((h.takes hq hy hs hr).2.2 y' hy' hne)) (Option.some_ne_none _)
    rw [hyy, hs] at hs'
    exact (Prod.mk.inj (Option.some.inj hs')).1
  once a d d' := by
    rintro ⟨y, val, k, hy, hs, -, -⟩ ⟨y', val', k', hy', hs', -, -⟩
    obtain rfl := h.inv.once y y' a val val' hs hs'
    obtain ⟨i, hi⟩ := List.mem_iff_getElem?.1 hy
    obtain ⟨j, hj⟩ := List.mem_iff_getElem?.1 hy'
    have hn := (h.inv.claims q hq i y d hi).2
    have hij := (h.inv.number_of_claim hq hi hn).2.symm.trans (h.inv.number_of_claim hq hj hn).2
    rw [hij, hj] at hi
    exact (Prod.mk.inj (Option.some.inj hi)).2.symm
  kept a val x hc hr := by
    obtain ⟨r, k⟩ := x
    obtain ⟨call, hc', hq', ha⟩ := h.answer a r k hr
    obtain rfl : Call.enqueue q val = call := Option.some.inj (hc.symm.trans hc')
    obtain ⟨⟨y, p, hy, hp, -⟩, -⟩ := ha
    have hidx := (h.inv.stored y a val hy).1
    have hslot := h.inv.slots q hq p y.seg hp y.idx hidx
    refine ⟨y, hy, ?_⟩
    rcases Nat.lt_or_ge (bufferSize * p + y.idx) (u.shared.claims q).length with hlt | hge
    · obtain ⟨d, hd⟩ := h.inv.claim_of_lt hq hp hidx hlt
      have hd := List.mem_of_getElem? hd
      cases hret : u.returned d with
      | none => exact .claimed d hd ⟨h.live q hq y d hd, hret⟩
      | some x =>
        obtain ⟨r', k'⟩ := x
        obtain ⟨hcall, rfl, -⟩ := h.takes hq hd hy hret
        exact .returned d ⟨y, r', k', hd, hy, hcall, hret⟩
    · refine .inSlot (fun d hd => ?_) ?_ ⟨p, ?_, hp⟩
      · obtain ⟨i, hi⟩ := List.mem_iff_getElem?.1 hd
        have hnum := (h.inv.number_of_claim hq hi hp).2
        have := (List.getElem?_eq_some_iff.1 hi).1
        omega
      · exact (hslot.stored a val hy).2.2.2.1.resolve_right fun ht => not_lt.2 hge (hslot.taken ht)
      · by_contra hlt
        have h₁ := (h.inv.head q hq).1
        have h₂ := Nat.mul_le_mul_left bufferSize (not_le.1 hlt)
        rw [Nat.mul_succ] at h₂
        omega

theorem ordered (hq : q < w) : Ordered q u := by
  rintro a b val val' y z ha hb ⟨r, k, hr, hkb⟩ hy hz i d hi
  obtain ⟨call, hc, -, hans⟩ := h.answer a r k hr
  obtain rfl : Call.enqueue q val = call := Option.some.inj (ha.symm.trans hc)
  obtain ⟨⟨y', p, hy', hp, -, hfloor⟩, -⟩ := hans
  obtain rfl := h.inv.once y y' a val val hy hy'
  have hidx := (h.inv.stored y a val hy).1
  obtain ⟨-, hn⟩ := h.inv.claims q hq i z d hi
  obtain ⟨hidx', hnum⟩ := h.inv.number_of_claim hq hi hn
  -- the slot of `b` has a number above its floor, which was set when the item of `a` was there
  obtain ⟨-, -, -, -, F, hF, hle⟩ := (h.inv.slots q hq _ z.seg hn z.idx hidx').stored b val' hz
  have hlt := hfloor b hkb F hF
  have hi' := (List.getElem?_eq_some_iff.1 hi).1
  obtain ⟨d', hd'⟩ := h.inv.claim_of_lt hq hp hidx (by omega)
  exact ⟨_, by omega, d', hd'⟩

end Known

theorem Known.of_reach {w : ℕ} {p : Pool partialService}
    (hr : Reach (fun (call : Call) _ => call.Valid w) (fun _ _ => True) (initial w) () p) :
    ∃ g, Known w p.world g := by
  obtain ⟨g, hi, hres, hfresh⟩ := (partial_obligations w).implements.inv hr
  refine ⟨g, hi.1, fun q hq y op val hy hm => ?_, hres, fun q hq y d hd => ?_⟩
  · obtain ⟨call, hc, rfl⟩ := hi.2 q hq y op val hy hm
    exact hc
  · by_contra hge
    exact (hfresh d (not_lt.1 hge)).2.1 q hq y hd

/-- No item is lost or returned twice, and slots are claimed in the order of the enqueues. -/
theorem faaaq_fifo {w : ℕ} {p : Pool partialService}
    (hr : Reach (fun (call : Call) _ => call.Valid w) (fun _ _ => True) (initial w) () p) :
    ∀ q < w, Conserved q p.world ∧ Ordered q p.world := by
  obtain ⟨g, hk⟩ := Known.of_reach hr
  exact fun q hq => ⟨hk.conserved hq, hk.ordered hq⟩

/-- Two values go in, and the first comes out. -/
theorem faaaq_fifo_one : ∃ p : Pool partialService,
    (p.world.shared.stored ⟨0, 1⟩ = some (1, 8) ∧ (p.world.returned 2).map Prod.fst = some 7) ∧
      Conserved 0 p.world ∧ Ordered 0 p.world := by
  have h : (((Pool.init partialService (initial 1) ()).exec
      (.invoke 0 (.enqueue 0 7) :: List.replicate 5 (.step 0 0) ++
        .invoke 0 (.enqueue 0 8) :: List.replicate 5 (.step 0 0) ++
        .invoke 1 (.dequeue 0) :: List.replicate 8 (.step 1 0))).any fun p =>
      decide (p.world.shared.stored ⟨0, 1⟩ = some (1, 8) ∧
        (p.world.returned 2).map Prod.fst = some 7)) = true := by
    decide +kernel
  obtain ⟨p, hp, hc⟩ := Pool.exec_of_check h
  refine ⟨p, of_decide_eq_true hc, faaaq_fifo (w := 1) (Pool.exec_reach hp ?_ .init) 0 Nat.one_pos⟩
  intro t c hm _
  have hc : c = .enqueue 0 7 ∨ c = .enqueue 0 8 ∨ c = .dequeue 0 := by
    simp only [List.cons_append, List.mem_cons, List.mem_append, List.mem_replicate] at hm
    grind
  rcases hc with rfl | rfl | rfl
  · refine ⟨Nat.one_pos, fun q val e => ?_⟩
    cases e
    decide
  · refine ⟨Nat.one_pos, fun q val e => ?_⟩
    cases e
    decide
  · exact ⟨Nat.one_pos, nofun⟩

end DcboFaaaq
