import SemanticRelaxation.DcboFaaaq.Emptiness
import SemanticRelaxation.Prog.Ghost
import SemanticRelaxation.Prog.History
import Mathlib.Data.Finset.Card
import Mathlib.Order.Interval.Finset.Nat

/-!
# The size of a FAAArrayQueue (`faaaq_queue_size`)

The size is the count of the enqueues less the count of the dequeues, and 0 if this is negative.
Both counts move without an item, so that the size is one of the queue only when no call is running.

Ghost state: the ticket of a slot is the enqueue that has got it by fetch-and-add. When the enqueue
returns, all slots with its ticket are used, by its own item or by a mark. This needs less than the
invariant of the queue: only that enqueues work on segments that have been allocated.

* `TicketInv`: the invariant of the tickets, `tickets_obligations`: what the calls leave behind;
* `Quiet`: all calls have returned; then all slots in front of the next one are used
  (`Quiet.stored_of_lt`);
* `faaaq_size_exact`: the size is the number of enqueues less that of the dequeues that have
  returned an item.
-/

namespace DcboFaaaq

open AtomicProg Linked Segments

/-- `faaaq_queue_size`. -/
def faaaqQueueSize (q : ℕ) : Prog Memory ℕ := do
  let enqCount ← faaaqEnqCount q
  let deqCount ← faaaqDeqCount q
  if enqCount < deqCount then return 0
  else return enqCount - deqCount

/-- The enqueue that has got a slot by fetch-and-add. -/
abbrev Tickets : Type := Slot → Option ℕ

/-- A slot that has been handed out has a ticket, or is used. -/
structure TicketInv (w : ℕ) (s : Memory) (g : Tickets) : Prop where
  tail : ∀ q < w, s.chain.tail q < s.chain.cells.fresh
  next : ∀ n m, (s.chain.cells.heap n).next = some m → m < s.chain.cells.fresh
  ticket : ∀ x op, g x = some op → x.seg < s.chain.cells.fresh ∧ x.idx < (s.seg x.seg).enqIdx
  used : ∀ x : Slot, x.seg < s.chain.cells.fresh → x.idx < bufferSize → x.idx <
    (s.seg x.seg).enqIdx →
    g x = none → s.item x ≠ Dcbo.EMPTY

/-- Slots that are used stay used, and nobody else takes a ticket of the owner. -/
structure TicketsKept (o : Owner) (x x' : Memory × Tickets) : Prop where
  fresh : x.1.chain.cells.fresh ≤ x'.1.chain.cells.fresh
  item : ∀ y : Slot, y.seg < x.1.chain.cells.fresh → x.1.item y ≠ Dcbo.EMPTY →
    x'.1.item y ≠ Dcbo.EMPTY
  own : ∀ n, o = .op n → ∀ y, x'.2 y = some n → x.2 y = some n

variable {w q n : ℕ} {s s' : Memory} {g : Tickets}

namespace TicketsKept

theorem refl (o : Owner) (x : Memory × Tickets) : TicketsKept o x x :=
  ⟨le_rfl, fun _ _ h => h, fun _ _ _ h => h⟩

theorem trans {o : Owner} {x x' x'' : Memory × Tickets} (h : TicketsKept o x x')
    (h' : TicketsKept o x' x'') :
    TicketsKept o x x'' where
  fresh := h.fresh.trans h'.fresh
  item y hy hne := h'.item y (hy.trans_le h.fresh) (h.item y hy hne)
  own n ho y hy := h.own n ho y (h'.own n ho y hy)

end TicketsKept

/-- All slots with a ticket of the call `op` are used, but for `y`. -/
def UsedBut (op : ℕ) (y : Option Slot) (x : Memory × Tickets) : Prop :=
  ∀ z, x.2 z = some op → some z ≠ y → x.1.item z ≠ Dcbo.EMPTY

/-- All slots with a ticket of the call `op` are used. -/
abbrev AllUsed (op : ℕ) (x : Memory × Tickets) : Prop := UsedBut op none x

theorem UsedBut.later {op : ℕ} {y : Option Slot} {x x' : Memory × Tickets}
    (hi : TicketInv w x.1 x.2) (hk : TicketsKept (.op op) x x') (h : UsedBut op y x) :
    UsedBut op y x' := fun z hz hne => by
  have hold := hk.own op rfl z hz
  exact hk.item z (hi.ticket z op hold).1 (h z hold hne)

/-- What the tickets rely on and keep. -/
def ticketRegime (w : ℕ) : Regime Call Memory Tickets where
  inv _ x := TicketInv w x.1 x.2
  frame := TicketsKept
  fresh n x := ∀ y, x.2 y ≠ some n
  assume _ _ := True
  refl := TicketsKept.refl
  trans _ _ _ _ := TicketsKept.trans
  inv_call _ _ _ h := h
  fresh_later n _ _ h hn y hy := hn y (h.own n rfl y hy)

/-- A call that has returned has used its slots. -/
def ticketResults (w : ℕ) : Results partialService (ticketRegime w) where
  holds op _ _ _ x := AllUsed op x
  later _ _ _ _ _ _ _ _ hi _ hk h := h.later hi hk

/-! ### The steps -/

/-- A step that hands out no slot and allocates nothing. -/
structure Handled (w : ℕ) (s s' : Memory) : Prop where
  fresh : s'.chain.cells.fresh = s.chain.cells.fresh
  enqIdx : ∀ n, (s'.seg n).enqIdx = (s.seg n).enqIdx
  item : ∀ y, s.item y ≠ Dcbo.EMPTY → s'.item y ≠ Dcbo.EMPTY
  tail : ∀ q < w, s'.chain.tail q < s.chain.cells.fresh
  next : ∀ n m, (s'.chain.cells.heap n).next = some m → m < s.chain.cells.fresh

theorem Handled.inv (h : Handled w s s') (hi : TicketInv w s g) : TicketInv w s' g where
  tail q hq := by
    rw [h.fresh]
    exact h.tail q hq
  next n m hm := by
    rw [h.fresh]
    exact h.next n m hm
  ticket x op hx := by
    rw [h.fresh, h.enqIdx]
    exact hi.ticket x op hx
  used x hlt hidx henq hnone := by
    rw [h.fresh] at hlt
    rw [h.enqIdx] at henq
    exact h.item x (hi.used x hlt hidx henq hnone)

theorem Handled.kept (h : Handled w s s') (o : Owner) (g : Tickets) :
    TicketsKept o (s, g) (s', g) :=
  ⟨h.fresh.ge, fun y _ => h.item y, fun _ _ _ hy => hy⟩

variable {c : Caller} {v v₁ : View (ticketResults w).protocol c}

theorem ticketInv_of (v : View (ticketResults w).protocol c) : TicketInv w v.state v.now.2 :=
  v.inv_pair

/-- Such a step is allowed to everybody. -/
theorem handled_allows (h : Handled w v.state s') :
    (ticketResults w).protocol.Allows c v.now (v.after s' v.now.2) ∧ ∀ o, TicketsKept o v.pair
    (s', v.now.2) :=
  ⟨Regime.allows v (h.inv (ticketInv_of v)) fun o _ => h.kept o v.now.2, fun o => h.kept o v.now.2⟩

/-- The tail pointer moves to an allocated segment. -/
theorem Handled.setTail (hi : TicketInv w s g) (q : ℕ) (hn : n < s.chain.cells.fresh) :
    Handled w s (s.onChain (·.setTail q n)) where
  fresh := rfl
  enqIdx _ := rfl
  item _ h := h
  tail j hj := by
    show Function.update s.chain.tail q n j < _
    by_cases hjq : j = q
    · subst hjq
      rwa [Function.update_self]
    · rw [Function.update_of_ne hjq]
      exact hi.tail j hj
  next := hi.next

/-- An item is put into a slot. -/
theorem Handled.put (hi : TicketInv w s g) (op : ℕ) (x : Slot) {val : ℤ} (hval : val ≠ Dcbo.EMPTY) :
    Handled w s (s.put op x val) where
  fresh := rfl
  enqIdx k := by
    refine (congrArg Segment.enqIdx (s.seg_setItem x val k)).trans ?_
    split <;> rfl
  item y hy := by
    show (s.setItem x val).item y ≠ _
    rw [s.item_setItem]
    split
    next => exact hval
    next => exact hy
  tail := hi.tail
  next k m hm := hi.next k m ((s.chain.modify_next x.seg _ k).symm.trans hm)

/-- A segment with the item of the call is linked. -/
theorem Handled.link (hi : TicketInv w s g) (op q t : ℕ) (val : ℤ) (hn : n < s.chain.cells.fresh) :
    Handled w s (s.link op q t n val) where
  fresh := s.chain.cells.append_fresh q (some t) n
  enqIdx k := congrArg Segment.enqIdx (s.chain.link_seg q t n k)
  item y hy := by
    have he : (s.link op q t n val).item y = s.item y :=
      congrArg (fun a : Segment => a.items y.idx) (s.chain.link_seg q t n y.seg)
    rwa [he]
  tail := hi.tail
  next k m hm := by
    by_cases hk : k = t
    · subst hk
      obtain rfl : n = m := Option.some.inj ((s.chain.cells.append_next_self q k n).symm.trans hm)
      exact hn
    · have he : ((s.link op q t n val).chain.cells.heap k).next = (s.chain.cells.heap k).next := by
        show (Function.update s.chain.cells.heap t _ k).next = _
        rw [Function.update_of_ne hk]
      exact hi.next k m (he.symm.trans hm)

/-- A step of a dequeue. -/
structure OfDequeue (s s' : Memory) : Prop where
  fresh : s'.chain.cells.fresh = s.chain.cells.fresh
  enqIdx : ∀ n, (s'.seg n).enqIdx = (s.seg n).enqIdx
  item : ∀ y, s.item y ≠ Dcbo.EMPTY → s'.item y ≠ Dcbo.EMPTY
  tail : s'.chain.tail = s.chain.tail
  next : ∀ n, (s'.chain.cells.heap n).next = (s.chain.cells.heap n).next

namespace OfDequeue

theorem refl (s : Memory) : OfDequeue s s := ⟨rfl, fun _ => rfl, fun _ h => h, rfl, fun _ => rfl⟩

theorem handled (h : OfDequeue s s') (hi : TicketInv w s g) : Handled w s s' where
  fresh := h.fresh
  enqIdx := h.enqIdx
  item := h.item
  tail q hq := by
    rw [h.tail]
    exact hi.tail q hq
  next n m hm := by
    rw [h.next] at hm
    exact hi.next n m hm

theorem claim (op q n : ℕ) : OfDequeue s (s.claim op q n) where
  fresh := rfl
  enqIdx k := by
    refine (congrArg Segment.enqIdx
      (s.seg_modify n (fun y => { y with deqIdx := y.deqIdx + 1 }) k)).trans ?_
    split
    next e => rw [e]
    next => rfl
  item y hy := by
    have he : (s.claim op q n).item y = s.item y := modify_items (f := nextDeq) (fun _ => rfl) y
    rwa [he]
  tail := rfl
  next k := s.chain.modify_next n _ k

theorem setItem (x : Slot) : OfDequeue s (s.setItem x TAKEN) where
  fresh := rfl
  enqIdx k := by
    refine (congrArg Segment.enqIdx (s.seg_setItem x TAKEN k)).trans ?_
    split <;> rfl
  item y hy := by
    rw [s.item_setItem]
    split
    next => exact taken_ne_empty
    next => exact hy
  tail := rfl
  next k := s.chain.modify_next x.seg _ k

theorem faaaqDequeueRound (c : Caller) (q : ℕ) : (faaaqDequeueRound c q).Steps OfDequeue := by
  have hread {β : Type} (f : Memory → β) : (Prog.read f).Steps OfDequeue := .read refl f
  refine .bind (hread _) fun head => .bind ?_ fun none => ?_
  · refine .bind (.bind (.choose refl) fun deqFirst => ?_) fun x => ?_
    · split
      next => exact .bind (hread _) fun _ => .bind (hread _) fun _ => True.intro
      next => exact .bind (hread _) fun _ => .bind (hread _) fun _ => True.intro
    · obtain ⟨deqIdx, enqIdx⟩ := x
      dsimp only
      split
      next => exact .bind (hread _) fun _ => True.intro
      next => exact True.intro
  · split
    next => exact True.intro
    next =>
      refine .bind (.update fun s => claim c.op q head) fun idx => ?_
      split
      next =>
        refine .bind (hread _) fun next => ?_
        cases next with
        | none => exact True.intro
        | some next =>
          refine .bind (.bind (.cae refl fun s _ => ?_) fun _ => True.intro) fun _ => True.intro
          exact ⟨rfl, fun _ => rfl, fun _ h => h, rfl, fun _ => rfl⟩
      next => exact .bind (.update fun s => setItem ⟨head, idx⟩) fun _ => True.intro

end OfDequeue

/-- A dequeue uses its slots as before. -/
theorem faaaqDequeue_tickets (h : AllUsed c.op v.pair) :
    wp (ticketResults w).protocol c (faaaqDequeue c q) (fun _ v' => AllUsed c.op v'.pair) v := by
  have hsteps : (faaaqDequeue c q).Steps OfDequeue :=
    .forever (fun _ => OfDequeue.faaaqDequeueRound c q) ()
  have hspec : wp (ticketResults w).protocol c (faaaqDequeue c q) (fun _ v' => Since v v') v :=
    wp.of_steps hsteps (fun _ x s hs (hi : TicketInv w x.1 x.2) => (hs.handled hi).inv hi)
      fun o x s hs => (⟨hs.fresh.ge, fun y _ => hs.item y, fun _ _ _ hy => hy⟩ : TicketsKept o x
        (s, x.2))
  exact hspec.mono fun _ _ hs => h.later (ticketInv_of v) hs.frame

/-! ### The enqueue -/

/-- A segment that is allocated stays allocated. -/
theorem fresh_since (h : Since v v₁) (hn : n < v.state.chain.cells.fresh) :
    n < v₁.state.chain.cells.fresh := by
  have hk : TicketsKept (.op c.op) v.pair v₁.pair := h.frame
  exact hn.trans_le hk.fresh

theorem usedBut_since {y : Option Slot} (h : Since v v₁) (hu : UsedBut c.op y v.pair) :
    UsedBut c.op y v₁.pair :=
  hu.later (ticketInv_of v) h.frame

/-- The tail pointer is moved to an allocated segment, if at all. -/
theorem tailCae_tickets (t : ℕ) (hn : n < v.state.chain.cells.fresh) :
    wp (ticketResults w).protocol c (tailCae q t n) (fun _ v' => Since v v') v := by
  unfold tailCae
  refine wp.cae (fun v₁ h₁ _ _ => ?_) fun v₁ h₁ _ => .of_le h₁
  have hn₁ := fresh_since (.of_le h₁) hn
  obtain ⟨hall, hk⟩ := handled_allows (.setTail (ticketInv_of v₁) q hn₁)
  exact ⟨v₁.now.2, hall, (Since.of_le h₁).trans (.step hk)⟩

/-- A new segment has one slot that is handed out, with the item. -/
theorem create_tickets {val : ℤ} (hval : val ≠ Dcbo.EMPTY) (nodeIdx : ℕ) (hi : TicketInv w s g) :
    TicketInv w (s.onChain (·.create (newSegment val nodeIdx))) g ∧
      ∀ o, TicketsKept o (s, g) (s.onChain (·.create (newSegment val nodeIdx)), g) := by
  have hseg : ∀ k ≠ s.chain.cells.fresh,
      (s.onChain (·.create (newSegment val nodeIdx))).seg k = s.seg k := fun k hk =>
    s.chain.create_seg_of_ne hk _
  have hself : (s.onChain (·.create (newSegment val nodeIdx))).seg s.chain.cells.fresh =
    newSegment val nodeIdx :=
    s.chain.create_seg_self _
  have hitem : ∀ y : Slot, y.seg ≠ s.chain.cells.fresh →
      (s.onChain (·.create (newSegment val nodeIdx))).item y = s.item y := fun y hy =>
    congrArg (fun a : Segment => a.items y.idx) (hseg y.seg hy)
  refine ⟨⟨fun q hq => Nat.lt_succ_of_lt (hi.tail q hq), fun k m hm => ?_, fun x op hx => ?_,
    fun x hlt hidx henq hnone => ?_⟩, fun o => ⟨Nat.le_succ _, fun y hy hne =>
      ?_, fun _ _ _ h => h⟩⟩
  · have hk : k ≠ s.chain.cells.fresh := by
      rintro rfl
      have he : ((s.chain.create (newSegment val nodeIdx)).cells.heap s.chain.cells.fresh).next =
        none := by
        show (Function.update s.chain.cells.heap s.chain.cells.fresh _ s.chain.cells.fresh).next = _
        rw [Function.update_self]
      cases hm.symm.trans he
    have he : ((s.chain.create (newSegment val nodeIdx)).cells.heap k).next =
      (s.chain.cells.heap k).next := by
      show (Function.update s.chain.cells.heap s.chain.cells.fresh _ k).next = _
      rw [Function.update_of_ne hk]
    exact Nat.lt_succ_of_lt (hi.next k m (he.symm.trans hm))
  · obtain ⟨hlt, henq⟩ := hi.ticket x op hx
    rw [hseg x.seg hlt.ne]
    exact ⟨Nat.lt_succ_of_lt hlt, henq⟩
  · rcases (Nat.lt_succ_iff.1 hlt).lt_or_eq with hold | hnew
    · rw [hitem x hold.ne]
      rw [hseg x.seg hold.ne] at henq
      exact hi.used x hold hidx henq hnone
    · rw [hnew, hself] at henq
      have hzero : x.idx = 0 := Nat.lt_one_iff.1 henq
      have he : (s.onChain (·.create (newSegment val nodeIdx))).item x = val := by
        rw [Memory.item, hnew, hself, hzero]
        rfl
      rwa [he]
  · rwa [hitem y hy.ne]

/-- The tickets after the call `op` has got the index of `x`. -/
def Tickets.handOut (g : Tickets) (x : Slot) (op : ℕ) : Tickets :=
  if x.idx < bufferSize then Function.update g x (some op) else g

theorem Tickets.handOut_cases {x y : Slot} {op o : ℕ} (h : g.handOut x op y = some o) :
    g y = some o ∨ y = x ∧ o = op := by
  unfold handOut at h
  split at h
  next =>
    by_cases hy : y = x
    · rw [hy, Function.update_self] at h
      exact .inr ⟨hy, (Option.some.inj h).symm⟩
    · rw [Function.update_of_ne hy] at h
      exact .inl h
  next => exact .inl h

theorem Tickets.handOut_none {x y : Slot} {op : ℕ} (hi : y.idx < bufferSize)
    (h : g.handOut x op y = none) :
    y ≠ x ∧ g y = none := by
  unfold handOut at h
  split at h
  next =>
    by_cases hy : y = x
    · rw [hy, Function.update_self] at h
      cases h
    · rw [Function.update_of_ne hy] at h
      exact ⟨hy, h⟩
  next hx => exact ⟨fun e => hx (e ▸ hi), h⟩

/-- A fetch-and-add on the `enq_idx` of an allocated segment hands out a slot, if there is one left.
-/
theorem fetchAdd_tickets (op : ℕ) (hn : n < s.chain.cells.fresh) (hi : TicketInv w s g) :
    TicketInv w (s.onChain (·.modify n nextEnq)) (g.handOut ⟨n, (s.seg n).enqIdx⟩ op) ∧
      ∀ o, o ≠ .op op → TicketsKept o (s, g)
        (s.onChain (·.modify n nextEnq), g.handOut ⟨n, (s.seg n).enqIdx⟩ op) := by
  have hitem : ∀ y, (s.onChain (·.modify n nextEnq)).item y = s.item y := fun y =>
    modify_items (f := nextEnq) (fun _ => rfl) y
  have henqIdx : ∀ k, ((s.onChain (·.modify n nextEnq)).seg k).enqIdx =
      if k = n then (s.seg n).enqIdx + 1 else (s.seg k).enqIdx := fun k => by
    rw [s.seg_modify]
    split <;> rfl
  refine ⟨⟨hi.tail, fun k m hm => hi.next k m ((s.chain.modify_next n _ k).symm.trans hm),
    fun x o hx => ?_,
    fun x hlt hidx henq hnone => ?_⟩, fun o ho => ⟨le_rfl, fun y _ hne => ?_, fun k hk y hy => ?_⟩⟩
  · rw [henqIdx]
    rcases Tickets.handOut_cases hx with hx | ⟨rfl, -⟩
    · obtain ⟨hlt, henq⟩ := hi.ticket x o hx
      refine ⟨hlt, ?_⟩
      split
      next he => exact (he ▸ henq).trans (Nat.lt_succ_self _)
      next => exact henq
    · rw [if_pos rfl]
      exact ⟨hn, Nat.lt_succ_self _⟩
  · obtain ⟨hx, hnone⟩ := Tickets.handOut_none hidx hnone
    rw [hitem]
    refine hi.used x hlt hidx ?_ hnone
    rw [henqIdx] at henq
    split at henq
    next he =>
      -- the slot is not the one that is handed out
      rw [he]
      exact (Nat.lt_succ_iff.1 henq).lt_of_ne fun e => hx (congrArg₂ Slot.mk he e)
    next => exact henq
  · rwa [hitem]
  · rcases Tickets.handOut_cases hy with hy | ⟨-, rfl⟩
    · exact hy
    · exact absurd hk ho

/-- What an enqueue needs here. -/
structure Issues (w q : ℕ) (val : ℤ) (v : View (ticketResults w).protocol c) : Prop where
  queue : q < w
  ne_empty : val ≠ Dcbo.EMPTY
  used : AllUsed c.op v.pair

variable {val : ℤ} {t : ℕ}

theorem Issues.since (h : Issues w q val v) (hs : Since v v₁) : Issues w q val v₁ :=
  ⟨h.queue, h.ne_empty, usedBut_since hs h.used⟩

/-- What an enqueue has when it goes round or returns. -/
def IssuesOrDone (w q : ℕ) (val : ℤ) (r : Unit ⊕ ℤ) (v : View (ticketResults w).protocol c) :
    Prop :=
  Sum.elim (fun _ => Issues w q val v) (fun _ => AllUsed c.op v.pair) r

theorem appendSegment_tickets (he : Issues w q val v) :
    wp (ticketResults w).protocol c (appendSegment c q t val) (IssuesOrDone w q val) v := by
  refine wp.read fun v₁ h₁ => wp.update fun v₂ h₂ _ => ?_
  have hs₂ := Since.of_le (h₁.trans h₂)
  obtain ⟨hinv, hk⟩ := create_tickets he.ne_empty ((v₁.state.seg t).nodeIdx + 1) (ticketInv_of v₂)
  have hall := Regime.allows v₂ hinv fun o _ => hk o
  refine ⟨v₂.now.2, hall, ?_⟩
  have hs₃ : Since v (v₂.step _ _ hall.inv) := hs₂.trans (.step hk)
  have hfresh : v₂.state.chain.cells.fresh < (v₂.step _ _ hall.inv).state.chain.cells.fresh :=
    Nat.lt_succ_self _
  simp only [nextCae, Prog.bind_assoc]
  refine wp.cae (fun v₄ h₄ _ _ => ?_) fun v₄ h₄ _ => he.since (hs₃.trans (.of_le h₄))
  have hn₄ := fresh_since (.of_le h₄) hfresh
  obtain ⟨hall₄, hk₄⟩ := handled_allows (.link (ticketInv_of v₄) c.op q t val hn₄)
  refine ⟨v₄.now.2, hall₄, ?_⟩
  have hs₅ : Since v (v₄.step _ _ hall₄.inv) := (hs₃.trans (.of_le h₄)).trans (.step hk₄)
  show wp _ c (tailCae q t v₂.state.chain.cells.fresh >>= fun _ => .ret (.inr 1 : Unit ⊕ ℤ)) _ _
  refine wp.bind_of (tailCae_tickets t (fresh_since (.step hk₄) hn₄)) fun _ v₆ h₆ => ?_
  exact (he.since (hs₅.trans h₆)).used

theorem leaveSegment_tickets (he : Issues w q val v) :
    wp (ticketResults w).protocol c (leaveSegment c q t val) (IssuesOrDone w q val) v := by
  refine wp.read fun v₁ h₁ => ?_
  split
  next => exact he.since (.of_le h₁)
  next =>
    refine wp.read fun v₂ h₂ => ?_
    have hs₂ := Since.of_le (h₁.trans h₂)
    split
    next => exact appendSegment_tickets (he.since hs₂)
    next n hnext =>
      have hn := (ticketInv_of v₂).next t n hnext
      exact wp.bind_of (tailCae_tickets t hn) fun _ v₃ h₃ => he.since (hs₂.trans h₃)

theorem faaaqEnqueueRound_tickets (he : Issues w q val v) :
    wp (ticketResults w).protocol c (faaaqEnqueueRound c q val) (IssuesOrDone w q val) v := by
  refine wp.read fun v₁ h₁ => wp.update fun v₂ h₂ _ => ?_
  have he₂ := he.since (.of_le (h₁.trans h₂))
  have hn : v₁.state.chain.tail q < v₂.state.chain.cells.fresh :=
    fresh_since (.of_le h₂) ((ticketInv_of v₁).tail q he.queue)
  obtain ⟨hinv, hk⟩ := fetchAdd_tickets c.op hn (ticketInv_of v₂)
  have hall := Regime.allows v₂ hinv fun o ho => hk o (not_op ho)
  refine ⟨_, hall, ?_⟩
  have hitem : ∀ y, (v₂.state.onChain (·.modify (v₁.state.chain.tail q) nextEnq)).item y =
    v₂.state.item y :=
    fun y => modify_items (f := nextEnq) (fun _ => rfl) y
  split
  next hidx =>
    refine leaveSegment_tickets ⟨he.queue, he.ne_empty, fun z hz hne => ?_⟩
    -- there was no slot left
    have hlt : ¬ (v₂.state.seg (v₁.state.chain.tail q)).enqIdx < bufferSize := by omega
    have hsame : v₂.now.2.handOut ⟨v₁.state.chain.tail q,
      (v₂.state.seg (v₁.state.chain.tail q)).enqIdx⟩ c.op =
      v₂.now.2 := if_neg hlt
    have hz : v₂.now.2 z = some c.op := hsame ▸ hz
    exact (hitem z).trans_ne (he₂.used z hz hne)
  next hidx =>
    have hbut : UsedBut c.op
      (some ⟨v₁.state.chain.tail q, (v₂.state.seg (v₁.state.chain.tail q)).enqIdx⟩)
        (v₂.step _ _ hall.inv).pair := fun z hz hne => by
      rcases Tickets.handOut_cases hz with hz | ⟨rfl, -⟩
      · exact (hitem z).trans_ne (he₂.used z hz fun h => by cases h)
      · exact absurd rfl hne
    simp only [enqCae, Prog.bind_assoc]
    refine wp.cae (fun v₄ h₄ _ _ => ?_) fun v₄ h₄ hne => ?_
    · have hbut₄ := usedBut_since (.of_le h₄) hbut
      obtain ⟨hall₄, hk₄⟩ := handled_allows (.put (ticketInv_of v₄) c.op
        ⟨v₁.state.chain.tail q, (v₂.state.seg (v₁.state.chain.tail q)).enqIdx⟩ he.ne_empty)
      refine ⟨v₄.now.2, hall₄, fun z hz hne => ?_⟩
      show (v₄.state.setItem _ val).item z ≠ _
      rw [v₄.state.item_setItem]
      split
      next => exact he.ne_empty
      next hne => exact hbut₄ z hz fun e => hne (Option.some.inj e)
    · -- the slot has been marked
      have hbut₄ := usedBut_since (.of_le h₄) hbut
      refine ⟨he.queue, he.ne_empty, fun z hz _ => ?_⟩
      by_cases hz' : z = ⟨v₁.state.chain.tail q, (v₂.state.seg (v₁.state.chain.tail q)).enqIdx⟩
      · rw [hz']
        exact hne
      · exact hbut₄ z hz fun e => hz' (Option.some.inj e)

theorem faaaqEnqueue_tickets (he : Issues w q val v) :
    wp (ticketResults w).protocol c (faaaqEnqueue c q val)
      (fun _ v' => AllUsed c.op v'.pair) v := by
  refine wp.forever (fun _ v' => Issues w q val v') he fun _ v₁ he₁ => ?_
  refine (faaaqEnqueueRound_tickets he₁).mono ?_
  rintro (_ | r) v₂ h₂
  · exact h₂
  · exact h₂

theorem ticketInv_initial (w : ℕ) : TicketInv w (initial w) fun _ => none where
  tail _ hq := hq
  next _ _ h := by cases h
  ticket := nofun
  used _ _ _ h := absurd h (Nat.not_lt_zero _)

theorem tickets_obligations (w : ℕ) :
    Obligations (ticketResults w) (Call.Valid w) (fun _ _ _ => True)
    (fun c _ _ v => AllUsed c.op v.pair) (initial w) (fun _ => none) () where
  init := ticketInv_initial w
  init_fresh _ _ := nofun
  init_loc _ := True.intro
  loc_later _ _ _ _ _ _ _ _ _ h := h
  post_stable _ _ _ v _ h hu := usedBut_since (.of_le h) hu
  code t op call l v _ _ hok _ hf := by
    have hu : AllUsed op v.pair := fun z hz => absurd hz (hf z)
    cases call with
    | enqueue q val =>
      exact wp.bind_of (faaaqEnqueue_tickets ⟨hok.1, (hok.2 q val rfl).1, hu⟩) fun _ _ h => h
    | dequeue q => exact wp.bind_of (faaaqDequeue_tickets hu) fun _ _ h => h
  finish _ _ _ _ _ h := ⟨fun _ _ => h, True.intro⟩

/-! ### The queue while no call is running -/

/-- The call is an enqueue into queue `q`. -/
def Call.into (q : ℕ) : Call → Bool
  | .enqueue j _ => decide (j = q)
  | .dequeue _ => false

/-- The enqueues into queue `q`. -/
def enqueues (q : ℕ) (u : World partialService) : Finset ℕ :=
  (Finset.range u.calls.length).filter fun o => (u.calls[o]?).any (Call.into q)

/-- The dequeues from queue `q` that have returned an item. -/
def dequeues (q : ℕ) (u : World partialService) : Finset ℕ :=
  (Finset.range u.calls.length).filter fun o =>
    u.calls[o]? = some (.dequeue q) ∧ (u.returned o).any (fun x => decide (x.1 ≠ Dcbo.EMPTY))

variable {u : World partialService}

theorem mem_enqueues {o : ℕ} : o ∈ enqueues q u ↔ ∃ val, u.calls[o]? = some (.enqueue q val) := by
  unfold enqueues
  rw [Finset.mem_filter, Finset.mem_range]
  constructor
  · rintro ⟨hlt, hinto⟩
    rw [List.getElem?_eq_getElem hlt] at hinto ⊢
    cases hcall : u.calls[o] with
    | enqueue j val =>
      rw [hcall] at hinto
      have hj : j = q := of_decide_eq_true hinto
      exact ⟨val, by rw [hj]⟩
    | dequeue j =>
      rw [hcall] at hinto
      cases hinto
  · rintro ⟨val, hcall⟩
    refine ⟨(List.getElem?_eq_some_iff.1 hcall).1, ?_⟩
    rw [hcall]
    exact decide_eq_true rfl

theorem mem_dequeues {o : ℕ} : o ∈ dequeues q u ↔
    u.calls[o]? = some (.dequeue q) ∧ ∃ r k, u.returned o = some (r, k) ∧ r ≠ Dcbo.EMPTY := by
  unfold dequeues
  rw [Finset.mem_filter, Finset.mem_range]
  constructor
  · rintro ⟨-, hcall, hany⟩
    cases hret : u.returned o with
    | none =>
      rw [hret] at hany
      cases hany
    | some x =>
      rw [hret] at hany
      exact ⟨hcall, x.1, x.2, rfl, of_decide_eq_true hany⟩
  · rintro ⟨hcall, r, k, hret, hne⟩
    refine ⟨(List.getElem?_eq_some_iff.1 hcall).1, hcall, ?_⟩
    rw [hret]
    exact decide_eq_true hne

/-- The slot with number `k` of queue `q`. -/
def slotAt (s : Memory) (q k : ℕ) : Slot := ⟨((s.line q)[k / bufferSize]?).getD 0, k % bufferSize⟩

/-- The numbers below `n` of the slots of queue `q` that have got an item. -/
def occupied (s : Memory) (q n : ℕ) : Finset ℕ :=
  (Finset.range n).filter fun k => (s.stored (slotAt s q k)).isSome

theorem slotAt_eq {p : ℕ} {x : Slot} (hp : (s.line q)[p]? = some x.seg) (hi : x.idx < bufferSize) :
    slotAt s q (bufferSize * p + x.idx) = x := by
  unfold slotAt
  rw [Nat.mul_add_mod, Nat.mod_eq_of_lt hi, Nat.mul_add_div (by decide), Nat.div_eq_of_lt hi,
    Nat.add_zero, hp]
  rfl

/-- What is known of a world in which all calls have returned. -/
structure Quiet (w : ℕ) (u : World partialService) (g : Ghost) (tickets : Tickets) : Prop where
  known : Known w u g
  inv : TicketInv w u.shared tickets
  used : ∀ x, u.shared.item x = Dcbo.EMPTY → tickets x = none
  returned : ∀ o < u.calls.length, ∃ r k, u.returned o = some (r, k)

namespace Quiet

variable {g : Ghost} {tickets : Tickets} (h : Quiet w u g tickets)
include h

/-- The item of an enqueue is in a slot that the tail has passed. -/
theorem placed (hq : q < w) {x : Slot} {op : ℕ} {val : ℤ} (hx : u.shared.stored x = some (op, val))
    (hm : x.seg ∈ u.shared.line q) : ∃ p : ℕ, (u.shared.line q)[p]? = some x.seg ∧
      bufferSize * p + x.idx < u.shared.enqPos q := by
  have hcall := h.known.made q hq x op val hx hm
  obtain ⟨r, k, hret⟩ := h.returned op (List.getElem?_eq_some_iff.1 hcall).1
  obtain ⟨call, hc, -, ha⟩ := h.known.answer op r k hret
  obtain rfl : Call.enqueue q val = call := Option.some.inj (hcall.symm.trans hc)
  obtain ⟨⟨y, p, hy, hp, hle, -⟩, -⟩ := ha
  obtain rfl := h.known.inv.once x y op val val hx hy
  exact ⟨p, hp, number_lt h.known.inv hq hy hp hle⟩

/-- A slot in front of the next one has been handed out. -/
theorem issued (hq : q < w) {k : ℕ} (hk : k < u.shared.enqPos q) : ∃ n : ℕ,
    (u.shared.line q)[k / bufferSize]? = some n ∧ k % bufferSize < (u.shared.seg n).enqIdx := by
  have hpos : 0 < bufferSize := by decide
  have hmod := Nat.mod_lt k hpos
  have hdiv := Nat.div_add_mod k bufferSize
  have htail := h.known.inv.valid.tailPos_lt hq
  have hle : k / bufferSize ≤ u.shared.chain.tailPos q := by
    refine Nat.le_of_lt_succ ((Nat.div_lt_iff_lt_mul hpos).2 (hk.trans_le ?_))
    unfold Memory.enqPos
    rw [Nat.succ_mul, Nat.mul_comm, Nat.add_comm]
    exact Nat.add_le_add_left (Nat.min_le_right _ _) _
  have hlt : k / bufferSize < (u.shared.line q).length := hle.trans_lt htail
  refine ⟨_, List.getElem?_eq_getElem hlt, ?_⟩
  rcases hle.lt_or_eq with hlt' | heq
  · have hfull := h.known.inv.full q hq _ _ (List.getElem?_eq_getElem hlt)
      (lt_of_le_of_lt hlt' htail)
    exact hmod.trans_le hfull
  · have hseg : (u.shared.line q)[k / bufferSize] = u.shared.chain.tail q := by
      have ht := h.known.inv.valid.getElem?_tail hq
      rw [← heq] at ht
      exact Option.some.inj ((List.getElem?_eq_getElem hlt).symm.trans ht)
    rw [hseg]
    unfold Memory.enqPos at hk
    rw [← heq] at hk
    have hmin := Nat.min_le_left (u.shared.seg (u.shared.chain.tail q)).enqIdx bufferSize
    omega

/-- A slot in front of the next one that no dequeue has claimed has got an item. -/
theorem stored_of_lt (hq : q < w) {k : ℕ} (hk : k < u.shared.enqPos q)
    (hge : (u.shared.claims q).length ≤ k) : (u.shared.stored (slotAt u.shared q k)).isSome := by
  obtain ⟨n, hn, hidx⟩ := h.issued hq hk
  have hmod : k % bufferSize < bufferSize := Nat.mod_lt k (by decide)
  have hslot : slotAt u.shared q k = ⟨n, k % bufferSize⟩ := by
    unfold slotAt
    rw [hn]
    rfl
  have hnum := h.known.inv.slots q hq _ n hn _ hmod
  rw [Nat.div_add_mod] at hnum
  rw [hslot, Option.isSome_iff_ne_none]
  intro hnone
  rcases hnum.empty hnone with he | ht
  · exact h.inv.used ⟨n, _⟩ (h.known.inv.lt_fresh hq hn) hmod hidx (h.used _ he) he
  · exact absurd (hnum.taken ht) (Nat.not_lt.2 hge)

/-- The slot of a claim. -/
theorem slotAt_claim (hq : q < w) {k d : ℕ} {x : Slot} (hx : (u.shared.claims q)[k]? = some
      (x, d)) :
    slotAt u.shared q k = x := by
  obtain ⟨hidx, hn⟩ := h.known.inv.claims q hq k x d hx
  unfold slotAt
  rw [hn, ← hidx]
  rfl

/-- A slot that has got an item is in front of the next one. -/
theorem lt_of_stored (hq : q < w) {k : ℕ} (hk : k < (u.shared.claims q).length)
    (hs : (u.shared.stored (slotAt u.shared q k)).isSome) : k < u.shared.enqPos q := by
  obtain ⟨⟨x, d⟩, hx⟩ : ∃ x, (u.shared.claims q)[k]? = some x := ⟨_, List.getElem?_eq_getElem hk⟩
  obtain ⟨hidx, hn⟩ := h.known.inv.claims q hq k x d hx
  obtain ⟨⟨op, val⟩, hstored⟩ := Option.isSome_iff_exists.1 hs
  rw [h.slotAt_claim hq hx] at hstored
  obtain ⟨p, hp, hlt⟩ := h.placed hq hstored (List.mem_of_getElem? hn)
  rwa [(h.known.inv.number_of_claim hq hx hp).2] at hlt

theorem occupied_eq (hq : q < w) : occupied u.shared q (u.shared.enqPos q) =
    occupied u.shared q (u.shared.claims q).length ∪ Finset.Ico (u.shared.claims q).length
      (u.shared.enqPos q) := by
  ext k
  unfold occupied
  simp only [Finset.mem_union, Finset.mem_filter, Finset.mem_range, Finset.mem_Ico]
  constructor
  · rintro ⟨hlt, hs⟩
    rcases Nat.lt_or_ge k (u.shared.claims q).length with hc | hc
    · exact .inl ⟨hc, hs⟩
    · exact .inr ⟨hc, hlt⟩
  · rintro (⟨hc, hs⟩ | ⟨hc, hlt⟩)
    · exact ⟨h.lt_of_stored hq hc hs, hs⟩
    · exact ⟨hlt, h.stored_of_lt hq hlt hc⟩

theorem card_occupied (hq : q < w) : (occupied u.shared q (u.shared.enqPos q)).card =
    (occupied u.shared q
      (u.shared.claims q).length).card + (u.shared.enqPos q - (u.shared.claims q).length) := by
  rw [h.occupied_eq hq, Finset.card_union_of_disjoint, Nat.card_Ico]
  rw [Finset.disjoint_left]
  intro k hk hk'
  have hlt := Finset.mem_range.1 (Finset.mem_filter.1 hk).1
  exact absurd (Finset.mem_Ico.1 hk').1 (Nat.not_le.2 hlt)

/-- Every enqueue has put its item into one slot. -/
theorem card_enqueues (hq : q < w) :
    (occupied u.shared q (u.shared.enqPos q)).card = (enqueues q u).card := by
  have hstored : ∀ k ∈ occupied u.shared q (u.shared.enqPos q), ∃ op val n,
    (u.shared.line q)[k / bufferSize]? = some n ∧
      u.shared.stored ⟨n, k % bufferSize⟩ = some (op, val) ∧
        slotAt u.shared q k = ⟨n, k % bufferSize⟩ := by
    intro k hk
    obtain ⟨hlt, hs⟩ := Finset.mem_filter.1 hk
    obtain ⟨n, hn, -⟩ := h.issued hq (Finset.mem_range.1 hlt)
    have hslot : slotAt u.shared q k = ⟨n, k % bufferSize⟩ := by
      unfold slotAt
      rw [hn]
      rfl
    obtain ⟨⟨op, val⟩, hx⟩ := Option.isSome_iff_exists.1 hs
    exact ⟨op, val, n, hn, hslot ▸ hx, hslot⟩
  refine Finset.card_nbij (fun k => ((u.shared.stored (slotAt u.shared q k)).getD (0, 0)).1)
    (fun k hk => ?_)
    (fun k hk k' hk' he => ?_) fun o ho => ?_
  · obtain ⟨op, val, n, hn, hx, hslot⟩ := hstored k hk
    dsimp only
    rw [hslot, hx]
    exact mem_enqueues.2 ⟨val, h.known.made q hq _ op val hx (List.mem_of_getElem? hn)⟩
  · obtain ⟨op, val, n, hn, hx, hslot⟩ := hstored k hk
    obtain ⟨op', val', n', hn', hx', hslot'⟩ := hstored k' hk'
    dsimp only at he
    rw [hslot, hx, hslot', hx'] at he
    obtain rfl : op = op' := he
    have hsame := h.known.inv.once _ _ op val val' hx hx'
    obtain ⟨rfl, hmod⟩ := Slot.mk.inj hsame
    have hdiv := (h.known.inv.valid.lines.inj q hq q hq _ _ n hn hn').2
    rw [← Nat.div_add_mod k bufferSize, ← Nat.div_add_mod k' bufferSize, hdiv, hmod]
  · obtain ⟨val, hcall⟩ := mem_enqueues.1 ho
    obtain ⟨r, k, hret⟩ := h.returned o (List.getElem?_eq_some_iff.1 hcall).1
    obtain ⟨call, hc, -, ha⟩ := h.known.answer o r k hret
    obtain rfl : Call.enqueue q val = call := Option.some.inj (hcall.symm.trans hc)
    obtain ⟨⟨y, p, hy, hp, hle, -⟩, -⟩ := ha
    have hslot := slotAt_eq hp (h.known.inv.stored y o val hy).1
    refine ⟨bufferSize * p + y.idx, Finset.mem_filter.2 ⟨Finset.mem_range.2 ?_, ?_⟩, ?_⟩
    · exact number_lt h.known.inv hq hy hp hle
    · rw [hslot]
      exact Option.isSome_iff_exists.2 ⟨_, hy⟩
    · dsimp only
      rw [hslot]
      exact congrArg (fun z : Option (ℕ × ℤ) => (z.getD (0, 0)).1) hy

/-- Every dequeue that has returned an item has claimed one slot with an item. -/
theorem card_dequeues (hq : q < w) :
    (occupied u.shared q (u.shared.claims q).length).card = (dequeues q u).card := by
  have hclaimed : ∀ k ∈ occupied u.shared q (u.shared.claims q).length, ∃ x d op val r j,
      (u.shared.claims q)[k]? = some (x, d) ∧ u.shared.stored x = some (op, val) ∧
      u.returned d = some (r, j) := by
    intro k hk
    obtain ⟨hlt, hs⟩ := Finset.mem_filter.1 hk
    obtain ⟨⟨x, d⟩, hx⟩ : ∃ x, (u.shared.claims q)[k]? = some x :=
      ⟨_, List.getElem?_eq_getElem (Finset.mem_range.1 hlt)⟩
    obtain ⟨⟨op, val⟩, hstored⟩ := Option.isSome_iff_exists.1 hs
    rw [h.slotAt_claim hq hx] at hstored
    obtain ⟨r, j, hret⟩ := h.returned d (h.known.live q hq x d (List.mem_of_getElem? hx))
    exact ⟨x, d, op, val, r, j, hx, hstored, hret⟩
  refine Finset.card_nbij (fun k => (((u.shared.claims q)[k]?).getD (⟨0, 0⟩, 0)).2) (fun k hk => ?_)
    (fun k hk k' hk' he => ?_) fun d hd => ?_
  · obtain ⟨x, d, op, val, r, j, hx, hstored, hret⟩ := hclaimed k hk
    obtain ⟨hcall, rfl, -⟩ := h.known.takes hq (List.mem_of_getElem? hx) hstored hret
    have hn := (h.known.inv.claims q hq k x d hx).2
    have hslot := h.known.inv.slots q hq _ x.seg hn x.idx (h.known.inv.stored x op r hstored).1
    dsimp only
    rw [hx]
    exact mem_dequeues.2 ⟨hcall, r, j, hret, (hslot.stored op r hstored).2.1⟩
  · obtain ⟨x, d, op, val, r, j, hx, hstored, hret⟩ := hclaimed k hk
    obtain ⟨x', d', op', val', r', j', hx', hstored', hret'⟩ := hclaimed k' hk'
    dsimp only at he
    rw [hx, hx'] at he
    obtain rfl : d = d' := he
    have hxx : x' = x := by
      by_contra hne
      have hnone := (h.known.takes hq (List.mem_of_getElem? hx) hstored hret).2.2 x'
        (List.mem_of_getElem? hx') hne
      exact Option.some_ne_none _ (hstored'.symm.trans hnone)
    subst hxx
    have hn := (h.known.inv.claims q hq k x' d hx).2
    exact (h.known.inv.number_of_claim hq hx hn).2.symm.trans
      (h.known.inv.number_of_claim hq hx' hn).2
  · obtain ⟨hcall, r, j, hret, hne⟩ := mem_dequeues.1 hd
    obtain ⟨e, -, y, val, k, hy, hs, -, -⟩ := (h.known.conserved hq).source d r j hcall hret hne
    obtain ⟨i, hi⟩ := List.mem_iff_getElem?.1 hy
    refine ⟨i, Finset.mem_filter.2 ⟨Finset.mem_range.2 (List.getElem?_eq_some_iff.1 hi).1, ?_⟩, ?_⟩
    · rw [h.slotAt_claim hq hi]
      exact Option.isSome_iff_exists.2 ⟨_, hs⟩
    · exact congrArg (fun z : Option (Slot × ℕ) => (z.getD (⟨0, 0⟩, 0)).2) hi

end Quiet

/-- The size of a queue on its own. -/
theorem faaaqQueueSize_alone {floor : ℕ → ℕ → Option ℕ} (hi : Inv w s floor) (hq : q < w) :
    Total readOnly (fun size s' => size = s.enqPos q - (s.claims q).length ∧ s' = s)
      (faaaqQueueSize q) s := by
  have hversion : versionOf s q = s.enqPos q := by
    unfold versionOf Memory.enqPos
    rw [capped_eq, hi.nodeIdx q hq _ _ (hi.valid.getElem?_tail hq)]
  have hcount : capped (s.seg (s.chain.head q)).deqIdx + bufferSize *
    (s.seg (s.chain.head q)).nodeIdx =
      (s.claims q).length := by
    have hhead := hi.head q hq
    rw [capped_eq, hi.nodeIdx q hq _ _ (hi.valid.getElem?_head hq),
      hi.claimed q hq _ _ (hi.valid.getElem?_head hq)]
    omega
  refine Total.bind_of (enqCount_alone s q) ?_
  rintro _ _ ⟨rfl, rfl⟩
  simp only [faaaqDeqCount, readHead, Prog.bind_assoc, Total.read_iff, Prog.pure_eq_ret,
    Prog.ret_bind, hcount,
    hversion]
  split
  next hlt => exact .ret ⟨(Nat.sub_eq_zero_of_le hlt.le).symm, rfl⟩
  next => exact .ret ⟨rfl, rfl⟩

/-- When all calls have returned, `faaaq_queue_size` returns the number of enqueues less the number
of dequeues that have returned an item. -/
theorem faaaq_size_exact {p : Pool partialService}
    (hr : Reach (fun (call : Call) _ => call.Valid w) (fun _ _ => True) (initial w) () p)
    (hquiet : ∀ op < p.world.calls.length, p.world.returned op ≠ none) (hq : q < w) :
    (faaaqQueueSize q).Terminates p.world.shared ∧
      ∀ size s' tr, (faaaqQueueSize q).Runs p.world.shared size s' tr →
        size + (dequeues q p.world).card = (enqueues q p.world).card ∧ s' = p.world.shared := by
  obtain ⟨g, hk⟩ := Known.of_reach hr
  obtain ⟨tickets, hi, hres, hfresh⟩ := (tickets_obligations w).implements.inv hr
  have hreturned : ∀ o < p.world.calls.length, ∃ r k, p.world.returned o = some (r, k) :=
    fun o ho => by
    obtain ⟨⟨r, k⟩, hret⟩ := Option.ne_none_iff_exists'.1 (hquiet o ho)
    exact ⟨r, k, hret⟩
  have hall : Quiet w p.world g tickets := by
    refine ⟨hk, hi, fun x hempty => ?_, hreturned⟩
    by_contra hne
    obtain ⟨o, ho⟩ := Option.ne_none_iff_exists'.1 hne
    rcases Nat.lt_or_ge o p.world.calls.length with hlt | hge
    · obtain ⟨r, k, hret⟩ := hreturned o hlt
      obtain ⟨call, -, hused⟩ := hres o r k hret
      have hused : AllUsed o (p.world.shared, tickets) := hused
      exact hused x ho nofun hempty
    · exact hfresh o hge x ho
  have htotal := faaaqQueueSize_alone hk.inv hq
  refine ⟨htotal.terminates fun _ _ => True.intro, fun size s' tr hruns => ?_⟩
  obtain ⟨⟨rfl, rfl⟩, -⟩ := htotal.runs hruns fun _ _ => True.intro
  refine ⟨?_, rfl⟩
  rw [← hall.card_enqueues hq, hall.card_occupied hq, hall.card_dequeues hq, Nat.add_comm]

/-- Two values go in, and one comes out. -/
theorem faaaq_size_exact_one : ∃ p : Pool partialService,
    ((enqueues 0 p.world).card = 2 ∧ (dequeues 0 p.world).card = 1) ∧
    (faaaqQueueSize 0).Terminates p.world.shared ∧
      ∀ size s' tr, (faaaqQueueSize 0).Runs p.world.shared size s' tr →
        size + (dequeues 0 p.world).card = (enqueues 0 p.world).card ∧ s' = p.world.shared := by
  have h : (((Pool.init partialService (initial 1) ()).exec
      (.invoke 0 (.enqueue 0 7) :: List.replicate 5 (.step 0 0) ++
        .invoke 0 (.enqueue 0 8) :: List.replicate 5 (.step 0 0) ++
        .invoke 1 (.dequeue 0) :: List.replicate 8 (.step 1 0))).any fun p =>
      decide (((enqueues 0 p.world).card = 2 ∧ (dequeues 0 p.world).card = 1) ∧
        ∀ op < p.world.calls.length, p.world.returned op ≠ none)) = true := by
    decide +kernel
  obtain ⟨p, hp, hc⟩ := Pool.exec_of_check h
  obtain ⟨hcards, hquiet⟩ := of_decide_eq_true hc
  refine ⟨p, hcards, faaaq_size_exact (w := 1) (Pool.exec_reach hp ?_ .init) hquiet Nat.one_pos⟩
  intro t c hm _
  have hc : c = .enqueue 0 7 ∨ c = .enqueue 0 8 ∨ c = .dequeue 0 := by
    simp only [List.cons_append, List.mem_cons, List.mem_append, List.mem_replicate] at hm
    grind
  rcases hc with rfl | rfl | rfl
  · refine ⟨Nat.one_pos, fun q val e => ?_⟩
    cases e
    decide
  · refine ⟨Nat.one_pos, fun q val e => ?_⟩
    cases e
    decide
  · exact ⟨Nat.one_pos, nofun⟩

end DcboFaaaq
