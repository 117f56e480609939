import SemanticRelaxation.StackElimination.Steps

/-!
# The elimination stack is linearizable

* `Pushing`, `Parked` and `Popping`: what a call knows between its steps;
* `insert_spec` and `delete_spec`: a call takes effect once, and its answer is the one of its
  operation in the history;
* `stackElimination_linearizable`: in every run the history is legal, leads to the linked stack,
  explains all answers, and keeps the order of the calls; no node is in two places.
-/

namespace StackElimination

open AtomicProg Lifo

/-- The call that an operation belongs to. -/
def callOf (val : ℕ → ℤ) : Event → Call
  | .push _ n => .insert (val n)
  | .pop .. | .empty _ => .delete

/-- What an operation answers. -/
def answerOf (val : ℕ → ℤ) : Event → ℤ
  | .push .. => 1
  | .pop _ n => val n
  | .empty _ => 0

/-- The call has taken effect, and leaves nothing in the slot of its thread. -/
structure Done (c : Caller) (r : ℤ) (s : Memory) : Prop where
  answer : ∃ e ∈ s.hist, e.op = c.op ∧ r = answerOf s.val e
  slot : s.slot c.thread = none

section Answers

variable {calls : List Call} {s s' : Memory} {c : Caller} {o : Owner} {r : ℤ}

/-- The operations are those of the calls. -/
theorem Inv.called (h : Inv calls s) {e : Event} (he : e ∈ s.hist) :
    calls[e.op]? = some (callOf s.val e) := by
  cases e with
  | push a n =>
    obtain ⟨hlt, rfl⟩ := h.pushes a n he
    exact h.nodes n hlt
  | pop a n => exact h.pops a n he
  | empty a => exact h.misses a he

theorem Kept.answer (hk : Kept o s s') (h : Inv calls s) {e : Event} (he : e ∈ s.hist) :
    answerOf s'.val e = answerOf s.val e := by
  cases e with
  | push a n => rfl
  | pop a n => exact hk.val n (h.pop_lt he)
  | empty a => rfl

theorem Done.later (hd : Done c r s) (h : Inv calls s) (hop : Kept (.op c.op) s s')
    (ht : Kept (.thread c.thread) s s') : Done c r s' := by
  obtain ⟨⟨e, he, heop, hr⟩, hslot⟩ := hd
  exact ⟨⟨e, hop.hist.mem he, heop, hr.trans (hop.answer h he).symm⟩,
    ht.slotNone c.thread rfl hslot⟩

end Answers

/-! ### The programs -/

section Specs

variable {numThreads : ℕ} {E : Results (stackService numThreads) regime} {c : Caller}
  {v v₁ : View E.protocol c}
  {val : ℤ} {n : ℕ}

theorem inv_of (v : View E.protocol c) : Inv v.now.1.calls v.state := v.inv_pair

theorem kept_op (h : v ≤ v₁) : Kept (.op c.op) v.state v₁.state := h.2.op

theorem kept_thread (h : v ≤ v₁) : Kept (.thread c.thread) v.state v₁.state := h.2.thread

theorem done_of_le {r : ℤ} (hd : Done c r v.state) (h : v ≤ v₁) : Done c r v₁.state :=
  hd.later (inv_of v) (kept_op h) (kept_thread h)

/-- The push is going on, and nobody else knows its node. -/
structure Pushing (val : ℤ) (n : ℕ) (v : View E.protocol c) : Prop where
  call : v.now.1.calls[c.op]? = some (.insert val)
  mine : Inv.Private c n v.state

/-- The node of the push has been in the slot: it is there or it has been taken. -/
structure Parked (val : ℤ) (n : ℕ) (v : View E.protocol c) : Prop where
  call : v.now.1.calls[c.op]? = some (.insert val)
  mine : Inv.Mine c n v.state
  slot : v.state.slot c.thread = some n ∨ v.state.slot c.thread = none ∧
    ∃ a, .push a n ∈ v.state.hist

/-- The pop has not taken effect. -/
structure Popping (v : View E.protocol c) : Prop where
  call : v.now.1.calls[c.op]? = some .delete
  events : ∀ e ∈ v.state.hist, e.op ≠ c.op
  slot : v.state.slot c.thread = none

theorem Pushing.later (h : Pushing val n v) (h₁ : v ≤ v₁) : Pushing val n v₁ where
  call := (Since.of_le h₁).call h.call
  mine := h.mine.later (inv_of v) (kept_op h₁) (kept_thread h₁)

theorem Parked.later (h : Parked val n v) (h₁ : v ≤ v₁) : Parked val n v₁ where
  call := (Since.of_le h₁).call h.call
  mine := h.mine.later (kept_op h₁)
  slot := by
    rcases h.slot with hslot | ⟨hslot, a, ha⟩
    · exact (kept_thread h₁).slotSome c.thread rfl n hslot
    · exact .inr ⟨(kept_thread h₁).slotNone c.thread rfl hslot, a, (kept_op h₁).hist.mem ha⟩

theorem Popping.later (h : Popping v) (h₁ : v ≤ v₁) : Popping v₁ where
  call := (Since.of_le h₁).call h.call
  events := quiet_later h.events (inv_of v) h.call (kept_op h₁)
  slot := (kept_thread h₁).slotNone c.thread rfl h.slot

theorem newNode_spec (hcall : v.now.1.calls[c.op]? = some (.insert val))
    (hslot : v.state.slot c.thread = none) (hblank : Blank c.op v.state) :
    wp E.protocol c (newNode c val) (fun n v' => Pushing val n v') v := by
  intro v₁ h₁ _ _
  have hcall₁ := (Since.of_le h₁).call hcall
  have hblank₁ : Blank c.op v₁.state := regime.fresh_later c.op v.pair v₁.pair (kept_op h₁) hblank
  have hslot₁ := (kept_thread h₁).slotNone c.thread rfl hslot
  refine ⟨(), Regime.allows v₁ ((inv_of v₁).create hcall₁ hblank₁) fun o ho => .create
    (inv_of v₁) ho val,
    hcall₁, ⟨Nat.lt_succ_self _, ?_, ?_⟩, hslot₁, hblank₁.events⟩
  · exact Function.update_self ..
  · exact Function.update_self ..

theorem pushCas_spec {top : Option ℕ} (h : Pushing val n v) (hnext : v.state.next n = top) :
    wp E.protocol c (pushCas c top n) (fun done v' => if done then Done c 1 v'.state
      else Pushing val n v') v := by
  unfold pushCas
  refine wp.cae (fun v₁ h₁ htop _ => ?_) fun v₁ h₁ _ => ?_
  · have hp := (h.later h₁).mine
    have hnext₁ : v₁.state.next n = v₁.state.top := by
      rw [(kept_op h₁).ownNext c.op rfl n h.mine.lt h.mine.pusher, hnext]
      exact htop.symm
    refine ⟨(), Regime.allows v₁ ((inv_of v₁).push hp hnext₁) fun o ho => .event ho rfl _, ?_,
      hp.slot⟩
    exact ⟨_, List.mem_append_right _ (List.mem_singleton_self _), rfl, rfl⟩
  · exact h.later h₁

theorem parkCas_spec (h : Pushing val n v) :
    wp E.protocol c (parkCas c n) (fun parked v' => if parked then Parked val n v'
      else Pushing val n v') v := by
  unfold parkCas
  refine wp.cae (fun v₁ h₁ _ _ => ?_) fun v₁ h₁ _ => ?_
  · obtain ⟨hcall, hp⟩ := h.later h₁
    refine ⟨(), Regime.allows v₁ ((inv_of v₁).park hp) fun o ho => .setSlot ho ?_, hcall,
      ⟨hp.lt, hp.pusher, hp.home⟩, .inl ?_⟩
    · intro m hm
      obtain rfl := Option.some.inj hm
      exact hp.pusher
    · exact Function.update_self ..
  · exact h.later h₁

theorem withdrawCas_spec (h : Parked val n v) : wp E.protocol c (withdrawCas c n)
    (fun withdrawn v' => if withdrawn then Pushing val n v' else Done c 1 v'.state) v := by
  unfold withdrawCas
  refine wp.cae (fun v₁ h₁ hslot _ => ?_) fun v₁ h₁ hslot => ?_
  · obtain ⟨hcall, hmine, -⟩ := h.later h₁
    have hslot : v₁.state.slot c.thread = some n := hslot
    refine ⟨(), Regime.allows v₁ ((inv_of v₁).clear _) fun o ho => .setSlot ho nofun, hcall,
      ⟨hmine.lt, hmine.pusher, hmine.home⟩, Function.update_self .., fun e he => ?_⟩
    rw [← hmine.pusher]
    exact ((inv_of v₁).slots _ n hslot).2.2 e he
  · -- the node has been taken
    obtain ⟨-, hmine, hin | ⟨hnone, a, ha⟩⟩ := h.later h₁
    · exact absurd hin hslot
    · have hop : a = c.op := ((inv_of v₁).pushes a n ha).2.symm.trans hmine.pusher
      exact ⟨⟨_, ha, hop, rfl⟩, hnone⟩

theorem pushRound_spec (h : Pushing val n v) : wp E.protocol c (pushRound c n) (fun r v' =>
    Sum.elim (fun _ => Pushing val n v') (fun r => Done c r v'.state) r) v := by
  unfold pushRound
  refine wp.read fun v₁ h₁ => wp.update fun v₂ h₂ _ => ?_
  obtain ⟨hcall, hp⟩ := (h.later h₁).later h₂
  refine ⟨(), Regime.allows v₂ ((inv_of v₂).setNext hp _) fun o ho => .setNext
    (inv_of v₂) hp ho _, ?_⟩
  have hp' : Inv.Private c n (v₂.state.setNext n v₁.state.top) :=
    ⟨⟨hp.lt, hp.pusher, hp.home⟩, hp.slot, hp.events⟩
  refine wp.bind_of (pushCas_spec ⟨hcall, hp'⟩ (Function.update_self ..)) fun done v₃ h₃ => ?_
  cases done with
  | true => exact h₃
  | false =>
    refine wp.bind_of (parkCas_spec h₃) fun parked v₄ h₄ => ?_
    cases parked with
    | false => exact h₄
    | true =>
      refine wp.bind_of (withdrawCas_spec h₄) fun withdrawn v₅ h₅ => ?_
      cases withdrawn with
      | true => exact h₅
      | false => exact h₅

theorem insert_spec (hcall : v.now.1.calls[c.op]? = some (.insert val))
    (hslot : v.state.slot c.thread = none) (hblank : Blank c.op v.state) :
    wp E.protocol c (insert c val) (fun r v' => Done c r v'.state) v := by
  unfold insert
  refine wp.bind_of (newNode_spec hcall hslot hblank) fun n v₁ h₁ => ?_
  exact wp.forever (fun _ v => Pushing val n v) h₁ fun _ v₂ h₂ => pushRound_spec h₂

/-- The node has been popped by the call. -/
structure Took (n : ℕ) (v : View E.protocol c) : Prop where
  mem : .pop c.op n ∈ v.state.hist
  slot : v.state.slot c.thread = none

theorem deleteNode_spec (h : Took n v) :
    wp E.protocol c (deleteNode n) (fun r v' => Done c r v'.state) v := by
  unfold deleteNode
  intro v₁ h₁ _ _
  refine wp.same (a := v₁.state.val n) (k := .ret) ⟨⟨_, (kept_op h₁).hist.mem h.mem, rfl, rfl⟩, ?_⟩
  exact (kept_thread h₁).slotNone c.thread rfl h.slot

theorem popCas_spec {next : Option ℕ} (h : Popping v) (hpush : ∃ a, .push a n ∈ v.state.hist)
    (hnext : v.state.next n = next) :
    wp E.protocol c (popCas c n next)
      (fun done v' => if done then Took n v' else Popping v') v := by
  unfold popCas
  refine wp.cae (fun v₁ h₁ htop _ => ?_) fun v₁ h₁ _ => ?_
  · obtain ⟨hcall, hev, hslot⟩ := h.later h₁
    obtain ⟨a, ha⟩ := hpush
    obtain rfl : v₁.state.next n = next := ((kept_op h₁).next a n ha).trans hnext
    refine ⟨(), Regime.allows v₁ ((inv_of v₁).pop hcall hev htop) fun o ho => .event ho rfl _, ?_,
      hslot⟩
    exact List.mem_append_right _ (List.mem_singleton_self _)
  · exact h.later h₁

theorem takeCas_spec {t : ℕ} (h : Popping v) :
    wp E.protocol c (takeCas c t n) (fun done v' => if done then Took n v' else Popping v') v := by
  unfold takeCas
  refine wp.cae (fun v₁ h₁ hin _ => ?_) fun v₁ h₁ _ => ?_
  · obtain ⟨hcall, hev, hslot⟩ := h.later h₁
    have hin : v₁.state.slot t = some n := hin
    refine ⟨(), Regime.allows v₁ ((inv_of v₁).eliminate hcall hev hin)
      fun o ho => .eliminate ho hin, ?_, ?_⟩
    · exact List.mem_append_right _ (List.mem_cons_of_mem _ (List.mem_singleton_self _))
    · show Function.update v₁.state.slot t none c.thread = none
      by_cases ht : c.thread = t
      · subst ht
        rw [Function.update_self]
      · rwa [Function.update_of_ne ht]
  · exact h.later h₁

theorem randomSlot_spec (h : Popping v) :
    wp E.protocol c (randomSlot numThreads) (fun _ v' => Popping v') v :=
  wp.choose fun _ _ h₁ => h.later h₁

theorem searchRound_spec (h : Popping v) (i : ℕ) :
    wp E.protocol c (searchRound c numThreads i) (fun r v' =>
    Sum.elim (fun _ => Popping v') (fun x => x.1.elim (Popping v') fun n => Took n v') r) v := by
  unfold searchRound
  split
  · refine wp.bind_of (randomSlot_spec h) fun popSlot v₁ h₁ => ?_
    split
    · refine wp.read fun v₂ h₂ => ?_
      have hp := h₁.later h₂
      cases v₂.state.slot popSlot with
      | none => exact hp
      | some n =>
        refine wp.bind_of (takeCas_spec hp) fun done v₃ h₃ => ?_
        cases done with
        | true => exact h₃
        | false => exact h₃
    · exact h₁
  · exact h

theorem popRound_spec (h : Popping v) (i : ℕ) :
    wp E.protocol c (popRound c numThreads i) (fun r v' =>
    Sum.elim (fun _ => Popping v') (fun r => Done c r v'.state) r) v := by
  unfold popRound readTop
  refine wp.update_cases fun v₁ h₁ => ?_
  have hp := h.later h₁
  cases htop : v₁.state.top with
  | none =>
    refine ⟨none, v₁.state.miss c.op, ?_,
      fun _ => ⟨(), Regime.allows v₁ ((inv_of v₁).miss hp.call hp.events htop)
      fun o ho => .event ho rfl _, ⟨.empty c.op, ?_, rfl, rfl⟩, hp.slot⟩⟩
    · rw [if_pos rfl]
    · exact List.mem_append_right _ (List.mem_singleton_self _)
  | some n =>
    refine ⟨some n, v₁.state, ?_, fun _ => ⟨(), wp.allows_self v₁, ?_⟩⟩
    · rw [if_neg (Option.some_ne_none n)]
    rw [View.step_self]
    obtain ⟨a, ha⟩ := (inv_of v₁).push_of_top htop
    refine wp.read fun v₂ h₂ => ?_
    have hpush : .push a n ∈ v₂.state.hist := (kept_op h₂).hist.mem ha
    refine wp.bind_of (popCas_spec (hp.later h₂) ⟨a, hpush⟩ rfl) fun done v₃ h₃ => ?_
    cases done with
    | true => exact wp.bind_of (deleteNode_spec h₃) fun r v₄ h₄ => h₄
    | false =>
      refine wp.bind_of (wp.forever (fun _ v => Popping v) h₃ fun i v₄ h₄ => searchRound_spec h₄ i)
        fun x v₅ h₅ => ?_
      obtain ⟨node, j⟩ := x
      cases node with
      | none => exact h₅
      | some m => exact wp.bind_of (deleteNode_spec h₅) fun r v₆ h₆ => h₆

theorem delete_spec (h : Popping v) :
    wp E.protocol c (delete c numThreads) (fun r v' => Done c r v'.state) v :=
  wp.forever (fun _ v => Popping v) h fun i _ h₁ => popRound_spec h₁ i

end Specs

/-! ### The history -/

/-- A call that returned has taken effect before any call that was made later. -/
def results (numThreads : ℕ) : Results (stackService numThreads) regime where
  holds op _ r k x := ∃ h₁ e h₂, x.1.hist = h₁ ++ e :: h₂ ∧ e.op = op ∧ r = answerOf x.1.val e ∧
    ∀ e' ∈ h₁, e'.op < k
  later op _ r k calls _ s s' hi _ hk := by
    rintro ⟨h₁, e, h₂, hhist, hop, hr, hlt⟩
    obtain ⟨rest, hrest⟩ := hk.hist
    have he : e ∈ s.1.hist := by
      rw [hhist]
      exact List.mem_append_right _ (List.mem_cons_self ..)
    refine ⟨h₁, e, h₂ ++ rest, ?_, hop, hr.trans (hk.answer hi he).symm, hlt⟩
    rw [← hrest, hhist, List.append_assoc]
    rfl

theorem stack_obligations (numThreads : ℕ) :
    Obligations (results numThreads) (fun _ => True) (fun t _ x => x.1.slot t = none)
      (fun c _ x v => Done c x.2 v.state) initial () () where
  init := .init
  init_fresh _ := ⟨nofun, nofun, nofun⟩
  init_loc _ := rfl
  loc_later t _ _ _ _ _ _ _ hk h := hk.slotNone t rfl h
  post_stable _ _ _ _ _ hle h := done_of_le h hle
  code t op call l v _ hcall _ hslot hblank := by
    cases call with
    | insert val => exact wp.bind_of (insert_spec hcall hslot hblank) fun _ _ h => h
    | delete => exact wp.bind_of (delete_spec ⟨hcall, hblank.events, hslot⟩) fun _ _ h => h
  finish c call l r v h := by
    obtain ⟨⟨e, he, hop, hr⟩, hslot⟩ := h
    refine ⟨fun k hk => ?_, hslot⟩
    obtain ⟨h₁, h₂, hhist⟩ := List.append_of_mem he
    refine ⟨h₁, e, h₂, hhist, hop, hr, fun e' he' => ?_⟩
    by_contra hge
    have hmem : e' ∈ v.state.hist := by
      rw [hhist]
      exact List.mem_append_left _ he'
    exact (hk e'.op (not_lt.1 hge)).events e' hmem rfl

/-- The history explains a run: each call takes effect at most once, with what it was called with,
each answer is the one of its operation, and a call that returned before another was made takes
effect before it. -/
structure Explains {numThreads : ℕ} (w : World (stackService numThreads)) : Prop where
  once : (w.shared.hist.map Event.op).Nodup
  called : ∀ e ∈ w.shared.hist, w.calls[e.op]? = some (callOf w.shared.val e)
  answered : ∀ op r k, w.returned op = some (r, k) → ∃ e ∈ w.shared.hist, e.op = op ∧
    r = answerOf w.shared.val e
  order : ∀ a b, w.Before a b → ∃ h₁ e h₂, w.shared.hist = h₁ ++ e :: h₂ ∧ e.op = a ∧ ∀ e' ∈ h₁,
    e'.op ≠ b

/-- The nodes that have been pushed are in one place each: in the linked stack, or with the one pop
that took it. The nodes in the slots are in one slot each, and nowhere else. -/
structure Placed (s : Memory) (st : List ℕ) : Prop where
  perm : (pushed s.hist).Perm (st ++ popped s.hist)
  nodup : (st ++ popped s.hist).Nodup
  takers : ∀ a b n, .pop a n ∈ s.hist → .pop b n ∈ s.hist → a = b
  slots : ∀ t n, s.slot t = some n → n ∉ st ∧ n ∉ popped s.hist
  apart : ∀ t u n, s.slot t = some n → s.slot u = some n → t = u

theorem Inv.placed {calls : List Call} {s : Memory} (h : Inv calls s) {st : List ℕ}
    (hrun : run s.hist = some st) :
    Placed s st := by
  have hperm := run_perm hrun
  have hpushed : (pushed s.hist).Nodup := pushed_nodup h.ops fun a b n ha hb =>
    (h.pushes a n ha).2.symm.trans (h.pushes b n hb).2
  have hnodup := hperm.nodup_iff.1 hpushed
  refine ⟨hperm, hnodup, fun a b n => pop_unique (List.nodup_append.1 hnodup).2.1, fun t n ht => ?_,
    fun t u n ht hu => (h.slots t n ht).2.1.symm.trans (h.slots u n hu).2.1⟩
  -- the push of a node in a slot has not taken effect
  rw [← not_or, ← List.mem_append, ← hperm.mem_iff, mem_pushed]
  rintro ⟨a, ha⟩
  exact (h.slots t n ht).2.2 _ ha (h.pushes a n ha).2.symm

/-- For any number of threads and any order of their steps: the history of the elimination stack is
legal, leads to the linked stack and explains the answers; no node is in two places, and none is
lost or returned twice. -/
theorem stackElimination_linearizable {numThreads : ℕ} {P : Pool (stackService numThreads)}
    (hr : Reachable initial () P) : ∃ st, run P.world.shared.hist = some st ∧
      Path P.world.shared.next P.world.shared.top st ∧ Explains P.world ∧
        Placed P.world.shared st := by
  obtain ⟨_, hi, hres, -⟩ := (stack_obligations numThreads).implements.inv hr
  have hi : Inv P.world.calls P.world.shared := hi
  obtain ⟨st, hrun, hpath⟩ := hi.legal
  refine ⟨st, hrun, hpath, ⟨hi.ops, fun _ => hi.called, fun op r k hop => ?_, fun a b hab => ?_⟩,
    hi.placed hrun⟩
  · obtain ⟨_, -, h₁, e, h₂, hhist, he, hr, -⟩ := hres op r k hop
    have hhist : P.world.shared.hist = h₁ ++ e :: h₂ := hhist
    refine ⟨e, ?_, he, hr⟩
    rw [hhist]
    exact List.mem_append_right _ (List.mem_cons_self ..)
  · obtain ⟨r, k, hret, hk⟩ := hab
    obtain ⟨_, -, h₁, e, h₂, hhist, he, -, hlt⟩ := hres a r k hret
    exact ⟨h₁, e, h₂, hhist, he, fun e' he' => ((hlt e' he').trans_le hk).ne⟩

/-- Two pushes get ahead of a push and a pop of other threads; these meet in the slot of the push.
-/
theorem stackElimination_linearizable_four : ∃ P : Pool (stackService 3),
    P.world.shared.hist = [.push 1 1, .push 3 2, .push 0 0, .pop 2 0] ∧ P.world.returned 2 = some
      (7, 4) ∧
    ∃ st, run P.world.shared.hist = some st ∧ Path P.world.shared.next P.world.shared.top st ∧
      Explains P.world ∧
      Placed P.world.shared st := by
  have h : (((Pool.init (stackService 3) initial ()).exec (List.flatten [
      [.invoke 0 (Call.insert 7)], List.replicate 4 (.step 0 0), [.invoke 1 (Call.insert 8)],
      List.replicate 6 (.step 1 0), [.invoke 2 Call.delete], List.replicate 3 (.step 2 0),
      [.invoke 1 (Call.insert 9)], List.replicate 6 (.step 1 0), List.replicate 2 (.step 0 0),
      List.replicate 7 (.step 2 0), List.replicate 2 (.step 0 0)])).any fun P =>
        decide (P.world.shared.hist = [.push 1 1, .push 3 2, .push 0 0, .pop 2 0] ∧
          P.world.returned 2 = some ((7 : ℤ), 4))) = true := by decide +kernel
  obtain ⟨P, hP, h⟩ := Pool.exec_of_check h
  obtain ⟨hhist, hret⟩ := of_decide_eq_true h
  exact ⟨P, hhist, hret, stackElimination_linearizable
    (Pool.exec_reach hP (fun _ _ _ _ => True.intro) .init)⟩

end StackElimination
