import SemanticRelaxation.StackKSegment.Steps
import SemanticRelaxation.Support.RoundRobin

/-!
# The operations of the k-segment stack

* `mstackRelaxedInsert_spec`: a push returns with its node committed or taken;
* `mstackRelaxedDelete_spec`: a pop takes one node at most. It removes a segment only when it has
  seen all slots empty since it announced the removal.
-/

namespace StackKSegment

open AtomicProg RoundRobin

variable {size k n : ℕ} {E : Results (stackService size) (regime size)} {c : Caller}
  {v v₁ v₂ : View E.protocol c} {x : Slot} {val : ℤ}

/-! ### Loads -/

theorem published_head (v : View E.protocol c) :
    Published v.state.segs v.state.segs.head.segment := .inl .refl

theorem published_le (h : v ≤ v₁) (hn : Published v.state.segs n) : Published v₁.state.segs n :=
  (kept_of_le h).segs.published n hn

theorem readHead_spec : wp E.protocol c readHead
    (fun head v' => v ≤ v' ∧ Published v'.state.segs head.segment) v := by
  refine wp.choose fun r v₁ h₁ => ?_
  split
  next =>
    refine wp.read fun v₂ h₂ => wp.read fun v₃ h₃ => ?_
    exact ⟨(h₁.trans h₂).trans h₃, published_le h₃ (published_head v₂)⟩
  next =>
    refine wp.read fun v₂ h₂ => wp.read fun v₃ h₃ => ?_
    exact ⟨(h₁.trans h₂).trans h₃, published_head v₃⟩

theorem wrap_lt (hsize : 0 < size) (i : ℕ) : wrap size i < size := by
  unfold wrap
  split <;> omega

/-! ### The node of a push -/

/-- The push `op` has made the node `n`, has taken no node and announced no removal. -/
structure Owns (op n : ℕ) (s : Memory) : Prop where
  lt_fresh : n < s.slots.fresh
  pusher : s.slots.pusher n = op
  takes : ∀ m, (m, op) ∉ s.slots.takes
  marks : ∀ m, op ∉ s.segs.marks m

theorem Owns.kept {op : ℕ} {s s' : Memory} (h : Owns op n s) (hk : Kept (.op op) s s') :
    Owns op n s' where
  lt_fresh := h.lt_fresh.trans_le hk.slots.fresh
  pusher := (hk.slots.pusher n h.lt_fresh).trans h.pusher
  takes m hm := h.takes m (hk.slots.ownTakes op rfl m hm)
  marks m hm := h.marks m ((hk.segs.marks op rfl m).1 hm)

/-- The node of the push is not committed and in no slot. -/
structure Holds (op n : ℕ) (s : Memory) : Prop extends Owns op n s where
  uncommitted : s.slots.committed n = false
  loose : Loose s.slots n

theorem Holds.kept {op : ℕ} {s s' : Memory} (h : Holds op n s) (hk : Kept (.op op) s s') :
    Holds op n s' := by
  obtain ⟨h₁, -, h₃⟩ := hk.slots.own op rfl n h.lt_fresh h.pusher
  exact ⟨h.toOwns.kept hk, h₁.trans h.uncommitted, h₃ h.loose⟩

/-- The push has put its node into a slot. -/
structure Puts (op n : ℕ) (x : Slot) (s : Memory) : Prop extends Owns op n s where
  uncommitted : s.slots.committed n = false
  placed : s.slots.slot x = some n ∨ Taken s.slots n
  published : Published s.segs x.seg

theorem Puts.kept {op : ℕ} {s s' : Memory} (h : Puts op n x s) (hk : Kept (.op op) s s') :
    Puts op n x s' := by
  obtain ⟨h₁, h₂, -⟩ := hk.slots.own op rfl n h.lt_fresh h.pusher
  refine ⟨h.toOwns.kept hk, h₁.trans h.uncommitted, ?_, hk.segs.published _ h.published⟩
  rcases h.placed with hx | ht
  · exact h₂ x hx
  · exact .inr (ht.kept hk.slots)

/-- The push is over: its node is committed, or has been taken. -/
structure Pushed (op n : ℕ) (s : Memory) : Prop extends Owns op n s where
  done : s.slots.committed n = true ∨ Taken s.slots n

theorem Pushed.kept {op : ℕ} {s s' : Memory} (h : Pushed op n s) (hk : Kept (.op op) s s') :
    Pushed op n s' :=
  ⟨h.toOwns.kept hk, h.done.imp (hk.slots.committed n) fun ht => ht.kept hk.slots⟩

/-! ### `get_push_slot` -/

theorem tryCreateSegment_spec {head : Head} (hh : Holds c.op n v.state)
    (hp : Published v.state.segs head.segment) :
    wp E.protocol c (tryCreateSegment c head) (fun _ v' => Holds c.op n v'.state) v := by
  refine wp.update fun v₁ h₁ _ => ?_
  have hh₁ := hh.kept (kept_of_le h₁)
  have hi₁ := (inv_of v₁).segs
  obtain ⟨hall, -⟩ := create_allows (v := v₁) (hi₁.lt_fresh (published_le h₁ hp))
  refine ⟨(), hall, ?_⟩
  obtain ⟨hpriv, hmaker, hnext⟩ :=
    @private_create v₁.state.segs head.segment c.op hi₁
  set v₂ := v₁.step _ () hall.inv with hv₂
  have hh₂ : Holds c.op n v₂.state := ⟨⟨hh₁.lt_fresh, hh₁.pusher, hh₁.takes, hh₁.marks⟩,
    hh₁.uncommitted, hh₁.loose⟩
  show wp E.protocol c (pushHeadCae head v₁.state.segs.fresh) _ v₂
  refine wp.cae (fun v₃ h₃ he _ => ?_) fun v₃ h₃ _ => hh₂.kept (kept_of_le h₃)
  have hk₃ := kept_of_le h₃
  have hh₃ := hh₂.kept hk₃
  have hpriv₃ := hk₃.segs.own c.op rfl _ hmaker hpriv
  have hmaker₃ := (hk₃.segs.maker _ hpriv.lt_fresh).trans hmaker
  have hnext₃ := (hk₃.segs.next _ hpriv.lt_fresh).trans hnext
  have he : v₃.state.segs.head = head := he
  have hnext₃ : (v₃.state.segs.heap v₁.state.segs.fresh).next =
    some v₃.state.segs.head.segment := by
    rw [he]
    exact hnext₃
  have hall₃ := @push_allows size E c v₃ ⟨v₁.state.segs.fresh,
    head.version + 1⟩ hpriv₃ hmaker₃ hnext₃
  exact ⟨(), hall₃, ⟨hh₃.lt_fresh, hh₃.pusher, hh₃.takes, hh₃.marks⟩, hh₃.uncommitted, hh₃.loose⟩

/-- What a round of `get_push_slot` starts with, and what it ends with. -/
def PushRound (size n : ℕ) (r : Push ⊕ Slot) (v : View E.protocol c) : Prop :=
  Holds c.op n v.state ∧ Sum.elim (fun l => Published v.state.segs l.currentHead.segment)
    (fun x => Published v.state.segs x.seg ∧ x.idx < size) r

theorem lookPush_spec (hsize : 0 < size) {l : Push} (hh : Holds c.op n v.state)
    (hp : Published v.state.segs l.currentHead.segment) :
    wp E.protocol c (lookPush size l) (PushRound size n) v := by
  refine wp.read fun v₁ h₁ => ?_
  split
  next => exact ⟨hh.kept (kept_of_le h₁), published_le h₁ hp, wrap_lt hsize _⟩
  next =>
    refine wp.read fun v₂ h₂ => ?_
    have h₀₂ := h₁.trans h₂
    split
    next => exact ⟨hh.kept (kept_of_le h₀₂), published_le h₀₂ hp⟩
    next =>
      exact wp.bind_of readHead_spec fun head v₃ h₃ =>
        ⟨hh.kept (kept_of_le (h₀₂.trans h₃.1)), h₃.2⟩

theorem getPushSlotRound_spec (hsize : 0 < size) {l : Push} (hh : Holds c.op n v.state)
    (hp : Published v.state.segs l.currentHead.segment) :
    wp E.protocol c (getPushSlotRound c size l) (PushRound size n) v := by
  unfold getPushSlotRound
  split
  next =>
    refine wp.bind_of (tryCreateSegment_spec hh hp) fun _ v₁ hh₁ => ?_
    refine wp.bind_of readHead_spec fun head v₂ h₂ => ?_
    exact lookPush_spec hsize (hh₁.kept (kept_of_le h₂.1)) h₂.2
  next => exact lookPush_spec (l := { l with walkCount := l.walkCount + 1 }) hsize hh hp

theorem getPushSlot_spec (hsize : 0 < size) (hh : Holds c.op n v.state) :
    wp E.protocol c (getPushSlot c size) (fun x v' => PushRound size n (.inr x) v') v := by
  unfold getPushSlot randomSlot
  simp only [Prog.bind_assoc, Prog.pure_eq_ret, Prog.ret_bind]
  refine wp.choose fun r v₁ h₁ => wp.bind_of readHead_spec fun head v₂ h₂ => ?_
  refine wp.forever (fun l v' => PushRound size n (.inl l) v')
    ⟨hh.kept (kept_of_le (h₁.trans h₂.1)), h₂.2⟩ fun l v₃ h₃ => ?_
  refine (getPushSlotRound_spec hsize h₃.1 h₃.2).mono ?_
  rintro (l' | x) v₄ h₄
  · exact h₄
  · exact h₄

/-! ### `mstack_relaxed_insert` -/

/-- A commitment needs a segment without announcement. -/
theorem noRemoval_spec (hp : Puts c.op n x v.state) : wp E.protocol c (noRemoval x.seg n)
    (fun r v' => if r then Pushed c.op n v'.state else Puts c.op n x v'.state) v := by
  intro v₁ h₁ _ _
  have hp₁ := hp.kept (kept_of_le h₁)
  by_cases hzero : (v₁.state.segs.heap x.seg).remove = 0
  · simp only [if_pos hzero]
    have hall := commit_allows hp₁.lt_fresh hp₁.pusher hp₁.published hzero hp₁.placed
    exact ⟨(), hall, ⟨hp₁.lt_fresh, hp₁.pusher, hp₁.takes, hp₁.marks⟩,
      .inl (Function.update_self ..)⟩
  · simp only [if_neg hzero]
    exact wp.same (a := false) (k := .ret) hp₁

theorem checkCommit_spec (hp : Puts c.op n x v.state) : wp E.protocol c (checkCommit x n)
    (fun r v' => if r then Pushed c.op n v'.state else Holds c.op n v'.state) v := by
  refine wp.read fun v₁ h₁ => ?_
  have hp₁ := hp.kept (kept_of_le h₁)
  split
  next hne => exact ⟨hp₁.toOwns, .inr (hp₁.placed.resolve_left hne)⟩
  next =>
    refine wp.bind_of (noRemoval_spec hp₁) fun r v₂ h₂ => ?_
    cases r with
    | true => exact h₂
    | false =>
      have hp₂ : Puts c.op n x v₂.state := h₂
      simp only [Bool.false_eq_true, if_false, retractCas, Prog.bind_assoc]
      refine wp.cae (fun v₃ h₃ hx _ => ?_) fun v₃ h₃ hx => ?_
      · have hp₃ := hp₂.kept (kept_of_le h₃)
        have hall := retract_allows hp₃.pusher hp₃.uncommitted hx
        exact ⟨(), hall, ⟨hp₃.lt_fresh, hp₃.pusher, hp₃.takes, hp₃.marks⟩, hp₃.uncommitted,
          ((inv_of v₃).slots.retract hx hp₃.uncommitted).2⟩
      · have hp₃ := hp₂.kept (kept_of_le h₃)
        exact ⟨hp₃.toOwns, .inr (hp₃.placed.resolve_left hx)⟩

theorem pushInto_spec (hh : Holds c.op n v.state) (hpub : Published v.state.segs x.seg)
    (hx : x.idx < size) : wp E.protocol c (pushInto x n) (fun r v' =>
      Sum.elim (fun _ => Holds c.op n v'.state) (fun r => r = 1 ∧ Pushed c.op n v'.state) r) v := by
  unfold pushInto
  simp only [putCas, Prog.bind_assoc]
  refine wp.cae (fun v₁ h₁ he _ => ?_) fun v₁ h₁ _ => hh.kept (kept_of_le h₁)
  have hh₁ := hh.kept (kept_of_le h₁)
  have hpub₁ := published_le h₁ hpub
  have hall := put_allows hh₁.lt_fresh hh₁.pusher hh₁.uncommitted hh₁.loose hx hpub₁ he
  refine ⟨(), hall, ?_⟩
  have hp : Puts c.op n x (v₁.step _ () hall.inv).state :=
    ⟨⟨hh₁.lt_fresh, hh₁.pusher, hh₁.takes, hh₁.marks⟩, hh₁.uncommitted,
      .inl (Function.update_self ..),
      hpub₁⟩
  show wp E.protocol c (checkCommit x n >>= fun kept =>
    pure (if kept then (.inr 1 : Unit ⊕ ℤ) else .inl ())) _ _
  refine wp.bind_of (checkCommit_spec hp) fun r v₂ h₂ => ?_
  cases r with
  | true => exact ⟨rfl, h₂⟩
  | false => exact h₂

theorem mstackRelaxedInsert_spec (hsize : 0 < size) (hb : Blank c.op v.state)
    (hcall : v.now.1.calls[c.op]? = some (.push val)) :
    wp E.protocol c (mstackRelaxedInsert c size val)
      (fun r v' => r = 1 ∧ ∃ n, Pushed c.op n v'.state) v := by
  refine wp.update fun v₁ h₁ _ => ?_
  have hk := kept_of_le h₁
  have hcall₁ := (Since.of_le h₁).call hcall
  have hnew : ∀ n < v₁.state.slots.fresh, v₁.state.slots.pusher n ≠ c.op := fun n hn hp => by
    have hn' := hk.slots.ownNodes c.op rfl n hn hp
    exact hb.nodes n hn' ((hk.slots.pusher n hn').symm.trans hp)
  have hall := createNode_allows hcall₁ hnew
  refine ⟨(), hall, ?_⟩
  have hlt : v₁.state.slots.committed v₁.state.slots.fresh = false := by
    cases hc : v₁.state.slots.committed v₁.state.slots.fresh with
    | false => rfl
    | true => exact absurd ((inv_of v₁).slots.committed _ hc).1 (lt_irrefl _)
  have hh : Holds c.op v₁.state.slots.fresh (v₁.step _ () hall.inv).state :=
    ⟨⟨Nat.lt_succ_self _, Function.update_self ..,
      fun m hm => hb.takes m (hk.slots.ownTakes c.op rfl m hm),
      fun m hm => hb.marks m ((hk.segs.marks c.op rfl m).1 hm)⟩, hlt,
        (inv_of v₁).slots.loose_create val⟩
  refine wp.forever (fun _ v' => Holds c.op v₁.state.slots.fresh v'.state) hh fun _ v₂ hh₂ => ?_
  refine wp.bind_of (getPushSlot_spec hsize hh₂) fun x v₃ h₃ => ?_
  refine (pushInto_spec h₃.1 h₃.2.1 h₃.2.2).mono ?_
  rintro (_ | r) v₄ h₄
  · exact h₄
  · exact ⟨h₄.1, _, h₄.2⟩

/-! ### `get_pop_slot` -/

/-- A running pop that has neither made a node nor taken one. -/
structure Runs (v : View E.protocol c) : Prop where
  call : v.now.1.calls[c.op]? = some .pop
  nodes : ∀ n < v.state.slots.fresh, v.state.slots.pusher n ≠ c.op
  takes : ∀ n, (n, c.op) ∉ v.state.slots.takes

theorem Runs.later (h : Runs v) (hv : v ≤ v₁) : Runs v₁ := by
  have hk := kept_of_le hv
  refine ⟨(Since.of_le hv).call h.call, fun n hn hp => ?_, fun n hn =>
    h.takes n (hk.slots.ownTakes c.op rfl n hn)⟩
  have hn' := hk.slots.ownNodes c.op rfl n hn hp
  exact h.nodes n hn' ((hk.slots.pusher n hn').symm.trans hp)

/-- What the variables of `get_pop_slot` stand for: the pop has announced the removal of its segment
or of none. -/
structure Pops (l : Pop) (v : View E.protocol c) : Prop extends Runs v where
  published : Published v.state.segs l.currentHead.segment
  marks : ∀ n, c.op ∈ v.state.segs.marks n ↔ l.marked = true ∧ n = l.currentHead.segment

/-- The scan since the announcement, with the number of slots that it has seen. -/
def Scan (size : ℕ) (l : Pop) (k : ℕ) (s : Memory) : Prop :=
  Scanned size (fun i => Free s.slots ⟨l.currentHead.segment, i⟩) (wrap size l.popSlot) k

/-- What is known at the start of a round, but for the number of slots that the scan has seen. -/
structure Stage (size : ℕ) (l : Pop) (s : Memory) : Prop where
  missed : 0 < l.walkCount → l.currentNode = none
  marked : l.marked = true → size < l.walkCount
  last : size < l.walkCount → l.marked = false → (s.segs.heap l.currentHead.segment).next = none

variable {l : Pop}

theorem Pops.later (h : Pops l v) (hv : v ≤ v₁) : Pops l v₁ :=
  ⟨h.toRuns.later hv, published_le hv h.published,
    fun n => ((kept_of_le hv).segs.marks c.op rfl n).trans (h.marks n)⟩

theorem next_le (hv : v ≤ v₁) (hp : Published v.state.segs n) :
    (v₁.state.segs.heap n).next = (v.state.segs.heap n).next :=
  (kept_of_le hv).segs.next n ((inv_of v).segs.lt_fresh hp)

theorem Scan.later (h : Scan size l k v.state) (hp : Pops l v) (hm : l.marked = true)
    (hv : v ≤ v₁) :
    Scan size l k v₁.state :=
  Scanned.mono h fun _ _ hj => (kept_of_le hv).free c.op rfl _ ((hp.marks _).2 ⟨hm, rfl⟩) hj

/-- What a round of `get_pop_slot` starts with, and what it ends with. -/
def PopRound (size : ℕ) (r : Pop ⊕ Pop) (v : View E.protocol c) : Prop :=
  Sum.elim (fun l => Pops l v ∧ Stage size l v.state ∧
      (l.marked = true → ∃ k, l.walkCount ≤ size + k ∧ Scan size l k v.state))
    (fun _ => Runs v ∧ ∀ n, c.op ∉ v.state.segs.marks n) r

/-- A pop that has announced a removal withdraws it. -/
theorem decMarked_spec (h : Pops l v) : wp E.protocol c (decMarked c l)
    (fun _ v' => Pops { l with marked := false } v' ∧ ∀ m, Published v.state.segs m →
      (v'.state.segs.heap m).next = (v.state.segs.heap m).next) v := by
  unfold decMarked
  split
  next hm =>
    intro v₁ h₁ _ _
    have hp₁ := h.later h₁
    have hop := (hp₁.marks _).2 ⟨hm, rfl⟩
    have hall := unmark_allows hop
    have hpub : Published (v₁.state.segs.unmark c.op l.currentHead.segment)
      l.currentHead.segment := by
      rw [Segments.unmark_eq]
      exact published_count.2 hp₁.published
    refine ⟨(), hall, ⟨⟨hp₁.call, hp₁.nodes, hp₁.takes⟩, hpub, fun n => ?_⟩, fun m hpm => ?_⟩
    · refine ⟨fun hn => ?_, fun hn => by cases hn.1⟩
      have hn : c.op ∈ Function.update v₁.state.segs.marks l.currentHead.segment
        ((v₁.state.segs.marks l.currentHead.segment).erase c.op) n := hn
      by_cases hne : n = l.currentHead.segment
      · subst hne
        rw [Function.update_self] at hn
        exact absurd hn ((inv_of v₁).segs.nodup _).not_mem_erase
      · rw [Function.update_of_ne hne] at hn
        exact absurd ((hp₁.marks n).1 hn).2 hne
    · exact Segments.setRemove_next.trans (next_le h₁ hpm)
  next hm =>
    refine ⟨⟨h.toRuns, h.published, fun n => ?_⟩, fun _ _ => rfl⟩
    exact (h.marks n).trans (by simp [hm])

theorem look_spec (h : Pops l v) (hm : l.marked = true → size < l.walkCount)
    (hlast : size < l.walkCount → l.marked = false →
      (v.state.segs.heap l.currentHead.segment).next = none)
    (hscan : l.marked = true → ∃ k, l.walkCount ≤ size + k + 1 ∧ Scan size l k v.state) :
    wp E.protocol c (look c size l) (PopRound size) v := by
  refine wp.read fun v₁ h₁ => ?_
  have hp₁ := h.later h₁
  split
  next =>
    refine wp.bind_of (decMarked_spec hp₁) fun _ v₂ h₂ => ?_
    exact ⟨h₂.1.toRuns, fun n hn => absurd ((h₂.1.marks n).1 hn).1 nofun⟩
  next hnone =>
    have hnone : v₁.state.slots.slot ⟨l.currentHead.segment, wrap size l.popSlot⟩ = none :=
      not_not.1 hnone
    refine wp.read fun v₂ h₂ => ?_
    have hp₂ := hp₁.later h₂
    split
    next =>
      refine ⟨⟨hp₂.toRuns, hp₂.published, hp₂.marks⟩, ⟨fun _ => hnone, hm, fun hlt hmf => ?_⟩,
        fun hmt => ?_⟩
      · exact (next_le (h₁.trans h₂) h.published).trans (hlast hlt hmf)
      · obtain ⟨k, hk, hs⟩ := hscan hmt
        have hfree : Free v₁.state.slots ⟨l.currentHead.segment, wrap size l.popSlot⟩ :=
          fun n hn => absurd (hnone.symm.trans hn) nofun
        have hs₁ : Scan size { l with popSlot := wrap size l.popSlot + 1 } (k + 1) v₁.state :=
          (Scan.later hs h hmt h₁).hop hfree
        exact ⟨k + 1, hk, Scan.later (v := v₁) hs₁ ⟨hp₁.toRuns, hp₁.published, hp₁.marks⟩ hmt h₂⟩
    next =>
      refine wp.bind_of (decMarked_spec hp₂) fun _ v₃ h₃ =>
        wp.bind_of readHead_spec fun head v₄ h₄ => ?_
      have hp₄ := h₃.1.later h₄.1
      refine ⟨⟨hp₄.toRuns, h₄.2, fun n => (hp₄.marks n).trans ?_⟩,
        ⟨fun hlt => absurd hlt (lt_irrefl 0), nofun, fun hlt => absurd hlt (Nat.not_lt_zero _)⟩,
        nofun⟩
      simp

/-- A pop without an announcement starts in the present first segment. -/
theorem restart_spec (hsize : 0 < size) (h : Runs v) (hmarks : ∀ n, c.op ∉ v.state.segs.marks n) :
    wp E.protocol c (restart c size l) (PopRound size) v := by
  refine wp.bind_of readHead_spec fun head v₁ h₁ => ?_
  have hnot : ∀ n, c.op ∉ v₁.state.segs.marks n := fun n hn =>
    hmarks n (((kept_of_le h₁.1).segs.marks c.op rfl n).1 hn)
  refine look_spec ⟨h.later h₁.1, h₁.2, fun n => ?_⟩ nofun (fun hlt _ => ?_) nofun
  · simp [hnot n]
  · have hlt : size < 1 := hlt
    omega

/-- The decrement of a pop that has announced the removal. -/
theorem decRemove_marked (h : Pops l v) (hm : l.marked = true) :
    wp E.protocol c (decRemove c l.currentHead.segment)
      (fun _ v' => Runs v' ∧ ∀ n, c.op ∉ v'.state.segs.marks n) v := by
  have hd : decMarked c l = decRemove c l.currentHead.segment := if_pos hm
  rw [← hd]
  exact (decMarked_spec h).mono fun _ _ h' =>
    ⟨h'.1.toRuns, fun n hn => absurd ((h'.1.marks n).1 hn).1 nofun⟩

/-- The decrement of a pop that has announced nothing. -/
theorem decRemoveLast_spec (h : Pops l v) (hm : l.marked = false)
    (hlast : (v.state.segs.heap l.currentHead.segment).next = none) :
    wp E.protocol c (decRemoveLast c l.currentHead.segment)
      (fun _ v' => Runs v' ∧ ∀ n, c.op ∉ v'.state.segs.marks n) v := by
  intro v₁ h₁ _ _
  have hp₁ := h.later h₁
  have hnot : ∀ n, c.op ∉ v₁.state.segs.marks n := fun n hn =>
    absurd (hm.symm.trans ((hp₁.marks n).1 hn).1) nofun
  have hall := leave_allows hp₁.published ((next_le h₁ h.published).trans hlast) (hnot _)
  refine ⟨(), hall, ⟨hp₁.call, hp₁.nodes, hp₁.takes⟩, fun n hn => hnot n ?_⟩
  have hn : c.op ∈ (v₁.state.segs.leave c.op l.currentHead.segment).marks n := hn
  rwa [Segments.leave_eq (hnot _), Segments.count_marks] at hn

/-- The removal of a segment whose slots have been seen empty since its announcement. -/
theorem popHeadCae_spec (h : Pops l v) (hm : l.marked = true) {next : ℕ}
    (hnext : (v.state.segs.heap l.currentHead.segment).next = some next)
    (hfree : ∀ i < size, Free v.state.slots ⟨l.currentHead.segment, i⟩) :
    wp E.protocol c (popHeadCae c l.currentHead (some next)) (fun r v' =>
      if r then Runs v' ∧ ∀ n, c.op ∉ v'.state.segs.marks n else Pops l v') v := by
  refine wp.cae (fun v₁ h₁ he _ => ?_) fun v₁ h₁ _ => h.later h₁
  have hp₁ := h.later h₁
  have hop := (hp₁.marks _).2 ⟨hm, rfl⟩
  have he : v₁.state.segs.head = l.currentHead := he
  have hnext₁ := (next_le h₁ h.published).trans hnext
  have hnext₂ : (v₁.state.segs.heap v₁.state.segs.head.segment).next = some next := by
    rw [he]
    exact hnext₁
  have hop₂ : c.op ∈ v₁.state.segs.marks v₁.state.segs.head.segment := by
    rw [he]
    exact hop
  have hall := @pop_allows size E c v₁ ⟨next, l.currentHead.version + 1⟩ hnext₂ hop₂ fun i hi => by
    rw [he]
    exact (kept_of_le h₁).free c.op rfl _ ((h.marks _).2 ⟨hm, rfl⟩) (hfree i hi)
  refine ⟨(), hall, ⟨hp₁.call, hp₁.nodes, hp₁.takes⟩, fun n hn => ?_⟩
  by_cases hne : n = v₁.state.segs.head.segment
  · subst hne
    have hn : c.op ∈ (v₁.state.segs.pop c.op _).marks v₁.state.segs.head.segment := hn
    rw [Segments.pop_marks_self] at hn
    exact absurd hn ((inv_of v₁).segs.nodup _).not_mem_erase
  · have hn : c.op ∈ (v₁.state.segs.pop c.op _).marks n := hn
    rw [Segments.pop_marks hne] at hn
    exact hne (((hp₁.marks n).1 hn).2.trans (congrArg Head.segment he).symm)

theorem leaveSegment_spec (hsize : 0 < size) (h : Pops l v) (hst : Stage size l v.state)
    (hwalk : size * 2 ≤ l.walkCount)
    (hscan : l.marked = true → ∃ k, l.walkCount ≤ size + k ∧ Scan size l k v.state) :
    wp E.protocol c (leaveSegment c size l) (PopRound size) v := by
  refine wp.read fun v₁ h₁ => ?_
  have hp₁ := h.later h₁
  split
  next hnone =>
    have hm : l.marked = false := by
      cases hm : l.marked with
      | false => rfl
      | true =>
        have hop := List.ne_nil_of_mem ((hp₁.marks _).2 ⟨hm, rfl⟩)
        exact absurd hnone ((inv_of v₁).segs.marked _ hop).1
    refine wp.read fun v₂ h₂ => ?_
    have hp₂ := hp₁.later h₂
    split
    next =>
      exact ⟨hp₂.toRuns, fun n hn => absurd (hm.symm.trans ((hp₂.marks n).1 hn).1) nofun⟩
    next =>
      refine wp.bind_of (decRemoveLast_spec hp₂ hm ((next_le h₂ hp₁.published).trans hnone))
        fun _ v₃ h₃ => restart_spec hsize h₃.1 h₃.2
  next hne =>
    have hm : l.marked = true := by
      cases hm : l.marked with
      | true => rfl
      | false => exact absurd ((next_le h₁ h.published).trans (hst.last (by omega) hm)) hne
    refine wp.read fun v₂ h₂ => ?_
    have hp₂ := hp₁.later h₂
    obtain ⟨next, hnext⟩ := Option.ne_none_iff_exists'.1 hne
    have hnext₂ := (next_le h₂ hp₁.published).trans hnext
    rw [hnext₂]
    obtain ⟨k, hk, hs⟩ := hscan hm
    have hfree := (Scan.later hs h hm (h₁.trans h₂)).all_of_le (by omega)
    refine wp.bind_of (popHeadCae_spec hp₂ hm hnext₂ hfree) fun r v₃ h₃ => ?_
    cases r with
    | true => exact restart_spec hsize h₃.1 h₃.2
    | false =>
      exact wp.bind_of (decRemove_marked h₃ hm) fun _ v₄ h₄ => restart_spec hsize h₄.1 h₄.2

/-- A round of `get_pop_slot`, once a removal has been announced where one is. -/
theorem walk_spec (hsize : 0 < size) (h : Pops l v) (hmiss : 0 < l.walkCount → l.currentNode = none)
    (hm : l.marked = true → size ≤ l.walkCount)
    (hlast : size ≤ l.walkCount → l.marked = false →
      (v.state.segs.heap l.currentHead.segment).next = none)
    (hscan : l.marked = true → ∃ k, l.walkCount ≤ size + k ∧ Scan size l k v.state) :
    wp E.protocol c (walk c size l) (PopRound size) v := by
  unfold walk
  split
  next hge =>
    have hge : size * 2 ≤ l.walkCount := hge
    exact leaveSegment_spec hsize h ⟨hmiss, fun _ => by omega, fun hlt => hlast hlt.le⟩ hge hscan
  next =>
    refine look_spec (l := { l with walkCount := l.walkCount + 1 })
      ⟨h.toRuns, h.published, h.marks⟩ (fun e => Nat.lt_succ_of_le (hm e))
      (fun hlt => hlast (Nat.lt_succ_iff.1 hlt)) fun e => ?_
    obtain ⟨k, hk, hs⟩ := hscan e
    exact ⟨k, Nat.succ_le_succ hk, hs⟩

theorem getPopSlotRound_spec (hsize : 0 < size) (h : PopRound size (.inl l) v) :
    wp E.protocol c (getPopSlotRound c size l) (PopRound size) v := by
  obtain ⟨hp, hst, hscan⟩ := h
  have hp : Pops l v := hp
  unfold getPopSlotRound
  split
  next heq =>
    have hmf : l.marked = false := by
      cases hm : l.marked with
      | false => rfl
      | true => exact absurd heq (hst.marked hm).ne'
    refine wp.read fun v₁ h₁ => ?_
    have hp₁ := hp.later h₁
    split
    next hne =>
      refine wp.update fun v₂ h₂ _ => ?_
      have hp₂ := hp₁.later h₂
      have hnot : ∀ n, c.op ∉ v₂.state.segs.marks n := fun n hn =>
        absurd (hmf.symm.trans ((hp₂.marks n).1 hn).1) nofun
      have hall := mark_allows hp₂.published ((next_le h₂ hp₁.published).trans_ne hne)
        (hnot _) hp₂.call
      refine ⟨(), hall, ?_⟩
      have hpub : Published
        (v₂.state.segs.mark c.op l.currentHead.segment) l.currentHead.segment := by
        rw [Segments.mark_eq]
        exact published_count.2 hp₂.published
      have hp₃ : Pops { l with marked := true } (v₂.step _ () hall.inv) := by
        refine ⟨⟨hp₂.call, hp₂.nodes, hp₂.takes⟩, hpub, fun n => ?_⟩
        show c.op ∈ Function.update v₂.state.segs.marks l.currentHead.segment _ n ↔ _
        by_cases hn : n = l.currentHead.segment
        · subst hn
          rw [Function.update_self]
          exact ⟨fun _ => ⟨rfl, rfl⟩, fun _ => List.mem_cons_self ..⟩
        · rw [Function.update_of_ne hn]
          exact ⟨fun hm => absurd hm (hnot n), fun e => absurd e.2 hn⟩
      exact walk_spec (l := { l with marked := true }) hsize hp₃ hst.missed (fun _ => heq.ge) nofun
        fun _ => ⟨0, heq.le, .start (wrap_lt hsize _)⟩
    next hnone =>
      exact walk_spec hsize hp₁ hst.missed (fun e => (hst.marked e).le) (fun _ _ => not_not.1 hnone)
        fun e => absurd (hmf.symm.trans e) nofun
  next hne =>
    exact walk_spec hsize hp hst.missed (fun e => (hst.marked e).le)
      (fun hle => hst.last (lt_of_le_of_ne hle (Ne.symm hne))) hscan

theorem getPopSlot_spec (hsize : 0 < size) (h : Runs v)
    (hmarks : ∀ n, c.op ∉ v.state.segs.marks n) :
    wp E.protocol c (getPopSlot c size) (fun l v' => PopRound size (.inr l) v') v := by
  unfold getPopSlot randomSlot
  simp only [Prog.bind_assoc, Prog.pure_eq_ret, Prog.ret_bind]
  refine wp.choose fun r v₁ h₁ => wp.bind_of readHead_spec fun head v₂ h₂ => ?_
  have hv := h₁.trans h₂.1
  have hnot : ∀ n, c.op ∉ v₂.state.segs.marks n := fun n hn =>
    hmarks n (((kept_of_le hv).segs.marks c.op rfl n).1 hn)
  refine wp.forever (fun l v' => PopRound size (.inl l) v') ?_ fun l v₃ h₃ => ?_
  · refine ⟨⟨h.later hv, h₂.2, fun n => ?_⟩, ⟨fun hlt => absurd hlt (lt_irrefl 0), nofun,
      fun hlt => absurd hlt (Nat.not_lt_zero _)⟩, nofun⟩
    simp [hnot n]
  · refine (getPopSlotRound_spec hsize h₃).mono ?_
    rintro (l' | l') v₄ h₄
    · exact h₄
    · exact h₄

/-! ### `mstack_relaxed_delete` -/

/-- The pop `op` is over: it has taken a node of value `r`, or none. -/
structure Popped (op : ℕ) (r : ℤ) (s : Memory) : Prop where
  nodes : ∀ n < s.slots.fresh, s.slots.pusher n ≠ op
  marks : ∀ n, op ∉ s.segs.marks n
  taken : r = 0 ∧ (∀ n, (n, op) ∉ s.slots.takes) ∨
    ∃ n < s.slots.fresh, (n, op) ∈ s.slots.takes ∧ s.slots.val n = r

theorem Popped.kept {op : ℕ} {r : ℤ} {s s' : Memory} (h : Popped op r s) (hk : Kept (.op op) s s') :
    Popped op r s' := by
  refine ⟨fun n hn hp => ?_, fun n hn => h.marks n ((hk.segs.marks op rfl n).1 hn), ?_⟩
  · have hn' := hk.slots.ownNodes op rfl n hn hp
    exact h.nodes n hn' ((hk.slots.pusher n hn').symm.trans hp)
  · rcases h.taken with ⟨hr, ht⟩ | ⟨n, hn, ht, hv⟩
    · exact .inl ⟨hr, fun n hn => ht n (hk.slots.ownTakes op rfl n hn)⟩
    · exact .inr ⟨n, hn.trans_le hk.slots.fresh, hk.slots.takes.mem ht,
        (hk.slots.val n hn).trans hv⟩

theorem takeNode_spec (h : Runs v) (hmarks : ∀ n, c.op ∉ v.state.segs.marks n) :
    wp E.protocol c (takeNode c x n) (fun r v' => Sum.elim
      (fun _ => Runs v' ∧ ∀ n, c.op ∉ v'.state.segs.marks n)
      (fun r => Popped c.op r v'.state) r) v := by
  unfold takeNode
  simp only [takeCas, Prog.bind_assoc]
  have hnot : ∀ v', v ≤ v' → ∀ n, c.op ∉ v'.state.segs.marks n := fun v' h' n hn =>
    hmarks n (((kept_of_le h').segs.marks c.op rfl n).1 hn)
  refine wp.cae (fun v₁ h₁ hx _ => ?_) fun v₁ h₁ _ => ⟨h.later h₁, hnot v₁ h₁⟩
  have hr₁ := h.later h₁
  have hall := take_allows hx hr₁.takes
  refine ⟨(), hall, wp.read fun v₂ h₂ => ?_⟩
  have hlt := ((inv_of v₁).slots.placed x n hx).1
  have hp : Popped c.op (v₁.state.slots.val n) (v₁.step _ () hall.inv).state :=
    ⟨hr₁.nodes, hnot v₁ h₁, .inr ⟨n, hlt, List.mem_append_right _ (List.mem_singleton_self _), rfl⟩⟩
  have hk := kept_of_le h₂
  exact (hk.slots.val n hlt) ▸ hp.kept hk

theorem mstackRelaxedDelete_spec (hsize : 0 < size) (hb : Blank c.op v.state)
    (hcall : v.now.1.calls[c.op]? = some .pop) :
    wp E.protocol c (mstackRelaxedDelete c size) (fun r v' => Popped c.op r v'.state) v := by
  refine wp.forever (fun _ v' => Runs v' ∧ ∀ n, c.op ∉ v'.state.segs.marks n)
    ⟨⟨hcall, hb.nodes, hb.takes⟩, hb.marks⟩ fun _ v₁ h₁ => ?_
  refine wp.bind_of (getPopSlot_spec hsize h₁.1 h₁.2) fun l v₂ h₂ => ?_
  split
  next => exact ⟨h₂.1.nodes, h₂.2, .inl ⟨rfl, h₂.1.takes⟩⟩
  next => exact takeNode_spec h₂.1 h₂.2

end StackKSegment
