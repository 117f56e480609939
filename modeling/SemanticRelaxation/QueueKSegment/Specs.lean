import SemanticRelaxation.QueueKSegment.Steps
import SemanticRelaxation.Support.RoundRobin

/-!
# The operations of the k-segment queue

* `tryCreateSegment_spec`, `getPushSlot_spec`, `getPopSlot_spec`: the parts of the operations;
* `queueRelaxedInsert_spec` and `queueRelaxedDelete_spec`: the operations under interference. Both
  depend on a scan that has seen all slots of a segment, full the one, and used the other.
-/

namespace QueueKSegment

open AtomicProg Linked Segments RoundRobin

variable {size p n t k : ℕ} {E : Results (queueService size) (regime size)} {c : Caller}
  {v v₁ v₂ : View E.protocol c} {seg : ℕ}

/-! ### What is stable -/

/-- What a call knows of the time from `v` to `v'`, in which it has neither filled a slot nor
deleted an item, but may have changed the list of segments. -/
structure Later (v v' : View E.protocol c) : Prop where
  grows : Grows Evolves 1 v.state.chain v'.state.chain
  ownInserts : ∀ y, (y, c.op) ∈ v'.state.inserts → (y, c.op) ∈ v.state.inserts
  ownDeletes : ∀ y, (y, c.op) ∈ v'.state.deletes → (y, c.op) ∈ v.state.deletes
  calls : v.now.1.calls <+: v'.now.1.calls

theorem Later.of_since (h : Since v v₁) : Later v v₁ :=
  ⟨grows_since h, h.frame.ownInserts _ rfl, h.frame.ownDeletes _ rfl, h.calls⟩

theorem Later.of_le (h : v ≤ v₁) : Later v v₁ := .of_since (.of_le h)

theorem Later.trans (h : Later v v₁) (h' : Later v₁ v₂) : Later v v₂ :=
  ⟨h.grows.trans Evolves.trans h'.grows, fun y hy => h.ownInserts y (h'.ownInserts y hy),
    fun y hy => h.ownDeletes y (h'.ownDeletes y hy), h.calls.trans h'.calls⟩

/-- A call that has neither filled a slot nor deleted an item. -/
def Blank (op : ℕ) (s : Memory) : Prop := Unplaced op s ∧ Untaken op s

theorem Blank.later (h : Blank c.op v.state) (hl : Later v v₁) : Blank c.op v₁.state :=
  ⟨fun y hy => h.1 y (hl.ownInserts y hy), fun y hy => h.2 y (hl.ownDeletes y hy)⟩

/-- The segment is in the list, not behind the tail. -/
def BeforeTail (seg : ℕ) (s : Memory) : Prop :=
  ∃ p, s.line[p]? = some seg ∧ p ≤ s.chain.tailPos 0

/-- The segment is in the list, not behind the head. -/
def BeforeHead (seg : ℕ) (s : Memory) : Prop := ∃ p, s.line[p]? = some seg ∧ p ≤ s.headPos

theorem BeforeTail.later (h : BeforeTail seg v.state) (hl : Later v v₁) :
    BeforeTail seg v₁.state := by
  obtain ⟨p, hp, hle⟩ := h
  exact ⟨p, hl.grows.getElem? hp, hle.trans (hl.grows.tail 0 Nat.one_pos)⟩

theorem BeforeHead.later (h : BeforeHead seg v.state) (hl : Later v v₁) :
    BeforeHead seg v₁.state := by
  obtain ⟨p, hp, hle⟩ := h
  exact ⟨p, hl.grows.getElem? hp, hle.trans (hl.grows.head 0 Nat.one_pos)⟩

theorem BeforeTail.mem {s : Memory} (h : BeforeTail seg s) : seg ∈ s.line := by
  obtain ⟨p, hp, -⟩ := h
  exact List.mem_of_getElem? hp

theorem BeforeHead.mem {s : Memory} (h : BeforeHead seg s) : seg ∈ s.line := by
  obtain ⟨p, hp, -⟩ := h
  exact List.mem_of_getElem? hp

theorem beforeTail_tail (v : View E.protocol c) : BeforeTail (v.state.chain.tail 0) v.state :=
  ⟨_, (inv_of v).valid.getElem?_tail Nat.one_pos, le_rfl⟩

theorem beforeHead_head (v : View E.protocol c) : BeforeHead (v.state.chain.head 0) v.state :=
  ⟨_, (inv_of v).valid.getElem?_head Nat.one_pos, le_rfl⟩

/-- The slot is full. -/
def Filled (s : Memory) (x : Slot) : Prop := (s.index x).node ≠ none

/-- The slot is full, and its item is deleted. -/
def Gone (s : Memory) (x : Slot) : Prop := Filled s x ∧ (s.index x).deleted = true

theorem Filled.later {x : Slot} (hx : x.seg ∈ v.state.line) (h : Filled v.state x)
    (hl : Later v v₁) :
    Filled v₁.state x := by
  obtain ⟨val, hval⟩ := Option.ne_none_iff_exists'.1 h
  have h₁ := (hl.grows.seg x.seg ((inv_of v).lt_fresh hx)).node x.idx val hval
  exact fun he => absurd (h₁.symm.trans he) nofun

theorem Gone.later {x : Slot} (hx : x.seg ∈ v.state.line) (h : Gone v.state x) (hl : Later v v₁) :
    Gone v₁.state x :=
  ⟨h.1.later hx hl, (hl.grows.seg x.seg ((inv_of v).lt_fresh hx)).deleted x.idx h.2⟩

/-! ### `try_create_segment` -/

/-- The tail moves from a segment to the next one, unless others have moved it. -/
theorem tailCas_spec (ht : v.state.line[p]? = some t) (hn : v.state.line[p + 1]? = some n) :
    wp E.protocol c (tailCas t (some n)) (fun _ v' => Later v v') v := by
  unfold tailCas
  refine wp.cae (fun v₁ h₁ he _ => ?_) fun v₁ h₁ _ => .of_le h₁
  have ht₁ := (grows_of_le h₁).getElem? ht
  obtain rfl : v₁.state.chain.tailPos 0 = p := by
    refine (inv_of v₁).valid.pos_eq Nat.one_pos ?_
    rw [he]
    exact ht₁
  obtain ⟨hall, hk⟩ := setTail_allows ((grows_of_le h₁).getElem? hn)
  exact ⟨v₁.now.2, hall, .of_since ((Since.of_le h₁).trans (.step hk))⟩

theorem helpTail_spec (ht : v.state.line[p]? = some t) :
    wp E.protocol c (helpTail t) (fun _ v' => Later v v') v := by
  refine wp.read fun v₁ h₁ => ?_
  have ht₁ := (grows_of_le h₁).getElem? ht
  have hnext₁ := (inv_of v₁).valid.next Nat.one_pos ht₁
  split
  next => exact .of_le h₁
  next hne =>
    refine wp.read fun v₂ h₂ => ?_
    split
    next =>
      refine wp.read fun v₃ h₃ => ?_
      have h₀₃ := (h₁.trans h₂).trans h₃
      have ht₃ := (grows_of_le h₀₃).getElem? ht
      -- the successor is still there
      obtain ⟨n, hn⟩ := Option.ne_none_iff_exists'.1 hne
      have hn₃ := (grows_of_le (h₂.trans h₃)).getElem? (hnext₁.symm.trans hn)
      rw [(inv_of v₃).valid.next Nat.one_pos ht₃, hn₃]
      exact (tailCas_spec ht₃ hn₃).mono fun _ v₄ h₄ => (Later.of_le h₀₃).trans h₄
    next => exact .of_le (h₁.trans h₂)

theorem tryCreateSegment_spec (ht : BeforeTail t v.state)
    (hfull : ∀ i < size, Filled v.state ⟨t, i⟩) :
    wp E.protocol c (tryCreateSegment t) (fun _ v' => Later v v') v := by
  refine wp.update fun v₁ h₁ _ => ?_
  obtain ⟨hall₁, hk₁⟩ := create_allows (v := v₁)
  refine ⟨_, hall₁, ?_⟩
  set n := v₁.state.chain.cells.fresh with hn
  set v₂ := v₁.step _ _ hall₁.inv with hv₂
  have hs₂ : Since v v₂ := (Since.of_le h₁).trans (.step hk₁)
  have howner : v₂.now.2 n = .op c.op := Function.update_self ..
  have hfree : Unlinked 1 v₂.state.chain.cells n := .create (inv_of v₁).valid.lines _
  show wp E.protocol c (nextCas t n >>= fun done => if done then tailCas t (some n)
    else helpTail t) _ _
  simp only [nextCas, Prog.bind_assoc]
  refine wp.cae (fun v₃ h₃ hnone _ => ?_) fun v₃ h₃ _ => ?_
  · have hl₃ := (Later.of_since hs₂).trans (.of_le h₃)
    obtain ⟨p, hp, hle⟩ := ht.later hl₃
    obtain ⟨hfree₃, -⟩ := h₃.2.op.nodes.unlinked n howner.symm hfree
    have howner₃ := (h₃.2.op.nodes.owner n hfree.lt_fresh).trans howner
    have hfull₃ : v₃.state.Full size t := fun i hi => (hfull i hi).later ht.mem hl₃
    have hall := link_allows hp hle hnone hfull₃ hfree₃ howner₃
    refine ⟨v₃.now.2, hall, ?_⟩
    have hg : Grows Evolves 1 v₃.state.chain (v₃.step _ _ hall.inv).state.chain :=
      (inv_of v₃).valid.link_grows Evolves.refl 0 t n
    obtain ⟨-, hlast⟩ := (inv_of v₃).valid.tail_of_last Nat.one_pos hp hle hnone
    have hnew : (v₃.step _ _ hall.inv).state.line[p + 1]? = some n := by
      show ((v₃.state.chain.cells.append 0 (some t) n).line 0)[p + 1]? = some n
      rw [Cells.append_line, Function.update_self, hlast, List.getElem?_concat_length]
    have hl₄ : Later v (v₃.step _ _ hall.inv) := hl₃.trans ⟨hg, fun _ h => h, fun _ h => h,
      List.prefix_refl _⟩
    exact (tailCas_spec (hg.getElem? hp) hnew).mono fun _ v₅ h₅ => hl₄.trans h₅
  · have hl₃ := (Later.of_since hs₂).trans (.of_le h₃)
    obtain ⟨p, hp, -⟩ := ht.later hl₃
    exact (helpTail_spec hp).mono fun _ v₄ h₄ => hl₃.trans h₄

/-! ### `get_push_slot` -/

/-- A segment that was the tail, with a scan over its full slots. -/
def Pushing (size : ℕ) (l : Push) (k : ℕ) (s : Memory) : Prop :=
  BeforeTail l.currentSegment s ∧
    Scanned size (fun i => Filled s ⟨l.currentSegment, i⟩) (wrap size l.pushSlot) k

theorem Pushing.later {l : Push} (h : Pushing size l k v.state) (hl : Later v v₁) :
    Pushing size l k v₁.state :=
  ⟨h.1.later hl, h.2.mono fun _ _ hj => hj.later h.1.mem hl⟩

theorem wrap_lt (hsize : 0 < size) (i : ℕ) : wrap size i < size := by
  unfold wrap
  split <;> omega

/-- A scan that starts in the present tail. -/
theorem Pushing.start (hsize : 0 < size) {seg : ℕ} {s : Memory} (h : BeforeTail seg s) (i : ℕ) :
    Pushing size ⟨i, seg, k⟩ 0 s := ⟨h, .start (wrap_lt hsize i)⟩

/-- What a round of `get_push_slot` starts with, and what it ends with. -/
def PushRound (size : ℕ) (v : View E.protocol c) (r : Push ⊕ Slot) (v' : View E.protocol c) :
    Prop :=
  Later v v' ∧ Sum.elim (fun l => ∃ k, l.walkCount ≤ k + 1 ∧ Pushing size l k v'.state)
    (fun x => x.seg ∈ v'.state.line ∧ x.idx < size) r

theorem walkOn_spec (hsize : 0 < size) {l : Push} (hwalk : l.walkCount ≤ k)
    (h : Pushing size l k v.state) : wp E.protocol c (walkOn size l) (PushRound size v) v := by
  unfold walkOn
  split
  next hge =>
    -- the scan has seen all slots
    have hall := h.2.all_of_le (hge.trans hwalk)
    refine wp.bind_of (tryCreateSegment_spec h.1 hall) fun _ v₁ h₁ => ?_
    refine wp.read fun v₂ h₂ => ?_
    exact ⟨h₁.trans (.of_le h₂), 0, Nat.zero_le _, .start hsize (beforeTail_tail v₂) _⟩
  next => exact ⟨.of_le le_rfl, k, Nat.succ_le_succ hwalk, h⟩

theorem getPushSlotRound_spec (hsize : 0 < size) {l : Push} (hwalk : l.walkCount ≤ k + 1)
    (h : Pushing size l k v.state) :
    wp E.protocol c (getPushSlotRound size l) (PushRound size v) v := by
  refine wp.read fun v₁ h₁ => ?_
  have h' := h.later (.of_le h₁)
  split
  next => exact ⟨.of_le h₁, h'.1.mem, wrap_lt hsize _⟩
  next hfull =>
    refine wp.read fun v₂ h₂ => ?_
    have hl₂ := Later.of_le (h₁.trans h₂)
    split
    next =>
      have hhop : Pushing size { l with pushSlot := wrap size l.pushSlot + 1 } (k + 1) v₂.state :=
        Pushing.later (v := v₁) ⟨h'.1, h'.2.hop hfull⟩ (.of_le h₂)
      exact (walkOn_spec (l := { l with pushSlot := wrap size l.pushSlot + 1 }) hsize hwalk
        hhop).mono
        fun _ _ h₃ => ⟨hl₂.trans h₃.1, h₃.2⟩
    next =>
      refine wp.read fun v₃ h₃ => ?_
      have hl₃ := hl₂.trans (.of_le h₃)
      exact (walkOn_spec (k := 0) hsize le_rfl (.start hsize (beforeTail_tail v₃) _)).mono
        fun _ _ h₄ => ⟨hl₃.trans h₄.1, h₄.2⟩

theorem getPushSlot_spec (hsize : 0 < size) : wp E.protocol c (getPushSlot size)
    (fun x v' => Later v v' ∧ x.seg ∈ v'.state.line ∧ x.idx < size) v := by
  unfold getPushSlot randomSlot
  simp only [Prog.bind_assoc]
  refine wp.choose fun r v₁ h₁ => wp.read fun v₂ h₂ => ?_
  refine wp.forever (fun l v' => PushRound size v (.inl l) v')
    ⟨.of_le (h₁.trans h₂), 0, Nat.zero_le _, .start hsize (beforeTail_tail v₂) _⟩ fun l v₃ h₃ => ?_
  obtain ⟨hl₃, k, hwalk, hp⟩ := h₃
  refine (getPushSlotRound_spec hsize hwalk hp).mono ?_
  rintro (l' | x) v₄ h₄
  · exact ⟨hl₃.trans h₄.1, h₄.2⟩
  · exact ⟨hl₃.trans h₄.1, h₄.2⟩

/-! ### `queue_relaxed_insert` -/

/-- What an insertion that has filled a slot knows. -/
def Inserted (op : ℕ) (s : Memory) : Prop := (∃ y, (y, op) ∈ s.inserts) ∧ Untaken op s

/-- What a running insertion of `val` knows. -/
structure Inserts (val : ℤ) (v : View E.protocol c) : Prop where
  blank : Blank c.op v.state
  call : v.now.1.calls[c.op]? = some (.insert val)

theorem Inserts.later {val : ℤ} (h : Inserts val v) (hl : Later v v₁) : Inserts val v₁ :=
  ⟨h.blank.later hl, hl.calls.getElem?_of_some h.call⟩

theorem insertRound_spec (hsize : 0 < size) {val : ℤ} (hi : Inserts val v) :
    wp E.protocol c (insertRound c size val) (fun r v' => Sum.elim (fun _ => Inserts val v')
      (fun r => r = 1 ∧ Inserted c.op v'.state) r) v := by
  refine wp.bind_of (getPushSlot_spec hsize) fun x v₁ ⟨hl, hx, hidx⟩ => ?_
  have hi₁ := hi.later hl
  simp only [enqCae, Prog.bind_assoc]
  refine wp.cae (fun v₂ h₂ he _ => ?_) fun v₂ h₂ _ => hi₁.later (.of_le h₂)
  have hi₂ := hi₁.later (.of_le h₂)
  have hx₂ := ((grows_of_le h₂).line 0).mem hx
  have hall := insert_allows hx₂ hidx he hi₂.blank.1 hi₂.call
  exact ⟨v₂.now.2, hall, rfl, ⟨x, List.mem_append_right _ (List.mem_singleton_self _)⟩, hi₂.blank.2⟩

theorem queueRelaxedInsert_spec (hsize : 0 < size) {val : ℤ} (hi : Inserts val v) :
    wp E.protocol c (queueRelaxedInsert c size val)
      (fun r v' => r = 1 ∧ Inserted c.op v'.state) v :=
  wp.forever (fun _ v' => Inserts val v') hi fun _ _ h => insertRound_spec hsize h

/-! ### `get_pop_slot` -/

/-- A segment that was the head. Unless it has met an empty slot, the scan has seen used slots only.
-/
def Popping (size : ℕ) (l : Pop) (k : ℕ) (s : Memory) : Prop :=
  BeforeHead l.currentSegment s ∧ (l.pendingSlot = false →
    Scanned size (fun i => Gone s ⟨l.currentSegment, i⟩) (wrap size l.popSlot) k)

theorem Popping.later {l : Pop} (h : Popping size l k v.state) (hl : Later v v₁) :
    Popping size l k v₁.state :=
  ⟨h.1.later hl, fun hp => (h.2 hp).mono fun _ _ hj => hj.later h.1.mem hl⟩

/-- The last slot that was looked at has no item. -/
def Pop.Missed (l : Pop) : Prop := l.currentNode = none ∨ l.deletedNode = true

/-- What a round of `get_pop_slot` starts with. -/
def Pops (size : ℕ) (l : Pop) (s : Memory) : Prop :=
  (0 < l.walkCount → l.Missed) ∧
    ∃ k, (l.pendingSlot = false → l.walkCount ≤ k) ∧ Popping size l k s

/-- What `get_pop_slot` ends with: a slot with an item in a segment that was the head, or none. -/
def PopsAt (size : ℕ) (l : Pop) (s : Memory) : Prop :=
  l.Missed ∨ BeforeHead l.currentSegment s ∧ l.popSlot < size ∧
    l.currentNode = (s.index ⟨l.currentSegment, l.popSlot⟩).node

def PopRound (size : ℕ) (v : View E.protocol c) (r : Pop ⊕ Pop) (v' : View E.protocol c) : Prop :=
  Later v v' ∧ Sum.elim (fun l => Pops size l v'.state) (fun l => PopsAt size l v'.state) r

theorem look_spec (hsize : 0 < size) {l : Pop} (hwalk : l.pendingSlot = false → l.walkCount ≤ k + 1)
    (h : Popping size l k v.state) : wp E.protocol c (look size l) (PopRound size v) v := by
  refine wp.read fun v₁ h₁ => wp.read fun v₂ h₂ => ?_
  have hl₂ := Later.of_le (h₁.trans h₂)
  have hb₂ := h.1.later hl₂
  set x : Slot := ⟨l.currentSegment, wrap size l.popSlot⟩ with hx
  split
  next hfound =>
    -- the node of a full slot does not change
    refine ⟨hl₂, .inr ⟨hb₂, wrap_lt hsize _, ?_⟩⟩
    obtain ⟨val, hval⟩ := Option.ne_none_iff_exists'.1 hfound.1
    have hlt := (inv_of v₁).lt_fresh (h.1.later (.of_le h₁)).mem
    show (v₁.state.index x).node = (v₂.state.index x).node
    rw [hval]
    exact (((grows_of_le h₂).seg x.seg hlt).node x.idx val hval).symm
  next hnot =>
    have hmiss : (v₁.state.index x).node = none ∨ (v₂.state.index x).deleted = true := by
      by_cases hn : (v₁.state.index x).node = none
      · exact .inl hn
      · exact .inr (by simpa [hn] using hnot)
    refine wp.read fun v₃ h₃ => ?_
    have hl₃ := hl₂.trans (.of_le h₃)
    split
    next =>
      refine ⟨hl₃, fun _ => hmiss, k + 1, fun hp => hwalk ?_, hb₂.later (.of_le h₃), fun hp => ?_⟩
      · exact (Bool.or_eq_false_iff.1 hp).1
      · obtain ⟨hpend, hnode⟩ := Bool.or_eq_false_iff.1 hp
        have hnode : (v₁.state.index x).node ≠ none := of_decide_eq_false hnode
        have hfill : Filled v₂.state x := Filled.later (h.1.later (.of_le h₁)).mem hnode (.of_le h₂)
        have hgone : Gone v₂.state x := ⟨hfill, hmiss.resolve_left hnode⟩
        have hscan := ((h.later hl₂).2 hpend).hop hgone
        exact hscan.mono fun _ _ hj => hj.later hb₂.mem (.of_le h₃)
    next =>
      refine wp.read fun v₄ h₄ => ?_
      exact ⟨hl₃.trans (.of_le h₄), fun hlt => absurd hlt (lt_irrefl 0), 0, fun _ => le_rfl,
        beforeHead_head v₄, fun _ => .start (wrap_lt hsize _)⟩

/-- The head moves on from a segment in front of the tail whose items are all deleted. -/
theorem moveHead_spec (hsize : 0 < size) {l : Pop} (hp : v.state.line[p]? = some l.currentSegment)
    (hle : p ≤ v.state.headPos) (hlt : p < v.state.chain.tailPos 0)
    (hgone : ∀ i < size, Gone v.state ⟨l.currentSegment, i⟩) :
    wp E.protocol c (moveHead size l) (PopRound size v) v := by
  have hmem := List.mem_of_getElem? hp
  refine wp.read fun v₁ h₁ => ?_
  have hp₁ := (grows_of_le h₁).getElem? hp
  have hlt₁ : p < v₁.state.chain.tailPos 0 := hlt.trans_le ((grows_of_le h₁).tail 0 Nat.one_pos)
  have hlen := Nat.lt_of_le_of_lt hlt₁ ((inv_of v₁).valid.tailPos_lt Nat.one_pos)
  obtain ⟨n, hn⟩ : ∃ n, v₁.state.line[p + 1]? = some n := ⟨_, List.getElem?_eq_getElem hlen⟩
  rw [(inv_of v₁).valid.next Nat.one_pos hp₁, hn]
  have hcas : wp E.protocol c (headCas l.currentSegment (some n)) (fun _ v' => Later v v') v₁ := by
    refine wp.cae (fun v₂ h₂ he _ => ?_) fun v₂ h₂ _ => .of_le (h₁.trans h₂)
    have h₀₂ := Later.of_le (h₁.trans h₂)
    have hp₂ := h₀₂.grows.getElem? hp
    obtain rfl : v₂.state.headPos = p := by
      refine (inv_of v₂).valid.pos_eq Nat.one_pos ?_
      rw [he]
      exact hp₂
    have hused : v₂.state.Used size (v₂.state.chain.head 0) := fun i hi => by
      rw [he]
      exact ((hgone i hi).later hmem h₀₂).2
    obtain ⟨hall, hk⟩ := setHead_allows ((grows_of_le h₂).getElem? hn)
      (hlt₁.trans_le ((grows_of_le h₂).tail 0 Nat.one_pos)) hused
    exact ⟨v₂.now.2, hall, h₀₂.trans (.of_since (.step hk))⟩
  refine wp.bind_of hcas fun _ v₂ hl₂ => wp.read fun v₃ h₃ => ?_
  have hl₃ := hl₂.trans (.of_le h₃)
  exact (look_spec (k := 0) hsize (fun _ => Nat.zero_le _)
    ⟨beforeHead_head v₃, fun _ => .start (wrap_lt hsize _)⟩).mono
    fun _ _ h₄ => ⟨hl₃.trans h₄.1, h₄.2⟩

theorem getPopSlotRound_spec (hsize : 0 < size) {l : Pop} (h : Pops size l v.state) :
    wp E.protocol c (getPopSlotRound size l) (PopRound size v) v := by
  obtain ⟨hmiss, k, hwalk, hp⟩ := h
  unfold getPopSlotRound
  split
  next hge =>
    refine wp.read fun v₁ h₁ => ?_
    have hl₁ := Later.of_le h₁
    split
    next => exact ⟨hl₁, .inl (hmiss (hsize.trans_le hge))⟩
    next hne =>
      have hp₁ := hp.later hl₁
      split
      next hpend =>
        obtain ⟨p, hseg, hle⟩ := hp₁.1
        have hall := (hp₁.2 hpend).all_of_le (hge.trans (hwalk hpend))
        -- the segment is in front of the tail, which it is not
        have hlt : p < v₁.state.chain.tailPos 0 := by
          refine lt_of_le_of_ne (hle.trans (inv_of v₁).headTail) fun e => hne ?_
          have htail := (inv_of v₁).valid.getElem?_tail Nat.one_pos
          rw [← e] at htail
          exact Option.some.inj (hseg.symm.trans htail)
        exact (moveHead_spec hsize hseg hle hlt hall).mono fun _ _ h₂ => ⟨hl₁.trans h₂.1, h₂.2⟩
      next hpend =>
        exact (look_spec (k := k) hsize (fun e => absurd e hpend) hp₁).mono
          fun _ _ h₂ => ⟨hl₁.trans h₂.1, h₂.2⟩
  next =>
    exact look_spec (l := { l with walkCount := l.walkCount + 1 }) hsize
      (fun e => Nat.succ_le_succ (hwalk e)) hp

theorem getPopSlot_spec (hsize : 0 < size) : wp E.protocol c (getPopSlot size)
    (fun l v' => Later v v' ∧ PopsAt size l v'.state) v := by
  unfold getPopSlot randomSlot
  simp only [Prog.bind_assoc]
  refine wp.read fun v₁ h₁ => wp.choose fun r v₂ h₂ => ?_
  have hstart : Popping size ⟨r % size, v₁.state.chain.head 0, 0, false, none, false⟩ 0 v₂.state :=
    ⟨(beforeHead_head v₁).later (.of_le h₂), fun _ => .start (wrap_lt hsize _)⟩
  refine wp.forever (fun l v' => PopRound size v (.inl l) v')
    ⟨.of_le (h₁.trans h₂), fun hlt => absurd hlt (lt_irrefl 0), 0, fun _ => le_rfl, hstart⟩
    fun l v₃ h₃ => ?_
  refine (getPopSlotRound_spec hsize h₃.2).mono ?_
  rintro (l' | l') v₄ h₄
  · exact ⟨h₃.1.trans h₄.1, h₄.2⟩
  · exact ⟨h₃.1.trans h₄.1, h₄.2⟩

/-! ### `queue_relaxed_delete` -/

/-- The call `op` has deleted one item, of value `r`, or has found none and returns 0. -/
def Deleted (op : ℕ) (r : ℤ) (s : Memory) : Prop := Unplaced op s ∧
  (r = 0 ∧ Untaken op s ∨ ∃ y, (y, op) ∈ s.deletes ∧ (s.index y).node = some r)

theorem deleteRound_spec (hsize : 0 < size) (hb : Blank c.op v.state) :
    wp E.protocol c (deleteRound c size) (fun r v' => Sum.elim (fun _ => Blank c.op v'.state)
      (fun r => Deleted c.op r v'.state) r) v := by
  refine wp.bind_of (getPopSlot_spec hsize) fun l v₁ ⟨hl, hat⟩ => ?_
  have hb₁ := hb.later hl
  split
  next => exact ⟨hb₁.1, .inl ⟨rfl, hb₁.2⟩⟩
  next val hval =>
    split
    next => exact ⟨hb₁.1, .inl ⟨rfl, hb₁.2⟩⟩
    next hdel =>
      obtain ⟨hbefore, -, hnode⟩ := hat.resolve_left fun hm => by
        rcases hm with hm | hm
        · exact absurd (hval.symm.trans hm) nofun
        · exact hdel hm
      set x : Slot := ⟨l.currentSegment, l.popSlot⟩ with hx
      have hnode : (v₁.state.index x).node = some val := hnode.symm.trans hval
      simp only [deletedCas, Prog.bind_assoc]
      refine wp.cae (fun v₂ h₂ he _ => ?_) fun v₂ h₂ _ => hb₁.later (.of_le h₂)
      have hb₂ := hb₁.later (.of_le h₂)
      have hbefore₂ := hbefore.later (.of_le h₂)
      have hnode₂ := h₂.2.op.node ((inv_of v₁).lt_fresh hbefore.mem) hnode
      have hle : v₂.state.pos x ≤ v₂.state.headPos := by
        obtain ⟨p, hp, hle⟩ := hbefore₂
        exact ((inv_of v₂).valid.pos_eq Nat.one_pos hp).trans_le hle
      have hall := delete_allows hbefore₂.mem
        (fun e => absurd (hnode₂.symm.trans e) nofun) he hle hb₂.2
      refine ⟨v₂.now.2, hall, hb₂.1,
        .inr ⟨x, List.mem_append_right _ (List.mem_singleton_self _), ?_⟩⟩
      show ((v₂.state.delete c.op x).index x).node = some val
      rw [v₂.state.index_delete, if_pos rfl]
      exact hnode₂

theorem queueRelaxedDelete_spec (hsize : 0 < size) (hb : Blank c.op v.state) :
    wp E.protocol c (queueRelaxedDelete c size) (fun r v' => Deleted c.op r v'.state) v :=
  wp.forever (fun _ v' => Blank c.op v'.state) hb fun _ _ h => deleteRound_spec hsize h

end QueueKSegment
