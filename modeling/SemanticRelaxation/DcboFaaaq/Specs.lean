import SemanticRelaxation.DcboFaaaq.Steps

/-!
# The operations of the FAAArrayQueue partial queue

* `faaaqEnqueue_spec` and `faaaqDequeue_spec`: the two operations under interference;
* `Placed op q val x`: the call `op` has put `val` into queue `q`, not behind its tail;
* `Wasted w op x`: the call `op` has got slots at most that were empty, and has marked them;
* `Got w op q r x`: it has taken `r` from queue `q`, and marked all its slots;
* `Clear q s`: all slots up to the next one for an enqueue have been claimed.
-/

namespace DcboFaaaq

open AtomicProg Linked Segments

variable {L : Type} {S : Service Memory L} {w : ℕ} {puts : S.Call → ℕ → ℤ → Prop}
  {E : Results S (regime S.Call w puts)} {c : Caller} {v v₁ v₂ : View E.protocol c} {q p t n : ℕ}

/-- The call has put in nothing and has claimed nothing. -/
def Blank (w op : ℕ) (x : Memory × Ghost) : Prop := Unplaced op x ∧ Unclaimed w op x

theorem unclaimed_since (h : Since v v₁) (hu : Unclaimed w c.op v.pair) :
    Unclaimed w c.op v₁.pair :=
  fun q hq y hy => hu q hq y (h.frame.ownClaims _ rfl q y hy)

theorem blank_since (h : Since v v₁) (hb : Blank w c.op v.pair) : Blank w c.op v₁.pair :=
  ⟨h.frame.ownStored _ rfl hb.1, unclaimed_since h hb.2⟩

/-! ### `faaaq_enqueue` -/

/-- The call `op` has put `val` into queue `q`, and the tail is not in front of it. -/
def Placed (op q : ℕ) (val : ℤ) (x : Memory × Ghost) : Prop :=
  ∃ y, ∃ p : ℕ, x.1.stored y = some (op, val) ∧ (x.1.line q)[p]? = some y.seg ∧
    p ≤ x.1.chain.tailPos q

theorem Placed.later {op : ℕ} {val : ℤ} {o : Owner} {x x' : Memory × Ghost} (hq : q < w)
    (hk : Kept w o x x') (h : Placed op q val x) : Placed op q val x' := by
  obtain ⟨y, p, hy, hp, hle⟩ := h
  exact ⟨y, p, hk.stored y _ hy, hk.nodes.grows.getElem? hp, hle.trans (hk.nodes.grows.tail q hq)⟩

/-- The segment that was read as the tail. -/
theorem read_tail (hq : q < w) (v : View E.protocol c) :
    (v.state.line q)[v.state.chain.tailPos q]? = some (v.state.chain.tail q) :=
  (inv_of v).valid.getElem?_tail hq

/-- The successor of a segment of the line. -/
theorem read_next (hq : q < w) (ht : (v.state.line q)[p]? = some t) :
    (v.state.chain.cells.heap t).next = (v.state.line q)[p + 1]? := (inv_of v).valid.next hq ht

theorem tailPos_of_le (hq : q < w) (h : v ≤ v₁) (hle : p ≤ v.state.chain.tailPos q) :
    p ≤ v₁.state.chain.tailPos q := hle.trans ((grows_of_le h).tail q hq)

theorem enqIdx_of_le (h : v ≤ v₁) (hq : q < w) (ht : (v.state.line q)[p]? = some t) :
    (v.state.seg t).enqIdx ≤ (v₁.state.seg t).enqIdx :=
  ((grows_of_le h).seg t ((inv_of v).lt_fresh hq ht)).enqIdx

/-- The tail moves from the segment at `p` to the next one, unless others have moved it. -/
theorem tailCae_spec (hq : q < w) (ht : (v.state.line q)[p]? = some t)
    (hn : (v.state.line q)[p + 1]? = some n) (hle : p ≤ v.state.chain.tailPos q) :
    wp E.protocol c (tailCae q t n) (fun _ v' => Since v v' ∧
      p + 1 ≤ v'.state.chain.tailPos q) v := by
  unfold tailCae
  refine wp.cae (fun v₁ h₁ he _ => ?_) fun v₁ h₁ hne => ?_
  · have ht₁ := (grows_of_le h₁).getElem? ht
    obtain rfl : v₁.state.chain.tailPos q = p := by
      refine (inv_of v₁).valid.pos_eq hq ?_
      rw [he]
      exact ht₁
    have hn₁ := (grows_of_le h₁).getElem? hn
    obtain ⟨hall, hk⟩ := setTail_allows hq hn₁
    refine ⟨v₁.now.2, hall, (Since.of_le h₁).trans (.step hk), ?_⟩
    show _ ≤ (v₁.state.chain.setTail q n).tailPos q
    rw [(inv_of v₁).valid.setTail_pos hq hn₁, if_pos rfl]
  · refine ⟨.of_le h₁, Nat.lt_of_le_of_ne (tailPos_of_le hq h₁ hle) fun e => hne ?_⟩
    have ht₁ := read_tail hq v₁
    rw [← e] at ht₁
    exact Option.some.inj (ht₁.symm.trans ((grows_of_le h₁).getElem? ht))

/-- The segment `n` of the running call is not linked yet. -/
structure Mine (w op n : ℕ) (seg : Segment) (x : Memory × Ghost) : Prop where
  owner : x.2.1 n = .op op
  unlinked : Unlinked w x.1.chain.cells n
  seg : x.1.seg n = seg

theorem Mine.since {seg : Segment} (hn : Mine w c.op n seg v.pair) (h : Since v v₁) :
    Mine w c.op n seg v₁.pair := by
  obtain ⟨h₁, h₂⟩ := h.frame.nodes.unlinked n hn.owner.symm hn.unlinked
  exact ⟨(h.frame.nodes.owner n hn.unlinked.lt_fresh).trans hn.owner, h₁, h₂.trans hn.seg⟩

/-- The segment that `createSegment` makes. -/
def newSegment (val : ℤ) (nodeIdx : ℕ) : Segment :=
  ⟨1, 0, nodeIdx, fun i => if i = 0 then val else Dcbo.EMPTY⟩

theorem createSegment_spec (val : ℤ) (nodeIdx : ℕ) :
    wp E.protocol c (createSegment val nodeIdx)
      (fun n v' => Since v v' ∧ Mine w c.op n (newSegment val nodeIdx) v'.pair) v := by
  intro v₁ h₁ _ _
  obtain ⟨hall, hk⟩ := create_allows (v := v₁) (newSegment val nodeIdx)
  exact ⟨_, hall, (Since.of_le h₁).trans (.step hk), Function.update_self ..,
    .create (inv_of v₁).valid.lines _, v₁.state.chain.create_seg_self _⟩

/-- What an enqueue of `val` into queue `q` needs. -/
structure Enqueues (puts : S.Call → ℕ → ℤ → Prop) (w q : ℕ) (val : ℤ) (v : View E.protocol c) :
    Prop where
  queue : q < w
  ne_empty : val ≠ Dcbo.EMPTY
  ne_taken : val ≠ TAKEN
  call : ∃ call, v.now.1.calls[c.op]? = some call ∧ puts call q val
  blank : Blank w c.op v.pair

variable {val : ℤ}

theorem Enqueues.since (h : Enqueues puts w q val v) (hs : Since v v₁) :
    Enqueues puts w q val v₁ := by
  obtain ⟨call, hc, hp⟩ := h.call
  exact ⟨h.queue, h.ne_empty, h.ne_taken, ⟨call, hs.call hc, hp⟩, blank_since hs h.blank⟩

/-- What an enqueue that has put its item in knows. -/
def Enqueued (w q : ℕ) (val : ℤ) (v : View E.protocol c) : Prop :=
  Placed c.op q val v.pair ∧ Unclaimed w c.op v.pair

theorem Enqueued.since (hq : q < w) (h : Enqueued w q val v) (hs : Since v v₁) :
    Enqueued w q val v₁ := ⟨h.1.later hq hs.frame, unclaimed_since hs h.2⟩

/-- The floor of the call is kept. -/
theorem floor_since {F : ℕ} (hF : v.now.2.2 q c.op = some F) (hs : Since v v₁) :
    v₁.now.2.2 q c.op = some F := hs.frame.floor q _ F hF

theorem appendSegment_spec (he : Enqueues puts w q val v) (ht : (v.state.line q)[p]? = some t)
    (hle : p ≤ v.state.chain.tailPos q) (hfull : bufferSize ≤ (v.state.seg t).enqIdx)
    {F : ℕ} (hF : v.now.2.2 q c.op = some F) :
    wp E.protocol c (appendSegment c q t val) (fun r v' => Sum.elim
      (fun _ => Enqueues puts w q val v') (fun _ => Enqueued w q val v') r) v := by
  have hq := he.queue
  refine wp.read fun v₁ h₁ => ?_
  have hidx : (v₁.state.seg t).nodeIdx = p :=
    (inv_of v₁).nodeIdx q hq p t ((grows_of_le h₁).getElem? ht)
  rw [hidx]
  refine wp.bind_of (createSegment_spec val (p + 1)) fun n v₂ ⟨h₂, hn⟩ => ?_
  have hs₂ := (Since.of_le h₁).trans h₂
  simp only [nextCae, Prog.bind_assoc]
  refine wp.cae (fun v₃ h₃ hnone _ => ?_) fun v₃ h₃ _ => he.since (hs₂.trans (.of_le h₃))
  have hs₃ := hs₂.trans (.of_le h₃)
  have he₃ := he.since hs₃
  have hn₃ := hn.since (.of_le h₃)
  obtain ⟨call, hcall, hputs⟩ := he₃.call
  have ht₃ := (grows_since hs₃).getElem? ht
  have hle₃ : p ≤ v₃.state.chain.tailPos q := hle.trans ((grows_since hs₃).tail q hq)
  have hfull₃ : bufferSize ≤ (v₃.state.seg t).enqIdx :=
    hfull.trans ((grows_since hs₃).seg t ((inv_of v).lt_fresh hq ht)).enqIdx
  have hall := link_allows hq ht₃ hle₃ hnone hfull₃ hn₃.unlinked hn₃.owner hn₃.seg he.ne_empty
    he.ne_taken (floor_since hF hs₃) he₃.blank.1 hcall hputs
  refine ⟨v₃.now.2, hall, ?_⟩
  obtain ⟨-, hlast⟩ := (inv_of v₃).valid.tail_of_last hq ht₃ hle₃ hnone
  have hg : Grows Evolves w v₃.state.chain (v₃.step _ _ hall.inv).state.chain :=
    (inv_of v₃).valid.link_grows Evolves.refl q t n
  have hnew : ((v₃.step _ _ hall.inv).state.line q)[p + 1]? = some n := by
    show (Function.update v₃.state.chain.cells.line q
      (v₃.state.chain.cells.line q ++ [n]) q)[p + 1]? = _
    rw [Function.update_self, hlast, List.getElem?_concat_length]
  show wp E.protocol c (tailCae q t n >>= fun _ => .ret (.inr 1 : Unit ⊕ ℤ)) _ _
  refine wp.bind_of (tailCae_spec hq (hg.getElem? ht₃) hnew (hle₃.trans (hg.tail q hq)))
    fun _ v₄ ⟨h₄, hle₄⟩ => ?_
  refine ⟨⟨⟨n, 0⟩, p + 1, h₄.frame.stored _ _ (Function.update_self ..),
    (grows_since h₄).getElem? hnew, hle₄⟩, unclaimed_since h₄ he₃.blank.2⟩

theorem leaveSegment_spec (he : Enqueues puts w q val v) (ht : (v.state.line q)[p]? = some t)
    (hle : p ≤ v.state.chain.tailPos q) (hfull : bufferSize ≤ (v.state.seg t).enqIdx)
    {F : ℕ} (hF : v.now.2.2 q c.op = some F) :
    wp E.protocol c (leaveSegment c q t val) (fun r v' => Sum.elim
      (fun _ => Enqueues puts w q val v') (fun _ => Enqueued w q val v') r) v := by
  have hq := he.queue
  refine wp.read fun v₁ h₁ => ?_
  split
  next => exact he.since (.of_le h₁)
  next =>
    refine wp.read fun v₂ h₂ => ?_
    have h₀₂ := h₁.trans h₂
    have ht₂ := (grows_of_le h₀₂).getElem? ht
    have hle₂ := tailPos_of_le hq h₀₂ hle
    split
    next hnext =>
      exact appendSegment_spec (he.since (.of_le h₀₂)) ht₂ hle₂
        (hfull.trans (enqIdx_of_le h₀₂ hq ht)) (floor_since hF (.of_le h₀₂))
    next n hnext =>
      have hn : (v₂.state.line q)[p + 1]? = some n := (read_next hq ht₂).symm.trans hnext
      exact wp.bind_of (tailCae_spec hq ht₂ hn hle₂) fun _ v₃ h₃ =>
        he.since ((Since.of_le h₀₂).trans h₃.1)

theorem faaaqEnqueueRound_spec (he : Enqueues puts w q val v) :
    wp E.protocol c (faaaqEnqueueRound c q val) (fun r v' => Sum.elim
      (fun _ => Enqueues puts w q val v') (fun _ => Enqueued w q val v') r) v := by
  have hq := he.queue
  refine wp.read fun v₁ h₁ => wp.update fun v₂ h₂ _ => ?_
  have hs := Since.of_le (h₁.trans h₂)
  have he₂ := he.since hs
  have ht₂ := (grows_of_le h₂).getElem? (read_tail hq v₁)
  have hle₂ := tailPos_of_le hq h₂ le_rfl
  obtain ⟨hall, hk⟩ := fetchAddEnq_allows hq ht₂
  refine ⟨_, hall, ?_⟩
  -- the step takes an index, and nothing else
  have hk := hk (.thread c.thread) nofun
  have henq : ((v₂.step _ _ hall.inv).state.seg (v₁.state.chain.tail q)).enqIdx =
      (v₂.state.seg (v₁.state.chain.tail q)).enqIdx + 1 :=
    congrArg Segment.enqIdx (v₂.state.chain.modify_self (v₁.state.chain.tail q) nextEnq)
  have he₃ : Enqueues puts w q val (v₂.step _ _ hall.inv) :=
    ⟨hq, he.ne_empty, he.ne_taken, he₂.call, he₂.blank⟩
  have hfloor : ∃ F, setFloor v₂.now.2.2 q c.op (v₂.state.enqPos q) q c.op = some F ∧
      F ≤ v₂.state.enqPos q := exists_setFloor fun G hG => (inv_of v₂).floor q hq c.op G hG
  have ht₃ := hk.nodes.grows.getElem? ht₂
  have hle₃ := hle₂.trans (hk.nodes.grows.tail q hq)
  have hpos : 0 < bufferSize := by decide
  obtain ⟨F, hF, hFle⟩ := hfloor
  split
  next hidx =>
    refine leaveSegment_spec he₃ ht₃ hle₃ (le_trans ?_ henq.ge) hF
    omega
  next hidx =>
    have hlt : (v₂.state.seg (v₁.state.chain.tail q)).enqIdx < bufferSize := by omega
    obtain ⟨-, hslot⟩ := (inv_of v₂).tail_of_enqIdx hq ht₂ hle₂ hlt
    simp only [enqCae, Prog.bind_assoc]
    refine wp.cae (fun v₄ h₄ hempty _ => ?_) fun v₄ h₄ _ => he₃.since (.of_le h₄)
    have he₄ := he₃.since (.of_le h₄)
    obtain ⟨call, hcall, hputs⟩ := he₄.call
    have ht₄ := (grows_of_le h₄).getElem? ht₃
    have henq₄ := henq.ge.trans (enqIdx_of_le h₄ hq ht₃)
    have hall₄ := put_allows (y := ⟨v₁.state.chain.tail q, _⟩) hq ht₄ hlt hempty henq₄ he.ne_empty
      he.ne_taken (floor_since hF (.of_le h₄)) (hFle.trans hslot.le) he₄.blank.1 hcall hputs
    refine ⟨v₄.now.2, hall₄, ⟨⟨_, _⟩, v₁.state.chain.tailPos q, Function.update_self .., ht₄, ?_⟩,
      he₄.blank.2⟩
    show _ ≤ v₄.state.chain.tailPos q
    exact tailPos_of_le hq h₄ hle₃

/-- `faaaq_enqueue`: it returns with its item put in. -/
theorem faaaqEnqueue_spec (he : Enqueues puts w q val v) :
    wp E.protocol c (faaaqEnqueue c q val) (fun _ v' => Enqueued w q val v') v := by
  refine wp.forever (fun _ v' => Enqueues puts w q val v') he fun _ v₁ he₁ => ?_
  refine (faaaqEnqueueRound_spec he₁).mono ?_
  rintro (_ | r) v₂ h₂
  · exact h₂
  · exact h₂

/-! ### `faaaq_dequeue` -/

/-- All slots that the call `op` has claimed, but for `y`, were empty and are marked. -/
def WastedBut (w op : ℕ) (y : Option Slot) (x : Memory × Ghost) : Prop := Unplaced op x ∧
  ∀ q < w, ∀ z, (z, op) ∈ x.1.claims q → some z ≠ y → x.1.item z = TAKEN ∧ x.1.stored z = none

/-- The call `op` has claimed slots at most that were empty, and has marked them. -/
abbrev Wasted (w op : ℕ) (x : Memory × Ghost) : Prop := WastedBut w op none x

/-- The call `op` has taken `r` from queue `q`, and nothing else. -/
def Got (w op q : ℕ) (r : ℤ) (x : Memory × Ghost) : Prop :=
  ∃ y e, (y, op) ∈ x.1.claims q ∧ x.1.stored y = some (e, r) ∧ x.1.item y = TAKEN ∧
    WastedBut w op (some y) x

/-- All slots that the call `op` has claimed are marked. -/
def Settled (w op : ℕ) (x : Memory × Ghost) : Prop :=
  ∀ q < w, ∀ z, (z, op) ∈ x.1.claims q → x.1.item z = TAKEN

/-- A slot that has been claimed is one of a segment of the queue. -/
theorem claimed_lt {s : Memory} {f : ℕ → ℕ → Option ℕ} (hi : Inv w s f) (hq : q < w) {z : Slot}
    {op : ℕ} (hz : (z, op) ∈ s.claims q) : z.seg < s.chain.cells.fresh := by
  obtain ⟨k, hk⟩ := List.mem_iff_getElem?.1 hz
  exact hi.lt_fresh hq (hi.claims q hq k z op hk).2

theorem WastedBut.kept {op : ℕ} {y : Option Slot} {x x' : Memory × Ghost} (hi : Inv w x.1 x.2.2)
    (hk : Kept w (.op op) x x') (h : WastedBut w op y x) : WastedBut w op y x' := by
  refine ⟨hk.ownStored op rfl h.1, fun q hq z hz hne => ?_⟩
  have hz := hk.ownClaims op rfl q z hz
  obtain ⟨ht, hnone⟩ := h.2 q hq z hz hne
  have hlt := claimed_lt hi hq hz
  exact ⟨hk.marked hlt ht, hk.unstored z hlt hnone ht⟩

theorem Got.kept {op : ℕ} {r : ℤ} {x x' : Memory × Ghost} (hq : q < w) (hi : Inv w x.1 x.2.2)
    (hk : Kept w (.op op) x x') (h : Got w op q r x) : Got w op q r x' := by
  obtain ⟨y, e, hy, hs, ht, hrest⟩ := h
  exact ⟨y, e, (hk.claims q).mem hy, hk.stored y _ hs, hk.marked (claimed_lt hi hq hy) ht,
    hrest.kept hi hk⟩

theorem Settled.kept {op : ℕ} {x x' : Memory × Ghost} (hi : Inv w x.1 x.2.2)
    (hk : Kept w (.op op) x x') (h : Settled w op x) : Settled w op x' := fun q hq z hz => by
  have hz := hk.ownClaims op rfl q z hz
  exact hk.marked (claimed_lt hi hq hz) (h q hq z hz)

theorem Wasted.settled {op : ℕ} {x : Memory × Ghost} (h : Wasted w op x) : Settled w op x :=
  fun q hq z hz => (h.2 q hq z hz nofun).1

theorem Got.settled {op : ℕ} {r : ℤ} {x : Memory × Ghost} (h : Got w op q r x) :
    Settled w op x := by
  obtain ⟨y, e, -, -, ht, hrest⟩ := h
  intro j hj z hz
  by_cases hzy : z = y
  · exact hzy ▸ ht
  · exact (hrest.2 j hj z hz fun e => hzy (Option.some.inj e)).1

/-- All slots up to the next one for an enqueue have been claimed. -/
def Clear (q : ℕ) (s : Memory) : Prop := s.enqPos q ≤ (s.claims q).length

/-- The queues have grown from `s` to `s'`. -/
structure Grown (w : ℕ) (s s' : Memory) : Prop where
  chain : Grows Evolves w s.chain s'.chain
  claims : ∀ q, s.claims q <+: s'.claims q
  enqPos : ∀ q < w, s.enqPos q ≤ s'.enqPos q

theorem Kept.grown {o : Owner} {x x' : Memory × Ghost} (h : Kept w o x x') : Grown w x.1 x'.1 :=
  ⟨h.nodes.grows, h.claims, h.enqPos⟩

theorem Grown.refl (s : Memory) : Grown w s s :=
  ⟨.refl Evolves.refl s.chain, fun _ => List.prefix_refl _, fun _ _ => le_rfl⟩

theorem Grown.trans {s s' s'' : Memory} (h : Grown w s s') (h' : Grown w s' s'') : Grown w s s'' :=
  ⟨h.chain.trans Evolves.trans h'.chain, fun q => (h.claims q).trans (h'.claims q),
    fun q hq => (h.enqPos q hq).trans (h'.enqPos q hq)⟩

/-- While the next slot for an enqueue stays, a queue that is clear stays clear. -/
theorem Clear.grown {s s' : Memory} (hg : Grown w s s') (he : s'.enqPos q ≤ s.enqPos q)
    (h : Clear q s) : Clear q s' :=
  he.trans (le_trans h (hg.claims q).length_le)

/-- The worlds of `v` are worlds of `v'`, and the queues have grown since. -/
structure Later (v v' : View E.protocol c) : Prop where
  seen : v.seen ⊆ v'.seen
  grown : Grown w v.state v'.state

theorem later_since (h : Since v v₁) : Later v v₁ := ⟨h.seen, h.frame.grown⟩

theorem Later.trans (h₁ : Later v v₁) (h₂ : Later v₁ v₂) : Later v v₂ :=
  ⟨h₁.seen.trans h₂.seen, h₁.grown.trans h₂.grown⟩

/-- What a dequeue that has returned `r` knows of queue `q`. -/
def Dequeued (w q : ℕ) (v : View E.protocol c) (r : ℤ) (v' : View E.protocol c) : Prop :=
  Later v v' ∧ (r ≠ Dcbo.EMPTY ∧ Got w c.op q r v'.pair ∨ r = Dcbo.EMPTY ∧ Wasted w c.op v'.pair ∧
    (v.state.enqPos q = v'.state.enqPos q → Clear q v'.state))

theorem Dequeued.of_later (hq : q < w) {r : ℤ} (h : Later v v₁) (hd : Dequeued w q v₁ r v₂) :
    Dequeued w q v r v₂ := by
  refine ⟨h.trans hd.1, hd.2.imp_right fun ⟨he, hw, hc⟩ => ⟨he, hw, fun heq => hc ?_⟩⟩
  exact le_antisymm (hd.1.grown.enqPos q hq) (heq ▸ h.grown.enqPos q hq)

/-- The queue is clear if its last segment has been the head once and dequeues have got the slots
that enqueues have got. -/
theorem clear_of_last (hq : q < w) (ht : (v.state.line q)[p]? = some t)
    (hnone : (v.state.chain.cells.heap t).next = none) (hle : p ≤ v.state.chain.headPos q)
    (hidx : v.state.chain.tailPos q = p →
      min (v.state.seg t).enqIdx bufferSize ≤ min (v.state.seg t).deqIdx bufferSize) :
    Clear q v.state := by
  have hi := inv_of v
  have hlast : p + 1 = (v.state.line q).length := hi.valid.lines.last hq ht hnone
  have hclaimed := hi.claimed q hq p t ht
  have hhead := (hi.head q hq).1
  have hmul := Nat.mul_le_mul_left bufferSize hle
  have hnear := hi.valid.near q hq
  show v.state.enqPos q ≤ (v.state.claims q).length
  unfold Memory.enqPos
  have hlast' : p + 1 = (v.state.chain.cells.line q).length := hlast
  rcases (show v.state.chain.tailPos q = p ∨ v.state.chain.tailPos q + 1 = p by omega) with
    htail | htail
  · have hseg : v.state.chain.tail q = t := by
      have h₁ := read_tail hq v
      rw [htail] at h₁
      exact Option.some.inj (h₁.symm.trans ht)
    have hidx := hidx htail
    rw [hseg, htail]
    omega
  · have := Nat.mul_add_one bufferSize (v.state.chain.tailPos q)
    rw [htail] at this
    omega

theorem readIndices_spec {Q : ℕ × ℕ → View E.protocol c → Prop}
    (h : ∀ v₁ v₂ v₃ : View E.protocol c, v ≤ v₁ → v ≤ v₂ → v₁ ≤ v₃ → v₂ ≤ v₃ →
      Q ((v₁.state.seg n).deqIdx, (v₂.state.seg n).enqIdx) v₃) :
    wp E.protocol c (readIndices n) Q v := by
  refine wp.choose fun k v₀ h₀ => ?_
  split
  · refine wp.read fun v₁ h₁ => wp.read fun v₂ h₂ => ?_
    exact h v₁ v₂ v₂ (h₀.trans h₁) (h₀.trans (h₁.trans h₂)) h₂ le_rfl
  · refine wp.read fun v₁ h₁ => wp.read fun v₂ h₂ => ?_
    exact h v₂ v₁ v₂ (h₀.trans (h₁.trans h₂)) (h₀.trans h₁) le_rfl h₂

/-- If there is nothing left in a segment that has been the head, and it is the last one, then the
queue is clear unless the next slot for an enqueue has changed meanwhile. -/
theorem noneLeft_spec (hq : q < w) (ht : (v.state.line q)[p]? = some t)
    (hle : p ≤ v.state.chain.headPos q) :
    wp E.protocol c (noneLeft t) (fun b v' => Since v v' ∧
      (b = true → v.state.enqPos q = v'.state.enqPos q → Clear q v'.state)) v := by
  refine wp.bind (readIndices_spec fun v₁ v₂ v₃ h₁ h₂ h₁₃ h₂₃ => ?_)
  have h₃ := h₂.trans h₂₃
  dsimp only
  split
  next hge =>
    refine wp.read fun v₄ h₄ => ?_
    refine ⟨.of_le (h₃.trans h₄), fun hb heq => ?_⟩
    have hnone := of_decide_eq_true hb
    have hg₂₄ := (Since.of_le (h₂₃.trans h₄)).frame.grown
    have hpos : v₂.state.enqPos q = v₄.state.enqPos q := by
      have := (Since.of_le h₂).frame.grown.enqPos q hq
      exact le_antisymm (hg₂₄.enqPos q hq) (heq ▸ this)
    have ht₂ := (grows_of_le h₂).getElem? ht
    have ht₄ := hg₂₄.chain.getElem? ht₂
    refine clear_of_last hq ht₄ hnone (hle.trans ((grows_of_le (h₃.trans h₄)).head q hq))
      fun htail => ?_
    have hdeq : (v₁.state.seg t).deqIdx ≤ (v₄.state.seg t).deqIdx :=
      ((grows_of_le (h₁₃.trans h₄)).seg t
        ((inv_of v₁).lt_fresh hq ((grows_of_le h₁).getElem? ht))).deqIdx
    have hseg₄ : v₄.state.chain.tail q = t := by
      have h := read_tail hq v₄
      rw [htail] at h
      exact Option.some.inj (h.symm.trans ht₄)
    have hle₂ : v₂.state.chain.tailPos q ≤ p := htail ▸ hg₂₄.chain.tail q hq
    simp only [Memory.enqPos, hseg₄, htail] at hpos
    rcases hle₂.lt_or_eq with hlt | heq₂
    · have := Nat.mul_le_mul_left bufferSize hlt
      rw [Nat.mul_succ] at this
      omega
    · have hseg₂ : v₂.state.chain.tail q = t := by
        have h := read_tail hq v₂
        rw [heq₂] at h
        exact Option.some.inj (h.symm.trans ht₂)
      rw [hseg₂, heq₂] at hpos
      have hge : (v₂.state.seg t).enqIdx ≤ (v₁.state.seg t).deqIdx := hge
      omega
  next => exact ⟨.of_le h₃, by intros; contradiction⟩

/-- The head moves on to the next segment if all slots have been claimed; without a next segment the
queue is clear. -/
theorem nextSegment_spec (hq : q < w) (ht : (v.state.line q)[p]? = some t)
    (hle : p ≤ v.state.chain.headPos q) (hfull : bufferSize ≤ (v.state.seg t).deqIdx) :
    wp E.protocol c (nextSegment q t) (fun r v' => Since v v' ∧
      ∀ x, r = .inr x → x = Dcbo.EMPTY ∧ Clear q v'.state) v := by
  refine wp.read fun v₁ h₁ => ?_
  have ht₁ := (grows_of_le h₁).getElem? ht
  have hfull₁ : bufferSize ≤ (v₁.state.seg t).deqIdx :=
    hfull.trans ((grows_of_le h₁).seg t ((inv_of v).lt_fresh hq ht)).deqIdx
  split
  next hnone =>
    refine ⟨.of_le h₁, ?_⟩
    rintro x ⟨⟩
    refine ⟨rfl, clear_of_last hq ht₁ hnone (hle.trans ((grows_of_le h₁).head q hq)) fun _ => ?_⟩
    omega
  next n hnext =>
    simp only [headCae, Prog.bind_assoc]
    refine wp.cae (fun v₂ h₂ he _ => ?_) fun v₂ h₂ _ => ⟨.of_le (h₁.trans h₂), nofun⟩
    have ht₂ := (grows_of_le h₂).getElem? ht₁
    have hn₂ := (grows_of_le h₂).getElem? ((read_next hq ht₁).symm.trans hnext)
    have hpos : v₂.state.chain.headPos q = p := by
      refine (inv_of v₂).valid.pos_eq hq ?_
      rw [he]
      exact ht₂
    have hfull₂ : bufferSize ≤ (v₂.state.seg t).deqIdx :=
      hfull₁.trans ((grows_of_le h₂).seg t ((inv_of v₁).lt_fresh hq ht₁)).deqIdx
    have hcl := (inv_of v₂).claimed_of_deqIdx hq ht₂ hfull₂
    obtain ⟨hall, hk⟩ := setHead_allows (v := v₂) (q := q) (n := n) hq (by rw [hpos]; exact hn₂)
      (by rw [hpos, Nat.mul_add_one]; exact hcl)
    exact ⟨v₂.now.2, hall, (Since.of_le (h₁.trans h₂)).trans (.step hk), nofun⟩

/-- A fetch-and-add on the `deq_idx` of the segment `t` at position `p`: the call has got a new
slot, or there is none left. -/
theorem claim_wasted (hq : q < w) (ht : (v.state.line q)[p]? = some t)
    (hle : p ≤ v.state.chain.headPos q) (hw : Wasted w c.op v.pair) :
    bufferSize ≤ (v.state.seg t).deqIdx ∧
        Wasted w c.op (v.state.claim c.op q t, v.now.2) ∨
      (v.state.seg t).deqIdx < bufferSize ∧
        WastedBut w c.op (some ⟨t, (v.state.seg t).deqIdx⟩) (v.state.claim c.op q t, v.now.2) ∧
        (⟨t, (v.state.seg t).deqIdx⟩, c.op) ∈ (v.state.claim c.op q t).claims q ∧
        (v.state.claim c.op q t).item ⟨t, (v.state.seg t).deqIdx⟩ ≠ TAKEN := by
  have hitem : ∀ z, (v.state.claim c.op q t).item z = v.state.item z := fun z =>
    modify_items (f := nextDeq) (fun _ => rfl) z
  have hcl := v.state.claim_cases c.op q t
  rcases Nat.lt_or_ge (v.state.seg t).deqIdx bufferSize with hlt | hge
  · refine .inr ⟨hlt, ⟨hw.1, fun j hj z hz hne => ?_⟩, ?_, ?_⟩
    · have hz : (z, c.op) ∈ (v.state.claim c.op q t).claims j := hz
      have hold : (z, c.op) ∈ v.state.claims j := by
        rcases hcl j with ⟨he, -⟩ | ⟨rfl, -, he⟩
        · rwa [he] at hz
        · rw [he] at hz
          refine (List.mem_append.1 hz).resolve_right fun hz => hne ?_
          exact congrArg some (Prod.mk.inj (List.mem_singleton.1 hz)).1
      obtain ⟨h₁, h₂⟩ := hw.2 j hj z hold nofun
      exact ⟨(hitem z).trans h₁, h₂⟩
    · rcases hcl q with ⟨-, hge⟩ | ⟨-, -, he⟩
      · exact absurd (hge rfl) (not_le.2 hlt)
      · rw [he]
        exact List.mem_append_right _ (List.mem_singleton_self _)
    · rw [hitem]
      intro hmark
      have hslot := (inv_of v).slots q hq p t ht _ hlt
      obtain ⟨hlen, -⟩ := (inv_of v).head_of_deqIdx hq ht hle hlt
      have := hslot.taken hmark
      omega
  · refine .inl ⟨hge, hw.1, fun j hj z hz _ => ?_⟩
    have hz : (z, c.op) ∈ (v.state.claim c.op q t).claims j := hz
    rcases hcl j with ⟨he, -⟩ | ⟨-, hlt, -⟩
    · rw [he] at hz
      obtain ⟨h₁, h₂⟩ := hw.2 j hj z hz nofun
      exact ⟨(hitem z).trans h₁, h₂⟩
    · exact absurd hge (not_le.2 hlt)

/-- The call marks the slot `y` it has claimed last: it has taken a value, or the slot was empty. -/
theorem swap_got (hq : q < w) {y : Slot} (hy : (y, c.op) ∈ v.state.claims q)
    (hw : WastedBut w c.op (some y) v.pair) (hne : v.state.item y ≠ TAKEN) :
    v.state.item y ≠ Dcbo.EMPTY ∧
        Got w c.op q (v.state.item y) (v.state.setItem y TAKEN, v.now.2) ∨
      v.state.item y = Dcbo.EMPTY ∧ Wasted w c.op (v.state.setItem y TAKEN, v.now.2) := by
  obtain ⟨k, hk⟩ := List.mem_iff_getElem?.1 hy
  obtain ⟨-, hn⟩ := (inv_of v).claims q hq k y c.op hk
  obtain ⟨hidx, -⟩ := (inv_of v).number_of_claim hq hk hn
  have hslot := (inv_of v).slots q hq _ y.seg hn y.idx hidx
  have hitem : ∀ z, (v.state.setItem y TAKEN).item z = if z = y then TAKEN else v.state.item z :=
    fun z => v.state.item_setItem y z TAKEN
  have hself : (v.state.setItem y TAKEN).item y = TAKEN := (hitem y).trans (if_pos rfl)
  have hrest : ∀ j < w, ∀ z, (z, c.op) ∈ v.state.claims j → z ≠ y →
      (v.state.setItem y TAKEN).item z = TAKEN ∧ v.state.stored z = none := by
    intro j hj z hz hzy
    obtain ⟨h₁, h₂⟩ := hw.2 j hj z hz fun e => hzy (Option.some.inj e)
    exact ⟨by rw [hitem, if_neg hzy]; exact h₁, h₂⟩
  cases hst : v.state.stored y with
  | none =>
    have hempty : v.state.item y = Dcbo.EMPTY := (hslot.empty hst).resolve_right hne
    refine .inr ⟨hempty, hw.1, fun j hj z hz _ => ?_⟩
    by_cases hzy : z = y
    · subst hzy
      exact ⟨hself, hst⟩
    · exact hrest j hj z hz hzy
  | some z =>
    obtain ⟨e, val⟩ := z
    obtain ⟨-, hval, -, hitem', -⟩ := hslot.stored e val hst
    obtain rfl : v.state.item y = val := hitem'.resolve_right hne
    exact .inl ⟨hval, y, e, hy, hst, hself, hw.1,
      fun j hj z hz hzy => hrest j hj z hz fun e => hzy (congrArg some e)⟩

theorem faaaqDequeueRound_spec (hq : q < w) (hw : Wasted w c.op v.pair) :
    wp E.protocol c (faaaqDequeueRound c q) (fun r v' => Sum.elim
      (fun _ => Later v v' ∧ Wasted w c.op v'.pair) (fun x => Dequeued w q v x v') r) v := by
  refine wp.read fun v₁ h₁ => ?_
  have ht₁ : (v₁.state.line q)[v₁.state.chain.headPos q]? = some (v₁.state.chain.head q) :=
    (inv_of v₁).valid.getElem?_head hq
  refine wp.bind_of (noneLeft_spec hq ht₁ le_rfl) fun b v₂ ⟨h₂, hb⟩ => ?_
  have hs₂ := (Since.of_le h₁).trans h₂
  have hw₂ : Wasted w c.op v₂.pair := hw.kept (inv_of v) hs₂.frame
  split
  next hb' =>
    refine ⟨later_since hs₂, .inr ⟨rfl, hw₂, fun heq => hb hb' ?_⟩⟩
    exact le_antisymm (h₂.frame.enqPos q hq) (heq ▸ (Since.of_le h₁).frame.enqPos q hq)
  next =>
    refine wp.update fun v₃ h₃ _ => ?_
    have hs₃ := hs₂.trans (.of_le h₃)
    have ht₃ := (grows_since (h₂.trans (.of_le h₃))).getElem? ht₁
    have hle₃ := (grows_since (h₂.trans (.of_le h₃))).head q hq
    obtain ⟨hall, hk⟩ := claim_allows hq ht₃ hle₃
    have hk := hk (.thread c.thread) nofun
    have hl₃ : Later v (v₃.step _ _ hall.inv) :=
      (later_since hs₃).trans ⟨v₃.subset_step _ _ hall.inv, hk.grown⟩
    refine ⟨v₃.now.2, hall, ?_⟩
    rcases claim_wasted hq ht₃ hle₃ (hw.kept (inv_of v) hs₃.frame) with
      ⟨hge, hw₄⟩ | ⟨hlt, hw₄, hy, hne⟩
    · rw [if_pos (show (v₃.state.seg (v₁.state.chain.head q)).deqIdx > bufferSize - 1 from
        lt_of_lt_of_le (by decide) hge)]
      have hdeq := (hk.nodes.grows.seg _ ((inv_of v₃).lt_fresh hq ht₃)).deqIdx
      refine (nextSegment_spec (v := v₃.step _ _ hall.inv) hq (hk.nodes.grows.getElem? ht₃)
        (hle₃.trans (hk.nodes.grows.head q hq)) (hge.trans hdeq)).mono ?_
      rintro (_ | x) v₅ ⟨h₅, hx⟩
      · exact ⟨hl₃.trans (later_since h₅), hw₄.kept hall.inv.1.1 h₅.frame⟩
      · obtain ⟨rfl, hclear⟩ := hx x rfl
        exact ⟨hl₃.trans (later_since h₅), .inr ⟨rfl, hw₄.kept hall.inv.1.1 h₅.frame,
          fun _ => hclear⟩⟩
    · rw [if_neg (show ¬ (v₃.state.seg (v₁.state.chain.head q)).deqIdx > bufferSize - 1 by omega)]
      refine wp.update fun v₅ h₅ _ => ?_
      have hs₅ := Since.of_le h₅
      have hy₅ := (hs₅.frame.claims q).mem hy
      have hlt₅ := claimed_lt hall.inv.1.1 hq hy
      have hne₅ := hs₅.frame.untaken _ rfl q hq _ hlt₅ hy hne
      have hw₅ := hw₄.kept hall.inv.1.1 hs₅.frame
      obtain ⟨i, hi⟩ := List.mem_iff_getElem?.1 hy₅
      obtain ⟨hall₅, hk₅⟩ := swap_allows hq hi
      have hl₅ : Later v (v₅.step _ _ hall₅.inv) := (hl₃.trans (later_since hs₅)).trans
        ⟨v₅.subset_step _ _ hall₅.inv, (hk₅ (.thread c.thread) nofun).grown⟩
      refine ⟨v₅.now.2, hall₅, ?_⟩
      rcases swap_got hq hy₅ hw₅ hne₅ with ⟨hitem, hgot⟩ | ⟨hitem, hgot⟩
      · rw [if_pos hitem]
        exact ⟨hl₅, .inl ⟨hitem, hgot⟩⟩
      · rw [if_neg (not_not.2 hitem)]
        exact ⟨hl₅, hgot⟩

/-- `faaaq_dequeue`: it returns what it has taken; or `EMPTY`, and then the queue is clear unless
its next slot for an enqueue has changed meanwhile. -/
theorem faaaqDequeue_spec (hq : q < w) (hw : Wasted w c.op v.pair) :
    wp E.protocol c (faaaqDequeue c q) (fun r v' => Dequeued w q v r v') v := by
  refine wp.forever (fun _ v' => Later v v' ∧ Wasted w c.op v'.pair) ⟨⟨subset_rfl, .refl _⟩, hw⟩ ?_
  rintro _ v₁ ⟨h₁, hw₁⟩
  refine (faaaqDequeueRound_spec hq hw₁).mono ?_
  rintro (_ | x) v₂ h₂
  · exact ⟨h₁.trans h₂.1, h₂.2⟩
  · exact h₂.of_later hq h₁

end DcboFaaaq
