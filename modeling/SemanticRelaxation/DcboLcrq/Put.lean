import SemanticRelaxation.DcboLcrq.Steps

/-!
# `lcrq_put`

* `Mine w t n x`: the ring `n` belongs to the thread `t` and is not linked yet;
* `Placed op q val s`: the call `op` has put `val` into queue `q`, not behind its tail;
* `lcrqPut_spec`: the operation under interference.
-/

namespace DcboLcrq

open AtomicProg Linked Segments

variable {L : Type} {S : Service Memory L} {w size : ℕ} {good : Memory → Prop}
  {puts : S.Call → ℤ → Prop} {E : Results S (regime S.Call w size good puts)} {c : Caller}
  {v v₁ v₂ : View E.protocol c} {q p n t m : ℕ} {val : ℤ}

/-! ### Rings that are not linked yet -/

/-- The ring `n` belongs to the thread `t` and is not linked yet. -/
structure Mine (w t n : ℕ) (x : Memory × Ghost) : Prop where
  owner : x.2 n = .thread t
  unlinked : Unlinked w x.1.chain.cells n
  clean : Clean (x.1.ring n)

theorem Mine.kept {x x' : Memory × Ghost} (h : Mine w t n x) (hk : Kept w size (.thread t) x x') :
    Mine w t n x' ∧ x'.1.ring n = x.1.ring n := by
  obtain ⟨hu, he⟩ := hk.nodes.unlinked n h.owner.symm h.unlinked
  exact ⟨⟨(hk.nodes.owner n h.unlinked.lt_fresh).trans h.owner, hu,
    by rw [Memory.ring, he]; exact h.clean⟩, he⟩

/-- What a thread keeps in `handle->next`. -/
def Handle (w t : ℕ) (l : Option ℕ) (x : Memory × Ghost) : Prop := ∀ n, l = some n → Mine w t n x

theorem Handle.kept {l : Option ℕ} {x x' : Memory × Ghost} (h : Handle w t l x)
    (hk : Kept w size (.thread t) x x') : Handle w t l x' := fun n hn => ((h n hn).kept hk).1

/-! ### What an enqueue knows -/

/-- What an enqueue of `val` into queue `q` needs. -/
structure Enqueues (puts : S.Call → ℤ → Prop) (w q : ℕ) (val : ℤ) (v : View E.protocol c) :
    Prop where
  queue : q < w
  ne : val ≠ -1
  call : ∃ call, v.now.1.calls[c.op]? = some call ∧ puts call val
  blank : Untouched w c.op v.state

theorem Enqueues.since (h : Enqueues puts w q val v) (hs : Since v v₁) :
    Enqueues puts w q val v₁ := by
  obtain ⟨call, hc, hp⟩ := h.call
  exact ⟨h.queue, h.ne, ⟨call, hs.call hc, hp⟩, h.blank.kept hs.frame⟩

/-- The call `op` has put `val` into queue `q`, and the tail is not in front of it. -/
def Placed (op q : ℕ) (val : ℤ) (s : Memory) : Prop :=
  ∃ p n h : ℕ, (s.line q)[p]? = some n ∧ p ≤ s.chain.tailPos q ∧
    (s.ring n).stored h = some (op, val)

theorem Placed.later {op : ℕ} {s s' : Memory} (hq : q < w) (hg : Grown w size s s')
    (h : Placed op q val s) : Placed op q val s' := by
  obtain ⟨p, n, i, hn, hle, hst⟩ := h
  exact ⟨p, n, i, hg.getElem? hn, hle.trans (hg.chain.tail q hq), (hg.ring hq hn).stored i _ hst⟩

/-- The call `op` has got no index of a head. -/
def Unclaimed (w op : ℕ) (s : Memory) : Prop :=
  ∀ q < w, ∀ n ∈ s.line q, ∀ h, (s.ring n).claims h ≠ some op

theorem Untouched.unclaimed {op : ℕ} {s : Memory} (h : Untouched w op s) : Unclaimed w op s :=
  fun q hq n hn i => (h q hq n hn).claims_ne i

theorem Unclaimed.kept {op : ℕ} {x x' : Memory × Ghost} (h : Unclaimed w op x.1)
    (hk : Kept w size (.op op) x x') : Unclaimed w op x'.1 := by
  intro q hq n hn i hc
  rcases hk.own op rfl q hq n hn with ⟨hn', hquiet⟩ | hidle
  · exact h q hq n hn' i (hquiet.claims i hc)
  · exact hidle.claims_ne i hc

/-- What an enqueue that has put its item in knows. -/
def Enqueued (w q : ℕ) (val : ℤ) (v : View E.protocol c) : Prop :=
  Placed c.op q val v.state ∧ Unclaimed w c.op v.state

theorem Enqueued.since (hq : q < w) (h : Enqueued w q val v) (hs : Since v v₁) :
    Enqueued w q val v₁ := ⟨h.1.later hq (grown_since hs), h.2.kept hs.frame⟩

/-! ### The pointers -/

/-- The ring that was read as the tail. -/
theorem read_tail (hq : q < w) (v : View E.protocol c) :
    (v.state.line q)[v.state.chain.tailPos q]? = some (v.state.chain.tail q) :=
  (inv_of v).valid.getElem?_tail hq

/-- The successor of a ring of the line. -/
theorem read_next (hq : q < w) (hn : (v.state.line q)[p]? = some n) :
    (v.state.chain.cells.heap n).next = (v.state.line q)[p + 1]? := (inv_of v).valid.next hq hn

/-- The tail moves from the ring at `p` to the next one, unless others have moved it. -/
theorem tailCae_spec (hq : q < w) (hn : (v.state.line q)[p]? = some n)
    (hm : (v.state.line q)[p + 1]? = some m) (hle : p ≤ v.state.chain.tailPos q) :
    wp E.protocol c (tailCae q n m) (fun _ v' => Since v v' ∧
      p + 1 ≤ v'.state.chain.tailPos q) v := by
  unfold tailCae
  refine wp.cae (fun v₁ h₁ he hg => ?_) fun v₁ h₁ hne => ?_
  · have hn₁ := (grown_of_le h₁).getElem? hn
    have hi := inv_of v₁
    obtain rfl : v₁.state.chain.tailPos q = p := by
      refine hi.valid.pos_eq hq ?_
      rw [he]
      exact hn₁
    have hm₁ := (grown_of_le h₁).getElem? hm
    have hinv : Inv w size (v₁.state.onChain (·.setTail q m)) :=
      hi.of_rings (hi.valid.setTail hq hm₁) (fun _ => rfl) (fun _ _ _ _ => rfl) hi.head
    have hframe : ∀ o, Frame (fun _ _ => True) w o v₁.state.chain v₁.now.2
        (v₁.state.onChain (·.setTail q m)).chain v₁.now.2 := fun o =>
      .of_cells (hi.valid.setTail_grows (fun _ => True.intro) hq hm₁) rfl
    refine ⟨v₁.now.2, rings_allows hinv hg (fun _ => rfl) (fun _ _ _ _ => rfl) id
      fun o _ => hframe o,
      (Since.of_le h₁).trans (.step fun o => .of_rings (hframe o) (fun _ => rfl)
        (fun _ _ _ _ => rfl) id),
      ?_⟩
    show _ ≤ (v₁.state.chain.setTail q m).tailPos q
    rw [hi.valid.setTail_pos hq hm₁, if_pos rfl]
  · refine ⟨.of_le h₁, Nat.lt_of_le_of_ne (hle.trans ((grown_of_le h₁).chain.tail q hq))
      fun e => hne ?_⟩
    have hn₁ := read_tail hq v₁
    rw [← e] at hn₁
    exact Option.some.inj (hn₁.symm.trans ((grown_of_le h₁).getElem? hn))

/-! ### An attempt to put the item into a ring -/

/-- The cell that has been read has not moved beyond the present one. -/
theorem readCell_spec (hq : q < w) (hn : (v.state.line q)[p]? = some n) :
    wp E.protocol c (readCell n (t % size)) (fun x v' => v ≤ v' ∧
      x.idx.index ≤ ((v'.state.ring n).cell size t).idx.index) v := by
  refine wp.choose fun k v₀ h₀ => ?_
  split
  · refine wp.read fun v₁ h₁ => wp.read fun v₂ h₂ => ⟨h₀.trans (h₁.trans h₂), le_rfl⟩
  · refine wp.read fun v₁ h₁ => wp.read fun v₂ h₂ => ⟨h₀.trans (h₁.trans h₂), ?_⟩
    exact ((grown_of_le h₂).ring hq ((grown_of_le (h₀.trans h₁)).getElem? hn)).idx t

/-- The empty cell `x` of index `t` may take an item. -/
structure Safe (size n t : ℕ) (x : RingNode) (v : View E.protocol c) : Prop where
  empty : x.val = -1
  index : x.idx.index ≤ t
  marked : x.idx.mark = true →
    (v.state.ring n).head ≤ t ∧ x.idx.index ≤ ((v.state.ring n).cell size t).idx.index

theorem readSafe_spec (hq : q < w) (hn : (v.state.line q)[p]? = some n) {x : RingNode}
    (hx : x.idx.index ≤ ((v.state.ring n).cell size t).idx.index) :
    wp E.protocol c (readSafe n t x) (fun b v' => v ≤ v' ∧ (b = true → Safe size n t x v')) v := by
  unfold readSafe
  split
  next he =>
    split
    next =>
      refine wp.read fun v₁ h₁ => ⟨h₁, fun hb => ⟨he.1, he.2, fun _ => ⟨?_, ?_⟩⟩⟩
      · exact (of_decide_eq_true hb).le
      · exact hx.trans (((grown_of_le h₁).ring hq hn).idx t)
    next hm => exact ⟨le_rfl, fun _ => ⟨he.1, he.2, fun hm' => absurd hm' hm⟩⟩
  next => exact ⟨le_rfl, nofun⟩

/-- No dequeue gives an index up that a safe cell could still serve. -/
theorem Safe.free {x : RingNode} (h : Safe size n t x v) (hq : q < w)
    (hn : (v.state.line q)[p]? = some n) (hle : v ≤ v₁) (he : (v₁.state.ring n).cell size t = x)
    {i : ℕ} (hi : t ≤ i) (hm : i % size = t % size) : (v₁.state.ring n).passed i = false := by
  have hg := grown_of_le hle
  have hev := hg.ring hq hn
  have hcell : ∀ a : RingQueue, a.cell size i = a.cell size t := fun a => by
    rw [RingQueue.cell, hm, RingQueue.cell]
  by_contra hne
  have hp : (v₁.state.ring n).passed i = true := Bool.eq_true_of_not_eq_false hne
  have hmark := ((inv_of v₁).ring_of hq (hg.getElem? hn)).passed i hp
  rw [hcell, he] at hmark
  obtain ⟨hhead, hidx⟩ := h.marked (hmark.2 (h.index.trans hi))
  -- the index has not been got when the head was read, and given up since only with an older item
  rcases hev.newPassed i hp with hold | hnew
  · have hlt := (((inv_of v).ring_of hq hn).passed i hold).1
    omega
  · have hmono := hev.idx t
    rw [he] at hmono
    rw [hcell, hcell, he] at hnew
    exact hnew (le_antisymm hidx hmono) h.empty

/-- The bit of the tail of a ring that has given out an index is set, or the exchange has failed. -/
theorem close_allows (hq : q < w) (hn : (v.state.line q)[p]? = some n)
    (hpos : 1 ≤ (v.state.ring n).tail.index) (hg : good (v.state.onRing n (·.close))) :
    E.protocol.Allows c v.now (v.after (v.state.onRing n (·.close)) v.now.2) ∧
      ∀ o, Kept w size o v.pair (v.state.onRing n (·.close), v.now.2) :=
  silent_allows hq (List.mem_of_getElem? hn) (((inv_of v).ring_of hq hn).close hpos) hg rfl rfl rfl

theorem tasTail_spec (hq : q < w) (hn : (v.state.line q)[p]? = some n)
    (hpos : 1 ≤ (v.state.ring n).tail.index) :
    wp E.protocol c (tasTail n) (fun _ v' => Since v v' ∧
      (v'.state.ring n).tail.mark = true) v := by
  intro v₁ h₁ _ hg
  have hgrown := grown_of_le h₁
  obtain ⟨hall, hk⟩ := close_allows hq (hgrown.getElem? hn)
    (hpos.trans (hgrown.ring hq hn).tail) hg
  refine ⟨v₁.now.2, hall, (Since.of_le h₁).trans (.step hk), ?_⟩
  show ((v₁.state.onRing n (·.close)).ring n).tail.mark = true
  rw [v₁.state.ring_onRing, if_pos rfl]
  rfl

theorem closeCrq_spec (hq : q < w) (hn : (v.state.line q)[p]? = some n)
    (hlt : t < (v.state.ring n).tail.index) (tries : ℕ) :
    wp E.protocol c (closeCrq n t tries) (fun b v' => Since v v' ∧
      (b = true → (v'.state.ring n).tail.mark = true)) v := by
  have hpos : 1 ≤ (v.state.ring n).tail.index := Nat.one_le_of_lt hlt
  unfold closeCrq
  split
  next =>
    refine wp.cae (fun v₁ h₁ he hg => ?_) fun v₁ h₁ _ => ⟨.of_le h₁, nofun⟩
    have hgrown := grown_of_le h₁
    obtain ⟨hall, hk⟩ := close_allows hq (hgrown.getElem? hn)
      (hpos.trans (hgrown.ring hq hn).tail) hg
    refine ⟨v₁.now.2, hall, (Since.of_le h₁).trans (.step hk), fun _ => ?_⟩
    show ((v₁.state.onRing n (·.close)).ring n).tail.mark = true
    rw [v₁.state.ring_onRing, if_pos rfl]
    rfl
  next => exact (tasTail_spec hq hn hpos).mono fun _ _ h => ⟨h.1, fun _ => h.2⟩

/-- What an enqueue knows while it has not put its item in. -/
structure Waiting (puts : S.Call → ℤ → Prop) (w q : ℕ) (val : ℤ) (l : Option ℕ)
    (v : View E.protocol c) :
    Prop where
  enqueues : Enqueues puts w q val v
  handle : Handle w c.thread l v.pair

theorem Waiting.since {l : Option ℕ} (h : Waiting puts w q val l v) (hs : Since v v₁) :
    Waiting puts w q val l v₁ := ⟨h.enqueues.since hs, h.handle.kept hs.thread⟩

/-- What it knows afterwards. -/
structure Finished (w q : ℕ) (val : ℤ) (l : Option ℕ) (v : View E.protocol c) : Prop where
  enqueued : Enqueued w q val v
  handle : Handle w c.thread l v.pair

theorem Finished.since {l : Option ℕ} (hq : q < w) (h : Finished w q val l v) (hs : Since v v₁) :
    Finished w q val l v₁ := ⟨h.enqueued.since hq hs, h.handle.kept hs.thread⟩

variable {l : Option ℕ}

/-- The item is put into a safe cell. -/
theorem enqCae_spec (he : Waiting puts w q val l v) (hn : (v.state.line q)[p]? = some n)
    (hle : p ≤ v.state.chain.tailPos q) (hlt : t < (v.state.ring n).issued) {x : RingNode}
    {b : Bool} (hx : b = true → Safe size n t x v) :
    wp E.protocol c (enqCae size c n t val x b) (fun done v' =>
      if done then Finished w q val l v' else Since v v') v := by
  have hq := he.enqueues.queue
  cases b with
  | false => exact .refl v
  | true =>
  simp only [enqCae, cellCae, if_true]
  refine wp.cae (fun v₁ h₁ hcell hg => ?_) fun v₁ h₁ _ => .of_le h₁
  have hgrown := grown_of_le h₁
  have hn₁ := hgrown.getElem? hn
  have he₁ := he.since (.of_le h₁)
  have hblank := he₁.enqueues.blank
  have hcell : (v₁.state.ring n).cell size t = x := hcell
  have hx := hx rfl
  have hput := ((inv_of v₁).ring_of hq hn₁).put (t := t) c.op (by rw [hcell]; exact hx.empty)
    (by rw [hcell]; exact hx.index) (hlt.trans_le (hgrown.ring hq hn).issued) he.enqueues.ne
    fun i hi hm => hx.free hq hn h₁ hcell hi hm
  have hother : ∀ i y, ((v₁.state.ring n).put size c.op t val).stored i = some y →
      (v₁.state.ring n).stored i = some y ∨ i = t ∧ y = (c.op, val) := by
    intro i y hy
    replace hy : Function.update (v₁.state.ring n).stored t (some (c.op, val)) i = some y := hy
    by_cases hit : i = t
    · subst hit
      rw [Function.update_self] at hy
      exact .inr ⟨rfl, (Option.some.inj hy).symm⟩
    · rw [Function.update_of_ne hit] at hy
      exact .inl hy
  obtain ⟨hall, hk⟩ := ring_allows (f := (·.put size c.op t val)) hq
    (List.mem_of_getElem? hn₁) hput hg t
    (fun i y hy => (hother i y hy).imp_right fun ⟨hi, hy⟩ =>
      ⟨hi, congrArg Prod.fst hy, hblank.unplaced, by rw [hy]; exact he₁.enqueues.call⟩)
    fun op hop => ⟨fun i y hy e => (hother i y hy).resolve_right fun ⟨_, hy'⟩ =>
      hop (by rw [← e, hy']), fun _ h => h, fun _ h => h⟩
  refine ⟨v₁.now.2, hall, ⟨⟨p, n, t, hn₁, ?_, ?_⟩, fun j hj m hm i => ?_⟩,
    he₁.handle.kept (hk (.thread c.thread) nofun)⟩
  · exact hle.trans (hgrown.chain.tail q hq)
  · show ((v₁.state.onRing n (·.put size c.op t val)).ring n).stored t = some (c.op, val)
    rw [v₁.state.ring_onRing, if_pos rfl]
    exact Function.update_self ..
  · show ((v₁.state.onRing n (·.put size c.op t val)).ring m).claims i ≠ some c.op
    rw [v₁.state.ring_onRing]
    split
    next e =>
      subst e
      exact hblank.unclaimed j hj m hm i
    next => exact hblank.unclaimed j hj m hm i

/-- The ring `n` at position `p` of queue `q` is closed, and not in front of the tail. -/
structure Closed (q p n : ℕ) (s : Memory) : Prop where
  ring : (s.line q)[p]? = some n
  tail : p ≤ s.chain.tailPos q
  closed : (s.ring n).tail.mark = true

theorem Closed.later {s s' : Memory} (hq : q < w) (hg : Grown w size s s') (h : Closed q p n s) :
    Closed q p n s' :=
  ⟨hg.getElem? h.ring, h.tail.trans (hg.chain.tail q hq), (hg.ring hq h.ring).closed h.closed⟩

/-- What an attempt to put the item into the ring `n` comes to; a ring to be followed by a new one
is closed. -/
def Attempted (puts : S.Call → ℤ → Prop) (w q : ℕ) (val : ℤ) (l : Option ℕ) (p n t : ℕ) :
    Attempt → View E.protocol c → Prop
  | .stored, v => Finished w q val l v
  | .again _, v => Waiting puts w q val l v
  | .alloc _, v => Waiting puts w q val l v ∧ Closed q p n v.state ∧ 0 < t

theorem closeFull_spec (hsize : 0 < size) (he : Waiting puts w q val l v)
    (hn : (v.state.line q)[p]? = some n) (hle : p ≤ v.state.chain.tailPos q)
    (hlt : t < (v.state.ring n).tail.index) (tries : ℕ) :
    wp E.protocol c (closeFull size n t tries) (Attempted puts w q val l p n t) v := by
  have hq := he.enqueues.queue
  refine wp.read fun v₁ h₁ => ?_
  have hgrown := grown_of_le h₁
  split
  next hge =>
    refine wp.bind_of (closeCrq_spec hq (hgrown.getElem? hn)
      (hlt.trans_le (hgrown.ring hq hn).tail) _) fun b v₂ ⟨h₂, hb⟩ => ?_
    have hs₂ := (Since.of_le h₁).trans h₂
    have hg₂ := grown_since hs₂
    cases b with
    | true =>
      refine ⟨he.since hs₂, ⟨hg₂.getElem? hn, hle.trans (hg₂.chain.tail q hq), hb rfl⟩, ?_⟩
      omega
    | false => exact he.since hs₂
  next => exact he.since (.of_le h₁)

/-- The word `t` is one that a fetch-and-add on the tail of the ring `n` has found. -/
structure Drawn (n : ℕ) (t : Word) (s : Memory) : Prop where
  index : t.index < (s.ring n).tail.index
  issued : t.mark = false → t.index < (s.ring n).issued
  closed : t.mark = true → (s.ring n).tail.mark = true ∧ 0 < t.index

theorem Drawn.later {t : Word} {s s' : Memory} (hq : q < w) (hg : Grown w size s s')
    (hn : (s.line q)[p]? = some n) (h : Drawn n t s) : Drawn n t s' where
  index := h.index.trans_le (hg.ring hq hn).tail
  issued hm := (h.issued hm).trans_le (hg.ring hq hn).issued
  closed hm := (h.closed hm).imp_left (hg.ring hq hn).closed

theorem putCell_spec {t : Word} (hsize : 0 < size) (he : Waiting puts w q val l v)
    (hn : (v.state.line q)[p]? = some n) (hle : p ≤ v.state.chain.tailPos q)
    (ht : Drawn n t v.state) (tries : ℕ) :
    wp E.protocol c (putCell size c n t val tries) (Attempted puts w q val l p n t.index) v := by
  have hq := he.enqueues.queue
  unfold putCell
  split
  next hm => exact ⟨he, ⟨hn, hle, (ht.closed hm).1⟩, (ht.closed hm).2⟩
  next hm =>
    refine wp.bind_of (readCell_spec hq hn) fun x v₁ ⟨h₁, hx⟩ => ?_
    have hn₁ := (grown_of_le h₁).getElem? hn
    refine wp.bind_of (readSafe_spec hq hn₁ hx) fun b v₂ ⟨h₂, hb⟩ => ?_
    have h₀₂ := h₁.trans h₂
    have hg₂ := grown_of_le h₀₂
    have hn₂ := hg₂.getElem? hn
    have hle₂ := hle.trans (hg₂.chain.tail q hq)
    have ht₂ := ht.later hq hg₂ hn
    refine wp.bind_of (enqCae_spec (he.since (.of_le h₀₂)) hn₂ hle₂
      (ht₂.issued (Bool.eq_false_of_not_eq_true hm)) hb) fun done v₃ h₃ => ?_
    cases done with
    | true => exact h₃
    | false =>
      have h₃ : Since v₂ v₃ := h₃
      have hg₃ := grown_since h₃
      exact closeFull_spec hsize (he.since ((Since.of_le h₀₂).trans h₃)) (hg₃.getElem? hn₂)
        (hle₂.trans (hg₃.chain.tail q hq)) (ht₂.later hq hg₃ hn₂).index _

/-! ### A new ring -/

theorem allocRing_spec (hl : Handle w c.thread l v.pair) :
    wp E.protocol c (allocRing l) (fun m v' => Since v v' ∧ Mine w c.thread m v'.pair) v := by
  cases l with
  | some m => exact ⟨.refl v, hl m rfl⟩
  | none =>
    intro v₁ h₁ _ hg
    have hi := inv_of v₁
    have hne : ∀ j < w, ∀ k ∈ v₁.state.line j, (v₁.state.onChain (·.create initRing)).ring k =
        v₁.state.ring k := fun j hj k hk => v₁.state.chain.create_seg_of_ne (hi.lt_fresh hj hk).ne _
    have hframe : ∀ o, Frame (fun _ _ => True) w o v₁.state.chain v₁.now.2
        (v₁.state.onChain (·.create initRing)).chain
        (Function.update v₁.now.2 v₁.state.chain.cells.fresh (.thread c.thread)) := fun o =>
      .create (fun _ => True.intro) _ _ _
    have hinv : Inv w size (v₁.state.onChain (·.create initRing)) :=
      hi.of_rings (hi.valid.create _) (fun _ => rfl) hne hi.head
    refine ⟨_, rings_allows hinv hg (fun _ => rfl) hne id fun o _ => hframe o,
      (Since.of_le h₁).trans (.step fun o => .of_rings (hframe o) (fun _ => rfl) hne id),
      Function.update_self .., .create hi.valid.lines _, .inl ?_⟩
    exact v₁.state.chain.create_seg_self _

/-- A ring that is not linked is prepared for the item. -/
theorem prepare_allows (hm : Mine w c.thread m v.pair) (items : ℕ)
    (hg : good (v.state.onRing m (·.prepare c.op val items))) :
    E.protocol.Allows c v.now (v.after (v.state.onRing m (·.prepare c.op val items)) v.now.2) ∧
      ∀ o, o ≠ .thread c.thread →
        Kept w size o v.pair (v.state.onRing m (·.prepare c.op val items), v.now.2) := by
  have hi := inv_of v
  have hring : ∀ j < w, ∀ k ∈ v.state.line j, (v.state.onRing m (·.prepare c.op val items)).ring k =
      v.state.ring k := by
    intro j hj k hk
    rw [v.state.ring_onRing, if_neg]
    rintro rfl
    exact hm.unlinked.notMem j hj hk
  have hframe : ∀ o, o ≠ .thread c.thread → Frame (fun _ _ => True) w o v.state.chain v.now.2
      (v.state.onRing m (·.prepare c.op val items)).chain v.now.2 := fun o ho =>
    .modify (R := fun _ _ => True) (f := fun y => RingQueue.prepare y c.op val items)
      (fun _ => True.intro) True.intro fun e => absurd (e.trans hm.owner) ho
  have hinv : Inv w size (v.state.onRing m (·.prepare c.op val items)) :=
    hi.of_rings (hi.valid.modify m fun y => RingQueue.prepare y c.op val items) (fun _ => rfl) hring
      hi.head
  exact ⟨rings_allows hinv hg (fun _ => rfl) hring id fun o ho => hframe o (not_thread ho),
    fun o ho => .of_rings (hframe o ho) (fun _ => rfl) hring id⟩

theorem appendRing_spec (he : Waiting puts w q val l v) (hc : Closed q p n v.state) (ht : 0 < t) :
    wp E.protocol c (appendRing c q n t val l) (fun r v' => Sum.elim
      (fun l' => Waiting puts w q val l' v') (fun l' => Finished w q val l' v') r) v := by
  have hq := he.enqueues.queue
  refine wp.bind_of (allocRing_spec he.handle) fun m v₁ ⟨h₁, hm⟩ => ?_
  refine wp.read fun v₂ h₂ => ?_
  have hs₂ := h₁.trans (.of_le h₂)
  have hc₂ := hc.later hq (grown_since hs₂)
  have hitems := fun {v' : View E.protocol c} (hg : Grown w size v₂.state v'.state) =>
    (hg.ring hq hc₂.ring).items
  have hm₂ := (hm.kept (Since.of_le h₂).thread).1
  refine wp.update fun v₃ h₃ hg₃ => ?_
  have he₃ := he.since (hs₂.trans (.of_le h₃))
  have hm₃ := (hm₂.kept (Since.of_le h₃).thread).1
  obtain ⟨hall₃, hk₃⟩ := prepare_allows hm₃ _ hg₃
  refine ⟨v₃.now.2, hall₃, ?_⟩
  -- the ring of the thread is changed, and nothing else
  have hk₃ := hk₃ (.op c.op) nofun
  have hg₂₄ := (grown_of_le h₃).trans hk₃.grown
  have hc₄ := hc₂.later hq hg₂₄
  have hring : (v₃.state.onRing m
    (·.prepare c.op val ((v₂.state.ring n).itemsEnqueued + t))).ring m =
      initRing.prepare c.op val ((v₂.state.ring n).itemsEnqueued + t) := by
    rw [v₃.state.ring_onRing, if_pos rfl]
    exact hm₃.clean.prepare _ _ _
  have hm₄ : Mine w c.thread m (v₃.step _ _ hall₃.inv).pair :=
    ⟨hm₃.owner, ⟨hm₃.unlinked.lt_fresh, hm₃.unlinked.notMem,
      (Chain.modify_next _ m _ m).trans hm₃.unlinked.next⟩, .inr ⟨_, _, _, hring⟩⟩
  have he₄ : Waiting puts w q val (some m) (v₃.step _ _ hall₃.inv) :=
    ⟨⟨hq, he.enqueues.ne, he₃.enqueues.call, he₃.enqueues.blank.kept hk₃⟩,
      by rintro _ ⟨⟩; exact hm₄⟩
  refine wp.cae (fun v₅ h₅ hnone hg => ?_) fun v₅ h₅ _ => he₄.since (.of_le h₅)
  have he₅ := he₄.since (.of_le h₅)
  have hg₂₅ := hg₂₄.trans (grown_of_le h₅)
  have hc₅ := hc₂.later hq hg₂₅
  obtain ⟨hm₅, hring₅⟩ := hm₄.kept (Since.of_le h₅).thread
  have hall := link_allows hq hc₅.ring hc₅.tail hnone hm₅.unlinked hm₅.owner hc₅.closed
    he.enqueues.ne
    (hring₅.trans hring) ht (hitems hg₂₅) he₅.enqueues.blank.unplaced hg he₅.enqueues.call
  refine ⟨v₅.now.2, hall, ?_⟩
  have hi := inv_of v₅
  obtain ⟨-, hlast⟩ := hi.valid.tail_of_last hq hc₅.ring hc₅.tail hnone
  have hgrows : Grows (fun _ _ => True) w v₅.state.chain (v₅.step _ _ hall.inv).state.chain :=
    hi.valid.link_grows (fun _ => True.intro) q n m
  have hnew : ((v₅.step _ _ hall.inv).state.line q)[p + 1]? = some m := by
    show (Function.update v₅.state.chain.cells.line q
      (v₅.state.chain.cells.line q ++ [m]) q)[p + 1]? = _
    rw [Function.update_self, hlast, List.getElem?_concat_length]
  have hmem : ∀ j k, k ∈ (v₅.step _ _ hall.inv).state.line j → k ∈ v₅.state.line j ∨ k = m := by
    intro j k hk
    obtain ⟨i, hi⟩ := List.mem_iff_getElem?.1 hk
    rcases @Cells.append_entry _ v₅.state.chain.cells _ (some n) _ _ _ _ hi with hi | ⟨-, -, hk⟩
    · exact .inl (List.mem_of_getElem? hi)
    · exact .inr hk
  have hsame : ∀ k, (v₅.step _ _ hall.inv).state.ring k = v₅.state.ring k :=
    v₅.state.ring_link q n m
  have hunclaimed : Unclaimed w c.op (v₅.step _ _ hall.inv).state := by
    intro j hj k hk i
    rw [hsame]
    rcases hmem j k hk with hk | rfl
    · exact he₅.enqueues.blank.unclaimed j hj k hk i
    · rw [hring₅.trans hring]
      exact nofun
  have hstored : ((v₅.step _ _ hall.inv).state.ring m).stored 0 = some (c.op, val) := by
    rw [hsame, hring₅.trans hring]
    rfl
  show wp E.protocol c (tailCae q n m >>= fun _ => .ret (.inr none : Option ℕ ⊕ Option ℕ)) _ _
  refine wp.bind_of (tailCae_spec hq (hgrows.getElem? hc₅.ring) hnew
    (hc₅.tail.trans (hgrows.tail q hq))) fun _ v₆ ⟨h₆, hle₆⟩ => ?_
  have hg₆ := grown_since h₆
  refine ⟨⟨⟨p + 1, m, 0, hg₆.getElem? hnew, hle₆, ?_⟩, hunclaimed.kept h₆.frame⟩, nofun⟩
  exact (hg₆.ring hq hnew).stored 0 _ hstored

/-! ### The loop -/

/-- A fetch-and-add on the tail of a ring. -/
theorem fetchAddTail_spec (hq : q < w) (hn : (v.state.line q)[p]? = some n) :
    wp E.protocol c (fetchAddTail n) (fun t v' => Since v v' ∧ Drawn n t v'.state) v := by
  intro v₁ h₁ _ hg
  have hn₁ := (grown_of_le h₁).getElem? hn
  have hri := (inv_of v₁).ring_of hq hn₁
  obtain ⟨hall, hk⟩ := silent_allows (f := (·.addTail)) hq (List.mem_of_getElem? hn₁) hri.addTail hg
    rfl rfl rfl
  refine ⟨v₁.now.2, hall, (Since.of_le h₁).trans (.step hk), ?_⟩
  have hring : (v₁.step _ _ hall.inv).state.ring n = (v₁.state.ring n).addTail := by
    show (v₁.state.onRing n (·.addTail)).ring n = _
    rw [v₁.state.ring_onRing, if_pos rfl]
  refine ⟨?_, fun hm => ?_, fun hm => ?_⟩
  · rw [hring]
    exact Nat.lt_succ_self _
  · have hm : (v₁.state.ring n).tail.mark = false := hm
    rw [hring]
    show _ < if (v₁.state.ring n).tail.mark then _ else _
    rw [hm]
    exact Nat.lt_succ_self _
  · rw [hring]
    exact ⟨hm, hri.closed hm⟩

theorem lcrqPutRound_spec (hsize : 0 < size) {x : Option ℕ × ℕ} (he : Waiting puts w q val x.1 v) :
    wp E.protocol c (lcrqPutRound size c q val x) (fun r v' => Sum.elim
      (fun x' => Waiting puts w q val x'.1 v') (fun l' => Finished w q val l' v') r) v := by
  have hq := he.enqueues.queue
  refine wp.read fun v₁ h₁ => wp.read fun v₂ h₂ => ?_
  have hn₁ := read_tail hq v₁
  have hn₂ := (grown_of_le h₂).getElem? hn₁
  have hle₂ := (grown_of_le h₂).chain.tail q hq
  have he₂ := he.since (.of_le (h₁.trans h₂))
  split
  next m hnext =>
    exact wp.bind_of (tailCae_spec hq hn₂ ((read_next hq hn₂).symm.trans hnext) hle₂)
      fun _ v₃ h₃ => he₂.since h₃.1
  next =>
    refine wp.bind_of (fetchAddTail_spec hq hn₂) fun t v₃ ⟨h₃, ht⟩ => ?_
    have hg₃ := grown_since h₃
    refine wp.bind_of (putCell_spec hsize (he₂.since h₃) (hg₃.getElem? hn₂)
      (hle₂.trans (hg₃.chain.tail q hq)) ht x.2) fun r v₄ h₄ => ?_
    cases r with
    | stored => exact h₄
    | again k => exact h₄
    | alloc k =>
      obtain ⟨he₄, hc₄, ht₄⟩ := h₄
      refine wp.bind_of (appendRing_spec he₄ hc₄ ht₄) fun r v₅ h₅ => ?_
      cases r with
      | inl l' => exact h₅
      | inr l' => exact h₅

/-- `lcrq_put`: it returns with its item put in. -/
theorem lcrqPut_spec (hsize : 0 < size) (he : Waiting puts w q val l v) :
    wp E.protocol c (lcrqPut size c q val l) (fun l' v' => Finished w q val l' v') v := by
  refine wp.forever (fun x v' => Waiting puts w q val x.1 v') he fun x v₁ he₁ => ?_
  refine (lcrqPutRound_spec hsize he₁).mono ?_
  rintro (x' | l') v₂ h₂
  · exact h₂
  · exact h₂

end DcboLcrq
