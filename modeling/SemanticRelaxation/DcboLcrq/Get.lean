import SemanticRelaxation.DcboLcrq.Put

/-!
# `lcrq_get`

* `Wasted w size op s`: the call `op` has got indices at most that no item will ever be put in at;
* `Got w size op q r s`: it has removed `r` from queue `q`, and nothing else;
* `Emptied q v v'`: from `v` to `v'` the tail of queue `q` has moved, or no index is left that an
  enqueue has got and no dequeue;
* `lcrqGet_spec`: the operation under interference.
-/

namespace DcboLcrq

open AtomicProg Linked Segments

variable {L : Type} {S : Service Memory L} {w size : ℕ} {good : Memory → Prop}
  {puts : S.Call → ℤ → Prop} {E : Results S (regime S.Call w size good puts)} {c : Caller}
  {v v₁ v₂ : View E.protocol c} {q p n h : ℕ} {s s' : Memory}

/-! ### What a dequeue knows -/

/-- At the indices that the call `op` has got, but for that of `x`, no item will ever be put in. -/
def WastedBut (w size op : ℕ) (x : Option (ℕ × ℕ)) (s : Memory) : Prop :=
  ∀ q < w, ∀ n ∈ s.line q, ∀ h, (s.ring n).claims h = some op → some (n, h) ≠ x →
    (s.ring n).stored h = none ∧ Refused size (s.ring n) h

/-- The call `op` has got indices at most that no item will ever be put in at. -/
abbrev Wasted (w size op : ℕ) (s : Memory) : Prop := WastedBut w size op none s

/-- The call `op` has removed `r` from queue `q`, and nothing else. -/
def Got (w size op q : ℕ) (r : ℤ) (s : Memory) : Prop :=
  ∃ n h e, n ∈ s.line q ∧ (s.ring n).taken h = some op ∧ (s.ring n).stored h = some (e, r) ∧
    WastedBut w size op (some (n, h)) s

theorem WastedBut.kept {op : ℕ} {y : Option (ℕ × ℕ)} {x x' : Memory × Ghost}
    (hw : WastedBut w size op y x.1) (hk : Kept w size (.op op) x x') :
    WastedBut w size op y x'.1 := by
  intro q hq n hn i hc hne
  rcases hk.own op rfl q hq n hn with ⟨hn', hquiet⟩ | hidle
  · obtain ⟨hnone, hr⟩ := hw q hq n hn' i (hquiet.claims i hc) hne
    have hev := hk.rings q hq n hn'
    exact ⟨hev.refused i hnone hr, hev.keeps_refused hr⟩
  · exact absurd hc (hidle.claims_ne i)

theorem Got.kept {op : ℕ} {r : ℤ} {x x' : Memory × Ghost} (hq : q < w)
    (hgot : Got w size op q r x.1) (hk : Kept w size (.op op) x x') : Got w size op q r x'.1 := by
  obtain ⟨n, i, e, hn, ht, hs, hrest⟩ := hgot
  have hev := hk.rings q hq n hn
  exact ⟨n, i, e, hk.grown.mem hn, hev.taken i _ ht, hev.stored i _ hs, hrest.kept hk⟩

/-- The worlds of `v` are worlds of `v'`, and the thread has taken such steps since as others might.
-/
structure Later (v v' : View E.protocol c) : Prop where
  seen : v.seen ⊆ v'.seen
  thread : Kept w size (.thread c.thread) v.pair v'.pair

theorem Later.grown (hl : Later v v₁) : Grown w size v.state v₁.state := hl.thread.grown

theorem later_since (hs : Since v v₁) : Later v v₁ := ⟨hs.seen, hs.thread⟩

theorem Later.refl (v : View E.protocol c) : Later v v := ⟨subset_rfl, .refl w size _ _⟩

theorem Later.trans (h₁ : Later v v₁) (h₂ : Later v₁ v₂) : Later v v₂ :=
  ⟨h₁.seen.trans h₂.seen, h₁.thread.trans h₂.thread⟩

/-- From `v` to `v'` the tail of queue `q` has moved, or the queue is clear. Nothing is said if a
dequeue has been misled. -/
def Emptied (q : ℕ) (v v' : View E.protocol c) : Prop :=
  v'.state.misled = false → tailPair q v.state = tailPair q v'.state → Clear q v'.state

/-- The tail has not moved in between. -/
theorem tailPair_between (hq : q < w) (h₁ : Later v v₁) (h₂ : Later v₁ v₂)
    (he : tailPair q v.state = tailPair q v₂.state) : tailPair q v.state = tailPair q v₁.state := by
  have hpair : (tailPair q v.state).1 = (tailPair q v₂.state).1 ∧
    (tailPair q v.state).2 = (tailPair q v₂.state).2 := by rw [he]; exact ⟨rfl, rfl⟩
  rcases tailPair_le (inv_of v) (inv_of v₁) h₁.grown hq with hlt | ⟨he₁, -, hle₁⟩
  · have hle := h₂.grown.chain.tail q hq
    have hlt : v.state.chain.tailPos q < v₁.state.chain.tailPos q := hlt
    have heq : v.state.chain.tailPos q = v₂.state.chain.tailPos q := hpair.1
    omega
  · rcases tailPair_le (inv_of v₁) (inv_of v₂) h₂.grown hq with hlt | ⟨-, -, hle₂⟩
    · exact absurd (he₁.symm.trans hpair.1) hlt.ne
    · exact Prod.ext he₁ (le_antisymm hle₁ (hle₂.trans hpair.2.ge))

theorem Emptied.of_later (hq : q < w) (h₁ : Later v v₁) (h₂ : Later v₁ v₂) (he : Emptied q v₁ v₂) :
    Emptied q v v₂ := fun hm hpair =>
  he hm ((tailPair_between hq h₁ h₂ hpair).symm.trans hpair)

/-- The queue was clear in between. -/
theorem Emptied.of_clear (hq : q < w) (h₁ : Later v v₁) (h₂ : Later v₁ v₂)
    (hc : v₁.state.misled = false → Clear q v₁.state) : Emptied q v v₂ := fun hm hpair =>
  (hc (h₂.grown.misled_false hm)).later (inv_of v₁) (inv_of v₂) h₂.grown hq
    ((tailPair_between hq h₁ h₂ hpair).symm.trans hpair)

/-- The queue is clear if the tail has not gone beyond a ring that has been the head, and as many
indices of this ring have been got by dequeues as by enqueues. -/
theorem clear_of_le (hq : q < w) (hn : (v.state.line q)[p]? = some n)
    (hle : p ≤ v.state.chain.headPos q) (htail : v.state.chain.tailPos q ≤ p)
    (hissued : (v.state.ring n).issued ≤ (v.state.ring n).head) :
    Clear q v.state := by
  intro p' n' hn' hle'
  rcases (hle'.trans htail).lt_or_eq with hlt | rfl
  · exact (inv_of v).head q hq p' n' hn' (hlt.trans_le hle)
  · obtain rfl : n = n' := Option.some.inj (hn.symm.trans hn')
    exact hissued

/-- The tail is not beyond a ring that has no successor later. -/
theorem tailPos_le (hq : q < w) (hn : (v.state.line q)[p]? = some n) (hle : v ≤ v₁)
    (hnone : (v₁.state.chain.cells.heap n).next = none) : v.state.chain.tailPos q ≤ p := by
  have hg := grown_of_le hle
  have hlast := (inv_of v₁).valid.lines.last hq (hg.getElem? hn) hnone
  have hlt := (inv_of v₁).valid.tailPos_lt hq
  have hmono := hg.chain.tail q hq
  omega

/-! ### The early check -/

/-- The early check of `lcrq_get` on a ring that has been the head. -/
theorem nothingLeft_spec (hq : q < w) (hn : (v.state.line q)[p]? = some n)
    (hle : p ≤ v.state.chain.headPos q) :
    wp E.protocol c (nothingLeft n) (fun b v' => Since v v' ∧ (b = true → Emptied q v v')) v := by
  refine wp.read fun v₁ h₁ => wp.read fun v₂ h₂ => ?_
  have h₀₂ := h₁.trans h₂
  have hg₂ := grown_of_le h₀₂
  have hn₁ := (grown_of_le h₁).getElem? hn
  have hn₂ := hg₂.getElem? hn
  split
  next hge =>
    refine wp.update fun v₃ h₃ hg => ?_
    have hg₃ := grown_of_le h₃
    have hi₃ := inv_of v₃
    have h₀₃ := h₀₂.trans h₃
    -- the step only sets the flag
    have hstep : ∀ s', (s' = v₃.state ∨ s' = { v₃.state with misled := true }) → good s' →
        E.protocol.Allows c v₃.now (v₃.after s' v₃.now.2) ∧
          ∀ o, Kept w size o v₃.pair (s', v₃.now.2) := by
      rintro s' (rfl | rfl) hgood
      · exact ⟨wp.allows_self v₃, fun o => .refl w size o _⟩
      · have hk : ∀ o, Kept w size o v₃.pair ({ v₃.state with misled := true }, v₃.now.2) :=
          fun o =>
          .of_rings (.refl (fun _ => True.intro) o _ _) (fun _ => rfl) (fun _ _ _ _ => rfl)
            fun _ => rfl
        refine ⟨rings_allows ?_ hgood (fun _ => rfl) (fun _ _ _ _ => rfl) (fun _ => rfl)
          fun o _ => (hk o).nodes, hk⟩
        exact ⟨hi₃.valid, hi₃.ring, hi₃.closed, hi₃.head, hi₃.items, hi₃.once⟩
    obtain ⟨hall, hk⟩ := hstep _ (by split <;> simp) hg
    refine ⟨v₃.now.2, hall, (Since.of_le h₀₃).trans (.step hk), fun hb => ?_⟩
    have hnone : (v₃.state.chain.cells.heap n).next = none := of_decide_eq_true hb
    have hl₃ : Later v₃ (v₃.step _ _ hall.inv) := later_since (.step hk)
    have hle₂ := hle.trans (hg₂.chain.head q hq)
    rcases Bool.eq_false_or_eq_true (v₂.state.ring n).tail.mark with hm | hm
    · intro hmis hpair
      have hn₃ := hg₃.getElem? hn₂
      have hclear : Clear q v₃.state := by
        refine clear_of_le hq hn₃ (hle₂.trans (hg₃.chain.head q hq))
          (tailPos_le hq hn₃ le_rfl hnone) (not_lt.1 fun hlt => ?_)
        have hmis : (if (v₃.state.chain.cells.heap n).next = none ∧
          (v₂.state.ring n).tail.mark = true ∧
          (v₃.state.ring n).head < (v₃.state.ring n).issued then { v₃.state with misled := true }
            else v₃.state).misled = false := hmis
        rw [if_pos ⟨hnone, hm, hlt⟩] at hmis
        cases hmis
      exact hclear.later (inv_of v₃) (inv_of _) hl₃.grown hq
        ((tailPair_between hq (later_since (.of_le h₀₃)) hl₃ hpair).symm.trans hpair)
    · have hl₂ : Later v₂ (v₃.step _ _ hall.inv) := (later_since (.of_le h₃)).trans hl₃
      refine .of_clear hq (later_since (.of_le h₀₂)) hl₂ fun _ => ?_
      refine clear_of_le hq hn₂ hle₂ (tailPos_le hq hn₂ h₃ hnone) ?_
      have hhead := ((grown_of_le h₂).ring hq hn₁).head
      have hissued := ((inv_of v₂).ring_of hq hn₂).issued.2 hm
      have hge : ((v₁.state.ring n).head : ℤ) ≥ (v₂.state.ring n).tail.signed := hge
      rw [Word.signed, hm] at hge
      have hge : ((v₁.state.ring n).head : ℤ) ≥ (v₂.state.ring n).tail.index := hge
      omega
  next => exact ⟨.of_le h₀₂, nofun⟩

/-! ### The index that a dequeue has got -/

/-- The call has got the index `h` of the ring `n` at position `p` of queue `q`, and nothing else
that is of use. -/
structure Claiming (q p n h : ℕ) (v : View E.protocol c) : Prop where
  ring : (v.state.line q)[p]? = some n
  head : p ≤ v.state.chain.headPos q
  claim : (v.state.ring n).claims h = some c.op
  untaken : (v.state.ring n).taken h = none
  rest : WastedBut w size c.op (some (n, h)) v.state

/-- Nobody else removes the item of the index. -/
theorem Claiming.since (hq : q < w) (hc : Claiming q p n h v) (hs : Since v v₁) :
    Claiming q p n h v₁ := by
  have hg := grown_since hs
  have hn := hg.getElem? hc.ring
  have hev := hg.ring hq hc.ring
  refine ⟨hn, hc.head.trans (hg.chain.head q hq), hev.claims h _ hc.claim, ?_,
    hc.rest.kept hs.frame⟩
  by_contra hne
  obtain ⟨d, hd⟩ := Option.ne_none_iff_exists'.1 hne
  have hclaim := (((inv_of v₁).ring_of hq hn).taken h d hd).1
  rw [hev.claims h _ hc.claim] at hclaim
  obtain rfl : c.op = d := Option.some.inj hclaim
  rcases hs.frame.own c.op rfl q hq n (List.mem_of_getElem? hn) with ⟨-, hquiet⟩ | hidle
  · have htaken := hquiet.taken h hd
    rw [show (v.pair.1.ring n).taken h = none from hc.untaken] at htaken
    cases htaken
  · cases hidle.taken h hd

/-- Where the cell of the index has moved on, the call has got nothing. -/
theorem Claiming.wasted (hq : q < w) (hc : Claiming q p n h v)
    (hne : ((v.state.ring n).cell size h).idx.index ≠ h) (hr : Refused size (v.state.ring n) h) :
    Wasted w size c.op v.state := by
  intro j hj m hm i hi _
  by_cases he : (m, i) = (n, h)
  · cases he
    refine ⟨?_, hr⟩
    by_contra hsome
    obtain ⟨⟨e, val⟩, hx⟩ := Option.ne_none_iff_exists'.1 hsome
    exact hne (((inv_of v).ring_of hq hc.ring).held h e val hx hc.untaken).2
  · exact hc.rest j hj m hm i hi fun e => he (Option.some.inj e)

theorem Claiming.lt_head (hq : q < w) (hc : Claiming q p n h v) : h < (v.state.ring n).head :=
  (((inv_of v).ring_of hq hc.ring).claimed h).1 (Option.isSome_iff_exists.2 ⟨_, hc.claim⟩)

/-- A fetch-and-add on the head of a ring. -/
theorem fetchAddHead_spec (hq : q < w) (hn : (v.state.line q)[p]? = some n)
    (hle : p ≤ v.state.chain.headPos q) (hw : Wasted w size c.op v.state) :
    wp E.protocol c (fetchAddHead c n) (fun h v' => Later v v' ∧ Claiming q p n h v') v := by
  intro v₁ h₁ _ hg
  have hn₁ := (grown_of_le h₁).getElem? hn
  have hi := (inv_of v₁).ring_of hq hn₁
  have hw₁ : Wasted w size c.op v₁.state := hw.kept (Since.of_le h₁).frame
  have hclaims : ∀ i d, ((v₁.state.ring n).addHead c.op).claims i = some d →
      (v₁.state.ring n).claims i = some d ∨ i = (v₁.state.ring n).head ∧ d = c.op := by
    intro i d hd
    replace hd : Function.update (v₁.state.ring n).claims (v₁.state.ring n).head (some c.op) i =
      some d := hd
    by_cases hih : i = (v₁.state.ring n).head
    · subst hih
      rw [Function.update_self] at hd
      exact .inr ⟨rfl, (Option.some.inj hd).symm⟩
    · rw [Function.update_of_ne hih] at hd
      exact .inl hd
  obtain ⟨hall, hk⟩ := ring_allows (f := (·.addHead c.op)) hq (List.mem_of_getElem? hn₁)
    (hi.addHead c.op) hg 0 (fun _ _ h => .inl h) fun op hop => ⟨fun _ _ h _ => h,
      fun i hc => (hclaims i op hc).resolve_right fun e => hop e.2, fun _ h => h⟩
  have hk := hk (.thread c.thread) nofun
  refine ⟨v₁.now.2, hall, (later_since (.of_le h₁)).trans ⟨v₁.subset_step _ _ hall.inv, hk⟩, ?_⟩
  have hring : ∀ k, (v₁.step _ _ hall.inv).state.ring k =
      if k = n then (v₁.state.ring n).addHead c.op else v₁.state.ring k :=
    v₁.state.ring_onRing n (·.addHead c.op)
  have hself : (v₁.step _ _ hall.inv).state.ring n = (v₁.state.ring n).addHead c.op := by
    rw [hring, if_pos rfl]
  refine ⟨hn₁, hle.trans ((grown_of_le h₁).chain.head q hq), ?_, ?_, fun j hj m hm i hc hne => ?_⟩
  · rw [hself]
    exact Function.update_self ..
  · show ((v₁.step _ _ hall.inv).state.ring n).taken (v₁.state.ring n).head = none
    rw [hself]
    by_contra hne
    obtain ⟨d, hd⟩ := Option.ne_none_iff_exists'.1 hne
    have hclaim := (hi.taken _ d hd).1
    rw [hi.claims_head] at hclaim
    cases hclaim
  · rw [hring] at hc ⊢
    split at hc
    next e =>
      subst e
      rw [if_pos rfl]
      refine (hclaims i _ hc).elim (fun hc => hw₁ j hj m hm i hc nofun) fun ⟨hi, _⟩ => ?_
      exact absurd (by rw [hi]) hne
    next e =>
      rw [if_neg e]
      exact hw₁ j hj m hm i hc nofun

/-- The call moves or marks the cell of its index, where it has found no item. -/
theorem giveUp_spec {β : Type} (hq : q < w) (hc : Claiming q p n h v)
    {set : RingNode → RingQueue → RingQueue} {cell new : RingNode}
    (hidx : cell.idx.index ≤ h) (hne : cell.val = -1 ∨ cell.idx.index ≠ h)
    (hset : ∀ a, RingInv size a → a.cell size h = cell → h < a.head →
      (RingInv size (set new a) ∧ Evolves size a (set new a)) ∧ Refused size (set new a) h)
    (hrec : ∀ a, (set new a).stored = a.stored ∧ (set new a).claims = a.claims ∧
      (set new a).taken = a.taken) {k : Bool × RingNode → Prog Memory β} {Q :
      β → View E.protocol c → Prop}
    (hs : ∀ v', Since v v' → Wasted w size c.op v'.state → wp E.protocol c (k (true, cell)) Q v')
    (hf : ∀ v', v ≤ v' → wp E.protocol c (k (false, (v'.state.ring n).cell size h)) Q v') :
    wp E.protocol c (cellCae n (h % size) set cell new >>= k) Q v := by
  unfold cellCae
  refine wp.cae (fun v₁ h₁ he hg => ?_) fun v₁ h₁ _ => hf v₁ h₁
  have hc₁ := hc.since hq (.of_le h₁)
  have hi := (inv_of v₁).ring_of hq hc₁.ring
  have he : (v₁.state.ring n).cell size h = cell := he
  obtain ⟨hinv, hr⟩ := hset _ hi he (hc₁.lt_head hq)
  obtain ⟨hstored, hclaims, htaken⟩ := hrec (v₁.state.ring n)
  obtain ⟨hall, hk⟩ :=
    silent_allows hq (List.mem_of_getElem? hc₁.ring) hinv hg hstored hclaims htaken
  refine ⟨v₁.now.2, hall, hs _ ((Since.of_le h₁).trans (.step hk)) ?_⟩
  have hring : ∀ m, (v₁.step _ _ hall.inv).state.ring m =
      if m = n then set new (v₁.state.ring n) else v₁.state.ring m :=
    v₁.state.ring_onRing n (set new)
  -- there was no item at the index, and now there will be none
  have hnone : (v₁.state.ring n).stored h = none := by
    rcases hne with hv | hne
    · exact hi.unstored_of_empty (by rw [he]; exact hv) rfl (by rw [he]; exact hidx)
    · by_contra hsome
      obtain ⟨⟨e, val⟩, hx⟩ := Option.ne_none_iff_exists'.1 hsome
      have heq := (hi.held h e val hx hc₁.untaken).2
      rw [he] at heq
      exact hne heq
  intro j hj m hm i hi' _
  rw [hring] at hi' ⊢
  split at hi'
  next e =>
    subst e
    rw [if_pos rfl]
    rw [hstored, hclaims] at *
    by_cases hih : i = h
    · subst hih
      exact ⟨hnone, hr⟩
    · obtain ⟨h₁', h₂'⟩ := hc₁.rest j hj m hm i hi' fun e => hih (by cases e; rfl)
      exact ⟨h₁', hinv.2.keeps_refused h₂'⟩
  next e =>
    rw [if_neg e]
    exact hc₁.rest j hj m hm i hi' fun e' => e (by cases e'; rfl)

/-- The call removes the item of its index. -/
theorem takeCae_spec {β : Type} (hq : q < w) (hsize : 0 < size) (hc : Claiming q p n h v)
    {cell : RingNode} (hidx : cell.idx.index = h) (hv : cell.val ≠ -1)
    {k : Bool × RingNode → Prog Memory β} {Q : β → View E.protocol c → Prop}
    (hs : ∀ v', Later v v' → Got w size c.op q cell.val v'.state → wp E.protocol c
      (k (true, cell)) Q v')
    (hf : ∀ v', v ≤ v' → wp E.protocol c (k (false, (v'.state.ring n).cell size h)) Q v') :
    wp E.protocol c (cellCae n (h % size) (fun d a => a.take size c.op h d) cell
      ⟨-1, ⟨h + size, cell.idx.mark⟩⟩ >>= k) Q v := by
  unfold cellCae
  refine wp.cae (fun v₁ h₁ he hg => ?_) fun v₁ h₁ _ => hf v₁ h₁
  have hc₁ := hc.since hq (.of_le h₁)
  have hi := (inv_of v₁).ring_of hq hc₁.ring
  have he : (v₁.state.ring n).cell size h = cell := he
  have hidx : cell.idx = ⟨h, cell.idx.mark⟩ := by rw [← hidx]
  have htake := hi.take (h := h) (u := cell.idx.mark) hsize (by rw [he]; exact hv)
    (by rw [he]; exact hidx) hc₁.claim
  obtain ⟨⟨e, hst⟩, -⟩ := hi.full h (by rw [he]; exact hv)
  rw [he, hidx] at hst
  have hquiet : ∀ op, op ≠ c.op → Quiet op (v₁.state.ring n)
      ((v₁.state.ring n).take size c.op h ⟨-1, ⟨h + size, cell.idx.mark⟩⟩) := by
    refine fun op hop => ⟨fun _ _ h _ => h, fun _ h => h, fun i ht => ?_⟩
    replace ht : Function.update (v₁.state.ring n).taken h (some c.op) i = some op := ht
    by_cases hih : i = h
    · subst hih
      rw [Function.update_self] at ht
      exact absurd (Option.some.inj ht).symm hop
    · rwa [Function.update_of_ne hih] at ht
  obtain ⟨hall, hk⟩ :=
    ring_allows (f := fun a => a.take size c.op h ⟨-1, ⟨h + size, cell.idx.mark⟩⟩) hq
    (List.mem_of_getElem? hc₁.ring) htake hg 0 (fun _ _ h => .inl h) hquiet
  have hk := hk (.thread c.thread) nofun
  refine ⟨v₁.now.2, hall, hs _ ((later_since (.of_le h₁)).trans
    ⟨v₁.subset_step _ _ hall.inv, hk⟩) ⟨n, h, e, List.mem_of_getElem? hc₁.ring, ?_, ?_, ?_⟩⟩
  · show ((v₁.state.onRing n _).ring n).taken h = some c.op
    rw [v₁.state.ring_onRing, if_pos rfl]
    exact Function.update_self ..
  · show ((v₁.state.onRing n _).ring n).stored h = some (e, cell.val)
    rw [v₁.state.ring_onRing, if_pos rfl]
    exact hst
  · intro j hj m hm i hi' hne
    have hev := hk.rings j hj m hm
    have hclaims : ((v₁.step _ _ hall.inv).state.ring m).claims i = (v₁.state.ring m).claims i := by
      show ((v₁.state.onRing n _).ring m).claims i = _
      rw [v₁.state.ring_onRing]
      split
      next e => rw [e]; rfl
      next => rfl
    rw [hclaims] at hi'
    obtain ⟨h₁', h₂'⟩ := hc₁.rest j hj m hm i hi' hne
    exact ⟨hev.refused i h₁' h₂', hev.keeps_refused h₂'⟩

/-- The cell and the tail word of the inner loop have been read in the ring `n`. -/
structure Looping (size q p n h : ℕ) (x : RingNode × Word × ℕ) (v : View E.protocol c) : Prop where
  claiming : Claiming q p n h v
  cell : x.1.idx.index ≤ ((v.state.ring n).cell size h).idx.index
  tail : x.2.1.index ≤ (v.state.ring n).tail.index
  closed : x.2.1.mark = true → (v.state.ring n).tail.mark = true

theorem Looping.since {x : RingNode × Word × ℕ} (hq : q < w) (hl : Looping size q p n h x v)
    (hs : Since v v₁) : Looping size q p n h x v₁ := by
  have hev := (grown_since hs).ring hq hl.claiming.ring
  exact ⟨hl.claiming.since hq hs, hl.cell.trans (hev.idx h), hl.tail.trans hev.tail,
    fun hm => hev.closed (hl.closed hm)⟩

/-- The exchange has failed, and the loop goes on with the cell that was found. -/
theorem Looping.found {x : RingNode × Word × ℕ} (hq : q < w) (hl : Looping size q p n h x v)
    (hle : v ≤ v₁) :
    Looping size q p n h ((v₁.state.ring n).cell size h, x.2.1, x.2.2) v₁ := by
  have hl₁ := hl.since hq (.of_le hle)
  exact ⟨hl₁.claiming, le_rfl, hl₁.tail, hl₁.closed⟩

theorem reloadTail_spec {x : RingNode × Word × ℕ} (hq : q < w) (hl : Looping size q p n h x v) :
    wp E.protocol c (reloadTail n x.2.1 x.2.2) (fun tt v' => Since v v' ∧
      Looping size q p n h (x.1, tt, x.2.2) v') v := by
  unfold reloadTail
  split
  next =>
    intro v₁ h₁ _ _
    have hl₁ := hl.since hq (.of_le h₁)
    exact wp.same (k := .ret) ⟨.of_le h₁, ⟨hl₁.claiming, hl₁.cell, le_rfl, id⟩⟩
  next => exact ⟨.refl v, hl⟩

/-- What the inner loop of a dequeue ends with. -/
def Ended (size : ℕ) (q : ℕ) (v : View E.protocol c) (r : Option ℤ) (v' : View E.protocol c) :
    Prop :=
  Later v v' ∧ r.elim (Wasted w size c.op v'.state) fun val =>
    val ≠ -1 ∧ Got w size c.op q val v'.state

theorem Ended.of_later {r : Option ℤ} (hl : Later v v₁) (he : Ended size q v₁ r v₂) :
    Ended size q v r v₂ :=
  ⟨hl.trans he.1, he.2⟩

/-- An empty cell is moved on. -/
theorem skipCae_spec {x : RingNode × Word × ℕ} (hq : q < w) (hsize : 0 < size)
    (hl : Looping size q p n h x v) (hle : x.1.idx.index ≤ h) (hv : x.1.val = -1) {u : Bool}
    (hu : u = x.1.idx.mark) {k : Bool × RingNode → Prog Memory ((RingNode × Word × ℕ) ⊕ Option ℤ)}
    {Q : (RingNode × Word × ℕ) ⊕ Option ℤ → View E.protocol c → Prop}
    (hs : ∀ v', Since v v' → Wasted w size c.op v'.state → wp E.protocol c (k (true, x.1)) Q v')
    (hf : ∀ v' y, Since v v' → Looping size q p n h (y, x.2.1, x.2.2) v' →
      wp E.protocol c (k (false, y)) Q v') :
    wp E.protocol c (cellCae n (h % size) (fun d a => a.setCell (h % size) d) x.1
      ⟨x.1.val, ⟨h + size, u⟩⟩ >>= k) Q v := by
  subst hu
  refine giveUp_spec hq hl.claiming hle (.inl hv) (fun a hi he _ => ⟨hi.skip he hv hle, .inl ?_⟩)
    (fun _ => ⟨rfl, rfl, rfl⟩) hs fun v₁ h₁ => hf v₁ _ (.of_le h₁) (hl.found hq h₁)
  rw [a.setCell_cell, if_pos rfl]
  exact Nat.lt_add_of_pos_right hsize

/-- An empty cell without mark, which is moved on; after many rounds the ring is closed as well. -/
theorem getCellRound_spec {x : RingNode × Word × ℕ} (hq : q < w) (hsize : 0 < size)
    (hl : Looping size q p n h x v) :
    wp E.protocol c (getCellRound size c n h x) (fun r v' => Sum.elim
      (fun x' => Later v v' ∧ Looping size q p n h x' v') (fun o => Ended size q v o v') r) v := by
  obtain ⟨cell, tt, r⟩ := x
  have hc := hl.claiming
  unfold getCellRound
  dsimp only
  split
  next hgt =>
    have hgt : h < ((v.state.ring n).cell size h).idx.index := lt_of_lt_of_le hgt hl.cell
    exact ⟨.refl v, hc.wasted hq hgt.ne' (.inl hgt)⟩
  next hgt =>
    have hle : cell.idx.index ≤ h := not_lt.1 hgt
    split
    next hv =>
      split
      next hidx =>
        refine takeCae_spec hq hsize hc hidx hv (fun v₁ h₁ hgot => ⟨h₁, hv, hgot⟩) fun v₁ h₁ => ?_
        exact ⟨later_since (.of_le h₁), hl.found hq h₁⟩
      next hidx =>
        refine giveUp_spec hq hc hle (.inr hidx) (fun a hi he hh => ⟨hi.pass he hv hh, .inr ?_⟩)
          (fun _ => ⟨rfl, rfl, rfl⟩) (fun v₁ h₁ hw => ⟨later_since h₁, hw⟩) fun v₁ h₁ => ?_
        · exact Function.update_self ..
        · exact ⟨later_since (.of_le h₁), hl.found hq h₁⟩
    next hv =>
      have hv : cell.val = -1 := not_not.1 hv
      refine wp.bind_of (reloadTail_spec hq hl) fun tt' v₁ ⟨h₁, hl₁⟩ => ?_
      split
      next hm =>
        refine skipCae_spec hq hsize hl₁ hle hv hm.symm (fun v₂ h₂ hw => ?_) fun v₂ y h₂ hl₂ => ?_
        · exact ⟨later_since (h₁.trans h₂), hw⟩
        · exact ⟨later_since (h₁.trans h₂), hl₂⟩
      next hm =>
        split
        next =>
          refine skipCae_spec hq hsize hl₁ hle hv (Bool.eq_false_of_not_eq_true hm).symm
            (fun v₂ h₂ hw => ?_) fun v₂ y h₂ hl₂ => ?_
          · have hs₂ := h₁.trans h₂
            have hl₂ := hl₁.since hq h₂
            simp only [if_true]
            split
            next hlong =>
              have hpos : 1 ≤ (v₂.state.ring n).tail.index := by
                rcases hlong.2 with hm | hlt
                · exact ((inv_of v₂).ring_of hq hl₂.claiming.ring).closed (hl₂.closed hm)
                · have ht := hl₂.tail
                  have hlt : size < tt'.index := hlt
                  have ht : tt'.index ≤ (v₂.state.ring n).tail.index := ht
                  omega
              refine wp.bind_of (tasTail_spec hq hl₂.claiming.ring hpos) fun _ v₃ ⟨h₃, _⟩ => ?_
              exact ⟨later_since (hs₂.trans h₃), hw.kept h₃.frame⟩
            next => exact ⟨later_since hs₂, hw⟩
          · exact ⟨later_since (h₁.trans h₂), hl₂⟩
        next => exact ⟨later_since h₁, hl₁.claiming, hl₁.cell, hl₁.tail, hl₁.closed⟩

theorem getCell_spec (hq : q < w) (hsize : 0 < size) (hc : Claiming q p n h v) :
    wp E.protocol c (getCell size c n h) (fun o v' => Ended size q v o v') v := by
  refine wp.bind_of (readCell_spec hq hc.ring) fun cell v₁ ⟨h₁, hcell⟩ => ?_
  have hc₁ := hc.since hq (.of_le h₁)
  refine wp.forever (fun x v' => Later v v' ∧ Looping size q p n h x v')
    ⟨later_since (.of_le h₁), hc₁, hcell, Nat.zero_le _, nofun⟩ ?_
  rintro x v₂ ⟨h₂, hl₂⟩
  refine (getCellRound_spec hq hsize hl₂).mono ?_
  rintro (x' | o) v₃ h₃
  · exact ⟨h₂.trans h₃.1, h₃.2⟩
  · exact h₃.of_later h₂

/-! ### The loop -/

/-- The head moves on to the next ring if dequeues have got all indices of the present one; without
a next ring the queue is clear. -/
theorem leaveRing_spec (hq : q < w) (hn : (v.state.line q)[p]? = some n)
    (hle : p ≤ v.state.chain.headPos q) (hlt : h < (v.state.ring n).head) :
    wp E.protocol c (leaveRing q n h) (fun r v' => Since v v' ∧
      ∀ x, r = .inr x → x = -1 ∧ Emptied q v v') v := by
  -- what is known of the ring in every later view
  have hat : ∀ {v' : View E.protocol c}, v ≤ v' → (v'.state.line q)[p]? = some n ∧
      p ≤ v'.state.chain.headPos q ∧ h < (v'.state.ring n).head := fun hv' => by
    have hg := grown_of_le hv'
    exact ⟨hg.getElem? hn, hle.trans (hg.chain.head q hq), hlt.trans_le (hg.ring hq hn).head⟩
  refine wp.read fun v₁ h₁ => ?_
  obtain ⟨hn₁, hle₁, hlt₁⟩ := hat h₁
  split
  next htail =>
    refine wp.read fun v₂ h₂ => ?_
    have h₀₂ := h₁.trans h₂
    obtain ⟨hn₂, -, -⟩ := hat h₀₂
    split
    next hnone =>
      refine ⟨.of_le h₀₂, ?_⟩
      rintro _ ⟨⟩
      refine ⟨rfl, .of_clear hq (later_since (.of_le h₁)) (later_since (.of_le h₂)) fun _ => ?_⟩
      refine clear_of_le hq hn₁ hle₁ (tailPos_le hq hn₁ h₂ hnone) ?_
      exact ((inv_of v₁).ring_of hq hn₁).issued.1.trans (htail.trans hlt₁)
    next m hnext =>
      have hm₂ : (v₂.state.line q)[p + 1]? = some m := (read_next hq hn₂).symm.trans hnext
      have hclosed : (v₂.state.ring n).tail.mark = true :=
        (inv_of v₂).closed q hq p n hn₂ (List.getElem?_eq_some_iff.1 hm₂).1
      refine wp.read fun v₃ h₃ => ?_
      have h₀₃ := h₀₂.trans h₃
      obtain ⟨hn₃, -, hlt₃⟩ := hat h₀₃
      split
      next htail₃ =>
        simp only [headCae, Prog.bind_assoc]
        refine wp.cae (fun v₄ h₄ he hg => ?_) fun v₄ h₄ _ => ⟨.of_le (h₀₃.trans h₄), nofun⟩
        obtain ⟨hn₄, hle₄, -⟩ := hat (h₀₃.trans h₄)
        have hi := inv_of v₄
        have hg₄ := grown_of_le (h₃.trans h₄)
        have hm₄ := hg₄.getElem? hm₂
        have hpos : v₄.state.chain.headPos q = p := by
          refine hi.valid.pos_eq hq ?_
          rw [he]
          exact hn₄
        have hleft : (v₄.state.ring n).issued ≤ (v₄.state.ring n).head := by
          have hev := (grown_of_le h₄).ring hq hn₃
          have hm₃ := ((grown_of_le h₃).ring hq hn₂).closed hclosed
          rw [hev.frozen hm₃]
          exact (((inv_of v₃).ring_of hq hn₃).issued.1.trans (htail₃.trans hlt₃)).trans hev.head
        have hheadPos : ∀ j, (v₄.state.onChain (·.setHead q m)).chain.headPos j =
            if j = q then p + 1 else v₄.state.chain.headPos j := hi.valid.setHead_pos hq hm₄
        have hinv : Inv w size (v₄.state.onChain (·.setHead q m)) := by
          refine hi.of_rings (hi.valid.setHead (List.mem_of_getElem? hm₄)) (fun _ => rfl)
            (fun _ _ _ _ => rfl) fun j hj i k hk hlt => ?_
          rw [hheadPos] at hlt
          split at hlt
          next e =>
            subst e
            rcases Nat.lt_succ_iff_lt_or_eq.1 hlt with hlt | rfl
            · exact hi.head j hj i k hk (hlt.trans_le hle₄)
            · obtain rfl : n = k := Option.some.inj (hn₄.symm.trans hk)
              exact hleft
          next => exact hi.head j hj i k hk hlt
        have hframe : ∀ o, Frame (fun _ _ => True) w o v₄.state.chain v₄.now.2
            (v₄.state.onChain (·.setHead q m)).chain v₄.now.2 := fun o =>
          .of_cells (hi.valid.setHead_grows (fun _ => True.intro) hq hm₄ (by omega)) rfl
        exact ⟨v₄.now.2, rings_allows hinv hg (fun _ => rfl) (fun _ _ _ _ => rfl) id
          fun o _ => hframe o,
          (Since.of_le (h₀₃.trans h₄)).trans
            (.step fun o => .of_rings (hframe o) (fun _ => rfl) (fun _ _ _ _ => rfl) id), nofun⟩
      next => exact ⟨.of_le h₀₃, nofun⟩
  next => exact ⟨.of_le h₁, nofun⟩

/-- What a dequeue that has returned `r` knows of queue `q`. -/
def Dequeued (size q : ℕ) (v : View E.protocol c) (r : ℤ) (v' : View E.protocol c) : Prop :=
  Later v v' ∧ (r ≠ -1 ∧ Got w size c.op q r v'.state ∨
    r = -1 ∧ Wasted w size c.op v'.state ∧ Emptied q v v')

theorem Dequeued.of_later (hq : q < w) {r : ℤ} (hl : Later v v₁) (hd : Dequeued size q v₁ r v₂) :
    Dequeued size q v r v₂ :=
  ⟨hl.trans hd.1, hd.2.imp_right fun ⟨he, hw, hem⟩ => ⟨he, hw, hem.of_later hq hl hd.1⟩⟩

theorem lcrqGetRound_spec (hq : q < w) (hsize : 0 < size) (hw : Wasted w size c.op v.state) :
    wp E.protocol c (lcrqGetRound size c q) (fun r v' => Sum.elim
      (fun _ => Later v v' ∧ Wasted w size c.op v'.state)
      (fun x => Dequeued size q v x v') r) v := by
  refine wp.read fun v₁ h₁ => ?_
  have hn₁ : (v₁.state.line q)[v₁.state.chain.headPos q]? = some (v₁.state.chain.head q) :=
    (inv_of v₁).valid.getElem?_head hq
  refine wp.bind_of (nothingLeft_spec hq hn₁ le_rfl) fun b v₂ ⟨h₂, hb⟩ => ?_
  have hs₂ := (Since.of_le h₁).trans h₂
  have hw₂ : Wasted w size c.op v₂.state := hw.kept hs₂.frame
  have hg₂ := grown_since h₂
  split
  next hb' =>
    exact ⟨later_since hs₂, .inr ⟨rfl, hw₂,
      (hb hb').of_later hq (later_since (.of_le h₁)) (later_since h₂)⟩⟩
  next =>
    refine wp.bind_of (fetchAddHead_spec hq (hg₂.getElem? hn₁) (hg₂.chain.head q hq) hw₂)
      fun h v₃ ⟨h₃, hc₃⟩ => ?_
    refine wp.bind_of (getCell_spec hq hsize hc₃) fun o v₄ ⟨h₄, ho⟩ => ?_
    have hl₃ := (later_since hs₂).trans h₃
    have hl₄ := hl₃.trans h₄
    cases o with
    | some val => exact ⟨hl₄, .inl ⟨ho.1, ho.2⟩⟩
    | none =>
      have ho : Wasted w size c.op v₄.state := ho
      have hlt : h < (v₄.state.ring (v₁.state.chain.head q)).head :=
        (hc₃.lt_head hq).trans_le (h₄.grown.ring hq hc₃.ring).head
      refine (leaveRing_spec hq (h₄.grown.getElem? hc₃.ring)
        (hc₃.head.trans (h₄.grown.chain.head q hq)) hlt).mono ?_
      rintro (_ | x) v₅ ⟨h₅, hx⟩
      · exact ⟨hl₄.trans (later_since h₅), ho.kept h₅.frame⟩
      · obtain ⟨rfl, hem⟩ := hx x rfl
        exact ⟨hl₄.trans (later_since h₅), .inr ⟨rfl, ho.kept h₅.frame,
          hem.of_later hq hl₄ (later_since h₅)⟩⟩

/-- `lcrq_get`: it returns what it has removed; or -1, and then the queue is clear unless its tail
has moved meanwhile or a dequeue has been misled. -/
theorem lcrqGet_spec (hq : q < w) (hsize : 0 < size) (hw : Wasted w size c.op v.state) :
    wp E.protocol c (lcrqGet size c q) (fun r v' => Dequeued size q v r v') v := by
  refine wp.forever (fun _ v' => Later v v' ∧ Wasted w size c.op v'.state) ⟨.refl v, hw⟩ ?_
  rintro _ v₁ ⟨h₁, hw₁⟩
  refine (lcrqGetRound_spec hq hsize hw₁).mono ?_
  rintro (_ | x) v₂ h₂
  · exact ⟨h₁.trans h₂.1, h₂.2⟩
  · exact h₂.of_later hq h₁

end DcboLcrq
