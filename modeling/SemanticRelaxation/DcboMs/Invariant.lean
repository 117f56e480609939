import SemanticRelaxation.DcboMs.PartialQueue
import SemanticRelaxation.Prog.Regime

/-!
# The steps of the Michael-Scott partial queue

`regime w good` is what the code of `partial-ms.c` relies on and keeps, for `w` queues that hold
values with `good`. The ghost state names the call that has allocated a node.

* `msEnqueue_spec` and `msDequeue_spec`: the two operations under interference;
* `Got op q r s`: the call `op` has taken `r` from queue `q`;
* `Untaken op s`: the call `op` has taken nothing.
-/

namespace DcboMs

open AtomicProg Linked MichaelScott

/-- The queues of the memory. -/
def Memory.store (s : Memory) : Store ℤ := ⟨s.cells, s.tail, s.head⟩

/-- The call `op` has taken nothing. -/
def Untaken (op : ℕ) (s : Memory) : Prop := ∀ q, op ∉ s.taken q

/-- The call `op` has taken the value `r` from queue `q`, and nothing else. -/
def Got (op q : ℕ) (r : ℤ) (s : Memory) : Prop :=
  ∃ p n : ℕ, (s.taken q)[p]? = some op ∧ (s.cells.line q)[p + 1]? = some n ∧
    (s.cells.heap n).val = r

/-- The invariant of `w` queues. -/
structure Inv (w : ℕ) (good : ℤ → Prop) (s : Memory) : Prop where
  valid : Valid w s.store
  count : ∀ q < w, (s.taken q).length = (s.head q).count
  once : ∀ q < w, ∀ q' < w, ∀ i i' op : ℕ, (s.taken q)[i]? = some op →
    (s.taken q')[i']? = some op → q = q' ∧ i = i'
  good : ∀ q < w, ∀ p n : ℕ, (s.cells.line q)[p + 1]? = some n → good (s.cells.heap n).val
  first : ∀ q < w, (s.cells.line q)[0]? = some q

/-- What the steps of the others keep for the owner `o`. -/
structure Kept (w : ℕ) (o : Owner) (s s' : Memory × (ℕ → ℕ)) : Prop where
  nodes : Frame w o s.1.store s.2 s'.1.store s'.2
  taken : ∀ q, s.1.taken q <+: s'.1.taken q
  own : ∀ n, o = .op n → ∀ q, n ∈ s'.1.taken q → n ∈ s.1.taken q

/-- The rules that all threads keep to. -/
def regime (C : Type) (w : ℕ) (good : ℤ → Prop) : Regime C Memory (ℕ → ℕ) where
  inv _ s := Inv w good s.1
  frame := Kept w
  fresh n s := Untaken n s.1
  assume _ _ := True
  refl o s := ⟨.refl o s.1.store s.2, fun _ => List.prefix_refl _, fun _ _ _ h => h⟩
  trans _ _ _ _ h₁ h₂ := ⟨h₁.nodes.trans h₂.nodes, fun q => (h₁.taken q).trans (h₂.taken q),
    fun n ho q hn => h₁.own n ho q (h₂.own n ho q hn)⟩
  inv_call _ _ _ h := h
  fresh_later n _ _ hf hn q hm := hn q (hf.own n rfl q hm)

variable {L : Type} {S : Service Memory L} {w : ℕ} {good : ℤ → Prop}
  {E : Results S (regime S.Call w good)} {c : Caller} {v v₁ v₂ : View E.protocol c} {q : ℕ}

theorem inv_of (v : View E.protocol c) : Inv w good v.state := v.inv_pair

theorem grows_since (h : Since v v₁) : Grows v.state.store v₁.state.store := h.frame.nodes.grows

theorem grows_of_le (h : v ≤ v₁) : Grows v.state.store v₁.state.store := grows_since (.of_le h)

theorem untaken_since (h : Since v v₁) (hu : Untaken c.op v.state) : Untaken c.op v₁.state :=
  fun q hm => hu q (h.frame.own _ rfl q hm)

theorem Untaken.stable : Stable fun v : View E.protocol c => Untaken c.op v.state :=
  fun _ _ h hu => untaken_since (.of_le h) hu

theorem Got.later {op : ℕ} {r : ℤ} {o : Owner} {s s' : Memory × (ℕ → ℕ)} (hq : q < w)
    (hi : Inv w good s.1) (h : Kept w o s s') (hg : Got op q r s.1) : Got op q r s'.1 := by
  obtain ⟨p, n, hp, hn, hr⟩ := hg
  refine ⟨p, n, (h.taken q).getElem?_of_some hp, h.nodes.grows.getElem? hn, ?_⟩
  exact (h.nodes.grows.val n (hi.valid.lines.lt_fresh q hq n (List.mem_of_getElem? hn))).trans hr

/-! ### The steps -/

/-- A step that only moves the tail is allowed. -/
theorem swing_allows {m : ℕ}
    (hv : (v.state.cells.line q)[(v.state.tail q).count + 1]? = some m) :
    E.protocol.Allows c v.now
        (v.after (v.state.setTail q ⟨some m, (v.state.tail q).count + 1⟩) v.now.2) ∧
      ∀ o, Kept w o v.pair (v.state.setTail q ⟨some m, (v.state.tail q).count + 1⟩, v.now.2) := by
  have hi := inv_of v
  have hk : ∀ o, Kept w o v.pair
      (v.state.setTail q ⟨some m, (v.state.tail q).count + 1⟩, v.now.2) := fun o =>
    ⟨.of_cells (.swing (Nat.le_succ _)) rfl, fun _ => List.prefix_refl _, fun _ _ _ h => h⟩
  exact ⟨Regime.allows v ⟨hi.valid.swing hv, hi.count, hi.once, hi.good, hi.first⟩
    fun o _ => hk o, hk⟩

theorem readDescriptor_spec {loc : Memory → Descriptor} {Q : Descriptor → View E.protocol c → Prop}
    (h : ∀ v₁ v₂ v₃ : View E.protocol c, v ≤ v₁ → v ≤ v₂ → v₁ ≤ v₃ → v₂ ≤ v₃ →
      Q ⟨(loc v₁.state).node, (loc v₂.state).count⟩ v₃) :
    wp E.protocol c (readDescriptor loc) Q v := by
  refine wp.choose fun n v₀ h₀ => ?_
  split
  · refine wp.read fun v₁ h₁ => wp.read fun v₂ h₂ => ?_
    exact h v₁ v₂ v₂ (h₀.trans h₁) (h₀.trans (h₁.trans h₂)) h₂ le_rfl
  · refine wp.read fun v₁ h₁ => wp.read fun v₂ h₂ => ?_
    exact h v₂ v₁ v₂ (h₀.trans (h₁.trans h₂)) (h₀.trans h₁) le_rfl h₂

/-- The tail is swung to the node behind the one that was read. -/
theorem tailCae_spec (hq : q < w) {p t m count : ℕ} (ht : (v.state.cells.line q)[p]? = some t)
    (hm : (v.state.cells.line q)[p + 1]? = some m) :
    wp E.protocol c (tailCae q ⟨some t, count⟩ ⟨some m, count + 1⟩) (fun _ v' => Since v v') v := by
  unfold tailCae
  refine wp.cae (fun v₁ h₁ he _ => ?_) fun v₁ h₁ _ => Since.of_le h₁
  have hi := (inv_of v₁).valid
  have ht₁ := (grows_of_le h₁).getElem? ht
  have hcount : (v₁.state.tail q).count = p := by
    refine hi.put_count hq (ht₁.trans ?_) (List.getElem?_eq_some_iff.1 ht₁).1
    exact (congrArg Descriptor.node he).symm
  obtain rfl : (v₁.state.tail q).count = count := congrArg Descriptor.count he
  obtain ⟨hall, hk⟩ := swing_allows (v := v₁) (hcount ▸ (grows_of_le h₁).getElem? hm)
  exact ⟨v₁.now.2, hall, (Since.of_le h₁).trans (.step hk)⟩

/-! ### `ms_enqueue` -/

/-- The node `n` of the running call is not linked yet. -/
structure Mine (w : ℕ) (good : ℤ → Prop) (op n : ℕ) (s : Memory × (ℕ → ℕ)) : Prop where
  owner : s.2 n = op
  unlinked : Unlinked w s.1.cells n
  good : good (s.1.cells.heap n).val

theorem Mine.since {n : ℕ} (hn : Mine w good c.op n v.pair) (h : Since v v₁) :
    Mine w good c.op n v₁.pair where
  owner := (h.frame.nodes.owner n hn.unlinked.lt_fresh).trans hn.owner
  unlinked := h.frame.nodes.unlinked n (congrArg _ hn.owner.symm) hn.unlinked
  good := by
    have he := h.frame.nodes.grows.val n hn.unlinked.lt_fresh
    exact (show (v₁.state.cells.heap n).val = (v.state.cells.heap n).val from he) ▸ hn.good

theorem createMsNode_spec {val : ℤ} (hval : good val) :
    wp E.protocol c (createMsNode val) (fun n v' => Since v v' ∧ Mine w good c.op n v'.pair) v := by
  intro v₁ h₁ _ _
  have hi := inv_of v₁
  have hk : ∀ o, Kept w o v₁.pair (v₁.state.onCells (·.create val),
      Function.update v₁.now.2 v₁.state.cells.fresh c.op) := fun o =>
    ⟨.create v₁.state.store val c.op, fun _ => List.prefix_refl _, fun _ _ _ h => h⟩
  refine ⟨Function.update v₁.now.2 v₁.state.cells.fresh c.op,
    Regime.allows v₁ ⟨hi.valid.create val, hi.count, hi.once, fun j hj p n hn => ?_, hi.first⟩
      fun o _ => hk o,
    (Since.of_le h₁).trans (.step hk), Function.update_self .., .create hi.valid.lines val, ?_⟩
  · have hlt := hi.valid.lines.lt_fresh j hj n (List.mem_of_getElem? hn)
    exact (show ((v₁.state.onCells (·.create val)).cells.heap n).val = _ from
      (Grows.create v₁.state.store val).val n hlt) ▸ hi.good j hj p n hn
  · show good (Function.update v₁.state.cells.heap v₁.state.cells.fresh _ v₁.state.cells.fresh).val
    rwa [Function.update_self]

/-- The node is linked behind the last node `t`. -/
theorem link_allows (hq : q < w) {p t n : ℕ} (ht : (v.state.cells.line q)[p]? = some t)
    (hle : p ≤ (v.state.tail q).count) (hnone : (v.state.cells.heap t).next = none)
    (hn : Mine w good c.op n v.pair) :
    E.protocol.Allows c v.now (v.after (v.state.onCells (·.append q (some t) n)) v.now.2) ∧
      (((v.state.onCells (·.append q (some t) n)).cells.line q)[p + 1]? = some n) := by
  have hi := inv_of v
  obtain ⟨-, hlast⟩ := hi.valid.put_of_last hq ht hle hnone
  have hnew : Function.update v.state.cells.line q (v.state.cells.line q ++ [n]) q =
      v.state.cells.line q ++ [n] := Function.update_self ..
  refine ⟨Regime.allows v ⟨hi.valid.link hq ht hle hnone hn.unlinked, hi.count, hi.once, ?_,
    fun j hj => (Grows.link v.state.store q t n).getElem? (hi.first j hj)⟩ ?_, ?_⟩
  · intro j hj i k hk
    show good ((v.state.cells.append q (some t) n).heap k).val
    rw [Cells.append_val]
    rcases v.state.cells.append_entry hk with hk | ⟨-, -, rfl⟩
    · exact hi.good j hj i k hk
    · exact hn.good
  · exact fun o ho => ⟨.link ho hn.owner hq ht, fun _ => List.prefix_refl _, fun _ _ _ h => h⟩
  · show (Function.update v.state.cells.line q (v.state.cells.line q ++ [n]) q)[p + 1]? = some n
    have hlast : p + 1 = (v.state.cells.line q).length := hlast
    rw [hnew, hlast, List.getElem?_concat_length]

/-- The node `n` stands behind `tail` in queue `q`. -/
def Behind (q n : ℕ) (tail : Descriptor) (s : Memory) : Prop :=
  ∃ p t : ℕ, tail.node = some t ∧ (s.cells.line q)[p]? = some t ∧
    (s.cells.line q)[p + 1]? = some n

/-- What `msEnqueue` keeps of `v` until it returns. -/
def Idle (v v' : View E.protocol c) : Prop := v.seen ⊆ v'.seen ∧
  (Untaken c.op v.state → Untaken c.op v'.state)

theorem idle_since (h : Since v v₁) : Idle v v₁ := ⟨h.seen, untaken_since h⟩

theorem Idle.trans (h₁ : Idle v v₁) (h₂ : Idle v₁ v₂) : Idle v v₂ :=
  ⟨h₁.1.trans h₂.1, fun h => h₂.2 (h₁.2 h)⟩

/-- A node that was read as the tail stands in the line, not behind the tail. -/
theorem read_tail (hq : q < w) (v : View E.protocol c) : ∃ t, (v.state.tail q).node = some t ∧
    (v.state.cells.line q)[(v.state.tail q).count]? = some t := by
  obtain ⟨t, ht⟩ := (inv_of v).valid.tail_some hq
  exact ⟨t, ht, ((inv_of v).valid.tail q hq).trans ht⟩

theorem read_head (hq : q < w) (v : View E.protocol c) : ∃ t, (v.state.head q).node = some t ∧
    (v.state.cells.line q)[(v.state.head q).count]? = some t := by
  obtain ⟨t, ht⟩ := (inv_of v).valid.head_some hq
  exact ⟨t, ht, ((inv_of v).valid.head q hq).trans ht⟩

/-- The successor of a node of the line. -/
theorem read_next (hq : q < w) {p t : ℕ} (ht : (v.state.cells.line q)[p]? = some t) :
    (v.state.cells.heap t).next = (v.state.cells.line q)[p + 1]? :=
  (inv_of v).valid.lines.next q hq p t ht

theorem msEnqueueRound_spec (hq : q < w) {n : ℕ} (hn : Mine w good c.op n v.pair) :
    wp E.protocol c (msEnqueueRound q n) (fun r v' => Idle v v' ∧ Sum.elim
      (fun _ => Mine w good c.op n v'.pair) (fun tail => Behind q n tail v'.state) r) v := by
  refine wp.bind (readDescriptor_spec fun v₁ _ v₂ h₁ _ h₂ _ => ?_)
  obtain ⟨t, hnode, ht₁⟩ := read_tail hq v₁
  simp only [hnode]
  refine wp.read fun v₃ h₃ => ?_
  have ht₃ := (grows_of_le (h₂.trans h₃)).getElem? ht₁
  split
  next =>
    simp only [enqCae, Prog.bind_assoc]
    refine wp.cae (fun v₄ h₄ he _ => ?_) fun v₄ h₄ _ => ?_
    · have h₁₄ := h₂.trans (h₃.trans h₄)
      have hs := Since.of_le (h₁.trans h₁₄)
      obtain ⟨hall, hnew⟩ := link_allows hq ((grows_of_le h₁₄).getElem? ht₁)
        ((grows_of_le h₁₄).put q) he (hn.since hs)
      refine ⟨v₄.now.2, hall, (idle_since hs).trans ⟨v₄.subset_step _ _ hall.inv, fun h => h⟩,
        (v₁.state.tail q).count, t, rfl, ?_, hnew⟩
      exact (Grows.link v₄.state.store q t n).getElem? ((grows_of_le h₁₄).getElem? ht₁)
    · have hs := Since.of_le (h₁.trans (h₂.trans (h₃.trans h₄)))
      exact ⟨idle_since hs, hn.since hs⟩
  next hne =>
    refine wp.read fun v₄ h₄ => ?_
    obtain ⟨m, hm⟩ := Option.ne_none_iff_exists'.1 hne
    have hm₃ : (v₃.state.cells.line q)[(v₁.state.tail q).count + 1]? = some m :=
      (read_next hq ht₃).symm.trans hm
    have ht₄ := (grows_of_le h₄).getElem? ht₃
    have hm₄ := (grows_of_le h₄).getElem? hm₃
    have he : (v₄.state.cells.deref (some t)).next = some m := (read_next hq ht₄).trans hm₄
    rw [he]
    refine wp.bind_of (tailCae_spec hq ht₄ hm₄) fun _ v₅ h₅ => ?_
    have hs := (Since.of_le (h₁.trans (h₂.trans (h₃.trans h₄)))).trans h₅
    exact ⟨idle_since hs, hn.since hs⟩

/-- `ms_enqueue` takes nothing. -/
theorem msEnqueue_spec (hq : q < w) {val : ℤ} (hval : good val) :
    wp E.protocol c (msEnqueue q val) (fun _ v' => Idle v v') v := by
  refine wp.bind_of (createMsNode_spec hval) fun n v₁ ⟨h₁, hn⟩ => ?_
  refine wp.bind_of (wp.forever (Q := fun tail v' => Idle v v' ∧ Behind q n tail v'.state)
    (fun _ v' => Idle v v' ∧ Mine w good c.op n v'.pair) ⟨idle_since h₁, hn⟩ ?_) ?_
  · rintro _ v₂ ⟨h₂, hn₂⟩
    refine (msEnqueueRound_spec hq hn₂).mono ?_
    rintro (_ | tail) v₃ ⟨h₃, hr⟩
    · exact ⟨h₂.trans h₃, hr⟩
    · exact ⟨h₂.trans h₃, hr⟩
  · rintro ⟨node, count⟩ v₂ ⟨h₂, p, t, hnode, ht, hm⟩
    obtain rfl : node = some t := hnode
    refine wp.bind_of (tailCae_spec hq ht hm) fun _ v₃ h₃ => ?_
    exact h₂.trans (idle_since h₃)

/-! ### `ms_dequeue` -/

/-- The queue `q` is empty: its head and its tail are at one node. -/
def Clear (q : ℕ) (s : Memory) : Prop := (s.head q).count = (s.tail q).count

/-- The worlds of `v` are worlds of `v'`, and the queues have grown since. -/
structure Later (v v' : View E.protocol c) : Prop where
  seen : v.seen ⊆ v'.seen
  grows : Grows v.state.store v'.state.store

theorem later_since (h : Since v v₁) : Later v v₁ := ⟨h.seen, grows_since h⟩

theorem Later.trans (h₁ : Later v v₁) (h₂ : Later v₁ v₂) : Later v v₂ :=
  ⟨h₁.seen.trans h₂.seen, h₁.grows.trans h₂.grows⟩

/-- Between `v` and `v'` the queue `q` was seen empty. -/
def WasClear (q : ℕ) (v v' : View E.protocol c) : Prop :=
  ∃ u ∈ v'.seen, Grows v.state.store u.1.shared.store ∧
    Grows u.1.shared.store v'.state.store ∧ Clear q u.1.shared

/-- What a dequeue that has returned `r` knows of queue `q`. -/
def Dequeued (q : ℕ) (v : View E.protocol c) (r : ℤ) (v' : View E.protocol c) : Prop :=
  Later v v' ∧ (Got c.op q r v'.state ∨ r = Dcbo.EMPTY ∧ Untaken c.op v'.state ∧ WasClear q v v')

theorem Dequeued.of_later {r : ℤ} (h : Later v v₁) (hd : Dequeued q v₁ r v₂) :
    Dequeued q v r v₂ := by
  refine ⟨h.trans hd.1, hd.2.imp_right fun ⟨he, hu, u, hm, h₁, h₂, hc⟩ => ?_⟩
  exact ⟨he, hu, u, hm, h.grows.trans h₁, h₂, hc⟩

theorem got_allows (hq : q < w) {m : ℕ} (hu : Untaken c.op v.state)
    (hlt : (v.state.head q).count < (v.state.tail q).count)
    (hm : (v.state.cells.line q)[(v.state.head q).count + 1]? = some m) :
    E.protocol.Allows c v.now
      (v.after (v.state.setHead c.op q ⟨some m, (v.state.head q).count + 1⟩) v.now.2) := by
  have hi := inv_of v
  have htaken : ∀ j, (v.state.setHead c.op q ⟨some m, (v.state.head q).count + 1⟩).taken j =
      if j = q then v.state.taken q ++ [c.op] else v.state.taken j := by
    intro j
    show Function.update v.state.taken q (v.state.taken q ++ [c.op]) j = _
    by_cases hj : j = q
    · subst hj
      simp
    · simp [hj]
  -- an entry of the new list is an old one or the new one
  have hentry : ∀ j, ∀ i o : ℕ, (if j = q then v.state.taken q ++ [c.op] else v.state.taken j)[i]? =
      some o → (v.state.taken j)[i]? = some o ∨
        o = c.op ∧ j = q ∧ i = (v.state.taken q).length := by
    intro j i o ho
    by_cases hj : j = q
    · subst hj
      rw [if_pos rfl] at ho
      exact (List.getElem?_concat_cases ho).imp_right fun ⟨hl, hop⟩ => ⟨hop, rfl, hl⟩
    · rw [if_neg hj] at ho
      exact .inl ho
  refine Regime.allows v ⟨hi.valid.take hq hlt hm, fun j hj => ?_, ?_, hi.good, hi.first⟩ ?_
  · rw [htaken]
    show _ = (Function.update v.state.head q _ j).count
    by_cases hjq : j = q
    · subst hjq
      rw [if_pos rfl, Function.update_self, List.length_append, hi.count j hj]
      rfl
    · rw [if_neg hjq, Function.update_of_ne hjq, hi.count j hj]
  · intro j hj j' hj' i i' o ho ho'
    rw [htaken] at ho ho'
    rcases hentry j i o ho with h₁ | ⟨rfl, rfl, rfl⟩
    · rcases hentry j' i' o ho' with h₂ | ⟨rfl, rfl, rfl⟩
      · exact hi.once j hj j' hj' i i' o h₁ h₂
      · exact absurd (List.mem_of_getElem? h₁) (hu j)
    · rcases hentry j' i' _ ho' with h₂ | ⟨-, rfl, rfl⟩
      · exact absurd (List.mem_of_getElem? h₂) (hu j')
      · exact ⟨rfl, rfl⟩
  · intro o ho
    refine ⟨.of_cells (.take (Nat.le_succ _)) rfl, fun j => ?_, fun n hn j hm => ?_⟩
    · rw [htaken]
      split
      next hj => exact hj ▸ List.prefix_append _ _
      next => exact List.prefix_refl _
    · obtain ⟨i, hi⟩ := List.mem_iff_getElem?.1 hm
      rw [htaken] at hi
      rcases hentry j i n hi with h | ⟨rfl, -⟩
      · exact List.mem_of_getElem? h
      · exact absurd (show c.Is o from hn ▸ rfl) ho

theorem helpOrEmpty_spec (hq : q < w) {p t hcount tcount : ℕ}
    (ht : (v.state.cells.line q)[p]? = some t) :
    wp E.protocol c (helpOrEmpty q ⟨some t, hcount⟩ ⟨some t, tcount⟩)
      (fun r v' => Since v v' ∧ ∀ x, r = .inr x → x = Dcbo.EMPTY) v := by
  refine wp.read fun v₁ h₁ => ?_
  have ht₁ := (grows_of_le h₁).getElem? ht
  split
  next =>
    refine ⟨.of_le h₁, ?_⟩
    rintro x ⟨⟩
    rfl
  next hne =>
    refine wp.read fun v₂ h₂ => ?_
    obtain ⟨m, hm⟩ := Option.ne_none_iff_exists'.1 hne
    have hm₁ : (v₁.state.cells.line q)[p + 1]? = some m := (read_next hq ht₁).symm.trans hm
    have ht₂ := (grows_of_le h₂).getElem? ht₁
    have hm₂ := (grows_of_le h₂).getElem? hm₁
    have he : (v₂.state.cells.deref (some t)).next = some m := (read_next hq ht₂).trans hm₂
    simp only [he]
    refine wp.bind_of (tailCae_spec hq ht₂ hm₂) fun _ v₃ h₃ => ?_
    exact ⟨(Since.of_le (h₁.trans h₂)).trans h₃, nofun⟩

/-- The head has been read at position `p`, and the tail after that further on. -/
theorem takeHead_spec (hq : q < w) {p t count : ℕ} (hu : Untaken c.op v.state)
    (ht : (v.state.cells.line q)[p]? = some t) (hlt : p < (v.state.tail q).count) :
    wp E.protocol c (takeHead c q ⟨some t, count⟩) (fun r v' => Sum.elim
      (fun _ => Since v v') (fun x => Later v v' ∧ Got c.op q x v'.state) r) v := by
  refine wp.read fun v₁ h₁ => ?_
  have hlt₁ : p + 1 < (v₁.state.cells.line q).length := by
    have h₂ := (inv_of v₁).valid.put_lt hq
    have h₃ := (grows_of_le h₁).put q
    exact lt_of_le_of_lt (lt_of_lt_of_le hlt h₃) h₂
  have ht₁ := (grows_of_le h₁).getElem? ht
  obtain ⟨m, hm⟩ : ∃ m, (v₁.state.cells.line q)[p + 1]? = some m :=
    ⟨_, List.getElem?_eq_getElem hlt₁⟩
  have he : (v₁.state.cells.deref (some t)).next = some m := (read_next hq ht₁).trans hm
  simp only [he, deqCae, Prog.bind_assoc]
  refine wp.cae (fun v₂ h₂ hd _ => ?_) fun v₂ h₂ _ => Since.of_le (h₁.trans h₂)
  have ht₂ := (grows_of_le h₂).getElem? ht₁
  have hm₂ := (grows_of_le h₂).getElem? hm
  have hp : (v₂.state.head q).count = p := by
    refine (inv_of v₂).valid.get_count hq (ht₂.trans ?_) (List.getElem?_eq_some_iff.1 ht₂).1
    exact (congrArg Descriptor.node hd).symm
  obtain rfl : (v₂.state.head q).count = count := congrArg Descriptor.count hd
  have hs := Since.of_le (h₁.trans h₂)
  have hlt₂ : (v₂.state.head q).count < (v₂.state.tail q).count := by
    rw [hp]
    exact lt_of_lt_of_le hlt ((grows_since hs).put q)
  have hall := got_allows hq (untaken_since hs hu) hlt₂ (hp ▸ hm₂)
  refine ⟨v₂.now.2, hall, ?_⟩
  -- what has been taken is read from the node, which does not change any more
  have hg : Grows v₂.state.store (v₂.step _ _ hall.inv).state.store := .take (Nat.le_succ _)
  refine wp.read fun v₃ h₃ => wp.read fun v₄ h₄ => ?_
  have hg₄ := hg.trans (grows_of_le (h₃.trans h₄))
  have he₃ : (v₃.state.cells.deref (some t)).next = some m :=
    (read_next hq ((hg.trans (grows_of_le h₃)).getElem? ht₂)).trans
      ((hg.trans (grows_of_le h₃)).getElem? hm₂)
  refine ⟨⟨?_, (grows_since hs).trans hg₄⟩, p, m, ?_, hg₄.getElem? hm₂, ?_⟩
  · exact hs.seen.trans ((v₂.subset_step _ _ hall.inv).trans (h₃.trans h₄).1)
  · have hlen : p = (v₂.state.taken q).length := by
      rw [(inv_of v₂).count q hq, hp]
    have htk := (View.frame_op (h₃.trans h₄)).taken q
    have hin : (Function.update v₂.state.taken q (v₂.state.taken q ++ [c.op]) q)[p]? =
        some c.op := by
      rw [Function.update_self, hlen, List.getElem?_concat_length]
    exact htk.getElem?_of_some hin
  · rw [he₃]
    rfl

theorem msDequeueRound_spec (hq : q < w) (hu : Untaken c.op v.state) :
    wp E.protocol c (msDequeueRound c q) (fun r v' => Sum.elim
      (fun _ => Since v v') (fun x => Dequeued q v x v') r) v := by
  refine wp.bind (readDescriptor_spec fun v₁ _ v₂ h₁ _ h₂ _ => ?_)
  refine wp.bind (readDescriptor_spec fun v₃ _ v₄ h₃ _ h₄ _ => ?_)
  obtain ⟨t, hnode, ht₁⟩ := read_head hq v₁
  obtain ⟨t', hnode', ht₃⟩ := read_tail hq v₃
  have h₁₃ := h₂.trans h₃
  have hs := Since.of_le (h₁.trans (h₁₃.trans h₄))
  have hold : (v₃.state.cells.line q)[(v₁.state.head q).count]? = some t :=
    (grows_of_le h₁₃).getElem? ht₁
  have hle : (v₁.state.head q).count ≤ (v₃.state.head q).count := (grows_of_le h₁₃).get q
  have hle' : (v₃.state.head q).count ≤ (v₃.state.tail q).count := (inv_of v₃).valid.le q hq
  simp only [hnode, hnode']
  split
  next heq =>
    obtain rfl : t = t' := Option.some.inj heq
    have hpos : (v₁.state.head q).count = (v₃.state.tail q).count :=
      (inv_of v₃).valid.pos_inj hq hold ht₃
    refine (helpOrEmpty_spec hq ((grows_of_le h₄).getElem? hold)).mono ?_
    rintro (_ | x) v₅ ⟨h₅, hx⟩
    · exact hs.trans h₅
    · refine ⟨later_since (hs.trans h₅), .inr ⟨hx x rfl, untaken_since (hs.trans h₅) hu, v₃.now,
        h₅.seen (h₄.1 v₃.mem), grows_of_le (h₁.trans h₁₃), ?_, ?_⟩⟩
      · exact (grows_of_le h₄).trans (grows_since h₅)
      · show (v₃.state.head q).count = (v₃.state.tail q).count
        omega
  next hne =>
    have hpos : (v₁.state.head q).count ≠ (v₃.state.tail q).count := by
      intro e
      rw [e, ht₃] at hold
      exact hne hold.symm
    have hlt₃ : (v₁.state.head q).count < (v₃.state.tail q).count := by omega
    have hlt : (v₁.state.head q).count < (v₄.state.tail q).count :=
      lt_of_lt_of_le hlt₃ ((grows_of_le h₄).put q)
    refine (takeHead_spec hq (untaken_since hs hu) ((grows_of_le h₄).getElem? hold) hlt).mono ?_
    rintro (_ | x) v₅ h₅
    · exact hs.trans h₅
    · exact ⟨(later_since hs).trans h₅.1, .inl h₅.2⟩

/-- `ms_dequeue`: what it returns it has taken, or the queue was empty meanwhile. -/
theorem msDequeue_spec (hq : q < w) (hu : Untaken c.op v.state) :
    wp E.protocol c (msDequeue c q) (fun r v' => Dequeued q v r v') v := by
  refine wp.forever (fun _ v' => Since v v') (.refl v) ?_
  rintro _ v₁ h₁
  refine (msDequeueRound_spec hq (untaken_since h₁ hu)).mono ?_
  rintro (_ | x) v₂ h₂
  · exact h₁.trans h₂
  · exact h₂.of_later (later_since h₁)

end DcboMs
