import SemanticRelaxation.SimpleDcboLcrq.WrappedQueue
import SemanticRelaxation.Prog.Regime
import Mathlib.Data.Prod.Lex

/-!
# The tails of the wrapped queues

The place of the tail of a queue is the position of the tail ring with the index of its tail. It
moves forward only, whatever is enqueued, and the index of no ring is above the number of attempts.

Ghost state: who has made a ring, and where the tail was when a call last read it.

* `Inv`: the chains are valid, and no index is above the number of attempts;
* `Kept`: what the steps of the others keep for the owner `o`;
* `lcrqPut_spec`: an enqueue that returns has moved the tail beyond its place at some time of the
  call.
-/

namespace SimpleDcboLcrq

open AtomicProg Linked Segments DcboLcrq

/-- The place of the tail of queue `q`. -/
def place (s : Memory) (q : ℕ) :
    ℕ ×ₗ ℕ := toLex (s.chain.tailPos q, (s.ring (s.chain.tail q)).tail.index)

/-- The index of the tail does not fall. -/
def Rises (a b : RingQueue) : Prop := a.tail.index ≤ b.tail.index

theorem Rises.refl (a : RingQueue) : Rises a a := le_refl a.tail.index

theorem Rises.trans (a b d : RingQueue) (h : Rises a b) (h' : Rises b d) : Rises a d :=
  le_trans (a := a.tail.index) h h'

variable {w size q n p m t : ℕ} {s s' : Memory} {o : Owner}

/-- The place that a ring gives the tail. -/
theorem le_place (hv : Valid w s.chain) (hq : q < w) (hn : (s.line q)[p]? = some n)
    (hle : p ≤ s.chain.tailPos q) :
    toLex (p, (s.ring n).tail.index) ≤ place s q := by
  unfold place
  rw [Prod.Lex.toLex_le_toLex]
  rcases hle.lt_or_eq with hlt | rfl
  · exact .inl hlt
  · have htail : s.chain.tail q = n := Option.some.inj ((hv.getElem?_tail hq).symm.trans hn)
    exact .inr ⟨rfl, by rw [htail]⟩

theorem place_mono (hv : Valid w s.chain) (hv' : Valid w s'.chain)
    (hg : Grows Rises w s.chain s'.chain) (hq : q < w) : place s q ≤ place s' q := by
  have hn := hv.getElem?_tail hq
  refine le_trans ?_ (le_place hv' hq (hg.getElem? hn) (hg.tail q hq))
  unfold place
  rw [Prod.Lex.toLex_le_toLex]
  exact .inr ⟨rfl, hg.seg _ (hv.lt_fresh hq hn)⟩

/-! ### The rules -/

/-- Where the tail of a queue was when a call last read it. -/
abbrev Starts : Type := ℕ → ℕ → Option (ℕ ×ₗ ℕ)

namespace Starts

variable {g : Starts} {op : ℕ} {F : ℕ ×ₗ ℕ}

/-- The call `op` notes the place `F`. -/
def note (g : Starts) (q op : ℕ) (F : ℕ ×ₗ ℕ) :
    Starts := Function.update g q (Function.update (g q) op (some F))

theorem note_self : g.note q op F q op = some F := by
  rw [note, Function.update_self, Function.update_self]

theorem note_of_ne {m j : ℕ} (h : m ≠ op) : g.note q op F j m = g j m := by
  unfold note
  by_cases hj : j = q
  · subst hj
    rw [Function.update_self, Function.update_of_ne h]
  · rw [Function.update_of_ne hj]

theorem note_cases {m j : ℕ} {F' : ℕ ×ₗ ℕ} (h : g.note q op F j m = some F') :
    g j m = some F' ∨ j = q ∧ F = F' := by
  unfold note at h
  by_cases hj : j = q
  · subst hj
    rw [Function.update_self] at h
    by_cases hm : m = op
    · rw [hm, Function.update_self] at h
      exact .inr ⟨rfl, Option.some.inj h⟩
    · rw [Function.update_of_ne hm] at h
      exact .inl h
  · rw [Function.update_of_ne hj] at h
    exact .inl h

end Starts

/-- Who has made a ring, and where the tail was. -/
structure Notes where
  maker : ℕ → Owner
  starts : Starts

/-- The invariant of `w` queues. -/
structure Inv (w : ℕ) (x : Wrapped) : Prop where
  valid : Valid w x.1.chain
  index : ∀ n, (x.1.ring n).tail.index ≤ x.2.attempts

/-- What the steps of the others keep for the owner `o`. -/
structure Kept (w : ℕ) (o : Owner) (x x' : Wrapped × Notes) : Prop where
  nodes : Frame Rises w o x.1.1.chain x.2.maker x'.1.1.chain x'.2.maker
  attempts : x.1.2.attempts ≤ x'.1.2.attempts
  place : ∀ q < w, place x.1.1 q ≤ place x'.1.1 q
  new : ∀ q < w, ∀ op F, x'.2.starts q op = some F →
    x.2.starts q op = some F ∨ SimpleDcboLcrq.place x.1.1 q ≤ F
  own : ∀ m, o = .op m → ∀ q, x'.2.starts q m = x.2.starts q m

namespace Kept

variable {x x' x'' : Wrapped × Notes}

theorem refl (w : ℕ) (o : Owner) (x : Wrapped × Notes) : Kept w o x x :=
  ⟨.refl .refl o _ _, le_rfl, fun _ _ => le_rfl, fun _ _ _ _ h => .inl h, fun _ _ _ => rfl⟩

theorem trans (h : Kept w o x x') (h' : Kept w o x' x'') : Kept w o x x'' where
  nodes := h.nodes.trans Rises.trans h'.nodes
  attempts := h.attempts.trans h'.attempts
  place q hq := (h.place q hq).trans (h'.place q hq)
  new q hq op F hF := by
    rcases h'.new q hq op F hF with hF | hF
    · exact h.new q hq op F hF
    · exact .inr ((h.place q hq).trans hF)
  own m ho q := (h'.own m ho q).trans (h.own m ho q)

/-- A step without a note. -/
theorem plain {s s' : Wrapped} {g : Notes} {maker : ℕ → Owner} (hi : Inv w s) (hi' : Inv w s')
    (hn : Frame Rises w o s.1.chain g.maker s'.1.chain maker) (ha : s.2.attempts ≤ s'.2.attempts) :
    Kept w o (s, g) (s', { g with maker }) :=
  ⟨hn, ha, fun _ hq => place_mono hi.valid hi'.valid hn.grows hq, fun _ _ _ _ h => .inl h,
    fun _ _ _ => rfl⟩

end Kept

/-- The rules that all threads keep to. -/
def regime (w : ℕ) : Regime Call Wrapped Notes where
  inv _ x := Inv w x.1
  frame := Kept w
  fresh m x := ∀ q, x.2.starts q m = none
  assume _ _ := True
  refl := Kept.refl w
  trans _ _ _ _ := Kept.trans
  inv_call _ _ _ h := h
  fresh_later m _ _ h hm q := (h.own m rfl q).trans (hm q)

/-- The tail of queue `q` is beyond the place where the call `op` has read it. -/
def Passed (op q : ℕ) (x : Wrapped × Notes) :
    Prop := ∃ F, x.2.starts q op = some F ∧ F < place x.1.1 q

theorem Passed.later {op : ℕ} {x x' : Wrapped × Notes} (hq : q < w) (hk : Kept w (.op op) x x')
    (h : Passed op q x) : Passed op q x' := by
  obtain ⟨F, hF, hlt⟩ := h
  exact ⟨F, (hk.own op rfl q).trans hF, hlt.trans_le (hk.place q hq)⟩

/-- What remains true of an enqueue. -/
def Ahead (w op : ℕ) (call : Call) (x : Wrapped × Notes) : Prop :=
  ∀ q val, call = .enqueue q val → q < w ∧ Passed op q x

theorem Ahead.later {op : ℕ} {call : Call} {x x' : Wrapped × Notes} (hk : Kept w (.op op) x x')
    (h : Ahead w op call x) : Ahead w op call x' := fun q val e =>
  ⟨(h q val e).1, (h q val e).2.later (h q val e).1 hk⟩

def results (w size : ℕ) : Results (service size) (regime w) where
  holds op call _ _ x := Ahead w op call x
  later _ _ _ _ _ _ _ _ _ _ hk h := h.later hk

/-- The ring `n` belongs to the thread `t` and is not linked yet. -/
structure Mine (w t n : ℕ) (x : Wrapped × Notes) : Prop where
  maker : x.2.maker n = .thread t
  unlinked : Unlinked w x.1.1.chain.cells n
  index : (x.1.1.ring n).tail.index ≤ 1

theorem Mine.kept {x x' : Wrapped × Notes} (h : Mine w t n x) (hk : Kept w (.thread t) x x') :
    Mine w t n x' := by
  obtain ⟨hu, he⟩ := hk.nodes.unlinked n h.maker.symm h.unlinked
  exact ⟨(hk.nodes.owner n h.unlinked.lt_fresh).trans h.maker, hu,
    by rw [Memory.ring, he]; exact h.index⟩

/-- What a thread keeps in `handle->next`. -/
def Handle (w t : ℕ) (l : Option ℕ) (x : Wrapped × Notes) : Prop := ∀ n, l = some n → Mine w t n x

theorem Handle.kept {l : Option ℕ} {x x' : Wrapped × Notes} (h : Handle w t l x)
    (hk : Kept w (.thread t) x x') : Handle w t l x' := fun n hn => (h n hn).kept hk

/-! ### Steps on a ring -/

/-- A step on the ring `n` that leaves the index of its tail alone. -/
def OnRing (n : ℕ) (s s' : Memory) : Prop :=
  ∃ f : RingQueue → RingQueue, (∀ a, (f a).tail.index = a.tail.index) ∧
    s'.chain = s.chain.modify n f

namespace OnRing

theorem refl (n : ℕ) (s : Memory) : OnRing n s s := by
  refine ⟨id, fun _ => rfl, ?_⟩
  simp only [Chain.modify, id_eq, Function.update_eq_self]

theorem of_ring {f : RingQueue → RingQueue} (hf : ∀ a, (f a).tail.index = a.tail.index) :
    OnRing n s (s.onRing n f) :=
  ⟨f, hf, rfl⟩

theorem steps_read {α : Type} (f : Memory → α) : (Prog.read f).Steps (OnRing n) := .read (refl n) f

theorem steps_cell (i : ℕ) {set : RingNode → RingQueue → RingQueue} (cell new : RingNode)
    (hf : ∀ d a, (set d a).tail.index = a.tail.index) :
    (cellCae n i set cell new).Steps (OnRing n) :=
  .cae (refl n) fun _ _ => of_ring (hf new)

theorem steps_readCell (i : ℕ) : (readCell n i).Steps (OnRing n) := by
  refine .bind (.choose (refl n)) fun k => ?_
  split
  · exact .bind (steps_read _) fun _ => .bind (steps_read _) fun _ => True.intro
  · exact .bind (steps_read _) fun _ => .bind (steps_read _) fun _ => True.intro

theorem steps_readSafe (cell : RingNode) : (readSafe n t cell).Steps (OnRing n) := by
  unfold readSafe
  split
  · split
    · exact .bind (steps_read _) fun _ => True.intro
    · exact True.intro
  · exact True.intro

theorem steps_tasTail : (tasTail n).Steps (OnRing n) := .update fun _ => of_ring fun _ => rfl

theorem steps_closeCrq (tries : ℕ) : (closeCrq n t tries).Steps (OnRing n) := by
  unfold closeCrq
  split
  · exact .bind (.cae (refl n) fun _ _ => of_ring fun _ => rfl) fun _ => True.intro
  · exact steps_tasTail

theorem steps_putCell (c : Caller) (x : Word) (arg : ℤ) (tries : ℕ) :
    (putCell size c n x arg tries).Steps (OnRing n) := by
  unfold putCell
  split
  · exact True.intro
  · refine .bind (steps_readCell _) fun cell => .bind (steps_readSafe cell) fun safe =>
      .bind ?_ fun done => ?_
    · unfold enqCae
      split
      · exact .bind (steps_cell _ _ _ fun _ _ => rfl) fun _ => True.intro
      · exact True.intro
    · split
      · exact True.intro
      · refine .bind (steps_read _) fun h => ?_
        split
        · exact .bind (steps_closeCrq _) fun _ => True.intro
        · exact True.intro

theorem steps_nothingLeft : (nothingLeft n).Steps (OnRing n) := by
  refine .bind (steps_read _) fun head => .bind (steps_read _) fun tail => ?_
  split
  · refine .bind (.update fun s => ?_) fun _ => True.intro
    split
    · exact refl n s
    · exact refl n s
  · exact True.intro

theorem steps_getCellRound (c : Caller) (h : ℕ) (x : RingNode × Word × ℕ) :
    (getCellRound size c n h x).Steps (OnRing n) := by
  obtain ⟨cell, tt, r⟩ := x
  unfold getCellRound
  dsimp only
  split
  · exact True.intro
  · split
    · split
      · exact .bind (steps_cell _ _ _ fun _ _ => rfl) fun _ => True.intro
      · exact .bind (steps_cell _ _ _ fun _ _ => rfl) fun _ => True.intro
    · refine .bind ?_ fun tt' => ?_
      · unfold reloadTail
        split
        · exact steps_read _
        · exact True.intro
      · split
        · exact .bind (steps_cell _ _ _ fun _ _ => rfl) fun _ => True.intro
        · split
          · refine .bind (steps_cell _ _ _ fun _ _ => rfl) fun d => ?_
            split
            · split
              · exact .bind steps_tasTail fun _ => True.intro
              · exact True.intro
            · exact True.intro
          · exact True.intro

theorem steps_getCell (c : Caller) (h : ℕ) : (getCell size c n h).Steps (OnRing n) :=
  .bind (steps_readCell _) fun _ => .forever (fun x => steps_getCellRound c h x) _

end OnRing

variable {c : Caller} {v v₁ v₂ : View (results w size).protocol c} {l : Option ℕ}

theorem inv_of (v : View (results w size).protocol c) : Inv w v.state := v.inv_pair

theorem not_op {o : Owner} (ho : ¬ c.Is o) : o ≠ .op c.op := fun e => ho (e ▸ rfl)

theorem not_thread {o : Owner} (ho : ¬ c.Is o) : o ≠ .thread c.thread := fun e => ho (e ▸ rfl)

theorem frame_since (h : Since v v₁) : Kept w (.op c.op) v.pair v₁.pair := h.frame

theorem getElem?_since (h : Since v v₁) (hn : (v.state.1.line q)[p]? = some n) :
    (v₁.state.1.line q)[p]? = some n :=
  (frame_since h).nodes.grows.getElem? hn

theorem tailPos_since (h : Since v v₁) (hq : q < w) :
    v.state.1.chain.tailPos q ≤ v₁.state.1.chain.tailPos q :=
  (frame_since h).nodes.grows.tail q hq

theorem Inv.onRing {x : Wrapped} (h : Inv w x) (hs : OnRing n x.1 s) : Inv w (s, x.2) := by
  obtain ⟨f, hf, he⟩ := hs
  refine ⟨by rw [he]; exact h.valid.modify n f, fun k => ?_⟩
  show (s.chain.seg k).tail.index ≤ x.2.attempts
  rw [he]
  by_cases hk : k = n
  · subst hk
    rw [x.1.chain.modify_self, hf]
    exact h.index k
  · rw [x.1.chain.modify_of_ne hk]
    exact h.index k

/-- Steps on a ring of a queue. -/
theorem onRing_spec {α : Type} {pr : Prog Memory α} (hpr : pr.Steps (OnRing n)) (hq : q < w)
    (hn : (v.state.1.line q)[p]? = some n) :
    wp (results w size).protocol c pr.onFst (fun _ v' => Since v v') v := by
  have hgen : ∀ v₁, Since v v₁ → wp (results w size).protocol c pr.onFst
    (fun _ v' => Since v v') v₁ := by
    induction pr with
    | ret a => exact fun _ h₁ => h₁
    | act f k ih =>
      intro v₁ h₁ v₂ h₂ r _
      have hs₂ := h₁.trans (.of_le h₂)
      have hstep : OnRing n v₂.state.1 (f r v₂.state.1).2 := hpr.1 r v₂.state.1
      have hi := (inv_of v₂).onRing hstep
      have hk : ∀ o, Kept w o v₂.pair (((f r v₂.state.1).2, v₂.state.2), v₂.now.2) := fun o => by
        refine .plain (inv_of v₂) hi ?_ le_rfl
        obtain ⟨g, hg, he⟩ := hstep
        rw [he]
        exact .modify .refl (hg _).ge fun _ hu =>
          hu.notMem q hq (List.mem_of_getElem? (getElem?_since hs₂ hn))
      have hall := Regime.allows v₂ hi fun o _ => hk o
      exact ⟨v₂.now.2, hall, ih _ (hpr.2 _) _ (hs₂.trans (.step hk))⟩
    | loop body b k ihb ihk =>
      intro v₁ h₁
      refine ⟨fun _ v' => Since v v', h₁, fun b v₂ h₂ => (ihb b (hpr.1 b) v₂ h₂).mono ?_⟩
      rintro (b' | x) v₃ h₃
      · exact h₃
      · exact ihk x (hpr.2 x) v₃ h₃
  exact hgen v (.refl v)

/-! ### Steps on the chains -/

/-- A step of a call that leaves the notes of the starts alone. -/
theorem plain_allows {s : Wrapped} {k : ℕ → Owner} (hi : Inv w s)
    (hn : ∀ o, o ≠ .op c.op → o ≠ .thread c.thread →
      Frame Rises w o v.state.1.chain v.now.2.maker s.1.chain k)
    (ha : v.state.2.attempts ≤ s.2.attempts) :
    (results w size).protocol.Allows c v.now (v.after s { v.now.2 with maker := k }) :=
  Regime.allows v hi fun _ ho => .plain (inv_of v) hi (hn _ (not_op ho) (not_thread ho)) ha

/-- A step that leaves the rings alone. -/
theorem chain_step {s : Memory} (hv : Valid w s.chain) (hc : s.chain.cells = v.state.1.chain.cells)
    (hg : Grows Rises w v.state.1.chain s.chain) :
    ∃ h : (results w size).protocol.Allows c v.now (v.after (s, v.state.2) v.now.2),
      Since v (v.step _ v.now.2 h.inv) := by
  have hi : Inv w (s, v.state.2) := by
    refine ⟨hv, fun n => ?_⟩
    show (s.chain.cells.heap n).val.tail.index ≤ _
    rw [hc]
    exact (inv_of v).index n
  have hframe : ∀ o, Frame Rises w o v.state.1.chain v.now.2.maker s.chain v.now.2.maker := fun o =>
    .of_cells hg hc
  exact ⟨plain_allows hi (fun o _ _ => hframe o) le_rfl,
    .step fun o => .plain (g := v.now.2) (inv_of v) hi (hframe o) le_rfl⟩

/-- The tail moves from the ring at `p` to the next one, unless others have moved it. -/
theorem tailCae_spec (hq : q < w) (hn : (v.state.1.line q)[p]? = some n)
    (hm : (v.state.1.line q)[p + 1]? = some m) :
    wp (results w size).protocol c (tailCae q n m).onFst (fun _ v' => Since v v') v := by
  unfold tailCae
  refine wp.cae_fst (fun v₁ h₁ he _ => ?_) fun v₁ h₁ _ => .of_le h₁
  have hv := (inv_of v₁).valid
  have he : v₁.state.1.chain.tail q = n := he
  obtain rfl : v₁.state.1.chain.tailPos q = p := hv.pos_eq hq (he ▸ getElem?_since (.of_le h₁) hn)
  have hm₁ := getElem?_since (.of_le h₁) hm
  obtain ⟨hall, hs⟩ := chain_step (s := v₁.state.1.onChain (·.setTail q m)) (hv.setTail hq hm₁) rfl
    (hv.setTail_grows .refl hq hm₁)
  exact ⟨v₁.now.2, hall, (Since.of_le h₁).trans hs⟩

theorem headCae_spec (hq : q < w) (hn : (v.state.1.line q)[p]? = some n)
    (hm : (v.state.1.line q)[p + 1]? = some m) :
    wp (results w size).protocol c (headCae q n m).onFst (fun _ v' => Since v v') v := by
  unfold headCae
  refine wp.cae_fst (fun v₁ h₁ he _ => ?_) fun v₁ h₁ _ => .of_le h₁
  have hv := (inv_of v₁).valid
  have he : v₁.state.1.chain.head q = n := he
  obtain rfl : v₁.state.1.chain.headPos q = p := hv.pos_eq hq (he ▸ getElem?_since (.of_le h₁) hn)
  have hm₁ := getElem?_since (.of_le h₁) hm
  obtain ⟨hall, hs⟩ := chain_step (s := v₁.state.1.onChain (·.setHead q m))
    (hv.setHead (List.mem_of_getElem? hm₁)) rfl
    (hv.setHead_grows .refl hq hm₁ (Nat.le_succ _))
  exact ⟨v₁.now.2, hall, (Since.of_le h₁).trans hs⟩

/-- The successor that was read is the next ring of the line. -/
theorem next_eq (hq : q < w) (hn : (v.state.1.line q)[p]? = some n) :
    (v.state.1.chain.cells.heap n).next = (v.state.1.line q)[p + 1]? := (inv_of v).valid.next hq hn

theorem allocRing_spec (hl : Handle w c.thread l v.pair) :
    wp (results w size).protocol c (allocRing l).onFst
    (fun m v' => Since v v' ∧ Mine w c.thread m v'.pair) v := by
  cases l with
  | some m => exact ⟨.refl v, hl m rfl⟩
  | none =>
    intro v₁ h₁ _ _
    have hi := inv_of v₁
    have hseg : ((v₁.state.1.onChain (·.create initRing)).ring v₁.state.1.chain.cells.fresh) =
      initRing :=
      v₁.state.1.chain.create_seg_self initRing
    have hinv : Inv w (v₁.state.1.onChain (·.create initRing), v₁.state.2) := by
      refine ⟨hi.valid.create _, fun n => ?_⟩
      by_cases hn : n = v₁.state.1.chain.cells.fresh
      · rw [hn, hseg]
        exact Nat.zero_le _
      · exact (congrArg (fun a : RingQueue => a.tail.index)
          (v₁.state.1.chain.create_seg_of_ne hn initRing)).trans_le
          (hi.index n)
    have hframe : ∀ o, Frame Rises w o v₁.state.1.chain v₁.now.2.maker
      (v₁.state.1.onChain (·.create initRing)).chain
        (Function.update v₁.now.2.maker v₁.state.1.chain.cells.fresh (.thread c.thread)) := fun o =>
      .create .refl _ _ _
    refine ⟨_, plain_allows hinv (fun o _ _ => hframe o) le_rfl,
      (Since.of_le h₁).trans (.step fun o => .plain (g := v₁.now.2) hi hinv (hframe o) le_rfl),
      Function.update_self .., .create hi.valid.lines _, ?_⟩
    exact (congrArg (fun a : RingQueue => a.tail.index) hseg).trans_le (Nat.zero_le 1)

/-- The ring of the thread is prepared for an item. -/
theorem prepare_spec (hm : Mine w c.thread m v.pair) (hpos : 0 < v.state.2.attempts) (val : ℤ)
    (items : ℕ) :
    wp (results w size).protocol c
      (Prog.update fun s : Memory => ((), s.onRing m (·.prepare c.op val items))).onFst
      (fun _ v' => Mine w c.thread m v'.pair ∧ Kept w (.op c.op) v.pair v'.pair) v := by
  intro v₁ h₁ _ _
  have hm₁ := hm.kept (View.frame_thread h₁)
  have hi := inv_of v₁
  have hpos₁ := hpos.trans_le (View.frame_op h₁).attempts
  have hring : (v₁.state.1.onRing m (·.prepare c.op val items)).ring m =
      (v₁.state.1.ring m).prepare c.op val items := by
    rw [Memory.ring_onRing, if_pos rfl]
  have hinv : Inv w (v₁.state.1.onRing m (·.prepare c.op val items), v₁.state.2) := by
    refine ⟨hi.valid.modify m fun a : RingQueue => a.prepare c.op val items, fun n => ?_⟩
    by_cases hn : n = m
    · rw [hn, hring]
      exact hpos₁
    · rw [Memory.ring_onRing, if_neg hn]
      exact hi.index n
  have hframe : ∀ o, o ≠ .thread c.thread → Frame Rises w o v₁.state.1.chain v₁.now.2.maker
      (v₁.state.1.onRing m (·.prepare c.op val items)).chain v₁.now.2.maker := fun o ho =>
    .modify (f := fun a : RingQueue => a.prepare c.op val items) .refl hm₁.index
      fun e => absurd (e.trans hm₁.maker) ho
  refine ⟨v₁.now.2, plain_allows hinv (fun o _ ho => hframe o ho) le_rfl,
    ⟨hm₁.maker, ⟨hm₁.unlinked.lt_fresh, hm₁.unlinked.notMem, ?_⟩, ?_⟩, ?_⟩
  · exact (Chain.modify_next _ m _ m).trans hm₁.unlinked.next
  · exact (congrArg (fun a : RingQueue => a.tail.index) hring).trans_le le_rfl
  · exact (View.frame_op h₁).trans (.plain (g := v₁.now.2) hi hinv (hframe _ nofun) le_rfl)

/-- What `appendRing` leaves: the ring is appended, or remains in the handle. -/
theorem appendRing_spec (hq : q < w) (hl : Handle w c.thread l v.pair)
    (hn : (v.state.1.line q)[p]? = some n) (hle : p ≤ v.state.1.chain.tailPos q)
    (hpos : 0 < v.state.2.attempts) (val : ℤ) (t : ℕ) :
    wp (results w size).protocol c (appendRing c q n t val l).onFst (fun r v' =>
      Kept w (.op c.op) v.pair v'.pair ∧ Sum.elim (fun l' => Handle w c.thread l' v'.pair)
        (fun l' => Handle w c.thread l' v'.pair) r) v := by
  refine wp.bind_fst (allocRing_spec hl) fun m v₁ ⟨h₁, hm₁⟩ => ?_
  refine wp.read_fst fun v₂ h₂ => ?_
  have hs₂ := h₁.trans (.of_le h₂)
  have hm₂ := hm₁.kept (View.frame_thread h₂)
  refine wp.bind_fst (prepare_spec hm₂ (hpos.trans_le (frame_since hs₂).attempts) val _)
    fun _ v₃ ⟨hm₃, hk₃⟩ => ?_
  have hk₀₃ := (frame_since hs₂).trans hk₃
  refine wp.cae_fst (fun v₄ h₄ hnone _ => ?_) fun v₄ h₄ _ => ⟨hk₀₃.trans (View.frame_op h₄), ?_⟩
  · have hk₀₄ := hk₀₃.trans (View.frame_op h₄)
    have hm₄ := hm₃.kept (View.frame_thread h₄)
    have hi := inv_of v₄
    have hn₄ := hk₀₄.nodes.grows.getElem? hn
    have hle₄ := hle.trans (hk₀₄.nodes.grows.tail q hq)
    have hinv : Inv w (v₄.state.1.onChain (·.link q n m), v₄.state.2) :=
      ⟨hi.valid.link hq hn₄ hle₄ hnone hm₄.unlinked, fun k => by
        rw [Memory.ring_link]
        exact hi.index k⟩
    have hframe : ∀ o, o ≠ .thread c.thread → Frame Rises w o v₄.state.1.chain v₄.now.2.maker
        (v₄.state.1.onChain (·.link q n m)).chain v₄.now.2.maker := fun o ho =>
      .link .refl hi.valid (hm₄.maker ▸ ho) hq hn₄
    have hall := plain_allows (v := v₄) (k := v₄.now.2.maker) hinv
      (fun o _ ho => hframe o ho) le_rfl
    refine ⟨v₄.now.2, hall, ?_⟩
    have hk₄ : Kept w (.op c.op) v₄.pair (v₄.step _ _ hall.inv).pair :=
      .plain (g := v₄.now.2) hi hinv (hframe _ nofun) le_rfl
    obtain ⟨-, hlast⟩ := hi.valid.tail_of_last hq hn₄ hle₄ hnone
    have hnew : ((v₄.step _ _ hall.inv).state.1.line q)[p + 1]? = some m := by
      show (Function.update v₄.state.1.chain.cells.line q
        (v₄.state.1.chain.cells.line q ++ [m]) q)[p + 1]? = _
      rw [Function.update_self, hlast, List.getElem?_concat_length]
    refine wp.bind_fst (tailCae_spec hq (hk₄.nodes.grows.getElem? hn₄) hnew) fun _ v₅ h₅ => ?_
    exact ⟨(hk₀₄.trans hk₄).trans (frame_since h₅), nofun⟩
  · rintro _ ⟨⟩
    exact hm₃.kept (View.frame_thread h₄)

/-! ### The operations -/

/-- What an enqueue notes: the place of the tail ring `n`, which the tail has not left backwards. -/
structure Noted (q p n : ℕ) (v : View (results w size).protocol c) : Prop where
  ring : (v.state.1.line q)[p]? = some n
  tail : p ≤ v.state.1.chain.tailPos q
  start : ∃ i, v.now.2.starts q c.op = some (toLex (p, i)) ∧ i ≤ (v.state.1.ring n).tail.index

theorem Noted.since (h : Noted q p n v) (hq : q < w) (hk : Kept w (.op c.op) v.pair v₁.pair) :
    Noted q p n v₁ := by
  obtain ⟨i, hi, hle⟩ := h.start
  exact ⟨hk.nodes.grows.getElem? h.ring, h.tail.trans (hk.nodes.grows.tail q hq), i,
    (hk.own _ rfl q).trans hi,
    hle.trans (hk.nodes.grows.seg n ((inv_of v).valid.lt_fresh hq h.ring))⟩

/-- The call reads the tail and notes the place. -/
theorem noteTail_spec (hq : q < w) : wp (results w size).protocol c (readTail q).onFst (fun n v' =>
    Kept w (.thread c.thread) v.pair v'.pair ∧ ∃ p, Noted q p n v') v := by
  intro v₁ h₁ _ _
  have hi := inv_of v₁
  have hk : ∀ o, o ≠ .op c.op → Kept w o v₁.pair
      (v₁.state, { v₁.now.2 with starts := v₁.now.2.starts.note q c.op (place v₁.state.1 q) }) := by
    refine fun o ho => ⟨.refl .refl o _ _, le_rfl, fun _ _ => le_rfl, fun j _ op F hF => ?_,
      fun m hm j => ?_⟩
    · rcases Starts.note_cases hF with hF | ⟨rfl, rfl⟩
      · exact .inl hF
      · exact .inr le_rfl
    · exact Starts.note_of_ne fun e => ho (hm.trans (congrArg _ e))
  refine ⟨_, Regime.allows v₁ hi fun o ho => hk o (not_op ho), (View.frame_thread h₁).trans
    (hk _ nofun),
    v₁.state.1.chain.tailPos q, hi.valid.getElem?_tail hq, le_rfl, _, Starts.note_self, le_rfl⟩

/-- An attempt starts: the tail is beyond the place that was noted. -/
theorem startAttempt_spec (hq : q < w) (h : Noted q p n v) :
    wp (results w size).protocol c (startAttempt n)
    (fun _ v' => Since v v' ∧ Noted q p n v' ∧ 0 < v'.state.2.attempts ∧
      Passed c.op q v'.pair) v := by
  intro v₁ h₁ _ _
  have hi := inv_of v₁
  have hn₁ := h.since hq (View.frame_op h₁)
  have hring : ∀ k, ((v₁.state.1.onRing n (·.addTail)).ring k).tail.index =
      (v₁.state.1.ring k).tail.index + if k = n then 1 else 0 := by
    intro k
    rw [Memory.ring_onRing]
    split
    next e =>
      subst e
      rfl
    next => rfl
  have hinv : Inv w (v₁.state.1.onRing n (·.addTail),
    { v₁.state.2 with attempts := v₁.state.2.attempts + 1 }) := by
    refine ⟨hi.valid.modify n fun a : RingQueue => a.addTail, fun k => ?_⟩
    rw [hring]
    have := hi.index k
    show _ ≤ v₁.state.2.attempts + 1
    split <;> omega
  have hframe : ∀ o, Frame Rises w o v₁.state.1.chain v₁.now.2.maker
    (v₁.state.1.onRing n (·.addTail)).chain
      v₁.now.2.maker := fun o =>
    .modify (f := fun a : RingQueue => a.addTail) .refl (Nat.le_succ _)
      fun _ hu => hu.notMem q hq (List.mem_of_getElem? hn₁.ring)
  have hall := plain_allows (v := v₁) (k := v₁.now.2.maker) hinv (fun o _ _ => hframe o)
    (Nat.le_succ _)
  have hs : Since v₁ (v₁.step _ _ hall.inv) :=
    .step fun o => .plain (g := v₁.now.2) hi hinv (hframe o) (Nat.le_succ _)
  have hn₂ := hn₁.since hq (frame_since hs)
  refine ⟨_, hall, (Since.of_le h₁).trans hs, hn₂, Nat.succ_pos _, ?_⟩
  obtain ⟨i, hstart, hle⟩ := hn₁.start
  refine ⟨toLex (p, i), ((frame_since hs).own _ rfl q).trans hstart, ?_⟩
  refine lt_of_lt_of_le ?_ (le_place (inv_of (v₁.step _ _ hall.inv)).valid hq hn₂.ring hn₂.tail)
  rw [Prod.Lex.toLex_lt_toLex]
  refine .inr ⟨rfl, ?_⟩
  show i < ((v₁.state.1.onRing n (·.addTail)).ring n).tail.index
  rw [hring, if_pos rfl]
  exact Nat.lt_succ_of_le hle

theorem passed_since (hq : q < w) (h : Passed c.op q v.pair)
    (hk : Kept w (.op c.op) v.pair v₁.pair) :
    Passed c.op q v₁.pair := h.later hq hk

/-- A round of the loop of `lcrq_put` ends with the handle, and if it is the last one then the tail
has passed the place that it had when the call read it. -/
def PutRound (w q : ℕ) (r : (Option ℕ × ℕ) ⊕ Option ℕ) (v : View (results w size).protocol c) :
    Prop :=
  Sum.elim (fun x => Handle w c.thread x.1 v.pair) (fun l => Handle w c.thread l v.pair ∧
    Passed c.op q v.pair) r

theorem lcrqPutRound_spec (hq : q < w) (arg : ℤ) {x : Option ℕ × ℕ}
    (hl : Handle w c.thread x.1 v.pair) :
    wp (results w size).protocol c (lcrqPutRound size c q arg x) (PutRound w q) v := by
  refine wp.bind_of (noteTail_spec hq) fun rq v₁ ⟨hk₁, p, hn₁⟩ => ?_
  have hl₁ := hl.kept hk₁
  refine wp.bind_of (A := fun next v' => v₁ ≤ v' ∧ (v'.state.1.chain.cells.heap rq).next = next) ?_
    fun next v₂ ⟨h₂, hnext⟩ => ?_
  · exact fun v₂ h₂ _ _ => wp.same (a := (v₂.state.1.chain.cells.heap rq).next) (k := .ret)
      ⟨h₂, rfl⟩
  have hn₂ := hn₁.since hq (View.frame_op h₂)
  have hl₂ := hl₁.kept (View.frame_thread h₂)
  cases next with
  | some next =>
    exact wp.bind_of (tailCae_spec hq hn₂.ring ((next_eq hq hn₂.ring).symm.trans hnext))
      fun _ v₃ h₃ =>
      hl₂.kept h₃.thread
  | none =>
    refine wp.bind_of (startAttempt_spec hq hn₂) fun t v₃ ⟨h₃, hn₃, hpos₃, hpassed₃⟩ => ?_
    have hl₃ := hl₂.kept h₃.thread
    refine wp.bind_of (onRing_spec (OnRing.steps_putCell c t arg x.2) hq hn₃.ring) fun r v₄ h₄ => ?_
    have hk₄ := frame_since h₄
    have hl₄ := hl₃.kept h₄.thread
    have hpassed₄ := passed_since hq hpassed₃ hk₄
    cases r with
    | stored => exact ⟨hl₄, hpassed₄⟩
    | again tryClose => exact hl₄
    | alloc tryClose =>
      have hn₄ := hn₃.since hq hk₄
      refine wp.bind_of (appendRing_spec hq hl₄ hn₄.ring hn₄.tail
        (hpos₃.trans_le hk₄.attempts) arg t.index)
        fun r v₅ ⟨hk₅, hl₅⟩ => ?_
      cases r with
      | inl handle => exact hl₅
      | inr handle => exact ⟨hl₅, passed_since hq hpassed₄ hk₅⟩

/-- `lcrq_put` returns when the tail has passed the place that it had at some time of the call. -/
theorem lcrqPut_spec (hq : q < w) (val : ℤ) (hl : Handle w c.thread l v.pair) :
    wp (results w size).protocol c (lcrqPut size c q val l)
      (fun l' v' => Handle w c.thread l' v'.pair ∧ Passed c.op q v'.pair) v := by
  refine wp.forever (fun x v' => Handle w c.thread x.1 v'.pair) hl fun x v₁ h₁ => ?_
  refine (lcrqPutRound_spec hq val h₁).mono ?_
  rintro (x' | l') v₂ h₂
  · exact h₂
  · exact h₂

/-- A step on the counters. -/
theorem counters_spec {f : Counters → Counters} (hf : ∀ k, (f k).attempts = k.attempts) :
    wp (results w size).protocol c (Prog.update fun s : Wrapped => ((), (s.1, f s.2)))
      (fun _ v' => Since v v') v := by
  intro v₁ h₁ _ _
  have hi := inv_of v₁
  have hinv : Inv w (v₁.state.1, f v₁.state.2) := ⟨hi.valid, fun n => (hi.index n).trans (hf _).ge⟩
  have hall := plain_allows (v := v₁) (k := v₁.now.2.maker) hinv (fun o _ _ => .refl .refl o _ _)
    (hf _).ge
  exact ⟨_, hall, (Since.of_le h₁).trans
    (.step fun o => .plain (g := v₁.now.2) hi hinv (.refl .refl o _ _) (hf _).ge)⟩

theorem addEnqCount_spec (q : ℕ) :
    wp (results w size).protocol c (addEnqCount q) (fun _ v' => Since v v') v :=
  counters_spec (f := fun k =>
    { k with enqCount := Function.update k.enqCount q (k.enqCount q + 1) }) fun _ => rfl

theorem addDeqCount_spec (q : ℕ) :
    wp (results w size).protocol c (addDeqCount q) (fun _ v' => Since v v') v :=
  counters_spec (f := fun k =>
    { k with deqCount := Function.update k.deqCount q (k.deqCount q + 1) }) fun _ => rfl

theorem wrappedEnqueue_spec (hq : q < w) (val : ℤ) (hl : Handle w c.thread l v.pair) :
    wp (results w size).protocol c (wrappedEnqueue size c q val l)
      (fun x v' => Handle w c.thread x.1 v'.pair ∧ Passed c.op q v'.pair) v := by
  refine wp.bind_of (lcrqPut_spec hq val hl) fun l' v₁ h₁ => ?_
  refine wp.bind_of (addEnqCount_spec q) fun _ v₂ h₂ => ?_
  exact ⟨h₁.1.kept h₂.thread, passed_since hq h₁.2 (frame_since h₂)⟩

theorem leaveRing_spec (hq : q < w) (hn : (v.state.1.line q)[p]? = some n) (h : ℕ) :
    wp (results w size).protocol c (leaveRing q n h).onFst (fun _ v' => Since v v') v := by
  refine wp.read_fst fun v₁ h₁ => ?_
  split
  next =>
    refine wp.read_fst fun v₂ h₂ => ?_
    have hs₂ := Since.of_le (h₁.trans h₂)
    have hn₂ := getElem?_since hs₂ hn
    split
    next => exact hs₂
    next next hnext =>
      have hm₂ := (next_eq hq hn₂).symm.trans hnext
      refine wp.read_fst fun v₃ h₃ => ?_
      have hs₃ := Since.of_le h₃
      split
      next =>
        refine wp.bind_fst (headCae_spec hq (getElem?_since hs₃ hn₂) (getElem?_since hs₃ hm₂))
          fun _ v₄ h₄ => ?_
        exact (hs₂.trans hs₃).trans h₄
      next => exact hs₂.trans hs₃
  next => exact .of_le h₁

theorem lcrqGetRound_spec (hq : q < w) :
    wp (results w size).protocol c (lcrqGetRound size c q).onFst (fun _ v' => Since v v') v := by
  refine wp.read_fst fun v₁ h₁ => ?_
  have hs₁ := Since.of_le h₁
  have hn₁ := (inv_of v₁).valid.getElem?_head hq
  refine wp.bind_fst (onRing_spec OnRing.steps_nothingLeft hq hn₁) fun nothing v₂ h₂ => ?_
  have hs₂ := hs₁.trans h₂
  split
  next => exact hs₂
  next =>
    have hadd : (fetchAddHead c (v₁.state.1.chain.head q)).Steps
      (OnRing (v₁.state.1.chain.head q)) :=
      .update fun _ => .of_ring fun _ => rfl
    refine wp.bind_fst (onRing_spec hadd hq (getElem?_since h₂ hn₁)) fun h v₃ h₃ => ?_
    have hs₃ := h₂.trans h₃
    refine wp.bind_fst (onRing_spec (OnRing.steps_getCell c h) hq (getElem?_since hs₃ hn₁))
      fun r v₄ h₄ => ?_
    have hs₄ := hs₃.trans h₄
    cases r with
    | some val => exact hs₁.trans hs₄
    | none => exact (leaveRing_spec hq (getElem?_since hs₄ hn₁) h).mono fun _ v₅ h₅ =>
        (hs₁.trans hs₄).trans h₅

theorem wrappedDequeue_spec (hq : q < w) :
    wp (results w size).protocol c (wrappedDequeue size c q) (fun _ v' => Since v v') v := by
  refine wp.bind_of (A := fun _ v' => Since v v') ?_ fun ret v₁ h₁ => ?_
  · refine wp.bind_fst (A := fun _ v' => Since v v') ?_ fun _ _ h => h
    refine wp.forever_fst (fun _ v' => Since v v') (.refl v) fun _ v₁ h₁ => ?_
    refine (lcrqGetRound_spec hq).mono ?_
    rintro (_ | val) v₂ h₂
    · exact h₁.trans h₂
    · exact h₁.trans h₂
  · split
    next => exact wp.bind_of (addDeqCount_spec q) fun _ v₂ h₂ => h₁.trans h₂
    next => exact h₁

theorem obligations (w size : ℕ) :
    Obligations (results w size) (Call.Valid w) (fun t l x => Handle w t l x)
    (fun c call x v => Handle w c.thread x.1 v.pair ∧ Ahead w c.op call v.pair) (initialWrapped w)
    ⟨fun _ => .op 0, fun _ _ => none⟩ none where
  init := ⟨.init, fun _ => le_rfl⟩
  init_fresh _ _ := rfl
  init_loc _ := nofun
  loc_later _ _ _ _ _ _ _ _ hk h := h.kept hk
  post_stable _ _ _ _ _ h hp := ⟨hp.1.kept (View.frame_thread h), hp.2.later (View.frame_op h)⟩
  code t op call l v _ _ hok hl _ := by
    cases call with
    | enqueue q val =>
      refine (wrappedEnqueue_spec hok val hl).mono fun _ v' h => ⟨h.1, fun j val' e => ?_⟩
      cases e
      exact ⟨hok, h.2⟩
    | dequeue q =>
      exact wp.bind_of (wrappedDequeue_spec hok) fun r v₁ h₁ => ⟨hl.kept h₁.thread, nofun⟩
  finish _ _ _ _ _ h := ⟨fun _ _ => h.2, h.1⟩

end SimpleDcboLcrq
