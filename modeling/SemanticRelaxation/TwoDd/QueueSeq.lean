import SemanticRelaxation.TwoDd.Queue
import SemanticRelaxation.TwoDd.WindowSeq

/-!
# The 2Dd queue, one call at a time

Between two calls every tail is the last node of its line, and the counts are positions in the
lines. For the rank bound the invariant remembers that an item was enqueued inside the put window
of its time: no older item stands above the next multiple of `depth`.
-/

namespace TwoDd

namespace Queue

open AtomicProg Linked TwoD

variable {set : Params} {s s' : State}

/-- The invariant between two calls. -/
structure Inv (set : Params) (s : State) : Prop where
  window : WindowInv set s
  lists : Queues set.width (fun j => s.getCount j) s.mem.nodes
  head : ∀ j < set.width, (s.mem.getArray j).node = (s.mem.nodes.line j)[s.getCount j]?
  tail : ∀ j < set.width, (s.mem.putArray j).node = (s.mem.nodes.line j)[s.putCount j]?
  length_line : ∀ j < set.width, (s.mem.nodes.line j).length = s.putCount j + 1
  rows : s.mem.nodes.hist.present.Pairwise fun y x =>
    ∀ n, x.pos ≤ set.depth * n → y.pos ≤ set.depth * n

theorem params_wf {width depth : ℕ} (hw : 1 ≤ width) (hw' : width < 2 ^ 32) (hd : 1 ≤ depth) :
    (params width depth).WF where
  fits := ⟨(Nat.mod_eq_of_lt hw').symm ▸ hw, (by decide : 2 < 2 ^ 64),
    hw'.trans (by decide : 2 ^ 32 < 2 ^ 64)⟩
  depth_pos := hd

theorem count_update (a : ℕ → Descriptor) (j : ℕ) (d : Descriptor) (i : ℕ) :
    (Function.update a j d i).count = if i = j then d.count else (a i).count := by
  rw [Function.update_apply]
  split <;> rfl

namespace Inv

theorem initial : Inv set (initial set) where
  window :=
    { put_dvd := dvd_rfl
      get_dvd := dvd_rfl
      put_le := fun _ _ => Nat.zero_le _
      le_put := fun _ _ => Nat.le_add_left _ _
      get_le := fun _ _ => Nat.zero_le _
      le_get := fun _ _ => Nat.le_add_left _ _
      get_le_put := fun _ _ => le_rfl }
  lists := .init
  head _ _ := rfl
  tail _ _ := rfl
  length_line _ _ := rfl
  rows := .nil

/-- The windows may move. -/
theorem moved (h : Inv set s) (hm : s'.mem = s.mem) (hw : WindowInv set s') : Inv set s' := by
  obtain ⟨p, g, m⟩ := s'
  obtain rfl : m = s.mem := hm
  exact ⟨hw, h.lists, h.head, h.tail, h.length_line, h.rows⟩

/-- A new node changes nothing but the memory. -/
theorem create (h : Inv set s) (val : ℤ) : Inv set (s.onNodes (·.create val)) where
  window := { h.window with }
  lists := h.lists.create val
  head := h.head
  tail := h.tail
  length_line := h.length_line
  rows := h.rows

theorem getCount_lt (h : Inv set s) {j : ℕ} (hj : j < set.width) :
    s.getCount j < (s.mem.nodes.line j).length := by
  rw [h.length_line j hj]
  exact Nat.lt_succ_of_le (h.window.get_le_put j hj)

/-- All sub-queues are empty exactly if every get count has caught up. -/
theorem present_eq_nil_iff (h : Inv set s) :
    s.mem.nodes.hist.present = [] ↔ ∀ j < set.width, s.putCount j = s.getCount j := by
  rw [h.lists.present_eq_nil_iff fun j hj => h.getCount_lt hj]
  constructor
  · intro hall j hj
    have h₁ := hall j hj
    have h₂ := h.length_line j hj
    omega
  · intro hall j hj
    have h₁ := hall j hj
    have h₂ := h.length_line j hj
    omega

/-- The tail node of sub-queue `j`, which has no successor. -/
theorem tail_last (h : Inv set s) {j : ℕ} (hj : j < set.width) :
    ∃ t, (s.mem.putArray j).node = some t ∧
      (s.mem.nodes.line j)[s.putCount j]? = some t ∧ (s.mem.nodes.heap t).next = none := by
  have hlen := h.length_line j hj
  have hlt : s.putCount j < (s.mem.nodes.line j).length := by omega
  have ht := List.getElem?_eq_getElem hlt
  refine ⟨_, (h.tail j hj).trans ht, ht, ?_⟩
  rw [h.lists.lines.next j hj _ _ ht]
  exact List.getElem?_eq_none (by omega)

/-- The head and the tail of a sub-queue are the same node exactly if the counts agree. -/
theorem node_eq_iff (h : Inv set s) {j : ℕ} (hj : j < set.width) :
    (s.mem.getArray j).node = (s.mem.putArray j).node ↔ s.putCount j = s.getCount j := by
  rw [h.head j hj, h.tail j hj]
  constructor
  · intro he
    have hg := List.getElem?_eq_getElem (h.getCount_lt hj)
    rw [hg] at he
    exact (h.lists.lines.inj _ hj _ hj _ _ _ he.symm hg).2
  · intro he
    rw [he]

/-- Linking a node and swinging the tail, below the maximum of the put window. -/
theorem enqueue (h : Inv set s) {j n : ℕ} (hj : j < set.width)
    (hlt : s.putCount j < s.globalPWindow) (hfresh : n < s.mem.nodes.fresh)
    (hn : ∀ i < set.width, n ∉ s.mem.nodes.line i) (hnext : (s.mem.nodes.heap n).next = none) :
    Inv set { s with mem :=
      { s.mem with
        putArray := Function.update s.mem.putArray j ⟨some n, s.putCount j + 1⟩
        nodes := s.mem.nodes.link j (s.mem.putArray j).node n () } } := by
  obtain ⟨t, hnode, ht, hnone⟩ := h.tail_last hj
  have hget := h.window.get_le_put j hj
  have hline : ∀ i < set.width, ∀ q, q < (s.mem.nodes.line i).length →
      (Function.update s.mem.nodes.line j (s.mem.nodes.line j ++ [n]) i)[q]? =
        (s.mem.nodes.line i)[q]? := by
    intro i _ q hq
    by_cases hij : i = j
    · subst hij
      rw [Function.update_self, List.getElem?_append_left hq]
    · rw [Function.update_of_ne hij]
  rw [hnode]
  refine ⟨h.window.put hlt ?_ (fun i hi => ?_) fun i => rfl,
    h.lists.link hj ht hnone hfresh hn hnext hget (), fun i hi => ?_, fun i hi => ?_,
    fun i hi => ?_, ?_⟩
  · show (Function.update s.mem.putArray j _ j).count = _
    rw [Function.update_self]
  · show (Function.update s.mem.putArray j _ i).count = _
    rw [Function.update_of_ne hi]
    rfl
  · exact (h.head i hi).trans (hline i hi _ (h.getCount_lt hi)).symm
  · show (Function.update s.mem.putArray j ⟨some n, s.putCount j + 1⟩ i).node =
      (Function.update s.mem.nodes.line j (s.mem.nodes.line j ++ [n]) i)[
        (Function.update s.mem.putArray j ⟨some n, s.putCount j + 1⟩ i).count]?
    by_cases hij : i = j
    · subst hij
      rw [Function.update_self, Function.update_self, ← h.length_line i hi,
        List.getElem?_concat_length]
    · rw [Function.update_of_ne hij, Function.update_of_ne hij]
      exact h.tail i hi
  · show (Function.update s.mem.nodes.line j (s.mem.nodes.line j ++ [n]) i).length =
      (Function.update s.mem.putArray j ⟨some n, s.putCount j + 1⟩ i).count + 1
    by_cases hij : i = j
    · subst hij
      rw [Function.update_self, Function.update_self, List.length_append, h.length_line i hi,
        List.length_singleton]
    · rw [Function.update_of_ne hij, Function.update_of_ne hij]
      exact h.length_line i hi
  · -- the new row and all older ones lie in or below the put window
    refine Queues.InRows.snoc h.rows h.window.put_dvd (fun y hy => ?_) ?_
    · obtain ⟨hyi, hyp⟩ := h.lists.placed_present hy
      have h₁ := (List.getElem?_eq_some_iff.1 hyp).1
      have h₂ := h.length_line _ hyi
      have h₃ := h.window.put_le _ hyi
      omega
    · have h₁ := h.window.le_put j hj
      have h₂ := h.length_line j hj
      show s.globalPWindow < (s.mem.nodes.line j).length + set.depth
      omega

/-- A dequeue below the maximum of the get window takes an item with few older ones. -/
theorem dequeue (h : Inv set s) {j : ℕ} (hj : j < set.width)
    (hlt : s.getCount j < s.globalGWindow) (hne : s.getCount j < s.putCount j) :
    ∃ A x B, s.mem.nodes.hist.present = A ++ x :: B ∧
      (s.mem.nodes.line j)[s.getCount j + 1]? = some x.node ∧
      (s.mem.nodes.heap x.node).val = x.val ∧
      A.length ≤ set.depth * (set.width - 1) ∧
      Inv set { s with mem :=
        { s.mem with
          getArray := Function.update s.mem.getArray j ⟨some x.node, s.getCount j + 1⟩
          nodes := s.mem.nodes.remove (some x.node) } } := by
  have hlen := h.length_line j hj
  have hnode := List.getElem?_eq_getElem
    (show s.getCount j + 1 < (s.mem.nodes.line j).length by omega)
  obtain ⟨A, x, B, hpres, hx, rfl, hpos, hv, hA, hq⟩ := h.lists.remove hj hnode
  rw [← hx] at hnode hv hq
  have hrem : (s.mem.nodes.remove (some x.node)).hist = _ := h.lists.conserved.remove_eq hpres
  have hheads : (fun i => Shared.getCount { s with mem :=
      { s.mem with
        getArray := Function.update s.mem.getArray x.idx ⟨some x.node, s.getCount x.idx + 1⟩
        nodes := s.mem.nodes.remove (some x.node) } } i) =
      Function.update (fun i => s.getCount i) x.idx (s.getCount x.idx + 1) := by
    funext i
    show (Function.update s.mem.getArray x.idx _ i).count = _
    rw [count_update, Function.update_apply]
    rfl
  refine ⟨A, x, B, hpres, hnode, hv, ?_, h.window.get hlt hne ?_ (fun i hi => ?_) fun i => rfl,
    ?_, fun i hi => ?_, fun i hi => ?_, h.length_line, ?_⟩
  · -- an older item of another sub-queue lies in the get window, at most `depth` of them
    exact h.lists.length_le hpres hj hA h.rows h.window.get_dvd (by omega) h.window.le_get
  · show (Function.update s.mem.getArray x.idx _ x.idx).count = _
    rw [Function.update_self]
  · show (Function.update s.mem.getArray x.idx _ i).count = _
    rw [Function.update_of_ne hi]
    rfl
  · rw [hheads]
    exact hq
  · show (Function.update s.mem.getArray x.idx ⟨some x.node, s.getCount x.idx + 1⟩ i).node =
      (s.mem.nodes.line i)[
        (Function.update s.mem.getArray x.idx ⟨some x.node, s.getCount x.idx + 1⟩ i).count]?
    by_cases hij : i = x.idx
    · subst hij
      rw [Function.update_self]
      exact hnode.symm
    · rw [Function.update_of_ne hij]
      exact h.head i hi
  · exact h.tail i hi
  · show ((s.mem.nodes.remove (some x.node)).hist.present).Pairwise _
    rw [hrem]
    refine h.rows.sublist ?_
    rw [hpres]
    exact List.Sublist.append (List.Sublist.refl _) (List.sublist_cons_self _ _)

end Inv

/-- What each call answers: it behaves as a queue that may return any item with at most
`depth * (width - 1)` older ones, and `dequeue` answers 0 exactly if the whole queue is empty. -/
def Answers (set : Params) : Call → State → Option ℤ → State → Prop
  | .enqueue v, s, r, s' => r = some 1 ∧ ∃ n j p, j < set.width ∧
      (∀ x ∈ s.mem.nodes.hist.added, x.node ≠ n) ∧
      s'.mem.nodes.hist = s.mem.nodes.hist.addBack ⟨n, v, j, p, ()⟩
  | .dequeue, s, r, s' =>
      (∃ x, s.mem.nodes.hist.Removes (fun _ => set.depth * (set.width - 1)) x
        s'.mem.nodes.hist ∧ r = x.map Item.val) ∧
      (r = none ↔ ∀ j < set.width, (s.mem.getArray j).node = (s.mem.putArray j).node)

/-- What a call leaves behind. -/
structure Done (set : Params) (c : Call) (s : State) (r : Local × Option ℤ) (s' : State) :
    Prop where
  index_lt : r.1.index < set.width
  inv : Inv set s'
  answers : Answers set c s r.2 s'

section Exchanges

variable {β : Type} {Q : β → State → Prop} {k : Bool → Prog State β} {idx : ℕ}
  {old new : Descriptor}

theorem putCae_spec (he : s.mem.putArray idx = old)
    (h : Total (.trivial _) Q (k true) { s with mem :=
      { s.mem with putArray := Function.update s.mem.putArray idx new } }) :
    Total (.trivial _) Q (putCae idx old new >>= k) s := by
  simp only [putCae, Prog.bind_assoc]
  exact Total.cae_of_eq he fun _ => ⟨True.intro, h⟩

theorem deqCae_spec (he : s.mem.getArray idx = old)
    (h : Total (.trivial _) Q (k true) { s with mem :=
      { s.mem with
        getArray := Function.update s.mem.getArray idx new
        nodes := s.mem.nodes.remove new.node } }) :
    Total (.trivial _) Q (deqCae idx old new >>= k) s := by
  simp only [deqCae, Prog.bind_assoc]
  exact Total.cae_of_eq he fun _ => ⟨True.intro, h⟩

theorem enqCas_spec {tail : Option ℕ} {n : ℕ} (he : (s.mem.nodes.deref tail).next = none)
    (h : Total (.trivial _) Q (k true) (s.onNodes (·.link idx tail n ()))) :
    Total (.trivial _) Q (enqCas idx tail n >>= k) s := by
  simp only [enqCas, Prog.bind_assoc]
  exact Total.cae_of_eq he fun _ => ⟨True.intro, h⟩

end Exchanges

/-- The loop of `enqueue` links the new node behind the tail of a sub-queue in the put window. -/
theorem enqueueRound_spec (hp : set.WF) {tl : Local} {n : ℕ} (hi : Inv set s)
    (hl : tl.index < set.width) :
    Total (.trivial _) (fun r s' => ∃ a : Local × Descriptor × Descriptor, r = .inr a ∧
      ∃ tl' s₂, a = (tl', s₂.mem.putArray tl'.index, ⟨some n, s₂.putCount tl'.index + 1⟩) ∧
        Inv set s₂ ∧ s₂.mem = s.mem ∧ tl'.index < set.width ∧
        s₂.putCount tl'.index < s₂.globalPWindow ∧
        s' = s₂.onNodes (·.link tl'.index (s₂.mem.putArray tl'.index).node n ()))
      (enqueueRound set n false tl) s := by
  refine Total.bind_of (putWindow_spec hp hi.window hl) ?_
  rintro ⟨d, tl'⟩ s₂ ⟨hm, -, hw, hwin, hidx, hd, hlt⟩
  obtain rfl : d = s₂.mem.putArray tl'.index := hd
  have hi₂ := hi.moved hm hw
  obtain ⟨t, hnode, -, hnone⟩ := hi₂.tail_last hidx
  have hnext : (s₂.mem.nodes.deref (s₂.mem.putArray tl'.index).node).next = none := by
    rw [hnode]
    exact hnone
  have hwin : tl'.pWindow = s₂.globalPWindow := hwin
  have hcheck : ¬ tl'.pWindow ≤ (s₂.mem.putArray tl'.index).count := by
    rw [hwin]
    exact not_le.2 hlt
  simp only [readNext, Total.read_iff, hnext, if_true, if_neg hcheck]
  exact enqCas_spec hnext
    (.ret ⟨_, rfl, tl', s₂, rfl, hi₂, hm, hidx, hlt, rfl⟩)

theorem enqueue_spec (hp : set.WF) {tl : Local} (hi : Inv set s) (hl : tl.index < set.width)
    (v : ℤ) : Total (.trivial _) (Done set (.enqueue v) s)
    ((object set).code (.enqueue v) tl) s := by
  show Total _ _ (enqueue set v tl >>= _) s
  simp only [enqueue, createNode, Prog.bind_assoc, Total.update_iff]
  refine fun _ => ⟨True.intro, ?_⟩
  set n := s.mem.nodes.fresh
  refine Total.bind_of (Total.forever_once (enqueueRound_spec hp (hi.create v) hl)) ?_
  rintro _ _ ⟨tl', s₂, rfl, hi₂, hm, hidx, hlt, rfl⟩
  have hnodes : s₂.mem.nodes = s.mem.nodes.create v := congrArg Memory.nodes hm
  have hmem : ∀ i < set.width, n ∉ s₂.mem.nodes.line i := by
    rw [hnodes]
    exact hi.lists.not_mem_of_le le_rfl
  have hcell : s₂.mem.nodes.heap n = ⟨v, none⟩ := by
    rw [hnodes]
    exact Function.update_self ..
  have hfin := hi₂.enqueue hidx hlt (by rw [hnodes]; exact Nat.lt_succ_self _) hmem
    (congrArg Node.next hcell)
  refine putCae_spec rfl ?_
  refine .ret ⟨hidx, hfin, rfl, n, tl'.index, (s₂.mem.nodes.line tl'.index).length, hidx, ?_, ?_⟩
  · intro x hx he
    obtain ⟨hxi, hxp⟩ := hi.lists.placed x hx
    exact absurd he (hi.lists.lines.lt_fresh _ hxi _ (List.mem_of_getElem? hxp)).ne
  · show s₂.mem.nodes.hist.addBack ⟨n, (s₂.mem.nodes.heap n).val, _, _, ()⟩ = _
    rw [hcell, hnodes]
    rfl

theorem dequeue_spec (hp : set.WF) {tl : Local} (hi : Inv set s) (hl : tl.index < set.width) :
    Total (.trivial _) (Done set .dequeue s) ((object set).code .dequeue tl) s := by
  refine Total.forever_once ?_
  refine Total.bind_of (getWindow_spec hp hi.window hl) ?_
  rintro ⟨d, tl'⟩ s₂ ⟨hm, -, hw, -, hidx, hd, hans⟩
  obtain rfl : d = s₂.mem.getArray tl'.index := hd
  replace hidx : tl'.index < set.width := hidx
  have hi₂ := hi.moved hm hw
  obtain ⟨t, hnode, ht, hnone⟩ := hi₂.tail_last hidx
  have hempty : (∀ j < set.width, (s.mem.getArray j).node = (s.mem.putArray j).node) ↔
      s₂.mem.nodes.hist.present = [] := by
    rw [hi₂.present_eq_nil_iff, ← hm]
    exact forall₂_congr fun j hj => hi₂.node_eq_iff hj
  refine readDescriptor_spec ?_
  show Total _ _ (if (s₂.mem.getArray tl'.index).node = (s₂.mem.putArray tl'.index).node then _
    else _) s₂
  by_cases heq : (s₂.mem.getArray tl'.index).node = (s₂.mem.putArray tl'.index).node
  · have hnext : (s₂.mem.nodes.deref (s₂.mem.getArray tl'.index).node).next = none := by
      rw [heq, hnode]
      exact hnone
    rw [if_pos heq]
    simp only [readNext, Total.read_iff, hnext, if_true]
    have hall : ∀ j < set.width, s₂.putCount j = s₂.getCount j := by
      rcases hans with ⟨-, hlt⟩ | hall
      · exact absurd ((hi₂.node_eq_iff hidx).1 heq) (ne_of_gt hlt)
      · exact hall
    have hnil := hi₂.present_eq_nil_iff.2 hall
    refine .ret ⟨_, rfl, hidx, hi₂, ⟨none, ?_, rfl⟩, fun _ => hempty.2 hnil, fun _ => rfl⟩
    rw [← hm]
    exact .empty hnil
  · have hlt : s₂.getCount tl'.index < s₂.globalGWindow ∧
        s₂.getCount tl'.index < s₂.putCount tl'.index := by
      rcases hans with hlt | hall
      · exact hlt
      · exact absurd ((hi₂.node_eq_iff hidx).2 (hall _ hidx)) heq
    obtain ⟨A, x, B, hpres, hx, hv, hk, hfin⟩ := hi₂.dequeue hidx hlt.1 hlt.2
    have hnext : (s₂.mem.nodes.deref (s₂.mem.getArray tl'.index).node).next = some x.node := by
      have hg := List.getElem?_eq_getElem (hi₂.getCount_lt hidx)
      rw [hi₂.head _ hidx, hg]
      exact (hi₂.lists.lines.next _ hidx _ _ hg).trans hx
    rw [if_neg heq]
    simp only [dequeueHead, readNext, Total.read_iff, hnext]
    refine deqCae_spec rfl ?_
    have hheap : ∀ p, (s₂.mem.nodes.remove (some x.node)).deref p = s₂.mem.nodes.deref p := by
      intro p
      cases p <;> rfl
    have hne : ¬ ∀ j < set.width, (s.mem.getArray j).node = (s.mem.putArray j).node := by
      rw [hempty, hpres]
      exact List.append_ne_nil_of_right_ne_nil _ (List.cons_ne_nil _ _)
    simp only [if_true, Total.read_iff, hheap, hnext]
    refine .ret ⟨_, rfl, hidx, hfin, ⟨some x, ?_, congrArg some hv⟩, (by intros; contradiction),
      fun h => absurd h hne⟩
    rw [← hm]
    exact .item hpres hk

/-- What holds between any two calls. -/
structure Correct (set : Params) (s : State) (ls : ℕ → Local) : Prop where
  conserved : s.mem.nodes.hist.Conserved
  answers : (object set).Meets (Answers set) s ls

/-- Sequential specification of the 2Dd queue: for threads that call one at a time with whatever
windows and index their earlier calls left them, no item is lost or returned twice, and every call
returns with an answer of the relaxed queue. -/
theorem decoupledQueue_sequential {width depth : ℕ} (hw : 1 ≤ width) (hw' : width < 2 ^ 32)
    (hd : 1 ≤ depth) {s : State} {ls : ℕ → Local}
    (h : (object (params width depth)).Reach (initial (params width depth)) .zero s ls) :
    Correct (params width depth) s ls := by
  have hp := params_wf hw hw' hd
  have hcode : ∀ c l s, Inv (params width depth) s → l.index < width → Total (.trivial _)
      (Done (params width depth) c s) ((object (params width depth)).code c l) s := by
    intro c l s hi hl
    cases c with
    | enqueue v => exact enqueue_spec hp hi hl v
    | dequeue => exact dequeue_spec hp hi hl
  obtain ⟨hi, hl⟩ := SeqReach.invariant (C := .trivial _) (Inv (params width depth))
    (fun l _ => l.index < width) Inv.initial hw
    (fun c l s _ hi hl => (hcode c l s hi hl).mono
      fun _ _ h => ⟨h.inv, h.index_lt, fun _ h => h⟩) h
  exact ⟨hi.lists.conserved,
    Object.meets fun t c => (hcode c _ s hi (hl t)).mono fun _ _ h => h.answers⟩

/-- Two threads enqueue five items on two sub-queues of depth 1 and dequeue three of them, with
shifts of both windows. The item 8 leaves before the older 7. -/
theorem decoupledQueue_sequential_run : ∃ s ls,
    (s.mem.nodes.hist.present.map fun x => (x.val, x.idx)) = [(7, 0), (9, 1)] ∧
      (s.mem.nodes.hist.removed.map fun x => (x.val, x.idx)) = [(8, 1), (5, 0), (6, 1)] ∧
      s.globalPWindow = 3 ∧ s.globalGWindow = 2 ∧ Correct (params 2 1) s ls := by
  obtain ⟨s, ls, hr, hc⟩ := SeqReach.of_check (object (params 2 1)) (fun _ _ => True)
    (initial (params 2 1)) .zero 60
    [(0, .enqueue 5, fun _ => 0), (1, .enqueue 6, fun _ => 1), (0, .enqueue 7, fun _ => 0),
      (1, .dequeue, fun _ => 1), (1, .enqueue 8, fun _ => 0), (0, .dequeue, fun _ => 1),
      (1, .dequeue, fun _ => 1), (0, .enqueue 9, fun _ => 1)]
    (fun _ => true) (fun s => decide
      ((s.mem.nodes.hist.present.map fun x => (x.val, x.idx)) = [(7, 0), (9, 1)] ∧
      (s.mem.nodes.hist.removed.map fun x => (x.val, x.idx)) = [(8, 1), (5, 0), (6, 1)] ∧
      s.globalPWindow = 3 ∧ s.globalGWindow = 2))
    (by decide +kernel) rfl fun _ _ _ _ => True.intro
  obtain ⟨hpresent, hremoved, hput, hget⟩ := of_decide_eq_true hc
  exact ⟨s, ls, hpresent, hremoved, hput, hget,
    decoupledQueue_sequential (by decide) (by decide) (by decide) hr⟩

end Queue

end TwoDd
