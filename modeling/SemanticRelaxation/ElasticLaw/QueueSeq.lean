import SemanticRelaxation.ElasticLaw.WindowSeq

/-!
# The elastic LaW queue, one call at a time

The sequential specification of `enqueue` and `dequeue` under any changes of width and depth in
between. How many older items a dequeue may pass over is said by the window in which its item was
enqueued.
-/

namespace ElasticLaw

open AtomicProg Linked TwoD

variable {set : Params} {g : Ghost} {s s' : State}

/-- What each call answers. The item of an enqueue carries the put window of its time, whose width
and depth bound the number of older items at its dequeue; `dequeue` answers 0 exactly if every
sub-queue is empty. The other calls leave the items alone. -/
def Answers (set : Params) : Call → State → Option ℤ → State → Prop
  | .enqueue v, s, r, s' => r = some 1 ∧ ∃ n j p row, j < set.maxWidth ∧
      (∀ x ∈ s.nodes.hist.added, x.node ≠ n) ∧
      s'.nodes.hist = s.nodes.hist.addBack
        ⟨n, v, j, p, ⟨row, (s'.lateral.deref s'.lateralTail).val⟩⟩
  | .dequeue, s, r, s' =>
      (∃ x, s.nodes.hist.Removes (fun x => (x.tag.window.width - 1) * x.tag.window.depth) x
        s'.nodes.hist ∧ r = x.map Item.val) ∧
      (r = none ↔ ∀ j < set.maxWidth, (s.getArray j).node = (s.putArray j).node)
  | _, s, _, s' => s'.nodes = s.nodes

/-- What a call leaves behind. -/
structure Done (set : Params) (c : Call) (s : State) (r : Local × Option ℤ) (s' : State) :
    Prop where
  inv : ∃ g, Inv set g s'
  loc : ∃ p, r.1.At s' p
  grows : Grows s s'
  answers : Answers set c s r.2 s'

section Exchanges

variable {β : Type} {Q : β → State → Prop} {k : Bool → Prog State β} {idx : ℕ}
  {old new : Descriptor}

theorem putCae_spec (he : s.putArray idx = old)
    (h : Total (.trivial _) Q (k true)
      { s with putArray := Function.update s.putArray idx new }) :
    Total (.trivial _) Q (putCae idx old new >>= k) s := by
  simp only [putCae, Prog.bind_assoc]
  exact Total.cae_of_eq he fun _ => ⟨True.intro, h⟩

theorem deqCae_spec (he : s.getArray idx = old)
    (h : Total (.trivial _) Q (k true) { s with
      getArray := Function.update s.getArray idx new
      nodes := s.nodes.remove new.node }) :
    Total (.trivial _) Q (deqCae idx old new >>= k) s := by
  simp only [deqCae, Prog.bind_assoc]
  exact Total.cae_of_eq he fun _ => ⟨True.intro, h⟩

theorem enqCae_spec {tail : Option ℕ} {n : ℕ} {tag : Tag}
    (he : (s.nodes.deref tail).next = none)
    (h : Total (.trivial _) Q (k true) { s with nodes := s.nodes.link idx tail n tag }) :
    Total (.trivial _) Q (enqCae idx tail n tag >>= k) s := by
  simp only [enqCae, Prog.bind_assoc]
  exact Total.cae_of_eq he fun _ => ⟨True.intro, h⟩

end Exchanges

/-- A thread keeps its place in the lateral queue while nothing but that grows. -/
theorem Done.keeps {c : Call} {r : Local × Option ℤ} (h : Done set c s r s') {l : Local}
    (hl : ∃ p, l.At s p) : ∃ p, l.At s' p :=
  hl.imp fun _ hp => hp.mono h.grows

/-- The row that `enqueue` gives to the next item of sub-queue `j`. -/
abbrev State.putRow (s : State) (j : ℕ) : ℕ := nextRow (s.win s.last) (s.putArray j).count

/-- The loop of `enqueue` links the new node behind the tail of a sub-queue of the put window. -/
theorem enqueueRound_spec (hp : set.WF) {tl : Local} {n p : ℕ} (hi : Inv set g s)
    (hat : tl.At s p) :
    Total (.trivial _) (fun r s' => ∃ a : Local × Descriptor × Descriptor, r = .inr a ∧
      ∃ tl' s₂, a = (tl', s₂.putArray tl'.putIndex, ⟨some n, s₂.putRow tl'.putIndex⟩) ∧
        PutPost set g p s (s₂.putArray tl'.putIndex, tl') s₂ ∧
        s' = { s₂ with
          nodes := s₂.nodes.link tl'.putIndex (s₂.putArray tl'.putIndex).node n
            ⟨s₂.putRow tl'.putIndex, s₂.win s₂.last⟩ })
      (enqueueRound set n false tl) s := by
  refine Total.bind_of (putWindow_spec hp hi hat) ?_
  rintro ⟨d, tl'⟩ s₂ hpost
  obtain rfl : d = s₂.putArray tl'.putIndex := hpost.descriptor
  have hi₂ := hpost.inv
  have hidx : tl'.putIndex < (s₂.win s₂.last).width := hpost.index_lt
  have hlt : (s₂.putArray tl'.putIndex).count < (s₂.win s₂.last).max := hpost.count_lt
  have hwin : (s₂.lateral.deref tl'.putWindow).val = s₂.win s₂.last := by
    rw [show tl'.putWindow = s₂.lateralTail from hpost.window]
    exact hi₂.lateral.tail_val
  obtain ⟨t, hnode, -, hnone⟩ :=
    hi₂.tail_last (hidx.trans_le (hi₂.lateral.width_le _ le_rfl))
  have hnext : (s₂.nodes.deref (s₂.putArray tl'.putIndex).node).next = none := by
    rw [hnode]
    exact hnone
  refine assert_spec (Option.isSome_iff_exists.2 ⟨t, hnode⟩) ?_
  simp only [readWindow, Total.read_iff, hwin]
  refine assert_spec (decide_eq_true hlt) ?_
  rw [Total.read_iff, if_neg (not_le.2 hlt)]
  simp only [tryLink, readNext, Total.read_iff, hnext, if_true]
  refine enqCae_spec hnext ?_
  exact assert_spec (decide_eq_true hidx.le) (.ret ⟨_, rfl, tl', s₂, rfl, hpost, rfl⟩)

theorem enqueue_spec (hp : set.WF) {tl : Local} {p : ℕ} (hi : Inv set g s) (hat : tl.At s p)
    (v : ℤ) : Total (.trivial _) (Done set (.enqueue v) s)
    ((object set).code (.enqueue v) tl) s := by
  show Total _ _ (enqueue set v tl >>= _) s
  simp only [enqueue, createNode, Prog.bind_assoc, Total.update_iff]
  refine fun _ => ⟨True.intro, ?_⟩
  set n := s.nodes.fresh
  have hat' : tl.At { s with nodes := s.nodes.create v } p := hat.mono (.of_eq rfl)
  refine Total.bind_of (Total.forever_once (enqueueRound_spec hp (hi.create v) hat')) ?_
  rintro _ _ ⟨tl', s₂, rfl, hpost, rfl⟩
  have hi₂ := hpost.inv
  have hidx : tl'.putIndex < (s₂.win s₂.last).width := hpost.index_lt
  have hnodes : s₂.nodes = s.nodes.create v := hpost.nodes_eq
  have hmem : ∀ i < set.maxWidth, n ∉ s₂.nodes.line i := by
    rw [hnodes]
    exact hi.lists.not_mem_of_le le_rfl
  have hcell : s₂.nodes.heap n = ⟨v, none⟩ := by
    rw [hnodes]
    exact Function.update_self ..
  have hfin := hi₂.enqueue hidx hpost.count_lt rfl (by rw [hnodes]; exact Nat.lt_succ_self _) hmem
    (congrArg Node.next hcell)
  refine assert_spec rfl (putCae_spec rfl (.ret ⟨⟨_, hfin⟩, ⟨p, ?_⟩, ?_, rfl, ?_⟩))
  · exact hpost.at_pos.mono (.of_eq rfl)
  · have hgr : Grows s { s with nodes := s.nodes.create v } := .of_eq rfl
    exact (hgr.trans hpost.grows).trans (.of_eq rfl)
  · refine ⟨n, tl'.putIndex, (s₂.nodes.line tl'.putIndex).length, s₂.putRow tl'.putIndex,
      hidx.trans_le (hi₂.lateral.width_le _ le_rfl), ?_, ?_⟩
    · intro x hx he
      obtain ⟨hxi, hxp⟩ := hi.lists.placed x hx
      exact absurd he (hi.lists.lines.lt_fresh _ hxi _ (List.mem_of_getElem? hxp)).ne
    · show s₂.nodes.hist.addBack ⟨n, (s₂.nodes.heap n).val, _, _, ⟨_, s₂.win s₂.last⟩⟩ =
        s.nodes.hist.addBack ⟨n, v, _, _, ⟨_, (s₂.lateral.deref s₂.lateralTail).val⟩⟩
      rw [hcell, hnodes, hi₂.lateral.tail_val]
      rfl

/-- The head and the tail of a ready sub-queue differ. -/
theorem Inv.node_ne (h : Inv set g s) {j : ℕ} (hj : j < set.maxWidth) (hr : Ready g s j) :
    (s.getArray j).node ≠ (s.putArray j).node := by
  obtain ⟨p, hp, hlt, -⟩ := hr
  refine (h.holds_iff hj).1 ((h.holds_iff_pos hj).2 ?_)
  rw [h.getCount j hj] at hlt
  have := h.lt_of_row_lt hj (h.pos_lt j hj) hlt
  omega

/-- `safe_deq` on a ready sub-queue removes the item behind its head. -/
theorem safeDeq_spec {h : ℕ} {tl : Local} (hi : Inv set { g with head := h } (s.atHead h))
    (hempty : (∀ j < set.maxWidth, (s.getArray j).node = (s.putArray j).node) ↔
      s.nodes.hist.present = [])
    (hat : tl.At (s.atHead h) h) (hr : Ready { g with head := h } (s.atHead h) tl.getIndex) :
    Total (.trivial _) (fun r s' => ∃ a, r = .inr a ∧ Done set .dequeue s a s')
      (safeDeq (s.getArray tl.getIndex) tl) (s.atHead h) := by
  have hidx := hat.index_lt.trans_le (hi.lateral.width_le _ hat.lt)
  obtain ⟨q, hq, hlt, hle⟩ := hr
  obtain ⟨A, x, B, hpres, hv, hnext, hk, hrow, hfin⟩ := hi.dequeue hidx hq hlt hle
  replace hnext : ((s.atHead h).nodes.deref (s.getArray tl.getIndex).node).next = some x.node :=
    hnext
  have hrow' : nextRow ((s.atHead h).win (h + 1)) (s.getArray tl.getIndex).count = x.tag.row := hrow
  simp only [safeDeq, readNext, readWindow, Total.read_iff, hnext, hat.window_val, hrow']
  refine deqCae_spec rfl ?_
  rw [if_pos rfl, Total.read_iff]
  refine .ret ⟨_, rfl, ⟨_, hfin⟩, ⟨h, hat.mono (.of_eq rfl)⟩, .of_eq rfl,
    ⟨some x, .item hpres hk, congrArg some hv⟩, nofun, fun h' => ?_⟩
  have hpres' : s.nodes.hist.present = A ++ x :: B := hpres
  rw [hempty, hpres'] at h'
  exact absurd h' (List.append_ne_nil_of_right_ne_nil _ (List.cons_ne_nil _ _))

theorem dequeue_spec (hp : set.WF) {tl : Local} {p : ℕ} (hi : Inv set g s) (hat : tl.At s p) :
    Total (.trivial _) (Done set .dequeue s) ((object set).code .dequeue tl) s := by
  have hempty : (∀ j < set.maxWidth, (s.getArray j).node = (s.putArray j).node) ↔
      s.nodes.hist.present = [] := hi.present_eq_nil_iff.symm
  show Total _ _ (dequeue set tl) s
  simp only [dequeue, Total.read_iff]
  refine Total.forever_once ?_
  refine Total.bind_of
    (getWindow_spec hp hi rfl ⟨hat.lt, hat.head, hat.window, hat.index_lt⟩) ?_
  rintro ⟨d, tl'⟩ _ ⟨h, rfl, hi₂, hwin, hat', hd, hans⟩
  obtain rfl : d = s.getArray tl'.getIndex := hd
  replace hat' : tl'.At (s.atHead h) h := hat'
  have hval : ((s.atHead h).lateral.deref tl'.putWindow).val = s.win s.last := by
    rw [show tl'.putWindow = (s.atHead h).lateralTail from hwin]
    exact hi₂.lateral.tail_val
  have hidx := hat'.index_lt.trans_le (hi₂.lateral.width_le _ hat'.lt)
  simp only [readWindow, Total.read_iff, hval, hat'.window_val]
  split
  next hlt =>
    rcases hans with hr | ⟨he, -⟩
    · exact safeDeq_spec hi₂ hempty hat' hr
    · -- the get window is not the put window
      rw [he] at hlt
      exact absurd hlt (lt_irrefl _)
  next =>
    refine readDescriptor_spec ?_
    show Total _ _ (if (s.getArray tl'.getIndex).node = (s.putArray tl'.getIndex).node then _
      else _) _
    by_cases heq : (s.getArray tl'.getIndex).node = (s.putArray tl'.getIndex).node
    · obtain ⟨t, hnode, -, hnone⟩ := hi₂.tail_last hidx
      have hnext : ((s.atHead h).nodes.deref (s.getArray tl'.getIndex).node).next = none := by
        rw [heq, show (s.putArray tl'.getIndex).node = some t from hnode]
        exact hnone
      have hnil : s.nodes.hist.present = [] := by
        rcases hans with hr | ⟨-, hnil⟩
        · exact absurd heq (hi₂.node_ne hidx hr)
        · exact hnil
      rw [if_pos heq]
      simp only [readNext, Total.read_iff, hnext, if_true]
      exact .ret ⟨_, rfl, ⟨_, hi₂⟩, ⟨h, hat'⟩, .atHead s h, ⟨none, .empty hnil, rfl⟩,
        fun _ => hempty.2 hnil, fun _ => rfl⟩
    · rw [if_neg heq]
      rcases hans with hr | ⟨-, hnil⟩
      · exact safeDeq_spec hi₂ hempty hat' hr
      · exact absurd (hempty.2 hnil _ hidx) heq

/-- `queue_register` puts a new thread in front of the current windows. -/
theorem register_spec {tl : Local} (hi : Inv set g s) :
    Total (.trivial _) (Done set .register s) ((object set).code .register tl) s := by
  have hnext := hi.lateral.next_line hi.head_lt.le
  have hpos := hi.lateral.width_pos (g.head + 1) hi.head_lt
  show Total _ _ (initThreadWindows .zero >>= _) s
  simp only [initThreadWindows, readLateralNext, Prog.bind_assoc, Total.read_iff, hi.head, hnext]
  exact .ret ⟨⟨_, hi⟩, ⟨g.head, hi.head_lt, rfl, rfl, hpos⟩, .refl _, rfl⟩

theorem call_spec (hp : set.WF) {tl : Local} {p : ℕ} (hi : Inv set g s) (hat : tl.At s p)
    {c : Call} (hc : c.Valid set) :
    Total (.trivial _) (Done set c s) ((object set).code c tl) s := by
  cases c with
  | register => exact register_spec hi
  | enqueue v => exact enqueue_spec hp hi hat v
  | dequeue => exact dequeue_spec hp hi hat
  | updateWidth w =>
    refine Total.update_iff.2 fun _ => ⟨True.intro, .ret ?_⟩
    exact ⟨⟨_, hi.setWidth hc⟩, ⟨p, hat.mono (.of_eq rfl)⟩, .of_eq rfl, rfl⟩
  | updateDepth d =>
    refine Total.update_iff.2 fun _ => ⟨True.intro, .ret ?_⟩
    exact ⟨⟨_, hi.setDepth hc.1⟩, ⟨p, hat.mono (.of_eq rfl)⟩, .of_eq rfl, rfl⟩

theorem answer_spec (hp : set.WF) {tl : Local} {p : ℕ} (hi : Inv set g s) (hat : tl.At s p)
    (c : Call) :
    Total (.trivial _) (fun r s' => Answers set c s r.2 s') ((object set).code c tl) s := by
  cases c with
  | register => exact (register_spec hi).mono fun _ _ h => h.answers
  | enqueue v => exact (enqueue_spec hp hi hat v).mono fun _ _ h => h.answers
  | dequeue => exact (dequeue_spec hp hi hat).mono fun _ _ h => h.answers
  | updateWidth w => exact Total.update_iff.2 fun _ => ⟨True.intro, .ret rfl⟩
  | updateDepth d => exact Total.update_iff.2 fun _ => ⟨True.intro, .ret rfl⟩

/-- What holds between any two calls. -/
structure Correct (set : Params) (s : State) (ls : ℕ → Local) : Prop where
  conserved : s.nodes.hist.Conserved
  asserted : s.failed = false
  answers : (object set).Meets (Answers set) s ls

/-- Sequential specification of the elastic LaW queue: for threads that call one at a time, with
whatever windows and indices their earlier calls left them, and for every sequence of widths and
depths, no item is lost or returned twice, no assertion fails, and every call returns with an answer
of the queue whose relaxation is that of the windows. -/
theorem lawQueue_sequential {maxWidth width depth : ℕ} (hw : 1 ≤ width) (hw' : width ≤ maxWidth)
    (hm : maxWidth < 2 ^ 16) (hd : 1 ≤ depth) {s : State} {ls : ℕ → Local}
    (h : SeqReach (object (params maxWidth)) (fun c _ => c.Valid (params maxWidth))
      (fun _ _ => True) (initial (params maxWidth) width depth) .registered s ls) :
    Correct (params maxWidth) s ls := by
  have hp : (params maxWidth).WF := ⟨hm, (by decide : 2 < 2 ^ 16)⟩
  obtain ⟨⟨g, hi⟩, hl⟩ := SeqReach.invariant (C := .trivial _)
    (fun s => ∃ g, Inv (params maxWidth) g s) (fun l s => ∃ p, l.At s p)
    ⟨_, Inv.initial hw hw' hd⟩ ⟨0, one_pos, rfl, rfl, hw⟩
    (fun c l s hc ⟨_, hi⟩ ⟨_, hl⟩ => (call_spec hp hi hl hc).mono
      fun _ _ h => ⟨h.inv, h.loc, fun _ h' => h.keeps h'⟩) h
  refine ⟨hi.lists.conserved, hi.asserted, Object.meets fun t c => ?_⟩
  obtain ⟨p, hat⟩ := hl t
  exact answer_spec hp hi hat c

/-- Two threads enqueue five items and dequeue two of them. In between the depth is set to 2 and the
width to 1, and the put window moves on twice. -/
theorem lawQueue_sequential_run : ∃ s ls,
    (s.nodes.hist.present.map fun x => (x.val, x.idx, x.tag.window)) =
      [(7, 0, ⟨3, 1, 2⟩), (8, 0, ⟨3, 1, 2⟩), (9, 0, ⟨5, 1, 2⟩)] ∧
      (s.nodes.hist.removed.map fun x => (x.val, x.idx)) = [(6, 1), (5, 0)] ∧
      Correct (params 2) s ls := by
  have hmax : 1 ≤ (params 2).maxWidth := by decide
  obtain ⟨s, ls, hr, hc⟩ := SeqReach.of_check (object (params 2))
    (fun c _ => c.Valid (params 2)) (initial (params 2) 2 1) .registered 80
    [(0, .enqueue 5, fun _ => 0), (1, .enqueue 6, fun _ => 1), (0, .updateDepth 2, fun _ => 0),
      (0, .updateWidth 1, fun _ => 0), (1, .enqueue 7, fun _ => 0), (0, .dequeue, fun _ => 1),
      (1, .enqueue 8, fun _ => 0), (0, .dequeue, fun _ => 1), (1, .enqueue 9, fun _ => 0)]
    (fun _ => true) (fun s => decide
      ((s.nodes.hist.present.map fun x => (x.val, x.idx, x.tag.window)) =
        [(7, 0, ⟨3, 1, 2⟩), (8, 0, ⟨3, 1, 2⟩), (9, 0, ⟨5, 1, 2⟩)] ∧
      (s.nodes.hist.removed.map fun x => (x.val, x.idx)) = [(6, 1), (5, 0)]))
    (by decide +kernel) rfl (by simp [Call.Valid, hmax])
  obtain ⟨hpresent, hremoved⟩ := of_decide_eq_true hc
  exact ⟨s, ls, hpresent, hremoved,
    lawQueue_sequential (by decide : 1 ≤ 2) le_rfl (by decide) (by decide : 1 ≤ 1) hr⟩

end ElasticLaw
