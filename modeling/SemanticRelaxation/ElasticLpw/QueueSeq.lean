import SemanticRelaxation.ElasticLpw.WindowSeq

/-!
# The elastic LpW queue, one call at a time

`get_window` mixes up two things in the rows where the windows overlap. A sub-queue with its get
count at the bottom of the put window counts as empty, even if it holds items; and a sub-queue with
a get count below that bottom counts as non-empty, even if the width has only now grown over it. So
the get window can be shifted away from items, and `dequeue` can return 0 from a queue with items.

* `lpwQueue_leaves_none`: as long as no shift skips a sub-queue, no shift leaves an item behind and
  no get count passes its put count;
* `lpwQueue_empty_truthful`: if besides `dequeue` is not called in a state that misleads it
  (`Misleading`), it returns 0 from an empty queue only.
-/

namespace ElasticLpw

open AtomicProg Linked TwoD

variable {set : Params} {g : Ghost} {s s' : State}

/-- In what states `dequeue` returns 0, before and after the call: `get_window` has moved the get
window on to the put window and has come to a sub-queue without items. -/
structure EmptyAnswer (set : Params) (s s' : State) (j : ℕ) : Prop where
  inv : ∃ g, Inv set g s'
  variant : ∃ w p, s' = s.atGet w p
  idx_lt : j < s'.globalGWindow.width
  empty : ¬ s'.nodes.Holds j
  overlap : s'.globalPWindow.bottom < s'.globalGWindow.max
  answer : ¬ Exhausted s' j ∨ s'.globalGWindow.max = s'.globalPWindow.max ∧
    ∀ j < s'.globalGWindow.width, Exhausted s' j

/-- What a call leaves behind. -/
structure Done (set : Params) (c : Call) (s : State) (r : Local × Option ℤ) (s' : State) :
    Prop where
  inv : ∃ g, Inv set g s'
  ok : r.1.Ok s'
  grows : Grows s s'
  empty : c = .dequeue → r.2 = none → ∃ j, EmptyAnswer set s s' j

theorem Inv.getLePut (h : Inv set g s) : GetLePut set s := fun _ hj => h.get_le_put hj

section Exchanges

variable {β : Type} {Q : β → State → Prop} {k : Bool → Prog State β} {idx : ℕ}
  {old new : Descriptor}

theorem putCae_spec (he : s.putArray idx = old)
    (hle : GetLePut set { s with putArray := Function.update s.putArray idx new })
    (h : Total (contract set) Q (k true)
      { s with putArray := Function.update s.putArray idx new }) :
    Total (contract set) Q (putCae idx old new >>= k) s := by
  simp only [putCae, Prog.bind_assoc]
  exact Total.cae_of_eq he fun _ => ⟨guarantee_array rfl hle, h⟩

theorem deqCae_spec (he : s.getArray idx = old)
    (hle : GetLePut set { s with
      getArray := Function.update s.getArray idx new
      nodes := s.nodes.remove new.node })
    (h : Total (contract set) Q (k true) { s with
      getArray := Function.update s.getArray idx new
      nodes := s.nodes.remove new.node }) :
    Total (contract set) Q (deqCae idx old new >>= k) s := by
  simp only [deqCae, Prog.bind_assoc]
  exact Total.cae_of_eq he fun _ => ⟨guarantee_array rfl hle, h⟩

theorem enqCae_spec {tail : Option ℕ} {n row : ℕ} (he : (s.nodes.deref tail).next = none)
    (h : Total (contract set) Q (k true) { s with nodes := s.nodes.link idx tail n row }) :
    Total (contract set) Q (enqCae idx tail n row >>= k) s := by
  simp only [enqCae, Prog.bind_assoc]
  exact Total.cae_of_eq he fun _ => ⟨guarantee_frame rfl rfl rfl, h⟩

end Exchanges

/-! ### `enqueue` -/

/-- The row that `enqueue` gives to the next item of sub-queue `j`. -/
abbrev State.putRow (s : State) (j : ℕ) : ℕ :=
  nextRow s.globalPWindow.bottom (s.putArray j).count

/-- The loop of `enqueue` links the new node behind the tail of a sub-queue of the put window. -/
theorem enqueueRound_spec (hp : set.WF) {tl : Local} {n : ℕ} (hi : Inv set g s) (hok : tl.Ok s) :
    Total (contract set) (fun r s' => ∃ a : Local × Descriptor × Descriptor, r = .inr a ∧
      ∃ tl' s₂, a = (tl', s₂.putArray tl'.putIndex, ⟨some n, s₂.putRow tl'.putIndex⟩) ∧
        PutPost set s (s₂.putArray tl'.putIndex, tl') s₂ ∧
        s' = { s₂ with
          nodes := s₂.nodes.link tl'.putIndex (s₂.putArray tl'.putIndex).node n
            (s₂.putRow tl'.putIndex) })
      (enqueueRound set n false tl) s := by
  refine Total.bind_of (putWindow_spec hp hi hok) ?_
  rintro ⟨d, tl'⟩ s₂ hpost
  obtain rfl : d = s₂.putArray tl'.putIndex := hpost.descriptor
  obtain ⟨g₂, hi₂⟩ := hpost.inv
  have hidx : tl'.putIndex < s₂.globalPWindow.width := hpost.index_lt
  have hlt : (s₂.putArray tl'.putIndex).count < s₂.globalPWindow.max := hpost.count_lt
  have hwin : tl'.pWindow = s₂.globalPWindow := hpost.window
  have hget : tl'.gWindow.max ≤ s₂.globalPWindow.max :=
    hpost.ok.get_le.trans hi₂.windows.get_le_put
  obtain ⟨t, hnode, -, hnone⟩ := hi₂.tail_last (hidx.trans_le hi₂.pWidth_ok.2)
  have hnext : (s₂.nodes.deref (s₂.putArray tl'.putIndex).node).next = none := by
    rw [hnode]
    exact hnone
  dsimp only
  rw [hwin]
  refine assert_spec (decide_eq_true hget) (assert_spec (decide_eq_true hlt) ?_)
  rw [Total.read_iff, if_neg (not_le.2 hlt)]
  simp only [tryLink, readNext, Total.read_iff, hnext, if_true, hwin]
  refine enqCae_spec hnext ?_
  exact assert_spec (decide_eq_true hidx.le) (.ret ⟨_, rfl, tl', s₂, rfl, hpost, rfl⟩)

theorem enqueue_spec (hp : set.WF) {tl : Local} (hi : Inv set g s) (hok : tl.Ok s) (v : ℤ) :
    Total (contract set) (Done set (.enqueue v) s) ((object set).code (.enqueue v) tl) s := by
  show Total _ _ (enqueue set v tl >>= _) s
  simp only [enqueue, createNode, Prog.bind_assoc, Total.update_iff]
  refine fun _ => ⟨guarantee_frame rfl rfl rfl, ?_⟩
  set n := s.nodes.fresh
  have hgr : Grows s { s with nodes := s.nodes.create v } := .of_eq rfl rfl
  refine Total.bind_of
    (Total.forever_once (enqueueRound_spec hp (hi.create v) (hok.mono hgr))) ?_
  rintro _ _ ⟨tl', s₂, rfl, hpost, rfl⟩
  obtain ⟨g₂, hi₂⟩ := hpost.inv
  have hidx : tl'.putIndex < s₂.globalPWindow.width := hpost.index_lt
  have hnodes : s₂.nodes = s.nodes.create v := hpost.nodes_eq
  have hmem : ∀ i < set.maxWidth, n ∉ s₂.nodes.line i := by
    rw [hnodes]
    exact hi.lists.not_mem_of_le le_rfl
  have hcell : s₂.nodes.heap n = ⟨v, none⟩ := by
    rw [hnodes]
    exact Function.update_self ..
  have hfin := hi₂.enqueue hidx hpost.count_lt rfl (by rw [hnodes]; exact Nat.lt_succ_self _) hmem
    (congrArg Node.next hcell)
  have hgr' : Grows s₂ { s₂ with
      putArray := Function.update s₂.putArray tl'.putIndex ⟨some n, s₂.putRow tl'.putIndex⟩
      nodes := s₂.nodes.link tl'.putIndex (s₂.putArray tl'.putIndex).node n
        (s₂.putRow tl'.putIndex) } := .of_eq rfl rfl
  refine putCae_spec rfl hfin.getLePut (.ret ⟨⟨_, hfin⟩, ?_, ?_, by intros; contradiction⟩)
  · exact hpost.ok.mono hgr'
  · exact (hgr.trans hpost.grows).trans hgr'

/-! ### `dequeue` -/

/-- The branch `non_overlap` removes the item behind the head. -/
theorem nonOverlap_spec {tl : Local} (hi : Inv set g s) (hgw : tl.gWindow = s.globalGWindow)
    (hok : tl.Ok s) (hidx : tl.getIndex < s.globalGWindow.width)
    (hlt : (s.getArray tl.getIndex).count < s.globalGWindow.max)
    (hold : s.nodes.Holds tl.getIndex) :
    Total (contract set) (fun r s' => ∃ v, r = .inr (tl, some v) ∧ (∃ g, Inv set g s') ∧
      tl.Ok s' ∧ Grows s s') (nonOverlap (s.getArray tl.getIndex) tl) s := by
  obtain ⟨x, hx, hv, hnext, hrow, hfin⟩ := hi.dequeue hidx hlt hold
  simp only [nonOverlap, readNext, Total.read_iff, hnext, hgw, hrow]
  refine deqCae_spec rfl hfin.getLePut ?_
  rw [if_pos rfl, Total.read_iff]
  have hgr : Grows s { s with
      getArray := Function.update s.getArray tl.getIndex ⟨some x.node, x.tag⟩
      nodes := s.nodes.remove (some x.node) } := .of_eq rfl rfl
  exact .ret ⟨_, rfl, ⟨_, hfin⟩, hok.mono hgr, hgr⟩

theorem dequeue_spec (hp : set.WF) {tl : Local} (hi : Inv set g s) (hok : tl.Ok s) :
    Total (contract set) (Done set .dequeue s) ((object set).code .dequeue tl) s := by
  show Total _ _ (dequeue set tl) s
  simp only [dequeue, readPMax, Total.read_iff]
  refine loadPWindow_spec (Total.forever_once ?_)
  refine Total.bind_of (getWindow_spec hp hi rfl ⟨le_rfl, fun _ => rfl, hok.get_le, hok.get_eq⟩) ?_
  rintro ⟨d, tl'⟩ s₂ ⟨⟨g₂, hi₂⟩, hv, hgr, hpw, hgw, hidx, hd, hans⟩
  obtain rfl : d = s₂.getArray tl'.getIndex := hd
  replace hpw : tl'.pWindow = s₂.globalPWindow := hpw
  replace hgw : tl'.gWindow = s₂.globalGWindow := hgw
  replace hidx : tl'.getIndex < s₂.globalGWindow.width := hidx
  have hidx' := hidx.trans_le hi₂.windows.gWidth_ok.2
  have hok' : tl'.Ok s₂ := by
    refine ⟨?_, fun _ => hpw, ?_, fun _ => ⟨hgw, hidx⟩⟩
    · rw [hpw]
    · rw [hgw]
  -- an accepted sub-queue that holds an item is emptied from its head on
  have hremove (hlt : (s₂.getArray tl'.getIndex).count < s₂.globalGWindow.max)
      (hold : s₂.nodes.Holds tl'.getIndex) :
      Total (contract set) (fun r s' => ∃ a, r = .inr a ∧ Done set .dequeue s a s')
        (nonOverlap (s₂.getArray tl'.getIndex) tl') s₂ := by
    refine (nonOverlap_spec hi₂ hgw hok' hidx hlt hold).mono ?_
    rintro _ s₃ ⟨v, rfl, hinv, hok₃, hgr₃⟩
    exact ⟨_, rfl, hinv, hok₃, hgr.trans hgr₃, nofun⟩
  dsimp only
  rw [hpw, hgw]
  split
  next hover =>
    refine readDescriptor_spec ?_
    by_cases heq : (s₂.getArray tl'.getIndex).node = (s₂.putArray tl'.getIndex).node
    · obtain ⟨t, hnode, -, hnone⟩ := hi₂.tail_last hidx'
      have hnext : (s₂.nodes.deref (s₂.getArray tl'.getIndex).node).next = none := by
        rw [heq, hnode]
        exact hnone
      rw [if_pos heq]
      simp only [readNext, Total.read_iff, hnext, if_true]
      refine .ret ⟨_, rfl, ⟨_, hi₂⟩, hok', hgr, fun _ _ => ⟨tl'.getIndex, ⟨g₂, hi₂⟩, hv, hidx, ?_,
        hover, hans⟩⟩
      exact fun hold => (hi₂.holds_iff hidx').1 hold heq
    · have hold := (hi₂.holds_iff hidx').2 heq
      rw [if_neg heq]
      refine hremove ?_ hold
      rcases hans with hr | ⟨he, -⟩
      · exact (not_not.1 hr).1
      · have h₁ := (hi₂.holds_iff_count hidx').1 hold
        have h₂ := hi₂.put_le _ hidx'
        replace he : s₂.globalGWindow.max = s₂.globalPWindow.max := he
        omega
  next hover =>
    have hle := not_lt.1 hover
    rcases hans with hr | ⟨he, -⟩
    · have hlt := (not_not.1 hr).1
      exact hremove hlt (hi₂.holds_of_lt hi₂.windows.get_bottom_lt le_rfl hle hidx hlt)
    · -- the get window is not the put window
      replace he : s₂.globalGWindow.max = s₂.globalPWindow.max := he
      have hbottom := hi₂.windows.put_bottom_lt
      omega

theorem call_spec (hp : set.WF) {tl : Local} (hi : Inv set g s) (hok : tl.Ok s) {c : Call}
    (hc : c.Valid set) : Total (contract set) (Done set c s) ((object set).code c tl) s := by
  cases c with
  | enqueue v => exact enqueue_spec hp hi hok v
  | dequeue => exact dequeue_spec hp hi hok
  | updateWidth w =>
    refine Total.update_iff.2 fun _ => ⟨guarantee_frame rfl rfl rfl, .ret ?_⟩
    exact ⟨⟨_, hi.setWidth hc⟩, hok.mono (.of_eq rfl rfl), .of_eq rfl rfl, nofun⟩
  | updateDepth d =>
    refine Total.update_iff.2 fun _ => ⟨guarantee_frame rfl rfl rfl, .ret ?_⟩
    exact ⟨⟨_, hi.setDepth hc⟩, hok.mono (.of_eq rfl rfl), .of_eq rfl rfl, nofun⟩

/-- The states that valid calls executed one at a time reach, with transitions in `assume`. -/
abbrev Reach (maxWidth width depth : ℕ) (assume : State → State → Prop) :
    State → (ℕ → Local) → Prop :=
  SeqReach (object (params maxWidth)) (fun c _ => c.Valid (params maxWidth)) assume
    (initial (params maxWidth) width depth) .zero

theorem params_wf {maxWidth : ℕ} (hm : maxWidth < 2 ^ 16) : (params maxWidth).WF :=
  ⟨hm, (by decide : 2 < 2 ^ 16)⟩

/-- Between two calls the invariant holds, and what every thread remembers is sound. -/
theorem Reach.invariant {maxWidth width depth : ℕ} (hw : 1 ≤ width) (hw' : width ≤ maxWidth)
    (hm : maxWidth < 2 ^ 16) (hd : 1 ≤ depth) (hd' : depth < 2 ^ 16) {s : State} {ls : ℕ → Local}
    (h : Reach maxWidth width depth (contract (params maxWidth)).assume s ls) :
    (∃ g, Inv (params maxWidth) g s) ∧ ∀ t, (ls t).Ok s := by
  have hi : Inv (params maxWidth) _ _ := Inv.initial hw hw' hd hd'
  have hzero : Local.zero.Ok (initial (params maxWidth) width depth) := by
    refine ⟨Nat.zero_le _, fun he => ?_, Nat.zero_le _, fun he => ?_⟩
    · exact absurd he (Nat.lt_of_lt_of_le one_pos hd).ne
    · exact absurd he (Nat.lt_of_lt_of_le one_pos hd).ne
  refine SeqReach.invariant (fun s => ∃ g, Inv (params maxWidth) g s) Local.Ok ⟨_, hi⟩ hzero ?_ h
  rintro c l s hc ⟨g, hi⟩ hl
  refine (call_spec (params_wf hm) hi hl hc).mono fun r s' h => ?_
  exact ⟨h.inv, h.ok, fun l' hl' => hl'.mono h.grows⟩

/-! ### No item is left behind -/

/-- No get count exceeds its put count, neither now nor during a call of any thread, and wherever
the get window shifts in a call, no item is left in a row up to its maximum. -/
def LeavesNone (set : Params) (assume : State → State → Prop) (s : State) (ls : ℕ → Local) : Prop :=
  GetLePut set s ∧ ∀ t (c : Call), c.Valid set → ∀ n ch,
    (∀ x ∈ ((object set).code c (ls t)).trace n ch s, assume x.1 x.2) →
    ∀ x ∈ ((object set).code c (ls t)).trace n ch s,
      GetLePut set x.2 ∧ (x.2.globalGWindow ≠ x.1.globalGWindow → NoneBehind x.1)

/-- As long as the get window is shifted only when that skips no sub-queue, no shift leaves an item
behind and no get count exceeds its put count. -/
theorem lpwQueue_leaves_none {maxWidth width depth : ℕ} (hw : 1 ≤ width) (hw' : width ≤ maxWidth)
    (hm : maxWidth < 2 ^ 16) (hd : 1 ≤ depth) (hd' : depth < 2 ^ 16) {s : State} {ls : ℕ → Local}
    (h : Reach maxWidth width depth (contract (params maxWidth)).assume s ls) :
    LeavesNone (params maxWidth) (contract (params maxWidth)).assume s ls := by
  obtain ⟨⟨g, hi⟩, hl⟩ := h.invariant hw hw' hm hd hd'
  refine ⟨hi.getLePut, fun t c hc n ch ha => ?_⟩
  have hgood := (call_spec (params_wf hm) hi (hl t) hc).trace_spec ha
  have hle := Prog.trace_invariant (I := GetLePut (params maxWidth)) hi.getLePut fun x hx hx₁ => by
    by_cases he : x.2.getArray ≠ x.1.getArray ∨ x.2.putArray ≠ x.1.putArray
    · exact (hgood x hx).2 he
    · obtain ⟨hget, hput⟩ := not_or.1 he
      intro j hj
      rw [not_not.1 hget, not_not.1 hput]
      exact hx₁ j hj
  exact fun x hx => ⟨(hle x hx).2, (hgood x hx).1⟩

instance (s : State) (j : ℕ) : Decidable (Skipped s j) := inferInstanceAs (Decidable (_ ∧ _))

instance (s : State) : Decidable (NoneBehind s) :=
  inferInstanceAs (Decidable (∀ x ∈ s.nodes.hist.present, _))

instance (set : Params) (s s' : State) : Decidable ((contract set).assume s s') :=
  inferInstanceAs (Decidable (_ → ∀ j < s.globalGWindow.width, ¬ Skipped s j))

/-- Two items on one sub-queue, and a dequeue of each: the get window shifts in between. -/
theorem lpwQueue_leaves_none_shift : ∃ s ls, s.globalGWindow.max = 2 ∧
    s.nodes.hist.present = [] ∧ LeavesNone (params 1) (contract (params 1)).assume s ls := by
  have h : (((object (params 1)).exec 80 [(0, .enqueue 7, fun _ => 0), (0, .enqueue 8, fun _ => 0),
      (0, .dequeue, fun _ => 0), (1, .dequeue, fun _ => 0)] (initial (params 1) 1 1)
      fun _ => .zero).any fun x => decide (x.1.globalGWindow.max = 2) &&
        x.1.nodes.hist.present.isEmpty &&
        decide (∀ y ∈ x.2.2, (contract (params 1)).assume y.1 y.2)) = true := by
    decide +kernel
  obtain ⟨⟨s, ls, tr⟩, he, hc⟩ := (Option.any_eq_true _ _).1 h
  simp only [Bool.and_eq_true, decide_eq_true_eq, List.isEmpty_iff] at hc
  refine ⟨s, ls, hc.1.1, hc.1.2, lpwQueue_leaves_none le_rfl le_rfl (by decide) le_rfl (by decide)
    (Object.exec_reach he ?_ hc.2 .init)⟩
  simp [Call.Valid]

/-- With one sub-queue and windows of depth 1: the put window gets depth 2 and is shifted by the
second enqueue, the depth is set back to 1 and the first item dequeued. The next dequeue shifts the
get window twice, away from the row of the second item. -/
theorem lpwQueue_leaves_one : ∃ s ls, Reach 1 1 1 (fun _ _ => True) s ls ∧
    ¬ LeavesNone (params 1) (fun _ _ => True) s ls := by
  have h : (((object (params 1)).exec 80 [(0, .enqueue 7, fun _ => 0),
    (0, .updateDepth 2, fun _ => 0),
      (0, .enqueue 8, fun _ => 0), (0, .updateDepth 1, fun _ => 0), (0, .dequeue, fun _ => 0)]
      (initial (params 1) 1 1) fun _ => .zero).any fun x =>
        (((object (params 1)).code .dequeue (x.2.1 0)).trace 80 (fun _ => 0) x.1).any fun y =>
          decide (y.2.globalGWindow ≠ y.1.globalGWindow ∧ ¬ NoneBehind y.1)) = true := by
    decide +kernel
  obtain ⟨⟨s, ls, tr⟩, he, hc⟩ := (Option.any_eq_true _ _).1 h
  obtain ⟨y, hy, hbad⟩ := List.any_eq_true.1 hc
  obtain ⟨hshift, hbehind⟩ := of_decide_eq_true hbad
  refine ⟨s, ls, Object.exec_reach he ?_ (fun _ _ => True.intro) .init, fun hnone => ?_⟩
  · simp [Call.Valid]
  · exact hbehind ((hnone.2 0 .dequeue True.intro _ _ (fun _ _ => True.intro) y hy).2 hshift)

/-! ### Answers from a queue that is not empty -/

/-- A queue with items that `dequeue` may answer with 0. Either no item is left up to the bottom of
the put window, and its width has grown over a sub-queue without items whose get count is below; or
every sub-queue with items has its get count at that bottom, and some sub-queue is without items. -/
def Misleading (s : State) : Prop :=
  s.nodes.hist.present ≠ [] ∧
    ((∀ x ∈ s.nodes.hist.present, s.globalPWindow.bottom < x.tag) ∧
        (∃ j < s.globalPWindow.width, (s.getArray j).count < s.globalPWindow.bottom ∧
          ¬ s.nodes.Holds j) ∨
      (∀ x ∈ s.nodes.hist.present, (s.getArray x.idx).count = s.globalPWindow.bottom) ∧
        ∃ j < s.globalPWindow.width, ¬ s.nodes.Holds j)

/-- Nothing is present, and the head of every sub-queue is its tail. -/
def Empty (set : Params) (s : State) : Prop :=
  s.nodes.hist.present = [] ∧ ∀ j < set.maxWidth, (s.getArray j).node = (s.putArray j).node

/-- A `dequeue` of any thread with transitions in `assume` returns 0 from an empty queue only. -/
def EmptyIsTrue (set : Params) (assume : State → State → Prop) (s : State) (ls : ℕ → Local) :
    Prop :=
  ∀ t l s' tr, ((object set).code .dequeue (ls t)).Runs s (l, none) s' tr →
    (∀ x ∈ tr, assume x.1 x.2) → Empty set s'

/-- A sub-queue that `get_window` takes for non-empty is so, unless the width has grown over it. -/
theorem EmptyAnswer.grown {j : ℕ} (h : EmptyAnswer set s s' j) (hans : ¬ Exhausted s' j) :
    j < s'.globalPWindow.width ∧ (s'.getArray j).count < s'.globalPWindow.bottom ∧
      ∀ x ∈ s'.nodes.hist.present, s'.globalPWindow.bottom < x.tag := by
  obtain ⟨g, hi⟩ := h.inv
  have hover := h.overlap
  have hidx := h.idx_lt
  have hput : (s'.putArray j).count ≤ (s'.getArray j).count := by
    have hj := hidx.trans_le hi.windows.gWidth_ok.2
    exact not_lt.1 fun hlt => h.empty ((hi.holds_iff_count hj).2 hlt)
  obtain ⟨-, hlt⟩ := not_not.1 hans
  have hlow : (s'.getArray j).count < s'.globalPWindow.bottom := by
    unfold putBound at hlt
    split at hlt
    · exact hlt
    · exact absurd hput (not_le.2 hlt)
  refine ⟨by rwa [← hi.width_eq hover], hlow, fun x hx => ?_⟩
  -- below the put window the row of the item is full
  by_contra hle
  have habove := hi.above x hx
  exact h.empty (hi.holds_of_lt (by omega) hover.le le_rfl hidx hlow)

/-- After a round that found nothing, every sub-queue with items has its get count at the bottom of
the put window. -/
theorem EmptyAnswer.at_bottom {j : ℕ} (h : EmptyAnswer set s s' j)
    (hmax : s'.globalGWindow.max = s'.globalPWindow.max)
    (hall : ∀ j < s'.globalGWindow.width, Exhausted s' j) :
    j < s'.globalPWindow.width ∧
      ∀ x ∈ s'.nodes.hist.present, (s'.getArray x.idx).count = s'.globalPWindow.bottom := by
  obtain ⟨g, hi⟩ := h.inv
  refine ⟨hi.width_eq h.overlap ▸ h.idx_lt, fun x hx => ?_⟩
  obtain ⟨hj, -, hle, -, hget⟩ := hi.row_present' hx
  have hput : x.tag ≤ (s'.putArray x.idx).count := (hi.row_present hx).2
  have hbound : putBound s' x.idx ≤ (s'.getArray x.idx).count := by
    have hex := hall _ (hi.idx_lt_gWidth hx (hmax.symm ▸ hle))
    exact not_lt.1 fun hlt => hex ⟨by omega, hlt⟩
  unfold putBound at hbound
  split at hbound
  next hlow => exact le_antisymm hlow hbound
  next => omega

/-- As long as the get window is shifted only when that skips no sub-queue, a `dequeue` that is not
misled returns 0 from an empty queue only. -/
theorem lpwQueue_empty_truthful {maxWidth width depth : ℕ} (hw : 1 ≤ width) (hw' : width ≤ maxWidth)
    (hm : maxWidth < 2 ^ 16) (hd : 1 ≤ depth) (hd' : depth < 2 ^ 16) {s : State} {ls : ℕ → Local}
    (h : Reach maxWidth width depth (contract (params maxWidth)).assume s ls)
    (hs : ¬ Misleading s) :
    EmptyIsTrue (params maxWidth) (contract (params maxWidth)).assume s ls := by
  obtain ⟨⟨g, hi⟩, hl⟩ := h.invariant hw hw' hm hd hd'
  intro t l s' tr hr ha
  obtain ⟨hdone, -⟩ := (dequeue_spec (params_wf hm) hi (hl t)).runs hr ha
  obtain ⟨g', hi'⟩ := hdone.inv
  obtain ⟨j, hj⟩ := hdone.empty rfl rfl
  obtain ⟨w, p, rfl⟩ := hj.variant
  have hnil : s.nodes.hist.present = [] := by
    by_contra hne
    refine hs ⟨hne, ?_⟩
    rcases hj.answer with hans | ⟨hmax, hall⟩
    · obtain ⟨h₁, h₂, h₃⟩ := hj.grown hans
      exact .inl ⟨h₃, j, h₁, h₂, hj.empty⟩
    · obtain ⟨h₁, h₂⟩ := hj.at_bottom hmax hall
      exact .inr ⟨h₂, j, h₁, hj.empty⟩
  exact ⟨hnil, hi'.present_eq_nil_iff.1 hnil⟩

instance (s : State) (j : ℕ) : Decidable (s.nodes.Holds j) :=
  inferInstanceAs (Decidable (∃ x ∈ s.nodes.hist.present, _))

instance (s : State) : Decidable (Misleading s) := inferInstanceAs (Decidable (_ ∧ _))

/-- With an item in each of two sub-queues nothing misleads `dequeue`. -/
theorem lpwQueue_empty_truthful_two : ∃ s ls, s.nodes.hist.present.length = 2 ∧
    EmptyIsTrue (params 2) (contract (params 2)).assume s ls := by
  have h : (((object (params 2)).exec 80 [(0, .enqueue 7, fun _ => 0), (0, .enqueue 8, fun _ => 0)]
      (initial (params 2) 2 1) fun _ => .zero).any fun x =>
        decide (x.1.nodes.hist.present.length = 2) && decide (¬ Misleading x.1) &&
        decide (∀ y ∈ x.2.2, (contract (params 2)).assume y.1 y.2)) = true := by
    decide +kernel
  obtain ⟨⟨s, ls, tr⟩, he, hc⟩ := (Option.any_eq_true _ _).1 h
  simp only [Bool.and_eq_true, decide_eq_true_eq] at hc
  obtain ⟨⟨hlen, hs⟩, ha⟩ := hc
  refine ⟨s, ls, hlen, lpwQueue_empty_truthful (by decide : 1 ≤ 2) le_rfl (by decide)
    (by decide : 1 ≤ 1) (by decide) (Object.exec_reach he ?_ ha .init) hs⟩
  simp [Call.Valid]

/-- With one item in the first of two sub-queues, a `dequeue` that ends its search at the second one
returns 0. -/
theorem lpwQueue_empty_untrue : ∃ s ls, Reach 2 2 1 (fun _ _ => True) s ls ∧
    ¬ EmptyIsTrue (params 2) (fun _ _ => True) s ls := by
  have h : (((object (params 2)).exec 80 [(0, .enqueue 7, fun _ => 0)] (initial (params 2) 2 1)
      fun _ => .zero).any fun x =>
        (((object (params 2)).code .dequeue (x.2.1 0)).run 80 (fun _ => 1) x.1).any fun y =>
          y.1.2.isNone && !y.2.1.nodes.hist.present.isEmpty) = true := by
    decide +kernel
  obtain ⟨⟨s, ls, tr⟩, he, hc⟩ := (Option.any_eq_true _ _).1 h
  obtain ⟨⟨⟨l, r⟩, s', tr'⟩, hr, hbad⟩ := (Option.any_eq_true _ _).1 hc
  simp only [Bool.and_eq_true, Bool.not_eq_true', List.isEmpty_eq_false_iff] at hbad
  obtain ⟨hnone, hne⟩ := hbad
  obtain rfl : r = none := Option.isNone_iff_eq_none.1 hnone
  refine ⟨s, ls, Object.exec_reach he ?_ (fun _ _ => True.intro) .init, fun htrue => ?_⟩
  · simp [Call.Valid]
  · exact hne (htrue 0 l s' tr' ⟨80, _, hr⟩ fun _ _ => True.intro).1

end ElasticLpw
