import SemanticRelaxation.ElasticLpw.LateralSpecs
import SemanticRelaxation.ElasticLpw.WindowSeq
import SemanticRelaxation.TwoD.Rely

/-!
# The put side of the elastic LpW queue under interference

* `Known`: what a thread knows of its copies of the windows, between two calls as well;
* `tryShiftPut_spec`: the put window moves on after a round over full sub-queues, with its change of
  the width recorded;
* `putWindow_spec`: the window that it returns has been the put window, and the sub-queue was not
  full;
* `enqueue_spec`.
-/

namespace ElasticLpw

namespace Watched

open AtomicProg Linked MichaelScott Windowed TwoD

/-! ### Copies of the windows -/

/-- What a thread knows of its copy of the put window. -/
structure PutCopy (u : PutWindow) (x : (State × Watch) × Ghost) : Prop where
  le : u.max ≤ x.1.1.globalPWindow.max
  same : u.max = x.1.1.globalPWindow.max → u = x.1.1.globalPWindow

/-- What a thread knows of its copy of the get window. -/
structure GetCopy (set : Params) (u : GetWindow) (x : (State × Watch) × Ghost) : Prop where
  le : u.max ≤ x.1.1.globalGWindow.max
  same : x.1.2.Clean → u.max = x.1.1.globalGWindow.max → u = x.1.1.globalGWindow
  width : u.max ≠ 0 → 0 < u.width ∧ u.width ≤ set.maxWidth

/-- What a thread knows of its local variables. -/
structure Known (set : Params) (tl : Local) (x : (State × Watch) × Ghost) : Prop where
  put : PutCopy tl.pWindow x
  get : GetCopy set tl.gWindow x
  index : tl.gWindow.max ≠ 0 → tl.getIndex < tl.gWindow.width

section Copies

variable {set : Params} {x x' : (State × Watch) × Ghost} {u : PutWindow} {w : GetWindow}
  {tl : Local}
  {m : ℕ}

theorem PutCopy.later (h : PutCopy u x) (hl : Later x x') : PutCopy u x' where
  le := h.le.trans hl.put_le
  same he := by
    have hx : u.max = x.1.1.globalPWindow.max := le_antisymm h.le (hl.put_le.trans_eq he.symm)
    exact (h.same hx).trans (hl.put_same (hx.symm.trans he))

/-- The second word is loaded after the first one. -/
theorem PutCopy.of_load (h : m ≤ x.1.1.globalPWindow.max) :
    PutCopy { x.1.1.globalPWindow with max := m } x where
  le := h
  same he := by
    have he : m = x.1.1.globalPWindow.max := he
    rw [he]

theorem GetCopy.later (h : GetCopy set w x) (hl : Later x x') : GetCopy set w x' where
  le := h.le.trans hl.get_le
  same hc he := by
    have hx : w.max = x.1.1.globalGWindow.max := le_antisymm h.le (hl.get_le.trans_eq he.symm)
    exact (h.same (hl.watch.clean hc) hx).trans (hl.get_same hc (hx.symm.trans he))
  width := h.width

theorem GetCopy.now (h : Inv set x.1.1 x.1.2 x.2) : GetCopy set x.1.1.globalGWindow x :=
  ⟨le_rfl, fun _ _ => rfl, fun _ => h.get_width⟩

theorem GetCopy.of_load (h : Inv set x.1.1 x.1.2 x.2) (hm : m ≤ x.1.1.globalGWindow.max) :
    GetCopy set { x.1.1.globalGWindow with max := m } x where
  le := hm
  same _ he := by
    have he : m = x.1.1.globalGWindow.max := he
    rw [he]
  width _ := h.get_width

theorem Known.later (h : Known set tl x) (hl : Later x x') : Known set tl x' :=
  ⟨h.put.later hl, h.get.later hl, h.index⟩

theorem Known.zero (h : Inv set x.1.1 x.1.2 x.2) : Known set .zero x where
  put := ⟨Nat.zero_le _, fun he => absurd he (h.history.max_pos).ne⟩
  get := ⟨Nat.zero_le _, fun _ he => absurd he h.get_pos.ne, fun hne => absurd rfl hne⟩
  index hne := absurd rfl hne

end Copies

/-! ### Hopping -/

variable {L : Type} {S : Service (State × Watch) L} {set : Params}
  {E : Results S (regime S.Call set)} {c : Caller} {v v₁ v₂ : View E.protocol c} {j n p : ℕ}

/-- A hop keeps the scan. -/
theorem hop_spec {width index random hops : ℕ} {A : ℕ → Prop} (hf : Fits types set.randomHops width)
    (hs : Scan set.randomHops width A index random hops) (hp : A index) (hh : hops ≠ width) :
    wp E.protocol c (hop set index random hops width).onFst
      (fun r v' => v ≤ v' ∧ Scan set.randomHops width A r.1 r.2.1 r.2.2) v := by
  unfold ElasticLpw.hop
  rw [hop_onFst]
  exact hop_rely hf hs hp hh

theorem randomIndex_spec {width : ℕ} (hf : Fits types set.randomHops width) :
    wp E.protocol c (randomIndex width).onFst (fun i v' => v ≤ v' ∧ i < width) v :=
  show wp E.protocol c (TwoD.randomIndex types width) _ v from randomIndex_rely hf.modulus

theorem syncIndex_lt {width : ℕ} (hw : 0 < width) (index : ℕ) : syncIndex width index < width := by
  unfold syncIndex
  split
  next => exact hw
  next hlt => exact not_le.1 hlt

/-! ### `put_window` -/

/-- The widths that are allocated. -/
def Allocated (set : Params) (width : ℕ) : Prop := 0 < width ∧ width ≤ set.maxWidth

theorem put_allocated (v : View E.protocol c) : Allocated set v.state.1.globalPWindow.width :=
  (inv_of v).history.ok.width

theorem syncPWindow_spec {u : PutWindow} (hu : PutCopy u v.pair) :
    wp E.protocol c (syncPWindow u).onFst
      (fun r v' => Along v v' ∧ PutCopy r v'.pair ∧ Allocated set r.width) v := by
  refine wp.read_fst fun v₁ h₁ => ?_
  have hu₁ := hu.later (later_of_le h₁)
  split
  next =>
    refine wp.read_fst fun v₂ h₂ => ?_
    refine wp.bind_fst (assert_true (decide_eq_true (inv_of v₂).history.ok.depth.ne'))
      fun _ v₃ hs₃ => ?_
    exact ⟨(Along.of_le (h₁.trans h₂)).trans hs₃,
      (PutCopy.of_load (x := v₂.pair) (later_of_le h₂).put_le).later hs₃.later,
      put_allocated v₂⟩
  next heq =>
    refine ⟨.of_le h₁, hu₁, ?_⟩
    rw [hu₁.same (not_not.1 heq)]
    exact put_allocated v₁

theorem startIndex_spec {contention : Bool} {width index : ℕ}
    (hf : Fits types set.randomHops width) :
    wp E.protocol c (startIndex contention width index).onFst
      (fun i v' => v ≤ v' ∧ i < width) v := by
  unfold startIndex
  split
  next => exact randomIndex_spec hf
  next hnot => exact ⟨le_rfl, not_le.1 fun hle => hnot (.inr hle)⟩

/-- The descriptor of a tail that is loaded word by word. -/
theorem readPut_spec (hj : j < set.maxWidth) :
    wp E.protocol c (readDescriptor State.putArray j).onFst (fun d v' => v ≤ v' ∧
      WasTail j d v'.state.1.queues v'.now.2.places ∧ d.count =
        (v'.state.1.putArray j).count) v := by
  refine wp.read_fst fun v₁ h₁ => wp.read_fst fun v₂ h₂ => ?_
  exact ⟨h₁.trans h₂, .of_read (inv_of v₁).filled (inv_of v₂).filled
    (later_of_le h₂).queues hj, rfl⟩

/-- The attempt to move the put window on after a complete round. -/
theorem tryShiftPut_spec {u : PutWindow} (hu : PutCopy u v.pair) (hw : Allocated set u.width)
    (hall : ∀ j < u.width, u.max ≤ (v.state.1.putArray j).count) :
    wp E.protocol c (tryShiftPut u).onFst
      (fun r v' => Along v v' ∧ PutCopy r v'.pair ∧ Allocated set r.width) v := by
  refine wp.read_fst fun v₁ h₁ => ?_
  have hu₁ := hu.later (later_of_le h₁)
  split
  next heq =>
    have hmem : u ∈ windows v₁.state.1 v₁.now.2 := hu₁.same heq ▸ List.mem_cons_self ..
    refine wp.bind_fst (maybeEnqLateral_spec hmem) ?_
    rintro - v₂ ⟨hs₂, hreach⟩
    refine wp.read_fst fun v₃ h₃ => wp.read_fst fun v₄ h₄ => ?_
    have hs₄ := (Along.of_le h₁).trans (hs₂.trans (.of_le (h₃.trans h₄)))
    refine wp.cae_fst (fun v₅ h₅ he _ => ?_) fun v₅ h₅ he => ?_
    · have hs₅ := hs₄.trans (.of_le h₅)
      have hl₅ := later_of_le ((h₃.trans h₄).trans h₅)
      have he : v₅.state.1.globalPWindow = u := he
      subst he
      have hok : PutWindow.Ok set ⟨v₅.state.1.globalPWindow.max + v₃.state.1.depth,
        v₃.state.1.depth,
          v₅.state.1.globalPWindow.nextWidth, v₄.state.1.width⟩ :=
        ⟨(inv_of v₃).depth, (inv_of v₅).history.ok.next, (inv_of v₄).width⟩
      have hnew : PutWindow.Continues ⟨v₅.state.1.globalPWindow.max + v₃.state.1.depth,
          v₃.state.1.depth, v₅.state.1.globalPWindow.nextWidth, v₄.state.1.width⟩
          v₅.state.1.globalPWindow := ⟨rfl, rfl⟩
      have hi := (inv_of v₅).shiftPut hok hnew
        (fun j hj => (hall j hj).trans (hs₅.later.queues.put j))
        fun hne => (hreach hne).later (inv_of v₅) hl₅
      have hk := fun o => Kept.shiftPut (w := v₅.state.2) (g := v₅.now.2) (n := set.maxWidth)
        (o := o)
        hok hnew
      have hall₅ := allows_step v₅ hi fun o _ => hk o
      refine ⟨_, hall₅, hs₅.trans (.step (hk _)), ?_⟩
      rw [if_pos rfl]
      exact ⟨⟨le_rfl, fun _ => rfl⟩, hok.width⟩
    · refine ⟨hs₄.trans (.of_le h₅), ?_⟩
      rw [if_neg Bool.false_ne_true]
      exact ⟨⟨le_rfl, fun _ => rfl⟩, put_allocated v₅⟩
  next => exact ⟨.of_le h₁, hu₁, hw⟩

/-- What a round of `put_window` starts with. -/
structure PutLoop (v₀ : View E.protocol c) (st : Search) (v : View E.protocol c) : Prop where
  along : Along v₀ v
  known : Known set st.tl v.pair
  width : Allocated set st.tl.pWindow.width
  scan : Scan set.randomHops st.tl.pWindow.width
    (fun j => st.tl.pWindow.max ≤ (v.state.1.putArray j).count) st.tl.putIndex st.random st.hops

/-- What `put_window` returns: a tail in a window that has been the put window. -/
structure PutPost (v₀ : View E.protocol c) (r : Descriptor × Local) (v : View E.protocol c) :
    Prop where
  along : Along v₀ v
  known : Known set r.2 v.pair
  window : r.2.pWindow ∈ windows v.state.1 v.now.2
  get_le : r.2.gWindow.max ≤ r.2.pWindow.max
  index : r.2.putIndex < r.2.pWindow.width
  tail : WasTail r.2.putIndex r.1 v.state.1.queues v.now.2.places
  count : r.1.count < r.2.pWindow.max

theorem putRound_spec (hp : set.WF) {v₀ : View E.protocol c} {st : Search} (h : PutLoop v₀ st v) :
    wp E.protocol c (putRound set st).onFst (fun r v' =>
      Sum.elim (fun st' => PutLoop v₀ st' v') (fun a => PutPost v₀ a v') r) v := by
  obtain ⟨hs, hkn, hw, hscan⟩ := h
  have hidx : st.tl.putIndex < st.tl.pWindow.width := Scan.lt hscan
  refine wp.bind_fst (readPut_spec (hidx.trans_le hw.2)) ?_
  rintro d v₁ ⟨h₁, htail, hcount⟩
  refine wp.read_fst fun v₂ h₂ => ?_
  have hs₂ := hs.trans (.of_le (h₁.trans h₂))
  have hl₂ := later_of_le (h₁.trans h₂)
  have hkn₂ := hkn.later hl₂
  split
  next =>
    refine wp.read_fst fun v₃ h₃ => ?_
    have hw₃ := put_allocated v₃
    exact ⟨hs₂.trans (.of_le h₃), ⟨.of_load (x := v₃.pair) (later_of_le h₃).put_le,
      hkn₂.get.later (later_of_le h₃),
      hkn.index⟩, hw₃, .start (syncIndex_lt hw₃.1 _)⟩
  next heq =>
    have heq : st.tl.pWindow.max = v₂.state.1.globalPWindow.max := not_not.1 heq
    have hnow := hkn₂.put.same heq
    split
    next hlt =>
      refine wp.bind_fst (assert_true (decide_eq_true hidx)) fun _ v₃ hs₃ => ?_
      have hmem : st.tl.pWindow ∈ windows v₂.state.1 v₂.now.2 := hnow ▸ List.mem_cons_self ..
      have hkn₃ := hkn₂.later hs₃.later
      refine ⟨hs₂.trans hs₃, ⟨hkn₃.put, hkn₃.get, fun hne => ?_⟩, hs₃.later.mem_windows hmem,
        ?_, hidx,
        htail.grown ((later_of_le h₂).trans hs₃.later).queues, hlt⟩
      · dsimp only
        split
        next he => exact hidx.trans_eq he.symm
        next => exact hkn.index hne
      · exact hkn₂.get.le.trans ((inv_of v₂).get_le.trans heq.ge)
    next hfull =>
      have hfull₂ : st.tl.pWindow.max ≤ (v₂.state.1.putArray st.tl.putIndex).count :=
        (not_lt.1 hfull).trans (hcount.le.trans ((later_of_le h₂).queues.put _))
      have hscan₂ : Scan set.randomHops st.tl.pWindow.width
          (fun j => st.tl.pWindow.max ≤ (v₂.state.1.putArray j).count) st.tl.putIndex st.random
          st.hops :=
        hscan.mono fun j _ hj => hj.trans (hl₂.queues.put j)
      split
      next hh =>
        refine wp.bind_fst (hop_spec (hp.fits hw) hscan₂ hfull₂ hh.ne) ?_
        rintro ⟨index, random, hops⟩ v₃ ⟨h₃, hscan₃⟩
        have hl₃ := later_of_le h₃
        have hkn₃ := hkn₂.later hl₃
        exact ⟨hs₂.trans (.of_le h₃), ⟨hkn₃.put, hkn₃.get, hkn₃.index⟩, hw,
          Scan.mono hscan₃ fun j _ hj => hj.trans (hl₃.queues.put j)⟩
      next hh =>
        have hall := hscan₂.all (le_antisymm hscan₂.hops_le (not_lt.1 hh))
        refine wp.bind_fst (tryShiftPut_spec hkn₂.put hw hall) ?_
        rintro u v₃ ⟨hs₃, hu, hw₃⟩
        exact ⟨hs₂.trans hs₃, ⟨hu, hkn₂.get.later hs₃.later, hkn.index⟩, hw₃,
          .start (syncIndex_lt hw₃.1 _)⟩

theorem putWindow_spec (hp : set.WF) {contention : Bool} {tl : Local} (hkn : Known set tl v.pair) :
    wp E.protocol c (putWindow set contention tl).onFst (fun a v' => PutPost v a v') v := by
  refine wp.bind_fst (syncPWindow_spec hkn.put) ?_
  rintro u v₁ ⟨hs₁, hu, hw⟩
  refine wp.bind_fst (startIndex_spec (hp.fits hw)) ?_
  rintro index v₂ ⟨h₂, hidx⟩
  have hl₂ := later_of_le h₂
  refine wp.forever_fst (fun st v' => PutLoop v st v') ⟨hs₁.trans (.of_le h₂),
    ⟨hu.later hl₂, hkn.get.later (hs₁.later.trans hl₂), hkn.index⟩, hw, .start hidx⟩ ?_
  exact fun st v' h => putRound_spec hp h

/-! ### `enqueue` -/

/-- The node `n` of the running call is not linked yet. -/
structure Mine (w op n : ℕ) (x : (State × Watch) × Ghost) : Prop where
  owner : x.2.places.owner n = op
  unlinked : Unlinked w x.1.1.nodes.toCells n

theorem Mine.along (hn : Mine set.maxWidth c.op n v.pair) (h : Along v v₁) :
    Mine set.maxWidth c.op n v₁.pair where
  owner := (h.owned.owner n hn.unlinked.lt_fresh).trans hn.owner
  unlinked := h.owned.unlinked n (congrArg Owner.op hn.owner.symm) hn.unlinked

theorem createNode_spec (val : ℤ) : wp E.protocol c (createNode val).onFst
    (fun n v' => Along v v' ∧ Mine set.maxWidth c.op n v'.pair) v := by
  intro v₁ h₁ _ _
  have hi := inv_of v₁
  have hk := fun o => Kept.createNode (s := v₁.state.1) (w := v₁.state.2) (g := v₁.now.2)
    (n := set.maxWidth) (o := o) val c.op
  refine ⟨_, allows_step v₁ (hi.createNode val c.op) fun o _ => hk o,
    (Along.of_le h₁).trans (.step (hk _)), Function.update_self ..,
    .create hi.filled.valid.lines val⟩

/-- The node `n` of row `r` stands behind the tail `d` of sub-queue `j`. -/
def Behind (j : ℕ) (d : Descriptor) (n r : ℕ) (x : (State × Watch) × Ghost) : Prop :=
  ∃ p t, d.node = some t ∧ (x.1.1.nodes.line j)[p]? = some t ∧
    (x.1.1.nodes.line j)[p + 1]? = some n ∧ (x.2.places.rows j)[p + 1]? = some r

theorem Behind.later {x x' : (State × Watch) × Ghost} {d : Descriptor} {r : ℕ}
    (h : Behind j d n r x) (hl : Later x x') : Behind j d n r x' := by
  obtain ⟨p, t, hd, ht, hn, hr⟩ := h
  exact ⟨p, t, hd, hl.queues.line ht, hl.queues.line hn, hl.queues.row hr⟩

/-- A tail is swung, in a state where the new descriptor is the one for the node behind it. -/
theorem putCae_spec (hj : j < set.maxWidth) {d d' : Descriptor}
    (hd : ∀ v', v ≤ v' → v'.state.1.putArray j = d → ∃ k,
      d' = ⟨some k, Windowed.nextRow v'.state.1.globalPWindow.bottom d.count⟩ ∧
        (v'.state.1.nodes.line j)[v'.now.2.places.putPos j + 1]? = some k) :
    wp E.protocol c (putCae j d d').onFst (fun _ v' => Along v v') v := by
  refine wp.cae_fst (fun v₁ h₁ he _ => ?_) fun v₁ h₁ _ => .of_le h₁
  have he : v₁.state.1.putArray j = d := he
  obtain ⟨k, rfl, hk⟩ := hd v₁ h₁ he
  rw [← he]
  have hgt := (nextRow_gt v₁.state.1.globalPWindow.bottom (v₁.state.1.putArray j).count).1.le
  have hkept := fun o => Kept.swingNode (w := v₁.state.2) (g := v₁.now.2) (n := set.maxWidth)
    (o := o)
    (d := ⟨some k, Windowed.nextRow v₁.state.1.globalPWindow.bottom
      (v₁.state.1.putArray j).count⟩) hgt
  exact ⟨_, allows_step v₁ ((inv_of v₁).swingNode hj hk) fun o _ => hkept o,
    (Along.of_le h₁).trans (.step (hkept _))⟩

/-- A node that has just been linked. -/
theorem Behind.of_link {s : State} {w : Watch} {g : Ghost} {d : Descriptor} {t : ℕ}
    (hi : Inv set s w g) (hj : j < set.maxWidth) (hd : d.node = some t)
    (hline : (s.nodes.line j)[g.places.putPos j]? = some t) (hnone : (s.nodes.heap t).next = none)
    (r : ℕ) (row : ℕ) :
    Behind j d n r (({ s with nodes := s.nodes.link j (some t) n row }, w),
      { g with places := g.places.link j r }) := by
  have hlast := (hi.filled.tail_of_last hj hline le_rfl hnone).2
  have hlen := hi.filled.length j hj
  refine ⟨g.places.putPos j, t, hd, ?_, ?_, ?_⟩
  · exact (Grown.link s.queues g.places j t n 0).line hline
  · show ((s.nodes.append j (some t) n).line j)[g.places.putPos j + 1]? = _
    rw [hlast, Cells.append_line_self]
    exact List.getElem?_concat_length
  · show (Function.update g.places.rows j (g.places.rows j ++ [_]) j)[_]? = _
    rw [Function.update_self, hlast, ← hlen]
    exact List.getElem?_concat_length

/-- The tail is swung to the node that has been linked. -/
theorem putCae_linked (hj : j < set.maxWidth) {d : Descriptor} {r : ℕ}
    (hb : Behind j d n r v.pair) :
    wp E.protocol c (putCae j d ⟨some n, r⟩).onFst (fun _ v' => Along v v') v := by
  refine putCae_spec hj fun v₁ h₁ he => ?_
  -- the row of the linked node is the pending one
  obtain ⟨p, t, hd, hline, hm, hr⟩ := hb.later (later_of_le h₁)
  have hpos := (inv_of v₁).filled.tail_pos hj hline ((congrArg Descriptor.node he).trans hd)
  obtain ⟨hrow, -, -⟩ := (inv_of v₁).filled.pending _ hj r (hpos ▸ hr)
  have hcount : (v₁.state.1.putArray j).count = d.count := congrArg Descriptor.count he
  refine ⟨n, ?_, hpos ▸ hm⟩
  rw [hrow]
  congr 2

/-- The link behind a tail whose count was in the put window. -/
theorem enqCae_spec {u : PutWindow} {d : Descriptor} (hu : u ∈ windows v.state.1 v.now.2)
    (hj : j < u.width) (ht : WasTail j d v.state.1.queues v.now.2.places) (hc : d.count < u.max)
    (hn : Mine set.maxWidth c.op n v.pair) :
    wp E.protocol c (enqCae j d.node n (ElasticLpw.nextRow u.bottom d.count)).onFst (fun r v' =>
      Later v.pair v'.pair ∧ if r then Behind j d n (ElasticLpw.nextRow u.bottom d.count) v'.pair
        else Mine set.maxWidth c.op n v'.pair) v := by
  have hjn : j < set.maxWidth := hj.trans_le ((inv_of v).history.ok_of_mem hu).width.2
  refine wp.cae_fst (fun v₁ h₁ he _ => ?_) fun v₁ h₁ _ => ?_
  · have hl := later_of_le h₁
    have hn₁ := hn.along (.of_le h₁)
    obtain ⟨t, hd, hline, hcount⟩ := (ht.grown hl.queues).of_last (inv_of v₁).filled hjn he
    have hcount : (v₁.state.1.putArray j).count = d.count := hcount
    have hnow := (inv_of v₁).present (hl.mem_windows hu) hj (hcount.trans_lt hc)
    subst hnow
    have he : (v₁.state.1.nodes.deref d.node).next = none := he
    rw [hd] at he ⊢
    have hi := (inv_of v₁).linkNode hjn hj hline le_rfl he hn₁.unlinked (hcount.trans_lt hc)
      (ElasticLpw.nextRow v₁.state.1.globalPWindow.bottom d.count)
    rw [hcount] at hi
    exact ⟨_, allows_step v₁ hi fun o ho => .linkNode ho hn₁.owner hjn hline _ _,
      hl.trans (.linkNode j t n _ _),
      .of_link (inv_of v₁) hjn hd hline he _ _⟩
  · exact ⟨later_of_le h₁, hn.along (.of_le h₁)⟩

/-- What a round of `enqueue` ends with. -/
def Enqueued (set : Params) (n : ℕ) (r : (Bool × Local) ⊕ (Local × Descriptor × Descriptor))
    (v : View E.protocol c) : Prop :=
  Sum.elim (fun a => Known set a.2 v.pair ∧ Mine set.maxWidth c.op n v.pair)
    (fun a => Known set a.1 v.pair ∧ a.1.putIndex < set.maxWidth ∧
      ∃ r, a.2.2 = ⟨some n, r⟩ ∧ Behind a.1.putIndex a.2.1 n r v.pair) r

/-- A pending enqueue is helped: the next row of the window is that of the pending node. -/
theorem putCae_help {u : PutWindow} {d : Descriptor} {next : Option ℕ}
    (hu : u ∈ windows v.state.1 v.now.2) (hj : j < u.width)
    (ht : WasTail j d v.state.1.queues v.now.2.places) (hc : d.count < u.max)
    (hnext : (v.state.1.nodes.deref d.node).next = next) (hne : next ≠ none) :
    wp E.protocol c (putCae j d ⟨next, ElasticLpw.nextRow u.bottom d.count⟩).onFst
      (fun _ v' => Along v v') v := by
  have hjn : j < set.maxWidth := hj.trans_le ((inv_of v).history.ok_of_mem hu).width.2
  refine putCae_spec hjn fun v₁ h₁ he => ?_
  have hl := later_of_le h₁
  have hcount : (v₁.state.1.putArray j).count = d.count := congrArg Descriptor.count he
  have hnow := (inv_of v₁).present (hl.mem_windows hu) hj (hcount.trans_lt hc)
  obtain ⟨k, rfl⟩ := Option.ne_none_iff_exists'.1 hne
  have hk := ht.behind (inv_of v).filled (inv_of v₁).filled hl.queues hjn
    (congrArg Descriptor.node he) hnext
  exact ⟨k, by rw [hnow]; rfl, hk⟩

theorem tryLink_spec {contention : Bool} {tl : Local} {d : Descriptor} (hkn : Known set tl v.pair)
    (hu : tl.pWindow ∈ windows v.state.1 v.now.2) (hj : tl.putIndex < tl.pWindow.width)
    (ht : WasTail tl.putIndex d v.state.1.queues v.now.2.places) (hc : d.count < tl.pWindow.max)
    (hn : Mine set.maxWidth c.op n v.pair) :
    wp E.protocol c (tryLink n contention tl d).onFst (Enqueued set n) v := by
  have hok := (inv_of v).history.ok_of_mem hu
  refine wp.read_fst fun v₁ h₁ => ?_
  have hl₁ := later_of_le h₁
  have hn₁ := hn.along (.of_le h₁)
  split
  next =>
    refine wp.bind_fst (enqCae_spec (hl₁.mem_windows hu) hj (ht.grown hl₁.queues) hc hn₁) ?_
    rintro (_ | _) v₂ ⟨hl₂, h₂⟩
    · exact ⟨hkn.later (hl₁.trans hl₂), h₂⟩
    · refine wp.bind_fst (assert_true (decide_eq_true hj.le)) fun _ v₃ hs₃ => ?_
      exact ⟨hkn.later (hl₁.trans (hl₂.trans hs₃.later)), hj.trans_le hok.width.2, _, rfl,
        Behind.later h₂ hs₃.later⟩
  next hne =>
    refine wp.read_fst fun v₂ h₂ => ?_
    have hl₂ := hl₁.trans (later_of_le h₂)
    have ht₂ := ht.grown hl₂.queues
    have hjn : tl.putIndex < set.maxWidth := hj.trans_le hok.width.2
    have hstays := (ht.grown hl₁.queues).next_grown (inv_of v₁).filled (inv_of v₂).filled
      (later_of_le h₂).queues hjn hne
    have hne₂ : (v₂.state.1.nodes.deref d.node).next ≠ none := fun h₀ => hne (hstays.symm.trans h₀)
    refine wp.bind_fst (putCae_help (hl₂.mem_windows hu) hj ht₂ hc rfl hne₂) ?_
    rintro (_ | _) v₃ hs₃
    · exact ⟨hkn.later (hl₂.trans hs₃.later), hn₁.along ((Along.of_le h₂).trans hs₃)⟩
    · have hle : ElasticLpw.nextRow tl.pWindow.bottom d.count ≤ tl.pWindow.max := by
        exact Windowed.nextRow_le hc ((inv_of v).spans.lt_of_mem (List.mem_map_of_mem hu))
      refine wp.bind_fst (assert_true (decide_eq_true hle)) fun _ v₄ hs₄ => ?_
      exact ⟨hkn.later (hl₂.trans (hs₃.trans hs₄).later),
        hn₁.along ((Along.of_le h₂).trans (hs₃.trans hs₄))⟩

theorem enqueueRound_spec (hp : set.WF) {contention : Bool} {tl : Local} (hkn : Known set tl v.pair)
    (hn : Mine set.maxWidth c.op n v.pair) :
    wp E.protocol c (enqueueRound set n contention tl).onFst (Enqueued set n) v := by
  refine wp.bind_fst (putWindow_spec hp hkn) ?_
  rintro ⟨d, tl'⟩ v₁ ⟨hs₁, hkn₁, hu, hget, hj, ht, hc⟩
  refine wp.bind_fst (assert_true (decide_eq_true hget)) fun _ v₂ hs₂ => ?_
  refine wp.bind_fst (assert_true (decide_eq_true hc)) fun _ v₃ hs₃ => ?_
  refine wp.read_fst fun v₄ h₄ => ?_
  have hs₄ : Along v₁ v₄ := hs₂.trans (hs₃.trans (.of_le h₄))
  have hkn₄ := hkn₁.later hs₄.later
  have hn₄ := hn.along (hs₁.trans hs₄)
  split
  next => exact ⟨hkn₄, hn₄⟩
  next => exact tryLink_spec hkn₄ (hs₄.later.mem_windows hu) hj (ht.grown hs₄.later.queues) hc hn₄

theorem enqueue_spec (hp : set.WF) {tl : Local} (hkn : Known set tl v.pair) (val : ℤ) :
    wp E.protocol c (enqueue set val tl).onFst (fun r v' => Known set r.1 v'.pair) v := by
  refine wp.bind_fst (createNode_spec val) ?_
  rintro n v₁ ⟨hs₁, hn⟩
  refine wp.bind_fst (wp.forever_fst (Q := fun a v' => Enqueued set n (.inr a) v')
    (fun b v' => Enqueued set n (.inl b) v') ⟨hkn.later hs₁.later, hn⟩ ?_) ?_
  · rintro ⟨contention, tl'⟩ v₂ h₂
    refine (enqueueRound_spec hp h₂.1 h₂.2).mono ?_
    rintro (a | a) v₃ h₃
    · exact h₃
    · exact h₃
  · rintro ⟨tl', d, d'⟩ v₂ ⟨hkn₂, hj, r, hd, hb⟩
    obtain rfl : d' = ⟨some n, r⟩ := hd
    exact wp.bind_fst (putCae_linked hj hb) fun _ v₃ hs₃ => hkn₂.later hs₃.later

end Watched

end ElasticLpw
