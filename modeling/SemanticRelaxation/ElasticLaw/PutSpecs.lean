import SemanticRelaxation.ElasticLaw.Steps
import SemanticRelaxation.ElasticLaw.WindowSeq
import SemanticRelaxation.TwoD.Rely

/-!
# The put side of the elastic LaW queue under interference

* `Stands`: what a thread knows of a lateral node that has been the put window, and `Known`: what it
  knows of its copy of the get window, between two calls as well;
* `linkLateral_spec`, `tryShiftPut_spec`: a window is appended after a round over full sub-queues;
* `putWindow_spec`: the window that it returns has been the put window, and the sub-queue was not
  full;
* `enqueue_spec`.
-/

namespace ElasticLaw

namespace Watched

open AtomicProg Linked MichaelScott Windowed TwoD

/-! ### Copies of the windows -/

/-- The lateral node at position `k + 1` has the address `a` and the window `u`, and it has been the
put window. -/
structure Stands (k : ℕ) (a : Option ℕ) (u : Window) (x : (State × Watch) × Ghost) : Prop where
  le : k ≤ x.2.tail
  node : a = x.1.1.line[k + 1]?
  win : x.1.1.win (k + 1) = u

/-- The thread last saw the lateral head at position `k`. -/
structure GotAt (k : ℕ) (u : Window) (tl : Local) (x : (State × Watch) × Ghost) : Prop where
  le : k ≤ x.2.head
  head : tl.lheadPointer = x.1.1.line[k]?
  window : Stands k tl.getWindow u x
  index : tl.getIndex < u.width

/-- What a thread knows of its local variables: it has no get window yet, or one that has been the
get window. -/
def Known (tl : Local) (x : (State × Watch) × Ghost) : Prop :=
  (tl.lheadPointer = none ∧ tl.getWindow = none) ∨ ∃ k u, GotAt k u tl x

section Copies

variable {set : Params} {x x' : (State × Watch) × Ghost} {s : State} {w : Watch} {g : Ghost}
  {u : Window}
  {tl : Local} {a : Option ℕ} {k : ℕ}

theorem Later.line (hl : Later x x') (hk : k < x.1.1.line.length) :
    x'.1.1.line[k]? = x.1.1.line[k]? := by
  obtain ⟨n, hn⟩ := line_some hk
  rw [hn]
  exact (hl.lateral.line 0).getElem?_of_some hn

theorem Later.length_le (hl : Later x x') : x.1.1.line.length ≤ x'.1.1.line.length :=
  (hl.lateral.line 0).length_le

theorem Later.win (hl : Later x x') (hi : Inv set x.1.1 x.1.2 x.2) (hk : k < x.1.1.line.length) :
    x'.1.1.win k = x.1.1.win k := valAt_of_prefix hi.lines (hl.lateral.line 0) hl.lateral.val hk

namespace Stands

variable (h : Stands k a u x) (hi : Inv set x.1.1 x.1.2 x.2)
include h hi

theorem lt : k + 1 < x.1.1.line.length := by
  have hlt := hi.tail_lt
  have hle := h.le
  omega

theorem later (hl : Later x x') : Stands k a u x' where
  le := h.le.trans hl.tail_le
  node := h.node.trans (hl.line (h.lt hi)).symm
  win := (hl.win hi (h.lt hi)).trans h.win

omit hi in
theorem val : (x.1.1.lateral.deref a).val = u := by
  rw [← h.win, h.node]
  rfl

theorem allocated : Allocated set u.width := by
  rw [← h.win]
  exact hi.tiled.width _ (h.lt hi)

theorem bottom_lt : u.bottom < u.max := by
  rw [← h.win]
  exact hi.tiled.bottom_lt (h.lt hi)

theorem next : (x.1.1.lateral.deref a).next = x.1.1.line[k + 2]? := by
  rw [h.node]
  exact hi.line_next (h.lt hi)

end Stands

/-- The put window. -/
theorem Inv.tail_stands (h : Inv set s w g) :
    Stands g.tail s.lateralTail (s.win (g.tail + 1)) ((s, w), g) :=
  ⟨le_rfl, h.tail_node, rfl⟩

/-- The get window. -/
theorem Inv.head_stands (h : Inv set s w g) :
    Stands g.head (s.lateral.deref s.lateralHead).next (s.win (g.head + 1)) ((s, w), g) := by
  have hlt := h.tail_lt
  have hle := h.order
  refine ⟨hle, ?_, rfl⟩
  rw [h.head_node]
  exact h.line_next (by omega)

theorem GotAt.later (h : GotAt k u tl x) (hi : Inv set x.1.1 x.1.2 x.2) (hl : Later x x') :
    GotAt k u tl x' where
  le := h.le.trans hl.head_le
  head := h.head.trans (hl.line (Nat.lt_of_succ_lt (h.window.lt hi))).symm
  window := h.window.later hi hl
  index := h.index

theorem Known.later (h : Known tl x) (hi : Inv set x.1.1 x.1.2 x.2) (hl : Later x x') :
    Known tl x' :=
  h.imp id fun ⟨k, u, hg⟩ => ⟨k, u, hg.later hi hl⟩

/-- The put side of the local variables does not matter. -/
theorem Known.congr {tl' : Local} (h : Known tl x) (hh : tl'.lheadPointer = tl.lheadPointer)
    (hw : tl'.getWindow = tl.getWindow) (hidx : tl'.getIndex = tl.getIndex) : Known tl' x := by
  rcases h with ⟨hnone, hnone'⟩ | ⟨k, u, hg⟩
  · exact .inl ⟨hh.trans hnone, hw.trans hnone'⟩
  · exact .inr ⟨k, u, hg.le, hh.trans hg.head, hw ▸ hg.window, hidx ▸ hg.index⟩

theorem Known.zero : Known .zero x := .inl ⟨rfl, rfl⟩

end Copies

theorem Allocated.fits {set : Params} (hp : set.WF) {width : ℕ} (hw : Allocated set width) :
    Fits types set.randomHops width := .of_lt hw.1 (hw.2.trans_lt hp.width_lt) hp.hops_lt rfl rfl

/-! ### What a call keeps -/

variable {L : Type} {S : Service (State × Watch) L} {set : Params} {assume : State → State → Prop}
  {E : Results S (regime S.Call set assume)} {c : Caller} {v v₁ v₂ : View E.protocol c}
  {j k n p : ℕ}

theorem inv_of (v : View E.protocol c) : Inv set v.state.1 v.state.2 v.now.2 := v.inv_pair.1

theorem emptied_of (v : View E.protocol c) (h : ∀ s s', assume s s' → Orderly set s s') :
    Emptied set v.state.1 v.now.2 := v.inv_pair.2 h

/-- A step that keeps the invariant and what belongs to the others. -/
theorem allows_step (v : View E.protocol c) {s : State} {w : Watch} {g : Ghost} (hi : Inv set s w g)
    (he : (∀ s s', assume s s' → Orderly set s s') → Emptied set s g)
    (hf : ∀ o, ¬ c.Is o → Kept set.maxWidth o v.pair ((s, w), g)) :
    E.protocol.Allows c v.now (v.after (s, w) g) := Regime.allows v ⟨hi, he⟩ hf

/-- What a call keeps for itself until it links its item. -/
structure Along (v v' : View E.protocol c) : Prop where
  later : Later v.pair v'.pair
  owned : Frame set.maxWidth (.op c.op) (placed v.state.1.queues v.now.2.places)
    v.now.2.places.owner (placed v'.state.1.queues v'.now.2.places) v'.now.2.places.owner

theorem later_of_le (h : v ≤ v₁) : Later v.pair v₁.pair := (View.frame_op h).toLater

namespace Along

theorem of_le (h : v ≤ v₁) : Along v v₁ := ⟨later_of_le h, (View.frame_op h).owned⟩

theorem refl (v : View E.protocol c) : Along v v := .of_le le_rfl

theorem trans (h : Along v v₁) (h' : Along v₁ v₂) : Along v v₂ :=
  ⟨h.later.trans h'.later, h.owned.trans h'.owned⟩

theorem step {x : State × Watch} {g : Ghost} {h : E.protocol.inv (v.after x g)}
    (hk : Kept set.maxWidth (.op c.op) v.pair (x, g)) : Along v (v.step x g h) :=
  ⟨hk.toLater, hk.owned⟩

end Along

/-- An assertion that holds. -/
theorem assert_true {b : Bool} (hb : b = true) :
    wp E.protocol c (assert b).onFst (fun _ v' => v = v') v := by
  subst hb
  exact (rfl : v = v)

/-! ### The lateral queue -/

/-- A window is appended after a window whose sub-queues are full. -/
theorem linkLateral_spec {a : Option ℕ} {u : Window} {depth width : ℕ} (ha : Stands k a u v.pair)
    (hd : 0 < depth) (hw : Allocated set width)
    (hall : ∀ j < u.width, u.max ≤ (v.state.1.putArray j).count) :
    wp E.protocol c (linkLateral a (u.max + depth) depth width).onFst
      (fun _ v' => Along v v' ∧ k + 2 < v'.state.1.line.length) v := by
  have hsome : ∀ {v' : View E.protocol c}, Later v.pair v'.pair →
    (v'.state.1.lateral.deref a).next ≠ none →
      k + 2 < v'.state.1.line.length := by
    intro v' hl hne
    rw [(ha.later (inv_of v) hl).next (inv_of v')] at hne
    by_contra hlt
    exact hne (List.getElem?_eq_none (not_lt.1 hlt))
  refine wp.read_fst fun v₁ h₁ => ?_
  split
  next =>
    refine wp.update_fst fun v₂ h₂ _ => ?_
    have hi₂ := inv_of v₂
    have hk₂ := fun o => Kept.createLateral (s := v₂.state.1) (w := v₂.state.2) (g := v₂.now.2)
      (n := set.maxWidth)
      (o := o) ⟨u.max + depth, width, depth⟩ c.op
    have hall₂ := allows_step v₂ (hi₂.createLateral ⟨u.max + depth, width, depth⟩ c.op)
      (fun h => (emptied_of v₂ h).onLateral hi₂ (hi₂.win_create _)) fun o _ => hk₂ o
    refine ⟨_, hall₂, ?_⟩
    have hs₂ := (Along.of_le (h₁.trans h₂)).trans (.step (h := hall₂.inv) (hk₂ _))
    -- the call's node stays its own until it is linked
    have hmine : Unlinked 1 (v₂.state.1.lateral.create ⟨u.max + depth, width,
      depth⟩) v₂.state.1.lateral.fresh :=
      .create hi₂.lines _
    have hown₂ : Function.update v₂.now.2.lateralOwner v₂.state.1.lateral.fresh c.op
        v₂.state.1.lateral.fresh = c.op := Function.update_self ..
    have hnew : Function.update v₂.state.1.lateral.heap v₂.state.1.lateral.fresh
        ⟨⟨u.max + depth, width, depth⟩, none⟩ v₂.state.1.lateral.fresh =
        ⟨⟨u.max + depth, width, depth⟩, none⟩ :=
      Function.update_self ..
    refine wp.cae_fst (fun v₃ h₃ he _ => ?_) fun v₃ h₃ he => ?_
    · have hf := (View.frame_op h₃).ownedLateral
      have hs₃ := hs₂.trans (.of_le h₃)
      have hi₃ := inv_of v₃
      have ha₃ := ha.later (inv_of v) hs₃.later
      have hown : v₃.now.2.lateralOwner v₂.state.1.lateral.fresh = c.op :=
        (hf.owner _ hmine.lt_fresh).trans hown₂
      have hk : Unlinked 1 v₃.state.1.lateral v₂.state.1.lateral.fresh :=
        hf.unlinked _ (congrArg Owner.op hown₂.symm) hmine
      have hkval : (v₃.state.1.lateral.heap v₂.state.1.lateral.fresh).val = ⟨u.max + depth, width,
        depth⟩ :=
        (hf.grows.val _ hmine.lt_fresh).trans (congrArg Node.val hnew)
      obtain ⟨t, ht⟩ := line_some (ha₃.lt hi₃)
      obtain rfl : a = some t := ha₃.node.trans ht
      have hle : k + 1 ≤ v₃.now.2.tail + 1 := Nat.succ_le_succ ha₃.le
      have hlast := hi₃.lateral.put_of_last one_pos ht hle he
      have hput : v₃.now.2.tail + 1 = k + 1 := hlast.1
      obtain rfl : v₃.now.2.tail = k := Nat.succ_injective hput
      have hlen : v₃.now.2.tail + 1 + 1 = v₃.state.1.line.length := hlast.2
      have hwin := ha₃.win
      have hi := hi₃.appendLateral ht le_rfl he hk (by rw [hkval, hwin]) (by rw [hkval]; exact hd)
        (by rw [hkval]; exact hw) fun j hj => by
          rw [hwin] at hj ⊢
          exact (hall j hj).trans (hs₃.later.queues.put j)
      have hall₃ := allows_step v₃ hi (fun h => (emptied_of v₃ h).onLateral hi₃
        (hi₃.win_append t _))
        fun o ho => Kept.appendLateral ho hown ht
      refine ⟨_, hall₃, hs₃.trans ⟨.appendLateral t _, .refl _ _ _⟩, ?_⟩
      show v₃.now.2.tail + 2 <
        ((v₃.state.1.lateral.append 0 (some t) v₂.state.1.lateral.fresh).line 0).length
      rw [Cells.append_line_self, List.length_append, List.length_singleton]
      exact Nat.lt_succ_of_le (Nat.le_of_eq hlen)
    · have hs₃ := hs₂.trans (.of_le h₃)
      exact ⟨hs₃, hsome hs₃.later he⟩
  next hne => exact ⟨.of_le h₁, hsome (later_of_le h₁) hne⟩

/-- The lateral tail is swung. -/
theorem shiftPut_spec {a : Option ℕ} {u : Window} {depth width : ℕ} (ha : Stands k a u v.pair)
    (hd : 0 < depth) (hw : Allocated set width)
    (hall : ∀ j < u.width, u.max ≤ (v.state.1.putArray j).count) :
    wp E.protocol c (shiftPut a (u.max + depth) depth width).onFst (fun _ v' => Along v v') v := by
  refine wp.read_fst fun v₁ h₁ => ?_
  have hl₁ := later_of_le h₁
  split
  next =>
    refine wp.bind_fst (linkLateral_spec (ha.later (inv_of v) hl₁) hd hw fun j hj =>
      (hall j hj).trans (hl₁.queues.put j)) ?_
    rintro - v₂ ⟨hs₂, hlt⟩
    refine wp.read_fst fun v₃ h₃ => ?_
    have hs₃ := (Along.of_le h₁).trans (hs₂.trans (.of_le h₃))
    have hlt₃ := hlt.trans_le (later_of_le h₃).length_le
    have hnext := (ha.later (inv_of v) hs₃.later).next (inv_of v₃)
    obtain ⟨m, hm⟩ := line_some hlt₃
    rw [hnext, hm]
    refine wp.cae_fst (fun v₄ h₄ he _ => ?_) fun v₄ h₄ _ => hs₃.trans (.of_le h₄)
    have hs₄ := hs₃.trans (.of_le h₄)
    have hi₄ := inv_of v₄
    have ha₄ := ha.later (inv_of v) hs₄.later
    have hpos := hi₄.line_inj hi₄.tail_lt (hi₄.tail_node.symm.trans (he.trans ha₄.node))
    have hm₄ : v₄.state.1.line[v₄.now.2.tail + 2]? = some m := by
      obtain rfl : v₄.now.2.tail = k := Nat.succ_injective hpos
      exact ((later_of_le h₄).line hlt₃).trans hm
    have hk := fun o => Kept.swingLateral (s := v₄.state.1) (w := v₄.state.2) (g := v₄.now.2)
      (n := set.maxWidth)
      (k := m) (o := o)
    exact ⟨_, allows_step v₄ (hi₄.swingLateral hm₄)
      (fun h => (emptied_of v₄ h).onLateral hi₄ fun _ _ => rfl) fun o _ =>
      hk o, hs₄.trans (.step (hk _))⟩
  next => exact .of_le h₁

/-! ### Hopping -/

/-- A hop keeps the scan. -/
theorem hop_spec {width index random hops : ℕ} {A : ℕ → Prop} (hf : Fits types set.randomHops width)
    (hs : Scan set.randomHops width A index random hops) (hp : A index) (hh : hops ≠ width) :
    wp E.protocol c (hop set index random hops width).onFst
      (fun r v' => v ≤ v' ∧ Scan set.randomHops width A r.1 r.2.1 r.2.2) v := by
  unfold ElasticLaw.hop
  rw [hop_onFst]
  exact hop_rely hf hs hp hh

theorem randomIndex_spec {width : ℕ} (hf : Fits types set.randomHops width) :
    wp E.protocol c (randomIndex width).onFst (fun i v' => v ≤ v' ∧ i < width) v :=
  show wp E.protocol c (TwoD.randomIndex types width) _ v from randomIndex_rely hf.modulus

/-! ### `put_window` -/

theorem startIndex_spec {contention : Bool} {width index : ℕ}
    (hf : Fits types set.randomHops width) :
    wp E.protocol c (startIndex contention width index).onFst
      (fun i v' => v ≤ v' ∧ i < width) v := by
  unfold startIndex
  split
  next => exact randomIndex_spec hf
  next hnot => exact ⟨le_rfl, not_le.1 fun hle => hnot (.inr hle)⟩

/-- The descriptor of a tail that is loaded word by word. -/
theorem readPut_spec (hj : j < set.maxWidth) :
    wp E.protocol c (readDescriptor State.putArray j).onFst (fun d v' => v ≤ v' ∧
      WasTail j d v'.state.1.queues v'.now.2.places ∧ d.count =
        (v'.state.1.putArray j).count) v := by
  refine wp.read_fst fun v₁ h₁ => wp.read_fst fun v₂ h₂ => ?_
  exact ⟨h₁.trans h₂, .of_read (inv_of v₁).filled (inv_of v₂).filled
    (later_of_le h₂).queues hj, rfl⟩

/-- The attempt to append a window after a complete round. -/
theorem tryShiftPut_spec {tl : Local} {u : Window} (ha : Stands k tl.ltailPointer u v.pair)
    (hall : ∀ j < u.width, u.max ≤ (v.state.1.putArray j).count) :
    wp E.protocol c (tryShiftPut tl u.max).onFst (fun _ v' => Along v v') v := by
  refine wp.read_fst fun v₁ h₁ => ?_
  split
  next =>
    refine wp.read_fst fun v₂ h₂ => wp.read_fst fun v₃ h₃ => ?_
    have h := (h₁.trans h₂).trans h₃
    have hl := later_of_le h
    refine (shiftPut_spec (ha.later (inv_of v) hl) (inv_of v₂).depth (inv_of v₃).width fun j hj =>
      (hall j hj).trans (hl.queues.put j)).mono ?_
    exact fun _ _ hs => (Along.of_le h).trans hs
  next => exact .of_le h₁

theorem loadPutWindow_spec {tl : Local} {a : Option ℕ} {u : Window} (ha : Stands k a u v.pair) :
    wp E.protocol c (loadPutWindow tl a).onFst (fun tl' v' => v ≤ v' ∧ tl' = { tl with
      putWindow := a, ltailPointer := a, putIndex := syncIndex u.width tl.putIndex }) v := by
  refine wp.read_fst fun v₁ h₁ => ?_
  rw [(ha.later (inv_of v) (later_of_le h₁)).val]
  exact ⟨h₁, rfl⟩

/-- What a round of `put_window` starts with. -/
structure PutLoop (v₀ : View E.protocol c) (st : Search) (v : View E.protocol c) : Prop where
  along : Along v₀ v
  known : Known st.tl v.pair
  same : st.tl.putWindow = st.tl.ltailPointer
  scan : ∃ k u, Stands k st.tl.putWindow u v.pair ∧ Scan set.randomHops u.width
    (fun j => u.max ≤ (v.state.1.putArray j).count) st.tl.putIndex st.random st.hops

/-- What `put_window` returns: a tail in a window that has been the put window. -/
structure PutPost (v₀ : View E.protocol c) (r : Descriptor × Local) (v : View E.protocol c) :
    Prop where
  along : Along v₀ v
  known : Known r.2 v.pair
  tail : WasTail r.2.putIndex r.1 v.state.1.queues v.now.2.places
  window : ∃ k u, Stands k r.2.putWindow u v.pair ∧ r.2.putIndex < u.width ∧ r.1.count < u.max

/-- A new scan, in the put window that has just been loaded. -/
theorem loadPutWindow_loop {v₀ : View E.protocol c} (st : Search) {a : Option ℕ} {u : Window}
    (hs : Along v₀ v) (hkn : Known st.tl v.pair) (ha : Stands k a u v.pair) :
    wp E.protocol c (loadPutWindow st.tl a).onFst
      (fun tl' v' => PutLoop v₀ { st with hops := 0, tl := tl' } v') v := by
  refine (loadPutWindow_spec ha).mono ?_
  rintro _ v₁ ⟨h₁, rfl⟩
  have hl₁ := later_of_le h₁
  have ha₁ := ha.later (inv_of v) hl₁
  exact ⟨hs.trans (.of_le h₁), (hkn.later (inv_of v) hl₁).congr rfl rfl rfl, rfl, k, u, ha₁,
    .start (syncIndex_lt (ha₁.allocated (inv_of v₁)).1 _)⟩

/-- The index of the get side stays below the width of the get window. -/
theorem followIndex_spec {tl : Local} {u : Window} (hkn : Known tl v.pair)
    (ha : Stands k tl.putWindow u v.pair) (hidx : tl.putIndex < u.width) :
    wp E.protocol c (followIndex tl.putWindow tl.getWindow tl.putIndex tl.getIndex).onFst
      (fun i v' => v ≤ v' ∧ Known { tl with getIndex := i } v'.pair) v := by
  refine wp.read_fst fun v₁ h₁ => wp.read_fst fun v₂ h₂ => ?_
  have hl := later_of_le (h₁.trans h₂)
  refine ⟨h₁.trans h₂, ?_⟩
  rw [(ha.later (inv_of v) (later_of_le h₁)).val]
  rcases hkn.later (inv_of v) hl with hnone | ⟨k', u', hg⟩
  · exact .inl hnone
  · refine .inr ⟨k', u', hg.le, hg.head, hg.window, ?_⟩
    rw [hg.window.val]
    dsimp only
    split
    next heq => exact hidx.trans_eq heq.2.symm
    next => exact hg.index

theorem putRound_spec (hp : set.WF) {v₀ : View E.protocol c} {st : Search} (h : PutLoop v₀ st v) :
    wp E.protocol c (putRound set st).onFst (fun r v' =>
      Sum.elim (fun st' => PutLoop v₀ st' v') (fun a => PutPost v₀ a v') r) v := by
  obtain ⟨hs, hkn, hsame, k, u, ha, hscan⟩ := h
  have hidx : st.tl.putIndex < u.width := Scan.lt hscan
  have hw := ha.allocated (inv_of v)
  refine wp.bind_fst (readPut_spec (hidx.trans_le hw.2)) ?_
  rintro d v₁ ⟨h₁, htail, hcount⟩
  refine wp.read_fst fun v₂ h₂ => wp.read_fst fun v₃ h₃ => ?_
  have h := (h₁.trans h₂).trans h₃
  have hs₃ := hs.trans (.of_le h)
  have hl₃ := later_of_le h
  have hkn₃ := hkn.later (inv_of v) hl₃
  have ha₃ := ha.later (inv_of v) hl₃
  rw [ha₃.val]
  split
  next =>
    have ht := (inv_of v₂).tail_stands.later (inv_of v₂) (later_of_le h₃)
    exact wp.bind_fst (loadPutWindow_loop st hs₃ hkn₃ ht) fun _ _ hloop => hloop
  next =>
    split
    next hlt =>
      refine wp.bind_fst (assert_true (decide_eq_true hidx)) ?_
      rintro - _ rfl
      refine wp.bind_fst (followIndex_spec hkn₃ ha₃ hidx) ?_
      rintro i v₄ ⟨h₄, hkn₄⟩
      have hl₄ := later_of_le h₄
      exact ⟨hs₃.trans (.of_le h₄), hkn₄,
        htail.grown ((later_of_le (h₂.trans h₃)).trans hl₄).queues,
        k, u, ha₃.later (inv_of v₃) hl₄, hidx, hlt⟩
    next hfull =>
      have hfull₃ : u.max ≤ (v₃.state.1.putArray st.tl.putIndex).count :=
        (not_lt.1 hfull).trans (hcount.le.trans ((later_of_le (h₂.trans h₃)).queues.put _))
      have hscan₃ : Scan set.randomHops u.width (fun j => u.max ≤ (v₃.state.1.putArray j).count)
          st.tl.putIndex st.random st.hops := hscan.mono fun j _ hj => hj.trans (hl₃.queues.put j)
      split
      next hh =>
        refine wp.bind_fst (hop_spec (hw.fits hp) hscan₃ hfull₃ hh.ne) ?_
        rintro ⟨index, random, hops⟩ v₄ ⟨h₄, hscan₄⟩
        have hl₄ := later_of_le h₄
        exact ⟨hs₃.trans (.of_le h₄), (hkn₃.later (inv_of v₃) hl₄).congr rfl rfl rfl, hsame, k, u,
          ha₃.later (inv_of v₃) hl₄, Scan.mono hscan₄ fun j _ hj => hj.trans (hl₄.queues.put j)⟩
      next hh =>
        have hall := hscan₃.all (le_antisymm hscan₃.hops_le (not_lt.1 hh))
        refine wp.bind_fst (tryShiftPut_spec (hsame ▸ ha₃) hall) fun _ v₄ hs₄ => ?_
        refine wp.read_fst fun v₅ h₅ => ?_
        have hs₅ := hs₄.trans (.of_le h₅)
        exact wp.bind_fst (loadPutWindow_loop st (hs₃.trans hs₅) (hkn₃.later (inv_of v₃) hs₅.later)
          (inv_of v₅).tail_stands) fun _ _ hloop => hloop

theorem putWindow_spec (hp : set.WF) {contention : Bool} {tl : Local} (hkn : Known tl v.pair) :
    wp E.protocol c (putWindow set contention tl).onFst (fun a v' => PutPost v a v') v := by
  refine wp.read_fst fun v₁ h₁ => wp.read_fst fun v₂ h₂ => ?_
  have ha₂ := (inv_of v₁).tail_stands.later (inv_of v₁) (later_of_le h₂)
  rw [ha₂.val]
  refine wp.bind_fst (startIndex_spec ((ha₂.allocated (inv_of v₂)).fits hp)) ?_
  rintro index v₃ ⟨h₃, hidx⟩
  have h := (h₁.trans h₂).trans h₃
  refine wp.forever_fst (fun st v' => PutLoop v st v') ⟨.of_le h,
    (hkn.later (inv_of v) (later_of_le h)).congr rfl rfl rfl, rfl, _, _,
    ha₂.later (inv_of v₂) (later_of_le h₃),
    .start hidx⟩ ?_
  exact fun st v' h => putRound_spec hp h

/-! ### `enqueue` -/

/-- The node `n` of the running call is not linked yet. -/
structure Mine (w op n : ℕ) (x : (State × Watch) × Ghost) : Prop where
  owner : x.2.places.owner n = op
  unlinked : Unlinked w x.1.1.nodes.toCells n

theorem Mine.along (hn : Mine set.maxWidth c.op n v.pair) (h : Along v v₁) :
    Mine set.maxWidth c.op n v₁.pair where
  owner := (h.owned.owner n hn.unlinked.lt_fresh).trans hn.owner
  unlinked := h.owned.unlinked n (congrArg Owner.op hn.owner.symm) hn.unlinked

theorem createNode_spec (val : ℤ) : wp E.protocol c (createNode val).onFst
    (fun n v' => Along v v' ∧ Mine set.maxWidth c.op n v'.pair) v := by
  intro v₁ h₁ _ _
  have hi := inv_of v₁
  have hk := fun o => Kept.createNode (s := v₁.state.1) (w := v₁.state.2) (g := v₁.now.2)
    (n := set.maxWidth) (o := o) val c.op
  refine ⟨_, allows_step v₁ (hi.createNode val c.op)
    (fun h => (emptied_of v₁ h).createNode val _ rfl)
    fun o _ => hk o, (Along.of_le h₁).trans (.step (hk _)), Function.update_self ..,
      .create hi.filled.valid.lines val⟩

/-- The node `n` of row `r` stands behind the tail `d` of sub-queue `j`. -/
def Behind (j : ℕ) (d : Descriptor) (n r : ℕ) (x : (State × Watch) × Ghost) : Prop :=
  ∃ p t, d.node = some t ∧ (x.1.1.nodes.line j)[p]? = some t ∧
    (x.1.1.nodes.line j)[p + 1]? = some n ∧ (x.2.places.rows j)[p + 1]? = some r

theorem Behind.later {x x' : (State × Watch) × Ghost} {d : Descriptor} {r : ℕ}
    (h : Behind j d n r x) (hl : Later x x') : Behind j d n r x' := by
  obtain ⟨p, t, hd, ht, hn, hr⟩ := h
  exact ⟨p, t, hd, hl.queues.line ht, hl.queues.line hn, hl.queues.row hr⟩

/-- A tail is swung, in a state where the new descriptor is the one for the node behind it. -/
theorem putCae_spec (hj : j < set.maxWidth) {d d' : Descriptor}
    (hd : ∀ v', v ≤ v' → v'.state.1.putArray j = d → ∃ k,
      d' = ⟨some k, Windowed.nextRow (v'.state.1.win (v'.now.2.tail + 1)).bottom d.count⟩ ∧
        (v'.state.1.nodes.line j)[v'.now.2.places.putPos j + 1]? = some k) :
    wp E.protocol c (putCae j d d').onFst (fun _ v' => Along v v') v := by
  refine wp.cae_fst (fun v₁ h₁ he _ => ?_) fun v₁ h₁ _ => .of_le h₁
  have he : v₁.state.1.putArray j = d := he
  obtain ⟨k, rfl, hk⟩ := hd v₁ h₁ he
  rw [← he]
  have hgt := (nextRow_gt (v₁.state.1.win (v₁.now.2.tail + 1)).bottom
    (v₁.state.1.putArray j).count).1.le
  have hkept := fun o => Kept.swingNode (w := v₁.state.2) (g := v₁.now.2) (n := set.maxWidth)
    (o := o)
    (d := ⟨some k, Windowed.nextRow (v₁.state.1.win (v₁.now.2.tail + 1)).bottom
      (v₁.state.1.putArray j).count⟩) hgt
  exact ⟨_, allows_step v₁ ((inv_of v₁).swingNode hj hk) (fun h => (emptied_of v₁ h).swingNode j _)
    fun o _ => hkept o, (Along.of_le h₁).trans (.step (hkept _))⟩

/-- A node that has just been linked. -/
theorem Behind.of_link {s : State} {w : Watch} {g : Ghost} {d : Descriptor} {t : ℕ}
    (hi : Inv set s w g) (hj : j < set.maxWidth) (hd : d.node = some t)
    (hline : (s.nodes.line j)[g.places.putPos j]? = some t) (hnone : (s.nodes.heap t).next = none)
    (r : ℕ) (tag : Tag) :
    Behind j d n r (({ s with nodes := s.nodes.link j (some t) n tag }, w),
      { g with places := g.places.link j r }) := by
  have hlast := (hi.filled.tail_of_last hj hline le_rfl hnone).2
  have hlen := hi.filled.length j hj
  refine ⟨g.places.putPos j, t, hd, ?_, ?_, ?_⟩
  · exact (Grown.link s.queues g.places j t n 0).line hline
  · show ((s.nodes.append j (some t) n).line j)[g.places.putPos j + 1]? = _
    rw [hlast, Cells.append_line_self]
    exact List.getElem?_concat_length
  · show (Function.update g.places.rows j (g.places.rows j ++ [_]) j)[_]? = _
    rw [Function.update_self, hlast, ← hlen]
    exact List.getElem?_concat_length

/-- The tail is swung to the node that has been linked. -/
theorem putCae_linked (hj : j < set.maxWidth) {d : Descriptor} {r : ℕ}
    (hb : Behind j d n r v.pair) :
    wp E.protocol c (putCae j d ⟨some n, r⟩).onFst (fun _ v' => Along v v') v := by
  refine putCae_spec hj fun v₁ h₁ he => ?_
  -- the row of the linked node is the pending one
  obtain ⟨p, t, hd, hline, hm, hr⟩ := hb.later (later_of_le h₁)
  have hpos := (inv_of v₁).filled.tail_pos hj hline ((congrArg Descriptor.node he).trans hd)
  obtain ⟨hrow, -, -⟩ := (inv_of v₁).filled.pending _ hj r (hpos ▸ hr)
  have hcount : (v₁.state.1.putArray j).count = d.count := congrArg Descriptor.count he
  refine ⟨n, ?_, hpos ▸ hm⟩
  rw [hrow]
  congr 2

/-- A sub-queue whose count was below the maximum of a put window, and has not changed: it is the
put window still. -/
theorem Stands.now {a : Option ℕ} {u : Window} {x : (State × Watch) × Ghost} (ha : Stands k a u x)
    (hi : Inv set x.1.1 x.1.2 x.2) (hj : j < u.width) (hc : (x.1.1.putArray j).count < u.max) :
    x.1.1.win (x.2.tail + 1) = u := by
  have hk : k = x.2.tail := hi.present ha.le (by rw [ha.win]; exact hj) (by rw [ha.win]; exact hc)
  rw [← hk]
  exact ha.win

/-- The link behind a tail whose count was in the put window. -/
theorem enqCae_spec {a : Option ℕ} {u : Window} {d : Descriptor} (ha : Stands k a u v.pair)
    (hj : j < u.width) (ht : WasTail j d v.state.1.queues v.now.2.places) (hc : d.count < u.max)
    (hn : Mine set.maxWidth c.op n v.pair) :
    wp E.protocol c (enqCae j d.node n ⟨ElasticLaw.nextRow u d.count, u⟩).onFst (fun r v' =>
      Later v.pair v'.pair ∧ if r then Behind j d n (ElasticLaw.nextRow u d.count) v'.pair
        else Mine set.maxWidth c.op n v'.pair) v := by
  have hjn : j < set.maxWidth := hj.trans_le (ha.allocated (inv_of v)).2
  refine wp.cae_fst (fun v₁ h₁ he _ => ?_) fun v₁ h₁ _ => ?_
  · have hl := later_of_le h₁
    have hi₁ := inv_of v₁
    have hn₁ := hn.along (.of_le h₁)
    obtain ⟨t, hd, hline, hcount⟩ := (ht.grown hl.queues).of_last hi₁.filled hjn he
    have hcount : (v₁.state.1.putArray j).count = d.count := hcount
    have hlt : (v₁.state.1.putArray j).count < u.max := hcount.trans_lt hc
    have hnow : v₁.state.1.win (v₁.now.2.tail + 1) = u := (ha.later (inv_of v) hl).now hi₁ hj hlt
    have htag : linkTag v₁.state.1 v₁.now.2 j = ⟨ElasticLaw.nextRow u d.count, u⟩ := by
      unfold linkTag
      rw [hnow, hcount]
    have he : (v₁.state.1.nodes.deref d.node).next = none := he
    rw [hd] at he ⊢
    have hi := hi₁.linkNode hjn (by rw [hnow]; exact hj) hline le_rfl he hn₁.unlinked
      (by rw [hnow]; exact hlt)
    rw [htag] at hi
    exact ⟨_, allows_step v₁ hi
      (fun h => (emptied_of v₁ h).linkNode hi₁ hjn hline le_rfl he hn₁.unlinked _ _)
      fun o ho => .linkNode ho hn₁.owner hjn hline _ _, hl.trans (.linkNode j t n _ _),
      .of_link hi₁ hjn hd hline he _ _⟩
  · exact ⟨later_of_le h₁, hn.along (.of_le h₁)⟩

/-- What a round of `enqueue` ends with. -/
def Enqueued (set : Params) (n : ℕ) (r : (Bool × Local) ⊕ (Local × Descriptor × Descriptor))
    (v : View E.protocol c) : Prop :=
  Sum.elim (fun a => Known a.2 v.pair ∧ Mine set.maxWidth c.op n v.pair)
    (fun a => Known a.1 v.pair ∧ a.1.putIndex < set.maxWidth ∧
      ∃ r, a.2.2 = ⟨some n, r⟩ ∧ Behind a.1.putIndex a.2.1 n r v.pair) r

/-- A pending enqueue is helped: the next row of the window is that of the pending node. -/
theorem putCae_help {a : Option ℕ} {u : Window} {d : Descriptor} {next : Option ℕ}
    (ha : Stands k a u v.pair) (hj : j < u.width) (ht : WasTail j d v.state.1.queues v.now.2.places)
    (hc : d.count < u.max) (hnext : (v.state.1.nodes.deref d.node).next = next)
    (hne : next ≠ none) :
    wp E.protocol c (putCae j d ⟨next, ElasticLaw.nextRow u d.count⟩).onFst
      (fun _ v' => Along v v') v := by
  have hjn : j < set.maxWidth := hj.trans_le (ha.allocated (inv_of v)).2
  refine putCae_spec hjn fun v₁ h₁ he => ?_
  have hl := later_of_le h₁
  have hcount : (v₁.state.1.putArray j).count = d.count := congrArg Descriptor.count he
  have hnow : v₁.state.1.win (v₁.now.2.tail + 1) = u :=
    (ha.later (inv_of v) hl).now (inv_of v₁) hj (hcount.trans_lt hc)
  obtain ⟨k, rfl⟩ := Option.ne_none_iff_exists'.1 hne
  have hk := ht.behind (inv_of v).filled (inv_of v₁).filled hl.queues hjn
    (congrArg Descriptor.node he) hnext
  exact ⟨k, by rw [hnow]; rfl, hk⟩

theorem tryLink_spec {contention : Bool} {tl : Local} {d : Descriptor} {a : Option ℕ} {u : Window}
    (hkn : Known tl v.pair) (ha : Stands k a u v.pair) (hj : tl.putIndex < u.width)
    (ht : WasTail tl.putIndex d v.state.1.queues v.now.2.places) (hc : d.count < u.max)
    (hn : Mine set.maxWidth c.op n v.pair) :
    wp E.protocol c (tryLink n contention tl d u).onFst (Enqueued set n) v := by
  have hjn : tl.putIndex < set.maxWidth := hj.trans_le (ha.allocated (inv_of v)).2
  refine wp.read_fst fun v₁ h₁ => ?_
  have hl₁ := later_of_le h₁
  have hkn₁ := hkn.later (inv_of v) hl₁
  have ha₁ := ha.later (inv_of v) hl₁
  have hn₁ := hn.along (.of_le h₁)
  split
  next =>
    refine wp.bind_fst (enqCae_spec ha₁ hj (ht.grown hl₁.queues) hc hn₁) ?_
    rintro (_ | _) v₂ ⟨hl₂, h₂⟩
    · exact ⟨hkn₁.later (inv_of v₁) hl₂, h₂⟩
    · refine wp.bind_fst (assert_true (decide_eq_true hj.le)) ?_
      rintro - _ rfl
      exact ⟨hkn₁.later (inv_of v₁) hl₂, hjn, _, rfl, h₂⟩
  next hne =>
    refine wp.read_fst fun v₂ h₂ => ?_
    have hl₂ := later_of_le h₂
    have ht₂ := ht.grown (hl₁.trans hl₂).queues
    have hstays := (ht.grown hl₁.queues).next_grown (inv_of v₁).filled (inv_of v₂).filled
      (later_of_le h₂).queues hjn hne
    have hne₂ : (v₂.state.1.nodes.deref d.node).next ≠ none := fun h₀ => hne (hstays.symm.trans h₀)
    refine wp.bind_fst (putCae_help (ha₁.later (inv_of v₁) hl₂) hj ht₂ hc rfl hne₂) ?_
    rintro (_ | _) v₃ hs₃
    · exact ⟨hkn₁.later (inv_of v₁) (hl₂.trans hs₃.later), hn₁.along ((Along.of_le h₂).trans hs₃)⟩
    · have hle : ElasticLaw.nextRow u d.count ≤ u.max := nextRow_le (ha.bottom_lt (inv_of v)) hc
      refine wp.bind_fst (assert_true (decide_eq_true hle)) ?_
      rintro - _ rfl
      exact ⟨hkn₁.later (inv_of v₁) (hl₂.trans hs₃.later), hn₁.along ((Along.of_le h₂).trans hs₃)⟩

theorem enqueueRound_spec (hp : set.WF) {contention : Bool} {tl : Local} (hkn : Known tl v.pair)
    (hn : Mine set.maxWidth c.op n v.pair) :
    wp E.protocol c (enqueueRound set n contention tl).onFst (Enqueued set n) v := by
  refine wp.bind_fst (putWindow_spec hp hkn) ?_
  rintro ⟨d, tl'⟩ v₁ ⟨hs₁, hkn₁, ht, k, u, ha, hj, hc⟩
  have hsome : d.node.isSome = true := by
    obtain ⟨p, q, t, hd, -⟩ := ht
    exact Option.isSome_of_eq_some hd
  refine wp.bind_fst (assert_true hsome) ?_
  rintro - _ rfl
  refine wp.read_fst fun v₂ h₂ => ?_
  have hl₂ := later_of_le h₂
  have ha₂ := ha.later (inv_of v₁) hl₂
  rw [ha₂.val]
  refine wp.bind_fst (assert_true (decide_eq_true hc)) ?_
  rintro - _ rfl
  refine wp.read_fst fun v₃ h₃ => ?_
  have hl₃ := later_of_le h₃
  have hkn₃ := hkn₁.later (inv_of v₁) (hl₂.trans hl₃)
  have hn₃ := hn.along (hs₁.trans (.of_le (h₂.trans h₃)))
  split
  next => exact ⟨hkn₃, hn₃⟩
  next =>
    exact tryLink_spec hkn₃ (ha₂.later (inv_of v₂) hl₃) hj (ht.grown (hl₂.trans hl₃).queues) hc hn₃

theorem enqueue_spec (hp : set.WF) {tl : Local} (hkn : Known tl v.pair) (val : ℤ) :
    wp E.protocol c (enqueue set val tl).onFst (fun r v' => Known r.1 v'.pair) v := by
  refine wp.bind_fst (createNode_spec val) ?_
  rintro n v₁ ⟨hs₁, hn⟩
  refine wp.bind_fst (wp.forever_fst (Q := fun a v' => Enqueued set n (.inr a) v')
    (fun b v' => Enqueued set n (.inl b) v') ⟨hkn.later (inv_of v) hs₁.later, hn⟩ ?_) ?_
  · rintro ⟨contention, tl'⟩ v₂ h₂
    refine (enqueueRound_spec hp h₂.1 h₂.2).mono ?_
    rintro (a | a) v₃ h₃
    · exact h₃
    · exact h₃
  · rintro ⟨tl', d, d'⟩ v₂ ⟨hkn₂, hj, r, hd, hb⟩
    obtain rfl : d' = ⟨some n, r⟩ := hd
    refine wp.bind_fst (assert_true rfl) ?_
    rintro - _ rfl
    exact wp.bind_fst (putCae_linked hj hb) fun _ v₃ hs₃ => hkn₂.later (inv_of v₂) hs₃.later

end Watched

end ElasticLaw
