import SemanticRelaxation.ElasticLaw.PutSpecs

/-!
# The get side of the elastic LaW queue under interference

* `moveGetWindow_spec`: the lateral head moves on to a window that is not above the put window;
* `getWindow_spec`: the window that it returns has been the get window, and the descriptor was that
  of a head;
* `Removable`: what a dequeue knows before it reads the node behind the head;
* `dequeue_spec`.
-/

namespace ElasticLaw

namespace Watched

open AtomicProg Linked MichaelScott Windowed TwoD

variable {L : Type} {S : Service (State × Watch) L} {set : Params} {assume : State → State → Prop}
  {E : Results S (regime S.Call set assume)} {c : Caller} {v v₁ v₂ : View E.protocol c}
  {j k n p : ℕ}

/-- The thread has a window that has been the get window, at position `k` or any other. -/
def Entered (tl : Local) (x : (State × Watch) × Ghost) : Prop := ∃ k u, GotAt k u tl x

theorem Entered.later {x x' : (State × Watch) × Ghost} {tl : Local} (h : Entered tl x)
    (hi : Inv set x.1.1 x.1.2 x.2) (hl : Later x x') : Entered tl x' := by
  obtain ⟨k, u, hg⟩ := h
  exact ⟨k, u, hg.later hi hl⟩

/-! ### `get_window` -/

theorem startGetIndex_spec (hp : set.WF) {contention : Bool} {tl : Local} (hkn : Known tl v.pair)
    (hc : contention = true → Entered tl v.pair) :
    wp E.protocol c (startGetIndex contention tl).onFst
      (fun i v' => v ≤ v' ∧ Known { tl with getIndex := i } v'.pair) v := by
  refine wp.read_fst fun v₁ h₁ => ?_
  have hl₁ := later_of_le h₁
  split
  next h =>
    obtain ⟨k, u, hg⟩ := (hc h).later (inv_of v) hl₁
    rw [hg.window.val]
    refine (randomIndex_spec ((hg.window.allocated (inv_of v₁)).fits hp)).mono ?_
    rintro i v₂ ⟨h₂, hi⟩
    have hg₂ := hg.later (inv_of v₁) (later_of_le h₂)
    exact ⟨h₁.trans h₂, .inr ⟨k, u, hg₂.le, hg₂.head, hg₂.window, hi⟩⟩
  next => exact ⟨h₁, hkn.later (inv_of v) hl₁⟩

/-- The thread-local windows after a load of the lateral head. -/
theorem loadGetWindow_spec {tl : Local} {a : Option ℕ} (hk : k ≤ v.now.2.head)
    (ha : a = v.state.1.line[k]?) :
    wp E.protocol c (loadGetWindow tl a).onFst
      (fun tl' v' => v ≤ v' ∧ tl'.putWindow = tl.putWindow ∧ Entered tl' v'.pair) v := by
  have hlt : k < v.state.1.line.length := by
    have hlt := (inv_of v).tail_lt
    have hle := (inv_of v).order
    omega
  refine wp.read_fst fun v₁ h₁ => wp.read_fst fun v₂ h₂ => ?_
  have hl₁ := later_of_le h₁
  have hl₂ := later_of_le h₂
  have hi₁ := inv_of v₁
  have hk₁ : k ≤ v₁.now.2.head := hk.trans hl₁.head_le
  have hw₁ : Stands k (v₁.state.1.lateral.deref a).next (v₁.state.1.win (k + 1)) v₁.pair := by
    refine ⟨hk₁.trans hi₁.order, ?_, rfl⟩
    rw [ha, ← hl₁.line hlt]
    exact hi₁.line_next (hlt.trans_le hl₁.length_le)
  have hw₂ := hw₁.later hi₁ hl₂
  rw [hw₂.val]
  exact ⟨h₁.trans h₂, rfl, k, _, hk₁.trans hl₂.head_le,
    ha.trans ((hl₁.trans hl₂).line hlt).symm, hw₂,
    syncIndex_lt (hw₂.allocated (inv_of v₂)).1 _⟩

/-- There is a node behind the lateral head. -/
theorem Inv.head_next {s : State} {w : Watch} {g : Ghost} (h : Inv set s w g) {a : Option ℕ}
    (hk : k ≤ g.head) (ha : a = s.line[k]?) : ∃ m, (s.lateral.deref a).next = some m := by
  have hlt := h.tail_lt
  have hle := h.order
  obtain ⟨m, hm⟩ := line_some (show k + 1 < s.line.length by omega)
  refine ⟨m, ?_⟩
  rw [ha]
  exact (h.line_next (by omega)).trans hm

theorem enterGet_spec {tl : Local} (hkn : Known tl v.pair) : wp E.protocol c (enterGet tl).onFst
    (fun tl' v' => v ≤ v' ∧ tl'.putWindow = tl.putWindow ∧ Entered tl' v'.pair) v := by
  refine wp.read_fst fun v₁ h₁ => wp.read_fst fun v₂ h₂ => ?_
  have hi₁ := inv_of v₁
  have hl₂ := later_of_le h₂
  have hlt : v₁.now.2.head < v₁.state.1.line.length := by
    have hlt := hi₁.tail_lt
    have hle := hi₁.order
    omega
  have hhead : v₁.state.1.lateralHead = v₂.state.1.line[v₁.now.2.head]? :=
    hi₁.head_node.trans (hl₂.line hlt).symm
  obtain ⟨m, hm⟩ := (inv_of v₂).head_next hl₂.head_le hhead
  split
  next =>
    refine (loadGetWindow_spec hl₂.head_le hhead).mono ?_
    rintro tl' v₃ ⟨h₃, h⟩
    exact ⟨(h₁.trans h₂).trans h₃, h⟩
  next hnot =>
    have heq : v₁.state.1.lateralHead = tl.lheadPointer := by
      by_contra hne
      exact hnot ⟨hne, Option.isSome_of_eq_some hm⟩
    refine ⟨h₁.trans h₂, rfl, (hkn.later (inv_of v) (later_of_le (h₁.trans h₂))).resolve_left ?_⟩
    rintro ⟨hnone, -⟩
    obtain ⟨m, hm⟩ := line_some hlt
    have hsome := hi₁.head_node.trans hm
    rw [heq, hnone] at hsome
    cases hsome

theorem readPutCount_spec {tl : Local} :
    wp E.protocol c (readPutCount tl).onFst (fun _ v' => v ≤ v') v := by
  refine wp.read_fst fun v₁ h₁ => wp.read_fst fun v₂ h₂ => ?_
  split
  next => exact h₁.trans h₂
  next =>
    intro v₃ h₃ _ _
    exact wp.same (k := .ret) ((h₁.trans h₂).trans h₃)

theorem followIndex_le {a b : Option ℕ} {i j : ℕ} :
    wp E.protocol c (followIndex a b i j).onFst (fun _ v' => v ≤ v') v := by
  refine wp.read_fst fun v₁ h₁ => wp.read_fst fun v₂ h₂ => ?_
  exact h₁.trans h₂

/-- A hop to an index below the width. -/
theorem hop_lt {width index random hops : ℕ} (hf : Fits types set.randomHops width)
    (hi : index < width) :
    wp E.protocol c (hop set index random hops width).onFst
      (fun r v' => v ≤ v' ∧ r.1 < width) v := by
  unfold ElasticLaw.hop
  rw [hop_onFst]
  unfold TwoD.hop
  split
  next =>
    refine wp.bind_of (randomIndex_rely hf.modulus) ?_
    exact fun i v' h => h
  next => exact ⟨le_rfl, RoundRobin.succ_lt (Nat.zero_lt_of_lt hi)⟩

/-- The lateral head is moved on. -/
theorem shiftGet_spec {a : Option ℕ} (ha : a = v.state.1.line[k]?) (hk : k < v.now.2.tail) :
    wp E.protocol c (shiftGet a).onFst (fun _ v' => Along v v') v := by
  have hlt : k + 1 < v.state.1.line.length := by
    have hlt := (inv_of v).tail_lt
    omega
  refine wp.read_fst fun v₁ h₁ => ?_
  have hl₁ := later_of_le h₁
  obtain ⟨m, hm⟩ := line_some hlt
  have hnext : (v₁.state.1.lateral.deref a).next = some m := by
    rw [ha, ← hl₁.line (Nat.lt_of_succ_lt hlt),
      (inv_of v₁).line_next (Nat.lt_of_succ_lt (hlt.trans_le hl₁.length_le)),
      hl₁.line hlt]
    exact hm
  rw [hnext]
  refine wp.bind_fst (assert_true rfl) ?_
  rintro - _ rfl
  refine wp.cae_fst (fun v₂ h₂ he hassume => ?_) fun v₂ h₂ _ => .of_le (h₁.trans h₂)
  have hi₂ := inv_of v₂
  have hs₂ := Along.of_le (h₁.trans h₂)
  have hl₂ := hs₂.later
  have horder := hi₂.order
  have htail := hi₂.tail_lt
  have hhead := hi₂.head_node
  have hpos : v₂.now.2.head = k := by
    refine hi₂.line_inj (by omega) ?_
    rw [← hhead, hl₂.line (Nat.lt_of_succ_lt hlt), ← ha]
    exact he
  have hltail : v₂.now.2.head < v₂.now.2.tail := hpos.trans_lt (hk.trans_le hl₂.tail_le)
  have hm₂ : v₂.state.1.line[v₂.now.2.head + 1]? = some m := by
    rw [hpos]
    exact (hl₂.line hlt).trans hm
  have hkept := fun o => Kept.moveHead (s := v₂.state.1) (w := v₂.state.2) (g := v₂.now.2)
    (n := set.maxWidth)
    (k := m) (o := o)
  refine ⟨_, allows_step v₂ (hi₂.moveHead hm₂ hltail) (fun h => ?_) fun o _ => hkept o,
    hs₂.trans (.step (hkept _))⟩
  refine (emptied_of v₂ h).moveHead hi₂ hltail ((h _ _ hassume).shift ?_) _
  intro hsame
  have hsame : some m = v₂.state.1.lateralHead := hsame
  rw [hhead, ← hm₂] at hsame
  have := hi₂.line_inj (by omega) hsame
  omega

/-- The shift branch of `get_window`: both assertions hold. -/
theorem moveGetWindow_spec {tl : Local} {u : Window} (hg : GotAt k u tl v.pair)
    (hk : k < v.now.2.tail) :
    wp E.protocol c (moveGetWindow tl).onFst
      (fun tl' v' => Along v v' ∧ tl'.putWindow = tl.putWindow ∧ Entered tl' v'.pair) v := by
  refine wp.read_fst fun v₁ h₁ => ?_
  have hl₁ := later_of_le h₁
  have hi₁ := inv_of v₁
  have hg₁ := hg.later (inv_of v) hl₁
  have hk₁ : k < v₁.now.2.tail := hk.trans_le hl₁.tail_le
  have hsome : (v₁.state.1.lateral.deref tl.getWindow).next.isSome = true := by
    have htail := hi₁.tail_lt
    obtain ⟨m, hm⟩ := line_some (show k + 2 < v₁.state.1.line.length by omega)
    exact Option.isSome_of_eq_some ((hg₁.window.next hi₁).trans hm)
  refine wp.bind_fst (assert_true hsome) ?_
  rintro - _ rfl
  refine wp.bind_fst (shiftGet_spec hg₁.head hk₁) fun _ v₂ hs₂ => ?_
  refine wp.read_fst fun v₃ h₃ => ?_
  refine wp.bind_fst (loadGetWindow_spec le_rfl (inv_of v₃).head_node) ?_
  rintro tl' v₄ ⟨h₄, hput, k', u', hg'⟩
  have hs₄ := (Along.of_le h₁).trans (hs₂.trans (.of_le (h₃.trans h₄)))
  have hsome' : tl'.getWindow.isSome = true := by
    obtain ⟨m, hm⟩ := line_some (hg'.window.lt (inv_of v₄))
    exact Option.isSome_of_eq_some (hg'.window.node.trans hm)
  refine wp.bind_fst (assert_true hsome') ?_
  rintro - _ rfl
  exact ⟨hs₄, hput, k', u', hg'⟩

/-- The descriptor was that of a head, in runs without a late dequeue and in orderly runs. -/
structure Head (set : Params) (assume : State → State → Prop) (j : ℕ) (d : Descriptor)
    (x : (State × Watch) × Ghost) : Prop where
  was : x.1.2.late = false → WasHead j d x.1.1.queues x.2.places
  node : (∀ s s', assume s s' → Orderly set s s') →
    ∃ p t : ℕ, d.node = some t ∧ (x.1.1.nodes.line j)[p]? = some t

theorem Head.later {x x' : (State × Watch) × Ghost} {d : Descriptor} (h : Head set assume j d x)
    (hi : Inv set x.1.1 x.1.2 x.2) (hj : j < set.maxWidth) (hl : Later x x') :
    Head set assume j d x' where
  was hc := (h.was (hl.late hc)).grown hi.filled hj hl.queues
  node ho := by
    obtain ⟨p, t, hd, ht⟩ := h.node ho
    exact ⟨p, t, hd, hl.queues.line ht⟩

/-- The descriptor of a head that is loaded word by word. -/
theorem readGet_spec (hj : j < set.maxWidth) :
    wp E.protocol c (readDescriptor State.getArray j).onFst
    (fun d v' => v ≤ v' ∧ Head set assume j d v'.pair) v := by
  refine wp.read_fst fun v₁ h₁ => wp.read_fst fun v₂ h₂ => ?_
  have hl₂ := later_of_le h₂
  refine ⟨h₁.trans h₂, fun hc => ?_, fun ho => ?_⟩
  · exact .of_read (inv_of v₁).filled ((inv_of v₁).headed (hl₂.late hc)) (inv_of v₂).filled
      ((inv_of v₂).headed hc)
      hl₂.queues hj
  · obtain ⟨t, hn, ht⟩ := (emptied_of v₁ ho).node j hj
    exact ⟨_, t, hn, hl₂.queues.line ht⟩

/-- What a round of `get_window` starts with. -/
structure GetLoop (v₀ : View E.protocol c) (a : Option ℕ) (tl : Local) (v : View E.protocol c) :
    Prop where
  along : Along v₀ v
  put : tl.putWindow = a
  entered : Entered tl v.pair

/-- What `get_window` returns: a head, in a window that has been the get window. -/
structure GetPost (v₀ : View E.protocol c) (a : Option ℕ) (r : Descriptor × Local)
    (v : View E.protocol c) :
    Prop extends GetLoop v₀ a r.2 v where
  head : Head set assume r.2.getIndex r.1 v.pair

theorem getRound_spec (hp : set.WF) {v₀ : View E.protocol c} {a : Option ℕ} {st : Search}
    (h : GetLoop v₀ a st.tl v) : wp E.protocol c (getRound set st).onFst (fun r v' =>
      Sum.elim (fun st' => GetLoop v₀ a st'.tl v') (fun b => GetPost v₀ a b v') r) v := by
  obtain ⟨hs, hput, k, u, hg⟩ := h
  have hj : st.tl.getIndex < set.maxWidth := hg.index.trans_le (hg.window.allocated (inv_of v)).2
  refine wp.bind_fst (readGet_spec hj) ?_
  rintro d v₁ ⟨h₁, hhead⟩
  refine wp.bind_fst readPutCount_spec fun putCount v₂ h₂ => ?_
  refine wp.read_fst fun v₃ h₃ => wp.read_fst fun v₄ h₄ => ?_
  have h := ((h₁.trans h₂).trans h₃).trans h₄
  have hs₄ := hs.trans (.of_le h)
  have hg₄ := hg.later (inv_of v) (later_of_le h)
  have hhead₄ := hhead.later (inv_of v₁) hj (later_of_le ((h₂.trans h₃).trans h₄))
  rw [hg₄.window.val]
  split
  next =>
    have hi₃ := inv_of v₃
    refine wp.read_fst fun v₅ h₅ => ?_
    have hl₅ := later_of_le (h₄.trans h₅)
    have hlt : v₃.now.2.head < v₃.state.1.line.length := by
      have hlt := hi₃.tail_lt
      have hle := hi₃.order
      omega
    have hpos : v₃.state.1.lateralHead = v₅.state.1.line[v₃.now.2.head]? :=
      hi₃.head_node.trans (hl₅.line hlt).symm
    obtain ⟨m, hm⟩ := (inv_of v₅).head_next hl₅.head_le hpos
    rw [hm]
    refine wp.bind_fst (loadGetWindow_spec hl₅.head_le hpos) ?_
    rintro tl' v₆ ⟨h₆, hput₆, hent⟩
    exact ⟨hs₄.trans (.of_le (h₅.trans h₆)), hput₆.trans hput, hent⟩
  next =>
    split
    next => exact ⟨⟨hs₄, hput, k, u, hg₄⟩, hhead₄⟩
    next =>
      split
      next =>
        refine wp.bind_fst (hop_lt ((hg₄.window.allocated (inv_of v₄)).fits hp) hg₄.index) ?_
        rintro ⟨index, random, hops⟩ v₅ ⟨h₅, hidx⟩
        have hg₅ := hg₄.later (inv_of v₄) (later_of_le h₅)
        exact ⟨hs₄.trans (.of_le h₅), hput, k, u, hg₅.le, hg₅.head, hg₅.window, hidx⟩
      next =>
        refine wp.read_fst fun v₅ h₅ => ?_
        have hi₅ := inv_of v₅
        have hg₅ := hg₄.later (inv_of v₄) (later_of_le h₅)
        have hs₅ := hs₄.trans (.of_le h₅)
        split
        next hne =>
          -- the get window is not the last one
          have hk : k < v₅.now.2.tail := by
            refine lt_of_le_of_ne hg₅.window.le fun he => hne ?_
            rw [hg₅.window.node, hi₅.tail_node, he]
          refine wp.bind_fst (moveGetWindow_spec hg₅ hk) ?_
          rintro tl' v₆ ⟨hs₆, hput₆, hent⟩
          exact ⟨hs₅.trans hs₆, hput₆.trans hput, hent⟩
        next => exact ⟨⟨hs₅, hput, k, u, hg₅⟩, hhead₄.later (inv_of v₄) hj (later_of_le h₅)⟩

theorem getWindow_spec (hp : set.WF) {contention : Bool} {tl : Local} (hkn : Known tl v.pair)
    (hc : contention = true → Entered tl v.pair) :
    wp E.protocol c (getWindow set contention tl).onFst
      (fun r v' => GetPost v tl.putWindow r v') v := by
  refine wp.bind_fst (startGetIndex_spec hp hkn hc) ?_
  rintro index v₁ ⟨h₁, hkn₁⟩
  refine wp.bind_fst (enterGet_spec hkn₁) ?_
  rintro tl' v₂ ⟨h₂, hput, hent⟩
  refine wp.bind_fst (wp.forever_fst (Q := fun r v' => GetPost v tl.putWindow r v')
    (fun st v' => GetLoop v tl.putWindow st.tl v') ⟨.of_le (h₁.trans h₂), hput, hent⟩ ?_) ?_
  · exact fun st v' h => getRound_spec hp h
  · rintro ⟨d, tl''⟩ v₃ ⟨⟨hs₃, hput₃, k, u, hg⟩, hhead⟩
    refine wp.bind_fst followIndex_le fun putIndex v₄ h₄ => ?_
    have hl := later_of_le h₄
    have hg₄ := hg.later (inv_of v₃) hl
    have hj : tl''.getIndex < set.maxWidth := hg.index.trans_le (hg.window.allocated (inv_of v₃)).2
    exact ⟨⟨hs₃.trans (.of_le h₄), hput₃, k, u, hg₄.le, hg₄.head, hg₄.window, hg₄.index⟩,
      hhead.later (inv_of v₃) hj hl⟩

/-! ### `dequeue` -/

/-- What is known of a head `d` of sub-queue `j` and the descriptor `d'` that is to take its place.
In runs without a late dequeue there is a node behind the head, and its row is not above the new
count. -/
structure Takeable (set : Params) (assume : State → State → Prop) (max j : ℕ) (d d' : Descriptor)
    (x : (State × Watch) × Ghost) : Prop where
  behind : x.1.2.late = false → d.count < max → ∃ p t k r : ℕ, d.node = some t ∧
    (x.1.1.nodes.line j)[p]? = some t ∧ p < x.2.places.putPos j ∧ d'.node = some k ∧
    (x.1.1.nodes.line j)[p + 1]? = some k ∧ (x.2.places.rows j)[p + 1]? = some r ∧ r ≤ d'.count
  node : (∀ s s', assume s s' → Orderly set s s') → ∃ p t : ℕ, d.node = some t ∧
    (x.1.1.nodes.line j)[p]? = some t ∧ ∀ k, d'.node = some k →
    (x.1.1.nodes.line j)[p + 1]? = some k

theorem Takeable.later {x x' : (State × Watch) × Ghost} {max j : ℕ} {d d' : Descriptor}
    (h : Takeable set assume max j d d' x) (hl : Later x x') :
    Takeable set assume max j d d' x' where
  behind hc hlt := by
    obtain ⟨p, t, k, r, hd, ht, hp, hk, hline, hr, hle⟩ := h.behind (hl.late hc) hlt
    exact ⟨p, t, k, r, hd, hl.queues.line ht, hp.trans_le (hl.queues.putPos j), hk,
      hl.queues.line hline,
      hl.queues.row hr, hle⟩
  node ho := by
    obtain ⟨p, t, hd, ht, hk⟩ := h.node ho
    exact ⟨p, t, hd, hl.queues.line ht, fun k h => hl.queues.line (hk k h)⟩

/-- The head has not moved, so it stands at its position. -/
theorem Takeable.next {x : (State × Watch) × Ghost} {max : ℕ} {d d' : Descriptor}
    (h : Takeable set assume max j d d' x) (hi : Inv set x.1.1 x.1.2 x.2) (hj : j < set.maxWidth)
    (hc : x.1.2.late = false) (hlt : d.count < max) (he : x.1.1.getArray j = d) :
    ∃ k, d'.node = some k ∧ x.2.places.getPos j < x.2.places.putPos j ∧
      (x.1.1.nodes.line j)[x.2.places.getPos j + 1]? = some k ∧
      ∀ r, (x.2.places.rows j)[x.2.places.getPos j + 1]? = some r → r ≤ d'.count := by
  obtain ⟨p, t, k, r, hd, ht, hp, hk, hline, hr, hrow⟩ := h.behind hc hlt
  have hpos := (hi.headed hc).head_pos hi.filled hj ht ((congrArg Descriptor.node he).trans hd)
  subst hpos
  refine ⟨k, hk, hp, hline, fun r' hr' => ?_⟩
  rw [Option.some.inj (hr'.symm.trans hr)]
  exact hrow

/-- In an orderly run a head is moved on to the next item. -/
theorem Emptied.exchange {a : Option ℕ} {u : Window} {d : Descriptor} {next : Option ℕ} {q : Places}
    {max : ℕ} {s : State} {w : Watch} {g : Ghost} (he : Emptied set s g) (hi : Inv set s w g)
    (hj : j < set.maxWidth) (hk : k ≤ g.head) (ha : Stands k a u ((s, w), g))
    (hd : s.getArray j = d) (hsome : next ≠ none) (ho : ∀ s s', assume s s' → Orderly set s s')
    (h : Takeable set assume max j d ⟨next, ElasticLaw.nextRow u d.count⟩ ((s, w), g))
    (hq : q.rows = g.places.rows) : Emptied set { s with
        getArray := Function.update s.getArray j ⟨next, ElasticLaw.nextRow u d.count⟩
        nodes := s.nodes.remove next }
      { g with places := q, front := Function.update g.front j (g.front j + 1) } := by
  obtain ⟨m, rfl⟩ := Option.ne_none_iff_exists'.1 hsome
  obtain ⟨p, t, hdt, ht, hline⟩ := h.node ho
  obtain ⟨t', hn, ht'⟩ := he.node j hj
  obtain rfl : t' = t := by
    rw [hd, hdt] at hn
    exact (Option.some.inj hn).symm
  have hpos : p = g.front j := hi.filled.pos_eq hj ht ht'
  have htake := he.take hi hj hk (hpos ▸ hline m rfl) hq
  have hwin : s.win (k + 1) = u := ha.win
  rw [hwin, hd] at htake
  exact htake

theorem deqCae_spec {max : ℕ} {a : Option ℕ} {u : Window} {d : Descriptor} {next : Option ℕ}
    (hj : j < set.maxWidth) (hk : k ≤ v.now.2.head) (ha : Stands k a u v.pair)
    (h : Takeable set assume max j d ⟨next, ElasticLaw.nextRow u d.count⟩ v.pair) :
    wp E.protocol c (deqCae max j d ⟨next, ElasticLaw.nextRow u d.count⟩)
      (fun _ v' => Along v v') v := by
  refine wp.cae (fun v₁ h₁ he hassume => ?_) fun v₁ h₁ _ => .of_le h₁
  have hl₁ := later_of_le h₁
  have hi := inv_of v₁
  have he : v₁.state.1.getArray j = d := he
  have hw : (Watch.mk (v₁.state.2.late || decide (max ≤ d.count))).late = false →
    v₁.state.2.late = false :=
    fun h => (Bool.or_eq_false_iff.1 h).1
  have hle : (v₁.state.1.getArray j).count ≤ ElasticLaw.nextRow u d.count := by
    rw [he]
    exact (lt_nextRow u d.count).1.le
  have htake := h.later hl₁
  have hempty : ∀ {q : Places}, q.rows = v₁.now.2.places.rows →
    (∀ s s', assume s s' → Orderly set s s') →
      Emptied set { v₁.state.1 with
        getArray := Function.update v₁.state.1.getArray j ⟨next, ElasticLaw.nextRow u d.count⟩
        nodes := v₁.state.1.nodes.remove next } { v₁.now.2 with
          places := q
          front := Function.update v₁.now.2.front j (v₁.now.2.front j + 1) } := by
    intro q hq ho
    refine (emptied_of v₁ ho).exchange hi hj (hk.trans hl₁.head_le)
      (ha.later (inv_of v) hl₁) he ?_ ho htake hq
    have hne : (Function.update v₁.state.1.getArray j ⟨next, ElasticLaw.nextRow u d.count⟩ j).node ≠
      none :=
      (ho _ _ hassume).head j hj
    rwa [Function.update_self] at hne
  by_cases hc : (v₁.state.2.late || decide (max ≤ d.count)) = false
  next =>
    have hlt : d.count < max := not_le.1 (of_decide_eq_false (Bool.or_eq_false_iff.1 hc).2)
    obtain ⟨m, hm, hp, hline, hrow⟩ := htake.next hi hj (hw hc) hlt he
    have hkept := fun o => Kept.takeNode (s := v₁.state.1) (g := v₁.now.2) (n := set.maxWidth)
      (o := o)
      (d := ⟨next, ElasticLaw.nextRow u d.count⟩) hw hle
      (Function.update v₁.now.2.front j (v₁.now.2.front j + 1))
    have htaken := hi.takeNode (d := ⟨next, ElasticLaw.nextRow u d.count⟩) hw hc hj hp
      (hm.trans hline.symm) hrow
      (Function.update v₁.now.2.front j (v₁.now.2.front j + 1))
    exact ⟨_, allows_step v₁ htaken (hempty rfl) fun o _ => hkept o,
      (Along.of_le h₁).trans (.step (hkept _))⟩
  next =>
    have hc : (Watch.mk (v₁.state.2.late || decide (max ≤ d.count))).late = true :=
      Bool.eq_true_of_not_eq_false hc
    have hkept := fun o => Kept.loseNode (s := v₁.state.1) (g := v₁.now.2) (n := set.maxWidth)
      (o := o)
      (d := ⟨next, ElasticLaw.nextRow u d.count⟩) hw hle
      (Function.update v₁.now.2.front j (v₁.now.2.front j + 1))
    have hlost := hi.loseNode (j := j) hc ⟨next, ElasticLaw.nextRow u d.count⟩
      (Function.update v₁.now.2.front j (v₁.now.2.front j + 1))
    exact ⟨_, allows_step v₁ hlost (hempty rfl) fun o _ => hkept o,
      (Along.of_le h₁).trans (.step (hkept _))⟩

/-- What is known of a head `d` before the node behind it is loaded. -/
structure Removable (set : Params) (assume : State → State → Prop) (max j : ℕ) (d : Descriptor)
    (x : (State × Watch) × Ghost) : Prop where
  before : x.1.2.late = false → d.count < max → ∃ p t r : ℕ, d.node = some t ∧
    (x.1.1.nodes.line j)[p]? = some t ∧ p < x.2.places.putPos j ∧ (x.2.places.rows j)[p]? = some r ∧
    r ≤ d.count
  node : (∀ s s', assume s s' → Orderly set s s') →
    ∃ p t : ℕ, d.node = some t ∧ (x.1.1.nodes.line j)[p]? = some t

theorem Removable.later {x x' : (State × Watch) × Ghost} {max j : ℕ} {d : Descriptor}
    (h : Removable set assume max j d x) (hl : Later x x') : Removable set assume max j d x' where
  before hc hlt := by
    obtain ⟨p, t, r, hd, ht, hp, hr, hle⟩ := h.before (hl.late hc) hlt
    exact ⟨p, t, r, hd, hl.queues.line ht, hp.trans_le (hl.queues.putPos j), hl.queues.row hr, hle⟩
  node ho := by
    obtain ⟨p, t, hd, ht⟩ := h.node ho
    exact ⟨p, t, hd, hl.queues.line ht⟩

/-- The node behind a head in the get window, and its row. -/
theorem Removable.takeable {u : Window} {a : Option ℕ} {d : Descriptor} {s : State} {w : Watch}
    {g : Ghost} (h : Removable set assume u.max j d ((s, w), g)) (hi : Inv set s w g)
    (ha : Stands k a u ((s, w), g)) (hj : j < u.width) : Takeable set assume u.max j d
      ⟨(s.nodes.deref d.node).next, ElasticLaw.nextRow u d.count⟩ ((s, w), g) := by
  have hjn : j < set.maxWidth := hj.trans_le (ha.allocated hi).2
  have hnext : ∀ {p t : ℕ}, d.node = some t → (s.nodes.line j)[p]? = some t →
      (s.nodes.deref d.node).next = (s.nodes.line j)[p + 1]? := by
    intro p t hd ht
    rw [hd]
    exact hi.filled.valid.lines.next j hjn p t ht
  refine ⟨fun hc hlt => ?_, fun ho => ?_⟩
  · obtain ⟨p, t, r, hd, ht, hp, hr, hle⟩ := h.before hc hlt
    have hp : p < g.places.putPos j := hp
    have hput : g.places.putPos j < (s.nodes.line j).length := hi.filled.valid.put_lt hjn
    have hlen : p + 1 < (s.nodes.line j).length := by omega
    have hm := List.getElem?_eq_getElem hlen
    have hr' := List.getElem?_eq_getElem (hlen.trans_eq (hi.filled.length j hjn).symm)
    refine ⟨p, t, _, _, hd, ht, hp, (hnext hd ht).trans hm, hm, hr', ?_⟩
    -- the next row of the window is one of its rows, so that the sub-queue has no gap there
    have hgt := lt_nextRow u d.count
    have hmem : u.span ∈ (s.win (g.tail + 1)).span :: s.spans g.tail := by
      have hk : k < g.tail + 1 := Nat.lt_succ_of_le ha.le
      have hwin : s.win (k + 1) = u := ha.win
      rw [← hwin]
      exact Tiled.mem_spans hk
    have hwidth := hi.filled.spans.widthOf_eq hmem hgt.2 (nextRow_le (ha.bottom_lt hi) hlt)
    exact hi.filled.row_le hjn hr hr' (hle.trans_lt hgt.1) (hj.trans_eq hwidth.symm)
  · obtain ⟨p, t, hd, ht⟩ := h.node ho
    exact ⟨p, t, hd, ht, fun m hm => (hnext hd ht).symm.trans hm⟩

/-- What a round of `dequeue` ends with. -/
def Dequeued (a : Option ℕ) (r : (Bool × Local) ⊕ (Local × Option ℤ)) (v : View E.protocol c) :
    Prop :=
  Sum.elim (fun b => b.2.putWindow = a ∧ Entered b.2 v.pair) (fun b => Entered b.1 v.pair) r

theorem safeDeq_spec {d : Descriptor} {tl : Local} {u : Window} (hg : GotAt k u tl v.pair)
    (h : Removable set assume u.max tl.getIndex d v.pair) :
    wp E.protocol c (safeDeq d tl) (fun r v' => Along v v' ∧ Dequeued tl.putWindow r v') v := by
  have hj : tl.getIndex < set.maxWidth := hg.index.trans_le (hg.window.allocated (inv_of v)).2
  refine wp.read fun v₁ h₁ => wp.read fun v₂ h₂ => ?_
  have hl₁ := later_of_le h₁
  have hl₂ := later_of_le h₂
  have hg₁ := hg.later (inv_of v) hl₁
  have hg₂ := hg₁.later (inv_of v₁) hl₂
  have htake := ((h.later hl₁).takeable (inv_of v₁) hg₁.window hg.index).later hl₂
  dsimp only
  rw [hg₂.window.val]
  refine wp.bind_of (deqCae_spec hj hg₂.le hg₂.window htake) ?_
  rintro (_ | _) v₃ hs₃
  · have hs := (Along.of_le (h₁.trans h₂)).trans hs₃
    exact ⟨hs, rfl, k, u, hg.later (inv_of v) hs.later⟩
  · refine wp.read fun v₄ h₄ => ?_
    have hs := (Along.of_le (h₁.trans h₂)).trans (hs₃.trans (.of_le h₄))
    exact ⟨hs, k, u, hg.later (inv_of v) hs.later⟩

/-- A lagging tail is swung with the row of the node behind it. -/
theorem helpEnqueue_spec {contention : Bool} {tl : Local} {d : Descriptor}
    (hj : tl.getIndex < set.maxWidth) (ht : WasTail tl.getIndex d v.state.1.queues v.now.2.places)
    (hne : (v.state.1.nodes.deref d.node).next ≠ none) :
    wp E.protocol c (helpEnqueue d contention tl).onFst (fun r v' => Along v v' ∧ r.2 = tl) v := by
  refine wp.read_fst fun v₁ h₁ => wp.read_fst fun v₂ h₂ => wp.read_fst fun v₃ h₃ => ?_
  have hi := inv_of v
  have hnext : (v₁.state.1.nodes.deref d.node).next = (v.state.1.nodes.deref d.node).next :=
    ht.next_grown hi.filled (inv_of v₁).filled (later_of_le h₁).queues hj hne
  obtain ⟨m, hm⟩ := Option.ne_none_iff_exists'.1 hne
  have htail := (inv_of v₂).tail_stands.later (inv_of v₂) (later_of_le h₃)
  rw [htail.val]
  refine wp.bind_fst (putCae_spec hj fun v₄ h₄ he => ?_) fun _ v₄ hs₄ =>
    ⟨(Along.of_le ((h₁.trans h₂).trans h₃)).trans hs₄, rfl⟩
  have hl := later_of_le (((h₁.trans h₂).trans h₃).trans h₄)
  have hbehind := ht.behind hi.filled (inv_of v₄).filled hl.queues hj
    (congrArg Descriptor.node he) hm
  -- the tail has not moved since, so the node behind it was the pending one of the same window
  obtain ⟨hold, hmax, hwidth⟩ := ht.back hi.filled (inv_of v₄).filled hl.queues hj he hm
  have hsame : v₄.state.1.win (v₄.now.2.tail + 1) = v.state.1.win (v.now.2.tail + 1) := by
    refine (hi.tail_stands.later hi hl).now (inv_of v₄) hwidth ?_
    rw [he, ← hold]
    exact hmax
  -- the window that was loaded lies between the two
  have hwin : v₂.state.1.win (v₂.now.2.tail + 1) = v.state.1.win (v.now.2.tail + 1) := by
    have hle₂ := (later_of_le (h₁.trans h₂)).tail_le
    have hle₄ := (later_of_le (h₃.trans h₄)).tail_le
    have ht₂ := (hi.tail_stands.later hi hl).lt (inv_of v₄)
    have htl : v₄.now.2.tail = v.now.2.tail := by
      have hstand := hi.tail_stands.later hi hl
      by_contra hne
      have hlt₄ := lt_of_le_of_ne hstand.le (Ne.symm hne)
      have htile := (inv_of v₄).tiled.max_lt_succ (k := v₄.now.2.tail) (inv_of v₄).tail_lt
      have hmono := (inv_of v₄).tiled.max_le (k := v.now.2.tail + 1) (l := v₄.now.2.tail) hlt₄
        (Nat.lt_of_succ_lt (inv_of v₄).tail_lt)
      have hwin₄ : v₄.state.1.win (v.now.2.tail + 1) = v.state.1.win (v.now.2.tail + 1) :=
        hstand.win
      rw [hsame] at htile
      rw [hwin₄] at hmono
      omega
    have htl₂ : v₂.now.2.tail = v.now.2.tail := le_antisymm (hle₄.trans htl.le) hle₂
    rw [htl₂]
    exact (later_of_le (h₁.trans h₂)).win hi hi.tail_lt
  exact ⟨m, by rw [hsame, hwin, hnext.trans hm]; rfl, hbehind⟩

/-- The tail is loaded word by word. -/
theorem readTail_spec (hj : j < set.maxWidth) :
    wp E.protocol c (readDescriptor State.putArray j).onFst (fun e v' =>
      WasTail j e v'.state.1.queues v'.now.2.places ∧ ∃ u : View E.protocol c, v ≤ u ∧ u ≤ v' ∧
        e.node = (u.state.1.putArray j).node) v := by
  refine wp.read_fst fun v₁ h₁ => wp.read_fst fun v₂ h₂ => ?_
  exact ⟨.of_read (inv_of v₁).filled (inv_of v₂).filled (later_of_le h₂).queues hj, v₁, h₁, h₂, rfl⟩

/-- The head that a thread has loaded can be removed once it is known to be before the tail. -/
theorem Head.removable {d : Descriptor} {max : ℕ} {x x' : (State × Watch) × Ghost}
    (h : Head set assume j d x) (hi : Inv set x.1.1 x.1.2 x.2) (hj : j < set.maxWidth)
    (hl : Later x x') (hlt : x'.1.2.late = false → d.count < max → ∀ p r : ℕ,
      (x.1.1.nodes.line j)[p]? = d.node →
      p ≤ x.2.places.getPos j → (x.2.places.rows j)[p]? = some r → r ≤ d.count →
        p < x'.2.places.putPos j) :
    Removable set assume max j d x' where
  before hc hmax := by
    obtain ⟨p, t, hd, ht, hpos, hrow⟩ := h.was (hl.late hc)
    have hlen := (List.getElem?_eq_some_iff.1 ht).1
    have hr := List.getElem?_eq_getElem (show p < (x.2.places.rows j).length from
      hlen.trans_eq (hi.filled.length j hj).symm)
    exact ⟨p, t, _, hd, hl.queues.line ht, hlt hc hmax p _ (ht.trans hd.symm) hpos hr (hrow _ hr),
      hl.queues.row hr, hrow _ hr⟩
  node ho := by
    obtain ⟨p, t, hd, ht⟩ := h.node ho
    exact ⟨p, t, hd, hl.queues.line ht⟩

theorem dequeueRound_spec (hp : set.WF) {contention : Bool} {tl : Local} {u : Window}
    (hkn : Known tl v.pair) (ha : Stands k tl.putWindow u v.pair) (hc : contention = true →
      Entered tl v.pair) :
    wp E.protocol c (dequeueRound set contention tl)
      (fun r v' => Along v v' ∧ Dequeued tl.putWindow r v') v := by
  refine wp.bind_of (getWindow_spec hp hkn hc) ?_
  rintro ⟨d, tl'⟩ v₁ ⟨⟨hs₁, hput, l, w, hg⟩, hhead⟩
  have hput : tl'.putWindow = tl.putWindow := hput
  have hj : tl'.getIndex < set.maxWidth := hg.index.trans_le (hg.window.allocated (inv_of v₁)).2
  refine wp.read fun v₂ h₂ => wp.read fun v₃ h₃ => ?_
  have hl₂ := later_of_le h₂
  have hl₃ := hl₂.trans (later_of_le h₃)
  have ha₁ := ha.later (inv_of v) hs₁.later
  have ha₂ := ha₁.later (inv_of v₁) hl₂
  have hg₃ := hg.later (inv_of v₁) hl₃
  have hs₃ := hs₁.trans (.of_le (h₂.trans h₃))
  have hgval : (v₃.state.1.lateral.deref tl'.getWindow).val = w := hg₃.window.val
  have hpval : (v₂.state.1.lateral.deref tl'.putWindow).val = u := hput ▸ ha₂.val
  -- what `safe_deq` needs to know of the head
  have hremove : ∀ {v' : View E.protocol c}, Along v₁ v' →
    (v'.state.2.late = false → d.count < w.max →
      ∀ p r : ℕ, (v₁.state.1.nodes.line tl'.getIndex)[p]? = d.node →
        p ≤ v₁.now.2.places.getPos tl'.getIndex →
        (v₁.now.2.places.rows tl'.getIndex)[p]? = some r → r ≤ d.count →
        p < v'.now.2.places.putPos tl'.getIndex) →
      wp E.protocol c (safeDeq d tl') (fun r v'' => Along v v'' ∧
        Dequeued tl.putWindow r v'') v' := by
    intro v' hs' hlt
    refine (safeDeq_spec (hg.later (inv_of v₁) hs'.later)
      (hhead.removable (inv_of v₁) hj hs'.later hlt)).mono ?_
    rintro r v'' ⟨hs'', hr⟩
    exact ⟨(hs₁.trans hs').trans hs'', hput ▸ hr⟩
  split
  next hlt =>
    refine hremove (.of_le (h₂.trans h₃)) fun _ hmax p r ht hpos hr hrow => ?_
    have hlt : (v₃.state.1.lateral.deref tl'.getWindow).val.max <
      (v₂.state.1.lateral.deref tl'.putWindow).val.max :=
      hlt
    rw [hgval, hpval] at hlt
    -- the get window is below the put window, so that it is full
    have hi₃ := inv_of v₃
    have ha₃ := ha₁.later (inv_of v₁) hl₃
    have hwin : v₃.state.1.win (l + 1) = w := hg₃.window.win
    have hwin' : v₃.state.1.win (k + 1) = u := ha₃.win
    have hlk : l + 1 < k + 1 := hi₃.tiled.lt_of_max_lt (hg₃.window.lt hi₃)
      (by rw [hwin, hwin']; exact hlt)
    have hfull := hi₃.full ((Nat.lt_of_succ_lt_succ hlk).trans_le ha₃.le)
      (by rw [hwin]; exact hg.index)
    rw [hwin] at hfull
    have hcount := hi₃.filled.count tl'.getIndex hj
    have hcount : (v₃.now.2.places.rows tl'.getIndex)[v₃.now.2.places.putPos tl'.getIndex]? =
      some (v₃.state.1.putArray tl'.getIndex).count := hcount
    exact lt_of_lt_getElem? (hi₃.filled.sorted tl'.getIndex hj) (hl₃.queues.row hr) hcount
      ((hrow.trans_lt hmax).trans_le hfull)
  next hge =>
    refine wp.bind_of (readTail_spec hj) ?_
    rintro e v₅ ⟨htail, v₄, h₄, h₅, he⟩
    have hl₄ := hl₃.trans (later_of_le h₄)
    have hs₅ := Along.of_le (((h₂.trans h₃).trans h₄).trans h₅)
    have hg₅ := hg.later (inv_of v₁) hs₅.later
    dsimp only
    split
    next heq =>
      refine wp.read fun v₆ h₆ => ?_
      have hl₆ := later_of_le h₆
      split
      next => exact ⟨hs₁.trans (hs₅.trans (.of_le h₆)), l, w, hg₅.later (inv_of v₅) hl₆⟩
      next hne =>
        have hne₆ : (v₆.state.1.nodes.deref e.node).next ≠ none := heq ▸ hne
        refine wp.bind_of (helpEnqueue_spec hj (htail.grown hl₆.queues) hne₆) ?_
        rintro ⟨b, tl''⟩ v₇ ⟨hs₇, htl⟩
        obtain rfl : tl'' = tl' := htl
        have hs := (Along.of_le h₆).trans hs₇
        exact ⟨hs₁.trans (hs₅.trans hs), hput, l, w, hg₅.later (inv_of v₅) hs.later⟩
    next hne =>
      refine hremove hs₅ fun hc' hmax p r ht hpos hr hrow => ?_
      obtain ⟨t, ht'⟩ : ∃ t, d.node = some t := by
        obtain ⟨p', t, hd, -⟩ := hhead.was (hs₅.later.late hc')
        exact ⟨t, hd⟩
      have hline : (v₄.state.1.nodes.line tl'.getIndex)[p]? = d.node := by
        rw [ht'] at ht ⊢
        exact hl₄.queues.line ht
      exact ((inv_of _).filled.before_tail hj (hpos.trans (hl₄.queues.getPos _)) hline
        (he ▸ hne)).trans_le
        ((later_of_le h₅).queues.putPos _)

theorem dequeue_spec (hp : set.WF) {tl : Local} (hkn : Known tl v.pair) :
    wp E.protocol c (dequeue set tl) (fun r v' => Known r.1 v'.pair) v := by
  refine wp.read fun v₁ h₁ => ?_
  have hl₁ := later_of_le h₁
  have ht := (inv_of v₁).tail_stands
  refine wp.forever (fun b v' => (Along v₁ v' ∧ b.2.putWindow = v₁.state.1.lateralTail) ∧
    Known b.2 v'.pair ∧
    (b.1 = true → Entered b.2 v'.pair)) ⟨⟨.refl _, rfl⟩,
    (hkn.later (inv_of v) hl₁).congr rfl rfl rfl, nofun⟩ ?_
  rintro ⟨contention, tl'⟩ v₂ ⟨⟨hs₂, hput⟩, hkn₂, hc⟩
  have hput : tl'.putWindow = v₁.state.1.lateralTail := hput
  have ht₂ := ht.later (inv_of v₁) hs₂.later
  refine (dequeueRound_spec hp hkn₂ (hput ▸ ht₂) hc).mono ?_
  rintro (⟨contention', tl''⟩ | r) v₃ ⟨hs₃, h₃⟩
  · exact ⟨⟨hs₂.trans hs₃, h₃.1.trans hput⟩, .inr h₃.2, fun _ => h₃.2⟩
  · exact .inr h₃

/-- A thread that registers has the window behind the lateral head. -/
theorem initThreadWindows_spec : wp E.protocol c (initThreadWindows .zero).onFst
    (fun tl v' => Known tl v'.pair) v := by
  refine wp.read_fst fun v₁ h₁ => wp.read_fst fun v₂ h₂ => wp.read_fst fun v₃ h₃ => ?_
  have hi₁ := inv_of v₁
  have hi₃ := inv_of v₃
  have hl := later_of_le (h₂.trans h₃)
  have hlt : v₁.now.2.head < v₁.state.1.line.length := by
    have hlt := hi₁.tail_lt
    have hle := hi₁.order
    omega
  have hhead : v₁.state.1.lateralHead = v₃.state.1.line[v₁.now.2.head]? :=
    hi₁.head_node.trans (hl.line hlt).symm
  have hw : Stands v₁.now.2.head (v₃.state.1.lateral.deref v₁.state.1.lateralHead).next
      (v₃.state.1.win (v₁.now.2.head + 1)) v₃.pair := by
    refine ⟨hl.head_le.trans hi₃.order, ?_, rfl⟩
    rw [hhead]
    exact hi₃.line_next (hlt.trans_le hl.length_le)
  exact .inr ⟨_, _, hl.head_le, hhead, hw, (hw.allocated hi₃).1⟩

end Watched

end ElasticLaw
