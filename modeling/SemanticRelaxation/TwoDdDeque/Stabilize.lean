import SemanticRelaxation.TwoDdDeque.Exchanges

/-!
# The windows and `stabilize` of the 2Dd-deque

* `Keeps`: what a call knows and does not lose in programs that work with newer anchors of their
  own;
* `putWindow_spec`, `getWindow_spec`: the anchor that a search returns has been in place;
* `stabilizeAt_spec`: the missing link is set in time, and nothing is lost. A push that has not lost
  the exchange of its link finds its anchor replaced.
-/

namespace TwoDdDeque

open AtomicProg Deques

/-- What a call knows stays true under the steps of the others, and while it works with anchors from
`b` on. -/
structure Keeps (set : Params) (c : Caller) (b : ℕ) (K : List Call → Memory → Prop) : Prop where
  later : ∀ calls calls' s s', Inv set calls s → calls <+: calls' → Kept set (.op c.op) s s' →
    K calls s → K calls' s'
  write : ∀ calls s a x, b ≤ a → MyAnchor c a s → K calls s → K calls (s.writeAnchor a x)
  swing : ∀ calls s i a, b ≤ a → MyAnchor c a s → K calls s → K calls (s.swing i a)
  free : ∀ calls s a, b ≤ a → MyAnchor c a s → K calls s → K calls (s.freeAnchor a)

section Specs

variable {set : Params} {E : Results (dequeService set) (regime set)} {c : Caller}
  {v v₁ v₂ : View E.protocol c}
  {b i n m a anchor : ℕ} {d : Side} {K : List Call → Memory → Prop} {own : Bool}

theorem inv_of (v : View E.protocol c) : Inv set v.now.1.calls v.state := v.inv_pair

theorem kept_op (h : v ≤ v₁) : Kept set (.op c.op) v.state v₁.state := h.2.op

/-- What the call knows, in a view. -/
abbrev At (K : List Call → Memory → Prop) (v : View E.protocol c) : Prop := K v.now.1.calls v.state

theorem Keeps.le (hK : Keeps set c b K) (h : v ≤ v₁) (hv : At K v) : At K v₁ :=
  hK.later _ _ _ _ (inv_of v) h.2.evolves.calls (kept_op h) hv

/-- A step that the call might see others take. -/
theorem Keeps.step (hK : Keeps set c b K) {s : Memory} (hk : Kept set (.op c.op) v.state s)
    (hv : At K v) :
    K v.now.1.calls s := hK.later _ _ _ _ (inv_of v) (List.prefix_refl _) hk hv

/-- A step that keeps the invariant and what belongs to others. -/
theorem allows_step {s : Memory} (hi : Inv set v.now.1.calls s)
    (hk : ∀ o, ¬ c.Is o → Kept set o v.state s) :
    E.protocol.Allows c v.now (v.after s ()) := Regime.allows v hi hk

/-! ### The windows -/

theorem tryShift_put_spec (hK : Keeps set c b K) (hv : At K v) (old : ℕ) :
    wp E.protocol c (tryShift set (fun s => s.putMax d)
      (fun m s => { s with putMax := Function.update s.putMax d m }) old) (fun _ v' =>
      At K v') v := by
  unfold tryShift
  refine wp.read fun v₁ h₁ => ?_
  have hv₁ := hK.le h₁ hv
  split
  · refine wp.cae (fun v₂ h₂ he _ => ?_) fun v₂ h₂ _ => hK.le h₂ hv₁
    have he : v₂.state.putMax d = old := he
    have hle : v₂.state.putMax d ≤ old + set.depth := he ▸ Nat.le_add_right _ _
    have hk : ∀ o, Kept set o v₂.state
      { v₂.state with putMax := Function.update v₂.state.putMax d (old + set.depth) } :=
      fun o => .windows (le_update_self_iff.2 hle) (fun _ => le_rfl) fun h => h
    have hv₂ := hK.step (hk (.op c.op)) (hK.le h₂ hv₁)
    exact ⟨(), allows_step ((inv_of v₂).setPutMax hle) fun o _ => hk o, hv₂⟩
  · exact hv₁

theorem tryShift_get_spec (hK : Keeps set c b K) (hv : At K v) (old : ℕ) :
    wp E.protocol c (tryShift set (fun s => s.getMax d)
      (fun m s => { s with getMax := Function.update s.getMax d m }) old) (fun _ v' =>
      At K v') v := by
  unfold tryShift
  refine wp.read fun v₁ h₁ => ?_
  have hv₁ := hK.le h₁ hv
  split
  · refine wp.cae (fun v₂ h₂ he _ => ?_) fun v₂ h₂ _ => hK.le h₂ hv₁
    have he : v₂.state.getMax d = old := he
    have hle : v₂.state.getMax d ≤ old + set.depth := he ▸ Nat.le_add_right _ _
    have hk : ∀ o, Kept set o v₂.state
      { v₂.state with getMax := Function.update v₂.state.getMax d (old + set.depth) } :=
      fun o => .windows (fun _ => le_rfl) (le_update_self_iff.2 hle) fun h => h
    have hv₂ := hK.step (hk (.op c.op)) (hK.le h₂ hv₁)
    exact ⟨(), allows_step ((inv_of v₂).setGetMax hle) fun o _ => hk o, hv₂⟩
  · exact hv₁

/-- An index of the array. -/
def Within (set : Params) (tl : Local) : Prop := tl.threadIndex < set.width

theorem changeIndex_spec (hK : Keeps set c b K) (hv : At K v) {st : Search}
    (hst : Within set st.tl) :
    wp E.protocol c (changeIndex set st) (fun st' v' => At K v' ∧ Within set st'.tl) v := by
  unfold changeIndex
  split
  · unfold randomIndex
    exact wp.choose fun r v₁ h₁ => ⟨hK.le h₁ hv, Nat.mod_lt _ set.width_pos⟩
  · refine ⟨hv, ?_⟩
    have hw := set.width_pos
    have hi : st.tl.threadIndex < set.width := hst
    show (if st.tl.threadIndex = set.width - 1 then 0 else st.tl.threadIndex + 1) < set.width
    split <;> omega

/-- The anchor that a search for a place to put returns. -/
structure PutPlace (set : Params) (d : Side) (i a : ℕ) (s : Memory) : Prop where
  lt : i < set.width
  used : s.used a = true
  count : (s.anchors a).putCount d < s.putMax d
  nodes : ∀ n, (s.anchors a).ends d = some n → s.rank n ≠ 0

/-- The anchor that a search for an item returns. -/
structure GetPlace (set : Params) (d : Side) (i a : ℕ) (s : Memory) : Prop where
  lt : i < set.width
  used : s.used a = true
  count : (s.anchors a).getCount d < s.getMax d
  item : (s.anchors a).ends d ≠ none

theorem PutPlace.later {o : Owner} {s s' : Memory} (h : PutPlace set d i a s)
    (hk : Kept set o s s') :
    PutPlace set d i a s' := by
  obtain ⟨he, hu⟩ := hk.anchors a h.used
  refine ⟨h.lt, hu, he ▸ h.count.trans_le (hk.putMax d), fun n hn => ?_⟩
  have hr := h.nodes n (he ▸ hn)
  exact (hk.nodes n hr).1.symm ▸ hr

theorem GetPlace.later {o : Owner} {s s' : Memory} (h : GetPlace set d i a s)
    (hk : Kept set o s s') :
    GetPlace set d i a s' := by
  obtain ⟨he, hu⟩ := hk.anchors a h.used
  exact ⟨h.lt, hu, he ▸ h.count.trans_le (hk.getMax d), he ▸ h.item⟩

theorem putShift_spec (hK : Keeps set c b K) (hv : At K v) {st : Search} (hst : Within set st.tl) :
    wp E.protocol c (putShift set d st) (fun st' v' => At K v' ∧ Within set st'.tl) v := by
  unfold putShift
  split
  · refine wp.bind_of (tryShift_put_spec hK hv _) fun _ v₁ hv₁ => ?_
    exact wp.read fun v₂ h₂ => ⟨hK.le h₂ hv₁, hst⟩
  · exact ⟨hv, hst⟩

theorem putProbe_spec (hK : Keeps set c b K) (hv : At K v) {st : Search} (hst : Within set st.tl) :
    wp E.protocol c (putProbe d st) (fun r v' => At K v' ∧ Sum.elim (fun st' => Within set st'.tl)
      (fun x => PutPlace set d x.1.threadIndex x.2 v'.state) r) v := by
  unfold putProbe
  split
  · refine wp.read fun v₁ h₁ => wp.read fun v₂ h₂ => wp.read fun v₃ h₃ => ?_
    have hv₃ := hK.le h₃ (hK.le h₂ (hK.le h₁ hv))
    have hu₁ := (inv_of v₁).shape.live _ hst
    obtain ⟨he₂, hu₂⟩ := (kept_op h₂).anchors _ hu₁
    obtain ⟨he₃, hu₃⟩ := (kept_op h₃).anchors _ hu₂
    split
    next hlt =>
      refine ⟨hv₃, hst, hu₃, ?_, fun n hn => ?_⟩
      · rw [he₃]
        exact hlt
      · rw [he₃, he₂] at hn
        obtain ⟨xs, -, hl⟩ := (inv_of v₁).shape.deques _ hst
        have hmem : n ∈ xs := Side.mem_look.1 (List.mem_of_mem_head? ((hl.ends d).symm.trans hn))
        have hr := (hl.nodes n hmem).1
        have hr₂ : v₂.state.rank n ≠ 0 := ((kept_op h₂).nodes n hr).1.symm ▸ hr
        exact ((kept_op h₃).nodes n hr₂).1.symm ▸ hr₂
    next => exact ⟨hv₃, hst⟩
  · exact ⟨hv, hst⟩

theorem putHop_spec (hK : Keeps set c b K) (hv : At K v) {st : Search} (hst : Within set st.tl) :
    wp E.protocol c (putHop set d st) (fun st' v' => At K v' ∧ Within set st'.tl) v := by
  unfold putHop
  refine wp.read fun v₁ h₁ => ?_
  split
  · exact changeIndex_spec hK (hK.le h₁ hv) hst
  · exact wp.read fun v₂ h₂ => ⟨hK.le h₂ (hK.le h₁ hv), hst⟩

theorem putWindow_spec (hK : Keeps set c b K) (hv : At K v) {tl : Local} (htl : Within set tl) :
    wp E.protocol c (putWindow set d tl)
      (fun x v' => At K v' ∧ PutPlace set d x.1.threadIndex x.2 v'.state) v := by
  have hsync : wp E.protocol c (putSync d tl) (fun tl' v' => At K v' ∧ Within set tl') v := by
    unfold putSync
    refine wp.read fun v₁ h₁ => ?_
    split
    · exact wp.read fun v₂ h₂ => ⟨hK.le h₂ (hK.le h₁ hv), htl⟩
    · exact ⟨hK.le h₁ hv, htl⟩
  unfold putWindow
  refine wp.bind_of hsync fun tl' v₁ ⟨hv₁, htl'⟩ => ?_
  refine wp.forever (fun st v => At K v ∧ Within set st.tl) ⟨hv₁, htl'⟩ fun st v₂ ⟨hv₂, hst⟩ => ?_
  unfold putRound
  refine wp.bind_of (putShift_spec hK hv₂ hst) fun st₃ v₃ ⟨hv₃, hst₃⟩ => ?_
  refine wp.bind_of (putProbe_spec hK hv₃ hst₃) fun r v₄ ⟨hv₄, hr⟩ => ?_
  cases r with
  | inr x => exact ⟨hv₄, hr⟩
  | inl st₄ => exact wp.bind_of (putHop_spec hK hv₄ hr) fun st₅ v₅ h₅ => h₅

theorem getShift_spec (hK : Keeps set c b K) (hv : At K v) {st : Search} (hst : Within set st.tl) :
    wp E.protocol c (getShift set d st) (fun r v' => At K v' ∧ ∀ st' ∈ r, Within set st'.tl) v := by
  have hsome : ∀ st' : Search, Within set st'.tl → ∀ st'' ∈ some st', Within set st''.tl := by
    rintro st' h st'' hst''
    obtain rfl := Option.some.inj hst''
    exact h
  unfold getShift
  split
  · split
    · exact ⟨hv, nofun⟩
    · refine wp.bind_of (tryShift_get_spec hK hv _) fun _ v₁ hv₁ => ?_
      exact wp.read fun v₂ h₂ => ⟨hK.le h₂ hv₁, hsome _ hst⟩
  · exact ⟨hv, hsome _ hst⟩

theorem getProbe_spec (hK : Keeps set c b K) (hv : At K v) {st : Search} (hst : Within set st.tl) :
    wp E.protocol c (getProbe d st) (fun r v' => At K v' ∧ Sum.elim (fun st' => Within set st'.tl)
      (fun x => GetPlace set d x.1.threadIndex x.2 v'.state) r) v := by
  unfold getProbe
  split
  · refine wp.read fun v₁ h₁ => wp.read fun v₂ h₂ => wp.read fun v₃ h₃ => ?_
    have hv₃ := hK.le h₃ (hK.le h₂ (hK.le h₁ hv))
    have hu₁ := (inv_of v₁).shape.live _ hst
    obtain ⟨he₂, hu₂⟩ := (kept_op h₂).anchors _ hu₁
    obtain ⟨he₃, hu₃⟩ := (kept_op h₃).anchors _ hu₂
    split
    next hlt =>
      refine wp.read fun v₄ h₄ => ?_
      obtain ⟨he₄, hu₄⟩ := (kept_op h₄).anchors _ hu₃
      split
      next hitem =>
        refine ⟨hK.le h₄ hv₃, hst, hu₄, ?_, hitem⟩
        rw [he₄, he₃]
        exact hlt.trans_le ((kept_op h₄).getMax d)
      next => exact ⟨hK.le h₄ hv₃, hst⟩
    next => exact ⟨hv₃, hst⟩
  · exact ⟨hv, hst⟩

theorem noteItem_spec (hK : Keeps set c b K) (hv : At K v) {st : Search} (hst : Within set st.tl) :
    wp E.protocol c (noteItem d st) (fun st' v' => At K v' ∧ Within set st'.tl) v := by
  unfold noteItem
  split
  · exact ⟨hv, hst⟩
  · refine wp.read fun v₁ h₁ => ⟨hK.le h₁ hv, ?_⟩
    split
    · exact hst
    · exact hst

theorem getHop_spec (hK : Keeps set c b K) (hv : At K v) {st : Search} (hst : Within set st.tl) :
    wp E.protocol c (getHop set d st) (fun st' v' => At K v' ∧ Within set st'.tl) v := by
  unfold getHop
  refine wp.read fun v₁ h₁ => ?_
  split
  · refine wp.bind_of (changeIndex_spec hK (hK.le h₁ hv) hst) fun st' v₂ ⟨hv₂, hst'⟩ => ?_
    exact noteItem_spec hK hv₂ hst'
  · exact wp.read fun v₂ h₂ => ⟨hK.le h₂ (hK.le h₁ hv), hst⟩

theorem getWindow_spec (hK : Keeps set c b K) (hv : At K v) {tl : Local} (htl : Within set tl) :
    wp E.protocol c (getWindow set d tl) (fun x v' => At K v' ∧ Within set x.1 ∧
      ∀ anchor ∈ x.2, GetPlace set d x.1.threadIndex anchor v'.state) v := by
  have hsync : wp E.protocol c (getSync d tl) (fun tl' v' => At K v' ∧ Within set tl') v := by
    unfold getSync
    refine wp.read fun v₁ h₁ => ?_
    split
    · exact wp.read fun v₂ h₂ => ⟨hK.le h₂ (hK.le h₁ hv), htl⟩
    · exact ⟨hK.le h₁ hv, htl⟩
  unfold getWindow
  refine wp.bind_of hsync fun tl' v₁ ⟨hv₁, htl'⟩ => ?_
  refine wp.forever (fun st v => At K v ∧ Within set st.tl) ⟨hv₁, htl'⟩ fun st v₂ ⟨hv₂, hst⟩ => ?_
  unfold getRound
  refine wp.bind_of (getShift_spec hK hv₂ hst) fun r v₃ ⟨hv₃, hr⟩ => ?_
  cases r with
  | none => exact ⟨hv₃, hst, nofun⟩
  | some st₃ =>
    refine wp.bind_of (getProbe_spec hK hv₃ (hr st₃ rfl)) fun r v₄ ⟨hv₄, hr⟩ => ?_
    cases r with
    | inr x =>
      obtain ⟨tl', anchor⟩ := x
      refine ⟨hv₄, hr.lt, ?_⟩
      rintro a ha
      obtain rfl := Option.some.inj ha
      exact hr
    | inl st₄ => exact wp.bind_of (getHop_spec hK hv₄ hr) fun st₅ v₅ h₅ => h₅

/-! ### The missing link -/

theorem inPlace_spec : wp E.protocol c (inPlace i anchor) (fun same v' =>
    v ≤ v' ∧ (same = true ↔ v'.state.anchor i = anchor)) v := by
  unfold inPlace
  exact wp.read fun v₁ h₁ => ⟨h₁, decide_eq_true_iff⟩

/-- The anchor of a push at the end `d` of the deque `i`, with its node `n` and the node `m` next to
it, known to a call that works with new anchors from `b` on. -/
structure Snap (set : Params) (d : Side) (i anchor n m b : ℕ) (s : Memory) : Prop where
  lt : i < set.width
  below : anchor < b
  fresh : b ≤ s.freshAnchor
  used : s.used anchor = true
  state : (s.anchors anchor).state = .push d
  ends : (s.anchors anchor).ends d = some n
  base : s.base n = some (d, m)
  node : s.rank n ≠ 0
  prev : s.rank m ≠ 0

theorem Snap.later {o : Owner} {s s' : Memory} (h : Snap set d i anchor n m b s)
    (hk : Kept set o s s') :
    Snap set d i anchor n m b s' := by
  obtain ⟨he, hu⟩ := hk.anchors anchor h.used
  obtain ⟨hr, -, hb⟩ := hk.nodes n h.node
  exact ⟨h.lt, h.below, h.fresh.trans hk.freshAnchor, hu, he ▸ h.state, he ▸ h.ends,
    hb.trans h.base, hr.symm ▸ h.node,
    (hk.nodes m h.prev).1.symm ▸ h.prev⟩

theorem settled_later {o : Owner} {s s' : Memory} (h : Snap set d i anchor n m b s)
    (hk : Kept set o s s') (hset : Settled s d n m) : Settled s' d n m := by
  show s'.rank n ≤ s'.age (s'.link d m)
  rw [(hk.nodes n h.node).1]
  exact hset.trans (hk.age_link_le h.prev d)

theorem Keeps.snap (hK : Keeps set c b K) :
    Keeps set c b fun calls s => K calls s ∧ Snap set d i anchor n m b s where
  later _ _ _ _ hi hc hk h := ⟨hK.later _ _ _ _ hi hc hk h.1, h.2.later hk⟩
  write calls s a x ha hm h := by
    obtain ⟨hv, hs⟩ := h
    have he : (s.writeAnchor a x).anchors anchor = s.anchors anchor :=
      Function.update_of_ne (hs.below.trans_le ha).ne _ _
    exact ⟨hK.write _ _ _ _ ha hm hv, hs.lt, hs.below, hs.fresh, hs.used, he ▸ hs.state,
      he ▸ hs.ends, hs.base, hs.node,
      hs.prev⟩
  swing calls s j a ha hm h := by
    obtain ⟨hv, hs⟩ := h
    have hu : (s.swing j a).used anchor = true :=
      (Function.update_of_ne (hs.below.trans_le ha).ne _ _).trans hs.used
    exact ⟨hK.swing _ _ _ _ ha hm hv, hs.lt, hs.below, hs.fresh, hu, hs.state, hs.ends, hs.base,
      hs.node, hs.prev⟩
  free calls s a ha hm h :=
    ⟨hK.free _ _ _ ha hm h.1, h.2.lt, h.2.below, h.2.fresh, h.2.used, h.2.state, h.2.ends, h.2.base,
      h.2.node, h.2.prev⟩

theorem Keeps.settled (hK : Keeps set c b K) :
    Keeps set c b fun calls s => (K calls s ∧ Snap set d i anchor n m b s) ∧ Settled s d n m where
  later _ _ _ _ hi hc hk h := ⟨hK.snap.later _ _ _ _ hi hc hk h.1, settled_later h.1.2 hk h.2⟩
  write _ _ _ _ ha hm h := ⟨hK.snap.write _ _ _ _ ha hm h.1, h.2⟩
  swing _ _ _ _ ha hm h := ⟨hK.snap.swing _ _ _ _ ha hm h.1, h.2⟩
  free _ _ _ ha hm h := ⟨hK.snap.free _ _ _ ha hm h.1, h.2⟩

/-- While the anchor of a push is in place, the new node leads to the one next to it, and the link
back is missing or has been set. -/
theorem Snap.inPlace {s : Memory} (h : Snap set d i anchor n m b s) (hsh : Shape set s)
    (hp : s.anchor i = anchor) :
    s.link d.other n = some m ∧ (s.link d m = some n ∨ ¬ Settled s d n m) := by
  subst hp
  obtain ⟨xs, -, hl⟩ := hsh.deques i h.lt
  obtain ⟨n', m', he, hb, hnm⟩ := hl.pushed d h.state
  obtain rfl : n = n' := Option.some.inj (h.ends.symm.trans he)
  obtain rfl : m = m' := (Prod.mk.inj (Option.some.inj (h.base.symm.trans hb))).2
  constructor
  · rcases hl.links d.other m n (next_other.2 hnm) with hlink | ⟨hst, -⟩
    · exact hlink
    · exact absurd (AnchorState.push.inj (h.state.symm.trans hst)).symm (Side.other_ne d)
  · exact (hl.links d n m hnm).imp_right fun ⟨_, _, hlt⟩ => not_le.2 hlt

/-- The link of a new node that was loaded before the anchor was seen in place. -/
theorem Snap.prev_eq {s s' : Memory} {calls : List Call} (h : Snap set d i anchor n m b s)
    (hi : Inv set calls s) (hk : Kept set (.op c.op) s s') (hi' : Shape set s')
    (hp : s'.anchor i = anchor) : s.link d.other n = some m := by
  have hlink := ((h.later hk).inPlace hi' hp).1
  rcases hk.links n h.node d.other with he | ⟨k, hk', hr, hlt⟩
  · exact he.symm.trans hlink
  · obtain rfl : m = k := Option.some.inj (hlink.symm.trans hk')
    have hle := (hi.shape.base n d m h.base).2.2.1
    rw [(hk.nodes m h.prev).1] at hlt
    exact absurd hle (not_le.2 hlt)

/-- A link back that was loaded before the anchor was seen in place is missing as long as it does
not change. -/
theorem Snap.missing {s s' : Memory} {calls : List Call} {prevnext : Option ℕ}
    (h : Snap set d i anchor n m b s) (hi : Inv set calls s) (hv : s.link d m = prevnext)
    (hne : prevnext ≠ some n) (hk : Kept set (.op c.op) s s') (hi' : Shape set s')
    (hp : s'.anchor i = anchor) : s'.age prevnext < s'.rank n := by
  have hage : s'.age prevnext = s.age prevnext := by
    subst hv
    exact age_congr hi.shape.links (fun k hk' => (hk.nodes k hk').1) d m
  rcases ((h.later hk).inPlace hi' hp).2 with hlink | hset
  · -- it has been set in between
    rcases hk.links m h.prev d with he | ⟨k, hk', -, hlt⟩
    · exact absurd (hv.symm.trans (he.symm.trans hlink)) hne
    · obtain rfl : n = k := Option.some.inj (hlink.symm.trans hk')
      rw [hage, ← hv]
      exact hlt
  · have hle := hk.age_link_le h.prev d
    rw [hage, ← hv]
    exact hle.trans_lt (not_le.1 hset)

theorem linkCas_spec (hK : Keeps set c b K) (hv : At K v) (hs : Snap set d i anchor n m b v.state)
    {prevnext : Option ℕ} (hlt : v.state.age prevnext < v.state.rank n)
    (hval : ∀ k, prevnext = some k → v.state.rank k ≠ 0) :
    wp E.protocol c (linkCas own d i anchor m prevnext n) (fun linked v' =>
      (At K v' ∧ Snap set d i anchor n m b v'.state) ∧ (linked = true → Settled v'.state d n m) ∧
      (linked = false → own = true → v'.state.lost = false → v'.state.anchor i ≠ anchor)) v := by
  have hret : ∀ f : Memory → Bool × Memory, Prog.update f = (Prog.update f >>= Prog.ret) :=
    fun _ => rfl
  unfold linkCas
  rw [hret]
  refine wp.update_cases fun v₁ h₁ => ?_
  have hv₁ := hK.snap.le h₁ ⟨hv, hs⟩
  have hlt₁ : v₁.state.age prevnext < v₁.state.rank n := by
    rw [((kept_op h₁).nodes n hs.node).1]
    cases prevnext with
    | none => exact hlt
    | some k =>
      show v₁.state.rank k < v.state.rank n
      rw [((kept_op h₁).nodes k (hval k rfl)).1]
      exact hlt
  by_cases hlink : v₁.state.link d m = prevnext
  · have hset : ¬ Settled v₁.state d n m := by
      subst hlink
      exact not_le.2 hlt₁
    have hk : ∀ o, Kept set o v₁.state (v₁.state.setLink d m (some n)) := fun o =>
      .repair (inv_of v₁) hv₁.2.base hset
    have hv₂ := hK.snap.step (hk (.op c.op)) hv₁
    refine ⟨true, v₁.state.setLink d m (some n), ?_, fun _ => ⟨(), ?_, ?_⟩⟩
    · exact if_pos hlink
    · exact allows_step ((inv_of v₁).repair hv₁.2.base hset) fun o _ => hk o
    · refine ⟨hv₂, fun _ => ?_, nofun⟩
      show v₁.state.rank n ≤
        v₁.state.age (Function.update v₁.state.link d (Function.update (v₁.state.link d) m
          (some n)) d m)
      rw [Function.update_self, Function.update_self]
      exact le_rfl
  · by_cases hown : own = true ∧ v₁.state.anchor i = anchor
    · have hk : ∀ o, Kept set o v₁.state { v₁.state with lost := true } := fun o =>
        .windows (fun _ => le_rfl) (fun _ => le_rfl) fun _ => rfl
      have hv₂ := hK.snap.step (hk (.op c.op)) hv₁
      refine ⟨false, { v₁.state with lost := true }, ?_, fun _ => ⟨(), ?_, ?_⟩⟩
      · rw [if_neg hlink, if_pos hown]
      · exact allows_step (inv_of v₁).lose fun o _ => hk o
      · exact ⟨hv₂, nofun, fun _ _ hl => absurd hl Bool.noConfusion⟩
    · refine ⟨false, v₁.state, ?_, fun _ => ⟨(), wp.allows_self v₁, ?_⟩⟩
      · rw [if_neg hlink, if_neg hown]
      · rw [View.step_self]
        exact ⟨hv₁, nofun, fun _ ho _ hp => hown ⟨ho, hp⟩⟩

theorem repair_spec (hK : Keeps set c b K) (hv : At K v) (hs : Snap set d i anchor n m b v.state) :
    wp E.protocol c (repair own d i anchor m n) (fun linked v' =>
      (At K v' ∧ Snap set d i anchor n m b v'.state) ∧ (linked = true → Settled v'.state d n m) ∧
      (linked = false → own = true → v'.state.lost = false → v'.state.anchor i ≠ anchor)) v := by
  unfold repair
  refine wp.read fun v₁ h₁ => ?_
  have hv₁ := hK.snap.le h₁ ⟨hv, hs⟩
  split
  next hne =>
    refine wp.bind_of inPlace_spec fun same v₂ ⟨h₂, hsame⟩ => ?_
    have hv₂ := hK.snap.le h₂ hv₁
    cases same with
    | false => exact ⟨hv₂, nofun, fun _ _ _ hp => Bool.noConfusion (hsame.2 hp)⟩
    | true =>
      have hp := hsame.1 rfl
      refine linkCas_spec hK hv₂.1 hv₂.2 (hv₁.2.missing (inv_of v₁) rfl hne (kept_op h₂)
        (inv_of v₂).shape hp) ?_
      intro k hk
      have hr := (inv_of v₁).shape.links d m k hk
      exact ((kept_op h₂).nodes k hr).1.symm ▸ hr
  next heq =>
    have heq := not_not.1 heq
    refine ⟨hv₁, fun _ => ?_, nofun⟩
    show v₁.state.rank n ≤ v₁.state.age (v₁.state.link d m)
    rw [heq]
    exact le_rfl

/-! ### The stable anchor -/

theorem createAnchor_spec (hK : Keeps set c b K) (hv : At K v) (hb : b ≤ v.state.freshAnchor) :
    wp E.protocol c (createAnchor c) (fun a v' => At K v' ∧ b ≤ a ∧ MyAnchor c a v'.state) v := by
  unfold createAnchor
  intro v₁ h₁ _ _
  have hk : ∀ o, Kept set o v₁.state (v₁.state.createAnchor c) := fun o =>
    .createAnchor (inv_of v₁).shape c
  have hv₁ := hK.step (hk (.op c.op)) (hK.le h₁ hv)
  refine ⟨(), allows_step ((inv_of v₁).createAnchor c) fun o _ => hk o, hv₁,
    hb.trans (kept_op h₁).freshAnchor,
    Nat.lt_succ_self _, ?_, ?_, ?_⟩
  · exact Function.update_self ..
  · exact Function.update_self ..
  · exact Function.update_self ..

theorem writeAnchor_spec (hK : Keeps set c b K) (hv : At K v) (hb : b ≤ a)
    (ha : MyAnchor c a v.state) (x : Anchor) :
    wp E.protocol c (writeAnchor a x) (fun _ v' => At K v' ∧ MyAnchor c a v'.state ∧
      v'.state.anchors a = x) v := by
  unfold writeAnchor
  intro v₁ h₁ _ _
  have ha₁ := ha.later (kept_op h₁)
  refine ⟨(), allows_step ((inv_of v₁).writeAnchor ha₁.used x) fun o ho => .writeAnchor ha₁ ho x,
    hK.write _ _ _ _ hb ha₁ (hK.le h₁ hv), ⟨ha₁.lt, ha₁.maker, ha₁.used, ha₁.duty⟩, ?_⟩
  exact Function.update_self ..

/-- What was written to a new anchor is still there. -/
theorem MyAnchor.anchors_eq {s s' : Memory} {x : Anchor} (h : MyAnchor c a s)
    (hk : Kept set (.op c.op) s s') (hx : s.anchors a = x) : s'.anchors a = x :=
  (hk.ownAnchor c.op rfl a h.lt h.maker h.used).2.trans hx

theorem swingCas_spec (hK : Keeps set c b K) (hv : At K v) (hs : Snap set d i anchor n m b v.state)
    (hset : Settled v.state d n m) (hb : b ≤ a) (ha : MyAnchor c a v.state)
    (hx : v.state.anchors a = { v.state.anchors anchor with state := .stable }) :
    wp E.protocol c (swingCas i anchor a) (fun done v' => At K v' ∧ v'.state.anchor i ≠ anchor ∧
      (done = false → MyAnchor c a v'.state)) v := by
  unfold swingCas
  refine wp.cae (fun v₁ h₁ hp _ => ?_) fun v₁ h₁ hp => ?_
  · have hv₁ := hK.settled.le h₁ ⟨⟨hv, hs⟩, hset⟩
    have ha₁ := ha.later (kept_op h₁)
    have hp : v₁.state.anchor i = anchor := hp
    have hnow : v₁.state.now i = v₁.state.anchors anchor := by
      unfold Memory.now
      rw [hp]
    have hx₁ : v₁.state.anchors a = { v₁.state.now i with state := .stable } := by
      rw [ha.anchors_eq (kept_op h₁) hx, hnow, ((kept_op h₁).anchors anchor hs.used).1]
    have hst : (v₁.state.now i).state = .push d := hnow.symm ▸ hv₁.1.2.state
    have he : (v₁.state.now i).ends d = some n := hnow.symm ▸ hv₁.1.2.ends
    refine ⟨(), allows_step ((inv_of v₁).swing ha₁ hs.lt hx₁ hst he hv₁.1.2.base hv₁.2)
      fun o ho => .swing ha₁ ho,
      hK.swing _ _ _ _ hb ha₁ hv₁.1.1, ?_, nofun⟩
    show Function.update v₁.state.anchor i a i ≠ anchor
    rw [Function.update_self]
    exact (hs.below.trans_le hb).ne'
  · exact ⟨hK.le h₁ hv, hp, fun _ => ha.later (kept_op h₁)⟩

/-- An anchor that has been in place, and is not in place at `i` any more. -/
structure Gone (i anchor b : ℕ) (s : Memory) : Prop where
  below : anchor < b
  used : s.used anchor = true
  gone : s.anchor i ≠ anchor

theorem Gone.later {o : Owner} {s s' : Memory} (h : Gone i anchor b s) (hk : Kept set o s s') :
    Gone i anchor b s' :=
  ⟨h.below, (hk.anchors anchor h.used).2, fun hp => h.gone (hk.never anchor h.used i hp)⟩

theorem Keeps.gone (hK : Keeps set c b K) :
    Keeps set c b fun calls s => K calls s ∧ Gone i anchor b s where
  later _ _ _ _ hi hc hk h := ⟨hK.later _ _ _ _ hi hc hk h.1, h.2.later hk⟩
  write _ _ _ _ ha hm h := ⟨hK.write _ _ _ _ ha hm h.1, h.2.below, h.2.used, h.2.gone⟩
  swing calls s j a ha hm h := by
    obtain ⟨hv, hg⟩ := h
    have hne : anchor ≠ a := (hg.below.trans_le ha).ne
    refine ⟨hK.swing _ _ _ _ ha hm hv, hg.below, (Function.update_of_ne hne _ _).trans hg.used, ?_⟩
    show Function.update s.anchor j a i ≠ anchor
    by_cases hij : i = j
    · subst hij
      rw [Function.update_self]
      exact hne.symm
    · rw [Function.update_of_ne hij]
      exact hg.gone
  free _ _ _ ha hm h := ⟨hK.free _ _ _ ha hm h.1, h.2.below, h.2.used, h.2.gone⟩

/-- A new anchor that has not come into place is freed. -/
theorem freeNew_spec (hK : Keeps set c b K) (hv : At K v) (hb : b ≤ a) (ha : MyAnchor c a v.state) :
    wp E.protocol c (freeAnchor a) (fun _ v' => At K v') v := by
  unfold freeAnchor
  intro v₁ h₁ _ _
  have ha₁ := ha.later (kept_op h₁)
  refine ⟨(), allows_step ((inv_of v₁).freeAnchor ha₁.lt ha₁.duty fun j hj hp => ?_)
    fun o ho => .freeAnchor ha₁.duty ho, hK.free _ _ _ hb ha₁ (hK.le h₁ hv)⟩
  exact absurd hp (ha₁.ne ((inv_of v₁).shape.live j hj))

theorem settle_spec (hK : Keeps set c b K) (hv : At K v) (hs : Snap set d i anchor n m b v.state)
    (hset : Settled v.state d n m) {x : Anchor} (hx : v.state.anchors anchor = x) :
    wp E.protocol c (settle c i anchor x) (fun _ v' => At K v' ∧ v'.state.anchor i ≠ anchor) v := by
  have hK' : Keeps set c b fun calls s => ((K calls s ∧ Snap set d i anchor n m b s) ∧
    Settled s d n m) ∧
      s.anchors anchor = x :=
    { later := fun _ _ _ _ hi hc hk h => ⟨hK.settled.later _ _ _ _ hi hc hk h.1,
        (hk.anchors anchor h.1.1.2.used).1.trans h.2⟩
      write := fun _ _ _ _ ha hm h => ⟨hK.settled.write _ _ _ _ ha hm h.1,
        (Function.update_of_ne (h.1.1.2.below.trans_le ha).ne _ _).trans h.2⟩
      swing := fun _ _ _ _ ha hm h => ⟨hK.settled.swing _ _ _ _ ha hm h.1, h.2⟩
      free := fun _ _ _ ha hm h => ⟨hK.settled.free _ _ _ ha hm h.1, h.2⟩ }
  unfold settle
  refine wp.bind_of (createAnchor_spec hK' ⟨⟨⟨hv, hs⟩, hset⟩, hx⟩ hs.fresh)
    fun a v₁ ⟨hv₁, hb, ha⟩ => ?_
  refine wp.bind_of (writeAnchor_spec hK' hv₁ hb ha _) fun _ v₂ ⟨hv₂, ha₂, hx₂⟩ => ?_
  obtain ⟨⟨⟨hv₂, hs₂⟩, hset₂⟩, he₂⟩ := hv₂
  have hx₂ : v₂.state.anchors a = { v₂.state.anchors anchor with state := .stable } :=
    he₂.symm ▸ hx₂
  refine wp.bind_of (swingCas_spec hK.snap ⟨hv₂, hs₂⟩ hs₂ hset₂ hb ha₂ hx₂)
    fun done v₃ ⟨hv₃, hp, hfail⟩ => ?_
  obtain ⟨hv₃, hs₃⟩ := hv₃
  cases done with
  | true => exact ⟨hv₃, hp⟩
  | false =>
    exact (freeNew_spec hK.gone ⟨hv₃, hs₃.below, hs₃.used, hp⟩ hb (hfail rfl)).mono
      fun _ v₄ h₄ => ⟨h₄.1, h₄.2.gone⟩

theorem undefined_spec {α : Type} {Q : α → View E.protocol c → Prop} :
    wp E.protocol c undefined Q v :=
  wp.forever (fun _ _ => True) True.intro fun _ _ _ => True.intro

/-- `stabilize_left` and `stabilize_right`. If a push runs it and has not lost its link, its anchor
is out of place. -/
theorem stabilizeAt_spec (hK : Keeps set c b K) (hv : At K v) (hb : b ≤ v.state.freshAnchor)
    (hi : i < set.width) (hbelow : anchor < b) (hused : v.state.used anchor = true)
    (hst : (v.state.anchors anchor).state = .push d) :
    wp E.protocol c (stabilizeAt c own d i anchor) (fun _ v' => At K v' ∧
      (own = true → v'.state.lost = false → v'.state.anchor i ≠ anchor)) v := by
  unfold stabilizeAt
  refine wp.bind_of inPlace_spec fun same v₁ ⟨h₁, hsame₁⟩ => ?_
  have hv₁ := hK.le h₁ hv
  cases same with
  | false => exact ⟨hv₁, fun _ _ hp => Bool.noConfusion (hsame₁.2 hp)⟩
  | true =>
    have hp₁ := hsame₁.1 rfl
    obtain ⟨he₁, hu₁⟩ := (kept_op h₁).anchors anchor hused
    obtain ⟨n, m, hs₁⟩ : ∃ n m, Snap set d i anchor n m b v₁.state := by
      obtain ⟨xs, -, hl⟩ := (inv_of v₁).shape.deques i hi
      have hnow : v₁.state.now i = v₁.state.anchors anchor := by
        unfold Memory.now
        rw [hp₁]
      obtain ⟨n, m, he, hbase, -⟩ := hl.pushed d (by rw [hnow, he₁, hst])
      obtain ⟨hn, hm, -⟩ := (inv_of v₁).shape.base n d m hbase
      exact ⟨n, m, hi, hbelow, hb.trans (kept_op h₁).freshAnchor, hu₁, he₁ ▸ hst, hnow ▸ he, hbase,
        hn, hm⟩
    refine wp.read fun v₂ h₂ => ?_
    have hv₂ := hK.snap.le h₂ ⟨hv₁, hs₁⟩
    rw [hv₂.2.ends]
    refine wp.read fun v₃ h₃ => ?_
    have hv₃ := hK.snap.le h₃ hv₂
    refine wp.bind_of inPlace_spec fun same v₄ ⟨h₄, hsame₄⟩ => ?_
    have hv₄ := hK.snap.le h₄ hv₃
    cases same with
    | false => exact ⟨hv₄.1, fun _ _ hp => Bool.noConfusion (hsame₄.2 hp)⟩
    | true =>
      rw [hv₃.2.prev_eq (inv_of v₃) (kept_op h₄) (inv_of v₄).shape (hsame₄.1 rfl)]
      have hx : v₄.state.anchors anchor = v₂.state.anchors anchor :=
        ((kept_op h₄).anchors anchor hv₃.2.used).1.trans ((kept_op h₃).anchors anchor hv₂.2.used).1
      have hK' : Keeps set c b fun calls s => K calls s ∧ s.used anchor = true ∧
          s.anchors anchor = v₂.state.anchors anchor :=
        { later := fun _ _ _ _ hi hc hk h => by
            obtain ⟨he, hu⟩ := hk.anchors anchor h.2.1
            exact ⟨hK.later _ _ _ _ hi hc hk h.1, hu, he.trans h.2.2⟩
          write := fun _ _ _ _ ha hm h => ⟨hK.write _ _ _ _ ha hm h.1, h.2.1,
            (Function.update_of_ne (hbelow.trans_le ha).ne _ _).trans h.2.2⟩
          swing := fun _ _ _ _ ha hm h => ⟨hK.swing _ _ _ _ ha hm h.1,
            (Function.update_of_ne (hbelow.trans_le ha).ne _ _).trans h.2.1, h.2.2⟩
          free := fun _ _ _ ha hm h => ⟨hK.free _ _ _ ha hm h.1, h.2⟩ }
      refine wp.bind_of (repair_spec hK' ⟨hv₄.1, hv₄.2.used, hx⟩ hv₄.2)
        fun linked v₅ ⟨⟨hv₅, hs₅⟩, hset, hlost⟩ => ?_
      cases linked with
      | false => exact ⟨hv₅.1, hlost rfl⟩
      | true => exact (settle_spec hK hv₅.1 hs₅ (hset rfl) hv₅.2.2).mono fun _ v₆ h₆ =>
          ⟨h₆.1, fun _ _ => h₆.2⟩

theorem stabilize_spec (hK : Keeps set c b K) (hv : At K v) (hb : b ≤ v.state.freshAnchor)
    (hi : i < set.width) (hbelow : anchor < b) (hused : v.state.used anchor = true)
    (hst : (v.state.anchors anchor).state ≠ .stable) :
    wp E.protocol c (stabilize c i anchor) (fun _ v' => At K v') v := by
  unfold stabilize
  refine wp.read fun v₁ h₁ => ?_
  obtain ⟨he₁, hu₁⟩ := (kept_op h₁).anchors anchor hused
  have hb₁ := hb.trans (kept_op h₁).freshAnchor
  split
  next hpush =>
    exact (stabilizeAt_spec hK (hK.le h₁ hv) hb₁ hi hbelow hu₁ hpush).mono fun _ _ h => h.1
  next hpush =>
    refine (stabilizeAt_spec hK (hK.le h₁ hv) hb₁ hi hbelow hu₁ ?_).mono fun _ _ h => h.1
    rw [he₁] at hpush ⊢
    cases hs : (v.state.anchors anchor).state with
    | stable => exact absurd hs hst
    | push d =>
      cases d with
      | left => rfl
      | right => exact absurd hs hpush

end Specs

end TwoDdDeque
