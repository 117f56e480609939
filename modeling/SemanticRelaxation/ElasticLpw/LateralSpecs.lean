import SemanticRelaxation.ElasticLpw.Steps

/-!
# The lateral queue of the elastic LpW queue under interference

* `Along`: what the code keeps for its own call until it links its item;
* `tryEnqLateral_spec`: the change of the width in a put window gets one node;
* `getNextWindowLateral_spec`: the rows of a next get window have one width (`Uniform`), as far as
  the get window has not moved on since.
-/

namespace ElasticLpw

namespace Watched

open AtomicProg Linked MichaelScott Windowed

/-! ### Lateral nodes -/

/-- The lateral node `n` stands at position `p`, with its fields. -/
structure Stands (p n : ℕ) (val : LateralNode) (s : State) : Prop where
  line : (s.lateral.line 0)[p]? = some n
  val : (s.lateral.heap n).val = val

section Nodes

variable {set : Params} {s : State} {w : Watch} {g : Ghost} {x x' : (State × Watch) × Ghost}
  {u : PutWindow} {val val' : LateralNode} {count p q n t : ℕ}

theorem Stands.node (h : Stands p n val s) : s.lateralNodes[p]? = some val := by
  rw [State.lateralNodes, List.getElem?_map, h.line, Option.map_some, h.val]

theorem Stands.mem (h : Stands p n val s) : val ∈ s.lateralNodes := List.mem_of_getElem? h.node

theorem Stands.of_line (h : (s.lateral.line 0)[p]? = some n) :
    Stands p n (s.lateral.heap n).val s :=
  ⟨h, rfl⟩

theorem Stands.later (h : Stands p n val x.1.1) (hi : Inv set x.1.1 x.1.2 x.2) (hl : Later x x') :
    Stands p n val x'.1.1 where
  line := hl.lateral.getElem? h.line
  val := (hl.lateral.val n
    (hi.lines.lt_fresh 0 one_pos n (List.mem_of_getElem? h.line))).trans h.val

theorem Stands.next (h : Stands p n val s) (hi : Inv set s w g) :
    (s.lateral.deref (some n)).next = (s.lateral.line 0)[p + 1]? :=
  hi.lines.next 0 one_pos p n h.line

namespace Inv

variable (h : Inv set s w g)
include h

theorem count_lt (hp : s.lateralNodes[p]? = some val) (hq : s.lateralNodes[q]? = some val')
    (hpq : p < q) : val.count < val'.count := by
  obtain ⟨hpl, rfl⟩ := List.getElem?_eq_some_iff.1 hp
  obtain ⟨hql, rfl⟩ := List.getElem?_eq_some_iff.1 hq
  exact List.pairwise_iff_getElem.1 h.sorted p q hpl hql hpq

theorem count_mono (hp : s.lateralNodes[p]? = some val) (hq : s.lateralNodes[q]? = some val')
    (hpq : p ≤ q) : val.count ≤ val'.count := by
  rcases hpq.lt_or_eq with hlt | rfl
  · exact (h.count_lt hp hq hlt).le
  · exact (congrArg LateralNode.count (Option.some.inj (hp.symm.trans hq))).le

/-- A put window whose change of the width is not recorded is the present one. -/
theorem present_of_count (hu : u ∈ windows s g) (hne : u.width ≠ u.nextWidth)
    (hp : s.lateralNodes[p]? = some val) (hrec : (recorded (windows s g)).length ≤ p + 1)
    (hc : val.count ≤ u.max) : u = s.globalPWindow := by
  rcases List.mem_cons.1 hu with rfl | hu
  · rfl
  · obtain ⟨v, hv, hcount⟩ := h.history.mem_recorded hu hne
    obtain ⟨i, hi⟩ := List.mem_iff_getElem?.1 hv
    have hlt : i < (recorded (windows s g)).length := (List.getElem?_eq_some_iff.1 hi).1
    obtain ⟨pend, -, he⟩ := h.pending
    have hi' : s.lateralNodes[i]? = some v := by
      rw [he]
      exact (List.getElem?_append_left hlt).trans hi
    have hle := h.count_mono hi' hp (by omega)
    omega

/-- A node behind those recorded is above the put window. -/
theorem lt_count (hrec : (recorded (windows s g)).length ≤ p)
    (hp : s.lateralNodes[p]? = some val) : s.globalPWindow.max < val.count := by
  obtain ⟨pend, hpend, he⟩ := h.pending
  rw [he, List.getElem?_append_right hrec] at hp
  cases hpend with
  | nil => cases hp
  | node =>
    obtain rfl := List.mem_singleton.1 (List.mem_of_getElem? hp)
    exact Nat.lt_succ_self _

theorem tail_line : (s.lateral.line 0)[g.tailPos]? = s.lateralTail :=
  h.lateral.valid.tail 0 one_pos

theorem tail_stands : ∃ t val, s.lateralTail = some t ∧ Stands g.tailPos t val s := by
  obtain ⟨t, ht⟩ : ∃ t, s.lateralTail = some t := h.lateral.valid.tail_some one_pos
  exact ⟨t, _, ht, .of_line (h.tail_line.trans ht)⟩

theorem line_inj (hp : (s.lateral.line 0)[p]? = some n) (hq : (s.lateral.line 0)[q]? = some n) :
    p = q := h.lateral.valid.pos_inj one_pos hp hq

/-- The tail has passed a node for rows from `count` on. -/
theorem reached (hp : s.lateralNodes[p]? = some val) (hle : p ≤ g.tailPos)
    (hc : count ≤ val.count) :
    Reached count s g := by
  obtain ⟨t, val', -, ht⟩ := h.tail_stands
  exact ⟨val', ht.node, hc.trans (h.count_mono hp ht.node hle)⟩

end Inv

theorem Reached.later (h : Reached count x.1.1 x.2) (hi : Inv set x'.1.1 x'.1.2 x'.2)
    (hl : Later x x') : Reached count x'.1.1 x'.2 := by
  obtain ⟨val, hp, hc⟩ := h
  exact hi.reached (hl.nodes.getElem?_of_some hp) (hl.lateral.put 0) hc

/-- A node that comes behind those recorded is above the put window. -/
theorem Later.lt_count (hl : Later x x') (hi : Inv set x.1.1 x.1.2 x.2)
    (hrec : (recorded (windows x.1.1 x.2)).length ≤ p) (hp : x'.1.1.lateralNodes[p]? = some val) :
    x.1.1.globalPWindow.max < val.count := by
  by_cases hlt : p < x.1.1.lateralNodes.length
  · exact hi.lt_count hrec ((hl.nodes.getElem?_of_lt hlt).symm.trans hp)
  · exact hl.newer p val hp (not_lt.1 hlt)

theorem Later.mem_windows (hl : Later x x') (hu : u ∈ windows x.1.1 x.2) :
    u ∈ windows x'.1.1 x'.2 := hl.history.mem hu

end Nodes

variable {L : Type} {S : Service (State × Watch) L} {set : Params}
  {E : Results S (regime S.Call set)} {c : Caller} {v v₁ v₂ : View E.protocol c}

theorem inv_of (v : View E.protocol c) : Inv set v.state.1 v.state.2 v.now.2 := v.inv_pair

/-- A step that keeps the invariant and what belongs to the others. -/
theorem allows_step (v : View E.protocol c) {s : State} {w : Watch} {g : Ghost} (hi : Inv set s w g)
    (hf : ∀ o, ¬ c.Is o → Kept set.maxWidth o v.pair ((s, w), g)) :
    E.protocol.Allows c v.now (v.after (s, w) g) := Regime.allows v hi hf

/-- What a call keeps for itself until it links its item. -/
structure Along (v v' : View E.protocol c) : Prop where
  later : Later v.pair v'.pair
  owned : Frame set.maxWidth (.op c.op) (placed v.state.1.queues v.now.2.places)
    v.now.2.places.owner (placed v'.state.1.queues v'.now.2.places) v'.now.2.places.owner

theorem later_of_le (h : v ≤ v₁) : Later v.pair v₁.pair := (View.frame_op h).toLater

namespace Along

theorem of_le (h : v ≤ v₁) : Along v v₁ := ⟨later_of_le h, (View.frame_op h).owned⟩

theorem refl (v : View E.protocol c) : Along v v := .of_le le_rfl

theorem trans (h : Along v v₁) (h' : Along v₁ v₂) : Along v v₂ :=
  ⟨h.later.trans h'.later, h.owned.trans h'.owned⟩

theorem step {x : State × Watch} {g : Ghost} {h : E.protocol.inv (v.after x g)}
    (hk : Kept set.maxWidth (.op c.op) v.pair (x, g)) : Along v (v.step x g h) :=
  ⟨hk.toLater, hk.owned⟩

end Along

/-- An assertion that holds in the runs that have not been overtaken. -/
theorem assert_spec {b : Bool} (hb : v.state.2.overtaken = false → b = true) :
    wp E.protocol c (assert b).onFst (fun _ v' => Along v v') v := by
  cases b with
  | true => exact Along.refl v
  | false =>
    intro v₁ h₁ _ _
    have hw := (later_of_le h₁).watch
    have hi := inv_of v₁
    have hk : ∀ o, Kept set.maxWidth o v₁.pair (({ v₁.state.1 with failed := true }, v₁.state.2),
      v₁.now.2) :=
      fun o => Kept.onSettings (s := v₁.state.1) _ _ _ (.refl _)
    refine ⟨v₁.now.2, allows_step v₁ ?_ fun o _ => hk o, (Along.of_le h₁).trans (.step (hk _))⟩
    exact hi.onSettings (.refl _) hi.width hi.depth
      (fun hc => absurd (hb (hw.overtaken hc)) Bool.false_ne_true) hi.noted

/-- An assertion that always holds. -/
theorem assert_true {b : Bool} (hb : b = true) :
    wp E.protocol c (assert b).onFst (fun _ v' => Along v v') v := assert_spec fun _ => hb

/-! ### The node for a put window that changes the width -/

theorem linkLateral_spec {w : PutWindow} {q t : ℕ} {val : LateralNode}
    (hw : w ∈ windows v.state.1 v.now.2) (hne : w.width ≠ w.nextWidth)
    (ht : Stands q t val v.state.1) (hq : q ≤ v.now.2.tailPos) (hc : val.count ≤ w.max) :
    wp E.protocol c (linkLateral (some t) (w.max + 1) w.nextWidth).onFst (fun r v' =>
      Along v v' ∧ ∃ k, r = some k ∧ (v'.state.1.lateral.line 0)[q + 1]? = some k) v := by
  refine wp.read_fst fun v₁ h₁ => ?_
  have hl₁ := later_of_le h₁
  have hnext := (ht.later (inv_of v) hl₁).next (inv_of v₁)
  split
  next =>
    refine wp.update_fst fun v₂ h₂ _ => ?_
    have hk₂ := fun o => (inv_of v₂).createLateral_kept (n := set.maxWidth) (o := o)
      ⟨w.max + 1, w.nextWidth⟩ c.op
    have hall₂ := allows_step v₂ ((inv_of v₂).createLateral ⟨w.max + 1, w.nextWidth⟩ c.op)
      fun o _ => hk₂ o
    refine ⟨_, hall₂, ?_⟩
    have hs₂ := (Along.of_le (h₁.trans h₂)).trans (.step (h := hall₂.inv) (hk₂ _))
    -- the call's node stays its own until it is linked
    have hmine : Unlinked 1 (v₂.state.1.lateral.create ⟨w.max + 1, w.nextWidth⟩)
        v₂.state.1.lateral.fresh := .create (inv_of v₂).lines _
    have hown₂ : Function.update v₂.now.2.lateralOwner v₂.state.1.lateral.fresh c.op
        v₂.state.1.lateral.fresh = c.op := Function.update_self ..
    have hnew : Function.update v₂.state.1.lateral.heap v₂.state.1.lateral.fresh
        ⟨⟨w.max + 1, w.nextWidth⟩, none⟩ v₂.state.1.lateral.fresh = ⟨⟨w.max + 1, w.nextWidth⟩,
          none⟩ :=
      Function.update_self ..
    refine wp.cae_fst (fun v₃ h₃ he _ => ?_) fun v₃ h₃ he => ?_
    · have hf := (View.frame_op h₃).ownedLateral
      have hs₃ := hs₂.trans (.of_le h₃)
      have ht₃ := ht.later (inv_of v) hs₃.later
      have hown : v₃.now.2.lateralOwner v₂.state.1.lateral.fresh = c.op :=
        (hf.owner _ hmine.lt_fresh).trans hown₂
      have hk : Unlinked 1 v₃.state.1.lateral v₂.state.1.lateral.fresh :=
        hf.unlinked _ (congrArg Owner.op hown₂.symm) hmine
      have hkval : (v₃.state.1.lateral.heap v₂.state.1.lateral.fresh).val = ⟨w.max + 1,
        w.nextWidth⟩ :=
        (hf.grows.val _ hmine.lt_fresh).trans (congrArg Node.val hnew)
      -- the window is the present one, as its node would be behind `t`
      have hlast : q + 1 = (v₃.state.1.lateral.line 0).length :=
        (inv_of v₃).lines.last one_pos ht₃.line he
      have hrec : (recorded (windows v₃.state.1 v₃.now.2)).length ≤ q + 1 := by
        obtain ⟨pend, -, hpend⟩ := (inv_of v₃).pending
        rw [hlast, ← length_lateralNodes, hpend, List.length_append]
        exact Nat.le_add_right _ _
      have hnow := (inv_of v₃).present_of_count (hs₃.later.mem_windows hw) hne ht₃.node hrec hc
      have hq₃ : q ≤ v₃.now.2.tailPos := hq.trans (hs₃.later.lateral.put 0)
      have hall₃ := allows_step v₃ ((inv_of v₃).appendLateral ht₃.line hq₃ he hk
        (by rw [ht₃.val, ← hnow]; exact hc) (by rw [hkval, ← hnow]) (by rw [← hnow]; exact hne))
        fun o ho => Kept.appendLateral ho hown ht₃.line (by rw [hkval, ← hnow])
      refine ⟨_, hall₃, hs₃.trans ⟨.appendLateral (by rw [hkval, ← hnow]), .refl _ _ _⟩, _, rfl, ?_⟩
      show ((v₃.state.1.lateral.append 0 (some t) v₂.state.1.lateral.fresh).line 0)[q + 1]? = _
      rw [Cells.append_line_self, hlast, List.getElem?_concat_length]
    · have hs₃ := hs₂.trans (.of_le h₃)
      obtain ⟨k, hk⟩ := Option.ne_none_iff_exists'.1 he
      exact ⟨hs₃, k, hk, ((ht.later (inv_of v) hs₃.later).next (inv_of v₃)).symm.trans hk⟩
  next hsome =>
    obtain ⟨k, hk⟩ := Option.ne_none_iff_exists'.1 hsome
    exact ⟨.of_le h₁, k, hk, hnext.symm.trans hk⟩

theorem tryEnqLateral_spec {w : PutWindow} (hw : w ∈ windows v.state.1 v.now.2)
    (hne : w.width ≠ w.nextWidth) : wp E.protocol c (tryEnqLateral (w.max + 1) w.nextWidth).onFst
      (fun _ v' => Along v v' ∧ Reached (w.max + 1) v'.state.1 v'.now.2) v := by
  refine wp.read_fst fun v₁ h₁ => ?_
  have hl₁ := later_of_le h₁
  obtain ⟨t, val, htail, ht⟩ := (inv_of v₁).tail_stands
  rw [htail]
  refine wp.read_fst fun v₂ h₂ => ?_
  have hl₂ := later_of_le h₂
  have ht₂ := ht.later (inv_of v₁) hl₂
  rw [Cells.deref_some, ht₂.val]
  have hs₂ := Along.of_le (h₁.trans h₂)
  split
  next hlt =>
    -- the window was the present one when the tail was loaded, as it is behind what is recorded
    have hrec := (inv_of v₁).lateral.tail
    have hnow := (inv_of v₁).present_of_count (hl₁.mem_windows hw) hne ht.node hrec
      (Nat.lt_succ_iff.1 hlt)
    have hrow : ∀ {x' : (State × Watch) × Ghost} {k : ℕ}, Later v₁.pair x' →
        (x'.1.1.lateral.line 0)[v₁.now.2.tailPos + 1]? = some k →
        w.max + 1 ≤ (x'.1.1.lateral.heap k).val.count := by
      intro x' k hl hk
      have := hl.lt_count (inv_of v₁) hrec (Stands.of_line hk).node
      rwa [← hnow] at this
    refine wp.bind_fst (linkLateral_spec (hs₂.later.mem_windows hw) hne ht₂
      (hl₂.lateral.put 0) (Nat.lt_succ_iff.1 hlt)) ?_
    rintro _ v₃ ⟨hs₃, k, rfl, hk⟩
    refine wp.bind_fst (assert_true rfl) fun _ v₄ hs₄ => ?_
    have hl₄ := hl₂.trans (hs₃.later.trans hs₄.later)
    have hk₄ := hs₄.later.lateral.getElem? hk
    refine wp.cae_fst (fun v₅ h₅ he _ => ?_) fun v₅ h₅ he => ?_
    · have hl₅ := later_of_le h₅
      have hk₅ := hl₅.lateral.getElem? hk₄
      have hpos := (inv_of v₅).line_inj ((ht.later (inv_of v₁) (hl₄.trans hl₅)).line)
        ((inv_of v₅).tail_line.trans he)
      have hi := (inv_of v₅).swingLateral (hpos ▸ hk₅)
      have hk := fun o => Kept.swingLateral (s := v₅.state.1) (w := v₅.state.2) (g := v₅.now.2)
        (n := set.maxWidth) (k := k) (o := o)
      refine ⟨_, allows_step v₅ hi fun o _ => hk o,
        (hs₂.trans (hs₃.trans (hs₄.trans (.of_le h₅)))).trans (.step (hk _)), ?_⟩
      exact hi.reached (p := v₁.now.2.tailPos + 1) (Stands.of_line hk₅).node
        (Nat.succ_le_succ hpos.le) (hrow (hl₄.trans hl₅) hk₅)
    · have hl₅ := later_of_le h₅
      have hk₅ := hl₅.lateral.getElem? hk₄
      refine ⟨hs₂.trans (hs₃.trans (hs₄.trans (.of_le h₅))),
        (inv_of v₅).reached (Stands.of_line hk₅).node ?_ (hrow (hl₄.trans hl₅) hk₅)⟩
      -- another thread has moved the tail
      refine lt_of_le_of_ne ((hl₄.trans hl₅).lateral.put 0) fun hpos => he ?_
      have htail₅ := (inv_of v₅).tail_line
      rw [← show v₁.now.2.tailPos = v₅.now.2.tailPos from hpos,
        (ht.later (inv_of v₁) (hl₄.trans hl₅)).line] at htail₅
      exact htail₅.symm
  next hge => exact ⟨hs₂, (inv_of v₂).reached ht₂.node (hl₂.lateral.put 0) (not_lt.1 hge)⟩

theorem maybeEnqLateral_spec {w : PutWindow} (hw : w ∈ windows v.state.1 v.now.2) :
    wp E.protocol c (maybeEnqLateral w.max w.width w.nextWidth).onFst (fun _ v' => Along v v' ∧
      (w.width ≠ w.nextWidth → Reached (w.max + 1) v'.state.1 v'.now.2)) v := by
  unfold maybeEnqLateral
  split
  next hne =>
    exact (tryEnqLateral_spec hw hne).mono fun _ _ h => ⟨h.1, fun _ => h.2⟩
  next heq => exact ⟨.refl v, fun hne => absurd hne heq⟩

/-! ### Walks along the lateral nodes -/

/-- The loops over the lateral nodes: they stand at position `p`, with the successor that they have
loaded. Rows up to `m` have no node behind the end of the list. -/
structure Walk (head count m p : ℕ) (val : LateralNode) (st : Option ℕ × Option ℕ) (s : State) :
    Prop where
  stands : ∃ a, st.1 = some a ∧ Stands p a val s
  passed : p = head ∨ val.count ≤ count
  lookahead : ∀ b, st.2 = some b → (s.lateral.line 0)[p + 1]? = some b
  ahead : st.2 = none → ∀ u, s.lateralNodes[p + 1]? = some u → m < u.count

/-- The walk has come to the last node with a count up to `count`. -/
def Stops (count p : ℕ) (st : Option ℕ × Option ℕ) (s : State) : Prop :=
  st.2 = none ∨ ∃ b val, st.2 = some b ∧ Stands (p + 1) b val s ∧ count < val.count

section Walks

variable {x x' : (State × Watch) × Ghost} {head count m p a : ℕ} {val : LateralNode}
  {st : Option ℕ × Option ℕ}

theorem Walk.later (h : Walk head count m p val st x.1.1) (hi : Inv set x.1.1 x.1.2 x.2)
    (hl : Later x x') (hm : m ≤ x.1.1.globalPWindow.max) : Walk head count m p val st x'.1.1 where
  stands := by
    obtain ⟨a, ha, hs⟩ := h.stands
    exact ⟨a, ha, hs.later hi hl⟩
  passed := h.passed
  lookahead b hb := hl.lateral.getElem? (h.lookahead b hb)
  ahead hnone u hu := by
    by_cases hlt : p + 1 < x.1.1.lateralNodes.length
    · exact h.ahead hnone u ((hl.nodes.getElem?_of_lt hlt).symm.trans hu)
    · exact hm.trans_lt (hl.newer _ u hu (not_lt.1 hlt))

theorem Stops.later (h : Stops count p st x.1.1) (hi : Inv set x.1.1 x.1.2 x.2) (hl : Later x x') :
    Stops count p st x'.1.1 :=
  h.imp id fun ⟨b, val, hb, hs, hc⟩ => ⟨b, val, hb, hs.later hi hl, hc⟩

/-- The walk where the successor of its node has just been loaded. -/
theorem Walk.of_next {s : State} {w : Watch} {g : Ghost} (hi : Inv set s w g)
    (hs : Stands p a val s) (hp : p = head ∨ val.count ≤ count) :
    Walk head count m p val (some a, (s.lateral.deref (some a)).next) s where
  stands := ⟨a, rfl, hs⟩
  passed := hp
  lookahead b hb := (hs.next hi).symm.trans hb
  ahead hnone u hu := by
    have hnone : (s.lateral.line 0)[p + 1]? = none := (hs.next hi).symm.trans hnone
    rw [State.lateralNodes, List.getElem?_map, hnone] at hu
    cases hu

end Walks

theorem skipLateral_spec {q count m p : ℕ} {val : LateralNode} {st : Option ℕ × Option ℕ}
    (h : Walk q count m p val st v.state.1) (hm : m ≤ v.state.1.globalPWindow.max) :
    wp E.protocol c (Prog.forever (skipLateral count) st).onFst (fun r v' => Along v v' ∧
      ∃ p val, Walk q count m p val r v'.state.1 ∧ Stops count p r v'.state.1) v := by
  refine wp.forever_fst (fun st' v' => Along v v' ∧ ∃ p val, Walk q count m p val st' v'.state.1)
    ⟨.refl v, p, val, h⟩ ?_
  rintro ⟨current, lookahead⟩ v₁ ⟨hs₁, p, val, hw⟩
  unfold skipLateral
  dsimp only
  split
  next hnone => exact ⟨hs₁, p, val, hw, .inl hnone⟩
  next hsome =>
    obtain ⟨b, rfl⟩ := Option.ne_none_iff_exists'.1 hsome
    refine wp.read_fst fun v₂ h₂ => ?_
    have hl₂ := later_of_le h₂
    have hm₁ := hm.trans hs₁.later.put_le
    have hw₂ := hw.later (inv_of v₁) hl₂ hm₁
    have hb : Stands (p + 1) b _ v₂.state.1 := .of_line (hw₂.lookahead b rfl)
    split
    next hle =>
      refine wp.read_fst fun v₃ h₃ => ?_
      exact ⟨hs₁.trans (.of_le (h₂.trans h₃)), p + 1, _,
        .of_next (inv_of v₃) (hb.later (inv_of v₂) (later_of_le h₃)) (.inr hle)⟩
    next hgt =>
      exact ⟨hs₁.trans (.of_le h₂), p, val, hw₂, .inr ⟨b, _, rfl, hb, not_le.1 hgt⟩⟩

theorem deqLateral_spec {max : ℕ} (hm : max ≤ v.state.1.globalGWindow.max) :
    wp E.protocol c (deqLateral max).onFst (fun _ v' => Along v v') v := by
  refine wp.read_fst fun v₁ h₁ => ?_
  obtain ⟨q, a, ha, hq, -⟩ := (inv_of v₁).head
  rw [ha]
  refine wp.read_fst fun v₂ h₂ => ?_
  have hl₂ := later_of_le h₂
  have hs : Stands q a _ v₂.state.1 := (Stands.of_line hq).later (inv_of v₁) hl₂
  refine wp.bind_fst (skipLateral_spec (q := q) (.of_next (inv_of v₂) hs (.inl rfl))
    (Nat.zero_le _)) ?_
  rintro ⟨newHead, probe⟩ v₃ ⟨hwalk, p, val, hw, -⟩
  have hs₃ := (Along.of_le (h₁.trans h₂)).trans hwalk
  dsimp only
  split
  next hne =>
    obtain ⟨b, rfl, hb⟩ := hw.stands
    refine wp.cae_fst (fun v₄ h₄ _ _ => ?_) fun v₄ h₄ _ => hs₃.trans (.of_le h₄)
    have hl₄ := later_of_le h₄
    have hb₄ := hb.later (inv_of v₃) hl₄
    -- another node than the old head has a count up to the maximum
    have hle : val.count ≤ max := hw.passed.resolve_left fun hp => hne ?_
    · have hle₄ : (v₄.state.1.lateral.heap b).val.count ≤ v₄.state.1.globalGWindow.max := by
        rw [hb₄.val]
        exact hle.trans (hm.trans (hs₃.later.get_le.trans hl₄.get_le))
      have hk := fun o => Kept.moveHead (s := v₄.state.1) (w := v₄.state.2) (g := v₄.now.2)
        (n := set.maxWidth) (k := b) (o := o)
      exact ⟨_, allows_step v₄ ((inv_of v₄).moveHead hb₄.line hle₄) fun o _ => hk o,
        (hs₃.trans (.of_le h₄)).trans (.step (hk _))⟩
    · have hline := (hs.later (inv_of v₂) hwalk.later).line
      rw [← hp, hb.line] at hline
      exact hline.symm
  next => exact hs₃

/-! ### The next get window -/

section Rows

variable {x x' : (State × Watch) × Ghost} {prev max width r : ℕ}

/-- The rows of the put windows keep their widths. -/
theorem Later.rowWidth (hl : Later x x') (hi : Inv set x.1.1 x.1.2 x.2)
    (hi' : Inv set x'.1.1 x'.1.2 x'.2) (h0 : 0 < r) (hr : r ≤ x.1.1.globalPWindow.max) :
    rowWidth x'.1.1 x'.2 r = rowWidth x.1.1 x.2 r := by
  obtain ⟨t, ht, hb, hm⟩ := hi.spans.exists_mem (s := x.1.1.globalPWindow.span) h0 hr
  have ht : t ∈ (windows x.1.1 x.2).map PutWindow.span := ht
  obtain ⟨u, hu, rfl⟩ := List.mem_map.1 ht
  have h₁ := hi.spans.widthOf_eq (List.mem_map_of_mem hu) hb hm
  have h₂ := hi'.spans.widthOf_eq (List.mem_map_of_mem (hl.mem_windows hu)) hb hm
  exact h₂.trans h₁.symm

/-- The rows above `prev` up to `max` have one width, if the get window has not moved on above
`prev`. -/
def Uniform (prev max width : ℕ) (x : (State × Watch) × Ghost) : Prop :=
  x.1.1.globalGWindow.max ≤ prev → ∀ r, prev < r → r ≤ max → rowWidth x.1.1 x.2 r = width

theorem Uniform.later (h : Uniform prev max width x) (hl : Later x x')
    (hi : Inv set x.1.1 x.1.2 x.2) (hi' : Inv set x'.1.1 x'.1.2 x'.2)
    (hm : max ≤ x.1.1.globalPWindow.max) : Uniform prev max width x' := by
  intro hle r hb hr
  rw [hl.rowWidth hi hi' (Nat.zero_lt_of_lt hb) (hr.trans hm)]
  exact h (hl.get_le.trans hle) r hb hr

end Rows

/-- A next get window for a thread with the maximum `prev`, its rows not above `n`. -/
structure NextRows (set : Params) (prev n : ℕ) (r : ℕ × ℕ) (x : (State × Watch) × Ghost) :
    Prop where
  width : 0 < r.1 ∧ r.1 ≤ set.maxWidth
  ge : prev ≤ r.2
  gt : prev < n → prev < r.2
  le : r.2 ≤ n
  uniform : Uniform prev r.2 r.1 x

theorem cutMax_spec {prev n p : ℕ} {current lookahead : Option ℕ} (hn : prev ≤ n)
    (h : Stops (prev + 1) p (current, lookahead) v.state.1) :
    wp E.protocol c (cutMax lookahead n).onFst (fun m v' => v ≤ v' ∧ prev ≤ m ∧
      (prev < n → prev < m) ∧ m ≤ n ∧ (lookahead = none ∨ ∃ b val, lookahead = some b ∧
        Stands (p + 1) b val v'.state.1 ∧ m < val.count)) v := by
  unfold cutMax
  rcases h with hnone | ⟨b, val, hb, hs, hc⟩
  · rw [if_pos hnone]
    exact ⟨le_rfl, hn, id, le_rfl, .inl hnone⟩
  · obtain rfl : lookahead = some b := hb
    refine wp.read_fst fun v₁ h₁ => ?_
    have hs₁ := hs.later (inv_of v) (later_of_le h₁)
    rw [Cells.deref_some, hs₁.val]
    have hsub : Words.usub 64 val.count 1 = val.count - 1 := Words.usub_of_le (by omega)
    split
    next hle =>
      rw [hsub]
      exact ⟨h₁, by omega, fun _ => by omega, by omega, .inr ⟨b, val, rfl, hs₁, by omega⟩⟩
    next hgt => exact ⟨h₁, hn, id, le_rfl, .inr ⟨b, val, rfl, hs₁, not_le.1 hgt⟩⟩

/-- The width of the rows from the count of a node on, up to the next one. -/
theorem Inv.rowWidth_eq {s : State} {w : Watch} {g : Ghost} (h : Inv set s w g) {p r : ℕ}
    {val : LateralNode} (hp : s.lateralNodes[p]? = some val) (h0 : 0 < r) (hc : val.count ≤ r)
    (hnext : ∀ u, s.lateralNodes[p + 1]? = some u → r < u.count) (hr : r ≤ s.globalPWindow.max) :
    rowWidth s g r = val.width := by
  have hlast : lastLateral s.lateralNodes r = some val := by
    refine lastLateral_eq h.sorted hp hc fun k u hk hu => ?_
    have hlt : p + 1 < s.lateralNodes.length := by
      have := (List.getElem?_eq_some_iff.1 hu).1
      omega
    exact (hnext _ (List.getElem?_eq_getElem hlt)).trans_le
      (h.count_mono (List.getElem?_eq_getElem hlt) hu hk)
  rw [← h.widthAt_eq h0 hr, widthAt, hlast]
  rfl

theorem getNextWindowLateral_spec {prev n : ℕ} (hn : prev ≤ n)
    (hput : n ≤ v.state.1.globalPWindow.max) :
    wp E.protocol c (getNextWindowLateral prev n)
      (fun r v' => Along v v' ∧ NextRows set prev n r v'.pair) v := by
  refine wp.update fun v₁ h₁ _ => ?_
  obtain ⟨q, a, ha, hq, hcount⟩ := (inv_of v₁).head
  have hhead : Stands q a _ v₁.state.1 := .of_line hq
  have hw₁ : v₁.state.2.Before { v₁.state.2 with
      overtaken := v₁.state.2.overtaken || decide (Overtakes n v₁.state.1) } :=
    ⟨fun h => (Bool.or_eq_false_iff.1 h).1, id, id⟩
  have hi₁ := (inv_of v₁).onSettings hw₁ (inv_of v₁).width (inv_of v₁).depth
    (fun h => (inv_of v₁).asserted (hw₁.overtaken h)) (inv_of v₁).noted
  have hk₁ := fun o => Kept.onSettings (s := v₁.state.1) (g := v₁.now.2) (n := set.maxWidth)
    (o := o)
    v₁.state.1.width v₁.state.1.depth v₁.state.1.failed hw₁
  have hall₁ := allows_step v₁ hi₁ fun o _ => hk₁ o
  refine ⟨_, hall₁, ?_⟩
  have hs₁ := (Along.of_le h₁).trans (.step (h := hall₁.inv) (hk₁ _))
  -- the head is not above the next maximum, unless the thread has been overtaken
  have hover : (v₁.step _ _ hall₁.inv).state.2.overtaken = false →
      (v₁.state.1.lateral.heap a).val.count ≤ n := by
    intro h
    have hnot := of_decide_eq_false (Bool.or_eq_false_iff.1 h).2
    exact not_lt.1 fun hlt => hnot ⟨_, hhead.mem, hlt, hcount⟩
  dsimp only
  rw [ha]
  refine wp.read_fst fun v₂ h₂ => ?_
  have hs₂ := hs₁.trans (.of_le h₂)
  have hhead₂ : Stands q a _ v₂.state.1 := hhead.later hi₁ (later_of_le h₂)
  have hwalk : Walk q (prev + 1) n q _ (some a, _) v₂.state.1 :=
    .of_next (inv_of v₂) hhead₂ (.inl rfl)
  refine wp.bind_fst (assert_true rfl) fun _ v₃ hs₃ => wp.read_fst fun v₄ h₄ => ?_
  have hs₄ := hs₃.trans (.of_le h₄)
  have hhead₄ := hhead₂.later (inv_of v₂) hs₄.later
  rw [Cells.deref_some, hhead₄.val]
  refine wp.bind_fst (assert_spec fun h => decide_eq_true (hover ?_)) fun _ v₅ hs₅ => ?_
  · exact ((later_of_le h₂).trans hs₄.later).watch.overtaken h
  have hs₂₅ := hs₄.trans hs₅
  have hwalk₅ := hwalk.later (inv_of v₂) hs₂₅.later (hput.trans hs₂.later.put_le)
  have hput₅ := hput.trans (hs₂.trans hs₂₅).later.put_le
  refine wp.bind_fst (skipLateral_spec hwalk₅ hput₅) ?_
  rintro ⟨current, lookahead⟩ v₆ ⟨hs₆, p, val, hw, hstop⟩
  refine wp.bind_fst (cutMax_spec hn hstop) ?_
  rintro m v₇ ⟨h₇, hge, hgt, hle, hcut⟩
  obtain ⟨b, rfl, hb⟩ := hw.stands
  refine wp.read_fst fun v₈ h₈ => ?_
  have hl₈ := (later_of_le h₇).trans (later_of_le h₈)
  have hb₈ := hb.later (inv_of v₆) hl₈
  have hw₈ := hw.later (inv_of v₆) hl₈ (hput₅.trans hs₆.later.put_le)
  rw [Cells.deref_some, hb₈.val]
  have hwidth := (inv_of v₈).node_width hb₈.mem
  refine wp.bind_fst (assert_true (decide_eq_true hwidth.1.ne')) fun _ v₉ hs₉ => ?_
  have hs₈₉ : Along v₆ v₉ := (Along.of_le (h₇.trans h₈)).trans hs₉
  have hall : Along v v₉ := (hs₂.trans (hs₂₅.trans hs₆)).trans hs₈₉
  have hput₈ : n ≤ v₈.state.1.globalPWindow.max := hput₅.trans (hs₆.later.trans hl₈).put_le
  refine ⟨hall, hwidth, hge, hgt, hle, Uniform.later ?_ hs₉.later (inv_of v₈) (inv_of v₉)
    (hle.trans hput₈)⟩
  intro hget r hprev hr
  refine (inv_of v₈).rowWidth_eq hb₈.node (Nat.zero_lt_of_lt hprev) ?_ (fun u hu => ?_)
    (hr.trans (hle.trans hput₈))
  · rcases hw.passed with rfl | hc
    · -- the walk has not left the head
      have hl := (later_of_le h₂).trans (hs₂₅.later.trans (hs₆.later.trans hl₈))
      have hsame := (hhead.later hi₁ hl).node.symm.trans hb₈.node
      rw [← Option.some.inj hsame]
      exact (hcount.trans (hl.get_le.trans hget)).trans hprev.le
    · exact hc.trans hprev
  · rcases hcut with rfl | ⟨b', val', rfl, hb', hlt⟩
    · exact (hr.trans hle).trans_lt (hw₈.ahead rfl u hu)
    · have hnode := (hb'.later (inv_of v₇) (later_of_le h₈)).node
      rw [Option.some.inj (hu.symm.trans hnode)]
      exact hr.trans_lt hlt

end Watched

end ElasticLpw
