import SemanticRelaxation.Prog.Lifting
import SemanticRelaxation.ElasticLaw.Objects

/-!
# The calls of the elastic LaW queue

A put takes effect when its node is linked, a get when the head is exchanged, or when it found no
node behind the head. The exchanges of the settings take effect at once. What explains the nodes
(`Explains`) explains the calls in runs without a late dequeue.

* `quietly`: a program that leaves the nodes, the heads and the settings alone keeps its
  specification;
* `enqCae_commits`, `deqCae_commits`, `misses`, `updateWidth_commits`, `updateDepth_commits`: the
  other steps;
* `queue_explained`, `lawQueue_linearizable` and `lawQueue_relaxed`.
-/

namespace ElasticLaw

open AtomicProg Linked MichaelScott Windowed Fifos

namespace Watched

/-- A longer lateral queue has the old windows. -/
theorem Later.windows {set : Params} {x x' : (State × Watch) × Ghost} (h : Later x x')
    (hi : Inv set x.1.1 x.1.2 x.2) :
    x.1.1.windows <+: x'.1.1.windows := by
  obtain ⟨l, hl⟩ := h.lateral.line 0
  have hl : x'.1.1.line = x.1.1.line ++ l := hl.symm
  refine ⟨l.map fun n => (x'.1.1.lateral.heap n).val, ?_⟩
  rw [State.windows, State.windows, hl, List.map_append]
  refine congrArg (· ++ _) (List.map_congr_left fun n hn => ?_)
  exact (h.lateral.val n (hi.lines.lt_fresh 0 one_pos n hn)).symm

/-! ### The exchanges -/

/-- What all threads keep to in runs without a late dequeue. -/
abbrev timely (set : Params) (assume : State → State → Prop) : Regime Call (State × Watch) Ghost :=
  (regime Call set assume).within fun x => x.2.late = false

/-- The shared state stands for the settings and what the nodes stand for. -/
abbrev linear (width depth : ℕ) (B : Spec Call (Option ℤ)) (set : Params)
    (assume : State → State → Prop) (stands : B.State → State → Prop) :
    Model (settings width depth B) (State × Watch) Ghost :=
  Model.ofRegime (settings width depth B) (timely set assume) fun y x =>
    y.1 = x.1.1.width ∧ y.2.1 = x.1.1.depth ∧ stands y.2.2 x.1.1

/-- The rules of the queue. -/
abbrev rules (width depth : ℕ) (B : Spec Call (Option ℤ)) (set : Params)
    (assume : State → State → Prop) (stands : B.State → State → Prop) :
    Protocol (object set).service (Ghost × Account (settings width depth B)) :=
  (Model.results (S := (object set).service) (linear width depth B set assume stands)).protocol

section Exchanges

variable {width depth : ℕ} {B : Spec Call (Option ℤ)} {set : Params} {assume : State → State → Prop}
  {stands : B.State → State → Prop} {c : Caller}
  {v v₁ v₂ : View (rules width depth B set assume stands) c}
  {call : (object set).service.Call} {r : (object set).service.Ret} {val : ℤ} {j k n p : ℕ}

/-- The view without the history. -/
abbrev plain (v : View (rules width depth B set assume stands) c) :
    View (Results.trivial (object set).service (regime Call set assume)).protocol c :=
  View.widen (Model.forget v)

theorem plain_le (h : v ≤ v₁) : plain v ≤ plain v₁ := View.widen_le (Model.forget_le h)

theorem later_plain (h : v ≤ v₁) : Later (plain v).pair (plain v₁).pair := later_of_le (plain_le h)

theorem along_plain (h : v ≤ v₁) : Along (plain v) (plain v₁) := .of_le (plain_le h)

theorem late_of (v : View (rules width depth B set assume stands) c) : v.state.2.late = false :=
  (Model.forget v).inv_pair.2

/-- A quiet program keeps its specification. -/
theorem quietly (hx : Explains B set assume stands) {α : Type} {p : Prog State α}
    (hp : p.Steps Quiet)
    {Q : α → View (Results.trivial (object set).service (regime Call set assume)).protocol c → Prop}
    (h : wp (Results.trivial (object set).service (regime Call set assume)).protocol c p.onFst Q
      (plain v)) :
    wp (rules width depth B set assume stands) c p.onFst (fun a v' => Q a (plain v') ∧
      Model.Tracks v v') v := by
  refine Model.lift (fun y _ o x x' g g' hR hi hf hy => ?_) ((Prog.Annotates.onFst p).steps hp)
    (View.within h)
  have hl : Later (x, g) (x', g') := Kept.toLater hf
  exact ⟨hy.1.trans hR.width.symm, hy.2.1.trans hR.depth.symm,
    hx.same hR.nodes hR.get (hl.windows hi.1.1) hy.2.2⟩

theorem keeps_still (hx : Explains B set assume stands) {α : Type} {p : Prog State α}
    (hp : p.Steps Still)
    {Q : α → View (Results.trivial (object set).service (regime Call set assume)).protocol c → Prop}
    (h : wp (Results.trivial (object set).service (regime Call set assume)).protocol c p.onFst Q
      (plain v)) :
    wp (rules width depth B set assume stands) c p.onFst (fun a v' => Q a (plain v') ∧
      Model.Tracks v v') v :=
  quietly hx (quiet_of_still hp) h

/-- A step in which the call takes effect on the nodes. -/
theorem commits (h : Model.Waiting call v) {x : State × Watch} {g : Ghost}
    (hall : (Results.trivial (object set).service (regime Call set assume)).protocol.Allows c
      (plain v).now ((plain v).after x g)) (hlate : x.2.late = false)
    (hw : x.1.width = v.state.1.width) (hd : x.1.depth = v.state.1.depth)
    (hcall : ∀ y y' : (settings width depth B).State, y'.1 = y.1 ∧ y'.2.1 = y.2.1 ∧
      B.step y.2.2 call r y'.2.2 →
      (settings width depth B).step y call r y')
    (hs : ∀ y, stands y v.state.1 → ∃ y', B.step y call r y' ∧ stands y' x.1) : ∃ y',
      (rules width depth B set assume stands).Allows c v.now
        (v.after x (g, (Model.hist v).append ⟨⟨c.op, call, r⟩, y'⟩)) := by
  refine Model.commits_of v (View.allows_within (Model.forget v) hall hlate) h.undone h.call
    fun y hy => ?_
  obtain ⟨y', hstep, hy'⟩ := hs y.2.2 hy.2.2
  exact ⟨(y.1, y.2.1, y'), hcall y _ ⟨rfl, rfl, hstep⟩, hy.1.trans hw.symm,
    hy.2.1.trans hd.symm, hy'⟩

/-- The running call has its node, which is not linked yet. -/
structure Ready (val : ℤ) (n : ℕ) (v : View (rules width depth B set assume stands) c) : Prop where
  waiting : Model.Waiting (S := (object set).service) (Call.enqueue val) v
  mine : Mine set.maxWidth c.op n (plain v).pair
  val : (v.state.1.nodes.heap n).val = val

theorem Ready.tracks (h : Ready val n v) (ht : Model.Tracks v v₁)
    (hs : Along (plain v) (plain v₁)) :
    Ready val n v₁ where
  waiting := h.waiting.tracks ht
  mine := h.mine.along hs
  val := (hs.owned.grows.val n h.mine.unlinked.lt_fresh).trans h.val

theorem Ready.later (h : Ready val n v) (h₁ : v ≤ v₁) : Ready val n v₁ :=
  h.tracks (.of_le h₁) (along_plain h₁)

theorem createNode_ready (hx : Explains B set assume stands)
    (h : Model.Waiting (S := (object set).service) (Call.enqueue val) v) :
    wp (rules width depth B set assume stands) c (createNode val).onFst
      (fun n v' => Along (plain v) (plain v') ∧ Ready val n v') v := by
  intro v₁ h₁ _ _
  have hi := inv_of (plain v₁)
  have hk := fun o => Kept.createNode (s := v₁.state.1) (w := v₁.state.2) (g := (plain v₁).now.2)
    (n := set.maxWidth)
    (o := o) val c.op
  have hall := allows_step (plain v₁) (hi.createNode val c.op)
    (fun h => (emptied_of (plain v₁) h).createNode val _ rfl) fun o _ => hk o
  have hall' := Model.allows_of v₁ (View.allows_within (Model.forget v₁) hall (late_of v₁))
    fun y hy => ⟨hy.1, hy.2.1, hx.create val hi hy.2.2⟩
  have hs : Along (plain v) (plain (v₁.step _ _ hall'.inv)) :=
    (along_plain h₁).trans ⟨(hk (.op 0)).toLater, (hk _).owned⟩
  refine ⟨_, hall', hs, h.tracks ((Model.Tracks.of_le h₁).trans .step),
    ⟨Function.update_self .., ?_⟩, ?_⟩
  · exact .create hi.filled.valid.lines val
  · show (Function.update v₁.state.1.nodes.heap v₁.state.1.nodes.fresh _
      v₁.state.1.nodes.fresh).val = val
    rw [Function.update_self]

/-- The put takes effect when its node is linked. -/
theorem enqCae_commits (hx : Explains B set assume stands) {a : Option ℕ} {u : Window}
    {d : Descriptor} (ha : Stands k a u (plain v).pair) (hj : j < u.width)
    (ht : WasTail j d v.state.1.queues (plain v).now.2.places) (hc : d.count < u.max)
    (hn : Ready val n v) :
    wp (rules width depth B set assume stands) c
      (enqCae j d.node n ⟨ElasticLaw.nextRow u d.count, u⟩).onFst (fun r v' => Later (plain v).pair
        (plain v').pair ∧
        if r then Model.Done v' (some (1 : ℤ)) ∧ Behind j d n (ElasticLaw.nextRow u d.count)
          (plain v').pair
        else Ready val n v') v := by
  have hjn : j < set.maxWidth := hj.trans_le (ha.allocated (inv_of (plain v))).2
  refine wp.cae_fst (fun v₁ h₁ he hassume => ?_) fun v₁ h₁ _ => ⟨later_plain h₁, hn.later h₁⟩
  have hl := later_plain h₁
  have hi₁ := inv_of (plain v₁)
  have hn₁ := hn.later h₁
  obtain ⟨t, hd, hline, hcount⟩ := (ht.grown hl.queues).of_last hi₁.filled hjn he
  have hcount : ((plain v₁).state.1.putArray j).count = d.count := hcount
  have hlt : ((plain v₁).state.1.putArray j).count < u.max := hcount.trans_lt hc
  have hnow : (plain v₁).state.1.win ((plain v₁).now.2.tail + 1) = u :=
    (ha.later (inv_of (plain v)) hl).now hi₁ hj hlt
  have htag : linkTag (plain v₁).state.1 (plain v₁).now.2 j = ⟨ElasticLaw.nextRow u d.count,
    u⟩ := by
    unfold linkTag
    rw [hnow, hcount]
  have he : (v₁.state.1.nodes.deref d.node).next = none := he
  rw [hd] at he ⊢
  have hjw : j < ((plain v₁).state.1.win ((plain v₁).now.2.tail + 1)).width := hnow ▸ hj
  have hi := hi₁.linkNode hjn hjw hline le_rfl he hn₁.mine.unlinked (hnow ▸ hlt)
  rw [htag] at hi
  have hall := allows_step (plain v₁) hi
    (fun h => (emptied_of (plain v₁) h).linkNode hi₁ hjn hline le_rfl he hn₁.mine.unlinked _ _)
    fun o ho => .linkNode ho hn₁.mine.owner hjn hline _ _
  obtain ⟨_, hall'⟩ := commits (r := some (1 : ℤ)) hn₁.waiting hall (late_of v₁) rfl rfl
    (fun _ _ h => h) fun y hy => by
    have hstep := hx.link ⟨ElasticLaw.nextRow u d.count, u⟩ hi₁ (late_of v₁)
      (emptied_of (plain v₁)) hjn hjw hline le_rfl
      he hn₁.mine.unlinked hnow.symm hy
    rwa [show ((plain v₁).state.1.nodes.heap n).val = val from hn₁.val] at hstep
  exact ⟨_, hall', hl.trans (.linkNode j t n _ _), Model.done_append hall',
    .of_link hi₁ hjn hd hline he _ _⟩

/-- The get takes effect when the head is exchanged. -/
theorem deqCae_commits (hx : Explains B set assume stands) {a : Option ℕ} {u : Window}
    {d : Descriptor} {next : Option ℕ} (hj : j < set.maxWidth) (hk : k ≤ (plain v).now.2.head)
    (ha : Stands k a u (plain v).pair)
    (h : Takeable set assume u.max j d ⟨next, ElasticLaw.nextRow u d.count⟩ (plain v).pair)
    (hw : Model.Waiting (S := (object set).service) Call.dequeue v) :
    wp (rules width depth B set assume stands) c
      (deqCae u.max j d ⟨next, ElasticLaw.nextRow u d.count⟩)
      (fun r v' => Along (plain v) (plain v') ∧
        if r then ∃ m < v'.state.1.nodes.fresh, next = some m ∧
          Model.Done v' (some (v'.state.1.nodes.heap m).val)
        else Model.Waiting (S := (object set).service) Call.dequeue v') v := by
  refine wp.cae (fun v₁ h₁ he hassume => ?_) fun v₁ h₁ _ => ⟨along_plain h₁, hw.later h₁⟩
  have hl₁ := later_plain h₁
  have hi := inv_of (plain v₁)
  have he : v₁.state.1.getArray j = d := he
  have hc : (v₁.state.2.late || decide (u.max ≤ d.count)) = false := hassume.2
  have hlt : d.count < u.max := not_le.1 (of_decide_eq_false (Bool.or_eq_false_iff.1 hc).2)
  have hlate : (Watch.mk ((plain v₁).state.2.late || decide (u.max ≤ d.count))).late = false →
      (plain v₁).state.2.late = false := fun _ => late_of v₁
  have ha₁ := ha.later (inv_of (plain v)) hl₁
  have hle : ((plain v₁).state.1.getArray j).count ≤ ElasticLaw.nextRow u d.count := by
    rw [show (plain v₁).state.1.getArray j = d from he]
    exact (lt_nextRow u d.count).1.le
  have htake := h.later hl₁
  obtain ⟨m, hm, hp, hline, hrows⟩ := htake.next hi hj (late_of v₁) hlt he
  obtain rfl : next = some m := hm
  have hkept := fun o => Kept.takeNode (s := (plain v₁).state.1) (w := (plain v₁).state.2)
    (g := (plain v₁).now.2)
    (n := set.maxWidth) (o := o) (d := ⟨some m, ElasticLaw.nextRow u d.count⟩) hlate hle
    (Function.update (plain v₁).now.2.front j ((plain v₁).now.2.front j + 1))
  have htaken := hi.takeNode (d := ⟨some m, ElasticLaw.nextRow u d.count⟩) hlate hc hj hp
    hline.symm hrows
    (Function.update (plain v₁).now.2.front j ((plain v₁).now.2.front j + 1))
  have hall := allows_step (plain v₁) htaken (fun ho =>
    (emptied_of (plain v₁) ho).exchange hi hj (hk.trans hl₁.head_le) ha₁ he
      (Option.some_ne_none m) ho htake rfl)
    fun o _ => hkept o
  have hmax : ElasticLaw.nextRow u d.count ≤
    ((plain v₁).state.1.win ((plain v₁).now.2.head + 1)).max := by
    have horder := hi.order
    have htail := hi.tail_lt
    have hkl := hk.trans hl₁.head_le
    refine (nextRow_le (ha.bottom_lt (inv_of (plain v))) hlt).trans ?_
    rw [← ha₁.win]
    exact hi.tiled.max_le (Nat.succ_le_succ hkl) (by omega)
  obtain ⟨_, hall'⟩ := commits (r := some ((plain v₁).state.1.nodes.heap m).val)
    (hw.later h₁) hall hc rfl rfl
    (fun _ _ h => h) fun y hy => hx.take (ElasticLaw.nextRow u d.count) hi (late_of v₁)
    (emptied_of (plain v₁)) hj hp
      hline (fun r' hr' => (hrows r' hr').trans hmax) hy
  refine ⟨_, hall', (along_plain h₁).trans ⟨(hkept (.op 0)).toLater, (hkept _).owned⟩, m, ?_, rfl,
    Model.done_append hall'⟩
  exact hi.filled.valid.lines.lt_fresh j hj m (List.mem_of_getElem? hline)

/-- The get finds no node behind one that had been the head. -/
theorem misses (hx : Explains B set assume stands)
    (hw : Model.Waiting (S := (object set).service) Call.dequeue v)
    (hj : j < set.maxWidth) {t : ℕ} (ht : (v.state.1.nodes.line j)[p]? = some t)
    (hp : p ≤ (plain v).now.2.places.getPos j) (hnone : (v.state.1.nodes.heap t).next = none) : ∃ g,
      ∃ hall : (rules width depth B set assume stands).Allows c v.now (v.after v.state g),
        Along (plain v) (plain (v.step _ g hall.inv)) ∧
          Model.Done (v.step _ g hall.inv) (none : Option ℤ) := by
  obtain ⟨_, hall⟩ := commits hw (wp.allows_self (plain v)) (late_of v) rfl rfl (fun _ _ h => h)
    fun y hy =>
    ⟨y, hx.empty (inv_of (plain v)) (late_of v) (emptied_of (plain v)) hj ht hp hnone hy, hy⟩
  exact ⟨_, hall, ⟨(Along.refl (plain v)).later, (Along.refl (plain v)).owned⟩,
    Model.done_append hall⟩

/-- An exchange of the settings takes effect at once. -/
theorem settings_commit (hx : Explains B set assume stands) {w d : ℕ} (hw : Allocated set w)
    (hd : 0 < d) (h : Model.Waiting call v) (hcall : ∀ y : (settings width depth B).State,
      y.1 = v.state.1.width →
      y.2.1 = v.state.1.depth → (settings width depth B).step y call r (w, d, y.2.2)) : ∃ g,
      ∃ hall : (rules width depth B set assume stands).Allows c v.now
          (v.after ({ v.state.1 with width := w, depth := d }, v.state.2) g),
        Along (plain v) (plain (v.step _ g hall.inv)) ∧ Model.Done (v.step _ g hall.inv) r := by
  have hk := fun o => Kept.onSettings (s := (plain v).state.1) (w := (plain v).state.2)
    (g := (plain v).now.2)
    (n := set.maxWidth) (o := o) w d
  have hall := allows_step (plain v) ((inv_of (plain v)).onSettings hw hd)
    (fun h => (emptied_of (plain v) h).onSettings _ _) fun o _ => hk o
  obtain ⟨_, hall'⟩ :=
    Model.commits_of v (View.allows_within (Model.forget v) hall (late_of v)) h.undone h.call
    fun y hy => ⟨(w, d, y.2.2), hcall y hy.1 hy.2.1, rfl, rfl,
      hx.same (s := v.state.1) rfl rfl (List.prefix_refl _) hy.2.2⟩
  exact ⟨_, hall', ⟨(hk (.op 0)).toLater, (hk _).owned⟩, Model.done_append hall'⟩

theorem updateWidth_commits (hx : Explains B set assume stands) {w : ℕ} (hw : Allocated set w)
    (h : Model.Waiting (S := (object set).service) (Call.updateWidth w) v) :
    wp (rules width depth B set assume stands) c (updateWidth w).onFst
      (fun r v' => Model.Done v' (some (r : ℤ)) ∧ Along (plain v) (plain v')) v := by
  intro v₁ h₁ _ _
  obtain ⟨g, hall, hs, hdone⟩ := settings_commit hx hw (inv_of (plain v₁)).depth (h.later h₁)
    (r := some ((plain v₁).state.1.width : ℤ)) fun y hw hd =>
      ⟨congrArg (fun n : ℕ => some (n : ℤ)) hw.symm, Prod.ext rfl (Prod.ext hd.symm rfl)⟩
  exact ⟨g, hall, hdone, (along_plain h₁).trans hs⟩

theorem updateDepth_commits (hx : Explains B set assume stands) {d : ℕ} (hd : 0 < d)
    (h : Model.Waiting (S := (object set).service) (Call.updateDepth d) v) :
    wp (rules width depth B set assume stands) c (updateDepth d).onFst
      (fun r v' => Model.Done v' (some (r : ℤ)) ∧ Along (plain v) (plain v')) v := by
  intro v₁ h₁ _ _
  obtain ⟨g, hall, hs, hdone⟩ := settings_commit hx (inv_of (plain v₁)).width hd (h.later h₁)
    (r := some ((plain v₁).state.1.depth : ℤ)) fun y hw hd =>
      ⟨congrArg (fun n : ℕ => some (n : ℤ)) hd.symm, Prod.ext hw.symm rfl⟩
  exact ⟨g, hall, hdone, (along_plain h₁).trans hs⟩

/-! ### The operations -/

/-- What a round of `enqueue` ends with. -/
def Put (val : ℤ) (n : ℕ) (r : (Bool × Local) ⊕ (Local × Descriptor × Descriptor))
    (v : View (rules width depth B set assume stands) c) : Prop :=
  Sum.elim (fun a => Known a.2 (plain v).pair ∧ Ready val n v)
    (fun a => Known a.1 (plain v).pair ∧ a.1.putIndex < set.maxWidth ∧ Model.Done v (some (1 : ℤ)) ∧
      ∃ r, a.2.2 = ⟨some n, r⟩ ∧ Behind a.1.putIndex a.2.1 n r (plain v).pair) r

/-- What a round of `dequeue` ends with. -/
def Got (a : Option ℕ) (r : (Bool × Local) ⊕ (Local × Option ℤ))
    (v : View (rules width depth B set assume stands) c) :
    Prop :=
  Sum.elim (fun b => b.2.putWindow = a ∧ Entered b.2 (plain v).pair ∧
      Model.Waiting (S := (object set).service) Call.dequeue v)
    (fun b => Entered b.1 (plain v).pair ∧ Model.Done v (b.2 : Option ℤ)) r

/-- A get window below the put window is full. -/
theorem GotAt.lt_putPos {a : Option ℕ} {u w : Window} {tl : Local} {l p r : ℕ}
    {x : (State × Watch) × Ghost} (hg : GotAt l w tl x) (hi : Inv set x.1.1 x.1.2 x.2)
    (ha : Stands k a u x) (hlt : w.max < u.max) (hr : (x.2.places.rows tl.getIndex)[p]? = some r)
    (hrow : r < w.max) : p < x.2.places.putPos tl.getIndex := by
  have hj : tl.getIndex < set.maxWidth := hg.index.trans_le (hg.window.allocated hi).2
  have hwin : x.1.1.win (l + 1) = w := hg.window.win
  have hwin' : x.1.1.win (k + 1) = u := ha.win
  have hlk : l + 1 < k + 1 := hi.tiled.lt_of_max_lt (hg.window.lt hi)
    (by rw [hwin, hwin']; exact hlt)
  have hfull := hi.full ((Nat.lt_of_succ_lt_succ hlk).trans_le ha.le) (by rw [hwin]; exact hg.index)
  rw [hwin] at hfull
  have hcount : (x.2.places.rows tl.getIndex)[x.2.places.putPos tl.getIndex]? =
    some (x.1.1.putArray tl.getIndex).count := hi.filled.count tl.getIndex hj
  exact lt_of_lt_getElem? (hi.filled.sorted tl.getIndex hj) hr hcount (hrow.trans_le hfull)

variable (hx : Explains B set assume stands)
include hx

/-- An assertion that holds. -/
theorem assert_quiet {b : Bool} (hb : b = true) :
    wp (rules width depth B set assume stands) c (assert b).onFst
    (fun _ v' => plain v = plain v' ∧ Model.Tracks v v') v :=
  keeps_still hx (still_assert b) (assert_true hb)

theorem tryLink_commits {contention : Bool} {tl : Local} {d : Descriptor} {a : Option ℕ}
    {u : Window} (hkn : Known tl (plain v).pair) (ha : Stands k a u (plain v).pair)
    (hj : tl.putIndex < u.width) (ht : WasTail tl.putIndex d v.state.1.queues
      (plain v).now.2.places) (hc : d.count < u.max) (hn : Ready val n v) :
    wp (rules width depth B set assume stands) c (tryLink n contention tl d u).onFst
      (Put val n) v := by
  have hi := inv_of (plain v)
  have hjn : tl.putIndex < set.maxWidth := hj.trans_le (ha.allocated hi).2
  refine wp.read_fst fun v₁ h₁ => ?_
  have hl₁ := later_plain h₁
  have hi₁ := inv_of (plain v₁)
  have hkn₁ := hkn.later hi hl₁
  have ha₁ := ha.later hi hl₁
  have hn₁ := hn.later h₁
  split
  next =>
    refine wp.bind_fst (enqCae_commits hx ha₁ hj (ht.grown hl₁.queues) hc hn₁) ?_
    rintro (_ | _) v₂ ⟨hl₂, h₂⟩
    · exact ⟨hkn₁.later hi₁ hl₂, h₂⟩
    · refine wp.bind_fst (assert_quiet hx (decide_eq_true hj.le)) ?_
      rintro - v₃ ⟨he, ht₃⟩
      refine ⟨he ▸ hkn₁.later hi₁ hl₂, hjn, Model.Done.tracks h₂.1 ht₃, _, rfl, ?_⟩
      rw [← he]
      exact h₂.2
  next hne =>
    refine wp.read_fst fun v₂ h₂ => ?_
    have hl₂ := later_plain h₂
    have hi₂ := inv_of (plain v₂)
    have ht₂ := ht.grown (hl₁.trans hl₂).queues
    have hstays := (ht.grown hl₁.queues).next_grown hi₁.filled hi₂.filled hl₂.queues hjn hne
    have hne₂ : (v₂.state.1.nodes.deref d.node).next ≠ none := fun h₀ => hne (hstays.symm.trans h₀)
    refine wp.bind_fst (keeps_still hx (still_putCae _ _ _)
      (putCae_help (ha₁.later hi₁ hl₂) hj ht₂ hc rfl hne₂)) ?_
    rintro (_ | _) v₃ ⟨hs₃, ht₃⟩
    · exact ⟨hkn₁.later hi₁ (hl₂.trans hs₃.later), (hn₁.later h₂).tracks ht₃ hs₃⟩
    · have hle : ElasticLaw.nextRow u d.count ≤ u.max := nextRow_le (ha.bottom_lt hi) hc
      refine wp.bind_fst (assert_quiet hx (decide_eq_true hle)) ?_
      rintro - v₄ ⟨he, ht₄⟩
      have hs₄ : Along (plain v₂) (plain v₄) := he ▸ hs₃
      exact ⟨hkn₁.later hi₁ (hl₂.trans hs₄.later), (hn₁.later h₂).tracks (ht₃.trans ht₄) hs₄⟩

theorem enqueueRound_commits (hp : set.WF) {contention : Bool} {tl : Local}
    (hkn : Known tl (plain v).pair) (hn : Ready val n v) :
    wp (rules width depth B set assume stands) c (enqueueRound set n contention tl).onFst
      (Put val n) v := by
  refine wp.bind_fst (quietly hx (quiet_putWindow _ _) (putWindow_spec hp hkn)) ?_
  rintro ⟨d, tl'⟩ v₁ ⟨⟨hs₁, hkn₁, ht, k, u, ha, hj, hc⟩, htr₁⟩
  have hn₁ := hn.tracks htr₁ hs₁
  have hsome : d.node.isSome = true := by
    obtain ⟨p, q, t, hd, -⟩ := ht
    exact Option.isSome_of_eq_some hd
  refine wp.bind_fst (assert_quiet hx hsome) ?_
  rintro - v₂ ⟨he₂, htr₂⟩
  have hn₂ := hn₁.tracks htr₂ (he₂ ▸ Along.refl (plain v₁))
  rw [he₂] at hkn₁ ha
  have ht₂ : WasTail tl'.putIndex d (plain v₂).state.1.queues (plain v₂).now.2.places := he₂ ▸ ht
  refine wp.read_fst fun v₃ h₃ => ?_
  have hl₃ := later_plain h₃
  have ha₃ := ha.later (inv_of (plain v₂)) hl₃
  rw [show (v₃.state.1.lateral.deref tl'.putWindow).val = u from ha₃.val]
  refine wp.bind_fst (assert_quiet hx (decide_eq_true hc)) ?_
  rintro - v₄ ⟨he₄, htr₄⟩
  refine wp.read_fst fun v₅ h₅ => ?_
  have hl₅ : Later (plain v₃).pair (plain v₅).pair := he₄ ▸ later_plain h₅
  have hkn₅ := hkn₁.later (inv_of (plain v₂)) (hl₃.trans hl₅)
  have hn₅ := ((hn₂.later h₃).tracks htr₄ (he₄ ▸ Along.refl (plain v₃))).later h₅
  split
  next => exact ⟨hkn₅, hn₅⟩
  next =>
    exact tryLink_commits hx hkn₅ (ha₃.later (inv_of (plain v₃)) hl₅) hj
      (ht₂.grown (hl₃.trans hl₅).queues) hc hn₅

theorem enqueue_commits (hp : set.WF) {tl : Local} (hkn : Known tl (plain v).pair)
    (h : Model.Waiting (S := (object set).service) (Call.enqueue val) v) :
    wp (rules width depth B set assume stands) c (enqueue set val tl).onFst
      (fun r v' => Model.Done v' (some r.2) ∧ Known r.1 (plain v').pair) v := by
  refine wp.bind_fst (createNode_ready hx h) ?_
  rintro n v₁ ⟨hs₁, hn⟩
  refine wp.bind_fst (wp.forever_fst (Q := fun a v' => Put val n (.inr a) v')
    (fun b v' => Put val n (.inl b) v') ⟨hkn.later (inv_of (plain v)) hs₁.later, hn⟩ ?_) ?_
  · rintro ⟨contention, tl'⟩ v₂ h₂
    refine (enqueueRound_commits hx hp h₂.1 h₂.2).mono ?_
    rintro (a | a) v₃ h₃
    · exact h₃
    · exact h₃
  · rintro ⟨tl', d, d'⟩ v₂ ⟨hkn₂, hj, hdone, r, hd, hb⟩
    obtain rfl : d' = ⟨some n, r⟩ := hd
    refine wp.bind_fst (assert_quiet hx rfl) ?_
    rintro - v₃ ⟨he₃, htr₃⟩
    rw [he₃] at hkn₂ hb
    exact wp.bind_fst (keeps_still hx (still_putCae _ _ _) (putCae_linked hj hb)) fun _ v₄ h₄ =>
      ⟨(Model.Done.tracks hdone htr₃).tracks h₄.2, hkn₂.later (inv_of (plain v₃)) h₄.1.later⟩

theorem safeDeq_commits {d : Descriptor} {tl : Local} {u : Window}
    (hg : GotAt k u tl (plain v).pair) (h : Removable set assume u.max tl.getIndex d (plain v).pair)
    (hw : Model.Waiting (S := (object set).service) Call.dequeue v) :
    wp (rules width depth B set assume stands) c (safeDeq d tl)
      (fun r v' => Along (plain v) (plain v') ∧ Got tl.putWindow r v') v := by
  have hj : tl.getIndex < set.maxWidth :=
    hg.index.trans_le (hg.window.allocated (inv_of (plain v))).2
  refine wp.read fun v₁ h₁ => wp.read fun v₂ h₂ => ?_
  have hl₁ := later_plain h₁
  have hl₂ := later_plain h₂
  have hg₁ := hg.later (inv_of (plain v)) hl₁
  have hg₂ := hg₁.later (inv_of (plain v₁)) hl₂
  have htake := ((h.later hl₁).takeable (inv_of (plain v₁)) hg₁.window hg.index).later hl₂
  dsimp only
  rw [show (v₂.state.1.lateral.deref tl.getWindow).val = u from hg₂.window.val]
  refine wp.bind_of (deqCae_commits hx hj hg₂.le hg₂.window htake (hw.later (h₁.trans h₂))) ?_
  rintro (_ | _) v₃ ⟨hs₃, h₃⟩
  · have hs := (along_plain (h₁.trans h₂)).trans hs₃
    exact ⟨hs, rfl, ⟨k, u, hg.later (inv_of (plain v)) hs.later⟩, h₃⟩
  · obtain ⟨m, hm, hnext, hdone⟩ := h₃
    refine wp.read fun v₄ h₄ => ?_
    have hl₄ := later_plain h₄
    have hs := (along_plain (h₁.trans h₂)).trans (hs₃.trans (along_plain h₄))
    have hval : (v₄.state.1.nodes.heap m).val = (v₃.state.1.nodes.heap m).val :=
      hl₄.queues.store.val m hm
    refine ⟨hs, ⟨k, u, hg.later (inv_of (plain v)) hs.later⟩, ?_⟩
    rw [show (v₁.state.1.nodes.deref d.node).next = some m from hnext]
    show Model.Done v₄ (some (v₄.state.1.nodes.heap m).val)
    rw [hval]
    exact hdone.tracks (.of_le h₄)

theorem dequeueRound_commits (hp : set.WF) {contention : Bool} {tl : Local} {u : Window}
    (hkn : Known tl (plain v).pair) (ha : Stands k tl.putWindow u (plain v).pair)
    (hc : contention = true → Entered tl (plain v).pair)
    (hw : Model.Waiting (S := (object set).service) Call.dequeue v) :
    wp (rules width depth B set assume stands) c (dequeueRound set contention tl)
      (fun r v' => Along (plain v) (plain v') ∧ Got tl.putWindow r v') v := by
  refine wp.bind_of (keeps_still hx (still_getWindow _ _) (getWindow_spec hp hkn hc)) ?_
  rintro ⟨d, tl'⟩ v₁ ⟨⟨⟨hs₁, hput, l, w, hg⟩, hhead⟩, ht₁⟩
  have hput : tl'.putWindow = tl.putWindow := hput
  have hw₁ := hw.tracks ht₁
  have hi₁ := inv_of (plain v₁)
  have hj : tl'.getIndex < set.maxWidth := hg.index.trans_le (hg.window.allocated hi₁).2
  refine wp.read fun v₂ h₂ => wp.read fun v₃ h₃ => ?_
  have hl₂ := later_plain h₂
  have hl₃ := hl₂.trans (later_plain h₃)
  have ha₁ := ha.later (inv_of (plain v)) hs₁.later
  have ha₂ := ha₁.later hi₁ hl₂
  have hg₃ := hg.later hi₁ hl₃
  have hgval : (v₃.state.1.lateral.deref tl'.getWindow).val = w := hg₃.window.val
  have hpval : (v₂.state.1.lateral.deref tl'.putWindow).val = u := hput ▸ ha₂.val
  -- what `safe_deq` needs to know of the head
  have hremove : ∀ {v' : View (rules width depth B set assume stands) c},
    Along (plain v₁) (plain v') →
      Model.Waiting (S := (object set).service) Call.dequeue v' → (∀ p r : ℕ,
        (v₁.state.1.nodes.line tl'.getIndex)[p]? = d.node →
        p ≤ (plain v₁).now.2.places.getPos tl'.getIndex →
        ((plain v₁).now.2.places.rows tl'.getIndex)[p]? = some r → r < w.max →
          p < (plain v').now.2.places.putPos tl'.getIndex) →
      wp (rules width depth B set assume stands) c (safeDeq d tl')
        (fun r v'' => Along (plain v) (plain v'') ∧ Got tl.putWindow r v'') v' := by
    intro v' hs' hw' hlt
    have hrem := hhead.removable hi₁ hj hs'.later fun _ hmax p r ht hpos hr hrow =>
      hlt p r ht hpos hr (hrow.trans_lt hmax)
    refine (safeDeq_commits hx (hg.later hi₁ hs'.later) hrem hw').mono ?_
    rintro r v'' ⟨hs'', hr⟩
    exact ⟨(hs₁.trans hs').trans hs'', hput ▸ hr⟩
  split
  next hlt =>
    have hlt : (v₃.state.1.lateral.deref tl'.getWindow).val.max <
      (v₂.state.1.lateral.deref tl'.putWindow).val.max :=
      hlt
    rw [hgval, hpval] at hlt
    exact hremove (along_plain (h₂.trans h₃)) (hw₁.later (h₂.trans h₃)) fun p r _ _ hr hrow =>
      hg₃.lt_putPos (inv_of (plain v₃)) (ha₁.later hi₁ hl₃) hlt (hl₃.queues.row hr) hrow
  next hge =>
    refine wp.bind_of (keeps_still hx (still_readDescriptor _ _) (readTail_spec hj)) ?_
    rintro e v₅ ⟨⟨htail, v₄, h₄, h₅, he⟩, ht₅⟩
    have hl₄ := hl₃.trans (later_of_le h₄)
    have hs₅ : Along (plain v₁) (plain v₅) :=
      (along_plain (h₂.trans h₃)).trans (.of_le (h₄.trans h₅))
    have hw₅ := (hw₁.later (h₂.trans h₃)).tracks ht₅
    have hg₅ := hg.later hi₁ hs₅.later
    obtain ⟨p, t, hd, ht, hpos, -⟩ := hhead.was (late_of v₁)
    dsimp only
    split
    next heq =>
      refine Model.read_cases fun v₆ h₆ => ?_
      have hl₆ := later_plain h₆
      by_cases hnext : (v₆.state.1.nodes.deref d.node).next = none
      · have hl := hs₅.later.trans hl₆
        rw [hd] at hnext
        obtain ⟨g, hall, hs₇, hdone⟩ :=
          misses hx (hw₅.later h₆) hj (hl.queues.line ht) (hpos.trans (hl.queues.getPos _)) hnext
        have hs := (along_plain h₆).trans hs₇
        refine .inr ⟨g, hall, ?_⟩
        rw [if_pos (hd ▸ hnext)]
        exact ⟨hs₁.trans (hs₅.trans hs), ⟨l, w, hg₅.later (inv_of (plain v₅)) hs.later⟩, hdone⟩
      · refine .inl ?_
        rw [if_neg hnext]
        have hne₆ : (v₆.state.1.nodes.deref e.node).next ≠ none := heq ▸ hnext
        refine wp.bind_of (keeps_still hx (still_helpEnqueue _ _ _)
          (helpEnqueue_spec hj (htail.grown hl₆.queues) hne₆)) ?_
        rintro ⟨b, tl''⟩ v₇ ⟨⟨hs₇, htl⟩, ht₇⟩
        obtain rfl : tl'' = tl' := htl
        have hs : Along (plain v₅) (plain v₇) := (along_plain h₆).trans hs₇
        exact ⟨hs₁.trans (hs₅.trans hs), hput, ⟨l, w, hg₅.later (inv_of (plain v₅)) hs.later⟩,
          (hw₅.later h₆).tracks ht₇⟩
    next hne =>
      refine hremove hs₅ hw₅ fun q r hline hpos _ _ => ?_
      rw [hd] at hline
      refine ((inv_of _).filled.before_tail hj (hpos.trans (hl₄.queues.getPos _)) ?_
        (he ▸ hne)).trans_le
        ((later_of_le h₅).queues.putPos _)
      rw [hd]
      exact hl₄.queues.line hline

theorem dequeue_commits (hp : set.WF) {tl : Local} (hkn : Known tl (plain v).pair)
    (hw : Model.Waiting (S := (object set).service) Call.dequeue v) :
    wp (rules width depth B set assume stands) c (dequeue set tl)
      (fun r v' => Model.Done v' (r.2 : Option ℤ) ∧ Known r.1 (plain v').pair) v := by
  refine wp.read fun v₁ h₁ => ?_
  have hl₁ := later_plain h₁
  have ht := (inv_of (plain v₁)).tail_stands
  refine wp.forever (fun b v' => (Along (plain v₁) (plain v') ∧
    b.2.putWindow = v₁.state.1.lateralTail) ∧
    Known b.2 (plain v').pair ∧ (b.1 = true → Entered b.2 (plain v').pair) ∧
      Model.Waiting (S := (object set).service) Call.dequeue v')
    ⟨⟨.refl _, rfl⟩, (hkn.later (inv_of (plain v)) hl₁).congr rfl rfl rfl, nofun, hw.later h₁⟩ ?_
  rintro ⟨contention, tl'⟩ v₂ ⟨⟨hs₂, hput⟩, hkn₂, hc, hw₂⟩
  have hput : tl'.putWindow = v₁.state.1.lateralTail := hput
  have ht₂ := ht.later (inv_of (plain v₁)) hs₂.later
  refine (dequeueRound_commits hx hp hkn₂ (hput ▸ ht₂) hc hw₂).mono ?_
  rintro (⟨contention', tl''⟩ | r) v₃ ⟨hs₃, h₃⟩
  · exact ⟨⟨hs₂.trans hs₃, h₃.1.trans hput⟩, .inr h₃.2.1, fun _ => h₃.2.1, h₃.2.2⟩
  · exact ⟨h₃.2, .inr h₃.1⟩

theorem queue_linear (h₀ : stands B.init (initial set width depth)) (hp : set.WF)
    (hw : Allocated set width) (hd : 0 < depth) :
    Linear (S := (object set).service) (linear width depth B set assume stands) (Call.Valid set)
      (fun _ l x => Known l x) (initial set width depth, {}) .init .zero where
  init := ⟨⟨⟨inv_initial hw.1 hw.2 hd, fun _ => emptied_initial set width depth⟩, rfl⟩, rfl,
    rfl, h₀⟩
  init_fresh _ := True.intro
  init_loc _ := .zero
  loc_later _ _ _ _ _ _ _ _ hi _ hk h := h.later hi.1.1.1 hk.toLater
  code t op call l v hcall hok hkn _ hu hm := by
    have hw : Model.Waiting (S := (object set).service) call v := ⟨hcall, hu, _, hm⟩
    cases call with
    | register =>
      refine wp.bind_fst (keeps_still hx still_initThreadWindows initThreadWindows_spec)
        fun _ v' h => ⟨.inr ?_, h.1⟩
      exact (hw.tracks h.2).recalls fun _ => ⟨rfl, rfl⟩
    | enqueue val => exact wp.bind_fst (enqueue_commits hx hp hkn hw) fun _ _ h => ⟨.inl h.1, h.2⟩
    | dequeue => exact (dequeue_commits hx hp hkn hw).mono fun _ _ h => ⟨.inl h.1, h.2⟩
    | updateWidth w =>
      exact wp.bind_fst (updateWidth_commits hx hok hw) fun _ _ h =>
        ⟨.inl h.1, hkn.later (inv_of (plain v)) h.2.later⟩
    | updateDepth d =>
      exact wp.bind_fst (updateDepth_commits hx hok.1 hw) fun _ _ h =>
        ⟨.inl h.1, hkn.later (inv_of (plain v)) h.2.later⟩

/-- What explains the nodes explains the calls, in runs without a late dequeue. -/
theorem queue_explained (h₀ : stands B.init (initial set width depth)) (hp : set.WF)
    (hw : Allocated set width) (hd : 0 < depth) {P : Pool (object set).service}
    (hr : Reach (fun call _ => Call.Valid set call) (timely set assume).assume
      (initial set width depth, {}) .zero P) :
    ∃ log x, Linearizes (settings width depth B) P.world log ∧ (settings width depth B).Run log x ∧
      x.1 = P.world.shared.1.width ∧ x.2.1 = P.world.shared.1.depth ∧
        stands x.2.2 P.world.shared.1 := by
  obtain ⟨log, x, _, hlog, hrun, -, hst⟩ := (queue_linear hx h₀ hp hw hd).linearizes hr
  exact ⟨log, x, hlog, hrun, hst⟩

end Exchanges

theorem runs_timely {set : Params} {width depth : ℕ} (hp : set.WF) (hw : Allocated set width)
    (hd : 0 < depth) {P : Pool (object set).service}
    (hr : Reach (fun call _ => Call.Valid set call) Timely (initial set width depth, {}) .zero P) :
    Reach (fun call _ => Call.Valid set call) (timely set (Orderly set)).assume
      (initial set width depth, {}) .zero P :=
  hr.strengthen fun P P' t n hr hm ht => ⟨keeps_orderly hp hw hd P P' t n hr hm ht, ht.late⟩

end Watched

/-- In runs in which no dequeue takes an item off a sub-queue whose get count has reached the
maximum of its get window, `max_width` queues and the two settings explain the calls, also while the
settings change. -/
theorem lawQueue_linearizable {maxWidth width depth : ℕ} (hm : maxWidth < 2 ^ 16)
    (hw : 1 ≤ width ∧ width ≤ maxWidth) (hd : 1 ≤ depth)
    {P : Pool (Watched.object (params maxWidth)).service} (hr : AtomicProg.Reach
      (fun call _ => Call.Valid (params maxWidth) call) (fun _ x' => x'.2.late = false)
      (initial (params maxWidth) width depth, {}) .zero P) :
    ∃ log x, Linearizes (Watched.settings width depth (spec Call.interface maxWidth)) P.world log ∧
      (Watched.settings width depth (spec Call.interface maxWidth)).Run log x ∧
      x.1 = P.world.shared.1.width ∧ x.2.1 = P.world.shared.1.depth ∧
        Holds maxWidth P.world.shared.1.queues x.2.2 := by
  have hp : (params maxWidth).WF := ⟨hm, (by decide : 2 < 2 ^ 16)⟩
  have hr' : AtomicProg.Reach (fun call _ => Call.Valid (params maxWidth) call)
      (Watched.timely (params maxWidth) fun _ _ => True).assume
      (initial (params maxWidth) width depth, {}) .zero P :=
    hr.strengthen fun _ _ _ _ _ _ h => ⟨True.intro, h⟩
  exact Watched.queue_explained (Watched.explains_queues _ _) (Holds.init maxWidth) hp hw hd hr'

/-- The answer of a call. -/
def answer {set : Params} (P : Pool (Watched.object set).service) (op : ℕ) : Option (Option ℤ) :=
  (P.world.returned op).map Prod.fst

/-- An enqueue has linked its node and not swung the tail. -/
def helped : List (Move (Watched.object (params 2)).service) :=
  List.flatten [
    Move.start 0 Call.register 4 0,
    Move.start 1 Call.register 4 0,
    Move.start 0 (Call.enqueue 7) 16 0,
    Move.start 1 Call.dequeue 24 0,
    Move.start 1 (Call.updateWidth 2) 2 0]

/-- The dequeue swings the tail and takes the value, and the width goes from 1 to 2. -/
theorem lawQueue_linearizable_one : ∃ P : Pool (Watched.object (params 2)).service,
    (answer P 3 = some (some 7) ∧ answer P 4 = some (some 1)) ∧
      ∃ log x, Linearizes (Watched.settings 1 1 (spec Call.interface 2)) P.world log ∧
        (Watched.settings 1 1 (spec Call.interface 2)).Run log x ∧ x.1 = P.world.shared.1.width ∧
        x.2.1 = P.world.shared.1.depth ∧ Holds 2 P.world.shared.1.queues x.2.2 := by
  have h : (((Pool.init (Watched.object (params 2)).service (initial (params 2) 1 1,
    {}) .zero).execIf
      (fun _ x' => decide (x'.2.late = false)) helped).any fun P =>
        decide (answer P 3 = some (some 7) ∧ answer P 4 = some (some 1))) = true := by
    decide +kernel
  have hok : Move.allow (Call.valid (params 2)) helped = true := by decide +kernel
  obtain ⟨P, hP, h⟩ := (Option.any_eq_true _ _).1 h
  exact ⟨P, of_decide_eq_true h, lawQueue_linearizable (by decide) (by decide) le_rfl
    (Pool.execIf_reach (fun _ _ h => of_decide_eq_true h) hP
      (fun _ _ hm _ => Call.of_valid (Move.valid_of_allow hok hm)) .init)⟩

/-- In a run in which besides the lateral head moves off get windows only whose sub-queues all fail
the test of `get_window`, a queue explains the calls whose dequeues pass over `depth * (width - 1)`
older values at most, where `depth` and `width` are those of the window that the value was put into.
They have been passed to `create_queue` or to a call. -/
theorem lawQueue_relaxed {maxWidth width depth : ℕ} (hm : maxWidth < 2 ^ 16)
    (hw : 1 ≤ width ∧ width ≤ maxWidth) (hd : 1 ≤ depth)
    {P : Pool (Watched.object (params maxWidth)).service}
    (hr : AtomicProg.Reach (fun call _ => Call.Valid (params maxWidth) call) Watched.Timely
      (initial (params maxWidth) width depth, {}) .zero P) :
    ∃ log x, Linearizes (Watched.settings width depth (Watched.layered maxWidth)) P.world log ∧
      (Watched.settings width depth (Watched.layered maxWidth)).Run log x ∧
      x.1 = P.world.shared.1.width ∧ x.2.1 = P.world.shared.1.depth ∧
        x.2.2.1 <+: P.world.shared.1.windows ∧
      x.2.2.2 = Watched.stored P.world.shared.1 ∧ ∀ w ∈ P.world.shared.1.windows.tail,
        Chosen width depth P.world.calls w.width w.depth := by
  have hp : (params maxWidth).WF := ⟨hm, (by decide : 2 < 2 ^ 16)⟩
  obtain ⟨log, x, hlog, hrun, h₁, h₂, h₃⟩ :=
    Watched.queue_explained (Watched.explains_layered (params maxWidth))
    ⟨List.nil_prefix, rfl, List.Pairwise.nil⟩ hp hw hd (Watched.runs_timely hp hw hd hr)
  exact ⟨log, x, hlog, hrun, h₁, h₂, h₃.windows, h₃.items,
    Watched.windows_chosen hp hw hd (hr.strengthen fun _ _ _ _ _ _ _ => True.intro)⟩

/-- Two values in the first window and one in a deeper window. -/
def deepened : List (Move (Watched.object (params 2)).service) :=
  List.flatten [
    Move.start 0 Call.register 4 0,
    Move.start 1 Call.register 4 0,
    Move.start 0 (Call.enqueue 7) 17 0,
    Move.start 1 (Call.enqueue 8) 23 1,
    Move.start 1 Call.dequeue 24 1,
    Move.start 1 (Call.updateDepth 2) 2 0,
    Move.start 0 (Call.enqueue 9) 55 0]

/-- The dequeue takes the younger value of the first window, and the last value lies in a window of
depth 2. -/
theorem lawQueue_relaxed_one : ∃ P : Pool (Watched.object (params 2)).service,
    (answer P 4 = some (some 8) ∧ (Watched.stored P.world.shared.1).map
      (fun e => (e.val, e.window.depth)) = [(7, 1), (9, 2)]) ∧
      ∃ log x, Linearizes (Watched.settings 2 1 (Watched.layered 2)) P.world log ∧
        (Watched.settings 2 1 (Watched.layered 2)).Run log x ∧ x.1 = P.world.shared.1.width ∧
        x.2.1 = P.world.shared.1.depth ∧ x.2.2.1 <+: P.world.shared.1.windows ∧
        x.2.2.2 = Watched.stored P.world.shared.1 ∧ ∀ w ∈ P.world.shared.1.windows.tail,
          Chosen 2 1 P.world.calls w.width w.depth := by
  have h : (((Pool.init (Watched.object (params 2)).service (initial (params 2) 2 1,
    {}) .zero).execIf
      (fun x x' => decide (Watched.Timely x x')) deepened).any fun P =>
        decide (answer P 4 = some (some 8) ∧ (Watched.stored P.world.shared.1).map
          (fun e => (e.val, e.window.depth)) = [(7, 1), (9, 2)])) = true := by
    decide +kernel
  have hok : Move.allow (Call.valid (params 2)) deepened = true := by decide +kernel
  obtain ⟨P, hP, h⟩ := (Option.any_eq_true _ _).1 h
  exact ⟨P, of_decide_eq_true h, lawQueue_relaxed (by decide) (by decide) le_rfl
    (Pool.execIf_reach (fun _ _ h => of_decide_eq_true h) hP
      (fun _ _ hm _ => Call.of_valid (Move.valid_of_allow hok hm)) .init)⟩

end ElasticLaw
