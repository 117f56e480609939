import SemanticRelaxation.Prog.Between
import SemanticRelaxation.Prog.Lifting
import SemanticRelaxation.Support.WindowedFifos
import SemanticRelaxation.ElasticLpw.Concurrent

/-!
# The calls of the elastic LpW queue

A put takes effect when its node is linked, a get when the head is exchanged, or when it found no
node behind the head. The exchanges of the settings take effect at once. In runs that are clean,
`max_width` queues and the two settings explain the calls (`lpwQueue_linearizable`).

* `settings`: the queues with the registers that `update_width` and `update_depth` exchange;
* `quietly`: a program that leaves the nodes, the heads and the settings alone keeps its
  specification;
* `enqCae_commits`, `deqCae_commits`, `misses`, `settings_commit`: the other steps.
-/

namespace ElasticLpw

open AtomicProg Linked MichaelScott Windowed Fifos

/-- A put answers 1, a get the value or nothing. -/
def Call.interface : Interface Call (Option ℤ) where
  kind
    | .enqueue val => .put val
    | .dequeue => .get
    | _ => .other
  done := some 1
  got := some
  empty := none

namespace Watched

/-- `n` queues next to two registers with the width and the depth of the next windows. -/
def settings (width depth n : ℕ) : Spec Call (Option ℤ) where
  State := ℕ × ℕ × (spec Call.interface n).State
  init := (width, depth, (spec Call.interface n).init)
  step x call r x' := match call with
    | .updateWidth w => r = some (x.1 : ℤ) ∧ x' = (w, x.2.1, x.2.2)
    | .updateDepth d => r = some (x.2.1 : ℤ) ∧ x' = (x.1, d, x.2.2)
    | call => x'.1 = x.1 ∧ x'.2.1 = x.2.1 ∧ (spec Call.interface n).step x.2.2 call r x'.2.2

/-- What all threads keep to in runs that are clean. -/
abbrev timely (set : Params) : Regime Call (State × Watch) Ghost :=
  (regime Call set).within fun x => x.2.Clean

/-- The shared state stands for the settings and the contents of the sub-queues. -/
abbrev linear (width depth : ℕ) (set : Params) :
    Model (settings width depth set.maxWidth) (State × Watch) Ghost :=
  Model.ofRegime (settings width depth set.maxWidth) (timely set) fun y x =>
    y.1 = x.1.1.width ∧ y.2.1 = x.1.1.depth ∧ Holds set.maxWidth x.1.1.queues y.2.2

/-- The rules of the queue. -/
abbrev rules (width depth : ℕ) (set : Params) :
    Protocol (object set).service (Ghost × Account (settings width depth set.maxWidth)) :=
  (Model.results (S := (object set).service) (linear width depth set)).protocol

section Exchanges

variable {width depth : ℕ} {set : Params} {c : Caller} {v v₁ v₂ : View (rules width depth set) c}
  {call : (object set).service.Call} {r : (object set).service.Ret} {val : ℤ} {j n p : ℕ}

/-- The view without the history. -/
abbrev plain (v : View (rules width depth set) c) :
    View (Results.trivial (object set).service (regime Call set)).protocol c :=
  View.widen (Model.forget v)

theorem plain_le (h : v ≤ v₁) : plain v ≤ plain v₁ := View.widen_le (Model.forget_le h)

theorem later_plain (h : v ≤ v₁) : Later (plain v).pair (plain v₁).pair := later_of_le (plain_le h)

theorem along_plain (h : v ≤ v₁) : Along (plain v) (plain v₁) := .of_le (plain_le h)

theorem clean_of (v : View (rules width depth set) c) : v.state.2.Clean :=
  (Model.forget v).inv_pair.2

/-- A quiet program keeps its specification. -/
theorem quietly {α : Type} {p : Prog (State × Watch) α} {q : Prog State α} (hp : p.Annotates q)
    (hq : q.Steps Quiet)
    {Q : α → View (Results.trivial (object set).service (regime Call set)).protocol c → Prop}
    (h : wp (Results.trivial (object set).service (regime Call set)).protocol c p Q (plain v)) :
    wp (rules width depth set) c p (fun a v' => Q a (plain v') ∧ Model.Tracks v v') v := by
  refine Model.lift (fun y _ o x x' g g' hR _ _ hy => ?_) (hp.steps hq) (View.within h)
  refine ⟨hy.1.trans hR.width.symm, hy.2.1.trans hR.depth.symm, hy.2.2.congr fun j _ => ?_⟩
  refine content_congr ?_ ?_ fun k _ => ?_
  · exact congrArg (fun m : Mem ℕ => m.line j) hR.nodes
  · exact congrArg (fun a : ℕ → Descriptor => (a j).node) hR.get
  · exact congrArg (fun m : Mem ℕ => (m.heap k).val) hR.nodes

theorem quietly_fst {α : Type} {p : Prog State α} (hp : p.Steps Quiet)
    {Q : α → View (Results.trivial (object set).service (regime Call set)).protocol c → Prop}
    (h : wp (Results.trivial (object set).service (regime Call set)).protocol c p.onFst Q
      (plain v)) :
    wp (rules width depth set) c p.onFst (fun a v' => Q a (plain v') ∧ Model.Tracks v v') v :=
  quietly (.onFst p) hp h

/-- An assertion that holds. -/
theorem assert_quiet {b : Bool} (hb : b = true) : wp (rules width depth set) c (assert b).onFst
    (fun _ v' => Along (plain v) (plain v') ∧ Model.Tracks v v') v :=
  quietly_fst (quiet_assert b) (assert_true hb)

/-- A step in which the call takes effect on the nodes. -/
theorem commits (h : Model.Waiting call v) {x : State × Watch} {g : Ghost}
    (hall : (Results.trivial (object set).service (regime Call set)).protocol.Allows c (plain v).now
      ((plain v).after x g)) (hclean : x.2.Clean)
    (hw : x.1.width = v.state.1.width) (hd : x.1.depth = v.state.1.depth)
    (hcall : ∀ y y' : (settings width depth set.maxWidth).State, y'.1 = y.1 ∧ y'.2.1 = y.2.1 ∧
      (spec Call.interface set.maxWidth).step y.2.2 call r y'.2.2 →
      (settings width depth set.maxWidth).step y call r y')
    (hs : ∀ y, Holds set.maxWidth v.state.1.queues y →
      ∃ y', (spec Call.interface set.maxWidth).step y call r y' ∧
      Holds set.maxWidth x.1.queues y') : ∃ y',
      (rules width depth set).Allows c v.now
      (v.after x (g, (Model.hist v).append ⟨⟨c.op, call, r⟩, y'⟩)) := by
  refine Model.commits_of v (View.allows_within (Model.forget v) hall hclean) h.undone h.call
    fun y hy => ?_
  obtain ⟨y', hstep, hy'⟩ := hs y.2.2 hy.2.2
  exact ⟨(y.1, y.2.1, y'), hcall y _ ⟨rfl, rfl, hstep⟩, hy.1.trans hw.symm,
    hy.2.1.trans hd.symm, hy'⟩

/-- The running call has its node, which is not linked yet. -/
structure Ready (val : ℤ) (n : ℕ) (v : View (rules width depth set) c) : Prop where
  waiting : Model.Waiting (S := (object set).service) (Call.enqueue val) v
  mine : Mine set.maxWidth c.op n (plain v).pair
  val : (v.state.1.nodes.heap n).val = val

theorem Ready.tracks (h : Ready val n v) (ht : Model.Tracks v v₁)
    (hs : Along (plain v) (plain v₁)) :
    Ready val n v₁ where
  waiting := h.waiting.tracks ht
  mine := h.mine.along hs
  val := (hs.owned.grows.val n h.mine.unlinked.lt_fresh).trans h.val

theorem Ready.later (h : Ready val n v) (h₁ : v ≤ v₁) : Ready val n v₁ :=
  h.tracks (.of_le h₁) (along_plain h₁)

theorem createNode_ready (h : Model.Waiting (S := (object set).service) (Call.enqueue val) v) :
    wp (rules width depth set) c (createNode val).onFst
      (fun n v' => Along (plain v) (plain v') ∧ Ready val n v') v := by
  intro v₁ h₁ _ _
  have hi := inv_of (plain v₁)
  have hk := fun o => Kept.createNode (s := v₁.state.1) (w := v₁.state.2) (g := (plain v₁).now.2)
    (n := set.maxWidth)
    (o := o) val c.op
  have hall := allows_step (plain v₁) (hi.createNode val c.op) fun o _ => hk o
  have hall' := Model.allows_of v₁ (View.allows_within (Model.forget v₁) hall (clean_of v₁))
    fun y hy =>
    ⟨hy.1, hy.2.1, hy.2.2.congr fun j hj => content_congr rfl rfl fun k hk =>
      (Grows.create _ val).val k (hi.filled.valid.lines.lt_fresh j hj k hk)⟩
  have hs : Along (plain v) (plain (v₁.step _ _ hall'.inv)) :=
    (along_plain h₁).trans ⟨(hk (.op 0)).toLater, (hk _).owned⟩
  refine ⟨_, hall', hs, h.tracks ((Model.Tracks.of_le h₁).trans .step),
    ⟨Function.update_self .., ?_⟩, ?_⟩
  · exact .create hi.filled.valid.lines val
  · show (Function.update v₁.state.1.nodes.heap v₁.state.1.nodes.fresh _
      v₁.state.1.nodes.fresh).val = val
    rw [Function.update_self]

/-- The put takes effect when its node is linked. -/
theorem enqCae_commits {u : PutWindow} {d : Descriptor} (hu : u ∈ windows v.state.1 (plain v).now.2)
    (hj : j < u.width) (ht : WasTail j d v.state.1.queues (plain v).now.2.places)
    (hc : d.count < u.max) (hn : Ready val n v) :
    wp (rules width depth set) c (enqCae j d.node n (ElasticLpw.nextRow u.bottom d.count)).onFst
      (fun r v' => Later (plain v).pair (plain v').pair ∧
        if r then Model.Done v' (some (1 : ℤ)) ∧ Behind j d n (ElasticLpw.nextRow u.bottom d.count)
          (plain v').pair
        else Ready val n v') v := by
  have hjn : j < set.maxWidth := hj.trans_le ((inv_of (plain v)).history.ok_of_mem hu).width.2
  refine wp.cae_fst (fun v₁ h₁ he _ => ?_) fun v₁ h₁ _ => ⟨later_plain h₁, hn.later h₁⟩
  have hl := later_plain h₁
  have hi₁ := inv_of (plain v₁)
  have hn₁ := hn.later h₁
  obtain ⟨t, hd, hline, hcount⟩ := (ht.grown hl.queues).of_last hi₁.filled hjn he
  have hcount : ((plain v₁).state.1.putArray j).count = d.count := hcount
  have hnow := hi₁.present (hl.mem_windows hu) hj (hcount.trans_lt hc)
  subst hnow
  have he : (v₁.state.1.nodes.deref d.node).next = none := he
  rw [hd] at he ⊢
  have hi := hi₁.linkNode hjn hj hline le_rfl he hn₁.mine.unlinked (hcount.trans_lt hc)
    (ElasticLpw.nextRow (plain v₁).state.1.globalPWindow.bottom d.count)
  rw [hcount] at hi
  have hall := allows_step (plain v₁) hi fun o ho => .linkNode ho hn₁.mine.owner hjn hline _ _
  obtain ⟨_, hall'⟩ := commits (r := some (1 : ℤ)) hn₁.waiting hall (clean_of v₁) rfl rfl
    (fun _ _ h => h) fun y hy =>
    (hi₁.headed (clean_of v₁)).holds_link (I := Call.interface) hi₁.filled hjn hline le_rfl he
      hn₁.mine.unlinked
      (congrArg Kind.put hn₁.val.symm) hy
  exact ⟨_, hall', hl.trans (.linkNode j t n _ _), Model.done_append hall',
    .of_link hi₁ hjn hd hline he _ _⟩

/-- The get takes effect when the head is exchanged. -/
theorem deqCae_commits {max row : ℕ} {d : Descriptor} {next : Option ℕ} (hj : j < set.maxWidth)
    (hrow : d.count ≤ row) (h : Takeable max j d ⟨next, row⟩ (plain v).pair)
    (hw : Model.Waiting (S := (object set).service) Call.dequeue v) :
    wp (rules width depth set) c (deqCae max j d ⟨next, row⟩)
      (fun r v' => Along (plain v) (plain v') ∧
        if r then ∃ m < v'.state.1.nodes.fresh, next = some m ∧
          Model.Done v' (some (v'.state.1.nodes.heap m).val)
        else Model.Waiting (S := (object set).service) Call.dequeue v') v := by
  refine wp.cae (fun v₁ h₁ he hassume => ?_) fun v₁ h₁ _ => ⟨along_plain h₁, hw.later h₁⟩
  have hi := inv_of (plain v₁)
  have he : v₁.state.1.getArray j = d := he
  have hc : Watch.Clean { v₁.state.2 with late := v₁.state.2.late || decide (max ≤ d.count) } :=
    hassume.2
  have hlt : d.count < max := not_le.1 (of_decide_eq_false (Bool.or_eq_false_iff.1 hc.2).2)
  have hwatch : v₁.state.2.Before
    { v₁.state.2 with late := v₁.state.2.late || decide (max ≤ d.count) } :=
    ⟨id, id, fun h => (Bool.or_eq_false_iff.1 h).1⟩
  have hle : ((plain v₁).state.1.getArray j).count ≤ row := by
    rw [show (plain v₁).state.1.getArray j = d from he]
    exact hrow
  obtain ⟨m, hm, hp, hline, hrows⟩ := (h.later (later_plain h₁)).behind hi hj (clean_of v₁) hlt he
  obtain rfl : next = some m := hm
  have hkept := fun o => Kept.takeNode (s := (plain v₁).state.1) (g := (plain v₁).now.2)
    (n := set.maxWidth) (o := o)
    (d := ⟨some m, row⟩) hwatch hle
  have hall := allows_step (plain v₁)
    (hi.takeNode (d := ⟨some m, row⟩) hwatch id hc hj hp hline.symm hrows)
    fun o _ => hkept o
  obtain ⟨_, hall'⟩ := commits (r := some ((plain v₁).state.1.nodes.heap m).val)
    (hw.later h₁) hall hc rfl rfl
    (fun _ _ h => h) fun y hy => (hi.headed (clean_of v₁)).holds_take
    (I := Call.interface) hi.filled hj hp hline row
      rfl hy
  refine ⟨_, hall', (along_plain h₁).trans ⟨(hkept (.op 0)).toLater, (hkept _).owned⟩, m, ?_, rfl,
    Model.done_append hall'⟩
  exact hi.filled.valid.lines.lt_fresh j hj m (List.mem_of_getElem? hline)

/-- The get finds no node behind one that had been the head. -/
theorem misses (hw : Model.Waiting (S := (object set).service) Call.dequeue v)
    (hj : j < set.maxWidth) {t : ℕ}
    (ht : (v.state.1.nodes.line j)[p]? = some t) (hp : p ≤ (plain v).now.2.places.getPos j)
    (hnone : (v.state.1.nodes.heap t).next = none) : ∃ g,
      ∃ hall : (rules width depth set).Allows c v.now (v.after v.state g),
        Along (plain v) (plain (v.step _ g hall.inv)) ∧
          Model.Done (v.step _ g hall.inv) (none : Option ℤ) := by
  have hi := inv_of (plain v)
  obtain ⟨_, hall⟩ := commits hw (wp.allows_self (plain v)) (clean_of v) rfl rfl (fun _ _ h => h)
    fun y hy =>
    ⟨y, (hi.headed (clean_of v)).holds_empty (I := Call.interface) hi.filled hj ht hp hnone rfl
      hy, hy⟩
  exact ⟨_, hall, ⟨(Along.refl (plain v)).later, (Along.refl (plain v)).owned⟩,
    Model.done_append hall⟩

/-- An exchange of the settings takes effect at once. -/
theorem settings_commit {w d : ℕ} (hw : Allocated set w) (hd : 0 < d) (h : Model.Waiting call v)
    (hcall : ∀ y : (settings width depth set.maxWidth).State, y.1 = v.state.1.width →
      y.2.1 = v.state.1.depth →
      (settings width depth set.maxWidth).step y call r (w, d, y.2.2)) : ∃ g,
      ∃ hall : (rules width depth set).Allows c v.now
          (v.after ({ v.state.1 with width := w, depth := d }, v.state.2) g),
        Along (plain v) (plain (v.step _ g hall.inv)) ∧ Model.Done (v.step _ g hall.inv) r := by
  have hi := inv_of (plain v)
  have hk := fun o => Kept.onSettings (s := (plain v).state.1) (g := (plain v).now.2)
    (n := set.maxWidth) (o := o) w d
    (plain v).state.1.failed (.refl (plain v).state.2)
  have hall := allows_step (plain v) (hi.onSettings (.refl _) hw hd hi.asserted hi.noted)
    fun o _ => hk o
  obtain ⟨_, hall'⟩ :=
    Model.commits_of v (View.allows_within (Model.forget v) hall (clean_of v)) h.undone h.call
    fun y hy => ⟨(w, d, y.2.2), hcall y hy.1 hy.2.1, rfl, rfl, hy.2.2⟩
  exact ⟨_, hall', ⟨(hk (.op 0)).toLater, (hk _).owned⟩, Model.done_append hall'⟩

theorem updateWidth_commits {w : ℕ} (hw : Allocated set w)
    (h : Model.Waiting (S := (object set).service) (Call.updateWidth w) v) :
    wp (rules width depth set) c (updateWidth w).onFst
      (fun r v' => Model.Done v' (some (r : ℤ)) ∧ Along (plain v) (plain v')) v := by
  intro v₁ h₁ _ _
  obtain ⟨g, hall, hs, hdone⟩ := settings_commit hw (inv_of (plain v₁)).depth (h.later h₁)
    (r := some ((plain v₁).state.1.width : ℤ)) fun y hw hd =>
      ⟨congrArg (fun n : ℕ => some (n : ℤ)) hw.symm, Prod.ext rfl (Prod.ext hd.symm rfl)⟩
  exact ⟨g, hall, hdone, (along_plain h₁).trans hs⟩

theorem updateDepth_commits {d : ℕ} (hd : 0 < d)
    (h : Model.Waiting (S := (object set).service) (Call.updateDepth d) v) :
    wp (rules width depth set) c (updateDepth d).onFst
      (fun r v' => Model.Done v' (some (r : ℤ)) ∧ Along (plain v) (plain v')) v := by
  intro v₁ h₁ _ _
  obtain ⟨g, hall, hs, hdone⟩ := settings_commit (inv_of (plain v₁)).width hd (h.later h₁)
    (r := some ((plain v₁).state.1.depth : ℤ)) fun y hw hd =>
      ⟨congrArg (fun n : ℕ => some (n : ℤ)) hd.symm, Prod.ext hw.symm rfl⟩
  exact ⟨g, hall, hdone, (along_plain h₁).trans hs⟩

end Exchanges

/-! ### The operations -/

section Operations

variable {width depth : ℕ} {set : Params} {c : Caller} {v v₁ v₂ : View (rules width depth set) c}
  {val : ℤ}
  {j n p : ℕ}

/-- What a round of `enqueue` ends with. -/
def Put (val : ℤ) (n : ℕ) (r : (Bool × Local) ⊕ (Local × Descriptor × Descriptor))
    (v : View (rules width depth set) c) : Prop :=
  Sum.elim (fun a => Known set a.2 (plain v).pair ∧ Ready val n v)
    (fun a => Known set a.1 (plain v).pair ∧ a.1.putIndex < set.maxWidth ∧
      Model.Done v (some (1 : ℤ)) ∧
      ∃ r, a.2.2 = ⟨some n, r⟩ ∧ Behind a.1.putIndex a.2.1 n r (plain v).pair) r

/-- What a round of `dequeue` ends with. -/
def Answered (u : PutWindow) (r : (Bool × Local) ⊕ (Local × Option ℤ))
    (v : View (rules width depth set) c) : Prop :=
  Sum.elim (fun a => a.2.pWindow = u ∧ Known set a.2 (plain v).pair ∧ a.2.gWindow.max ≠ 0 ∧
      Model.Waiting (S := (object set).service) Call.dequeue v)
    (fun a => Known set a.1 (plain v).pair ∧ Model.Done v (a.2 : Option ℤ)) r

theorem tryLink_commits {contention : Bool} {tl : Local} {d : Descriptor}
    (hkn : Known set tl (plain v).pair) (hu : tl.pWindow ∈ windows v.state.1 (plain v).now.2)
    (hj : tl.putIndex < tl.pWindow.width) (ht : WasTail tl.putIndex d v.state.1.queues
      (plain v).now.2.places) (hc : d.count < tl.pWindow.max)
    (hn : Ready val n v) :
    wp (rules width depth set) c (tryLink n contention tl d).onFst (Put val n) v := by
  have hok := (inv_of (plain v)).history.ok_of_mem hu
  refine wp.read_fst fun v₁ h₁ => ?_
  have hl₁ := later_plain h₁
  have hn₁ := hn.later h₁
  split
  next =>
    refine wp.bind_fst (enqCae_commits (hl₁.mem_windows hu) hj (ht.grown hl₁.queues) hc hn₁) ?_
    rintro (_ | _) v₂ ⟨hl₂, h₂⟩
    · exact ⟨hkn.later (hl₁.trans hl₂), h₂⟩
    · refine wp.bind_fst (assert_quiet (decide_eq_true hj.le)) ?_
      rintro - v₃ ⟨hs₃, ht₃⟩
      exact ⟨hkn.later (hl₁.trans (hl₂.trans hs₃.later)), hj.trans_le hok.width.2,
        Model.Done.tracks h₂.1 ht₃, _, rfl,
        Behind.later h₂.2 hs₃.later⟩
  next hne =>
    refine wp.read_fst fun v₂ h₂ => ?_
    have hl₂ := hl₁.trans (later_plain h₂)
    have ht₂ := ht.grown hl₂.queues
    have hjn : tl.putIndex < set.maxWidth := hj.trans_le hok.width.2
    have hstays := (ht.grown hl₁.queues).next_grown (inv_of (plain v₁)).filled
      (inv_of (plain v₂)).filled
      (later_plain h₂).queues hjn hne
    have hne₂ : (v₂.state.1.nodes.deref d.node).next ≠ none := fun h₀ => hne (hstays.symm.trans h₀)
    refine wp.bind_fst (quietly_fst (quiet_putCae _ _ _)
      (putCae_help (hl₂.mem_windows hu) hj ht₂ hc rfl hne₂)) ?_
    rintro (_ | _) v₃ ⟨hs₃, ht₃⟩
    · exact ⟨hkn.later (hl₂.trans hs₃.later), (hn₁.later h₂).tracks ht₃ hs₃⟩
    · have hle : ElasticLpw.nextRow tl.pWindow.bottom d.count ≤ tl.pWindow.max := by
        exact Windowed.nextRow_le hc ((inv_of (plain v)).spans.lt_of_mem (List.mem_map_of_mem hu))
      refine wp.bind_fst (assert_quiet (decide_eq_true hle)) ?_
      rintro - v₄ ⟨hs₄, ht₄⟩
      exact ⟨hkn.later (hl₂.trans (hs₃.trans hs₄).later), (hn₁.later h₂).tracks (ht₃.trans ht₄)
        (hs₃.trans hs₄)⟩

theorem enqueueRound_commits (hp : set.WF) {contention : Bool} {tl : Local}
    (hkn : Known set tl (plain v).pair) (hn : Ready val n v) :
    wp (rules width depth set) c (enqueueRound set n contention tl).onFst (Put val n) v := by
  refine wp.bind_fst (quietly_fst (quiet_putWindow _ _) (putWindow_spec hp hkn)) ?_
  rintro ⟨d, tl'⟩ v₁ ⟨⟨hs₁, hkn₁, hu, hget, hj, ht, hc⟩, ht₁⟩
  have hn₁ := hn.tracks ht₁ hs₁
  refine wp.bind_fst (assert_quiet (decide_eq_true hget)) ?_
  rintro - v₂ ⟨hs₂, ht₂⟩
  refine wp.bind_fst (assert_quiet (decide_eq_true hc)) ?_
  rintro - v₃ ⟨hs₃, ht₃⟩
  have hn₃ := hn₁.tracks (ht₂.trans ht₃) (hs₂.trans hs₃)
  refine wp.read_fst fun v₄ h₄ => ?_
  have hl₄ := (hs₂.trans hs₃).later.trans (later_plain h₄)
  have hkn₄ := hkn₁.later hl₄
  have hn₄ := hn₃.later h₄
  split
  next => exact ⟨hkn₄, hn₄⟩
  next => exact tryLink_commits hkn₄ (hl₄.mem_windows hu) hj (ht.grown hl₄.queues) hc hn₄

theorem enqueue_commits (hp : set.WF) {tl : Local} (hkn : Known set tl (plain v).pair)
    (h : Model.Waiting (S := (object set).service) (Call.enqueue val) v) :
    wp (rules width depth set) c (enqueue set val tl).onFst
      (fun r v' => Model.Done v' (some r.2) ∧ Known set r.1 (plain v').pair) v := by
  refine wp.bind_fst (createNode_ready h) ?_
  rintro n v₁ ⟨hs₁, hn⟩
  refine wp.bind_fst (wp.forever_fst (Q := fun a v' => Put val n (.inr a) v')
    (fun b v' => Put val n (.inl b) v') ⟨hkn.later hs₁.later, hn⟩ ?_) ?_
  · rintro ⟨contention, tl'⟩ v₂ h₂
    refine (enqueueRound_commits hp h₂.1 h₂.2).mono ?_
    rintro (a | a) v₃ h₃
    · exact h₃
    · exact h₃
  · rintro ⟨tl', d, d'⟩ v₂ ⟨hkn₂, hj, hdone, r, hd, hb⟩
    obtain rfl : d' = ⟨some n, r⟩ := hd
    exact wp.bind_fst (quietly_fst (quiet_putCae _ _ _) (putCae_linked hj hb)) fun _ v₃ h₃ =>
      ⟨Model.Done.tracks hdone h₃.2, hkn₂.later h₃.1.later⟩

theorem nonOverlap_commits {d : Descriptor} {tl : Local} (hkn : Known set tl (plain v).pair)
    (h0 : tl.gWindow.max ≠ 0) (hgot : Got v.state.1 (plain v).now.2 tl.gWindow)
    (h : Removable tl.gWindow.max tl.getIndex d (plain v).pair)
    (hw : Model.Waiting (S := (object set).service) Call.dequeue v) :
    wp (rules width depth set) c (nonOverlap d tl)
      (fun r v' => Along (plain v) (plain v') ∧ Answered tl.pWindow r v') v := by
  have hidx := hkn.index h0
  have hj : tl.getIndex < set.maxWidth := hidx.trans_le (hkn.get.width h0).2
  refine wp.read fun v₁ h₁ => ?_
  have hl₁ := later_plain h₁
  have htake := (h.later hl₁).takeable (inv_of (plain v₁)) hj hidx fun _ =>
    hgot.later hl₁ (inv_of (plain v)) (inv_of (plain v₁)) h0
  refine wp.bind_of (deqCae_commits hj (nextRow_gt tl.gWindow.bottom d.count).1.le htake
    (hw.later h₁)) ?_
  rintro (_ | _) v₂ ⟨hs₂, h₂⟩
  · have hs := (along_plain h₁).trans hs₂
    exact ⟨hs, rfl, hkn.later hs.later, h0, h₂⟩
  · obtain ⟨m, hm, hnext, hdone⟩ := h₂
    refine wp.read fun v₃ h₃ => ?_
    have hs := (along_plain h₁).trans (hs₂.trans (along_plain h₃))
    have hval : (v₃.state.1.nodes.heap m).val = (v₂.state.1.nodes.heap m).val :=
      (later_plain h₃).queues.store.val m hm
    refine ⟨hs, hkn.later hs.later, ?_⟩
    dsimp only
    rw [show (v₁.state.1.nodes.deref d.node).next = some m from hnext]
    show Model.Done v₃ (some (v₃.state.1.nodes.heap m).val)
    rw [hval]
    exact hdone.tracks (.of_le h₃)

theorem dequeueRound_commits (hp : set.WF) {contention : Bool} {tl : Local}
    (hkn : Known set tl (plain v).pair) (hb : Bounded tl.pWindow.bottom (plain v).pair)
    (hc : contention = true → tl.gWindow.max ≠ 0)
    (hw : Model.Waiting (S := (object set).service) Call.dequeue v) :
    wp (rules width depth set) c (dequeueRound set contention tl)
      (fun r v' => Along (plain v) (plain v') ∧ Answered tl.pWindow r v') v := by
  refine wp.bind_of (quietly (getWindow_annotates set contention tl) (quiet_getWindow _ _)
    (getWindow_spec hp hkn hb hc)) ?_
  rintro ⟨d, tl'⟩ v₁ ⟨⟨hs₁, hput, hkn₁, h0, hgot, hhead⟩, ht₁⟩
  have hput : tl'.pWindow = tl.pWindow := hput
  have hw₁ := hw.tracks ht₁
  have hidx := hkn₁.index h0
  have hj : tl'.getIndex < set.maxWidth := hidx.trans_le (hkn₁.get.width h0).2
  have hgot := hgot (clean_of v₁)
  have hhead := hhead (clean_of v₁)
  -- what `non_overlap` needs to know of the head
  have hremove : ∀ {v' : View (rules width depth set) c}, Along (plain v₁) (plain v') →
      Model.Waiting (S := (object set).service) Call.dequeue v' → (d.count < tl'.gWindow.max →
      ∀ p r : ℕ, (v₁.state.1.nodes.line tl'.getIndex)[p]? = d.node →
        p ≤ (plain v₁).now.2.places.getPos tl'.getIndex →
        ((plain v₁).now.2.places.rows tl'.getIndex)[p]? = some r → r ≤ d.count →
          p < (plain v').now.2.places.putPos tl'.getIndex) →
      wp (rules width depth set) c (nonOverlap d tl')
        (fun r v'' => Along (plain v) (plain v'') ∧ Answered tl.pWindow r v'') v' := by
    intro v' hs' hw' hlt
    refine (nonOverlap_commits (hkn₁.later hs'.later) h0
      (hgot.later hs'.later (inv_of (plain v₁)) (inv_of (plain v')) h0)
      (removable_of (inv_of (plain v₁)) hj hs'.later (fun _ => hhead) fun _ => hlt) hw').mono ?_
    rintro r v'' ⟨hs'', hr⟩
    exact ⟨(hs₁.trans hs').trans hs'', hput ▸ hr⟩
  dsimp only
  split
  next =>
    refine wp.bind_of (quietly_fst (quiet_readDescriptor _ _) (readTail_spec hj)) ?_
    rintro e v₃ ⟨⟨htail, v₂, h₂, h₃, he⟩, ht₃⟩
    have hl₂ := later_of_le h₂
    have hs₃ : Along (plain v₁) (plain v₃) := .of_le (h₂.trans h₃)
    have hw₃ := hw₁.tracks ht₃
    obtain ⟨p₀, t, hd, hline, hpos, -⟩ := id hhead
    split
    next heq =>
      refine Model.read_cases fun v₄ h₄ => ?_
      have hl₄ := hs₃.later.trans (later_plain h₄)
      by_cases hnext : (v₄.state.1.nodes.deref d.node).next = none
      · rw [hd] at hnext
        obtain ⟨g, hall, hs₅, hdone⟩ :=
          misses (hw₃.later h₄) hj (hl₄.queues.line hline) (hpos.trans (hl₄.queues.getPos _)) hnext
        have hs := hs₃.trans ((along_plain h₄).trans hs₅)
        refine .inr ⟨g, hall, ?_⟩
        rw [if_pos (hd ▸ hnext)]
        exact ⟨hs₁.trans hs, hkn₁.later hs.later, hdone⟩
      · refine .inl ?_
        rw [if_neg hnext]
        have hne₄ : (v₄.state.1.nodes.deref e.node).next ≠ none := heq ▸ hnext
        refine wp.bind_of (quietly_fst (quiet_helpEnqueue _ _ _)
          (helpEnqueue_spec hj (htail.grown (later_plain h₄).queues) hne₄)) ?_
        rintro ⟨b, tl''⟩ v₅ ⟨⟨hs₅, htl⟩, ht₅⟩
        obtain rfl : tl'' = tl' := htl
        have hs := hs₃.trans ((along_plain h₄).trans hs₅)
        exact ⟨hs₁.trans hs, hput, hkn₁.later hs.later, h0, (hw₃.later h₄).tracks ht₅⟩
    next hne =>
      refine hremove hs₃ hw₃ fun hmax p r ht hpos hr hrow => ?_
      have hline₂ : (v₂.state.1.nodes.line tl'.getIndex)[p]? = d.node := by
        rw [hd] at ht ⊢
        exact hl₂.queues.line ht
      exact ((inv_of _).filled.before_tail hj (hpos.trans (hl₂.queues.getPos _)) hline₂
        (he ▸ hne)).trans_le
        ((later_of_le h₃).queues.putPos _)
  next hge =>
    refine hremove (.refl (plain v₁)) hw₁ fun hmax p r ht hpos hr hrow => ?_
    have hbound := hb.later hs₁.later (inv_of (plain v)) (inv_of (plain v₁)) (clean_of v₁).1
    rw [← hput] at hbound
    exact (inv_of (plain v₁)).filled.lt_put hj hr hrow hmax ((not_lt.1 hge).trans hbound)
      (hidx.trans_eq hgot.top.symm)

theorem dequeue_commits (hp : set.WF) {tl : Local} (hkn : Known set tl (plain v).pair)
    (hw : Model.Waiting (S := (object set).service) Call.dequeue v) :
    wp (rules width depth set) c (dequeue set tl)
      (fun r v' => Model.Done v' (r.2 : Option ℤ) ∧ Known set r.1 (plain v').pair) v := by
  refine wp.read fun v₁ h₁ => ?_
  refine wp.bind_of (quietly (Prog.Annotates.readWith _ _) (quiet_read _)
    (loadPWindow_spec (hkn.later (later_plain h₁)) le_rfl)) ?_
  rintro u v₂ ⟨⟨-, hkn₂, hb⟩, ht₂⟩
  refine wp.forever (fun b v' => (Along (plain v₂) (plain v') ∧ b.2.pWindow = u) ∧
    Known set b.2 (plain v').pair ∧
    (b.1 = true → b.2.gWindow.max ≠ 0) ∧ Model.Waiting (S := (object set).service) Call.dequeue v')
    ⟨⟨.refl _, rfl⟩, hkn₂, nofun, (hw.later h₁).tracks ht₂⟩ ?_
  rintro ⟨contention, tl'⟩ v₃ ⟨⟨hs₃, hput⟩, hkn₃, hc, hw₃⟩
  obtain rfl : tl'.pWindow = u := hput
  refine (dequeueRound_commits hp hkn₃ (hb.later hs₃.later (inv_of _) (inv_of (plain v₃))) hc
    hw₃).mono ?_
  rintro (⟨contention', tl''⟩ | r) v₄ ⟨hs₄, h₄⟩
  · exact ⟨⟨hs₃.trans hs₄, h₄.1⟩, h₄.2.1, fun _ => h₄.2.2.1, h₄.2.2.2⟩
  · exact ⟨h₄.2, h₄.1⟩

theorem queue_linear (hp : set.WF) (hw : Allocated set width) (hd : 0 < depth) :
    Linear (S := (object set).service) (linear width depth set) (Call.Valid set)
      (fun _ l x => Known set l x)
      (initial set width depth, {}) ⟨[], .init, fun _ => 0, 0⟩ .zero where
  init := ⟨⟨inv_initial hw.1 hw.2 hd, rfl, rfl⟩, rfl, rfl, Holds.init set.maxWidth⟩
  init_fresh _ := True.intro
  init_loc _ := .zero (inv_initial hw.1 hw.2 hd)
  loc_later _ _ _ _ _ _ _ _ _ _ hk h := h.later hk.toLater
  code t op call l v hcall hok hkn _ hu hm := by
    have hw : Model.Waiting (S := (object set).service) call v := ⟨hcall, hu, _, hm⟩
    cases call with
    | enqueue val => exact wp.bind_fst (enqueue_commits hp hkn hw) fun _ _ h => ⟨.inl h.1, h.2⟩
    | dequeue => exact (dequeue_commits hp hkn hw).mono fun _ _ h => ⟨.inl h.1, h.2⟩
    | updateWidth w => exact wp.bind_fst (updateWidth_commits hok hw) fun _ _ h =>
        ⟨.inl h.1, hkn.later h.2.later⟩
    | updateDepth d => exact wp.bind_fst (updateDepth_commits hok.1 hw) fun _ _ h =>
        ⟨.inl h.1, hkn.later h.2.later⟩

end Operations

end Watched

/-- In runs in which no dequeue has loaded a depth above its maximum and none has taken an item off
a sub-queue whose get count had reached the maximum of its get window, `max_width` queues and the
two settings explain the calls. -/
theorem lpwQueue_linearizable {maxWidth width depth : ℕ} (hm : maxWidth < 2 ^ 16)
    (hw : 1 ≤ width ∧ width ≤ maxWidth) (hd : 1 ≤ depth)
    {P : Pool (Watched.object (params maxWidth)).service} (hr : AtomicProg.Reach
      (fun call _ => Call.Valid (params maxWidth) call) (fun _ x' => x'.2.Clean)
      (initial (params maxWidth) width depth, {}) .zero P) :
    ∃ log x, Linearizes (Watched.settings width depth maxWidth) P.world log ∧
      (Watched.settings width depth maxWidth).Run log x ∧ x.1 = P.world.shared.1.width ∧
      x.2.1 = P.world.shared.1.depth ∧ Holds maxWidth P.world.shared.1.queues x.2.2 := by
  have hp : (params maxWidth).WF := ⟨hm, (by decide : 2 < 2 ^ 16)⟩
  have hr' : AtomicProg.Reach (fun call _ => Call.Valid (params maxWidth) call)
      (Watched.timely (params maxWidth)).assume (initial (params maxWidth) width depth,
        {}) .zero P :=
    hr.strengthen fun _ _ _ _ _ _ h => ⟨True.intro, h⟩
  obtain ⟨log, x, _, hlog, hrun, -, hst⟩ := (Watched.queue_linear hp hw hd).linearizes hr'
  exact ⟨log, x, hlog, hrun, hst⟩

/-- The answer of a call. -/
def answer {set : Params} (P : Pool (Watched.object set).service) (op : ℕ) : Option (Option ℤ) :=
  (P.world.returned op).map Prod.fst

/-- An enqueue has linked its node and not swung the tail. -/
def helped : List (Move (Watched.object (params 2)).service) :=
  List.flatten [
    Move.start 0 (Call.enqueue 7) 11 0,
    Move.start 1 Call.dequeue 58 0,
    Move.start 1 (Call.updateWidth 2) 2 0]

/-- The dequeue swings the tail and takes the value, and the width goes from 1 to 2. -/
theorem lpwQueue_linearizable_one : ∃ P : Pool (Watched.object (params 2)).service,
    (answer P 1 = some (some 7) ∧ answer P 2 = some (some 1)) ∧
      ∃ log x, Linearizes (Watched.settings 1 1 2) P.world log ∧
        (Watched.settings 1 1 2).Run log x ∧
        x.1 = P.world.shared.1.width ∧ x.2.1 = P.world.shared.1.depth ∧
          Holds 2 P.world.shared.1.queues x.2.2 := by
  have h : (((Pool.init (Watched.object (params 2)).service (initial (params 2) 1 1,
    {}) .zero).execIf
      (fun _ x' => decide x'.2.Clean) helped).any fun P =>
        decide (answer P 1 = some (some 7) ∧ answer P 2 = some (some 1))) = true := by
    decide +kernel
  have hok : Move.allow (Call.valid (params 2)) helped = true := by decide +kernel
  obtain ⟨P, hP, h⟩ := (Option.any_eq_true _ _).1 h
  exact ⟨P, of_decide_eq_true h, lpwQueue_linearizable (by decide) (by decide) le_rfl
    (Pool.execIf_reach (fun _ _ h => of_decide_eq_true h) hP
      (fun _ _ hm _ => Call.of_valid (Move.valid_of_allow hok hm)) .init)⟩

end ElasticLpw
