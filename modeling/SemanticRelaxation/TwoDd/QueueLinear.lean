import SemanticRelaxation.Prog.Lifting
import SemanticRelaxation.Support.Fifos
import SemanticRelaxation.TwoDd.QueueConcurrent

/-!
# The calls of the 2Dd queue

The windows decide on which sub-queue a call works, and not on what it finds there: a put takes
effect when its node is linked, a get when the head is exchanged, or when it found no node behind
the head. What explains these steps explains the calls, for any number of threads.

* `Quiet`: the steps that leave the nodes and the heads alone, such as those of the windows;
* `Explains`: an object explains the other steps. `explains_queues` and `explains_relaxed` are the
  objects;
* `createNode_ready`, `enqCas_commits`, `deqCae_commits`, `misses`: the exchanges, for the optimized
  queue as well;
* `queue_explained`, `twoDdQueue_linearizable` and `twoDdQueue_relaxed`.
-/

namespace TwoDd

namespace Queue

open AtomicProg Linked MichaelScott TwoD Concurrent Fifos

/-! ### Quiet steps -/

/-- A step that leaves the nodes and the heads alone. -/
def Quiet (s s' : State) : Prop := s'.mem.nodes = s.mem.nodes ∧ s'.mem.getArray = s.mem.getArray

theorem Quiet.refl (s : State) : Quiet s s := ⟨rfl, rfl⟩

theorem Quiet.content {s s' : State} (h : Quiet s s') (j : ℕ) :
    content s'.store j = content s.store j := by
  have hc : s'.store.cells = s.store.cells := congrArg Mem.toCells h.1
  have hg : s'.store.get = s.store.get := h.2
  refine content_congr (congrFun (congrArg Cells.line hc) j)
    (congrArg Descriptor.node (congrFun hg j)) fun k _ => ?_
  rw [hc]

section Quiet

variable {set : Params}

theorem quiet_read {α : Type} (f : State → α) : (Prog.read f).Steps Quiet := .read Quiet.refl f

theorem quiet_randomIndex (ty : Types) (width : ℕ) : (TwoD.randomIndex ty width).Steps Quiet :=
  .bind (.choose Quiet.refl) fun _ => True.intro

theorem quiet_hop (ty : Types) (hops width index random count : ℕ) :
    (TwoD.hop ty hops width index random count).Steps Quiet := by
  unfold TwoD.hop
  split
  · exact .bind (quiet_randomIndex _ _) fun _ => True.intro
  · exact True.intro

theorem quiet_readDescriptor (array : Memory → ℕ → Descriptor) (index : ℕ) :
    (readDescriptor (X := Memory) array index).Steps Quiet :=
  .bind (quiet_read _) fun _ => .bind (quiet_read _) fun _ => True.intro

theorem quiet_startIndex (contention : Bool) (index : ℕ) :
    (startIndex set contention index : Prog State ℕ).Steps Quiet := by
  unfold startIndex
  split
  · exact quiet_randomIndex _ _
  · exact True.intro

theorem quiet_syncWindow (window : State → ℕ) (old : ℕ) : (syncWindow window old).Steps Quiet := by
  refine .bind (quiet_read _) fun max => ?_
  split
  · exact quiet_read _
  · exact True.intro

theorem quiet_shiftWindow {window : State → ℕ} {store : ℕ → State → State}
    (h : ∀ m s, Quiet s (store m s)) (old new : ℕ) :
    (shiftWindow window store old new).Steps Quiet := by
  refine .bind (.bind (quiet_read _) fun max => ?_) fun _ => quiet_read _
  split
  · exact .bind (.cae Quiet.refl fun s _ => h new s) fun _ => True.intro
  · exact True.intro

theorem quiet_putRound (st : Search) : (putRound set st : Prog State _).Steps Quiet := by
  refine .bind (quiet_readDescriptor _ _) fun d => .bind (quiet_read _) fun max => ?_
  split
  · exact True.intro
  · split
    · exact True.intro
    · split
      · exact .bind (quiet_hop _ _ _ _ _ _) fun _ => True.intro
      · refine .bind (quiet_shiftWindow ?_ _ _) fun _ => True.intro
        exact fun _ _ => ⟨rfl, rfl⟩

theorem quiet_putWindow (contention : Bool) (tl : Local) :
    (putWindow set contention tl : Prog State _).Steps Quiet :=
  .bind (quiet_startIndex _ _) fun _ => .bind (quiet_syncWindow _ _) fun _ =>
    .forever quiet_putRound _

theorem quiet_getRound (st : Search) : (getRound set st : Prog State _).Steps Quiet := by
  refine .bind (quiet_readDescriptor _ _) fun d => .bind (quiet_read _) fun count =>
    .bind (quiet_read _) fun max => ?_
  split
  · exact True.intro
  · split
    · exact True.intro
    · split
      · exact .bind (quiet_hop _ _ _ _ _ _) fun _ => True.intro
      · split
        · refine .bind (quiet_shiftWindow ?_ _ _) fun _ => True.intro
          exact fun _ _ => ⟨rfl, rfl⟩
        · exact True.intro

theorem quiet_getWindow (contention : Bool) (tl : Local) :
    (getWindow set contention tl : Prog State _).Steps Quiet :=
  .bind (quiet_read _) fun _ => .bind (quiet_startIndex _ _) fun _ =>
    .bind (quiet_syncWindow _ _) fun _ =>
    .forever quiet_getRound _

theorem quiet_putCae (j : ℕ) (old new : Descriptor) : (putCae j old new).Steps Quiet :=
  .bind (.cae Quiet.refl fun _ _ => ⟨rfl, rfl⟩) fun _ => True.intro

end Quiet

/-! ### What the nodes stand for -/

/-- The nodes of the sub-queues stand for states of the object `A`, and the steps of the code are
its steps. -/
structure Explains {C R : Type} (A : Spec C R) (I : Interface C R) (set : Params)
    (assume : State → State → Prop) (stands : A.State → State → Prop) : Prop where
  quiet : ∀ {x s s'}, Quiet s s' → stands x s → stands x s'
  create : ∀ {x s} val, Inv set s → stands x s → stands x (s.onNodes (·.create val))
  link : ∀ {x s call j t n}, Inv set s → Inv set (s.onNodes (·.link j (some t) n ())) →
    j < set.width →
    I.kind call = .put (s.mem.nodes.heap n).val → stands x s →
    ∃ x', A.step x call I.done x' ∧ stands x' (s.onNodes (·.link j (some t) n ()))
  take : ∀ {x s call j m}, Inv set s → Inv set (s.take j ⟨some m, (s.mem.getArray j).count + 1⟩) →
    ((∀ s s', assume s s' → Fair set s s') →
      Contained set (s.take j ⟨some m, (s.mem.getArray j).count + 1⟩)) →
    j < set.width → (s.mem.nodes.line j)[(s.mem.getArray j).count + 1]? = some m →
      I.kind call = .get → stands x s →
    ∃ x', A.step x call (I.got (s.mem.nodes.heap m).val) x' ∧
      stands x' (s.take j ⟨some m, (s.mem.getArray j).count + 1⟩)
  empty : ∀ {x s call j p t}, Inv set s → j < set.width → (s.mem.nodes.line j)[p]? = some t →
    p ≤ (s.mem.getArray j).count → (s.mem.nodes.heap t).next = none → I.kind call = .get →
      stands x s →
    A.step x call I.empty x

theorem take_store (s : State) (j : ℕ) (d : Descriptor) :
    (s.take j d).store = s.store.take j d := by
  obtain ⟨node, count⟩ := d
  cases node <;> rfl

/-- `width` queues hold what is behind the heads. -/
theorem explains_queues {C R : Type} (I : Interface C R) (set : Params) (assume : State → State →
      Prop) :
    Explains (spec I set.width) I set assume fun x s => Holds set.width s.store x where
  quiet h hx := hx.congr fun j _ => h.content j
  create val hi hx := hx.congr fun j hj => content_create hi.valid hj val
  link hi hi' hj hk hx := hx.link hi.valid hi'.valid hj hk
  take hi hi' _ hj hm hk hx := by
    have hvalid := hi'.valid
    rw [take_store] at hvalid ⊢
    exact hx.take hi.valid hvalid hj hm rfl hk
  empty hi hj ht hp hnone hk hx := hx.empty hi.valid hj ht hp hnone hk

/-- The order in which the nodes were linked, where the removals are in the get window. -/
theorem explains_relaxed {C R : Type} (I : Interface C R) (set : Params) :
    Explains (relaxed I set.width (· ≤ set.depth * (set.width - 1))) I set (Fair set)
      fun x s => x = entries s.mem.nodes where
  quiet h hx := by rw [h.1, hx]
  create val hi hx := hx
  link hi _ hj hk hx := by
    subst hx
    exact ⟨_, entries_link hj hk _ (), rfl⟩
  take hi _ hc hj hm hk hx := by
    subst hx
    refine ⟨_, entries_take hi.lists hj hm (fun d hd => ?_) hk, rfl⟩
    exact (hc fun _ _ h => h).dists d (hd ▸ List.mem_cons_self ..)
  empty hi hj ht hp hnone hk hx := by
    subst hx
    exact entries_empty hi.lists hj ht hp hnone hk

/-! ### The exchanges -/

/-- What all threads keep to. -/
abbrev linear {C R : Type} (A : Spec C R) (set : Params) (assume : State → State → Prop)
    (stands : A.State → State → Prop) : Model A State (ℕ → ℕ) :=
  Model.ofRegime A (regime C set assume) fun x s => stands x s.1

section Exchanges

variable {L : Type} {S : Service State L} {A : Spec S.Call S.Ret} {I : Interface S.Call S.Ret}
  {set : Params}
  {assume : State → State → Prop} {stands : A.State → State → Prop} {c : Caller}
  {v v₁ v₂ : View (Model.results (linear A set assume stands)).protocol c} {call : S.Call} {val : ℤ}
  {j n p : ℕ}

/-- The view without the history. -/
abbrev plain (v : View (Model.results (linear A set assume stands)).protocol c) :
    View (Results.trivial S (regime S.Call set assume)).protocol c := Model.forget v

/-- A quiet program keeps its specification. -/
theorem quietly (hx : Explains A I set assume stands) {α : Type} {p : Prog State α}
    (hp : p.Steps Quiet)
    {B : α → View (Results.trivial S (regime S.Call set assume)).protocol c → Prop}
    (h : wp (Results.trivial S (regime S.Call set assume)).protocol c p B (plain v)) :
    wp (Model.results (linear A set assume stands)).protocol c p
      (fun a v' => B a (plain v') ∧ Model.Tracks v v') v :=
  Model.lift (fun _ _ _ _ _ _ _ hR _ _ => hx.quiet hR) hp h

theorem later_plain (h : v ≤ v₁) : Later (plain v) (plain v₁) := later_of_le (Model.forget_le h)

/-- The running call has its node, which is not linked yet. -/
structure Ready (call : S.Call) (val : ℤ) (n : ℕ)
    (v : View (Model.results (linear A set assume stands)).protocol c) :
    Prop where
  waiting : Model.Waiting call v
  mine : Mine set.width c.op n (plain v).pair
  val : (v.state.mem.nodes.heap n).val = val

theorem Ready.tracks (h : Ready call val n v) (ht : Model.Tracks v v₁)
    (hs : Since (plain v) (plain v₁)) :
    Ready call val n v₁ where
  waiting := h.waiting.tracks ht
  mine := h.mine.since hs
  val := (hs.frame.nodes.grows.val n h.mine.unlinked.lt_fresh).trans h.val

theorem Ready.later (h : Ready call val n v) (h₁ : v ≤ v₁) : Ready call val n v₁ :=
  h.tracks (.of_le h₁) (.of_le (Model.forget_le h₁))

theorem createNode_ready (hx : Explains A I set assume stands) (h : Model.Waiting call v)
    (val : ℤ) :
    wp (Model.results (linear A set assume stands)).protocol c (createNode val)
      (fun n v' => Later (plain v) (plain v') ∧ Ready call val n v') v := by
  intro v₁ h₁ _ _
  obtain ⟨hall, hk⟩ := create_allows (v := plain v₁) val
  have hi := inv_of (plain v₁)
  have hall' := Model.allows_of v₁ hall fun _ => hx.create val hi
  have hl : Later (plain v₁) (plain (v₁.step _ _ hall'.inv)) :=
    later_since (Model.forget_since (Model.since_step hk))
  refine ⟨_, hall', (later_plain h₁).trans hl, h.tracks ((Model.Tracks.of_le h₁).trans .step),
    ⟨Function.update_self .., ?_⟩, ?_⟩
  · exact .create hi.valid.lines val
  · show (Function.update v₁.state.mem.nodes.heap v₁.state.mem.nodes.fresh _
      v₁.state.mem.nodes.fresh).val = val
    rw [Function.update_self]

/-- The put takes effect when its node is linked. -/
theorem enqCas_commits (hx : Explains A I set assume stands) (hk : I.kind call = .put val)
    (hj : j < set.width) {tail : Option ℕ} (ht : At j p tail v.state)
    (hle : p ≤ (v.state.mem.putArray j).count) (hlt : p < v.state.globalPWindow)
    (hn : Ready call val n v) :
    wp (Model.results (linear A set assume stands)).protocol c (enqCas j tail n) (fun r v' =>
      Later (plain v) (plain v') ∧
        if r then Model.Done v' I.done ∧ Behind j n tail v'.state else Ready call val n v') v := by
  unfold enqCas
  refine wp.cae (fun v₁ h₁ he _ => ?_) fun v₁ h₁ _ => ⟨later_plain h₁, hn.later h₁⟩
  have hl := later_plain h₁
  obtain ⟨t, rfl, ht₁⟩ := At.later (v := plain v) ht hl
  have hle₁ : p ≤ (v₁.state.mem.putArray j).count := hle.trans (hl.put j)
  have hi := inv_of (plain v₁)
  obtain ⟨-, hlast⟩ := hi.valid.put_of_last hj ht₁ hle₁ he
  have hlast : p + 1 = (v₁.state.mem.nodes.line j).length := hlast
  have hn₁ := hn.later h₁
  have hall := link_allows (v := plain v₁) hj ht₁ hle₁ he hn₁.mine.unlinked hn₁.mine.owner
    (hlt.trans_le hl.pWindow)
  have hk₁ : I.kind call = .put (v₁.state.mem.nodes.heap n).val := hn₁.val.symm ▸ hk
  obtain ⟨_, hall'⟩ := Model.commits_of v₁ hall hn₁.waiting.undone hn₁.waiting.call fun _ =>
    hx.link hi hall.inv.1.1 hj hk₁
  have hg := Grows.link v₁.state.store j t n
  refine ⟨_, hall', hl.trans ⟨Set.image_mono (v₁.subset_step _ _ hall'.inv), hg, le_rfl, le_rfl⟩,
    Model.done_append hall', p, ⟨t, rfl, hg.getElem? ht₁⟩, ?_⟩
  show (Function.update v₁.state.mem.nodes.line j (v₁.state.mem.nodes.line j ++ [n]) j)[p + 1]? = _
  rw [Function.update_self, hlast, List.getElem?_concat_length]

/-- The get takes effect when the head is exchanged. -/
theorem deqCae_commits (hx : Explains A I set assume stands) (hk : I.kind call = .get)
    (hj : j < set.width) {head : Option ℕ} {m count : ℕ} (hh : At j p head v.state)
    (hlt : p < (v.state.mem.putArray j).count) (hm : (v.state.mem.nodes.line j)[p + 1]? = some m)
    (h : Model.Waiting call v) :
    wp (Model.results (linear A set assume stands)).protocol c
      (deqCae j ⟨head, count⟩ ⟨some m, count + 1⟩) (fun r v' => Later (plain v) (plain v') ∧
        if r then Model.Done v' (I.got (v.state.mem.nodes.heap m).val)
          else Model.Waiting call v') v := by
  unfold deqCae
  refine wp.cae (fun v₁ h₁ he ha => ?_) fun v₁ h₁ _ => ⟨later_plain h₁, h.later h₁⟩
  have hl := later_plain h₁
  have hi := inv_of (plain v₁)
  have he : v₁.state.mem.getArray j = ⟨head, count⟩ := he
  have hat : At j (v₁.state.mem.getArray j).count (v₁.state.mem.getArray j).node v₁.state :=
    at_get hj (plain v₁)
  rw [he] at hat
  obtain rfl : p = count := At.pos_eq (v := plain v₁) hj (At.later (v := plain v) hh hl) hat
  have hcount : ((plain v₁).state.mem.getArray j).count = p := congrArg Descriptor.count he
  have hm₁ : ((plain v₁).state.mem.nodes.line j)[p + 1]? = some m := hl.line hm
  have hlt₁ : p < ((plain v₁).state.mem.putArray j).count := hlt.trans_le (hl.put j)
  rw [← hcount] at hm₁ hlt₁ ha
  obtain ⟨hall, -⟩ := take_allows (v := plain v₁) hj hlt₁ hm₁ ha
  have hval : (v₁.state.mem.nodes.heap m).val = (v.state.mem.nodes.heap m).val :=
    hl.grows.val m ((inv_of (plain v)).valid.lines.lt_fresh j hj m (List.mem_of_getElem? hm))
  have hg : Grows (plain v₁).state.store
      ((plain v₁).state.take j ⟨some m, ((plain v₁).state.mem.getArray j).count + 1⟩).store := by
    rw [take_store]
    exact .take (Nat.le_succ _)
  have hw := h.later h₁
  obtain ⟨_, hall'⟩ := Model.commits_of v₁ hall hw.undone hw.call fun _ =>
    hx.take hi hall.inv.1.1 hall.inv.1.2 hj hm₁ hk
  rw [hcount] at hall' hg
  refine ⟨_, hall', hl.trans ⟨Set.image_mono (v₁.subset_step _ _ hall'.inv), hg, le_rfl,
    le_rfl⟩, ?_⟩
  rw [if_pos rfl, ← hval]
  exact Model.done_append hall'

/-- The get finds no node behind one that had been the head. -/
theorem misses (hx : Explains A I set assume stands) (h : Model.Waiting call v)
    (hk : I.kind call = .get) (hj : j < set.width) {t : Option ℕ} (hat : At j p t v.state)
    (hp : p ≤ (v.state.mem.getArray j).count)
    (hnone : (v.state.mem.nodes.deref t).next = none) : ∃ g,
      ∃ hall : (Model.results (linear A set assume stands)).protocol.Allows c v.now
        (v.after v.state g),
        Model.Done (v.step _ g hall.inv) I.empty := by
  obtain ⟨n, rfl, hn⟩ := hat
  exact h.reads fun _ => hx.empty (inv_of (plain v)) hj hn hp hnone hk

end Exchanges

/-! ### The operations -/

/-- A put answers 1, a get the value or nothing. -/
def Call.interface : Interface Call (Option ℤ) where
  kind
    | .enqueue val => .put val
    | .dequeue => .get
  done := some 1
  got := some
  empty := none

section Operations

variable {set : Params} {A : Spec Call (Option ℤ)} {assume : State → State → Prop}
  {stands : A.State → State → Prop}

/-- The rules of the queue. -/
abbrev rules (A : Spec Call (Option ℤ)) (set : Params) (assume : State → State → Prop)
    (stands : A.State → State → Prop) : Protocol (object set).service ((ℕ → ℕ) × Account A) :=
  (Model.results (S := (object set).service) (linear A set assume stands)).protocol

variable {c : Caller} {v v₁ : View (rules A set assume stands) c} {call : (object set).service.Call}
  {val : ℤ} {n p : ℕ}
  {tl : Local}

/-- What a round of `enqueue` ends with. -/
def Put (call : (object set).service.Call) (val : ℤ) (n : ℕ)
    (r : (Bool × Local) ⊕ (Local × Descriptor × Descriptor))
    (v : View (rules A set assume stands) c) : Prop :=
  Sum.elim (fun a => a.2.index < set.width ∧ Ready call val n v)
    (fun a => a.1.index < set.width ∧ Model.Done v (some (1 : ℤ)) ∧
      a.2.2 = ⟨some n, a.2.1.count + 1⟩ ∧
      Behind a.1.index n a.2.1.node v.state) r

/-- What a round of `dequeue` ends with. -/
def Got (call : (object set).service.Call) (r : (Bool × Local) ⊕ (Local × Option ℤ))
    (v : View (rules A set assume stands) c) : Prop :=
  Sum.elim (fun a => a.2.index < set.width ∧ Model.Waiting call v)
    (fun a => a.1.index < set.width ∧ Model.Answered v call a.2) r

variable (hx : Explains A Call.interface set assume stands)
include hx

theorem enqueueRound_commits (hf : Fits types set.randomHops set.width) {contention : Bool}
    (hi : tl.index < set.width) (hk : Call.interface.kind call = .put val)
    (hn : Ready call val n v) :
    wp (rules A set assume stands) c (enqueueRound set n contention tl) (Put call val n) v := by
  refine wp.bind_of (quietly hx (quiet_putWindow _ _) (putWindow_spec hf hi)) ?_
  rintro ⟨d, tl'⟩ v₁ ⟨⟨hs, hwin, hidx, p, hat, hle⟩, ht⟩
  have hn₁ := hn.tracks ht hs
  refine wp.read fun v₂ h₂ => ?_
  have hl₂ := later_plain h₂
  have hat₂ : At tl'.index p d.node v₂.state := At.later (v := plain v₁) hat hl₂
  split
  next =>
    refine wp.read fun v₃ h₃ => ?_
    have hl₃ := hl₂.trans (later_plain h₃)
    have hn₃ := hn₁.later (h₂.trans h₃)
    split
    next => exact ⟨hidx, hn₃⟩
    next hlt =>
      have hlt : (v₃.state.mem.putArray tl'.index).count < tl'.pWindow := not_le.1 hlt
      have hle₃ : p ≤ (v₃.state.mem.putArray tl'.index).count := hle.trans (hl₃.put _)
      refine wp.bind_of (enqCas_commits hx hk hidx (At.later (v := plain v₁) hat hl₃) hle₃
        (hle₃.trans_lt (hlt.trans_le (hwin.trans hl₃.pWindow))) hn₃) ?_
      rintro (_ | _) v₄ ⟨-, h₄⟩
      · exact ⟨hidx, h₄⟩
      · exact ⟨hidx, h₄.1, rfl, h₄.2⟩
  next hne =>
    have hnext := At.next (v := plain v₂) hidx hat₂
    obtain ⟨m, hm⟩ := Option.ne_none_iff_exists'.1 hne
    refine wp.read fun v₃ h₃ => ?_
    have hat₃ : At tl'.index p d.node v₃.state := At.later (v := plain v₂) hat₂ (later_plain h₃)
    have hm₃ : (v₃.state.mem.nodes.line tl'.index)[p + 1]? = some m :=
      (later_plain h₃).line (hnext.symm.trans hm)
    rw [show (v₃.state.mem.nodes.deref d.node).next =
      some m from (At.next (v := plain v₃) hidx hat₃).trans hm₃]
    refine wp.bind_of (quietly hx (quiet_putCae _ _ _) (putCae_spec hidx hat₃ hm₃)) ?_
    rintro done v₄ ⟨hs₄, ht₄⟩
    exact ⟨hidx, (hn₁.later (h₂.trans h₃)).tracks ht₄ hs₄⟩

theorem enqueue_commits (hf : Fits types set.randomHops set.width) (hi : tl.index < set.width)
    (hk : Call.interface.kind call = .put val) (h : Model.Waiting call v) :
    wp (rules A set assume stands) c (enqueue set val tl) (fun r v' => Model.Done v' (some r.2) ∧
      r.1.index < set.width)
      v := by
  refine wp.bind_of (createNode_ready hx h val) fun n v₁ h₁ => ?_
  refine wp.bind_of (wp.forever (Q := fun a v' => Put call val n (.inr a) v')
    (fun b v' => Put call val n (.inl b) v')
    ⟨hi, h₁.2⟩ ?_) ?_
  · rintro ⟨contention, tl'⟩ v₂ h₂
    refine (enqueueRound_commits hx hf h₂.1 hk h₂.2).mono ?_
    rintro (a | a) v₃ h₃
    · exact h₃
    · exact h₃
  · rintro ⟨tl', d, d'⟩ v₂ ⟨hidx, hd, he, p, hat, hm⟩
    obtain rfl : d' = ⟨some n, d.count + 1⟩ := he
    refine wp.bind_of (quietly hx (quiet_putCae _ _ _) (putCae_spec hidx hat hm)) ?_
    rintro done v₃ ⟨-, ht⟩
    exact ⟨hd.tracks ht, hidx⟩

theorem dequeueHead_commits {d : Descriptor} (hi : tl.index < set.width)
    (hk : Call.interface.kind call = .get) (hh : At tl.index p d.node v.state)
    (hlt : p < (v.state.mem.putArray tl.index).count) (h : Model.Waiting call v) :
    wp (rules A set assume stands) c (dequeueHead d tl) (Got call) v := by
  refine wp.read fun v₁ h₁ => ?_
  have hl₁ := later_plain h₁
  have hh₁ : At tl.index p d.node v₁.state := At.later (v := plain v) hh hl₁
  have hlt₁ : p < (v₁.state.mem.putArray tl.index).count := hlt.trans_le (hl₁.put tl.index)
  have hlen : (v₁.state.mem.putArray tl.index).count < (v₁.state.mem.nodes.line tl.index).length :=
    (inv_of (plain v₁)).valid.put_lt hi
  obtain ⟨m, hm⟩ : ∃ m, (v₁.state.mem.nodes.line tl.index)[p + 1]? = some m :=
    ⟨_, List.getElem?_eq_getElem (show p + 1 < (v₁.state.mem.nodes.line tl.index).length by omega)⟩
  rw [show (v₁.state.mem.nodes.deref d.node).next =
    some m from (At.next (v := plain v₁) hi hh₁).trans hm]
  refine wp.bind_of (deqCae_commits hx hk hi hh₁ hlt₁ hm (h.later h₁)) ?_
  rintro (_ | _) v₂ ⟨hl₂, h₂⟩
  · exact ⟨hi, h₂⟩
  · refine wp.read fun v₃ h₃ => wp.read fun v₄ h₄ => ?_
    have hl₃ := hl₂.trans (later_plain h₃)
    have hl₄ := hl₃.trans (later_plain h₄)
    have hnext : (v₃.state.mem.nodes.deref d.node).next = some m :=
      (At.next (v := plain v₃) hi (At.later (v := plain v₁) hh₁ hl₃)).trans (hl₃.line hm)
    have hval : (v₄.state.mem.nodes.heap m).val = (v₁.state.mem.nodes.heap m).val :=
      hl₄.grows.val m ((inv_of (plain v₁)).valid.lines.lt_fresh _ hi m (List.mem_of_getElem? hm))
    rw [hnext]
    refine ⟨hi, .inl ?_⟩
    show Model.Done v₄ (some (v₄.state.mem.nodes.heap m).val)
    rw [hval]
    exact Model.Done.since h₂ (.of_le (h₃.trans h₄))

theorem dequeueRound_commits (hf : Fits types set.randomHops set.width) {contention : Bool}
    (hi : tl.index < set.width) (hk : Call.interface.kind call = .get) (h : Model.Waiting call v) :
    wp (rules A set assume stands) c (dequeueRound set contention tl) (Got call) v := by
  refine wp.bind_of (quietly hx (quiet_getWindow _ _) (getWindow_spec hf hi)) ?_
  rintro ⟨d, tl'⟩ v₁ ⟨⟨-, hidx, p, hat, hget, -⟩, ht⟩
  have h₁ := h.tracks ht
  unfold readDescriptor
  simp only [Prog.bind_assoc, Prog.pure_eq_ret, Prog.ret_bind]
  refine wp.read fun v₂ h₂ => wp.read fun v₃ h₃ => ?_
  have hl₂ := later_plain h₂
  have hl₃ := hl₂.trans (later_plain h₃)
  have hget₂ : p ≤ (v₂.state.mem.getArray tl'.index).count := hget.trans (hl₂.get _)
  have hat₂ : At tl'.index p d.node v₂.state := At.later (v := plain v₁) hat hl₂
  split
  next heq =>
    have heq : d.node = (v₂.state.mem.putArray tl'.index).node := heq
    refine Model.read_cases fun v₄ h₄ => ?_
    have hl₄ := hl₃.trans (later_plain h₄)
    have hat₄ : At tl'.index p d.node v₄.state := At.later (v := plain v₁) hat hl₄
    have hw₄ := h₁.later ((h₂.trans h₃).trans h₄)
    split
    next hnone =>
      obtain ⟨g, hall, hdone⟩ := misses hx hw₄ hk hidx hat₄ (hget.trans (hl₄.get _)) hnone
      exact .inr ⟨g, hall, hidx, .inl hdone⟩
    next hne =>
      obtain ⟨m, hm⟩ := Option.ne_none_iff_exists'.1 hne
      refine .inl (wp.read fun v₅ h₅ => ?_)
      have hl₅ := later_plain h₅
      have hat₅ : At tl'.index p d.node v₅.state := At.later (v := plain v₄) hat₄ hl₅
      have hm₅ : (v₅.state.mem.nodes.line tl'.index)[p + 1]? = some m :=
        hl₅.line ((At.next (v := plain v₄) hidx hat₄).symm.trans hm)
      dsimp only [Arrays.copy, Arrays.put]
      rw [← heq, show (v₅.state.mem.nodes.deref d.node).next = some m from
        (At.next (v := plain v₅) hidx hat₅).trans hm₅]
      refine wp.bind_of (quietly hx (quiet_putCae _ _ _) (putCae_spec hidx hat₅ hm₅)) ?_
      rintro done v₆ ⟨-, ht₆⟩
      exact ⟨hidx, (hw₄.later h₅).tracks ht₆⟩
  next hne =>
    have hlt : p < (v₂.state.mem.putArray tl'.index).count :=
      At.lt_put (v := plain v₂) hidx hat₂ hget₂ hne
    refine dequeueHead_commits hx hidx hk (At.later (v := plain v₁) hat hl₃) ?_
      (h₁.later (h₂.trans h₃))
    exact hlt.trans_le ((later_plain h₃).put _)

theorem dequeue_commits (hf : Fits types set.randomHops set.width) (hi : tl.index < set.width)
    (hk : Call.interface.kind call = .get) (h : Model.Waiting call v) :
    wp (rules A set assume stands) c (dequeue set tl) (fun r v' => Model.Answered v' call r.2 ∧
      r.1.index < set.width)
      v := by
  refine wp.forever (fun b v' => b.2.index < set.width ∧ Model.Waiting call v') ⟨hi, h⟩ ?_
  rintro ⟨contention, tl'⟩ v₁ ⟨hi₁, h₁⟩
  refine (dequeueRound_commits hx hf hi₁ hk h₁).mono ?_
  rintro (a | a) v₂ h₂
  · exact h₂
  · exact ⟨h₂.2, h₂.1⟩

theorem queue_linear (h₀ : stands A.init (initial set)) (hf : Fits types set.randomHops set.width) :
    Linear (S := (object set).service) (linear A set assume stands) (fun _ => True)
      (fun _ l _ => l.index < set.width)
      (initial set) (fun _ => 0) .zero where
  init := ⟨⟨inv_initial set, fun _ => contained_initial set⟩, h₀⟩
  init_fresh _ := True.intro
  init_loc _ := hf.width_pos
  loc_later _ _ _ _ _ _ _ _ _ _ _ h := h
  code t op call l v hcall _ hl _ hu hm := by
    have hw : Model.Waiting call v := ⟨hcall, hu, _, hm⟩
    cases call with
    | enqueue val => exact wp.bind_of (enqueue_commits hx hf hl rfl hw) fun r v' h =>
        ⟨.inl h.1, h.2⟩
    | dequeue => exact dequeue_commits hx hf hl rfl hw

/-- What explains the nodes explains the calls. -/
theorem queue_explained (h₀ : stands A.init (initial set))
    (hf : Fits types set.randomHops set.width) {P : Pool (object set).service}
    (hr : Reach (fun _ _ => True) assume (initial set) .zero P) :
    ∃ log x, Linearizes A P.world log ∧ A.Run log x ∧ stands x P.world.shared := by
  obtain ⟨log, x, _, hlog, hrun, -, hst⟩ := (queue_linear hx h₀ hf).linearizes hr
  exact ⟨log, x, hlog, hrun, hst⟩

end Operations

/-- For any number of threads and any order of their steps, `width` queues explain the calls, and
they hold what the nodes behind the heads hold. -/
theorem twoDdQueue_linearizable (depth : ℕ) {width : ℕ} (hw : 0 < width % 2 ^ 32)
    (hw' : width < 2 ^ 64) {P : Pool (object (params width depth)).service}
    (hr : Reachable (initial (params width depth)) .zero P) :
    ∃ log x, Linearizes (spec Call.interface width) P.world log ∧
      (spec Call.interface width).Run log x ∧
      Holds width P.world.shared.store x :=
  queue_explained (explains_queues _ _ _) (Holds.init width) (params_fits hw hw') hr

/-- The answer of a call. -/
def answer {set : Params} (P : Pool (object set).service) (op : ℕ) : Option (Option ℤ) :=
  (P.world.returned op).map Prod.fst

/-- An enqueue has linked its node and not swung the tail. A dequeue does that for it and takes the
value. -/
theorem twoDdQueue_linearizable_two :
    ∃ P : Pool (object (params 2 2)).service, answer P 1 = some (some 7) ∧
    ∃ log x, Linearizes (spec Call.interface 2) P.world log ∧ (spec Call.interface 2).Run log x ∧
      Holds 2 P.world.shared.store x := by
  have h : (((Pool.init (object (params 2 2)).service (initial (params 2 2)) .zero).exec
    (List.flatten [
      [.invoke 0 (Call.enqueue 7)], List.replicate 11 (.step 0 0), [.invoke 1 Call.dequeue],
      List.replicate 50 (.step 1 0)])).any fun P => decide (answer P 1 = some (some 7))) =
        true := by
    decide +kernel
  obtain ⟨P, hP, h⟩ := Pool.exec_of_check h
  exact ⟨P, of_decide_eq_true h, twoDdQueue_linearizable 2 (by decide) (by decide)
    (Pool.exec_reach hP (fun _ _ _ _ => True.intro) .init)⟩

/-- In a run of fair steps a queue explains the calls in which a dequeue passes over `depth * (width
- 1)` older values at most. It holds the values in the order in which their nodes were linked. -/
theorem twoDdQueue_relaxed {depth width : ℕ} (hw : 0 < width % 2 ^ 32) (hw' : width < 2 ^ 64)
    {P : Pool (object (params width depth)).service}
    (hr : Reach (fun _ _ => True) (Fair (params width depth))
      (initial (params width depth)) .zero P) :
    ∃ log, Linearizes (relaxed Call.interface width (· ≤ depth * (width - 1))) P.world log ∧
      (relaxed Call.interface width (· ≤ depth * (width - 1))).Run log
      (entries P.world.shared.mem.nodes) := by
  obtain ⟨log, x, hlog, hrun, rfl⟩ := queue_explained (explains_relaxed _ _) rfl
    (params_fits hw hw') hr
  exact ⟨log, hlog, hrun⟩

/-- Two sub-queues with a value each. The thread that has enqueued the younger one dequeues it. -/
theorem twoDdQueue_relaxed_two : ∃ P : Pool (object (params 2 1)).service,
    (answer P 2 = some (some 8) ∧ entries P.world.shared.mem.nodes = [(0, 7)]) ∧
      ∃ log, Linearizes (relaxed Call.interface 2 (· ≤ 1 * (2 - 1))) P.world log ∧
        (relaxed Call.interface 2 (· ≤ 1 * (2 - 1))).Run log
        (entries P.world.shared.mem.nodes) := by
  have h : (((Pool.init (object (params 2 1)).service (initial (params 2 1)) .zero).execIf
      (fun s s' => decide (Fair (params 2 1) s s')) (List.flatten [
      [.invoke 0 (Call.enqueue 7)], List.replicate 13 (.step 0 0), [.invoke 1 (Call.enqueue 8)],
      List.replicate 18 (.step 1 1), [.invoke 1 Call.dequeue], List.replicate 15 (.step 1 0)])).any
        fun P =>
        decide (answer P 2 = some (some 8) ∧ entries P.world.shared.mem.nodes = [(0, 7)])) =
          true := by
    decide +kernel
  obtain ⟨P, hP, h⟩ := (Option.any_eq_true _ _).1 h
  exact ⟨P, of_decide_eq_true h, twoDdQueue_relaxed (by decide) (by decide)
    (Pool.execIf_reach (fun _ _ => of_decide_eq_true) hP (fun _ _ _ _ => True.intro) .init)⟩

end Queue

end TwoDd
