import SemanticRelaxation.TwoDdDeque.Stabilize

/-!
# Pushes and pops of the 2Dd-deque

What a call knows from its start (`Pushing`, `Popping`) to its exchange of anchors (`Ended`), and
the anchor that it has to free after that (`Owed`).
-/

namespace TwoDdDeque

open AtomicProg Deques

/-- What an operation answers. -/
def answerOf (val : ℕ → ℤ) : Event → ℤ
  | .push .. => 1
  | .pop _ _ _ n => val n

/-- The call `op` has taken effect, and `r` is its answer. -/
def Effect (op : ℕ) (r : ℤ) (s : Memory) : Prop := ∃ e ∈ s.hist, e.op = op ∧ r = answerOf s.val e

/-- The call has not taken effect. -/
def Quiet (op : ℕ) (s : Memory) : Prop := ∀ e ∈ s.hist, e.op ≠ op

/-- An anchor that the call has to free. If it is in place, the link of its push was lost. -/
structure Owed (set : Params) (c : Caller) (a : ℕ) (s : Memory) : Prop where
  lt : a < s.freshAnchor
  used : s.used a = true
  duty : s.duty a = some c.op
  live : ∀ i < set.width, s.anchor i = a → (s.anchors a).state ≠ .stable ∧ s.lost = true

section Facts

variable {set : Params} {calls : List Call} {s s' : Memory} {c : Caller} {r : ℤ} {o : Owner}
  {a i n : ℕ} {d : Side}
  {xs : List ℕ}

theorem Effect.later (h : Effect c.op r s) (hi : Book calls s) (hk : Kept set o s s') :
    Effect c.op r s' := by
  obtain ⟨e, he, hop, hr⟩ := h
  refine ⟨e, hk.hist.mem he, hop, hr.trans ?_⟩
  cases e with
  | push d op j n => rfl
  | pop d op j n => exact (hk.val n (hi.pops d op j n he).1).symm

theorem Quiet.later (h : Quiet c.op s) (hk : Kept set (.op c.op) s s') : Quiet c.op s' :=
  fun e he hop =>
  h e (hk.ownEvents c.op rfl e he hop) hop

theorem Owed.later (h : Owed set c a s) (hk : Kept set (.op c.op) s s') : Owed set c a s' := by
  obtain ⟨he, hu⟩ := hk.anchors a h.used
  refine ⟨h.lt.trans_le hk.freshAnchor, hu, hk.ownDuty c.op rfl a h.lt h.duty, fun i hi hp => ?_⟩
  obtain ⟨hst, hl⟩ := h.live i hi (hk.never a h.used i hp)
  exact ⟨he ▸ hst, hk.lost hl⟩

/-- A deque with one node. -/
theorem Linked.single (h : Linked s i xs) (he : (s.now i).ends .right = (s.now i).ends .left)
    (hd : (s.now i).ends d = some n) : d.look xs = [n] := by
  have hother : (s.now i).ends d.other = some n := by
    cases d with
    | left => exact he.trans hd
    | right => exact he.symm.trans hd
  rw [h.ends] at hd hother
  cases hx : d.look xs with
  | nil =>
    rw [hx] at hd
    cases hd
  | cons m ys =>
    rw [hx] at hd
    obtain rfl := Option.some.inj hd
    by_cases hy : ys = []
    · rw [hy]
    · -- the last node would be the first one
      rw [head_other hx hy] at hother
      have hmem : m ∈ ys := by
        have := List.mem_of_mem_head? hother
        rwa [Side.mem_look, Side.mem_look] at this
      have hnodup : (m :: ys).Nodup := hx ▸ Side.nodup_look.2 h.nodup
      exact absurd hmem (List.nodup_cons.1 hnodup).1

/-- A deque with different ends has two nodes at least. -/
theorem Linked.several (h : Linked s i xs) (he : (s.now i).ends .right ≠ (s.now i).ends .left)
    (hd : (s.now i).ends d = some n) : ∃ m ys, d.look xs = n :: m :: ys := by
  rw [h.ends] at hd
  cases hx : d.look xs with
  | nil =>
    rw [hx] at hd
    cases hd
  | cons k ys =>
    rw [hx] at hd
    obtain rfl := Option.some.inj hd
    cases ys with
    | cons m ys => exact ⟨m, ys, rfl⟩
    | nil =>
      refine absurd ?_ he
      have hone : xs = [k] := by
        rw [← Side.look_look d xs, hx]
        cases d <;> rfl
      rw [h.ends, h.ends, hone]
      rfl

end Facts

section Specs

variable {set : Params} {E : Results (dequeService set) (regime set)} {c : Caller}
  {v v₁ v₂ : View E.protocol c}
  {b i n m a anchor node : ℕ} {d : Side} {K : List Call → Memory → Prop} {val : ℤ}

/-- What a push knows before its exchange. -/
structure Pushing (c : Caller) (d : Side) (val : ℤ) (node : ℕ) (calls : List Call) (s : Memory) :
    Prop where
  call : calls[c.op]? = some (.push d val)
  mine : Mine c node s
  value : s.val node = val
  quiet : Quiet c.op s

/-- What a pop knows before its exchange. -/
structure Popping (c : Caller) (d : Side) (calls : List Call) (s : Memory) : Prop where
  call : calls[c.op]? = some (.pop d)
  quiet : Quiet c.op s

theorem keeps_pushing : Keeps set c b (Pushing c d val node) where
  later _ _ _ _ _ hc hk h := ⟨hc.getElem?_of_some h.call, h.mine.later hk,
    (hk.val node h.mine.lt).trans h.value,
    h.quiet.later hk⟩
  write _ _ _ _ _ _ h := ⟨h.call, ⟨h.mine.lt, h.mine.pusher, h.mine.rank⟩, h.value, h.quiet⟩
  swing _ _ _ _ _ _ h := ⟨h.call, ⟨h.mine.lt, h.mine.pusher, h.mine.rank⟩, h.value, h.quiet⟩
  free _ _ _ _ _ h := ⟨h.call, ⟨h.mine.lt, h.mine.pusher, h.mine.rank⟩, h.value, h.quiet⟩

theorem keeps_popping : Keeps set c b (Popping c d) where
  later _ _ _ _ _ hc hk h := ⟨hc.getElem?_of_some h.call, h.quiet.later hk⟩
  write _ _ _ _ _ _ h := ⟨h.call, h.quiet⟩
  swing _ _ _ _ _ _ h := ⟨h.call, h.quiet⟩
  free _ _ _ _ _ h := ⟨h.call, h.quiet⟩

/-- An older anchor of the call. -/
theorem Keeps.mine (hK : Keeps set c b K) (hab : a < b) :
    Keeps set c b fun calls s => K calls s ∧ MyAnchor c a s where
  later _ _ _ _ hi hc hk h := ⟨hK.later _ _ _ _ hi hc hk h.1, h.2.later hk⟩
  write _ _ _ _ ha hm h := ⟨hK.write _ _ _ _ ha hm h.1, h.2.lt, h.2.maker, h.2.used, h.2.duty⟩
  swing _ _ _ _ ha hm h := ⟨hK.swing _ _ _ _ ha hm h.1, h.2.lt, h.2.maker,
    (Function.update_of_ne (hab.trans_le ha).ne _ _).trans h.2.used,
    (Function.update_of_ne (hab.trans_le ha).ne _ _).trans h.2.duty⟩
  free _ _ _ ha hm h := ⟨hK.free _ _ _ ha hm h.1, h.2.lt, h.2.maker, h.2.used,
    (Function.update_of_ne (hab.trans_le ha).ne _ _).trans h.2.duty⟩

/-- The fields of an anchor that has been in place. -/
theorem Keeps.fields (hK : Keeps set c b K) (x : Anchor) :
    Keeps set c b fun calls s => K calls s ∧ s.used anchor = true ∧ s.anchors anchor = x where
  later _ _ _ _ hi hc hk h := by
    obtain ⟨he, hu⟩ := hk.anchors anchor h.2.1
    exact ⟨hK.later _ _ _ _ hi hc hk h.1, hu, he.trans h.2.2⟩
  write _ _ _ _ ha hm h :=
    ⟨hK.write _ _ _ _ ha hm h.1, h.2.1, (Function.update_of_ne (hm.ne h.2.1) _ _).trans h.2.2⟩
  swing _ _ _ _ ha hm h :=
    ⟨hK.swing _ _ _ _ ha hm h.1, (Function.update_of_ne (hm.ne h.2.1) _ _).trans h.2.1, h.2.2⟩
  free _ _ _ ha hm h := ⟨hK.free _ _ _ ha hm h.1, h.2⟩

/-- The place that a search has found. -/
theorem Keeps.place {P : Memory → Prop} (hK : Keeps set c b K)
    (hused : ∀ s, P s → s.used anchor = true) (hlater : ∀ s s', Kept set (.op c.op) s s' →
      P s → P s')
    (hwrite : ∀ s k x, (s.writeAnchor k x).anchors anchor = s.anchors anchor → P s →
      P (s.writeAnchor k x))
    (hswing : ∀ s j k, (s.swing j k).used anchor = true → P s → P (s.swing j k))
    (hfree : ∀ s k, P s → P (s.freeAnchor k)) : Keeps set c b fun calls s => K calls s ∧ P s where
  later _ _ _ _ hi hc hk h := ⟨hK.later _ _ _ _ hi hc hk h.1, hlater _ _ hk h.2⟩
  write _ s k x hk hm h := ⟨hK.write _ _ _ _ hk hm h.1,
    hwrite s k x (Function.update_of_ne (hm.ne (hused s h.2)) _ _) h.2⟩
  swing _ s j k hk hm h := ⟨hK.swing _ _ _ _ hk hm h.1,
    hswing s j k ((Function.update_of_ne (hm.ne (hused s h.2)) _ _).trans (hused s h.2)) h.2⟩
  free _ s k hk hm h := ⟨hK.free _ _ _ hk hm h.1, hfree s k h.2⟩

/-- An anchor that another one has replaced is nowhere in place. -/
theorem notPlaced_of_swing {s : Memory} {j : ℕ} (h : Shape set s) (ha : MyAnchor c a s)
    (hi : i < set.width) (hj : j < set.width) : Function.update s.anchor i a j ≠ s.anchor i := by
  intro hp
  by_cases hji : j = i
  · subst hji
    rw [Function.update_self] at hp
    exact ha.ne (h.live j hj) hp.symm
  · rw [Function.update_of_ne hji] at hp
    exact hji (h.apart j hj i hi hp)

theorem nextAnchorOf_spec (hK : Keeps set c v.state.freshAnchor K) (hv : At K v) {x : Option ℕ}
    (hx : ∀ a ∈ x, MyAnchor c a v.state) :
    wp E.protocol c (nextAnchorOf c x) (fun a v' => At K v' ∧ MyAnchor c a v'.state) v := by
  cases x with
  | none => exact (createAnchor_spec hK hv le_rfl).mono fun a v' h => ⟨h.1, h.2.2⟩
  | some a => exact ⟨hv, hx a rfl⟩

/-- The anchor that a call has to free. -/
theorem freeOwed_spec (hK : ∀ calls s, K calls s → K calls (s.freeAnchor a))
    (hle : ∀ v v₁ : View E.protocol c, v ≤ v₁ → At K v → At K v₁) (hv : At K v)
    (ha : Owed set c a v.state) :
    wp E.protocol c (freeAnchor a) (fun _ v' => At K v') v := by
  unfold freeAnchor
  intro v₁ h₁ _ _
  have ha₁ := ha.later (kept_op h₁)
  refine ⟨(), allows_step ((inv_of v₁).freeAnchor ha₁.lt ha₁.duty fun i hi hp => ?_)
    fun o ho => .freeAnchor ha₁.duty ho, hK _ _ (hle _ _ h₁ hv)⟩
  have hlive := ha₁.live i hi hp
  unfold Memory.now
  rwa [hp]

/-! ### Pushes -/

theorem createNode_spec (hcall : v.now.1.calls[c.op]? = some (.push d val))
    (hq : Quiet c.op v.state) :
    wp E.protocol c (createNode c val) (fun node v' => At (Pushing c d val node) v') v := by
  unfold createNode
  intro v₁ h₁ _ _
  have hq₁ := hq.later (kept_op h₁)
  refine ⟨(), allows_step ((inv_of v₁).create c val) fun o _ => .create (inv_of v₁) c val,
    (Since.of_le h₁).call hcall, ⟨Nat.lt_succ_self _, ?_, ?_⟩, ?_, hq₁⟩
  · exact Function.update_self ..
  · exact Function.update_self ..
  · exact Function.update_self ..

theorem findPut_spec (hK : Keeps set c b K) (hv : At K v) {tl : Local} (htl : Within set tl) :
    wp E.protocol c (Prog.forever (findPutRound set d) tl) (fun x v' => At K v' ∧
      PutPlace set d x.1.threadIndex x.2 v'.state) v := by
  refine wp.forever (fun tl v => At K v ∧ Within set tl) ⟨hv, htl⟩ fun tl v₁ ⟨hv₁, htl₁⟩ => ?_
  unfold findPutRound
  refine wp.bind_of (putWindow_spec hK hv₁ htl₁) fun x v₂ ⟨hv₂, hp₂⟩ => ?_
  refine wp.bind_of inPlace_spec fun same v₃ ⟨h₃, _⟩ => ?_
  cases same with
  | true => exact ⟨hK.le h₃ hv₂, hp₂.later (kept_op h₃)⟩
  | false => exact ⟨hK.le h₃ hv₂, hp₂.lt⟩

theorem pushFirstCas_spec (hv : At (Pushing c d val node) v) (ha : MyAnchor c a v.state)
    (hp : PutPlace set d i anchor v.state) (he : (v.state.anchors anchor).ends d = none)
    (hx : v.state.anchors a = (v.state.anchors anchor).first d node) :
    wp E.protocol c (pushFirstCas c d i anchor a node) (fun done v' => if done then
      Effect c.op 1 v'.state ∧ Owed set c anchor v'.state else At (Pushing c d val node) v' ∧
        MyAnchor c a v'.state) v := by
  unfold pushFirstCas
  refine wp.cae (fun v₁ h₁ hin _ => ?_) fun v₁ h₁ _ => ?_
  · have hv₁ := (keeps_pushing (b := 0)).le h₁ hv
    have ha₁ := ha.later (kept_op h₁)
    have hp₁ := hp.later (kept_op h₁)
    have hin : v₁.state.anchor i = anchor := hin
    subst hin
    have hsame : v₁.state.now i = v.state.anchors (v₁.state.anchor i) :=
      ((kept_op h₁).anchors _ hp.used).1
    have he₁ : (v₁.state.now i).ends d = none := hsame.symm ▸ he
    have hx₁ : v₁.state.anchors a = (v₁.state.now i).first d node := by
      rw [ha.anchors_eq (kept_op h₁) hx, hsame]
    have hst : (v₁.state.now i).state = .stable := by
      obtain ⟨xs, -, hl⟩ := (inv_of v₁).shape.deques i hp.lt
      exact hl.stable_of_single (d := d)
        (.inl (List.head?_eq_none_iff.1 ((hl.ends d).symm.trans he₁)))
    refine ⟨(), allows_step ((inv_of v₁).pushFirst ha₁ hv₁.mine hp.lt
      (by rw [hv₁.value]; exact hv₁.call) hv₁.quiet he₁
      hx₁ hp₁.count) fun o ho => .pushFirst (inv_of v₁) ha₁ hv₁.mine ho hp.lt hst, ?_, ?_⟩
    · exact ⟨_, List.mem_append_right _ (List.mem_singleton_self _), rfl, rfl⟩
    · have hne : v₁.state.anchor i ≠ a := ha₁.ne hp₁.used
      refine ⟨(inv_of v₁).shape.used _ hp₁.used, ?_, Function.update_self .., fun j hj hpj => ?_⟩
      · exact (Function.update_of_ne hne _ _).trans hp₁.used
      · exact absurd hpj (notPlaced_of_swing (inv_of v₁).shape ha₁ hp.lt hj)
  · exact ⟨(keeps_pushing (b := 0)).le h₁ hv, ha.later (kept_op h₁)⟩

/-- The anchor of a push that is not stable: it is in place at `i` at most. -/
structure Raised (set : Params) (c : Caller) (d : Side) (i a b : ℕ) (s : Memory) : Prop where
  lt : a < s.freshAnchor
  below : a < b
  used : s.used a = true
  duty : s.duty a = some c.op
  state : (s.anchors a).state = .push d
  apart : ∀ j < set.width, s.anchor j = a → j = i

theorem pushNextCas_spec (hv : At (Pushing c d val node) v) (ha : MyAnchor c a v.state)
    (hp : PutPlace set d i anchor v.state) (hst : (v.state.anchors anchor).state = .stable)
    (he : (v.state.anchors anchor).ends d = some m) (hlink : v.state.link d.other node = some m)
    (hx : v.state.anchors a = (v.state.anchors anchor).next d node) :
    wp E.protocol c (pushNextCas c d i anchor a node (some m)) (fun done v' => if done then
      Effect c.op 1 v'.state ∧ Raised set c d i a v'.state.freshAnchor v'.state
      else At (Pushing c d val node) v' ∧ MyAnchor c a v'.state) v := by
  unfold pushNextCas
  refine wp.cae (fun v₁ h₁ hin _ => ?_) fun v₁ h₁ _ => ?_
  · have hv₁ := (keeps_pushing (b := 0)).le h₁ hv
    have ha₁ := ha.later (kept_op h₁)
    have hp₁ := hp.later (kept_op h₁)
    have hin : v₁.state.anchor i = anchor := hin
    subst hin
    have hsame : v₁.state.now i = v.state.anchors (v₁.state.anchor i) :=
      ((kept_op h₁).anchors _ hp.used).1
    have hx₁ : v₁.state.anchors a = (v₁.state.now i).next d node := by
      rw [ha.anchors_eq (kept_op h₁) hx, hsame]
    have hlink₁ : v₁.state.link d.other node = some m :=
      ((kept_op h₁).ownNode c.op rfl node hv.mine.lt hv.mine.pusher hv.mine.rank).2 d.other
        |>.trans hlink
    refine ⟨(), allows_step ((inv_of v₁).pushNext ha₁ hv₁.mine hp.lt
      (by rw [hv₁.value]; exact hv₁.call) hv₁.quiet
      (hsame.symm ▸ hst) (hsame.symm ▸ he) hlink₁ hx₁ hp₁.count)
      fun o ho => .pushNext ha₁ hv₁.mine ho, ?_, ?_⟩
    · exact ⟨_, List.mem_append_right _ (List.mem_singleton_self _), rfl, rfl⟩
    · refine ⟨ha₁.lt, ha₁.lt, Function.update_self .., ha₁.duty, ?_, fun j hj hpj => ?_⟩
      · show (v₁.state.anchors a).state = .push d
        rw [hx₁]
        rfl
      · have hpj : Function.update v₁.state.anchor i a j = a := hpj
        by_contra hji
        rw [Function.update_of_ne hji] at hpj
        exact ha₁.ne ((inv_of v₁).shape.live j hj) hpj
  · exact ⟨(keeps_pushing (b := 0)).le h₁ hv, ha.later (kept_op h₁)⟩

theorem keeps_raised : Keeps set c b fun _ s => Effect c.op 1 s ∧ Raised set c d i a b s where
  later _ _ _ _ hi _ hk h := by
    obtain ⟨he, hr⟩ := h
    obtain ⟨hx, hu⟩ := hk.anchors a hr.used
    exact ⟨he.later hi.book hk, hr.lt.trans_le hk.freshAnchor, hr.below, hu,
      hk.ownDuty c.op rfl a hr.lt hr.duty,
      hx ▸ hr.state, fun j hj hp => hr.apart j hj (hk.never a hr.used j hp)⟩
  write _ s k x hk hm h := by
    obtain ⟨he, hr⟩ := h
    have hx : (s.writeAnchor k x).anchors a = s.anchors a :=
      Function.update_of_ne (hr.below.trans_le hk).ne _ _
    exact ⟨he, hr.lt, hr.below, hr.used, hr.duty, hx ▸ hr.state, hr.apart⟩
  swing _ s j k hk hm h := by
    obtain ⟨he, hr⟩ := h
    have hne : a ≠ k := (hr.below.trans_le hk).ne
    refine ⟨he, hr.lt, hr.below, (Function.update_of_ne hne _ _).trans hr.used,
      (Function.update_of_ne hne _ _).trans hr.duty, hr.state, fun l hl hp => ?_⟩
    have hp : Function.update s.anchor j k l = a := hp
    by_cases hlj : l = j
    · subst hlj
      rw [Function.update_self] at hp
      exact absurd hp.symm hne
    · rw [Function.update_of_ne hlj] at hp
      exact hr.apart l hl hp
  free _ s k hk hm h := by
    obtain ⟨he, hr⟩ := h
    have hne : a ≠ k := (hr.below.trans_le hk).ne
    exact ⟨he, hr.lt, hr.below, hr.used, (Function.update_of_ne hne _ _).trans hr.duty, hr.state,
      hr.apart⟩

theorem keeps_putPlace (x : Anchor) : Keeps set c b fun calls s =>
    (Pushing c d val node calls s ∧ PutPlace set d i anchor s) ∧ s.used anchor = true ∧
    s.anchors anchor = x := by
  have hplace : Keeps set c b fun calls s => Pushing c d val node calls s ∧
    PutPlace set d i anchor s :=
    keeps_pushing.place (fun _ h => h.used) (fun _ _ hk h => h.later hk)
      (fun _ _ _ he h => ⟨h.lt, h.used, he ▸ h.count, he ▸ h.nodes⟩)
      (fun _ _ _ hu h => ⟨h.lt, hu, h.count, h.nodes⟩) fun _ _ h => ⟨h.lt, h.used, h.count, h.nodes⟩
  exact hplace.fields x

/-- The new node leads to the node at the end. -/
theorem keeps_linked (x : Anchor) : Keeps set c b fun calls s => ((Pushing c d val node calls s ∧
    PutPlace set d i anchor s) ∧ s.used anchor = true ∧ s.anchors anchor = x) ∧
      s.link d.other node = some m where
  later _ _ _ _ hi hc hk h := ⟨(keeps_putPlace (b := 0) x).later _ _ _ _ hi hc hk h.1,
    ((hk.ownNode c.op rfl node h.1.1.1.mine.lt h.1.1.1.mine.pusher h.1.1.1.mine.rank).2
      d.other).trans h.2⟩
  write _ _ _ _ hk hm h := ⟨(keeps_putPlace (b := b) x).write _ _ _ _ hk hm h.1, h.2⟩
  swing _ _ _ _ hk hm h := ⟨(keeps_putPlace (b := b) x).swing _ _ _ _ hk hm h.1, h.2⟩
  free _ _ _ hk hm h := ⟨(keeps_putPlace (b := b) x).free _ _ _ hk hm h.1, h.2⟩

theorem pushAt_spec (hv : At (Pushing c d val node) v) (ha : MyAnchor c a v.state)
    (hp : PutPlace set d i anchor v.state) :
    wp E.protocol c (pushAt c d node i anchor a) (fun old v' => match old with
      | none => At (Pushing c d val node) v' ∧ MyAnchor c a v'.state
      | some old => Effect c.op 1 v'.state ∧ Owed set c old v'.state) v := by
  unfold pushAt
  refine wp.read fun v₁ h₁ => ?_
  have hv₁ := (keeps_pushing (b := 0)).le h₁ hv
  have ha₁ := ha.later (kept_op h₁)
  have hp₁ := hp.later (kept_op h₁)
  split
  next he =>
    refine wp.bind_of (writeAnchor_spec (keeps_putPlace (v₁.state.anchors anchor)) ⟨⟨hv₁, hp₁⟩,
      hp₁.used, rfl⟩
      (Nat.zero_le _) ha₁ _) fun _ v₂ ⟨⟨⟨hv₂, hp₂⟩, _, hx₂⟩, ha₂, hnew₂⟩ => ?_
    refine wp.bind_of (pushFirstCas_spec hv₂ ha₂ hp₂ (hx₂.symm ▸ he) (hx₂.symm ▸ hnew₂))
      fun done v₃ h₃ => ?_
    cases done with
    | true => exact h₃
    | false => exact h₃
  next he =>
    obtain ⟨m, hm⟩ := Option.ne_none_iff_exists'.1 he
    split
    next hst =>
      rw [hm]
      refine wp.update fun v₂ h₂ _ => ?_
      have hv₂ := (keeps_pushing (b := 0)).le h₂ hv₁
      have ha₂ := ha₁.later (kept_op h₂)
      have hp₂ := hp₁.later (kept_op h₂)
      have hx₂ := ((kept_op h₂).anchors anchor hp₁.used).1
      have hr : v₂.state.rank m ≠ 0 := hp₂.nodes m (hx₂.symm ▸ hm)
      have hmine := hv₂.mine
      refine ⟨(), allows_step ((inv_of v₂).setLink hmine.rank ?_) fun o ho => .setLink
        (inv_of v₂) hmine ho _, ?_⟩
      · rintro k hk
        obtain rfl := Option.some.inj hk
        exact hr
      have hself : Function.update v₂.state.link d.other
        (Function.update (v₂.state.link d.other) node (some m))
          d.other node = some m := by
        rw [Function.update_self, Function.update_self]
      have hnow : ((Pushing c d val node v₂.now.1.calls (v₂.state.setLink d.other node (some m)) ∧
          PutPlace set d i anchor (v₂.state.setLink d.other node (some m))) ∧
          (v₂.state.setLink d.other node (some m)).used anchor = true ∧
          (v₂.state.setLink d.other node (some m)).anchors anchor = v₁.state.anchors anchor) ∧
          (v₂.state.setLink d.other node (some m)).link d.other node = some m :=
        ⟨⟨⟨⟨hv₂.call, ⟨hmine.lt, hmine.pusher, hmine.rank⟩, hv₂.value, hv₂.quiet⟩,
          ⟨hp₂.lt, hp₂.used, hp₂.count, hp₂.nodes⟩⟩, hp₂.used, hx₂⟩, hself⟩
      have ha₂' : MyAnchor c a (v₂.state.setLink d.other node (some m)) :=
        ⟨ha₂.lt, ha₂.maker, ha₂.used, ha₂.duty⟩
      refine wp.bind_of (writeAnchor_spec (keeps_linked (v₁.state.anchors anchor)) hnow
        (Nat.zero_le _) ha₂' _)
        fun _ v₃ ⟨⟨⟨⟨hv₃, hp₃⟩, _, hx₃⟩, hlink₃⟩, ha₃, hnew₃⟩ => ?_
      refine wp.bind_of (pushNextCas_spec hv₃ ha₃ hp₃ (hx₃.symm ▸ hst) (hx₃.symm ▸ hm) hlink₃
        (hx₃.symm ▸ hnew₃))
        fun done v₄ h₄ => ?_
      cases done with
      | false => exact h₄
      | true =>
        obtain ⟨heff, hr₄⟩ := h₄
        refine wp.bind_of (stabilizeAt_spec keeps_raised ⟨heff,
          hr₄⟩ le_rfl hp.lt hr₄.below hr₄.used hr₄.state)
          fun _ v₅ ⟨⟨heff₅, hr₅⟩, hlost⟩ => ?_
        refine ⟨heff₅, hr₅.lt, hr₅.used, hr₅.duty, fun j hj hpj => ?_⟩
        obtain rfl := hr₅.apart j hj hpj
        refine ⟨?_, ?_⟩
        · rw [hr₅.state]
          exact nofun
        · by_contra hl
          exact hlost rfl (Bool.eq_false_iff.2 hl) hpj
    next hst =>
      have hK : Keeps set c v₁.state.freshAnchor fun calls s => Pushing c d val node calls s ∧
        MyAnchor c a s :=
        keeps_pushing.mine ha₁.lt
      have hbelow := (inv_of v₁).shape.used anchor hp₁.used
      exact wp.bind_of (stabilize_spec hK ⟨hv₁, ha₁⟩ le_rfl hp.lt hbelow hp₁.used hst)
        fun _ _ h => h

theorem effect_of_le {r : ℤ} (h : v ≤ v₁) (he : Effect c.op r v.state) : Effect c.op r v₁.state :=
  he.later (inv_of v).book (kept_op h)

theorem pushRound_spec {x : Local × Option ℕ} (hv : At (Pushing c d val node) v)
    (htl : Within set x.1) (hx : ∀ a ∈ x.2, MyAnchor c a v.state) :
    wp E.protocol c (pushRound set c d node x) (fun r v' => Sum.elim
      (fun x => At (Pushing c d val node) v' ∧ Within set x.1 ∧ ∀ a ∈ x.2, MyAnchor c a v'.state)
      (fun tl => Effect c.op 1 v'.state ∧ Within set tl) r) v := by
  unfold pushRound
  refine wp.bind_of (nextAnchorOf_spec keeps_pushing hv hx) fun a v₁ ⟨hv₁, ha₁⟩ => ?_
  have hK : Keeps set c v₁.state.freshAnchor fun calls s => Pushing c d val node calls s ∧
    MyAnchor c a s :=
    keeps_pushing.mine ha₁.lt
  refine wp.bind_of (findPut_spec hK ⟨hv₁, ha₁⟩ htl) fun y v₂ ⟨⟨hv₂, ha₂⟩, hp₂⟩ => ?_
  refine wp.bind_of (pushAt_spec hv₂ ha₂ hp₂) fun old v₃ h₃ => ?_
  cases old with
  | none =>
    refine ⟨h₃.1, hp₂.lt, ?_⟩
    rintro k hk
    obtain rfl := Option.some.inj hk
    exact h₃.2
  | some old =>
    refine wp.bind_of (freeOwed_spec (K := fun _ s => Effect c.op 1 s) (fun _ _ h => h)
      (fun _ _ h he => effect_of_le h he) h₃.1 h₃.2) fun _ v₄ h₄ => ⟨h₄, hp₂.lt⟩

theorem push_spec {tl : Local} (hcall : v.now.1.calls[c.op]? = some (.push d val))
    (hq : Quiet c.op v.state) (htl : Within set tl) :
    wp E.protocol c (push set c d val tl) (fun x v' =>
      Within set x.1 ∧ ∃ r, x.2 = some r ∧ Effect c.op r v'.state) v := by
  unfold push
  refine wp.bind_of (createNode_spec hcall hq) fun node v₁ hv₁ => ?_
  refine wp.bind_of (A := fun tl v' => Effect c.op 1 v'.state ∧ Within set tl)
    (wp.forever (fun x v =>
    At (Pushing c d val node) v ∧ Within set x.1 ∧ ∀ a ∈ x.2, MyAnchor c a v.state) ⟨hv₁, htl,
      nofun⟩
    fun x v₂ ⟨hv₂, htl₂, hx₂⟩ => pushRound_spec hv₂ htl₂ hx₂) fun tl' v₂ ⟨he, htl'⟩ => ⟨htl', 1,
      rfl, he⟩

/-! ### Pops -/

theorem findGet_spec (hK : Keeps set c b K) (hv : At K v) {tl : Local} (htl : Within set tl) :
    wp E.protocol c (Prog.forever (findGetRound set d) tl) (fun x v' => At K v' ∧ Within set x.1 ∧
      ∀ anchor ∈ x.2, GetPlace set d x.1.threadIndex anchor v'.state) v := by
  refine wp.forever (fun tl v => At K v ∧ Within set tl) ⟨hv, htl⟩ fun tl v₁ ⟨hv₁, htl₁⟩ => ?_
  unfold findGetRound
  refine wp.bind_of (getWindow_spec hK hv₁ htl₁) fun x v₂ ⟨hv₂, htl₂, hp₂⟩ => ?_
  obtain ⟨tl₂, found⟩ := x
  cases found with
  | none => exact ⟨hv₂, htl₂, nofun⟩
  | some anchor =>
    refine wp.bind_of inPlace_spec fun same v₃ ⟨h₃, _⟩ => ?_
    cases same with
    | false => exact ⟨hK.le h₃ hv₂, htl₂⟩
    | true =>
      refine ⟨hK.le h₃ hv₂, htl₂, ?_⟩
      rintro k hk
      obtain rfl := Option.some.inj hk
      exact (hp₂ _ rfl).later (kept_op h₃)

/-- The node has been taken by the call, which has to free the old anchor. -/
structure Took (set : Params) (c : Caller) (d : Side) (anchor n : ℕ) (s : Memory) : Prop where
  event : ∃ i, .pop d c.op i n ∈ s.hist
  owed : Owed set c anchor s

theorem popCas_spec (node : ℕ) (hv : At (Popping c d) v) (ha : MyAnchor c a v.state)
    (hp : GetPlace set d i anchor v.state) (hstate : (v.state.anchors a).state =
      (v.state.anchors anchor).state)
    (hput : (v.state.anchors a).putCount = (v.state.anchors anchor).putCount)
    (hget : (v.state.anchors a).getCount =
      Function.update (v.state.anchors anchor).getCount d ((v.state.anchors anchor).getCount d + 1))
    (hends : ∀ v₁ : View E.protocol c, v ≤ v₁ → v₁.state.anchor i = anchor →
      ∀ xs, Linked v₁.state i xs →
      (v₁.state.now i).state = .stable ∧ ∃ ys, d.look xs = node :: ys ∧
        ∀ d', (v.state.anchors a).ends d' = (d'.look (d.look ys)).head?) :
    wp E.protocol c (popCas c d i anchor a node)
      (fun done v' => if done then Took set c d anchor node v'.state
      else At (Popping c d) v' ∧ MyAnchor c a v'.state) v := by
  unfold popCas
  refine wp.cae (fun v₁ h₁ hin _ => ?_) fun v₁ h₁ _ => ?_
  · have hv₁ := (keeps_popping (b := 0)).le h₁ hv
    have ha₁ := ha.later (kept_op h₁)
    have hp₁ := hp.later (kept_op h₁)
    have hin : v₁.state.anchor i = anchor := hin
    obtain ⟨xs, hxs, hl⟩ := (inv_of v₁).shape.deques i hp.lt
    obtain ⟨hst, ys, hx, hnewEnds⟩ := hends v₁ h₁ hin xs hl
    subst hin
    have hsame : v₁.state.now i = v.state.anchors (v₁.state.anchor i) :=
      ((kept_op h₁).anchors _ hp.used).1
    have hnew : v₁.state.anchors a = v.state.anchors a := ha.anchors_eq (kept_op h₁) rfl
    refine ⟨(), allows_step
      ((inv_of v₁).pop ha₁ hp.lt hv₁.call hv₁.quiet hxs hl hst hx ?_ ?_ ?_ ?_ hp₁.count)
      fun o ho => .pop (inv_of v₁) ha₁ ho hp.lt hst, ?_, ?_⟩
    · rw [hnew, hstate, ← hsame, hst]
    · rw [hnew]
      exact hnewEnds
    · rw [hnew, hput, hsame]
    · rw [hnew, hget, hsame]
    · exact ⟨i, List.mem_append_right _ (List.mem_singleton_self _)⟩
    · have hne : v₁.state.anchor i ≠ a := ha₁.ne hp₁.used
      refine ⟨(inv_of v₁).shape.used _ hp₁.used, ?_, Function.update_self .., fun j hj hpj => ?_⟩
      · exact (Function.update_of_ne hne _ _).trans hp₁.used
      · exact absurd hpj (notPlaced_of_swing (inv_of v₁).shape ha₁ hp.lt hj)
  · exact ⟨(keeps_popping (b := 0)).le h₁ hv, ha.later (kept_op h₁)⟩

/-- The link that was loaded is the present one, as long as the stable anchor is in place. -/
def Peek (d : Side) (i anchor node : ℕ) (prev : Option ℕ) (s : Memory) : Prop :=
  s.anchor i = anchor → s.link d.other node = prev

theorem keeps_getPlace (x : Anchor) :
    Keeps set c b fun calls s => (Popping c d calls s ∧ GetPlace set d i anchor s) ∧
    s.used anchor = true ∧ s.anchors anchor = x := by
  have hplace : Keeps set c b fun calls s => Popping c d calls s ∧ GetPlace set d i anchor s :=
    keeps_popping.place (fun _ h => h.used) (fun _ _ hk h => h.later hk)
      (fun _ _ _ he h => ⟨h.lt, h.used, he ▸ h.count, he ▸ h.item⟩)
      (fun _ _ _ hu h => ⟨h.lt, hu, h.count, h.item⟩) fun _ _ h => ⟨h.lt, h.used, h.count, h.item⟩
  exact hplace.fields x

theorem keeps_peek {x : Anchor} (hx : x.state = .stable) (hnode : x.ends d = some node)
    (prev : Option ℕ) :
    Keeps set c 0 fun calls s => ((Popping c d calls s ∧ GetPlace set d i anchor s) ∧
      s.used anchor = true ∧
      s.anchors anchor = x) ∧ Peek d i anchor node prev s where
  later calls calls' s s' hi hc hk h := by
    obtain ⟨h, hpeek⟩ := h
    refine ⟨(keeps_getPlace (b := 0) x).later _ _ _ _ hi hc hk h, fun hp => ?_⟩
    obtain ⟨⟨-, hplace⟩, hu, rfl⟩ := h
    have hp₀ := hk.never anchor hu i hp
    exact (hk.stable i hplace.lt anchor hu hp₀ hp hx d node hnode d.other).trans (hpeek hp₀)
  write calls s k y hk hm h :=
    ⟨(keeps_getPlace (b := 0) x : Keeps set c 0 _).write _ _ _ _ hk hm h.1, h.2⟩
  swing calls s j k hk hm h := by
    obtain ⟨h, hpeek⟩ := h
    refine ⟨(keeps_getPlace (b := 0) x : Keeps set c 0 _).swing _ _ _ _ hk hm h, fun hp => ?_⟩
    have hp : Function.update s.anchor j k i = anchor := hp
    by_cases hij : i = j
    · subst hij
      rw [Function.update_self] at hp
      exact absurd hp.symm (hm.ne h.2.1)
    · rw [Function.update_of_ne hij] at hp
      exact hpeek hp
  free calls s k hk hm h :=
    ⟨(keeps_getPlace (b := 0) x : Keeps set c 0 _).free _ _ _ hk hm h.1, h.2⟩

theorem popAt_spec (hv : At (Popping c d) v) (ha : MyAnchor c a v.state)
    (hp : GetPlace set d i anchor v.state) :
    wp E.protocol c (popAt c d i anchor a) (fun taken v' => match taken with
      | none => At (Popping c d) v' ∧ MyAnchor c a v'.state
      | some n => Took set c d anchor n v'.state) v := by
  unfold popAt
  refine wp.read fun v₁ h₁ => ?_
  have hv₁ := (keeps_popping (b := 0)).le h₁ hv
  have ha₁ := ha.later (kept_op h₁)
  have hp₁ := hp.later (kept_op h₁)
  obtain ⟨node, hnode⟩ := Option.ne_none_iff_exists'.1 hp₁.item
  simp only [hnode]
  split
  next hone =>
    refine wp.bind_of (writeAnchor_spec (keeps_getPlace (v₁.state.anchors anchor)) ⟨⟨hv₁, hp₁⟩,
      hp₁.used, rfl⟩
      (Nat.zero_le _) ha₁ _) fun _ v₂ ⟨⟨⟨hv₂, hp₂⟩, _, hx₂⟩, ha₂, hnew₂⟩ => ?_
    refine wp.bind_of (popCas_spec node hv₂ ha₂ hp₂ ?_ ?_ ?_ fun v₃ h₃ hin xs hl => ?_)
      fun done v₃ h₃ => ?_
    · rw [hnew₂, hx₂]
      rfl
    · rw [hnew₂, hx₂]
      rfl
    · rw [hnew₂, hx₂]
      rfl
    · have hsame : v₃.state.now i = v₁.state.anchors anchor := by
        unfold Memory.now
        rw [hin, ((kept_op h₃).anchors anchor hp₂.used).1, hx₂]
      have hsingle : d.look xs = [node] := hl.single (by rw [hsame]; exact hone)
        (by rw [hsame]; exact hnode)
      refine ⟨hl.stable_of_single (d := d) (.inr ⟨node, hsingle⟩), [], hsingle, fun d' => ?_⟩
      rw [hnew₂]
      cases d <;> cases d' <;> rfl
    · cases done with
      | true => exact h₃
      | false => exact h₃
  next hone =>
    split
    next hst =>
      refine wp.bind_of inPlace_spec fun same v₂ ⟨h₂, _⟩ => ?_
      have hv₂ := (keeps_popping (b := 0)).le h₂ hv₁
      have ha₂ := ha₁.later (kept_op h₂)
      have hp₂ := hp₁.later (kept_op h₂)
      cases same with
      | false => exact ⟨hv₂, ha₂⟩
      | true =>
        refine wp.read fun v₃ h₃ => ?_
        have hv₃ := (keeps_popping (b := 0)).le h₃ hv₂
        have ha₃ := ha₂.later (kept_op h₃)
        have hp₃ := hp₂.later (kept_op h₃)
        have hx₃ : v₃.state.anchors anchor = v₁.state.anchors anchor :=
          ((kept_op h₃).anchors anchor hp₂.used).1.trans ((kept_op h₂).anchors anchor hp₁.used).1
        refine wp.bind_of (writeAnchor_spec (keeps_peek hst hnode (v₃.state.link d.other node))
          ⟨⟨⟨hv₃, hp₃⟩, hp₃.used, hx₃⟩, fun _ => rfl⟩ (Nat.zero_le _) ha₃ _)
          fun _ v₄ ⟨⟨⟨⟨hv₄, hp₄⟩, hu₄, hx₄⟩, hpeek₄⟩, ha₄, hnew₄⟩ => ?_
        refine wp.bind_of (popCas_spec node hv₄ ha₄ hp₄ ?_ ?_ ?_ fun v₅ h₅ hin xs hl => ?_)
          fun done v₅ h₅ => ?_
        · rw [hnew₄, hx₄]
          rfl
        · rw [hnew₄, hx₄]
          rfl
        · rw [hnew₄, hx₄]
          rfl
        · have hv₅ := (keeps_peek hst hnode (v₃.state.link d.other node)).le h₅
            ⟨⟨⟨hv₄, hp₄⟩, hu₄, hx₄⟩, hpeek₄⟩
          have hsame : v₅.state.now i = v₁.state.anchors anchor := by
            unfold Memory.now
            rw [hin, hv₅.1.2.2]
          have hst₅ : (v₅.state.now i).state = .stable := hsame.symm ▸ hst
          have hnode₅ : (v₅.state.now i).ends d = some node := hsame.symm ▸ hnode
          obtain ⟨m, ys, hx⟩ := hl.several (by rw [hsame]; exact hone) hnode₅
          -- the link that was loaded leads to the second node
          have hlink : v₅.state.link d.other node = some m := by
            refine hl.link_of_stable (d := d.other) hst₅ (next_other.2 ?_)
            rw [hx]
            exact next_cons.2 (.inl ⟨rfl, rfl⟩)
          have hprev : v₃.state.link d.other node = some m := (hv₅.2 hin).symm.trans hlink
          refine ⟨hst₅, m :: ys, hx, fun d' => ?_⟩
          rw [hnew₄, hprev]
          show Function.update (v₁.state.anchors anchor).ends d (some m) d' = _
          rcases Side.eq_or_other d d' with rfl | rfl
          · rw [Function.update_self, Side.look_look]
            rfl
          · rw [Function.update_of_ne (Side.other_ne d), ← hsame, hl.ends,
              head_other hx (List.cons_ne_nil _ _)]
        · cases done with
          | true => exact h₅
          | false => exact h₅
    next hst =>
      have hK : Keeps set c v₁.state.freshAnchor fun calls s => Popping c d calls s ∧
        MyAnchor c a s :=
        keeps_popping.mine ha₁.lt
      have hbelow := (inv_of v₁).shape.used anchor hp₁.used
      exact wp.bind_of (stabilize_spec hK ⟨hv₁, ha₁⟩ le_rfl hp.lt hbelow hp₁.used hst)
        fun _ _ h => h

/-- How a call ends: it has taken effect with its answer, or it has found no item and has not. -/
def Ended (op : ℕ) (r : Option ℤ) (s : Memory) :
    Prop := (r = none ∧ Quiet op s) ∨ ∃ x, r = some x ∧ Effect op x s

theorem popRound_spec {x : Local × Option ℕ} (hv : At (Popping c d) v) (htl : Within set x.1)
    (hx : ∀ a ∈ x.2, MyAnchor c a v.state) :
    wp E.protocol c (popRound set c d x) (fun r v' => Sum.elim
      (fun x => At (Popping c d) v' ∧ Within set x.1 ∧ ∀ a ∈ x.2, MyAnchor c a v'.state)
      (fun y => Within set y.1 ∧ Ended c.op y.2 v'.state) r) v := by
  unfold popRound
  refine wp.bind_of (nextAnchorOf_spec keeps_popping hv hx) fun a v₁ ⟨hv₁, ha₁⟩ => ?_
  have hK : Keeps set c v₁.state.freshAnchor fun calls s => Popping c d calls s ∧ MyAnchor c a s :=
    keeps_popping.mine ha₁.lt
  refine wp.bind_of (findGet_spec hK ⟨hv₁, ha₁⟩ htl) fun y v₂ ⟨⟨hv₂, ha₂⟩, htl₂, hp₂⟩ => ?_
  obtain ⟨tl, found⟩ := y
  cases found with
  | none => exact ⟨htl₂, .inl ⟨rfl, hv₂.quiet⟩⟩
  | some anchor =>
    refine wp.bind_of (popAt_spec hv₂ ha₂ (hp₂ anchor rfl)) fun taken v₃ h₃ => ?_
    cases taken with
    | none =>
      refine ⟨h₃.1, htl₂, ?_⟩
      rintro k hk
      obtain rfl := Option.some.inj hk
      exact h₃.2
    | some n =>
      obtain ⟨⟨i, hev⟩, howed⟩ := h₃
      refine wp.read fun v₄ h₄ => ?_
      have heff : Effect c.op (v₄.state.val n) v₄.state := ⟨_, (kept_op h₄).hist.mem hev, rfl, rfl⟩
      refine wp.bind_of (freeOwed_spec (K := fun _ s => Effect c.op (v₄.state.val n) s)
        (fun _ _ h => h)
        (fun _ _ h he => effect_of_le h he) heff (howed.later (kept_op h₄))) fun _ v₅ h₅ => ?_
      exact ⟨htl₂, .inr ⟨_, rfl, h₅⟩⟩

theorem pop_spec {tl : Local} (hcall : v.now.1.calls[c.op]? = some (.pop d))
    (hq : Quiet c.op v.state) (htl : Within set tl) : wp E.protocol c (pop set c d tl) (fun x v' =>
      Within set x.1 ∧ Ended c.op x.2 v'.state) v :=
  wp.forever (fun x v => At (Popping c d) v ∧ Within set x.1 ∧ ∀ a ∈ x.2, MyAnchor c a v.state)
    ⟨⟨hcall, hq⟩, htl, nofun⟩ fun _ _ ⟨hv₁, htl₁, hx₁⟩ => popRound_spec hv₁ htl₁ hx₁

end Specs

end TwoDdDeque
