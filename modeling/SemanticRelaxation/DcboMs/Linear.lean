import SemanticRelaxation.DcboMs.Counts
import SemanticRelaxation.Prog.Linearizable

/-!
# The Michael-Scott queues are linearizable (`src/dcbo-ms/partial-ms.c`, `src/ms/ms.c`)

The file `ms.c` is `partial-ms.c` for one queue. An enqueue takes effect when its node is linked, a
dequeue when the head is exchanged, or when it finds nothing behind the head.

* `Uses`: which queues a call may use; `queues uses w`: `w` queues whose calls use them in this way;
* `msEnqueue_commits` and `msDequeue_commits`: the operations take effect once;
* `msQueue_linearizable`: in every run the history is legal, explains all answers and leads to the
  chains of nodes behind the heads.
-/

namespace DcboMs

open AtomicProg Linked MichaelScott

/-- Which queues a call puts a value into, which queues it takes one from, and when it may find
nothing. -/
structure Uses (C : Type) where
  puts : C → ℕ → ℤ → Prop
  gets : C → ℕ → Prop
  misses : C → (ℕ → List ℤ) → Prop

/-- `w` queues. An enqueue appends its value to one of them, a dequeue takes the first value of one
of them or answers 0. -/
def queues {C : Type} (uses : Uses C) (w : ℕ) : Spec C ℤ where
  State := ℕ → List ℤ
  init := fun _ => []
  step x call r x' :=
    (∃ q < w, ∃ val, uses.puts call q val ∧ r = 1 ∧ x' = Function.update x q (x q ++ [val])) ∨
    (∃ q < w, ∃ st, uses.gets call q ∧ x q = r :: st ∧ x' = Function.update x q st) ∨
    uses.misses call x ∧ r = Dcbo.EMPTY ∧ x' = x

/-- The values behind the head of a queue. -/
def content (s : Memory) (q : ℕ) : List ℤ :=
  ((s.cells.line q).drop ((s.head q).count + 1)).map fun n => (s.cells.heap n).val

/-- What all threads keep to. -/
abbrev model {C : Type} (uses : Uses C) (w : ℕ) (good : ℤ → Prop) :
    Model (queues uses w) Memory (ℕ → ℕ) :=
  .ofRegime _ (regime C w good) fun x s => ∀ q < w, content s.1 q = x q

/-! ### The contents -/

section Content

variable {w : ℕ} {good : ℤ → Prop} {s : Memory} {q p t n m : ℕ} {x : ℕ → List ℤ}

/-- The contents are the same if the lines, the heads and the values of the nodes are. -/
theorem content_congr {s' : Memory} (hl : s'.cells.line q = s.cells.line q)
    (hh : s'.head q = s.head q) (hv : ∀ k ∈ s.cells.line q, (s'.cells.heap k).val =
      (s.cells.heap k).val) : content s' q = content s q := by
  unfold content
  rw [hl, hh]
  exact List.map_congr_left fun k hk => hv k (List.mem_of_mem_drop hk)

theorem content_create (hi : Inv w good s) (hq : q < w) (val : ℤ) :
    content (s.onCells (·.create val)) q = content s q :=
  content_congr rfl rfl fun k hk =>
    (Grows.create s.store val).val k (hi.valid.lines.lt_fresh q hq k hk)

/-- A linked node comes last. -/
theorem content_link (hi : Inv w good s) (hq : q < w) {j : ℕ} :
    content (s.onCells (·.append q (some t) n)) j =
      Function.update (content s) q (content s q ++ [(s.cells.heap n).val]) j := by
  have hval : ∀ k, ((s.cells.append q (some t) n).heap k).val = (s.cells.heap k).val := fun k =>
    Cells.append_val ..
  by_cases hj : j = q
  · subst hj
    rw [Function.update_self]
    have hlt : (s.head j).count + 1 ≤ (s.cells.line j).length :=
      (hi.valid.le j hq).trans_lt (hi.valid.put_lt hq)
    have hline : (s.cells.append j (some t) n).line j = s.cells.line j ++ [n] :=
      Function.update_self ..
    show (((s.cells.append j (some t) n).line j).drop ((s.head j).count + 1)).map
      (fun k => ((s.cells.append j (some t) n).heap k).val) = _
    rw [hline, List.drop_append_of_le_length hlt, List.map_append, List.map_singleton, hval]
    exact congrArg (· ++ _) (List.map_congr_left fun k _ => hval k)
  · rw [Function.update_of_ne hj]
    exact content_congr (Function.update_of_ne hj _ _) rfl fun k _ => hval k

theorem content_swing {j : ℕ} (d : Descriptor) : content (s.setTail q d) j = content s j :=
  content_congr rfl rfl fun _ _ => rfl

/-- The node behind the head is taken. -/
theorem content_take (hm : (s.cells.line q)[(s.head q).count + 1]? = some m) (op : ℕ) :
    content s q = (s.cells.heap m).val :: content
      (s.setHead op q ⟨some m, (s.head q).count + 1⟩) q := by
  obtain ⟨hlt, rfl⟩ := List.getElem?_eq_some_iff.1 hm
  have hhead : (s.setHead op q ⟨some (s.cells.line q)[(s.head q).count + 1],
    (s.head q).count + 1⟩).head q =
      ⟨some (s.cells.line q)[(s.head q).count + 1], (s.head q).count + 1⟩ := Function.update_self ..
  unfold content
  rw [hhead, List.drop_eq_getElem_cons hlt, List.map_cons]
  rfl

theorem content_take_of_ne {j : ℕ} (hj : j ≠ q) (op : ℕ) (d : Descriptor) :
    content (s.setHead op q d) j = content s j :=
  content_congr rfl (Function.update_of_ne hj _ _) fun _ _ => rfl

/-- Nothing is behind a head that is the last node. -/
theorem content_last (hl : (s.head q).count + 1 = (s.cells.line q).length) : content s q = [] := by
  unfold content
  rw [hl, List.drop_length, List.map_nil]

end Content

/-! ### The steps -/

/-- Queues with the code of their calls. -/
abbrev withCode {C : Type} (code : Caller → C → Unit → Prog Memory (Unit × ℤ)) :
    Service Memory Unit := ⟨C, ℤ, code⟩

section Steps

variable {C : Type} {code : Caller → C → Unit → Prog Memory (Unit × ℤ)} {uses : Uses C} {w : ℕ}
  {good : ℤ → Prop}
  {c : Caller} {v v₁ v₂ : View (Model.results (S := withCode code) (model uses w good)).protocol c}
  {call : C} {q n : ℕ}
  {val : ℤ}

/-- The protocol of the queues. -/
abbrev protocol (code : Caller → C → Unit → Prog Memory (Unit × ℤ)) (uses : Uses C) (w : ℕ)
    (good : ℤ → Prop) :
    Protocol (withCode code) ((ℕ → ℕ) × Account (queues uses w)) :=
  (Model.results (S := withCode code) (model uses w good)).protocol

/-- The view without the history. -/
abbrev plain (v : View (protocol code uses w good) c) :
    View (Results.trivial (withCode code) (regime C w good)).protocol c := Model.forget v

/-- The call has not taken effect. -/
structure Pending (call : C) (v : View (protocol code uses w good) c) : Prop where
  call : v.now.1.calls[c.op]? = some call
  undone : Model.Undone v
  untaken : Untaken c.op v.state

theorem Pending.since (h : Pending call v) (h₁ : Since v v₁) : Pending call v₁ :=
  ⟨h₁.call h.call, h.undone.since h₁, untaken_since (Model.forget_since h₁) h.untaken⟩

/-- The enqueue has its node, which is not linked yet. -/
structure Ready (call : C) (val : ℤ) (n : ℕ) (v : View (protocol code uses w good) c) : Prop where
  pending : Pending call v
  mine : Mine w good c.op n (plain v).pair
  val : (v.state.cells.heap n).val = val

theorem Ready.since (h : Ready call val n v) (h₁ : Since v v₁) : Ready call val n v₁ where
  pending := h.pending.since h₁
  mine := h.mine.since (Model.forget_since h₁)
  val := ((grows_since (Model.forget_since h₁)).val n h.mine.unlinked.lt_fresh).trans h.val

theorem plain_grows (h : v ≤ v₁) : Grows v.state.store v₁.state.store :=
  grows_of_le (Model.forget_le h)

theorem readDescriptor_views {loc : Memory → Descriptor}
    {Q : Descriptor → View (protocol code uses w good) c → Prop}
    (h : ∀ v₁ v₂ v₃ : View (protocol code uses w good) c, v ≤ v₁ → v ≤ v₂ → v₁ ≤ v₃ → v₂ ≤ v₃ →
      Q ⟨(loc v₁.state).node, (loc v₂.state).count⟩ v₃) :
    wp (protocol code uses w good) c (readDescriptor loc) Q v := by
  refine wp.choose fun n v₀ h₀ => ?_
  split
  · refine wp.read fun v₁ h₁ => wp.read fun v₂ h₂ => ?_
    exact h v₁ v₂ v₂ (h₀.trans h₁) (h₀.trans (h₁.trans h₂)) h₂ le_rfl
  · refine wp.read fun v₁ h₁ => wp.read fun v₂ h₂ => ?_
    exact h v₂ v₁ v₂ (h₀.trans (h₁.trans h₂)) (h₀.trans h₁) le_rfl h₂

theorem tailCae_since (hq : q < w) {p t m count : ℕ} (ht : (v.state.cells.line q)[p]? = some t)
    (hm : (v.state.cells.line q)[p + 1]? = some m) :
    wp (protocol code uses w good) c (tailCae q ⟨some t, count⟩ ⟨some m, count + 1⟩)
      (fun _ v' => Since v v') v := by
  unfold tailCae
  refine wp.cae (fun v₁ h₁ he _ => ?_) fun v₁ h₁ _ => Since.of_le h₁
  have hi := (inv_of (plain v₁)).valid
  have ht₁ := (plain_grows h₁).getElem? ht
  have hcount : (v₁.state.tail q).count = p := by
    refine hi.put_count hq (ht₁.trans ?_) (List.getElem?_eq_some_iff.1 ht₁).1
    exact (congrArg Descriptor.node he).symm
  obtain rfl : (v₁.state.tail q).count = count := congrArg Descriptor.count he
  have hm₁ : ((plain v₁).state.cells.line q)[((plain v₁).state.tail q).count + 1]? = some m :=
    hcount ▸ (plain_grows h₁).getElem? hm
  obtain ⟨hall, hk⟩ := swing_allows hm₁
  have hall' := Model.allows_of v₁ hall fun x hx j hj => (content_swing _).trans (hx j hj)
  exact ⟨_, hall', (Since.of_le h₁).trans (Model.since_step hk)⟩

/-! ### Enqueue -/

theorem createMsNode_ready (hcall : Pending call v) (hval : good val) :
    wp (protocol code uses w good) c (createMsNode val) (fun n v' => Ready call val n v') v := by
  intro v₁ h₁ _ _
  have hi := inv_of (plain v₁)
  have hk : ∀ o, Kept w o (plain v₁).pair (v₁.state.onCells (·.create val),
      Function.update (Model.now v₁).2 v₁.state.cells.fresh c.op) := fun o =>
    ⟨.create v₁.state.store val c.op, fun _ => List.prefix_refl _, fun _ _ _ h => h⟩
  have hnew : ((v₁.state.onCells (·.create val)).cells.heap v₁.state.cells.fresh).val = val := by
    show (Function.update v₁.state.cells.heap v₁.state.cells.fresh _ v₁.state.cells.fresh).val = val
    rw [Function.update_self]
  have hold : (Results.trivial (withCode code) (regime C w good)).protocol.Allows c (plain v₁).now
      ((plain v₁).after (v₁.state.onCells (·.create val))
        (Function.update (Model.now v₁).2 v₁.state.cells.fresh c.op)) := by
    refine Regime.allows (plain v₁) ⟨hi.valid.create val, hi.count, hi.once, fun j hj p n hn => ?_,
      hi.first⟩
      fun o _ => hk o
    have hlt := hi.valid.lines.lt_fresh j hj n (List.mem_of_getElem? hn)
    exact (show ((v₁.state.onCells (·.create val)).cells.heap n).val = _ from
      (Grows.create v₁.state.store val).val n hlt) ▸ hi.good j hj p n hn
  have hall := Model.allows_of v₁ hold fun x hx j hj => (content_create hi hj val).trans (hx j hj)
  refine ⟨_, hall, hcall.since ((Since.of_le h₁).trans (Model.since_step hk)),
    ⟨Function.update_self .., ?_, ?_⟩, hnew⟩
  · exact .create hi.valid.lines val
  · show good ((v₁.state.onCells (·.create val)).cells.heap v₁.state.cells.fresh).val
    rw [hnew]
    exact hval

theorem msEnqueueRound_commits (hq : q < w) (hp : uses.puts call q val) (hn : Ready call val n v) :
    wp (protocol code uses w good) c (msEnqueueRound q n)
      (fun r v' => Sum.elim (fun _ => Ready call val n v')
      (fun tail => Model.Done v' 1 ∧ Behind q n tail v'.state) r) v := by
  refine wp.bind (readDescriptor_views fun v₁ _ v₂ h₁ _ h₂ _ => ?_)
  obtain ⟨t, hnode, ht₁⟩ := read_tail hq (plain v₁)
  have hnode : (v₁.state.tail q).node = some t := hnode
  have ht₁ : (v₁.state.cells.line q)[(v₁.state.tail q).count]? = some t := ht₁
  simp only [hnode]
  refine wp.read fun v₃ h₃ => ?_
  have ht₃ := (plain_grows (h₂.trans h₃)).getElem? ht₁
  split
  next =>
    simp only [enqCae, Prog.bind_assoc]
    refine wp.cae (fun v₄ h₄ he _ => ?_) fun v₄ h₄ _ =>
      hn.since (.of_le (h₁.trans (h₂.trans (h₃.trans h₄))))
    have h₁₄ := h₂.trans (h₃.trans h₄)
    have hn₄ := hn.since (.of_le (h₁.trans h₁₄))
    obtain ⟨hold, hnew⟩ := link_allows (v := plain v₄) hq ((plain_grows h₁₄).getElem? ht₁)
      ((plain_grows h₁₄).put q) he
      hn₄.mine
    obtain ⟨_, hall⟩ := Model.commits_of v₄ (r := (1 : ℤ)) hold hn₄.pending.undone hn₄.pending.call
      fun (x : ℕ → List ℤ) hx => by
      refine ⟨Function.update x q (x q ++ [val]), .inl ⟨q, hq, val, hp, rfl, rfl⟩, fun j hj => ?_⟩
      refine (content_link (inv_of (plain v₄)) hq).trans ?_
      show Function.update (content v₄.state) q
        (content v₄.state q ++ [(v₄.state.cells.heap n).val]) j = _
      rw [hn₄.val, hx q hq]
      by_cases hjq : j = q
      · subst hjq
        rw [Function.update_self, Function.update_self]
      · rw [Function.update_of_ne hjq, Function.update_of_ne hjq]
        exact hx j hj
    refine ⟨_, hall, Model.done_append hall, (v₁.state.tail q).count, t, rfl, ?_, hnew⟩
    exact (Grows.link v₄.state.store q t n).getElem? ((plain_grows h₁₄).getElem? ht₁)
  next hne =>
    refine wp.read fun v₄ h₄ => ?_
    obtain ⟨m, hm⟩ := Option.ne_none_iff_exists'.1 hne
    have hm₃ : (v₃.state.cells.line q)[(v₁.state.tail q).count + 1]? = some m :=
      (read_next (v := plain v₃) hq ht₃).symm.trans hm
    have ht₄ := (plain_grows h₄).getElem? ht₃
    have hm₄ := (plain_grows h₄).getElem? hm₃
    have he : (v₄.state.cells.deref (some t)).next = some m :=
      (read_next (v := plain v₄) hq ht₄).trans hm₄
    rw [he]
    refine wp.bind_of (tailCae_since hq ht₄ hm₄) fun _ v₅ h₅ => ?_
    exact hn.since ((Since.of_le (h₁.trans (h₂.trans (h₃.trans h₄)))).trans h₅)

/-- An enqueue takes effect once. -/
theorem msEnqueue_commits (hq : q < w) (hp : uses.puts call q val) (hval : good val)
    (h : Pending call v) :
    wp (protocol code uses w good) c (msEnqueue q val) (fun r v' => Model.Done v' r) v := by
  refine wp.bind_of (createMsNode_ready h hval) fun n v₁ hn => ?_
  refine wp.bind_of (wp.forever (Q := fun tail v' => Model.Done v' (1 : ℤ) ∧
    Behind q n tail v'.state)
    (fun _ v' => Ready call val n v') hn fun _ v₂ h₂ => msEnqueueRound_commits hq hp h₂) ?_
  rintro ⟨node, count⟩ v₂ ⟨hd, p, t, hnode, ht, hm⟩
  obtain rfl : node = some t := hnode
  exact wp.bind_of (tailCae_since hq ht hm) fun _ v₃ h₃ => hd.since h₃

/-! ### Dequeue -/

/-- The worlds of `v` are worlds of `v'`, and the queues and the history have grown since. -/
structure Goes (v v' : View (protocol code uses w good) c) : Prop where
  seen : v.seen ⊆ v'.seen
  grows : Grows v.state.store v'.state.store
  log : Model.log v <+: Model.log v'
  made : (Model.hist v').since c.op = (Model.hist v).since c.op

theorem Goes.of_since (h : Since v v₁) : Goes v v₁ :=
  ⟨h.seen, grows_since (Model.forget_since h), h.frame.log, h.frame.mark c.op rfl⟩

theorem Goes.trans (h₁ : Goes v v₁) (h₂ : Goes v₁ v₂) : Goes v v₂ :=
  ⟨h₁.seen.trans h₂.seen, h₁.grows.trans h₂.grows, h₁.log.trans h₂.log, h₂.made.trans h₁.made⟩

/-- Between `v` and `v'` the queue was seen empty. -/
def SeenClear (q : ℕ) (v v' : View (protocol code uses w good) c) : Prop :=
  ∃ u ∈ v'.seen, Grows v.state.store u.1.shared.store ∧ Grows u.1.shared.store v'.state.store ∧
    Clear q u.1.shared

/-- What a dequeue knows that is about to return: with `late`, it has not taken effect if it found
nothing. -/
structure Answered (call : C) (late : Bool) (q : ℕ) (v : View (protocol code uses w good) c) (r : ℤ)
    (v' : View (protocol code uses w good) c) : Prop where
  goes : Goes v v'
  answer : Model.Done v' r ∧ (late = true → good r) ∨ late = true ∧ r = Dcbo.EMPTY ∧
    Pending call v' ∧ SeenClear q v v'

theorem Answered.of_since {late : Bool} {r : ℤ} (h₁ : Since v v₁)
    (h : Answered call late q v₁ r v₂) :
    Answered call late q v r v₂ := by
  refine ⟨(Goes.of_since h₁).trans h.goes,
    h.answer.imp_right fun ⟨hl, hr, hp, u, hu, hg₁, hg₂, hc⟩ => ?_⟩
  exact ⟨hl, hr, hp, u, hu, (Goes.of_since h₁).grows.trans hg₁, hg₂, hc⟩

/-- Whose head is the last node is empty. -/
theorem last_of_next (hq : q < w) {p t : ℕ} (ht : (v.state.cells.line q)[p]? = some t)
    (hp : p ≤ (v.state.head q).count) (hnone : (v.state.cells.deref (some t)).next = none) :
    (v.state.head q).count + 1 = (v.state.cells.line q).length ∧ Clear q v.state := by
  have hi := (inv_of (plain v)).valid
  have hlast : p + 1 = (v.state.cells.line q).length := hi.lines.last hq ht hnone
  have hle : (v.state.head q).count ≤ (v.state.tail q).count := hi.le q hq
  have hlt : (v.state.tail q).count < (v.state.cells.line q).length := hi.put_lt hq
  refine ⟨by omega, ?_⟩
  show (v.state.head q).count = (v.state.tail q).count
  omega

theorem helpOrEmpty_commits (hq : q < w) {late : Bool} (hmiss : late = false → ∀ x, x q = [] →
      uses.misses call x)
    {p t hcount tcount : ℕ} (h : Pending call v) (ht : (v.state.cells.line q)[p]? = some t)
    (hp : p ≤ (v.state.head q).count) :
    wp (protocol code uses w good) c (helpOrEmpty q ⟨some t, hcount⟩ ⟨some t, tcount⟩)
      (fun r v' => Sum.elim (fun _ => Since v v') (fun x => Answered call late q v x v') r) v := by
  unfold helpOrEmpty
  refine Model.read_cases fun v₁ h₁ => ?_
  have hs := Since.of_le h₁
  have h₁' := h.since hs
  have ht₁ := (plain_grows h₁).getElem? ht
  by_cases hnone : (v₁.state.cells.deref (some t)).next = none
  · simp only [if_pos hnone]
    obtain ⟨hlast, hclear⟩ := last_of_next hq ht₁ (hp.trans ((plain_grows h₁).get q)) hnone
    cases late with
    | true =>
      exact .inl ⟨.of_since hs, .inr ⟨rfl, rfl, h₁', v₁.now, v₁.mem, plain_grows h₁, .refl _,
        hclear⟩⟩
    | false =>
      obtain ⟨_, hall⟩ := Model.commits v₁ (s := v₁.state) (g := (Model.now v₁).2)
        (r := Dcbo.EMPTY) h₁'.undone h₁'.call
        (fun x hx => ⟨x, .inr (.inr ⟨hmiss rfl x ((hx.2 q hq).symm.trans (content_last hlast)), rfl,
          rfl⟩), hx⟩)
        fun o _ => (regime C w good).refl o _
      have hgoes : Goes v₁ (v₁.step _ _ hall.inv) :=
        ⟨v₁.subset_step _ _ _, .refl _, List.prefix_append _ _, rfl⟩
      exact .inr ⟨_, hall, (Goes.of_since hs).trans hgoes,
        .inl ⟨Model.done_append hall, fun h => absurd h Bool.false_ne_true⟩⟩
  · simp only [if_neg hnone]
    refine .inl (wp.read fun v₂ h₂ => ?_)
    obtain ⟨m, hm⟩ := Option.ne_none_iff_exists'.1 hnone
    have hm₁ : (v₁.state.cells.line q)[p + 1]? = some m :=
      (read_next (v := plain v₁) hq ht₁).symm.trans hm
    have ht₂ := (plain_grows h₂).getElem? ht₁
    have hm₂ := (plain_grows h₂).getElem? hm₁
    have he : (v₂.state.cells.deref (some t)).next = some m :=
      (read_next (v := plain v₂) hq ht₂).trans hm₂
    simp only [he]
    exact wp.bind_of (tailCae_since hq ht₂ hm₂) fun _ v₃ h₃ => (hs.trans (.of_le h₂)).trans h₃

/-- The head has been read at position `p`, and the tail after that further on. -/
theorem takeHead_commits (hq : q < w) (hg : uses.gets call q) {late : Bool} {p t count : ℕ}
    (h : Pending call v) (ht : (v.state.cells.line q)[p]? = some t)
    (hlt : p < (v.state.tail q).count) :
    wp (protocol code uses w good) c (takeHead c q ⟨some t, count⟩)
      (fun r v' => Sum.elim (fun _ => Since v v') (fun x => Answered call late q v x v') r) v := by
  refine wp.read fun v₁ h₁ => ?_
  have hlt₁ : p + 1 < (v₁.state.cells.line q).length := by
    have h₂ := (inv_of (plain v₁)).valid.put_lt hq
    have h₃ := (plain_grows h₁).put q
    exact lt_of_le_of_lt (lt_of_lt_of_le hlt h₃) h₂
  have ht₁ := (plain_grows h₁).getElem? ht
  obtain ⟨m, hm⟩ : ∃ m, (v₁.state.cells.line q)[p + 1]? = some m :=
    ⟨_, List.getElem?_eq_getElem hlt₁⟩
  have he : (v₁.state.cells.deref (some t)).next = some m :=
    (read_next (v := plain v₁) hq ht₁).trans hm
  simp only [he, deqCae, Prog.bind_assoc]
  refine wp.cae (fun v₂ h₂ hd _ => ?_) fun v₂ h₂ _ => Since.of_le (h₁.trans h₂)
  have hs := Since.of_le (h₁.trans h₂)
  have h₂' := h.since hs
  have ht₂ := (plain_grows h₂).getElem? ht₁
  have hm₂ := (plain_grows h₂).getElem? hm
  have hp : (v₂.state.head q).count = p := by
    refine (inv_of (plain v₂)).valid.get_count hq (ht₂.trans ?_) (List.getElem?_eq_some_iff.1 ht₂).1
    exact (congrArg Descriptor.node hd).symm
  obtain rfl : (v₂.state.head q).count = count := congrArg Descriptor.count hd
  have hlt₂ : (v₂.state.head q).count < (v₂.state.tail q).count := by
    rw [hp]
    exact lt_of_lt_of_le hlt ((plain_grows (h₁.trans h₂)).put q)
  have hm₂' : (v₂.state.cells.line q)[(v₂.state.head q).count + 1]? = some m := hp ▸ hm₂
  have hold := got_allows (v := plain v₂) hq h₂'.untaken hlt₂ hm₂'
  obtain ⟨_, hall⟩ := Model.commits_of v₂ (r := (v₂.state.cells.heap m).val) hold h₂'.undone
    h₂'.call
    fun (x : ℕ → List ℤ) hx => by
    have htake := content_take hm₂' c.op
    refine ⟨Function.update x q
      (content (v₂.state.setHead c.op q ⟨some m, (v₂.state.head q).count + 1⟩) q),
      .inr (.inl ⟨q, hq, _, hg, (hx q hq).symm.trans htake, rfl⟩), fun j hj => ?_⟩
    by_cases hjq : j = q
    · subst hjq
      rw [Function.update_self]
      rfl
    · rw [Function.update_of_ne hjq]
      exact (content_take_of_ne hjq _ _).trans (hx j hj)
  refine ⟨_, hall, ?_⟩
  have hdone := Model.done_append hall
  have hgood : good (v₂.state.cells.heap m).val := (inv_of (plain v₂)).good q hq _ m hm₂'
  -- the node that was taken does not change any more
  have hgrow : Grows v₂.state.store (v₂.step _ _ hall.inv).state.store := .take (Nat.le_succ _)
  refine wp.read fun v₃ h₃ => wp.read fun v₄ h₄ => ?_
  have hg₃ := hgrow.trans (plain_grows h₃)
  have he₃ : (v₃.state.cells.deref (some t)).next = some m :=
    (read_next (v := plain v₃) hq (hg₃.getElem? ht₂)).trans (hg₃.getElem? hm₂)
  have hval : (v₄.state.cells.heap m).val = (v₂.state.cells.heap m).val :=
    (hgrow.trans (plain_grows (h₃.trans h₄))).val m
      ((inv_of (plain v₂)).valid.lines.lt_fresh q hq m (List.mem_of_getElem? hm₂))
  have hgoes : Goes v v₄ := by
    refine (Goes.of_since hs).trans (Goes.trans ⟨v₂.subset_step _ _ hall.inv, hgrow, ?_, rfl⟩
      (.of_since (.of_le (h₃.trans h₄))))
    exact List.prefix_append _ _
  rw [he₃]
  show Answered call late q v (v₄.state.cells.heap m).val v₄
  rw [hval]
  exact ⟨hgoes, .inl ⟨hdone.since (.of_le (h₃.trans h₄)), fun _ => hgood⟩⟩

theorem msDequeueRound_commits (hq : q < w) (hg : uses.gets call q) {late : Bool}
    (hmiss : late = false → ∀ x, x q = [] → uses.misses call x) (h : Pending call v) :
    wp (protocol code uses w good) c (msDequeueRound c q)
      (fun r v' => Sum.elim (fun _ => Since v v') (fun x => Answered call late q v x v') r) v := by
  refine wp.bind (readDescriptor_views fun v₁ _ v₂ h₁ _ h₂ _ => ?_)
  refine wp.bind (readDescriptor_views fun v₃ _ v₄ h₃ _ h₄ _ => ?_)
  obtain ⟨t, hnode, ht₁⟩ := read_head hq (plain v₁)
  obtain ⟨t', hnode', ht₃⟩ := read_tail hq (plain v₃)
  have hnode : (v₁.state.head q).node = some t := hnode
  have hnode' : (v₃.state.tail q).node = some t' := hnode'
  have ht₁ : (v₁.state.cells.line q)[(v₁.state.head q).count]? = some t := ht₁
  have ht₃ : (v₃.state.cells.line q)[(v₃.state.tail q).count]? = some t' := ht₃
  have h₁₃ := h₂.trans h₃
  have hs := Since.of_le (h₁.trans (h₁₃.trans h₄))
  have hold : (v₃.state.cells.line q)[(v₁.state.head q).count]? = some t :=
    (plain_grows h₁₃).getElem? ht₁
  have hle : (v₁.state.head q).count ≤ (v₃.state.head q).count := (plain_grows h₁₃).get q
  have hle' : (v₃.state.head q).count ≤ (v₃.state.tail q).count := (inv_of (plain v₃)).valid.le q hq
  -- a round that ends has its result since the present view
  have hend : ∀ (r : Unit ⊕ ℤ) v', Sum.elim (fun _ => Since v₄ v')
    (fun x => Answered call late q v₄ x v') r →
      Sum.elim (fun _ => Since v v') (fun x => Answered call late q v x v') r := by
    rintro (_ | x) v' h'
    · exact hs.trans h'
    · exact h'.of_since hs
  simp only [hnode, hnode']
  split
  next heq =>
    obtain rfl : t = t' := Option.some.inj heq
    refine (helpOrEmpty_commits hq hmiss (h.since hs) ((plain_grows h₄).getElem? hold) ?_).mono hend
    exact hle.trans ((plain_grows h₄).get q)
  next hne =>
    have hpos : (v₁.state.head q).count ≠ (v₃.state.tail q).count := by
      intro e
      rw [e, ht₃] at hold
      exact hne hold.symm
    have hlt₃ : (v₁.state.head q).count < (v₃.state.tail q).count := by omega
    have hlt : (v₁.state.head q).count < (v₄.state.tail q).count :=
      lt_of_lt_of_le hlt₃ ((plain_grows h₄).put q)
    exact (takeHead_commits hq hg (h.since hs) ((plain_grows h₄).getElem? hold) hlt).mono hend

/-- A dequeue takes effect once, or, with `late`, it finds nothing. -/
theorem msDequeue_commits (late : Bool) (hq : q < w) (hg : uses.gets call q)
    (hmiss : late = false → ∀ x, x q = [] → uses.misses call x) (h : Pending call v) :
    wp (protocol code uses w good) c (msDequeue c q)
      (fun r v' => Answered call late q v r v') v := by
  refine wp.forever (fun _ v' => Since v v') (.refl v) fun _ v₁ h₁ => ?_
  refine (msDequeueRound_commits hq hg hmiss (h.since h₁)).mono ?_
  rintro (_ | x) v₂ h₂
  · exact h₁.trans h₂
  · exact h₂.of_since h₁

end Steps

/-! ### The partial queues -/

/-- A call on a partial queue uses this queue. -/
def ownQueue : Uses Call where
  puts call q val := call = .enqueue q val
  gets call q := call = .dequeue q
  misses call x := ∃ q, call = .dequeue q ∧ x q = []

theorem partial_linear (w : ℕ) :
    Linear (S := partialService) (model ownQueue w fun _ => True) (fun call => call.queue < w)
    (fun _ _ _ => True) (initial w) (fun _ => 0) () where
  init := ⟨inv_initial w _, fun q _ => rfl⟩
  init_fresh _ _ := List.not_mem_nil
  init_loc _ := True.intro
  loc_later _ _ _ _ _ _ _ _ _ _ _ h := h
  code t op call l v hcall hq _ hf hu _ := by
    cases call with
    | enqueue q val =>
      exact wp.bind_of (msEnqueue_commits hq rfl True.intro ⟨hcall, hu, hf⟩) fun r v' h =>
        ⟨.inl h, True.intro⟩
    | dequeue q =>
      refine wp.bind_of (msDequeue_commits false hq rfl (fun _ x hx => ⟨q, rfl, hx⟩) ⟨hcall, hu,
        hf⟩) fun r v' h => ?_
      exact ⟨.inl (h.answer.resolve_right fun h => absurd h.1 Bool.false_ne_true).1, True.intro⟩

/-- For any number of queues and threads and any order of their steps: the calls on each queue are
explained by a queue, which holds what the nodes behind its head hold. -/
theorem msQueue_linearizable {w : ℕ} {p : Pool partialService}
    (hr : Reach (fun (call : Call) _ => call.queue < w) (fun _ _ => True) (initial w) () p) :
    ∃ log x,
      Linearizes (queues ownQueue w) p.world log ∧ (queues ownQueue w).Run log x ∧
        ∀ q < w, content p.world.shared q = x q := by
  obtain ⟨log, x, g, hlog, hx, -, hc⟩ := (partial_linear w).linearizes hr
  exact ⟨log, x, hlog, hx, hc⟩

/-- A dequeue finds nothing while an enqueue has not linked its node, a second one takes the value.
-/
theorem msQueue_linearizable_two : ∃ p : Pool partialService,
    (p.world.returned 1 = some ((0 : ℤ), 2) ∧ p.world.returned 2 = some ((7 : ℤ), 3)) ∧ ∃ log x,
      Linearizes (queues ownQueue 1) p.world log ∧ (queues ownQueue 1).Run log x ∧
        ∀ q < 1, content p.world.shared q = x q := by
  have h : (((Pool.init partialService (initial 1) ()).exec (List.flatten [
      [.invoke 0 (Call.enqueue 0 7)], List.replicate 6 (.step 0 0), [.invoke 1 (Call.dequeue 0)],
      List.replicate 9 (.step 1 0), List.replicate 3 (.step 0 0), [.invoke 1 (Call.dequeue 0)],
      List.replicate 12 (.step 1 0)])).any fun p =>
        decide (p.world.returned 1 = some ((0 : ℤ), 2) ∧ p.world.returned 2 = some ((7 : ℤ), 3))) =
          true := by
    decide +kernel
  obtain ⟨p, hp, hc⟩ := Pool.exec_of_check h
  refine ⟨p, of_decide_eq_true hc, msQueue_linearizable (Pool.exec_reach hp ?_ .init)⟩
  intro t c hm _
  have hc : c = .enqueue 0 7 ∨ c = .dequeue 0 := by
    simp only [List.flatten_cons, List.flatten_nil, List.mem_append, List.mem_singleton,
      List.mem_replicate, Move.invoke.injEq,
      reduceCtorEq, and_false, List.not_mem_nil, or_false, false_or] at hm
    rcases hm with ⟨-, rfl⟩ | ⟨-, rfl⟩ | ⟨-, rfl⟩
    · exact .inl rfl
    · exact .inr rfl
    · exact .inr rfl
  rcases hc with rfl | rfl
  · exact Nat.one_pos
  · exact Nat.one_pos

end DcboMs
