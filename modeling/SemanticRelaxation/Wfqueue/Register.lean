import SemanticRelaxation.Prog.Rely
import SemanticRelaxation.Support.Circular

/-!
# Registration of handles (`src/dcbo-wfqueue/partial-wfqueue.c`)

`wfqueue_register` links a handle into the circle of all handles of a queue. The first handle that
is registered becomes `_tail_handle` for good, and the others are inserted behind it.

* `register`: the code;
* `Ring`: the invariant. The ghost state is the list of the handles in the circle;
* `register_ring`: the circle after registrations by any threads.
-/

namespace Wfqueue

open AtomicProg Pointers

/-- `handle_t`, with pointers to nodes and handles as numbers. -/
structure Handle where
  next : Option ℕ
  hzdNodeId : ℕ
  enqueueNode : ℕ
  enqNodeId : ℕ
  dequeueNode : ℕ
  deqNodeId : ℕ
  enqRequestId : ℤ
  enqRequestVal : ℕ
  deqRequestId : ℤ
  deqRequestIdx : ℤ
  enqHelp : Option ℕ
  enqIndex : ℤ
  deqHelp : Option ℕ
  spare : ℕ
  queue : ℕ

/-- The shared memory: of the queue its head node `Hp` and `_tail_handle`, the handles, and the
nodes with their `id`. An access through `NULL` sets `failed`. -/
structure State where
  headNode : ℕ
  tailHandle : Option ℕ
  handle : ℕ → Handle
  nodeId : ℕ → ℕ
  freshNode : ℕ
  failed : Bool

/-- `BOT`. -/
def bot : ℕ := 0

/-- The change of a handle. -/
def State.setHandle (s : State) (th : ℕ) (h : Handle) : State :=
  { s with handle := Function.update s.handle th h }

theorem State.setHandle_self (s : State) (th : ℕ) (h : Handle) : (s.setHandle th h).handle th = h :=
  Function.update_self ..

theorem State.setHandle_of_ne (s : State) {th x : ℕ} (h : Handle) (hx : x ≠ th) :
    (s.setHandle th h).handle x = s.handle x := Function.update_of_ne hx _ _

/-- A store to a field of the handle `th`. -/
def store (th : ℕ) (f : Handle → Handle) : Prog State Unit :=
  Prog.update fun s => ((), s.setHandle th (f (s.handle th)))

/-- `new_node`. -/
def newNode : Prog State ℕ :=
  Prog.update fun s => (s.freshNode, { s with
    nodeId := Function.update s.nodeId s.freshNode 0
    freshNode := s.freshNode + 1 })

/-- The end of `wfqueue_register`. -/
def setHelped (th : ℕ) : Prog State (Unit × ℕ) := do
  let next ← Prog.read fun s => (s.handle th).next
  store th fun h => { h with enqHelp := next }
  let next ← Prog.read fun s => (s.handle th).next
  store th fun h => { h with deqHelp := next }
  return ((), th)

/-- The insertion behind the handle `tail`. -/
def insertAfter (th tail : ℕ) : Prog State (Unit × ℕ) := do
  let next ← Prog.read fun s => (s.handle tail).next
  let _ ← Prog.forever (fun next => do
    store th fun h => { h with next := next }
    let (done, next) ← Prog.cae (fun s => (s.handle tail).next)
      (fun next s => s.setHandle tail { s.handle tail with next := next }) next (some th)
    if done then return .inr () else return .inl next) next
  setHelped th

/-- The link of an initialised handle. -/
def link (th : ℕ) : Prog State (Unit × ℕ) := do
  let tail ← Prog.read State.tailHandle
  match tail with
  | none =>
    store th fun h => { h with next := some th }
    let (done, tail) ← Prog.cae State.tailHandle (fun tail s => { s with tailHandle := tail }) none
      (some th)
    if done then setHelped th
    else
      match tail with
      | none => do
        Prog.assert (fun s => { s with failed := true }) false
        return ((), th)
      | some tail => insertAfter th tail
  | some tail => insertAfter th tail

/-- `wfqueue_register(q, th, id)`. The code does not use `id`. -/
def register (q th : ℕ) : Prog State (Unit × ℕ) := do
  store th fun h => { h with queue := q }
  store th fun h => { h with next := none }
  store th fun h => { h with hzdNodeId := 2 ^ 64 - 1 }
  let node ← Prog.read State.headNode
  store th fun h => { h with enqueueNode := node }
  let id ← Prog.read fun s => s.nodeId (s.handle th).enqueueNode
  store th fun h => { h with enqNodeId := id }
  let node ← Prog.read State.headNode
  store th fun h => { h with dequeueNode := node }
  let id ← Prog.read fun s => s.nodeId (s.handle th).dequeueNode
  store th fun h => { h with deqNodeId := id }
  store th fun h => { h with enqRequestId := 0 }
  store th fun h => { h with enqRequestVal := bot }
  store th fun h => { h with deqRequestId := 0 }
  store th fun h => { h with deqRequestIdx := -1 }
  store th fun h => { h with enqIndex := 0 }
  let node ← newNode
  store th fun h => { h with spare := node }
  link th

/-- The registrations at the queue `q`; a call is given by its handle. -/
abbrev service (q : ℕ) : Service State Unit := ⟨ℕ, ℕ, fun _ th _ => register q th⟩

/-! ### The protocol -/

variable {q th a : ℕ} {c : Caller}

/-- The handles in the circle, which belong to calls, with those of the calls that have returned
among them. -/
structure Ring (w : World (service q)) (ring : List ℕ) : Prop where
  calls_nodup : w.calls.Nodup
  nodup : ring.Nodup
  subset : ring ⊆ w.calls
  returned : ∀ o x, w.returned o = some x → ∃ th ∈ ring, w.calls[o]? = some th
  empty : w.shared.tailHandle = none → ring = []
  circle : ∀ a, w.shared.tailHandle = some a →
    ∃ l, ring = a :: l ∧ Circular (fun th => (w.shared.handle th).next) (a :: l)

/-- What others keep. The handle of a call is its own until it is in the circle. -/
structure Kept (o : Owner) (w w' : World (service q) × List ℕ) : Prop where
  calls : w.1.calls <+: w'.1.calls
  tail : ∀ a, w.1.shared.tailHandle = some a → w'.1.shared.tailHandle = some a
  ring : w.2 ⊆ w'.2
  own : ∀ n th, o = .op n → w.1.calls[n]? = some th → th ∉ w.2 →
    th ∉ w'.2 ∧ w'.1.shared.handle th = w.1.shared.handle th

theorem Kept.trans {o : Owner} {w₁ w₂ w₃ : World (service q) × List ℕ} (h₁ : Kept o w₁ w₂)
    (h₂ : Kept o w₂ w₃) :
    Kept o w₁ w₃ where
  calls := h₁.calls.trans h₂.calls
  tail a ha := h₂.tail a (h₁.tail a ha)
  ring := List.Subset.trans h₁.ring h₂.ring
  own n th ho hc hth := by
    obtain ⟨hth₂, hk₁⟩ := h₁.own n th ho hc hth
    obtain ⟨hth₃, hk₂⟩ := h₂.own n th ho (h₁.calls.getElem?_of_some hc) hth₂
    exact ⟨hth₃, hk₂.trans hk₁⟩

/-- A call is made, or returns. -/
theorem Kept.of_calls (o : Owner) {w w' : World (service q)} {ring : List ℕ}
    (hc : w.calls <+: w'.calls) (hs : w'.shared = w.shared) : Kept o (w, ring) (w', ring) where
  calls := hc
  tail _ ha := (congrArg State.tailHandle hs).trans ha
  ring := List.Subset.refl _
  own _ th _ _ hth := ⟨hth, congrArg (State.handle · th) hs⟩

theorem Kept.refl (o : Owner) (w : World (service q) × List ℕ) : Kept o w w :=
  .of_calls o (List.prefix_refl _) rfl

/-- The protocol of the registrations, with the circle as ghost state. -/
def protocol (q : ℕ) : Protocol (service q) (List ℕ) where
  inv w := Ring w.1 w.2
  frame := Kept
  assume _ _ := True
  refl := Kept.refl
  trans _ _ _ _ := Kept.trans

section Steps

variable {v : View (protocol q) c}

/-- A step of the call with the handle `th`. -/
theorem allows (hc : v.now.1.calls[c.op]? = some th) {s : State} {ring : List ℕ}
    (hi : Ring (v.now.1.set s) ring) (htail : ∀ a, v.state.tailHandle = some a →
      s.tailHandle = some a) (hring : v.now.2 ⊆ ring)
    (hnew : ∀ y ∈ ring, y ∈ v.now.2 ∨ y = th)
    (hkeep : ∀ y, y ≠ th → y ∉ v.now.2 → s.handle y = v.state.handle y) :
    (protocol q).Allows c v.now (v.after s ring) := by
  refine ⟨hi, fun o ho => ⟨List.prefix_refl _, htail, hring, fun n y hn hy hfree => ?_⟩⟩
  have hne : y ≠ th := by
    rintro rfl
    -- the calls have different handles
    have hsame := (List.getElem?_inj (List.getElem?_eq_some_iff.1 hy).1 v.inv_now.calls_nodup).1
      (hy.trans hc.symm)
    exact op_ne ho hn hsame
  exact ⟨fun hm => (hnew y hm).elim hfree hne, hkeep y hne hfree⟩

/-- The handle of the call is not in the circle. -/
structure Mine (th : ℕ) (v : View (protocol q) c) : Prop where
  call : v.now.1.calls[c.op]? = some th
  free : th ∉ v.now.2

/-- The handle of the call is in the circle. -/
structure Linked (th : ℕ) (v : View (protocol q) c) : Prop where
  call : v.now.1.calls[c.op]? = some th
  mem : th ∈ v.now.2

variable {v' : View (protocol q) c}

theorem Mine.later (hm : Mine th v) (hv : v ≤ v') : Mine th v' :=
  ⟨hv.2.op.calls.getElem?_of_some hm.call, (hv.2.op.own _ th rfl hm.call hm.free).1⟩

theorem Mine.handle_later (hm : Mine th v) (hv : v ≤ v') : v'.state.handle th = v.state.handle th :=
  (hv.2.op.own _ th rfl hm.call hm.free).2

theorem Linked.later (hl : Linked th v) (hv : v ≤ v') : Linked th v' :=
  ⟨hv.2.op.calls.getElem?_of_some hl.call, hv.2.op.ring hl.mem⟩

/-- A store to the own handle. -/
theorem Ring.store {w : World (service q)} {ring : List ℕ} (hi : Ring w ring) {h : Handle}
    (hnext : th ∈ ring → h.next = (w.shared.handle th).next) :
    Ring (w.set (w.shared.setHandle th h)) ring where
  calls_nodup := hi.calls_nodup
  nodup := hi.nodup
  subset := hi.subset
  returned := hi.returned
  empty := hi.empty
  circle a ha := by
    obtain ⟨l, rfl, hc⟩ := hi.circle a ha
    refine ⟨l, rfl, hc.congr fun x hx => ?_⟩
    by_cases he : x = th
    · subst he
      exact (congrArg Handle.next (State.setHandle_self ..)).trans (hnext hx)
    · exact congrArg Handle.next (State.setHandle_of_ne _ _ he)

theorem allows_store (hc : v.now.1.calls[c.op]? = some th) {h : Handle}
    (hnext : th ∈ v.now.2 → h.next = (v.state.handle th).next) :
    (protocol q).Allows c v.now (v.after (v.state.setHandle th h) v.now.2) :=
  allows hc (v.inv_now.store hnext) (fun _ ha => ha) (List.Subset.refl _) (fun _ hy => .inl hy)
    fun _ hne _ => State.setHandle_of_ne _ _ hne

variable {α : Type} {Q : α → View (protocol q) c → Prop}

theorem Mine.store (hm : Mine th v) {f : Handle → Handle} {k : Unit → Prog State α}
    (hk : ∀ v', Mine th v' → (∃ h, v'.state.handle th = f h) →
      (∀ a, v.state.tailHandle = some a → v'.state.tailHandle = some a) → wp (protocol q) c
      (k ()) Q v') :
    wp (protocol q) c (store th f >>= k) Q v := by
  refine wp.update fun v₁ hv _ => ?_
  have hm₁ := hm.later hv
  have hall := allows_store hm₁.call (h := f (v₁.state.handle th)) fun hin => absurd hin hm₁.free
  exact ⟨_, hall, hk _ ⟨hm₁.call, hm₁.free⟩ ⟨_, State.setHandle_self ..⟩
    fun a ha => hv.2.op.tail a ha⟩

theorem Mine.read (hm : Mine th v) {β : Type} {f : State → β} {k : β → Prog State α}
    (hk : ∀ b v', Mine th v' → wp (protocol q) c (k b) Q v') :
    wp (protocol q) c (Prog.read f >>= k) Q v :=
  wp.read fun v₁ hv => hk _ v₁ (hm.later hv)

theorem Mine.newNode (hm : Mine th v) {k : ℕ → Prog State α}
    (hk : ∀ node v', Mine th v' → wp (protocol q) c (k node) Q v') :
    wp (protocol q) c (newNode >>= k) Q v := by
  refine wp.update fun v₁ hv _ => ?_
  have hm₁ := hm.later hv
  have hi := v₁.inv_now
  exact ⟨v₁.now.2, allows hm₁.call ⟨hi.calls_nodup, hi.nodup, hi.subset, hi.returned, hi.empty,
    hi.circle⟩
    (fun _ ha => ha) (List.Subset.refl _) (fun _ hy => .inl hy) fun _ _ _ => rfl,
    hk _ _ ⟨hm₁.call, hm₁.free⟩⟩

theorem Linked.store (hl : Linked th v) {f : Handle → Handle} (hf : ∀ h, (f h).next = h.next)
    {k : Unit → Prog State α} (hk : ∀ v', Linked th v' → wp (protocol q) c (k ()) Q v') :
    wp (protocol q) c (store th f >>= k) Q v := by
  refine wp.update fun v₁ hv _ => ?_
  have hl₁ := hl.later hv
  exact ⟨_, allows_store hl₁.call fun _ => hf _, hk _ ⟨hl₁.call, hl₁.mem⟩⟩

theorem Linked.read (hl : Linked th v) {β : Type} {f : State → β} {k : β → Prog State α}
    (hk : ∀ b v', Linked th v' → wp (protocol q) c (k b) Q v') :
    wp (protocol q) c (Prog.read f >>= k) Q v :=
  wp.read fun v₁ hv => hk _ v₁ (hl.later hv)

end Steps

section Code

variable {v : View (protocol q) c}

/-- What a call knows that is about to return. -/
def Registered (c : Caller) (th : ℕ) (_ : Unit × ℕ) (v : View (protocol q) c) : Prop := Linked th v

theorem setHelped_spec (hl : Linked th v) :
    wp (protocol q) c (setHelped th) (Registered c th) v := by
  refine hl.read fun next v hl => ?_
  refine hl.store (fun _ => by rfl) fun v hl => ?_
  refine hl.read fun next v hl => ?_
  exact hl.store (fun _ => by rfl) fun v hl => hl

/-- The first handle. -/
theorem Ring.first {w : World (service q)} {ring : List ℕ} (hi : Ring w ring) (hth : th ∈ w.calls)
    (htail : w.shared.tailHandle = none) (hnext : (w.shared.handle th).next = some th) :
    Ring (w.set { w.shared with tailHandle := some th }) [th] where
  calls_nodup := hi.calls_nodup
  nodup := List.nodup_singleton th
  subset := List.cons_subset.2 ⟨hth, List.nil_subset _⟩
  returned o x ho := by
    obtain ⟨y, hm, -⟩ := hi.returned o x ho
    rw [hi.empty htail] at hm
    exact absurd hm List.not_mem_nil
  empty := nofun
  circle a ha := by
    obtain rfl := Option.some.inj ha
    exact ⟨[], rfl, circular_singleton.2 hnext⟩

/-- A handle is inserted behind the first one. -/
theorem Ring.insert {w : World (service q)} {l : List ℕ} (hi : Ring w (a :: l)) (hth : th ∈ w.calls)
    (hfree : th ∉ a :: l) (htail : w.shared.tailHandle = some a)
    (hnext : (w.shared.handle th).next = (w.shared.handle a).next) :
    Ring (w.set (w.shared.setHandle a { w.shared.handle a with next := some th }))
      (a :: th :: l) where
  calls_nodup := hi.calls_nodup
  nodup := (List.Perm.swap ..).nodup_iff.1 (List.nodup_cons.2 ⟨hfree, hi.nodup⟩)
  subset := by
    intro y hy
    rcases List.mem_cons.1 hy with rfl | hy
    · exact hi.subset (List.mem_cons_self ..)
    · rcases List.mem_cons.1 hy with rfl | hy
      · exact hth
      · exact hi.subset (List.mem_cons_of_mem _ hy)
  returned o x ho := by
    obtain ⟨y, hm, hy⟩ := hi.returned o x ho
    refine ⟨y, ?_, hy⟩
    rcases List.mem_cons.1 hm with rfl | hm
    · exact List.mem_cons_self ..
    · exact List.mem_cons_of_mem _ (List.mem_cons_of_mem _ hm)
  empty hnone := by
    have hnone : w.shared.tailHandle = none := hnone
    rw [htail] at hnone
    cases hnone
  circle b hb := by
    obtain ⟨l', hl', hc⟩ := hi.circle b hb
    obtain ⟨rfl, rfl⟩ := List.cons.inj hl'
    have hother : ∀ y, y ≠ a →
      ((w.shared.setHandle a { w.shared.handle a with next := some th }).handle y).next =
        (w.shared.handle y).next := fun y hy => congrArg Handle.next (State.setHandle_of_ne _ _ hy)
    refine ⟨th :: l, rfl, hc.insert ((congrArg Handle.next (State.setHandle_self ..)).trans rfl) ?_
      fun y hy => hother y ?_⟩
    · exact (hother th fun he => hfree (he ▸ List.mem_cons_self ..)).trans hnext
    · rintro rfl
      exact (List.nodup_cons.1 hi.nodup).1 hy

theorem insertAfter_spec (hm : Mine th v) (htail : v.state.tailHandle = some a) :
    wp (protocol q) c (insertAfter th a) (Registered c th) v := by
  refine wp.read fun v₁ hv₁ => ?_
  refine wp.bind_of (A := fun _ => Linked th) ?_ fun _ v hl => setHelped_spec hl
  refine wp.forever (fun _ v => Mine th v ∧ v.state.tailHandle = some a) ⟨hm.later hv₁,
    hv₁.2.op.tail a htail⟩ ?_
  rintro next v ⟨hm, htail⟩
  refine hm.store fun v hm hown htail' => ?_
  have htail := htail' a htail
  refine wp.cae (fun v₁ hv₁ hfound _ => ?_) fun v₁ hv₁ _ => ⟨hm.later hv₁, hv₁.2.op.tail a htail⟩
  have hm₁ := hm.later hv₁
  have htail₁ := hv₁.2.op.tail a htail
  obtain ⟨l, hring, -⟩ := v₁.inv_now.circle a htail₁
  have hi : Ring v₁.now.1 (a :: l) := hring ▸ v₁.inv_now
  have hfree : th ∉ a :: l := hring ▸ hm₁.free
  have hnext : (v₁.state.handle th).next = (v₁.state.handle a).next := by
    obtain ⟨h, hh⟩ := hown
    rw [hm.handle_later hv₁, hh, hfound]
  have hnew := hi.insert (List.mem_of_getElem? hm₁.call) hfree htail₁ hnext
  refine ⟨a :: th :: l, allows hm₁.call hnew (fun _ ha => ha) ?_ (fun y hy => ?_) fun y _ hy => ?_,
    ⟨hm₁.call, List.mem_cons_of_mem _ (List.mem_cons_self ..)⟩⟩
  · rw [hring]
    exact List.cons_subset_cons _ (List.subset_cons_self ..)
  · rw [hring]
    rcases List.mem_cons.1 hy with rfl | hy
    · exact .inl (List.mem_cons_self ..)
    · exact (List.mem_cons.1 hy).elim .inr fun hy => .inl (List.mem_cons_of_mem _ hy)
  · rw [hring] at hy
    exact State.setHandle_of_ne _ _ fun he => hy (he ▸ List.mem_cons_self ..)

theorem link_spec (hm : Mine th v) : wp (protocol q) c (link th) (Registered c th) v := by
  refine wp.read fun v hv => ?_
  have hm := hm.later hv
  split
  next =>
    refine hm.store fun v hm hown _ => ?_
    refine wp.cae (fun v₁ hv₁ hfound _ => ?_) fun v₁ hv₁ hfound => ?_
    · have hm₁ := hm.later hv₁
      have hnext : (v₁.state.handle th).next = some th := by
        obtain ⟨h, hh⟩ := hown
        rw [hm.handle_later hv₁, hh]
      have hempty := v₁.inv_now.empty hfound
      have hnew := v₁.inv_now.first (List.mem_of_getElem? hm₁.call) hfound hnext
      refine ⟨[th], allows hm₁.call hnew (fun a ha => ?_) ?_
        (fun y hy => .inr (List.mem_singleton.1 hy))
        fun _ _ _ => rfl, setHelped_spec ⟨hm₁.call, List.mem_cons_self ..⟩⟩
      · rw [hfound] at ha
        cases ha
      · rw [hempty]
        exact List.nil_subset _
    · -- another handle has become the first one
      obtain ⟨a, ha⟩ := Option.ne_none_iff_exists'.1 hfound
      rw [ha]
      exact insertAfter_spec (hm.later hv₁) ha
  next a ha => exact insertAfter_spec hm ha

theorem register_spec (hm : Mine th v) : wp (protocol q) c (register q th) (Registered c th) v := by
  unfold register
  refine hm.store fun v hm _ _ => ?_
  refine hm.store fun v hm _ _ => ?_
  refine hm.store fun v hm _ _ => ?_
  refine hm.read fun node v hm => ?_
  refine hm.store fun v hm _ _ => ?_
  refine hm.read fun id v hm => ?_
  refine hm.store fun v hm _ _ => ?_
  refine hm.read fun node v hm => ?_
  refine hm.store fun v hm _ _ => ?_
  refine hm.read fun id v hm => ?_
  refine hm.store fun v hm _ _ => ?_
  refine hm.store fun v hm _ _ => ?_
  refine hm.store fun v hm _ _ => ?_
  refine hm.store fun v hm _ _ => ?_
  refine hm.store fun v hm _ _ => ?_
  refine hm.store fun v hm _ _ => ?_
  refine hm.newNode fun node v hm => ?_
  exact hm.store fun v hm _ _ => link_spec hm

end Code

/-! ### Any registrations -/

/-- A handle that has not been registered is registered. -/
theorem Ring.invoke {w : World (service q)} {ring : List ℕ} (hi : Ring w ring)
    (hth : th ∉ w.calls) :
    Ring (w.invoke th) ring where
  calls_nodup := List.nodup_append.2 ⟨hi.calls_nodup, List.nodup_singleton _, fun x hx y hy he =>
    hth (List.mem_singleton.1 hy ▸ he ▸ hx)⟩
  nodup := hi.nodup
  subset := List.Subset.trans hi.subset (List.subset_append_left ..)
  returned o x ho := by
    obtain ⟨y, hm, hy⟩ := hi.returned o x ho
    exact ⟨y, hm, (List.prefix_append ..).getElem?_of_some hy⟩
  empty := hi.empty
  circle := hi.circle

theorem Ring.finish {w : World (service q)} {ring : List ℕ} (hi : Ring w ring) {op : ℕ}
    {r : (service q).Ret} (hc : w.calls[op]? = some th) (hm : th ∈ ring) :
    Ring (w.finish op r) ring where
  calls_nodup := hi.calls_nodup
  nodup := hi.nodup
  subset := hi.subset
  returned o x ho := by
    by_cases hne : o = op
    · exact ⟨th, hm, hne ▸ hc⟩
    · rw [World.finish_returned_of_ne w _ hne] at ho
      exact hi.returned o x ho
  empty := hi.empty
  circle := hi.circle

theorem service_implements {s₀ : State} (h₀ : s₀.tailHandle = none) :
    Implements (protocol q) (fun th w => th ∉ w.calls) (fun _ _ _ => True)
      (fun c th => Registered c th) s₀ () where
  init := by
    refine ⟨[], ⟨List.nodup_nil, List.nodup_nil, List.nil_subset _, nofun, fun _ => rfl,
      fun a ha => ?_⟩,
      fun _ => True.intro⟩
    have ha : s₀.tailHandle = some a := ha
    rw [h₀] at ha
    cases ha
  loc_later _ _ _ _ _ _ _ _ := True.intro
  post_stable c th _ v v' hv hl := Linked.later hl hv
  invoke t th _ w ring hi hth _ := by
    refine ⟨ring, ⟨Ring.invoke hi hth, fun o _ => .of_calls o (List.prefix_append ..) rfl⟩,
      fun h hf => ?_⟩
    exact register_spec ⟨List.getElem?_concat_length, fun hm => hth (hi.subset hm)⟩
  finish c th _ r v hc hl :=
    ⟨v.now.2, ⟨v.inv_now.finish hc hl.mem, fun o _ => .of_calls o (List.prefix_refl _) rfl⟩,
      True.intro⟩

/-- Once all registrations of different handles have returned, the loop over the handles visits each
of them once, from whichever it starts. -/
theorem register_ring (q : ℕ) (s₀ : State) (p : Pool (service q)) (h₀ : s₀.tailHandle = none)
    (hr : Reach (fun th w => th ∉ w.calls) (fun _ _ => True) s₀ () p)
    (hdone : ∀ o < p.world.calls.length, p.world.returned o ≠ none) (th : ℕ)
    (hth : th ∈ p.world.calls) :
    ∃ visited, walk (fun th => (p.world.shared.handle th).next) th p.world.calls.length th =
      some visited ∧
      visited.Perm p.world.calls ∧ visited.Nodup := by
  obtain ⟨ring, hi⟩ := (service_implements h₀).inv hr
  have hi : Ring p.world ring := hi
  have hsub : p.world.calls ⊆ ring := by
    intro x hx
    obtain ⟨o, ho, hox⟩ := List.mem_iff_getElem.1 hx
    obtain ⟨r, hret⟩ := Option.ne_none_iff_exists'.1 (hdone o ho)
    obtain ⟨y, hm, hy⟩ := hi.returned o r hret
    rw [List.getElem?_eq_getElem ho, hox] at hy
    exact Option.some.inj hy ▸ hm
  have hperm : ring.Perm p.world.calls := (List.perm_ext_iff_of_nodup hi.nodup hi.calls_nodup).2
    fun x =>
    ⟨fun hx => hi.subset hx, fun hx => hsub hx⟩
  obtain ⟨a, ha⟩ : ∃ a, p.world.shared.tailHandle = some a := by
    refine Option.ne_none_iff_exists'.1 fun hnone => ?_
    have hm := hsub hth
    rw [hi.empty hnone] at hm
    exact absurd hm List.not_mem_nil
  obtain ⟨l, rfl, hcirc⟩ := hi.circle a ha
  obtain ⟨visited, hw, hv⟩ := hcirc.walk hi.nodup (hsub hth) hperm.length_eq.le
  exact ⟨visited, hw, hv.trans hperm, (hv.nodup_iff).2 hi.nodup⟩

/-- The queue before any registration. -/
def unregistered : State :=
  ⟨0, none, fun _ => ⟨none, 0, 0, 0, 0, 0, 0, 0, 0, 0, none, 0, none, 0, 0⟩, fun _ => 0, 1, false⟩

/-- Both threads find no first handle, and the second one has to insert its own behind that of the
first one. -/
theorem register_ring_two : ∃ p : Pool (service 0), p.world.calls = [5, 7] ∧
    ∃ visited, walk (fun th => (p.world.shared.handle th).next) 7 p.world.calls.length 7 =
      some visited ∧
      visited.Perm p.world.calls ∧ visited.Nodup := by
  have h : ((Pool.init (service 0) unregistered ()).exec (Move.invoke 0 (5 : ℕ) :: Move.invoke 1
    (7 : ℕ) ::
      List.replicate 20 (Move.step 0 0) ++ List.replicate 20 (Move.step 1 0) ++ List.replicate 6
        (Move.step 0 0) ++
      List.replicate 10 (Move.step 1 0))).any (fun p => decide (p.world.calls = [5, 7]) &&
        ((p.world.returned 0).isSome && (p.world.returned 1).isSome)) = true := by
    decide +kernel
  obtain ⟨p, hp, hc⟩ := Pool.exec_of_check h
  obtain ⟨hcalls, hret⟩ := (Bool.and_eq_true _ _).mp hc
  have hcalls := of_decide_eq_true hcalls
  obtain ⟨hfirst, hsecond⟩ := (Bool.and_eq_true _ _).mp hret
  have hnodup : p.world.calls.Nodup := by
    rw [hcalls]
    decide
  have hmem : 7 ∈ p.world.calls := by
    rw [hcalls]
    decide
  refine ⟨p, hcalls, register_ring 0 unregistered p rfl (Pool.exec_reach_nodup hp hnodup .init)
    (fun o ho => ?_) 7 hmem⟩
  rw [hcalls] at ho
  match o, ho with
  | 0, _ => exact Option.isSome_iff_ne_none.1 hfirst
  | 1, _ => exact Option.isSome_iff_ne_none.1 hsecond

end Wfqueue
