import SemanticRelaxation.StackKSegment.Specs

/-!
# The k-segment stack loses no push

For any interleaving of pushes and pops:

* `Lossless`: what becomes of the nodes of the pushes that have returned. No removed segment holds a
  committed node;
* `Placed.later`: a committed node stays where it is until one pop takes it.
-/

namespace StackKSegment

open AtomicProg

variable {size : ℕ}

/-- The node `n` with the value `val` is the only one that the call `a` has made. -/
structure NodeOf (a : ℕ) (val : ℤ) (s : Slots) (n : ℕ) : Prop where
  node : ∀ m, m < s.fresh ∧ s.pusher m = a ↔ m = n
  val : s.val n = val

/-- One pop has taken the node, and it is in no slot. -/
structure TakenOnce (s : Slots) (n : ℕ) : Prop where
  pop : ∃ d, ∀ d', (n, d') ∈ s.takes ↔ d' = d
  slot : ∀ x, s.slot x ≠ some n

/-- The node is in the slot `x` only, which is in a segment that is reached from the head, and no
pop has taken it. -/
structure Placed (size : ℕ) (s : Memory) (n : ℕ) (x : Slot) : Prop where
  slot : ∀ y, s.slots.slot y = some n ↔ y = x
  idx : x.idx < size
  linked : Linked s.segs x.seg
  untaken : ¬ Taken s.slots n

/-- The node of a push that has returned is in one slot, or one pop has taken it. A pop that has
returned has taken one node and returns its value, or none, and returns 0. A committed node that is
in a slot can be reached from the head. -/
structure Lossless (size : ℕ) (u : World (stackService size)) : Prop where
  kept : ∀ a val r k, u.calls[a]? = some (.push val) → u.returned a = some (r, k) →
    r = 1 ∧ ∃ n, NodeOf a val u.shared.slots n ∧
      (TakenOnce u.shared.slots n ∨ ∃ x, Placed size u.shared n x)
  source : ∀ d r k, u.calls[d]? = some .pop → u.returned d = some (r, k) →
    r = 0 ∧ (∀ n, (n, d) ∉ u.shared.slots.takes) ∨
      ∃ n a, (∀ m, (m, d) ∈ u.shared.slots.takes ↔ m = n) ∧ NodeOf a r u.shared.slots n ∧
        u.calls[a]? = some (.push r)
  segments : ∀ x n, u.shared.slots.slot x = some n → u.shared.slots.committed n = true →
    Linked u.shared.segs x.seg

/-! ### The obligations -/

/-- What remains true of an answer. -/
def Answer (op : ℕ) (call : Call) (r : ℤ) (s : Memory) : Prop :=
  match call with
  | .push _ => r = 1 ∧ ∃ n, Pushed op n s
  | .pop => Popped op r s

theorem Answer.kept {op : ℕ} {call : Call} {r : ℤ} {s s' : Memory} (hk : Kept (.op op) s s')
    (h : Answer op call r s) : Answer op call r s' := by
  cases call with
  | push val =>
    obtain ⟨hr, n, hn⟩ := h
    exact ⟨hr, n, hn.kept hk⟩
  | pop => exact Popped.kept h hk

/-- The answers of the stack. -/
def results (size : ℕ) : Results (stackService size) (regime size) where
  holds op call r _ x := Answer op call r x.1
  later _ _ _ _ _ _ _ _ _ _ hk h := h.kept hk

theorem stack_obligations (hsize : 0 < size) : Obligations (results size) (fun _ => True)
    (fun _ _ _ => True) (fun c call x v => Answer c.op call x.2 v.state) initial () () where
  init := ⟨⟨.init, .init⟩, nofun, nofun, fun _ _ hd => absurd hd List.not_mem_nil⟩
  init_fresh _ := ⟨nofun, fun _ => List.not_mem_nil, fun _ => List.not_mem_nil⟩
  init_loc _ := True.intro
  loc_later _ _ _ _ _ _ _ _ _ h := h
  post_stable _ _ _ _ _ hle h := h.kept hle.2.op
  code t op call l v _ hcall _ _ hf := by
    cases call with
    | push val => exact wp.bind_of (mstackRelaxedInsert_spec hsize hf hcall) fun _ _ h => h
    | pop => exact wp.bind_of (mstackRelaxedDelete_spec hsize hf hcall) fun _ _ h => h
  finish _ _ _ _ _ h := ⟨fun _ _ => h, True.intro⟩

/-! ### The theorem -/

/-- What is known of a reachable world. -/
structure Known (size : ℕ) (u : World (stackService size)) : Prop where
  inv : Inv size u.shared
  made : Made u.calls u.shared
  answer : ∀ o r k, u.returned o = some (r, k) →
    ∃ call, u.calls[o]? = some call ∧ Answer o call r u.shared

theorem known (hsize : 0 < size) {p : Pool (stackService size)} (hr : Reachable initial () p) :
    Known size p.world := by
  obtain ⟨g, hi, hres, -⟩ := (stack_obligations hsize).implements.inv hr
  exact ⟨hi.1, hi.2, hres⟩

/-- What the steps keep for nobody in particular. -/
theorem SlotKept.thread {o : Owner} {s s' : Slots} (h : SlotKept o s s') (t : ℕ) :
    SlotKept (.thread t) s s' :=
  ⟨h.fresh, h.val, h.pusher, h.takes, h.committed, h.stays, nofun, nofun, nofun⟩

theorem slots_later (hsize : 0 < size) {p p' : Pool (stackService size)}
    (hr : Reachable initial () p) (hl : p.Later p') :
    SlotKept (.thread 0) p.world.shared.slots p'.world.shared.slots :=
  (stack_obligations hsize).implements.later_frame
    (D := fun w w' => SlotKept (.thread 0) w.shared.slots w'.shared.slots)
    (fun _ _ => True.intro) (fun _ _ => True.intro) (fun _ => .refl _ _)
    (fun _ _ _ => SlotKept.trans)
    (fun _ _ _ _ _ h => (Kept.slots h).thread 0) hr hl

namespace Known

variable {u : World (stackService size)} (h : Known size u)
include h

theorem nodeOf {n : ℕ} (hn : n < u.shared.slots.fresh) :
    NodeOf (u.shared.slots.pusher n) (u.shared.slots.val n) u.shared.slots n := by
  refine ⟨fun m => ⟨fun hm => ?_, ?_⟩, rfl⟩
  · exact h.made.inj m hm.1 n hn hm.2
  · rintro rfl
    exact ⟨hn, rfl⟩

theorem takenOnce {n : ℕ} (hn : Taken u.shared.slots n) : TakenOnce u.shared.slots n := by
  obtain ⟨d, hd⟩ := hn
  refine ⟨⟨d, fun d' => ⟨fun hd' => ?_, ?_⟩⟩, (h.inv.slots.taken n ⟨d, hd⟩).2⟩
  · exact (Prod.mk.inj (List.inj_on_of_nodup_map h.inv.slots.nodes hd' hd rfl)).2
  · rintro rfl
    exact hd

/-- A committed node that is in a slot can be reached from the head. -/
theorem placed {n : ℕ} {x : Slot} (hc : u.shared.slots.committed n = true)
    (hx : u.shared.slots.slot x = some n) : Placed size u.shared n x := by
  have hfree : ¬ Taken u.shared.slots n := fun ht => (h.inv.slots.taken n ht).2 x hx
  obtain ⟨-, hin⟩ := h.inv.slots.committed n hc
  obtain ⟨y, hy, hl⟩ := hin.resolve_right hfree
  obtain rfl := h.inv.slots.inj y x n hy hx
  refine ⟨fun z => ⟨fun hz => h.inv.slots.inj z y n hz hy, ?_⟩, (h.inv.slots.placed y n hy).2.1, hl,
    hfree⟩
  rintro rfl
  exact hy

/-- The node of a push that is over. -/
theorem pushed {a n : ℕ} (hp : Pushed a n u.shared) :
    TakenOnce u.shared.slots n ∨ ∃ x, Placed size u.shared n x := by
  rcases hp.done with hc | ht
  · rcases (h.inv.slots.committed n hc).2 with ⟨x, hx, -⟩ | ht
    · exact .inr ⟨x, h.placed hc hx⟩
    · exact .inl (h.takenOnce ht)
  · exact .inl (h.takenOnce ht)

theorem answer_of {o : ℕ} {r : ℤ} {k : ℕ} {call : Call} (hc : u.calls[o]? = some call)
    (hr : u.returned o = some (r, k)) : Answer o call r u.shared := by
  obtain ⟨call', hc', hans⟩ := h.answer o r k hr
  obtain rfl : call = call' := Option.some.inj (hc.symm.trans hc')
  exact hans

theorem lossless : Lossless size u where
  kept a val r k hc hr := by
    obtain ⟨hone, n, hp⟩ := h.answer_of hc hr
    have hnode := h.nodeOf hp.lt_fresh
    rw [hp.pusher] at hnode
    have hcall := h.made.nodes n hp.lt_fresh
    rw [hp.pusher] at hcall
    obtain rfl : val = u.shared.slots.val n := by simpa using hc.symm.trans hcall
    exact ⟨hone, n, hnode, h.pushed hp⟩
  source d r k hc hr := by
    have hans : Popped d r u.shared := h.answer_of hc hr
    rcases hans.taken with hnone | ⟨n, hn, ht, rfl⟩
    · exact .inl hnone
    · refine .inr ⟨n, _, fun m => ⟨fun hm => ?_, ?_⟩, h.nodeOf hn, h.made.nodes n hn⟩
      · exact (Prod.mk.inj (List.inj_on_of_nodup_map h.inv.slots.calls hm ht rfl)).1
      · rintro rfl
        exact ht
  segments x n hx hc := (h.placed hc hx).linked

/-- The node of a push that has returned stays in its slot until one pop takes it. -/
theorem stays {u' : World (stackService size)} (h' : Known size u')
    (hk : SlotKept (.thread 0) u.shared.slots u'.shared.slots) {a n k : ℕ} {r val : ℤ} {x : Slot}
    (hc : u.calls[a]? = some (.push val)) (hr : u.returned a = some (r, k))
    (hn : NodeOf a val u.shared.slots n) (hx : u.shared.slots.slot x = some n) :
    Placed size u'.shared n x ∨ TakenOnce u'.shared.slots n := by
  obtain ⟨-, m, hp⟩ := h.answer_of hc hr
  obtain rfl : m = n := (hn.node m).1 ⟨hp.lt_fresh, hp.pusher⟩
  have hcommitted := hp.done.resolve_right fun ht => (h.inv.slots.taken m ht).2 x hx
  refine (hk.stays m hcommitted x hx).imp (fun hx' => ?_) fun ht => h'.takenOnce ht
  exact h'.placed (hk.committed m hcommitted) hx'

end Known

/-- For any run: the node of a push that has returned can be reached from the head, where it stays
until one pop takes it. -/
theorem kSegmentStack_lossless {size : ℕ} (hsize : 0 < size) {p p' : Pool (stackService size)}
    (hr : Reachable initial () p) (hl : p.Later p') :
    Lossless size p.world ∧ ∀ a n k val r x, p.world.calls[a]? = some (.push val) →
      p.world.returned a = some (r, k) → NodeOf a val p.world.shared.slots n →
      p.world.shared.slots.slot x = some n →
        Placed size p'.world.shared n x ∨ TakenOnce p'.world.shared.slots n := by
  have h := known hsize hr
  refine ⟨h.lossless, fun a n k val r x hc hret hn hx => ?_⟩
  exact h.stays (known hsize (hr.later hl)) (slots_later hsize hr hl) hc hret hn hx

/-- A push is interrupted by a second one, and a third one appends a segment. Then two pops run into
each other: the second one takes the item of the new segment, and the first one comes too late,
removes the segment and takes an item of the old one. -/
theorem kSegmentStack_lossless_five : ∃ p p' : Pool (stackService 2),
    (Lossless 2 p.world ∧ p.world.shared.slots.slot ⟨0, 0⟩ = some 0 ∧
      p.world.shared.slots.slot ⟨0, 1⟩ = some 1 ∧ p.world.shared.slots.slot ⟨1, 0⟩ = some 2) ∧
      (Placed 2 p'.world.shared 0 ⟨0, 0⟩ ∨ TakenOnce p'.world.shared.slots 0) ∧
        (Placed 2 p'.world.shared 1 ⟨0, 1⟩ ∨ TakenOnce p'.world.shared.slots 1) ∧
          p'.world.shared.slots.takes = [(2, 4), (0, 3)] := by
  have h : (((Pool.init (stackService 2) initial ()).exec
    (List.flatten [Move.start 0 (Call.push 7) 4 0,
      Move.start 1 (Call.push 8) 12 1, List.replicate 8 (Move.step 0 0),
      Move.start 2 (Call.push 9) 23 0])).any fun p =>
        (p.exec (List.flatten [Move.start 0 Call.pop 7 0, Move.start 1 Call.pop 10 0,
          List.replicate 31 (Move.step 0 0)])).any fun p' =>
            decide ((p.world.calls = [.push 7, .push 8, .push 9] ∧
              p.world.returned 0 = some (1, 2) ∧ p.world.returned 1 = some (1, 2)) ∧
              (p.world.shared.slots.fresh = 3 ∧
                (∀ m < 3, p.world.shared.slots.pusher m = m) ∧
                p.world.shared.slots.val 0 = 7 ∧ p.world.shared.slots.val 1 = 8) ∧
              (p.world.shared.slots.slot ⟨0, 0⟩ = some 0 ∧
                p.world.shared.slots.slot ⟨0, 1⟩ = some 1 ∧
                p.world.shared.slots.slot ⟨1, 0⟩ = some 2) ∧
              p'.world.shared.slots.takes = [(2, 4), (0, 3)])) = true := by
    decide +kernel
  obtain ⟨p, hp, h⟩ := Pool.exec_of_check h
  obtain ⟨p', hp', h⟩ := Pool.exec_of_check h
  obtain ⟨⟨hcalls, hret₀, hret₁⟩, ⟨hfresh, hpusher, hval₀, hval₁⟩, ⟨hs₀, hs₁, hs₂⟩, htakes⟩ :=
    of_decide_eq_true h
  obtain ⟨h₁, h₂⟩ := kSegmentStack_lossless Nat.two_pos
    (Pool.exec_reach hp (fun _ _ _ _ => True.intro) .init) (Pool.exec_later hp')
  have hnode : ∀ n < 3, NodeOf n (p.world.shared.slots.val n) p.world.shared.slots n := by
    refine fun n hn => ⟨fun m => ⟨fun hm => ?_, ?_⟩, rfl⟩
    · exact (hpusher m (hfresh ▸ hm.1)).symm.trans hm.2
    · rintro rfl
      exact ⟨hfresh ▸ hn, hpusher m hn⟩
  refine ⟨p, p', ⟨h₁, hs₀, hs₁, hs₂⟩, h₂ 0 0 2 7 1 ⟨0, 0⟩ ?_ hret₀ ?_ hs₀,
    h₂ 1 1 2 8 1 ⟨0, 1⟩ ?_ hret₁ ?_ hs₁, htakes⟩
  · rw [hcalls]
    rfl
  · exact hval₀ ▸ hnode 0 (by decide)
  · rw [hcalls]
    rfl
  · exact hval₁ ▸ hnode 1 (by decide)

end StackKSegment
