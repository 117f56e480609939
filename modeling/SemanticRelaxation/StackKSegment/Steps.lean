import SemanticRelaxation.StackKSegment.Slots
import SemanticRelaxation.Prog.Regime

/-!
# The steps of the k-segment stack

`regime size` is what the code of `stack-s_relaxed-k-segment.c` relies on and keeps.

* `Kept`: what the steps of the others keep for the owner `o`. While a pop has announced the removal
  of a segment, a slot of it that holds no committed node does not get one;
* `segs_allows` and `slots_allows` with the steps of `SegInv` and `SlotInv`: the steps keep to these
  rules.
-/

namespace StackKSegment

open AtomicProg

/-- The invariant. -/
structure Inv (size : ℕ) (s : Memory) : Prop where
  segs : SegInv s.segs
  slots : SlotInv size (Published s.segs) (Linked s.segs) s.slots

/-- What the steps of the others keep for the owner `o`. -/
structure Kept (o : Owner) (s s' : Memory) : Prop where
  segs : SegKept o s.segs s'.segs
  slots : SlotKept o s.slots s'.slots
  free : ∀ a, o = .op a → ∀ x : Slot, a ∈ s.segs.marks x.seg → Free s.slots x → Free s'.slots x

theorem Kept.refl (o : Owner) (s : Memory) : Kept o s s :=
  ⟨.refl o s.segs, .refl o s.slots, fun _ _ _ _ h => h⟩

theorem Kept.trans {o : Owner} {s s' s'' : Memory} (h : Kept o s s') (h' : Kept o s' s'') :
    Kept o s s'' where
  segs := h.segs.trans h'.segs
  slots := h.slots.trans h'.slots
  free a ho x hm hx := h'.free a ho x ((h.segs.marks a ho x.seg).2 hm) (h.free a ho x hm hx)

/-- Each push has made one node at most, with its value, and the removals are announced by pops. -/
structure Made (calls : List Call) (s : Memory) : Prop where
  nodes : ∀ n < s.slots.fresh, calls[s.slots.pusher n]? = some (.push (s.slots.val n))
  inj : ∀ n < s.slots.fresh, ∀ m < s.slots.fresh, s.slots.pusher n = s.slots.pusher m → n = m
  marks : ∀ n, ∀ d ∈ s.segs.marks n, calls[d]? = some .pop

theorem Made.call {calls : List Call} {s : Memory} (h : Made calls s) (call : Call) :
    Made (calls ++ [call]) s := by
  have hmono : ∀ {o : ℕ} {c : Call}, calls[o]? = some c → (calls ++ [call])[o]? = some c := by
    intro o c hc
    rwa [List.getElem?_append_left (List.getElem?_eq_some_iff.1 hc).1]
  exact ⟨fun n hn => hmono (h.nodes n hn), h.inj, fun n d hd => hmono (h.marks n d hd)⟩

/-- A call that has made no node, taken none, and announced no removal. -/
structure Blank (op : ℕ) (s : Memory) : Prop where
  nodes : ∀ n < s.slots.fresh, s.slots.pusher n ≠ op
  takes : ∀ n, (n, op) ∉ s.slots.takes
  marks : ∀ n, op ∉ s.segs.marks n

/-- The rules that all threads keep to. -/
def regime (size : ℕ) : Regime Call Memory Unit where
  inv calls x := Inv size x.1 ∧ Made calls x.1
  frame o x x' := Kept o x.1 x'.1
  fresh n x := Blank n x.1
  assume _ _ := True
  refl o x := .refl o x.1
  trans _ _ _ _ := Kept.trans
  inv_call _ call _ h := ⟨h.1, h.2.call call⟩
  fresh_later n _ _ h hn := ⟨fun m hm hp => hn.nodes m (h.slots.ownNodes n rfl m hm hp)
      ((h.slots.pusher m (h.slots.ownNodes n rfl m hm hp)).symm.trans hp),
    fun m hm => hn.takes m (h.slots.ownTakes n rfl m hm),
    fun m hm => hn.marks m ((h.segs.marks n rfl m).1 hm)⟩

variable {size : ℕ} {E : Results (stackService size) (regime size)} {c : Caller}
  {v v₁ v₂ : View E.protocol c} {n : ℕ} {x : Slot}

theorem inv_of (v : View E.protocol c) : Inv size v.state := v.inv_pair.1

theorem made_of (v : View E.protocol c) : Made v.now.1.calls v.state := v.inv_pair.2

theorem kept_of_le (h : v ≤ v₁) : Kept (.op c.op) v.state v₁.state := h.2.op

theorem not_op {o : Owner} (ho : ¬ c.Is o) : o ≠ .op c.op := fun e => ho (e ▸ rfl)

/-- A step on the segments. A segment with a committed node in a slot stays linked. -/
theorem segs_allows {segs : Segments} (hi : SegInv segs)
    (hk : ∀ o, o ≠ .op c.op → SegKept o v.state.segs segs)
    (hlnk : ∀ n x, v.state.slots.committed n = true → v.state.slots.slot x = some n →
      Linked v.state.segs x.seg → Linked segs x.seg)
    (hmarks : ∀ n, ∀ d ∈ segs.marks n, d = c.op ∧ v.now.1.calls[c.op]? = some .pop ∨
      d ∈ v.state.segs.marks n) :
    E.protocol.Allows c v.now (v.after { v.state with segs } ()) := by
  have hpub := (hk (.thread c.thread) nofun).published
  refine Regime.allows v ⟨⟨hi, (inv_of v).slots.mono hpub hlnk⟩, (made_of v).nodes, (made_of v).inj,
    fun n d hd => ?_⟩ fun o ho => ⟨hk o (not_op ho), .refl o _, fun _ _ _ _ h => h⟩
  rcases hmarks n d hd with ⟨rfl, hc⟩ | hd
  · exact hc
  · exact (made_of v).marks n d hd

/-- A step on the slots. Slots of a segment whose removal is announced get no committed node. -/
theorem slots_allows {slots : Slots}
    (hi : SlotInv size (Published v.state.segs) (Linked v.state.segs) slots)
    (hk : ∀ o, o ≠ .op c.op → SlotKept o v.state.slots slots)
    (hfree : ∀ x : Slot, v.state.segs.marks x.seg ≠ [] → Free v.state.slots x → Free slots x)
    (hfresh : slots.fresh = v.state.slots.fresh) :
    E.protocol.Allows c v.now (v.after { v.state with slots } ()) := by
  have hk₀ := hk (.thread c.thread) nofun
  refine Regime.allows v ⟨⟨(inv_of v).segs, hi⟩, fun n hn => ?_, fun n hn m hm he => ?_,
    (made_of v).marks⟩ fun o ho => ⟨.refl o _, hk o (not_op ho), fun a _ x hm hx =>
      hfree x (List.ne_nil_of_mem hm) hx⟩
  · have hn : n < v.state.slots.fresh := hfresh ▸ hn
    show v.now.1.calls[slots.pusher n]? = some (.push (slots.val n))
    rw [hk₀.pusher n hn, hk₀.val n hn]
    exact (made_of v).nodes n hn
  · have hn : n < v.state.slots.fresh := hfresh ▸ hn
    have hm : m < v.state.slots.fresh := hfresh ▸ hm
    have he : slots.pusher n = slots.pusher m := he
    rw [hk₀.pusher n hn, hk₀.pusher m hm] at he
    exact (made_of v).inj n hn m hm he

/-- The call allocates its node. -/
theorem createNode_allows {val : ℤ} (hcall : v.now.1.calls[c.op]? = some (.push val))
    (hnew : ∀ n < v.state.slots.fresh, v.state.slots.pusher n ≠ c.op) :
    E.protocol.Allows c v.now (v.after (v.state.onSlots (·.create c.op val)) ()) := by
  have hself : (v.state.slots.create c.op val).pusher v.state.slots.fresh = c.op :=
    Function.update_self ..
  have hold : ∀ {n}, n < v.state.slots.fresh + 1 → n = v.state.slots.fresh ∨
    n < v.state.slots.fresh :=
    fun hn => by omega
  have hother : ∀ n < v.state.slots.fresh,
      (v.state.slots.create c.op val).pusher n = v.state.slots.pusher n := fun n hn =>
    Function.update_of_ne hn.ne _ _
  refine Regime.allows v ⟨⟨(inv_of v).segs, (inv_of v).slots.create val⟩, fun n hn => ?_,
    fun n hn m hm he => ?_, (made_of v).marks⟩ fun o ho =>
      ⟨.refl o _, SlotInv.create_kept val (not_op ho), fun _ _ _ _ h => h⟩
  · show v.now.1.calls[(v.state.slots.create c.op val).pusher n]? =
      some (.push ((v.state.slots.create c.op val).val n))
    rcases hold hn with rfl | hn
    · have hval : (v.state.slots.create c.op val).val v.state.slots.fresh = val :=
        Function.update_self ..
      rw [hself, hval]
      exact hcall
    · have hval : (v.state.slots.create c.op val).val n = v.state.slots.val n :=
        Function.update_of_ne hn.ne _ _
      rw [hother n hn, hval]
      exact (made_of v).nodes n hn
  · have he : (v.state.slots.create c.op val).pusher n =
      (v.state.slots.create c.op val).pusher m := he
    rcases hold hn with rfl | hn
    · rcases hold hm with rfl | hm
      · rfl
      · rw [hself, hother m hm] at he
        exact absurd he.symm (hnew m hm)
    · rcases hold hm with rfl | hm
      · rw [hself, hother n hn] at he
        exact absurd he (hnew n hn)
      · rw [hother n hn, hother m hm] at he
        exact (made_of v).inj n hn m hm he

/-! ### Steps on the segments -/

theorem create_allows (hn : n < v.state.segs.fresh) :
    E.protocol.Allows c v.now (v.after (v.state.onSegs (·.create c.op n)) ()) ∧
      ∀ o, SegKept o v.state.segs (v.state.segs.create c.op n) := by
  have hi := (inv_of v).segs
  have hk : ∀ o, SegKept o v.state.segs (v.state.segs.create c.op n) := fun _ => .create hi
  exact ⟨segs_allows (hi.create hn) (fun o _ => hk o) (fun _ _ _ _ hl => (linked_create hi).2 hl)
    fun _ _ hd => .inr hd, hk⟩

/-- The new segment of the call becomes the head. -/
theorem push_allows {head : Head} (hn : Private v.state.segs head.segment)
    (hmaker : v.state.segs.maker head.segment = c.op)
    (hnext : (v.state.segs.heap head.segment).next = some v.state.segs.head.segment) :
    E.protocol.Allows c v.now (v.after (v.state.onSegs (·.push head)) ()) :=
  segs_allows ((inv_of v).segs.push hnext hn) (fun _ ho => .push hnext (hmaker ▸ ho))
    (fun _ _ _ _ hl => (linked_push hnext).2 (.inr hl)) fun _ _ hd => .inr hd

/-- The call removes the first segment, whose removal it has announced and whose slots hold no
committed node. -/
theorem pop_allows {head : Head}
    (hnext : (v.state.segs.heap v.state.segs.head.segment).next = some head.segment)
    (hop : c.op ∈ v.state.segs.marks v.state.segs.head.segment)
    (hfree : ∀ i < size, Free v.state.slots ⟨v.state.segs.head.segment, i⟩) :
    E.protocol.Allows c v.now (v.after (v.state.onSegs (·.pop c.op head)) ()) := by
  have hi := (inv_of v).segs
  refine segs_allows (hi.pop hnext hop) (fun _ ho => .pop hnext hi ho) (fun n x hc hx hl => ?_)
    fun k d hd => ?_
  · refine (linked_pop hnext hi).2 ⟨hl, fun e => ?_⟩
    have := hfree x.idx ((inv_of v).slots.placed x n hx).2.1 n (by rwa [← e])
    rw [hc] at this
    cases this
  · by_cases hk : k = v.state.segs.head.segment
    · subst hk
      rw [Segments.pop_marks_self] at hd
      exact .inr (List.mem_of_mem_erase hd)
    · rw [Segments.pop_marks hk] at hd
      exact .inr hd

section Counter

variable {r : ℤ} {l : List ℕ} {e : ℕ}

theorem count_allows (hpub : Published v.state.segs n) (hi : SegInv (v.state.segs.count n r l e))
    (hl : ∀ d, d ≠ c.op → (d ∈ l ↔ d ∈ v.state.segs.marks n))
    (hown : c.op ∈ l → v.now.1.calls[c.op]? = some .pop ∨ c.op ∈ v.state.segs.marks n) :
    E.protocol.Allows c v.now (v.after { v.state with segs := v.state.segs.count n r l e } ()) := by
  refine segs_allows hi (fun o ho => .count hpub fun a ha => hl a fun e => ho (e ▸ ha))
    (fun _ _ _ _ h => linked_count.2 h) fun k d hd => ?_
  have hd : d ∈ Function.update v.state.segs.marks n l k := hd
  by_cases hk : k = n
  · subst hk
    rw [Function.update_self] at hd
    by_cases hdo : d = c.op
    · subst hdo
      exact (hown hd).imp_left fun hc => ⟨rfl, hc⟩
    · exact .inr ((hl d hdo).1 hd)
  · rw [Function.update_of_ne hk] at hd
    exact .inr hd

theorem mark_allows (hpub : Published v.state.segs n) (hnext : (v.state.segs.heap n).next ≠ none)
    (hop : c.op ∉ v.state.segs.marks n) (hcall : v.now.1.calls[c.op]? = some .pop) :
    E.protocol.Allows c v.now (v.after (v.state.onSegs (·.mark c.op n)) ()) := by
  have hi := (inv_of v).segs.mark hpub hnext hop
  rw [Segments.mark_eq] at hi
  have := count_allows hpub hi (fun d hd => by rw [List.mem_cons, or_iff_right hd])
    (fun _ => .inl hcall)
  rwa [← Segments.mark_eq] at this

theorem unmark_allows (hop : c.op ∈ v.state.segs.marks n) :
    E.protocol.Allows c v.now (v.after (v.state.onSegs (·.unmark c.op n)) ()) := by
  have hpub := ((inv_of v).segs.marked n (List.ne_nil_of_mem hop)).2
  have hi := (inv_of v).segs.unmark hop
  rw [Segments.unmark_eq] at hi
  have := count_allows hpub hi (fun d hd => List.mem_erase_of_ne hd) (fun _ => .inr hop)
  rwa [← Segments.unmark_eq] at this

theorem leave_allows (hpub : Published v.state.segs n) (hnext : (v.state.segs.heap n).next = none)
    (hop : c.op ∉ v.state.segs.marks n) :
    E.protocol.Allows c v.now (v.after (v.state.onSegs (·.leave c.op n)) ()) := by
  have hi := (inv_of v).segs.leave hpub hnext hop
  rw [Segments.leave_eq hop] at hi
  have := count_allows hpub hi (fun d _ => Iff.rfl) (fun h => .inr h)
  rwa [← Segments.leave_eq hop] at this

end Counter

/-! ### Steps on the slots -/

/-- The call puts its node into an empty slot. -/
theorem put_allows (hn : n < v.state.slots.fresh) (hp : v.state.slots.pusher n = c.op)
    (hc : v.state.slots.committed n = false) (hl : Loose v.state.slots n) (hx : x.idx < size)
    (hpub : Published v.state.segs x.seg) (he : v.state.slots.slot x = none) :
    E.protocol.Allows c v.now (v.after (v.state.onSlots (·.set x (some n))) ()) :=
  slots_allows ((inv_of v).slots.put hn hx hpub he hl) (fun _ ho => SlotInv.put_kept he (hp ▸ ho))
    (fun _ _ hy => SlotInv.free_put hc hy) rfl

/-- The call takes its node out again. -/
theorem retract_allows (hp : v.state.slots.pusher n = c.op) (hc : v.state.slots.committed n = false)
    (hx : v.state.slots.slot x = some n) :
    E.protocol.Allows c v.now (v.after (v.state.onSlots (·.set x none)) ()) :=
  slots_allows ((inv_of v).slots.retract hx hc).1
    (fun _ ho => (inv_of v).slots.retract_kept hx hc (hp ▸ ho))
    (fun _ _ hy => (inv_of v).slots.free_clear hx hy) rfl

/-- The call takes the node of a slot. -/
theorem take_allows (hx : v.state.slots.slot x = some n)
    (hop : ∀ m, (m, c.op) ∉ v.state.slots.takes) :
    E.protocol.Allows c v.now (v.after (v.state.onSlots (·.take c.op x n)) ()) :=
  slots_allows ((inv_of v).slots.take hx hop) (fun _ ho => (inv_of v).slots.take_kept hx ho)
    (fun _ _ hy => (inv_of v).slots.free_clear hx hy) rfl

/-- The call commits its node, in a segment without announcement. -/
theorem commit_allows (hn : n < v.state.slots.fresh) (hp : v.state.slots.pusher n = c.op)
    (hpub : Published v.state.segs x.seg) (hzero : (v.state.segs.heap x.seg).remove = 0)
    (hin : v.state.slots.slot x = some n ∨ Taken v.state.slots n) :
    E.protocol.Allows c v.now (v.after (v.state.onSlots (·.commit n)) ()) := by
  have hlinked := (inv_of v).segs.linked_of_remove hpub hzero
  refine slots_allows ((inv_of v).slots.commit hn (hin.imp_left fun hx => ⟨x, hx, hlinked⟩))
    (fun _ ho => SlotInv.commit_kept (hp ▸ ho)) (fun y hm hy => SlotInv.free_commit hy
      fun hyn => ?_) rfl
  -- a segment whose removal is announced has a positive counter
  obtain ⟨d, hd⟩ := List.exists_mem_of_ne_nil _ hm
  rcases hin with hx | ht
  · have hyx := (inv_of v).slots.inj y x n hyn hx
    have := (inv_of v).segs.remove_pos hd
    rw [hyx] at this
    omega
  · exact ((inv_of v).slots.taken n ht).2 y hyn

end StackKSegment
