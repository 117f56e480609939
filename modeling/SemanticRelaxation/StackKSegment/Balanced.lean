import SemanticRelaxation.StackKSegment.Committed
import SemanticRelaxation.Prog.Sequential

/-!
# The counters `remove` of the k-segment stack

After two passes over the last segment a pop that finds the head changed decrements the counter of
that segment (`leaves` counts these pops), which it has not incremented: the increment is left out
for a last segment. From then on the counter is not the number of announcements.

* `Balanced`: what the counters should be, and what follows for a push;
* `kSegmentStack_balanced`: it holds in exactly those reachable states before which no pop has gone
  on from a last segment in this way.
-/

namespace StackKSegment

open AtomicProg

variable {size n : ℕ} {s : Memory} {x : Slot}

/-- The counter of a linked segment is the number of the running pops that have incremented it and
not decremented it. A push that has found a segment without such a pop, and runs alone, commits. -/
structure Balanced (u : World (stackService size)) : Prop where
  count : ∀ n, Linked u.shared.segs n →
    (u.shared.segs.heap n).remove = (u.shared.segs.marks n).length
  running : ∀ n, ∀ d ∈ u.shared.segs.marks n, u.calls[d]? = some .pop ∧ u.Live d
  distinct : ∀ n, (u.shared.segs.marks n).Nodup
  idle : ∀ n, Linked u.shared.segs n → u.shared.segs.marks n = [] →
    (u.shared.segs.heap n).remove = 0
  put : ∀ x n, x.seg = u.shared.segs.head.segment → u.shared.slots.slot x = none →
    u.shared.segs.marks x.seg = [] →
      Total (.trivial Memory) (fun r _ => r = .inr 1) (pushInto x n) u.shared
  commit : ∀ x n, x.seg = u.shared.segs.head.segment → u.shared.slots.slot x = some n →
    u.shared.segs.marks x.seg = [] →
      Total (.trivial Memory) (fun r _ => r = true) (checkCommit x n) u.shared

/-! ### A push that runs alone -/

theorem checkCommit_alone (hzero : (s.segs.heap x.seg).remove = 0) :
    Total (.trivial Memory) (fun r _ => r = true) (checkCommit x n) s := by
  unfold checkCommit readNode noRemoval
  rw [Total.read_iff]
  split
  next => exact .ret rfl
  next =>
    rw [Total.update_iff, if_pos hzero]
    exact fun _ => ⟨True.intro, .ret rfl⟩

theorem pushInto_alone (hx : s.slots.slot x = none) (hzero : (s.segs.heap x.seg).remove = 0) :
    Total (.trivial Memory) (fun r _ => r = .inr 1) (pushInto x n) s := by
  unfold pushInto putCas
  simp only [Prog.bind_assoc, Prog.pure_eq_ret, Prog.ret_bind]
  refine Total.cae_of_eq hx fun _ => ⟨True.intro, ?_⟩
  refine Total.bind_of (P := fun r _ => r = true) (checkCommit_alone hzero) ?_
  rintro r s' rfl
  exact .ret rfl

/-! ### The counters -/

/-- A call that has returned has left no announcement behind. -/
theorem Answer.marks {op : ℕ} {call : Call} {r : ℤ} (h : Answer op call r s) (n : ℕ) :
    op ∉ s.segs.marks n := by
  cases call with
  | push val =>
    obtain ⟨-, m, hm⟩ := h
    exact hm.marks n
  | pop => exact Popped.marks h n

theorem Known.running {u : World (stackService size)} (h : Known size u) {d : ℕ}
    (hd : d ∈ u.shared.segs.marks n) : u.calls[d]? = some .pop ∧ u.Live d := by
  have hcall := h.made.marks n d hd
  refine ⟨hcall, (List.getElem?_eq_some_iff.1 hcall).1, ?_⟩
  by_contra hne
  obtain ⟨⟨r, k⟩, hr⟩ := Option.ne_none_iff_exists'.1 hne
  obtain ⟨call, -, hans⟩ := h.answer d r k hr
  exact hans.marks n hd

theorem Known.count {u : World (stackService size)} (h : Known size u)
    (hs : ∀ n, u.shared.segs.leaves n = 0) (hn : Linked u.shared.segs n) :
    (u.shared.segs.heap n).remove = (u.shared.segs.marks n).length := by
  rw [h.inv.segs.linked n hn, hs n, Nat.cast_zero, sub_zero]

/-- The counters are right in exactly those reachable states before which no pop has gone on from
the last segment, after two passes over it, because the head had changed. -/
theorem kSegmentStack_balanced {size : ℕ} (hsize : 0 < size) {p : Pool (stackService size)}
    (hr : Reachable initial () p) :
    Balanced p.world ↔ ∀ n, p.world.shared.segs.leaves n = 0 := by
  have h := known hsize hr
  constructor
  · intro hb n
    by_contra hne
    obtain ⟨-, hn⟩ := h.inv.segs.leaves n hne
    have hcount := hb.count n hn
    rw [h.inv.segs.linked n hn] at hcount
    omega
  · intro hs
    have hidle : ∀ n, Linked p.world.shared.segs n → p.world.shared.segs.marks n = [] →
        (p.world.shared.segs.heap n).remove = 0 := fun n hn hm => by
      rw [h.count hs hn, hm]
      rfl
    refine ⟨fun n => h.count hs, fun n d => h.running, h.inv.segs.nodup, hidle, ?_, ?_⟩
    · intro x n hx hslot hm
      exact pushInto_alone hslot (hidle _ (hx ▸ .refl) hm)
    · intro x n hx _ hm
      exact checkCommit_alone (hidle _ (hx ▸ .refl) hm)

/-- Two pushes and a pop; a push has begun, and a second pop has announced the removal of the first
segment. -/
def announcing : List (Move (stackService 1)) :=
  Move.invoke 0 (Call.push 7) :: List.replicate 12 (Move.step 0 0) ++
    Move.invoke 0 (Call.push 8) :: List.replicate 20 (Move.step 0 0) ++
    Move.invoke 1 Call.pop :: List.replicate 10 (Move.step 1 0) ++
    Move.invoke 0 (Call.push 9) :: List.replicate 3 (Move.step 0 0) ++
    Move.invoke 2 Call.pop :: List.replicate 12 (Move.step 2 0)

/-- The counter of the first segment is 1 in the middle of a removal, next to a push that runs. -/
theorem kSegmentStack_balanced_one : ∃ p : Pool (stackService 1),
    (p.world.shared.segs.head.segment = 1 ∧ p.world.shared.segs.marks 1 = [4] ∧
      (p.world.shared.segs.heap 1).remove = 1) ∧
    (Balanced p.world ↔ ∀ n, p.world.shared.segs.leaves n = 0) := by
  have h : (((Pool.init (stackService 1) initial ()).exec announcing).any fun p =>
      decide (p.world.shared.segs.head.segment = 1 ∧ p.world.shared.segs.marks 1 = [4] ∧
        (p.world.shared.segs.heap 1).remove = 1)) = true := by
    decide +kernel
  obtain ⟨p, hp, h⟩ := (Option.any_eq_true _ _).1 h
  exact ⟨p, of_decide_eq_true h, kSegmentStack_balanced Nat.one_pos
    (Pool.exec_reach hp (fun _ _ _ _ => True.intro) .init)⟩

/-- While a pop is about to leave the last segment, two pushes go by. The pop takes the counter of
the segment below 0, where it stays: no removal is in progress any more, and the slot is empty. -/
theorem kSegmentStack_unbalanced : ∃ p : Pool (stackService 1), Reachable initial () p ∧
    (p.world.shared.segs.head.segment = 0 ∧ p.world.shared.slots.slot ⟨0, 0⟩ = none) ∧
    (p.world.shared.segs.marks 0 = [] ∧ (p.world.shared.segs.heap 0).remove = -1) ∧
    ¬ Balanced p.world := by
  have h : (((Pool.init (stackService 1) initial ()).exec
      (Move.invoke 1 Call.pop :: List.replicate 12 (Move.step 1 0) ++
        Move.invoke 0 (Call.push 7) :: List.replicate 12 (Move.step 0 0) ++
        Move.invoke 0 (Call.push 8) :: List.replicate 20 (Move.step 0 0) ++ List.replicate 11
          (Move.step 1 0) ++
        Move.invoke 0 Call.pop :: List.replicate 24 (Move.step 0 0))).any fun p =>
      decide ((p.world.shared.segs.head.segment = 0 ∧ p.world.shared.slots.slot ⟨0, 0⟩ = none) ∧
        p.world.shared.segs.marks 0 = [] ∧ (p.world.shared.segs.heap 0).remove = -1)) = true := by
    decide +kernel
  obtain ⟨p, hp, h⟩ := (Option.any_eq_true _ _).1 h
  obtain ⟨hhead, hmarks, hremove⟩ := of_decide_eq_true h
  refine ⟨p, Pool.exec_reach hp (fun _ _ _ _ => True.intro) .init, hhead, ⟨hmarks, hremove⟩,
    fun hb => ?_⟩
  have hlinked : Linked p.world.shared.segs 0 := by
    unfold Linked
    rw [hhead.1]
  have hzero := hb.idle 0 hlinked hmarks
  omega

end StackKSegment
