import SemanticRelaxation.TwoDdDeque.Emptiness
import SemanticRelaxation.TwoDdDeque.Searches

/-!
# The relaxation bound of the 2Dd-deque, one call at a time

The items of all deques are in one order: `push_left` puts its item before all others at the left
end, `push_right` at the right end. `pop_within_bound` says that a pop takes one of the first items
from its end, as long as the get windows are only shifted when all get counters are at the maximum,
and the put windows as well if the maps of the threads cannot hold the put counters.
-/

namespace TwoDdDeque

open AtomicProg Deques

/-! ### The exchanges of anchors -/

/-- The item `n` is taken, one of the first that are seen from the end `d`. -/
structure Taken (set : Params) (d : Side) (hist : List Event) (n : ℕ) (s : Memory) : Prop where
  mem : n ∈ order hist
  order_eq : order s.hist = (order hist).erase n
  before_le : (before d (order hist) n).length ≤ 3 * set.depth * (set.width - 1)

section Exchanges

variable {set : Params} {s s' s₀ : Memory} {c : Caller} {d : Side} {i n a anchor node : ℕ}
  {base : Option ℕ}

theorem Ongoing.unmoved (h : Ongoing set s₀ s) (hs : Sound set s') (hu : Unmoved set s s') :
    Ongoing set s₀ s' :=
  ⟨hs, h.even.unmoved hu, h.grown.trans fun i hi d => (congrFun (hu.put i hi) d).ge⟩

theorem Exchanged.of_anchor (set : Params) (hanchor : s'.anchor = Function.update s.anchor i a)
    (hanchors : s'.anchors = s.anchors) (hput : s'.putMax = s.putMax)
    (hget : s'.getMax = s.getMax) :
    Exchanged set i s s' ∧ s'.now i = s.anchors a := by
  refine ⟨⟨fun j _ hji => ?_, hput, hget⟩, ?_⟩
  · unfold Memory.now
    rw [hanchors, hanchor, Function.update_of_ne hji]
  · unfold Memory.now
    rw [hanchors, hanchor, Function.update_self]

/-- After an exchange of anchors that counts the put counter up, or none. -/
theorem Grown.exchange (hx : Exchanged set i s s')
    (hput : ∀ e, (s.now i).putCount e ≤ (s'.now i).putCount e) : Grown set s s' := fun j hj e => by
  by_cases hji : j = i
  · rw [hji]
    exact hput e
  · rw [hx.now j hj hji]

theorem Ongoing.push (h : Ongoing set s₀ s) (hs : Sound set s') (hi : i < set.width)
    (hanchor : s'.anchor = Function.update s.anchor i a) (hanchors : s'.anchors = s.anchors)
    (hputMax : s'.putMax = s.putMax) (hgetMax : s'.getMax = s.getMax)
    (hhist : s'.hist = s.hist ++ [.push d c.op i node])
    (hplace : s'.place = Function.update s.place node i)
    (hput : (s.anchors a).putCount = Function.update (s.now i).putCount d
      ((s.now i).putCount d + 1))
    (hget : (s.anchors a).getCount = (s.now i).getCount) : Ongoing set s₀ s' := by
  obtain ⟨hx, hnow⟩ := Exchanged.of_anchor set hanchor hanchors hputMax hgetMax
  rw [← hnow] at hput hget
  refine ⟨hs, h.even.push hs hx hi hhist hplace hput hget, h.grown.trans (.exchange hx fun e => ?_)⟩
  rw [hput]
  exact le_update_self_iff.2 (Nat.le_succ _) e

theorem Ongoing.pop (h : Ongoing set s₀ s) (hs : Sound set s') (hi : i < set.width)
    (hanchor : s'.anchor = Function.update s.anchor i a) (hanchors : s'.anchors = s.anchors)
    (hputMax : s'.putMax = s.putMax) (hgetMax : s'.getMax = s.getMax)
    (hhist : s'.hist = s.hist ++ [.pop d c.op i node]) (hplace : s'.place = s.place)
    (hput : (s.anchors a).putCount = (s.now i).putCount)
    (hget : (s.anchors a).getCount = Function.update (s.now i).getCount d
      ((s.now i).getCount d + 1)) :
    Ongoing set s₀ s' ∧ Taken set d s.hist node s' := by
  obtain ⟨hx, hnow⟩ := Exchanged.of_anchor set hanchor hanchors hputMax hgetMax
  rw [← hnow] at hput hget
  obtain ⟨heven, hmem, hle⟩ := h.even.pop hs hx hi hhist hplace hput hget
  refine ⟨⟨hs, heven, h.grown.trans (.exchange hx fun e => (congrFun hput e).ge)⟩, hmem, ?_, hle⟩
  rw [hhist, order_concat]
  rfl

end Exchanges

/-! ### Calls -/

section Calls

variable {set : Params} {s s₀ : Memory} {c : Caller} {d : Side} {tl : Local} {value : ℤ}

theorem Spare.searched {s' : Memory} {a : ℕ} (h : Spare set a s) (hs : Searched s s') :
    Spare set a s' :=
  ⟨hs.freshAnchor ▸ h.1, hs.anchor ▸ h.2⟩

end Calls

section Runs

variable {set : Params} {n : ℕ} {s : Memory} {ls : ℕ → Option Local}

/-- What is present has been allocated. -/
theorem Even.fresh (h : Even set s) (hs : Sound set s) {k : ℕ} (hk : k ∈ order s.hist) :
    k < s.fresh := by
  have hlt : s.place k < set.width := h.balanced.place_lt k hk
  obtain ⟨⟨calls, hinv⟩, -⟩ := hs
  obtain ⟨xs, hxs, hl⟩ := hinv.shape.deques _ hlt
  obtain rfl := Option.some.inj ((h.parts _ hlt).symm.trans hxs)
  exact hinv.shape.pushed k (hl.nodes k (List.mem_filter.2 ⟨hk, decide_eq_true rfl⟩)).1

end Runs

end TwoDdDeque
