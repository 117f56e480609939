import SemanticRelaxation.Support.Drift
import SemanticRelaxation.TwoDdDeque.Serial

/-!
# The ledger of the 2Dd-deque

The items that are present in all deques, in one order, with the counters and the windows
(`Memory.ledger`).

* `Level`: the counters are at most one window behind their maxima;
* `Even`: the counters are in their windows, and the items are balanced;
* `Even.push`, `Even.pop`, `Even.shiftPut`, `Even.shiftGet`: what the steps on the items and the
  windows do to it;
* `Settling`: what the other steps of a call that runs alone leave alone.
-/

namespace TwoDdDeque

open AtomicProg Deques

/-- The items that are present, their deques, the counters and the windows. -/
def Memory.ledger (set : Params) (s : Memory) : Ledger where
  order := order s.hist
  place := s.place
  put d i := if i < set.width then (s.now i).putCount d else 0
  get d i := if i < set.width then (s.now i).getCount d else 0
  putMax := s.putMax
  getMax := s.getMax

/-- No get counter of the end is more than one window below the maximum. -/
def LevelGet (set : Params) (d : Side) (s : Memory) : Prop :=
  ∀ i < set.width, s.getMax d ≤ (s.now i).getCount d + set.depth

/-- No put counter of the end is more than one window below the maximum. -/
def LevelPut (set : Params) (d : Side) (s : Memory) : Prop :=
  ∀ i < set.width, s.putMax d ≤ (s.now i).putCount d + set.depth

/-- The put counters of the end fit into the maps of the threads. -/
def Small (set : Params) (d : Side) (s : Memory) :
    Prop := ∀ i < set.width, (s.now i).putCount d < 2 ^ 31

/-- The counters keep up with their windows. For put counters that fit into the maps this takes no
condition. -/
def Level (set : Params) (s : Memory) :
    Prop := ∀ d, LevelGet set d s ∧ (Small set d s ∨ LevelPut set d s)

instance (set : Params) (d : Side) (s : Memory) : Decidable (LevelGet set d s) :=
  inferInstanceAs (Decidable (∀ i < set.width, _))

instance (set : Params) (d : Side) (s : Memory) : Decidable (LevelPut set d s) :=
  inferInstanceAs (Decidable (∀ i < set.width, _))

instance (set : Params) (d : Side) (s : Memory) : Decidable (Small set d s) :=
  inferInstanceAs (Decidable (∀ i < set.width, _))

instance (set : Params) (s : Memory) : Decidable (Level set s) :=
  decidable_of_iff ((LevelGet set .left s ∧ (Small set .left s ∨ LevelPut set .left s)) ∧
    LevelGet set .right s ∧ (Small set .right s ∨ LevelPut set .right s))
    ⟨fun h d => match d with
      | .left => h.1
      | .right => h.2, fun h => ⟨h .left, h .right⟩⟩

/-- The counters are in their windows, and the items are balanced. -/
structure Even (set : Params) (s : Memory) : Prop where
  windows : (s.ledger set).InWindows set.width set.depth
  balanced : (s.ledger set).Balanced set.width set.depth
  parts : ∀ i < set.width, content s.hist i = some ((order s.hist).filter fun x => s.place x = i)

/-- The items, the counters and the windows stay as they are. -/
structure Unmoved (set : Params) (s s' : Memory) : Prop where
  hist : s'.hist = s.hist
  place : s'.place = s.place
  putMax : s'.putMax = s.putMax
  getMax : s'.getMax = s.getMax
  put : ∀ i < set.width, (s'.now i).putCount = (s.now i).putCount
  get : ∀ i < set.width, (s'.now i).getCount = (s.now i).getCount

section Ledger

variable {set : Params} {s s' : Memory} {d : Side} {i n op : ℕ}

theorem ledger_put (hi : i < set.width) : (s.ledger set).put d i = (s.now i).putCount d := if_pos hi

theorem ledger_get (hi : i < set.width) : (s.ledger set).get d i = (s.now i).getCount d := if_pos hi

theorem Unmoved.ledger (h : Unmoved set s s') : s'.ledger set = s.ledger set := by
  have hput : (s'.ledger set).put = (s.ledger set).put := by
    funext d i
    show ite _ _ _ = ite _ _ _
    split
    next hi => rw [h.put i hi]
    next => rfl
  have hget : (s'.ledger set).get = (s.ledger set).get := by
    funext d i
    show ite _ _ _ = ite _ _ _
    split
    next hi => rw [h.get i hi]
    next => rfl
  unfold Memory.ledger at hput hget ⊢
  simp only [Ledger.mk.injEq]
  exact ⟨by rw [h.hist], h.place, hput, hget, h.putMax, h.getMax⟩

theorem Even.unmoved (h : Even set s) (hu : Unmoved set s s') : Even set s' := by
  refine ⟨hu.ledger ▸ h.windows, hu.ledger ▸ h.balanced, ?_⟩
  rw [hu.hist, hu.place]
  exact h.parts

theorem Even.initial (set : Params) : Even set (initial set) := by
  refine ⟨⟨?_, ?_, ?_, ?_, fun _ => Nat.dvd_refl _, fun _ => Nat.dvd_refl _⟩,
    ⟨List.nodup_nil, nofun, ?_, nofun⟩, ?_⟩
  · intro d i hi
    rw [ledger_put hi]
    exact Nat.zero_le _
  · intro d i hi
    rw [ledger_put hi]
    exact (Nat.zero_add _).ge
  · intro d i hi
    rw [ledger_get hi]
    exact Nat.zero_le _
  · intro d i hi
    rw [ledger_get hi]
    exact (Nat.zero_add _).ge
  · intro i hi
    unfold Ledger.gain
    rw [ledger_put hi, ledger_put hi, ledger_get hi, ledger_get hi]
    rfl
  · exact fun _ _ => rfl

/-! ### Pushes and pops -/

/-- The anchors after the exchange of a push, or of a pop. -/
structure Exchanged (set : Params) (i : ℕ) (s s' : Memory) : Prop where
  now : ∀ j < set.width, j ≠ i → s'.now j = s.now j
  putMax : s'.putMax = s.putMax
  getMax : s'.getMax = s.getMax

theorem Exchanged.push (h : Exchanged set i s s') (hi : i < set.width)
    (hhist : s'.hist = s.hist ++ [.push d op i n]) (hplace : s'.place = Function.update s.place n i)
    (hput : (s'.now i).putCount = Function.update (s.now i).putCount d ((s.now i).putCount d + 1))
    (hget : (s'.now i).getCount = (s.now i).getCount) :
    s'.ledger set = (s.ledger set).push d i n := by
  have hputs : (s'.ledger set).put = bump (s.ledger set).put d i := by
    funext e j
    by_cases hj : j < set.width
    · rw [ledger_put hj]
      by_cases hji : j = i
      · subst hji
        by_cases he : e = d
        · subst he
          rw [bump_self, ledger_put hj, hput, Function.update_self]
        · rw [bump_other he, ledger_put hj, hput, Function.update_of_ne he]
      · rw [bump_of_ne hji, ledger_put hj, h.now j hj hji]
    · have hji : j ≠ i := by
        rintro rfl
        exact hj hi
      rw [bump_of_ne hji]
      exact (if_neg hj).trans (if_neg hj).symm
  have hgets : (s'.ledger set).get = (s.ledger set).get := by
    funext e j
    by_cases hj : j < set.width
    · rw [ledger_get hj, ledger_get hj]
      by_cases hji : j = i
      · rw [hji, hget]
      · rw [h.now j hj hji]
    · exact (if_neg hj).trans (if_neg hj).symm
  unfold Memory.ledger at hputs hgets ⊢
  unfold Ledger.push
  simp only [Ledger.mk.injEq]
  exact ⟨by rw [hhist, order_concat]; rfl, hplace, hputs, hgets, h.putMax, h.getMax⟩

theorem Exchanged.pop (h : Exchanged set i s s') (hi : i < set.width)
    (hhist : s'.hist = s.hist ++ [.pop d op i n]) (hplace : s'.place = s.place)
    (hput : (s'.now i).putCount = (s.now i).putCount)
    (hget : (s'.now i).getCount = Function.update (s.now i).getCount d ((s.now i).getCount d + 1)) :
    s'.ledger set = (s.ledger set).pop d i n := by
  have hputs : (s'.ledger set).put = (s.ledger set).put := by
    funext e j
    by_cases hj : j < set.width
    · rw [ledger_put hj, ledger_put hj]
      by_cases hji : j = i
      · rw [hji, hput]
      · rw [h.now j hj hji]
    · exact (if_neg hj).trans (if_neg hj).symm
  have hgets : (s'.ledger set).get = bump (s.ledger set).get d i := by
    funext e j
    by_cases hj : j < set.width
    · rw [ledger_get hj]
      by_cases hji : j = i
      · subst hji
        by_cases he : e = d
        · subst he
          rw [bump_self, ledger_get hj, hget, Function.update_self]
        · rw [bump_other he, ledger_get hj, hget, Function.update_of_ne he]
      · rw [bump_of_ne hji, ledger_get hj, h.now j hj hji]
    · have hji : j ≠ i := by
        rintro rfl
        exact hj hi
      rw [bump_of_ne hji]
      exact (if_neg hj).trans (if_neg hj).symm
  unfold Memory.ledger at hputs hgets ⊢
  unfold Ledger.pop
  simp only [Ledger.mk.injEq]
  exact ⟨by rw [hhist, order_concat]; rfl, hplace, hputs, hgets, h.putMax, h.getMax⟩

/-- What is pushed has not been present. -/
theorem Even.not_mem (h : Even set s) (hs : Sound set s')
    (hhist : s'.hist = s.hist ++ [.push d op i n])
    (hplace : s'.place = Function.update s.place n i) : n ∉ order s.hist := by
  intro hm
  have hlt : s.place n < set.width := h.balanced.place_lt n hm
  have hpart := h.parts _ hlt
  have hmem : n ∈ (order s.hist).filter fun x => s.place x = s.place n :=
    List.mem_filter.2 ⟨hm, decide_eq_true rfl⟩
  obtain ⟨⟨calls, hinv⟩, -⟩ := hs
  obtain ⟨ys, hys, hl⟩ := hinv.shape.deques _ hlt
  rw [hhist] at hys
  by_cases hij : i = s.place n
  · -- its deque would have it twice
    subst hij
    rw [content_push hpart] at hys
    obtain rfl := Option.some.inj hys
    have hnodup := Side.nodup_look.1 hl.nodup
    exact (List.nodup_cons.1 hnodup).1 (Side.mem_look.2 hmem)
  · rw [content_concat_of_ne (e := .push d op i n) hij, hpart] at hys
    obtain rfl := Option.some.inj hys
    have hpl := (hl.nodes n hmem).2
    rw [hplace, Function.update_self] at hpl
    exact hij hpl

theorem Even.push (h : Even set s) (hs : Sound set s') (hx : Exchanged set i s s')
    (hi : i < set.width) (hhist : s'.hist = s.hist ++ [.push d op i n])
    (hplace : s'.place = Function.update s.place n i) (hput : (s'.now i).putCount = Function.update
      (s.now i).putCount d ((s.now i).putCount d + 1))
    (hget : (s'.now i).getCount = (s.now i).getCount) : Even set s' := by
  have hn := h.not_mem hs hhist hplace
  have hledger := hx.push hi hhist hplace hput hget
  have hlt : (s.ledger set).put d i < (s.ledger set).putMax d := by
    obtain ⟨⟨calls, hinv⟩, -⟩ := hs
    have hle := hinv.counts.put i hi d
    rw [hput, Function.update_self, hx.putMax] at hle
    rw [ledger_put hi]
    exact hle
  have hw := h.windows.push (n := n) hlt
  refine ⟨hledger ▸ hw, hledger ▸ h.balanced.push h.windows hw hi hn, fun j hj => ?_⟩
  rw [hhist, order_concat, hplace]
  by_cases hij : i = j
  · subst hij
    rw [content_push (h.parts i hi)]
    exact congrArg some (filter_push_self hn).symm
  · rw [content_concat_of_ne (e := .push d op i n) hij, h.parts j hj]
    exact congrArg some (filter_push_other hn hij).symm

/-- A pop takes an item that has few others before it. -/
theorem Even.pop (h : Even set s) (hs : Sound set s') (hx : Exchanged set i s s')
    (hi : i < set.width) (hhist : s'.hist = s.hist ++ [.pop d op i n]) (hplace : s'.place = s.place)
    (hput : (s'.now i).putCount = (s.now i).putCount)
    (hget : (s'.now i).getCount = Function.update (s.now i).getCount d ((s.now i).getCount d + 1)) :
    Even set s' ∧ n ∈ order s.hist ∧ (before d (order s.hist) n).length ≤ 3 * set.depth *
      (set.width - 1) := by
  obtain ⟨⟨calls, hinv⟩, -⟩ := hs
  have hlt : (s.ledger set).get d i < (s.ledger set).getMax d := by
    have hle := hinv.counts.get i hi d
    rw [hget, Function.update_self, hx.getMax] at hle
    rw [ledger_get hi]
    exact hle
  obtain ⟨zs, hzs, -⟩ := hinv.shape.deques i hi
  rw [hhist] at hzs
  obtain ⟨ys, hys, rfl⟩ := content_before_pop hzs
  have hfilter := Option.some.inj ((h.parts i hi).symm.trans hys)
  have hmem : n ∈ (order s.hist).filter fun x => s.place x = i := by
    rw [hfilter, Side.mem_look]
    exact List.mem_cons_self ..
  obtain ⟨hn, hpi⟩ := List.mem_filter.1 hmem
  have hpi : s.place n = i := of_decide_eq_true hpi
  have hlook : d.look ((order s.hist).filter fun x => s.place x = i) = n :: ys := by
    rw [hfilter, Side.look_look]
  have hfirst : (s.ledger set).ahead d n i = 0 := ahead_eq_zero_of_first hlook
  have hledger := hx.pop hi hhist hplace hput hget
  have hw := h.windows.pop (n := n) hlt
  refine ⟨⟨hledger ▸ hw, hledger ▸ h.balanced.pop hw hn hpi hfirst, fun j hj => ?_⟩, hn,
    h.balanced.before_le h.windows hn hpi hfirst hlt⟩
  have hnodup : (order s.hist).Nodup := h.balanced.nodup
  rw [hhist, order_concat, hplace]
  show content _ j = some (((order s.hist).erase n).filter _)
  rw [filter_erase hnodup]
  by_cases hij : i = j
  · subst hij
    have hcons : (n :: ys).Nodup := by
      rw [← Side.nodup_look (d := d), ← hfilter]
      exact hnodup.filter _
    rw [hzs, hfilter, ← look_erase hcons, List.erase_cons_head]
  · rw [content_concat_of_ne (e := .pop d op i n) hij, h.parts j hj, List.erase_of_not_mem]
    intro hm
    exact hij (hpi.symm.trans (of_decide_eq_true (List.mem_filter.1 hm).2))

/-! ### The windows -/

/-- The put counters are level after the shift of a put window exactly if all of them were at the
maximum. -/
theorem levelPut_shift_iff :
    LevelPut set d { s with putMax := Function.update s.putMax d (s.putMax d + set.depth) } ↔
      ∀ i < set.width, s.putMax d ≤ (s.now i).putCount d := by
  refine forall₂_congr fun i _ => ?_
  show Function.update s.putMax d (s.putMax d + set.depth) d ≤ (s.now i).putCount d + set.depth ↔ _
  rw [Function.update_self]
  exact Nat.add_le_add_iff_right

/-- The get counters are level after the shift of a get window exactly if all of them were at the
maximum. -/
theorem levelGet_shift_iff :
    LevelGet set d (s.shiftGet set d) ↔ ∀ i < set.width, s.getMax d ≤ (s.now i).getCount d := by
  refine forall₂_congr fun i _ => ?_
  rw [shiftGet_max]
  exact Nat.add_le_add_iff_right

theorem Even.shiftPut (h : Even set s) (hfull : ∀ i < set.width, s.putMax d ≤
      (s.now i).putCount d) :
    Even set { s with putMax := Function.update s.putMax d (s.putMax d + set.depth) } := by
  refine ⟨h.windows.shift_put fun i hi => ?_, h.balanced.shift _ _, h.parts⟩
  rw [ledger_put hi]
  exact hfull i hi

theorem Even.shiftGet (h : Even set s) (hl : LevelGet set d (s.shiftGet set d)) :
    Even set (s.shiftGet set d) := by
  refine ⟨h.windows.shift_get fun i hi => ?_, h.balanced.shift _ _, h.parts⟩
  rw [ledger_get hi]
  exact levelGet_shift_iff.1 hl i hi

end Ledger

/-! ### The steps of a stabilization -/

/-- An anchor that is not in place. -/
def Spare (set : Params) (a : ℕ) (s : Memory) :
    Prop := a < s.freshAnchor ∧ ∀ i < set.width, s.anchor i ≠ a

/-- Steps that are none on the items, the counters and the windows. -/
structure Settling (set : Params) (s s' : Memory) : Prop where
  sound : Sound set s'
  unmoved : Unmoved set s s'
  spare : ∀ a, Spare set a s → Spare set a s'

section Steps

variable {set : Params} {s s' s'' : Memory} {c : Caller} {own : Bool} {d : Side}
  {i n a b anchor : ℕ} {x : Anchor}

theorem Unmoved.refl (set : Params) (s : Memory) : Unmoved set s s :=
  ⟨rfl, rfl, rfl, rfl, fun _ _ => rfl, fun _ _ => rfl⟩

theorem Unmoved.trans (h : Unmoved set s s') (h' : Unmoved set s' s'') : Unmoved set s s'' where
  hist := h'.hist.trans h.hist
  place := h'.place.trans h.place
  putMax := h'.putMax.trans h.putMax
  getMax := h'.getMax.trans h.getMax
  put i hi := (h'.put i hi).trans (h.put i hi)
  get i hi := (h'.get i hi).trans (h.get i hi)

/-- The anchors in place are the same. -/
theorem Unmoved.of_now (hhist : s'.hist = s.hist) (hplace : s'.place = s.place)
    (hput : s'.putMax = s.putMax) (hget : s'.getMax = s.getMax)
    (hnow : ∀ i < set.width, s'.now i = s.now i) : Unmoved set s s' :=
  ⟨hhist, hplace, hput, hget, fun i hi => by rw [hnow i hi], fun i hi => by rw [hnow i hi]⟩

theorem Settling.refl (h : Sound set s) : Settling set s s := ⟨h, .refl set s, fun _ h => h⟩

theorem Settling.trans (h : Settling set s s') (h' : Settling set s' s'') : Settling set s s'' :=
  ⟨h'.sound, h.unmoved.trans h'.unmoved, fun a ha => h'.spare a (h.spare a ha)⟩

theorem Sound.live (h : Sound set s) (hi : i < set.width) : s.anchor i < s.freshAnchor := by
  obtain ⟨⟨calls, hinv⟩, -⟩ := h
  exact hinv.shape.used _ (hinv.shape.live i hi)

theorem Settling.createAnchor (h : Sound set s) (h' : Sound set (s.createAnchor c)) :
    Settling set s (s.createAnchor c) := by
  refine ⟨h', .of_now rfl rfl rfl rfl fun i hi => ?_, fun a ha => ⟨ha.1.trans (Nat.lt_succ_self _),
    ha.2⟩⟩
  exact Function.update_of_ne (h.live hi).ne _ _

theorem Settling.writeAnchor (ha : Spare set a s) (h' : Sound set (s.writeAnchor a x)) :
    Settling set s (s.writeAnchor a x) :=
  ⟨h', .of_now rfl rfl rfl rfl fun i hi => Function.update_of_ne (ha.2 i hi) _ _, fun _ hb => hb⟩

/-- The stable anchor has the counters of the one that it replaces. -/
theorem Unmoved.swing (set : Params) (hx : s.anchors a = { s.now i with state := .stable }) :
    Unmoved set s (s.swing i a) ∧ ∀ b, Spare set b s → b ≠ a → Spare set b (s.swing i a) := by
  refine ⟨⟨rfl, rfl, rfl, rfl, fun j hj => ?_, fun j hj => ?_⟩,
    fun b hb hba => ⟨hb.1, fun j hj => ?_⟩⟩
  · by_cases hji : j = i
    · subst hji
      show ((s.putAnchor j a).now j).putCount = _
      rw [now_exchange_self, hx]
    · show ((s.putAnchor i a).now j).putCount = _
      rw [now_exchange_of_ne hji]
  · by_cases hji : j = i
    · subst hji
      show ((s.putAnchor j a).now j).getCount = _
      rw [now_exchange_self, hx]
    · show ((s.putAnchor i a).now j).getCount = _
      rw [now_exchange_of_ne hji]
  · show Function.update s.anchor i a j ≠ b
    by_cases hji : j = i
    · subst hji
      rw [Function.update_self]
      exact hba.symm
    · rw [Function.update_of_ne hji]
      exact hb.2 j hj

end Steps

end TwoDdDeque
