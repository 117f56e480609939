import SemanticRelaxation.TwoDdDeque.Round
import Mathlib.Data.Finset.Card
import Mathlib.Data.Finset.Range

/-!
# The 2Dd-deque, one call at a time

What the thread-local variables of the get windows say between the calls, and in the search of a pop
when no other thread moves.

* `Cached`: the map holds what an `int` keeps of counters up to the maximum of the window, and as
  long as that is enough for a deque to be skipped, the full counter counts deques that are skipped;
* `Sound`: the states that the pools reach;
* `Tidy.round`: the rounds of a search keep the variables in order.
-/

namespace TwoDdDeque

open AtomicProg Deques RoundRobin Words

/-- What the map keeps of a counter, as it is compared with the maximum of the window. -/
def stored (count : ℕ) : ℕ := extend (toInt count)

/-- All deques are empty after the history. -/
def AllEmpty (set : Params) (hist : List Event) : Prop := ∀ i < set.width, content hist i = some []

/-- The variables of a thread for the get window of an end. -/
structure Cached (set : Params) (tl : Local) (s : Memory) (d : Side) : Prop where
  window : tl.getWindow d ≤ s.getMax d
  map : ∀ i, ∃ c ≤ tl.getWindow d, tl.getMap d i = toInt c
  full_le : tl.getFull d ≤ set.width
  full : tl.getWindow d ≤ stored (tl.getWindow d) →
    tl.getFull d ≤ ((Finset.range set.width).filter fun i => tl.getWindow d ≤ tl.mark d i).card

/-- What a thread keeps from one call to the next. -/
def Tidy (set : Params) (tl : Local) (s : Memory) : Prop := Within set tl ∧ ∀ d, Cached set tl s d

/-- The states that the pools reach. -/
def Sound (set : Params) (s : Memory) :
    Prop := (∃ calls, Inv set calls s) ∧ ∀ d, set.depth ≤ s.getMax d

section Facts

variable {set : Params} {s s' : Memory} {tl tl' : Local} {d e : Side} {i max k : ℕ}

theorem stored_of_lt (h : k < 2 ^ 31) : stored k = k := extend_toInt h

theorem Sound.ends (h : Sound set s) (hi : i < set.width) :
    (s.now i).ends d = none ↔ content s.hist i = some [] := by
  obtain ⟨⟨calls, hinv⟩, -⟩ := h
  obtain ⟨xs, hxs, hl⟩ := hinv.shape.deques i hi
  rw [hl.ends d, hxs, List.head?_eq_none_iff, Option.some.injEq, ← List.length_eq_zero_iff,
    Side.length_look,
    List.length_eq_zero_iff]

theorem Sound.count (h : Sound set s) (hi : i < set.width) : (s.now i).getCount d ≤ s.getMax d := by
  obtain ⟨⟨calls, hinv⟩, -⟩ := h
  exact hinv.counts.get i hi d

theorem Sound.shiftGet (h : Sound set s) : Sound set (s.shiftGet set d) := by
  obtain ⟨⟨calls, hinv⟩, hdepth⟩ := h
  exact ⟨⟨calls, hinv.setGetMax (Nat.le_add_right _ _)⟩,
    fun e => (hdepth e).trans (max_le_shiftGet e)⟩

theorem Cached.later (h : Cached set tl s d) (hmax : s.getMax d ≤ s'.getMax d) :
    Cached set tl s' d :=
  ⟨h.window.trans hmax, h.map, h.full_le, h.full⟩

theorem Tidy.later (h : Tidy set tl s) (hmax : ∀ d, s.getMax d ≤ s'.getMax d) : Tidy set tl s' :=
  ⟨h.1, fun d => (h.2 d).later (hmax d)⟩

/-- The variables that a change leaves alone. -/
theorem Tidy.congr (h : Tidy set tl s) (hw : Within set tl') (hwin : tl'.getWindow = tl.getWindow)
    (hmap : tl'.getMap = tl.getMap) (hfull : tl'.getFull = tl.getFull) : Tidy set tl' s := by
  refine ⟨hw, fun d => ?_⟩
  obtain ⟨h₁, h₂, h₃, h₄⟩ := h.2 d
  unfold Local.mark at h₄
  refine ⟨?_, ?_, ?_, ?_⟩
  · rw [hwin]
    exact h₁
  · rw [hwin, hmap]
    exact h₂
  · rw [hfull]
    exact h₃
  · unfold Local.mark
    rw [hwin, hmap, hfull]
    exact h₄

/-- The variables of the other end. -/
theorem Cached.congr (h : Cached set tl s e) (hwin : tl'.getWindow e = tl.getWindow e)
    (hmap : tl'.getMap e = tl.getMap e) (hfull : tl'.getFull e = tl.getFull e) :
    Cached set tl' s e := by
  obtain ⟨h₁, h₂, h₃, h₄⟩ := h
  unfold Local.mark at h₄
  refine ⟨?_, ?_, ?_, ?_⟩
  · rw [hwin]
    exact h₁
  · rw [hwin, hmap]
    exact h₂
  · rw [hfull]
    exact h₃
  · unfold Local.mark
    rw [hwin, hmap, hfull]
    exact h₄

/-- The variables after the thread has followed the window: no deque has been counted. -/
theorem Tidy.setGet (h : Tidy set tl s) (hlt : tl.getWindow d ≤ max) (hle : max ≤ s.getMax d) :
    Tidy set (tl.setGet d max) s := by
  refine ⟨h.1, fun e => ?_⟩
  by_cases he : e = d
  · subst he
    have hwin : (tl.setGet e max).getWindow e = max := Function.update_self ..
    have hfull : (tl.setGet e max).getFull e = 0 := Function.update_self ..
    refine ⟨hwin.trans_le hle, fun i => ?_, ?_, fun _ => ?_⟩
    · obtain ⟨c, hc, hm⟩ := (h.2 e).map i
      exact ⟨c, (hc.trans hlt).trans hwin.ge, hm⟩
    · rw [hfull]
      exact Nat.zero_le _
    · rw [hfull]
      exact Nat.zero_le _
  · exact (h.2 e).congr (Function.update_of_ne he _ _) rfl (Function.update_of_ne he _ _)

/-- The variables after the thread has found one more deque at the maximum. -/
theorem Tidy.markGet (h : Tidy set tl s) (hlook : tl.mark d tl.threadIndex < tl.getWindow d)
    (hk : k = tl.getWindow d) (hfull : tl.getFull d < set.width) : Tidy set (tl.markGet d k) s := by
  refine ⟨h.1, fun e => ?_⟩
  by_cases he : e = d
  · subst he
    have hf : (tl.markGet e k).getFull e = tl.getFull e + 1 := Function.update_self ..
    refine ⟨(h.2 e).window, fun i => ?_, hf.trans_le hfull, fun hkept => ?_⟩
    · show ∃ c ≤ tl.getWindow e,
        Function.update tl.getMap e (Function.update (tl.getMap e) tl.threadIndex _) e i = _
      rw [Function.update_self]
      by_cases hi : i = tl.threadIndex
      · rw [hi, Function.update_self]
        exact ⟨k, hk.le, rfl⟩
      · rw [Function.update_of_ne hi]
        exact (h.2 e).map i
    · rw [hf]
      have hnot : tl.threadIndex ∉ (Finset.range set.width).filter fun i =>
        tl.getWindow e ≤ tl.mark e i := by
        rw [Finset.mem_filter]
        exact fun hm => absurd hm.2 (not_le.2 hlook)
      calc tl.getFull e + 1
          ≤ ((Finset.range set.width).filter fun i => tl.getWindow e ≤ tl.mark e i).card + 1 :=
            Nat.add_le_add_right ((h.2 e).full hkept) 1
        _ = (insert tl.threadIndex ((Finset.range set.width).filter fun i =>
              tl.getWindow e ≤ tl.mark e i)).card := (Finset.card_insert_of_notMem hnot).symm
        _ ≤ _ := by
          refine Finset.card_le_card fun i hi => ?_
          rw [Finset.mem_filter, mark_markGet]
          show _ ∧ tl.getWindow e ≤ _
          rcases Finset.mem_insert.1 hi with rfl | hi
          · rw [if_pos rfl, hk]
            exact ⟨Finset.mem_range.2 h.1, hkept⟩
          · obtain ⟨hlt, hle⟩ := Finset.mem_filter.1 hi
            rw [if_neg]
            · exact ⟨hlt, hle⟩
            · rintro rfl
              exact absurd hle (not_le.2 hlook)
  · exact (h.2 e).congr rfl (Function.update_of_ne he _ _) (Function.update_of_ne he _ _)

/-- All deques are skipped when the full counter has come to the width. -/
theorem Cached.all_skipped (h : Cached set tl s d) (hkept : tl.getWindow d ≤ stored
      (tl.getWindow d))
    (hfull : tl.getFull d = set.width) (hi : i < set.width) : tl.getWindow d ≤ tl.mark d i := by
  have hall : (Finset.range set.width).filter (fun i => tl.getWindow d ≤ tl.mark d i) =
    Finset.range set.width :=
    Finset.eq_of_subset_of_card_le (Finset.filter_subset _ _) (by
      rw [Finset.card_range]
      exact hfull.ge.trans (h.full hkept))
  have hm : i ∈ (Finset.range set.width).filter fun i => tl.getWindow d ≤ tl.mark d i := by
    rw [hall]
    exact Finset.mem_range.2 hi
  exact (Finset.mem_filter.1 hm).2

/-- An entry is a counter that fits into an `int`, or a number that no window comes to. -/
theorem Cached.mark_cases (h : Cached set tl s d) (i : ℕ) :
    tl.mark d i < 2 ^ 31 ∧ tl.mark d i ≤ tl.getWindow d ∨ 2 ^ 63 ≤ tl.mark d i := by
  obtain ⟨c, hc, hm⟩ := h.map i
  unfold Local.mark
  rw [hm]
  exact (extend_toInt_cases c).imp_left fun h => ⟨h.1, h.2.trans hc⟩

end Facts

/-! ### Pushes leave the variables of the get windows alone -/

/-- The variables of the get windows are the same. -/
structure SameGet (set : Params) (tl tl' : Local) : Prop where
  within : Within set tl'
  window : tl'.getWindow = tl.getWindow
  map : tl'.getMap = tl.getMap
  full : tl'.getFull = tl.getFull

section Pushes

variable {set : Params} {J : Memory → Prop} {s s' : Memory} {c : Caller} {tl tl' : Local}
  {st : Search} {d : Side}

theorem SameGet.tidy (h : SameGet set tl tl') (ht : Tidy set tl s) : Tidy set tl' s :=
  ht.congr h.within h.window h.map h.full

theorem SameGet.trans {tl₁ tl₂ tl₃ : Local} (h : SameGet set tl₁ tl₂) (h' : SameGet set tl₂ tl₃) :
    SameGet set tl₁ tl₃ :=
  ⟨h'.within, h'.window.trans h.window, h'.map.trans h.map, h'.full.trans h.full⟩

end Pushes

/-! ### The search of a pop -/

section Rounds

variable {set : Params} {s s' : Memory} {tl : Local} {st st' : Search} {d : Side} {r : ℕ}

theorem Tidy.sync (h : Tidy set tl s) : Tidy set (tl.sync d (s.getMax d)) s := by
  unfold Local.sync
  split
  · exact h.setGet (h.2 d).window le_rfl
  · exact h

theorem Begins.hist (h : Begins set d st s st' s') : s'.hist = s.hist := by
  cases h with
  | keep => rfl
  | shift => rfl

theorem Tidy.looked (h : Tidy set st.tl s) (hs : Sound set s)
    (hwin : st.tl.getWindow d = s.getMax d) (hfull : st.tl.getFull d < set.width) :
    Tidy set (st.looked d s).tl s := by
  by_cases hlook : st.Looks d
  · rcases lt_or_ge ((s.now st.tl.threadIndex).getCount d) (s.getMax d) with hcount | hcount
    · rw [looked_of_lt hlook hcount]
      exact h
    · rw [looked_of_le hlook hcount]
      exact h.markGet hlook ((le_antisymm (hs.count h.1) hcount).trans hwin.symm) hfull
  · rw [looked_skip hlook]
    exact h

theorem Tidy.hopped (h : Tidy set st.tl s) (hs : Sound set s)
    (hwin : st.tl.getWindow d = s.getMax d) (hfull : st.tl.getFull d < set.width) :
    Tidy set (st.hopped set d s r).tl s := by
  have hl := h.looked hs hwin hfull
  have hm : Tidy set ((st.looked d s).moved set r).tl s := by
    unfold Search.moved
    split
    · exact hl.congr (Nat.mod_lt _ set.width_pos) rfl rfl rfl
    · refine hl.congr ?_ rfl rfl rfl
      show ite _ _ _ < _
      rw [next_index hl.1]
      exact Nat.mod_lt _ set.width_pos
  unfold Search.hopped Search.noted
  split
  · exact hm.congr hm.1 rfl rfl rfl
  · exact hm

end Rounds

end TwoDdDeque
