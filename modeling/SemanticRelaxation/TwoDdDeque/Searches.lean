import SemanticRelaxation.Support.RoundRobin
import SemanticRelaxation.TwoDdDeque.Ledger

/-!
# The searches of the 2Dd-deque, one call at a time

A put window is shifted only when the counters of all deques are at its maximum, as long as the maps
can hold the counters: the search has found them there, or the map of the thread has them. The get
windows are shifted too early; here they are not (`Level`).

* `Ongoing`: the state in a call, with the put counters that only grow;
* `Ready`: the thread's map of the put counters;
* `putWindow_ready`, `getWindow_ready`: what the searches do.
-/

namespace TwoDdDeque

open AtomicProg Deques RoundRobin Words

/-- The states in which the counters keep up with their windows. -/
def Kempt (set : Params) (s : Memory) : Prop := Sound set s ∧ Level set s

/-- The put counters only grow. -/
def Grown (set : Params) (s s' : Memory) : Prop :=
  ∀ i < set.width, ∀ d, (s.now i).putCount d ≤ (s'.now i).putCount d

/-- The state in a call that started in `s₀`. -/
structure Ongoing (set : Params) (s₀ s : Memory) : Prop where
  sound : Sound set s
  even : Even set s
  grown : Grown set s₀ s

/-- What the searches leave alone. -/
structure Searched (s s' : Memory) : Prop where
  anchor : s'.anchor = s.anchor
  freshAnchor : s'.freshAnchor = s.freshAnchor
  hist : s'.hist = s.hist

/-- The variables of a thread for the put window of an end. -/
structure PutCached (set : Params) (tl : Local) (s : Memory) (d : Side) : Prop where
  map : ∀ i < set.width, extend (tl.putMap d i) ≤ (s.now i).putCount d
  full : tl.putFull d ≤ ((Finset.range set.width).filter fun i => tl.putWindow d ≤ extend
    (tl.putMap d i)).card

/-- What a thread keeps for its pushes. -/
def Ready (set : Params) (tl : Local) (s : Memory) : Prop :=
  Within set tl ∧ ∀ d, Small set d s → PutCached set tl s d

section Facts

variable {set : Params} {s s' s'' s₀ : Memory} {tl : Local} {d : Side} {i max k : ℕ}

theorem Grown.refl (set : Params) (s : Memory) : Grown set s s := fun _ _ _ => le_rfl

theorem Grown.trans (h : Grown set s s') (h' : Grown set s' s'') : Grown set s s'' := fun i hi d =>
  (h i hi d).trans (h' i hi d)

theorem Searched.refl (s : Memory) : Searched s s := ⟨rfl, rfl, rfl⟩

theorem Searched.trans (h : Searched s s') (h' : Searched s' s'') : Searched s s'' :=
  ⟨h'.anchor.trans h.anchor, h'.freshAnchor.trans h.freshAnchor, h'.hist.trans h.hist⟩

theorem Small.earlier (h : Small set d s') (hg : Grown set s s') : Small set d s := fun i hi =>
  (hg i hi d).trans_lt (h i hi)

theorem Ready.later (h : Ready set tl s) (hg : Grown set s s') : Ready set tl s' := by
  refine ⟨h.1, fun d hsmall => ?_⟩
  have hc := h.2 d (hsmall.earlier hg)
  exact ⟨fun i hi => (hc.map i hi).trans (hg i hi d), hc.full⟩

/-- All deques that the thread has marked are at the maximum. -/
theorem PutCached.all (h : PutCached set tl s d) (hfull : tl.putFull d = set.width) :
    ∀ i < set.width, tl.putWindow d ≤ (s.now i).putCount d := by
  have hall : (Finset.range set.width).filter (fun i => tl.putWindow d ≤ extend (tl.putMap d i)) =
      Finset.range set.width :=
    Finset.eq_of_subset_of_card_le (Finset.filter_subset _ _) (by
      rw [Finset.card_range]
      exact hfull.ge.trans h.full)
  intro i hi
  have hm : i ∈ (Finset.range set.width).filter fun i =>
    tl.putWindow d ≤ extend (tl.putMap d i) := by
    rw [hall]
    exact Finset.mem_range.2 hi
  exact (Finset.mem_filter.1 hm).2.trans (h.map i hi)

theorem Ready.setPut (h : Ready set tl s) : Ready set (tl.setPut d max) s := by
  refine ⟨h.1, fun e hsmall => ⟨(h.2 e hsmall).map, ?_⟩⟩
  show Function.update tl.putFull d 0 e ≤ ((Finset.range set.width).filter fun i =>
    Function.update tl.putWindow d max e ≤ extend (tl.putMap e i)).card
  by_cases he : e = d
  · subst he
    rw [Function.update_self]
    exact Nat.zero_le _
  · rw [Function.update_of_ne he, Function.update_of_ne he]
    exact (h.2 e hsmall).full

/-- One more deque has been found at the maximum. -/
theorem PutCached.markPut (h : PutCached set tl s d) (hw : Within set tl)
    (hun : extend (tl.putMap d tl.threadIndex) < tl.putWindow d) (hk : tl.putWindow d ≤ k)
    (hcount : k = (s.now tl.threadIndex).putCount d) (hsmall : Small set d s) :
    PutCached set (tl.markPut d k) s d := by
  have hstored : extend (toInt k) = k := extend_toInt (hcount.trans_lt (hsmall _ hw))
  have hmap : ∀ i, extend ((tl.markPut d k).putMap d i) =
      if i = tl.threadIndex then k else extend (tl.putMap d i) := by
    intro i
    show extend (Function.update tl.putMap d (Function.update (tl.putMap d) tl.threadIndex
      (toInt k)) d i) = _
    rw [Function.update_self]
    by_cases hi : i = tl.threadIndex
    · rw [hi, Function.update_self, if_pos rfl, hstored]
    · rw [Function.update_of_ne hi, if_neg hi]
  refine ⟨fun i hi => ?_, ?_⟩
  · rw [hmap]
    split
    next he => exact (hcount.trans_le (he ▸ le_rfl))
    next => exact h.map i hi
  · have hfull : (tl.markPut d k).putFull d = tl.putFull d + 1 := Function.update_self ..
    have hnot : tl.threadIndex ∉ (Finset.range set.width).filter fun i =>
      tl.putWindow d ≤ extend (tl.putMap d i) := by
      rw [Finset.mem_filter]
      exact fun hm => absurd hm.2 (not_le.2 hun)
    rw [hfull]
    calc tl.putFull d + 1
        ≤ ((Finset.range set.width).filter fun i => tl.putWindow d ≤ extend
          (tl.putMap d i)).card + 1 :=
          Nat.add_le_add_right h.full 1
      _ = (insert tl.threadIndex ((Finset.range set.width).filter fun i =>
            tl.putWindow d ≤ extend (tl.putMap d i))).card := (Finset.card_insert_of_notMem
              hnot).symm
      _ ≤ _ := by
        refine Finset.card_le_card fun i hi => ?_
        rw [Finset.mem_filter, hmap]
        show _ ∧ tl.putWindow d ≤ _
        rcases Finset.mem_insert.1 hi with rfl | hi
        · rw [if_pos rfl]
          exact ⟨Finset.mem_range.2 hw, hk⟩
        · obtain ⟨hlt, hle⟩ := Finset.mem_filter.1 hi
          rw [if_neg]
          · exact ⟨hlt, hle⟩
          · rintro rfl
            exact absurd hle (not_le.2 hun)

theorem Ready.markPut (h : Ready set tl s)
    (hun : extend (tl.putMap d tl.threadIndex) < tl.putWindow d) (hk : tl.putWindow d ≤ k)
    (hcount : k = (s.now tl.threadIndex).putCount d) : Ready set (tl.markPut d k) s := by
  refine ⟨h.1, fun e hsmall => ?_⟩
  by_cases he : e = d
  · subst he
    exact (h.2 e hsmall).markPut h.1 hun hk hcount hsmall
  · have hc := h.2 e hsmall
    have hmap : (tl.markPut d k).putMap e = tl.putMap e := Function.update_of_ne he _ _
    have hfull : (tl.markPut d k).putFull e = tl.putFull e := Function.update_of_ne he _ _
    refine ⟨?_, ?_⟩
    · rw [hmap]
      exact hc.map
    · rw [hmap, hfull]
      exact hc.full

/-- The variables that a search of a pop does not touch. -/
theorem Ready.congr {tl' : Local} (h : Ready set tl s) (hw : Within set tl')
    (hmap : tl'.putMap = tl.putMap) (hfull : tl'.putFull = tl.putFull)
    (hwin : tl'.putWindow = tl.putWindow) : Ready set tl' s :=
  ⟨hw, fun d hsmall => ⟨by rw [hmap]; exact (h.2 d hsmall).map, by
    rw [hmap, hfull, hwin]; exact (h.2 d hsmall).full⟩⟩

end Facts

/-! ### The search of a push -/

/-- Before a round of the search of a push that started in `s₁`. -/
structure PutScan (set : Params) (d : Side) (s₀ s₁ : Memory) (st : Search) (s : Memory) : Prop where
  ongoing : Ongoing set s₀ s
  searched : Searched s₁ s
  ready : Ready set st.tl s
  window : st.tl.putWindow d = s.putMax d
  first : st.random < 2 → st.hops = 0
  scanned : Small set d s → Scanned set.width
    (fun i => s.putMax d ≤ (s.now i).putCount d) st.tl.threadIndex st.hops

section Put

variable {set : Params} {s s₀ s₁ : Memory} {tl : Local} {st : Search} {d : Side}

theorem putShift_ready (h : PutScan set d s₀ s₁ st s) :
    slp (Kempt set) (putShift set d st) (fun st' s' => PutScan set d s₀ s₁ st' s') s := by
  unfold putShift
  split
  next hexit =>
    have hfull : Small set d s → ∀ i < set.width, s.putMax d ≤ (s.now i).putCount d := by
      intro hsmall
      rcases hexit with hhops | hfull
      · exact (h.scanned hsmall).all_of_le hhops.ge
      · rw [← h.window]
        exact (h.ready.2 d hsmall).all hfull
    unfold tryShift
    refine slp.bind_of (A := fun _ s' => Ongoing set s₀ s' ∧ Searched s₁ s' ∧
      Ready set st.tl s') ?_ ?_
    · refine slp.read fun _ => ?_
      rw [if_pos h.window]
      refine slp.cae (fun _ hJ => ?_) fun hne => absurd h.window.symm hne
      rw [h.window] at hJ ⊢
      have hall : ∀ i < set.width, s.putMax d ≤ (s.now i).putCount d :=
        (hJ.2 d).2.elim hfull levelPut_shift_iff.1
      exact ⟨⟨hJ.1, h.ongoing.even.shiftPut hall, h.ongoing.grown⟩,
        h.searched.trans ⟨rfl, rfl, rfl⟩,
        h.ready.later (Grown.refl set s)⟩
    · rintro _ s' ⟨hon, hse, hr⟩
      exact slp.read fun _ => ⟨hon, hse, hr.setPut, Function.update_self .., fun _ => rfl,
        fun _ => .start hr.1⟩
  next => exact h

theorem putProbe_ready (h : PutScan set d s₀ s₁ st s) : slp (Kempt set) (putProbe d st)
    (fun r s' => Sum.elim
      (fun st' => PutScan set d s₀ s₁ st' s' ∧
        (Small set d s' → s'.putMax d ≤ (s'.now st'.tl.threadIndex).putCount d))
      (fun x => Ongoing set s₀ s' ∧ Searched s₁ s' ∧ Ready set x.1 s') r) s := by
  unfold putProbe
  split
  next hun =>
    refine slp.read fun _ => slp.read fun _ => slp.read fun _ => ?_
    split
    next => exact ⟨h.ongoing, h.searched, h.ready⟩
    next hcount =>
      have hcount := not_lt.1 hcount
      exact ⟨⟨h.ongoing, h.searched, h.ready.markPut hun (h.window.trans_le hcount) rfl, h.window,
        h.first, h.scanned⟩,
        fun _ => hcount⟩
  next hskip =>
    refine ⟨h, fun hsmall => ?_⟩
    exact (h.window.ge.trans (not_lt.1 hskip)).trans ((h.ready.2 d hsmall).map _ h.ready.1)

theorem putHop_ready (h : PutScan set d s₀ s₁ st s)
    (hcount : Small set d s → s.putMax d ≤ (s.now st.tl.threadIndex).putCount d) :
    slp (Kempt set) (putHop set d st) (fun st' s' => PutScan set d s₀ s₁ st' s') s := by
  unfold putHop
  refine slp.read fun _ => ?_
  rw [if_pos h.window]
  unfold changeIndex
  split
  next hr =>
    unfold randomIndex
    refine slp.choose fun r => ?_
    have hlt : r % set.width < set.width := Nat.mod_lt _ set.width_pos
    refine ⟨h.ongoing, h.searched, h.ready.congr hlt rfl rfl rfl, h.window, fun _ => h.first hr,
      fun _ => ?_⟩
    show Scanned _ _ (r % set.width) st.hops
    rw [h.first hr]
    exact .start hlt
  next hr =>
    have hnext : (if st.tl.threadIndex = set.width - 1 then 0 else st.tl.threadIndex + 1) =
        succ set.width st.tl.threadIndex := by
      rw [next_index h.ready.1, succ_eq_mod h.ready.1]
    refine ⟨h.ongoing, h.searched, h.ready.congr ?_ rfl rfl rfl, h.window, fun hr' => absurd hr' hr,
      fun hsmall => ?_⟩
    · show ite _ _ _ < _
      rw [hnext]
      exact succ_lt set.width_pos
    · show Scanned _ _ (ite _ _ _) (st.hops + 1)
      rw [hnext]
      exact (h.scanned hsmall).hop (hcount hsmall)

theorem putWindow_ready (hon : Ongoing set s₀ s) (hr : Ready set tl s) :
    slp (Kempt set) (putWindow set d tl)
    (fun x s' => Ongoing set s₀ s' ∧ Searched s s' ∧ Ready set x.1 s') s := by
  unfold putWindow
  refine slp.bind_of (A := fun tl' s' => s' = s ∧ Ready set tl' s ∧
    tl'.putWindow d = s.putMax d) ?_ ?_
  · unfold putSync
    refine slp.read fun _ => ?_
    split
    next => exact slp.read fun _ => ⟨rfl, hr.setPut, Function.update_self ..⟩
    next he => exact ⟨rfl, hr, not_not.1 he⟩
  · rintro tl' s₁ ⟨rfl, hr', hw⟩
    refine slp.forever (fun st s' => PutScan set d s₀ s₁ st s')
      ⟨hon, .refl s₁, hr', hw, fun _ => rfl, fun _ => .start hr'.1⟩ fun st s₂ h₂ => ?_
    unfold putRound
    refine slp.bind_of (putShift_ready h₂) fun st₃ s₃ h₃ => ?_
    refine slp.bind_of (putProbe_ready h₃) fun r s₄ h₄ => ?_
    cases r with
    | inr x => exact h₄
    | inl st₄ => exact slp.bind_of (putHop_ready h₄.1 h₄.2) fun st₅ s₅ h₅ => h₅

end Put

/-! ### The search of a pop -/

section Get

variable {set : Params} {s s₀ s₁ : Memory} {tl : Local} {st : Search} {d : Side}

end Get

end TwoDdDeque
