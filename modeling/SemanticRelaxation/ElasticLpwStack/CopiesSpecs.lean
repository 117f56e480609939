import SemanticRelaxation.ElasticLpwStack.Copies

/-!
# Copies of the elastic LpW window

Each part of a call that begins with a copy of the window ends with one (`putWindow_spec`,
`getWindow_spec`), so that the calls keep to the regime of the window (`copies_obligations`).
-/

namespace ElasticLpwStack

namespace Copies

open AtomicProg Versioned

/-- The exchange of the window is counted. -/
theorem window_lawful : window.Lawful := ⟨fun _ _ => rfl, fun _ _ => rfl⟩

variable {set : Params} {E : Results (object set).service (window.regime Call)} {c : Caller}
  {v : View E.protocol c} {tl : Local} {x : Copied Window}

/-! ### The parts of the loops -/

theorem shiftWindow_spec (h : window.Holds x v.state.1) (newMax : ℕ → ℕ) :
    wp E.protocol c (shiftWindow x newMax) (fun x' v' => Kept v x' v') v := by
  refine wp.bind_of (quiet_spec (steps_synchronizeLateral _)) fun _ v₁ h₁ => ?_
  refine wp.bind_of (quiet_spec steps_readSet) fun r v₂ h₂ => ?_
  refine wp.bind_of (quiet_spec (steps_assert _)) fun _ v₃ h₃ => ?_
  have hk₃ : Kept v x v₃ := .of_since h ((h₁.trans h₂).trans h₃)
  refine wp.bind_of (check_spec hk₃.holds) fun version v₄ h₄ => ?_
  have hk₄ : Kept v x v₄ := hk₃.trans (.of_since hk₃.holds h₄)
  split
  · refine wp.bind_of (exchange_spec window_lawful rfl) ?_
    rintro r v₅ ⟨h₅, hr⟩
    cases r with
    | some copy =>
      obtain ⟨hnew, hcopy⟩ := hr copy rfl
      exact hk₄.trans ⟨h₅, hnew ▸ hcopy⟩
    | none => exact load_spec.mono fun x' v₆ h₆ => hk₄.trans (h₆.after h₅)
  · exact hk₄

theorem syncPutWindow_spec (h : window.Holds tl.copy v.state.1) :
    wp E.protocol c (syncPutWindow tl) (fun tl' v' => Kept v tl'.copy v') v := by
  refine wp.bind_of (check_spec h) fun version v₁ h₁ => ?_
  split
  · exact wp.bind_of load_spec fun x' v₂ h₂ => h₂.after h₁
  · exact .of_since h h₁

theorem syncGetWindow_spec (h : window.Holds tl.copy v.state.1) :
    wp E.protocol c (syncGetWindow tl) (fun tl' v' => Kept v tl'.copy v') v := by
  refine wp.bind_of (check_spec h) fun version v₁ h₁ => ?_
  split
  · exact wp.bind_of load_spec fun x' v₂ h₂ => h₂.after h₁
  · exact .of_since h h₁

theorem enterPut_spec {contention : Bool} (h : window.Holds tl.copy v.state.1) :
    wp E.protocol c (enterPut contention tl) (fun tl' v' => Kept v tl'.copy v') v := by
  refine wp.bind_of (syncPutWindow_spec h) fun tl' v₁ h₁ => ?_
  split
  · refine wp.bind_of (quiet_spec (steps_randomIndex _)) fun index v₂ h₂ => ?_
    exact h₁.trans (.of_since h₁.holds h₂)
  · exact h₁

theorem enterGet_spec {contention : Bool} (h : window.Holds tl.copy v.state.1) :
    wp E.protocol c (enterGet contention tl) (fun tl' v' => Kept v tl'.copy v') v := by
  refine wp.bind_of (syncGetWindow_spec h) fun tl' v₁ h₁ => ?_
  split
  · refine wp.bind_of (quiet_spec (steps_randomIndex _)) fun index v₂ h₂ => ?_
    exact h₁.trans (.of_since h₁.holds h₂)
  · exact h₁

/-! ### The two searches -/

/-- The copy that a round of a search ends with. -/
abbrev searched (r : Search ⊕ (Descriptor × Local)) : Copied Window :=
  Sum.elim (fun st => st.tl.copy) (fun a => a.2.copy) r

theorem putRound_spec {st : Search} (h : window.Holds st.tl.copy v.state.1) :
    wp E.protocol c (putRound set st) (fun r v' => Kept v (searched r) v') v := by
  refine wp.bind_of (quiet_spec (steps_readDescriptor _)) fun descriptor v₁ h₁ => ?_
  have hk₁ : Kept v st.tl.copy v₁ := .of_since h h₁
  refine wp.bind_of (check_spec hk₁.holds) fun version v₂ h₂ => ?_
  have hk₂ : Kept v st.tl.copy v₂ := hk₁.trans (.of_since hk₁.holds h₂)
  split
  · exact wp.bind_of load_spec fun x' v₃ h₃ => hk₂.trans h₃
  · split
    · exact hk₂
    · split
      · refine wp.bind_of (quiet_spec (steps_hop _ _ _ _)) fun r v₃ h₃ => ?_
        exact hk₂.trans (.of_since hk₂.holds h₃)
      · exact wp.bind_of (shiftWindow_spec hk₂.holds _) fun x' v₃ h₃ => hk₂.trans h₃

theorem getRound_spec {st : Search} (h : window.Holds st.tl.copy v.state.1) :
    wp E.protocol c (getRound set st) (fun r v' => Kept v (searched r) v') v := by
  refine wp.bind_of (quiet_spec (steps_readDescriptor _)) fun descriptor v₁ h₁ => ?_
  have hk₁ : Kept v st.tl.copy v₁ := .of_since h h₁
  refine wp.bind_of (check_spec hk₁.holds) fun version v₂ h₂ => ?_
  have hk₂ : Kept v st.tl.copy v₂ := hk₁.trans (.of_since hk₁.holds h₂)
  split
  · exact wp.bind_of load_spec fun x' v₃ h₃ => hk₂.trans h₃
  · split
    · exact hk₂
    · split
      · refine wp.bind_of (quiet_spec (steps_hop _ _ _ _)) fun r v₃ h₃ => ?_
        exact hk₂.trans (.of_since hk₂.holds h₃)
      · split
        · exact hk₂
        · exact wp.bind_of (shiftWindow_spec hk₂.holds _) fun x' v₃ h₃ => hk₂.trans h₃

theorem putWindow_spec {contention : Bool} (h : window.Holds tl.copy v.state.1) :
    wp E.protocol c (putWindow set contention tl) (fun a v' => Kept v a.2.copy v') v := by
  refine wp.bind_of (enterPut_spec h) fun tl' v₁ h₁ => ?_
  refine (kept_forever (fun st : Search => st.tl.copy)
    (fun a : Descriptor × Local => a.2.copy) h₁.holds
    fun st v' h' => putRound_spec h').mono fun a v₂ h₂ => h₁.trans h₂

theorem getWindow_spec {contention : Bool} (h : window.Holds tl.copy v.state.1) :
    wp E.protocol c (getWindow set contention tl) (fun a v' => Kept v a.2.copy v') v := by
  refine wp.bind_of (enterGet_spec h) fun tl' v₁ h₁ => ?_
  refine wp.bind_of (kept_forever (fun st : Search => st.tl.copy)
    (fun a : Descriptor × Local => a.2.copy) h₁.holds fun st v' h' =>
    getRound_spec h') fun a v₂ h₂ => ?_
  exact h₁.trans h₂

/-! ### The calls -/

theorem push_spec (h : window.Holds tl.copy v.state.1) (val : ℤ) :
    wp E.protocol c (push set val tl) (fun r v' => Kept v r.1.copy v') v := by
  refine wp.bind_of (quiet_spec (.update fun _ => ⟨rfl, rfl⟩)) fun newNode v₁ h₁ => ?_
  have hk₁ : Kept v tl.copy v₁ := .of_since h h₁
  refine (kept_forever (fun b : Bool × Local => b.2.copy) (fun r : Local × ℤ => r.1.copy) hk₁.holds
    fun b v₂ h₂ => ?_).mono fun r v₂ h₂ => hk₁.trans h₂
  refine wp.bind_of (putWindow_spec h₂) fun r v₃ h₃ => ?_
  refine wp.bind_of (quiet_spec (steps_setNext _ _)) fun _ v₄ h₄ => ?_
  refine wp.bind_of (quiet_spec (steps_stackCae _ _ _ _)) fun done v₅ h₅ => ?_
  have hk₅ : Kept v₂ r.2.copy v₅ := h₃.trans (.of_since h₃.holds (h₄.trans h₅))
  cases done with
  | true => exact hk₅
  | false => exact hk₅

theorem pop_spec (h : window.Holds tl.copy v.state.1) :
    wp E.protocol c (pop set tl) (fun r v' => Kept v r.1.copy v') v := by
  refine kept_forever (fun b : Bool × Local => b.2.copy) (fun r : Local × Option ℤ => r.1.copy) h
    fun b v₂ h₂ => ?_
  refine wp.bind_of (getWindow_spec h₂) fun r v₃ h₃ => ?_
  have hk₃ : Kept v₂ r.2.copy v₃ := h₃
  dsimp only
  split
  · refine wp.read fun v₄ h₄ => wp.read fun v₅ h₅ => ?_
    refine wp.bind_of (quiet_spec (steps_stackCae _ _ _ _)) fun done v₆ h₆ => ?_
    have hk₆ : Kept v₂ r.2.copy v₆ :=
      hk₃.trans (.of_since hk₃.holds ((Since.of_le (h₄.trans h₅)).trans h₆))
    cases done with
    | true => exact wp.read fun v₇ h₇ => hk₆.trans (.of_since hk₆.holds (.of_le h₇))
    | false => exact hk₆
  · exact hk₃

/-- The version begins with 1, that of a thread which has not read the window with 0. -/
theorem copies_obligations (width depth : ℕ) :
    Obligations (.trivial (object set).service (window.regime Call)) (fun _ => True)
      (fun _ l x => window.Holds l.copy x.1.1) (fun _ _ x v => window.Holds x.1.copy v.state.1)
      (initial set width depth, {}) () .zero where
  init := ⟨rfl, rfl⟩
  init_fresh _ := True.intro
  init_loc _ := .zero rfl (Nat.succ_pos _)
  loc_later _ _ _ _ _ _ _ _ hk h := h.later hk
  post_stable _ _ _ _ _ h hp := hp.later (Since.of_le h).frame
  code t op call l v _ _ _ hl _ := by
    cases call with
    | push val => exact wp.bind_of (push_spec hl val) fun _ _ h => h.holds
    | pop => exact (pop_spec hl).mono fun _ _ h => h.holds
    | updateWidth w =>
      exact wp.bind_of (quiet_spec (steps_updateWidth w)) fun _ _ h => hl.later h.frame
    | updateDepth d =>
      exact wp.bind_of (quiet_spec (steps_updateDepth d)) fun _ _ h => hl.later h.frame
  finish _ _ _ _ _ h := ⟨fun _ _ => True.intro, h⟩

end Copies

end ElasticLpwStack
