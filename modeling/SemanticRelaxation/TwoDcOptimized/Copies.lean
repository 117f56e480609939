import SemanticRelaxation.TwoDcOptimized.Stack

/-!
# Copies of the optimized 2Dc window

Each part of a call that begins with a copy of the window ends with one (`putWindow_spec`,
`getWindow_spec`), so that the calls keep to the regime of the window (`obligations`).
-/

namespace TwoDcOptimized

open AtomicProg Treiber Versions Versioned

/-- The exchange of the window is counted. -/
theorem window_lawful : window.Lawful := ⟨fun _ _ => rfl, fun _ _ => rfl⟩

variable {set : Params} {E : Results (object set).service (window.regime Call)} {c : Caller}
  {v : View E.protocol c} {tl : Local}

/-- The thread's window is a copy of the global one. -/
abbrev Knows (tl : Local) (v : View E.protocol c) : Prop := window.Holds tl.copy v.state.1

/-! ### The parts of the loops -/

theorem choose_spec {α : Type} {p : Prog State α} (h : p.Steps fun s s' => s' = s) :
    wp E.protocol c p (fun _ v' => Since v v') v := by
  refine wp.of_steps h (fun calls x s hs hi => ?_) fun o x s hs => ?_
  · rw [hs]
    exact hi
  · rw [hs]
    exact .refl _

theorem steps_randomIndex (ty : TwoD.Types) (width : ℕ) :
    (TwoD.randomIndex ty width : Prog State ℕ).Steps fun s s' => s' = s :=
  .bind (.choose fun _ => rfl) fun _ => True.intro

theorem steps_hop (ty : TwoD.Types) (randomHops width index random hops : ℕ) :
    (TwoD.hop ty randomHops width index random hops : Prog State _).Steps fun s s' => s' = s := by
  unfold TwoD.hop
  split
  · exact .bind (steps_randomIndex _ _) fun _ => True.intro
  · exact True.intro

theorem steps_readDescriptor (idx : ℕ) : (readDescriptor idx).Steps fun s s' => s' = s :=
  .bind (.read (R := fun s s' => s' = s) (fun _ => rfl) _) fun _ =>
    .bind (.read (R := fun s s' => s' = s) (fun _ => rfl) _) fun _ => True.intro

theorem assert_spec (b : Bool) : wp E.protocol c (assert b) (fun _ v' => Since v v') v := by
  refine quiet_spec ?_
  unfold Prog.assert
  split
  · exact True.intro
  · exact .update fun _ => ⟨rfl, rfl⟩

theorem readWindow_spec : wp E.protocol c (readWindow tl) (fun tl' v' => Kept v tl'.copy v') v :=
  wp.bind_of load_spec fun _ _ h => h

theorem syncWindow_spec (h : Knows tl v) :
    wp E.protocol c (syncWindow tl) (fun tl' v' => Kept v tl'.copy v') v := by
  refine wp.bind_of (check_spec h) fun version v₁ h₁ => ?_
  split
  · exact readWindow_spec.mono fun tl' v₂ h₂ => h₂.after h₁
  · exact .of_since h h₁

theorem enter_spec {contention : Bool} (h : Knows tl v) :
    wp E.protocol c (enter set contention tl) (fun tl' v' => Kept v tl'.copy v') v := by
  refine wp.bind_of (syncWindow_spec h) fun tl' v₁ h₁ => ?_
  split
  · refine wp.bind_of (choose_spec (steps_randomIndex _ _)) fun index v₂ h₂ => ?_
    exact h₁.trans (.of_since h₁.holds h₂)
  · exact h₁

theorem tryShift_spec (h : Knows tl v) (max : ℕ) :
    wp E.protocol c (tryShift tl max) (fun tl' v' => Kept v tl'.copy v') v := by
  refine wp.bind_of (check_spec h) fun version v₁ h₁ => ?_
  split
  · refine wp.bind_of (exchange_spec window_lawful rfl) ?_
    rintro r v₂ ⟨h₂, hr⟩
    cases r with
    | some copy => exact ⟨h₁.trans h₂, (hr copy rfl).2⟩
    | none => exact readWindow_spec.mono fun tl' v₃ h₃ => h₃.after (h₁.trans h₂)
  · exact .of_since h h₁

/-! ### The two searches -/

/-- The copy that a round of a search ends with. -/
abbrev searched (r : Search ⊕ (Descriptor × Local)) : Copied Window :=
  Sum.elim (fun st => st.tl.copy) (fun a => a.2.copy) r

theorem putRound_spec {st : Search} (h : Knows st.tl v) :
    wp E.protocol c (putRound set st) (fun r v' => Kept v (searched r) v') v := by
  refine wp.bind_of (choose_spec (steps_readDescriptor _)) fun descriptor v₁ h₁ => ?_
  have hk₁ : Kept v st.tl.copy v₁ := .of_since h h₁
  refine wp.bind_of (check_spec hk₁.holds) fun version v₂ h₂ => ?_
  have hk₂ : Kept v st.tl.copy v₂ := hk₁.trans (.of_since hk₁.holds h₂)
  split
  · exact wp.bind_of readWindow_spec fun tl v₃ h₃ => hk₂.trans h₃
  · split
    · exact hk₂
    · split
      · refine wp.bind_of (choose_spec (steps_hop _ _ _ _ _ _)) fun r v₃ h₃ => ?_
        exact hk₂.trans (.of_since hk₂.holds h₃)
      · exact wp.bind_of (tryShift_spec hk₂.holds _) fun tl v₃ h₃ => hk₂.trans h₃

theorem getRound_spec {st : Search} (h : Knows st.tl v) :
    wp E.protocol c (getRound set st) (fun r v' => Kept v (searched r) v') v := by
  refine wp.bind_of (choose_spec (steps_readDescriptor _)) fun descriptor v₁ h₁ => ?_
  have hk₁ : Kept v st.tl.copy v₁ := .of_since h h₁
  refine wp.bind_of (check_spec hk₁.holds) fun version v₂ h₂ => ?_
  have hk₂ : Kept v st.tl.copy v₂ := hk₁.trans (.of_since hk₁.holds h₂)
  split
  · exact wp.bind_of readWindow_spec fun tl v₃ h₃ => hk₂.trans h₃
  · split
    · exact hk₂
    · split
      · refine wp.bind_of (choose_spec (steps_hop _ _ _ _ _ _)) fun r v₃ h₃ => ?_
        exact hk₂.trans (.of_since hk₂.holds h₃)
      · split
        · exact hk₂
        · refine wp.bind_of (assert_spec _) fun _ v₃ h₃ => ?_
          have hk₃ : Kept v st.tl.copy v₃ := hk₂.trans (.of_since hk₂.holds h₃)
          exact wp.bind_of (tryShift_spec hk₃.holds _) fun tl v₄ h₄ => hk₃.trans h₄

theorem putWindow_spec {contention : Bool} (h : Knows tl v) :
    wp E.protocol c (putWindow set contention tl) (fun a v' => Kept v a.2.copy v') v := by
  refine wp.bind_of (enter_spec h) fun tl' v₁ h₁ => ?_
  refine (kept_forever (fun st : Search => st.tl.copy)
    (fun a : Descriptor × Local => a.2.copy) h₁.holds
    fun st v' h' => putRound_spec h').mono fun a v₂ h₂ => h₁.trans h₂

theorem getWindow_spec {contention : Bool} (h : Knows tl v) :
    wp E.protocol c (getWindow set contention tl) (fun a v' => Kept v a.2.copy v') v := by
  refine wp.bind_of (enter_spec h) fun tl' v₁ h₁ => ?_
  refine (kept_forever (fun st : Search => st.tl.copy)
    (fun a : Descriptor × Local => a.2.copy) h₁.holds
    fun st v' h' => getRound_spec h').mono fun a v₂ h₂ => h₁.trans h₂

/-! ### The calls -/

theorem steps_createNode (val : ℤ) : (createNode val).Steps window.Same :=
  .update fun _ => ⟨rfl, rfl⟩

theorem steps_setNext (node : ℕ) (next : Option ℕ) : (setNext node next).Steps window.Same :=
  .update fun _ => ⟨rfl, rfl⟩

theorem steps_stackCae (idx : ℕ) (old new : Descriptor) :
    (stackCae idx old new).Steps window.Same :=
  .bind (.cae Same.refl fun _ _ => ⟨rfl, rfl⟩) fun _ => True.intro

theorem push_spec (h : Knows tl v) (val : ℤ) :
    wp E.protocol c (push set val tl) (fun r v' => Kept v r.1.copy v') v := by
  refine wp.bind_of (quiet_spec (steps_createNode val)) fun newNode v₁ h₁ => ?_
  have hk₁ : Kept v tl.copy v₁ := .of_since h h₁
  refine (kept_forever (fun b : Bool × Local => b.2.copy) (fun r : Local × ℤ => r.1.copy) hk₁.holds
    fun b v₂ h₂ => ?_).mono fun r v₂ h₂ => hk₁.trans h₂
  refine wp.bind_of (putWindow_spec h₂) fun r v₃ h₃ => ?_
  refine wp.bind_of (quiet_spec (steps_setNext _ _)) fun _ v₄ h₄ => ?_
  refine wp.bind_of (quiet_spec (steps_stackCae _ _ _)) fun done v₅ h₅ => ?_
  have hk₅ : Kept v₂ r.2.copy v₅ := h₃.trans (.of_since h₃.holds (h₄.trans h₅))
  cases done with
  | true => exact hk₅
  | false => exact hk₅

theorem pop_spec (h : Knows tl v) :
    wp E.protocol c (pop set tl) (fun r v' => Kept v r.1.copy v') v := by
  refine kept_forever (fun b : Bool × Local => b.2.copy) (fun r : Local × Option ℤ => r.1.copy) h
    fun b v₂ h₂ => ?_
  refine wp.bind_of (getWindow_spec h₂) fun r v₃ h₃ => ?_
  have hk₃ : Kept v₂ r.2.copy v₃ := h₃
  dsimp only
  split
  · refine wp.read fun v₄ h₄ => ?_
    refine wp.bind_of (quiet_spec (steps_stackCae _ _ _)) fun done v₅ h₅ => ?_
    have hk₅ : Kept v₂ r.2.copy v₅ := hk₃.trans (.of_since hk₃.holds ((Since.of_le h₄).trans h₅))
    cases done with
    | true => exact wp.read fun v₆ h₆ => hk₅.trans (.of_since hk₅.holds (.of_le h₆))
    | false => exact hk₅
  · exact hk₃

/-- The version begins with 1, that of a thread which has not read the window with 0. -/
theorem obligations :
    Obligations (.trivial (object set).service (window.regime Call)) (fun _ => True)
      (fun _ l x => window.Holds l.copy x.1.1) (fun _ _ x v => window.Holds x.1.copy v.state.1)
      (initial set) () .zero where
  init := ⟨rfl, rfl⟩
  init_fresh _ := True.intro
  init_loc _ := .zero rfl (Nat.succ_pos _)
  loc_later _ _ _ _ _ _ _ _ hk h := h.later hk
  post_stable _ _ _ _ _ h hp := hp.later (Since.of_le h).frame
  code t op call l v _ _ _ hl _ := by
    cases call with
    | push val => exact wp.bind_of (push_spec hl val) fun _ _ h => h.holds
    | pop => exact (pop_spec hl).mono fun _ _ h => h.holds
  finish _ _ _ _ _ h := ⟨fun _ _ => True.intro, h⟩

end TwoDcOptimized
