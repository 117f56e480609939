import SemanticRelaxation.TwoDc.Copies
import SemanticRelaxation.Support.Versions

/-!
# Copies of the 2Dc window are consistent

The version counts the shifts of the window. So a copy with the present version has the present
maximum, if both of its words were read from one window (`windowCopies_consistent`). `read_window`
loads the maximum first, and a shift between the two loads gives an old maximum the new version
(`windowCopies_clash`).
-/

namespace TwoDc

namespace Copies

open AtomicProg Versions

variable {D X : Type}

/-- The maximum of the window with the number of shifts. -/
def register (s : State D X) : Register ℕ := ⟨s.1.globalWindow.max, s.1.globalWindow.version⟩

/-- No check has gone wrong, and the version grows with every shift. The assumption is that no copy
is torn. -/
def regime (C D X : Type) : Regime C (State D X) Unit where
  inv _ x := x.1.2.clash = false
  frame _ x x' := (register x.1).Later (register x'.1)
  fresh _ _ := True
  assume _ s' := s'.2.torn = false
  refl _ x := .refl (register x.1)
  trans _ _ _ _ h h' := h.trans h'
  inv_call _ _ _ h := h
  fresh_later _ _ _ _ _ := True.intro

/-- A step that leaves the window alone. -/
def SameWindow (s s' : Shared D X) : Prop := s'.globalWindow = s.globalWindow

theorem SameWindow.refl (s : Shared D X) : SameWindow s s := rfl

/-- A thread's window is a copy of the global one, if it was read. -/
def Knows (tl : Local) (s : State D X) : Prop :=
  tl.known = true → Copy (register s) tl.window.version tl.window.max

section Specs

variable {L : Type} {S : Service (State D X) L} {E : Results S (regime S.Call D X)} {c : Caller}
  {v v₁ : View E.protocol c} {tl : Local} {set : Params}

theorem Knows.later (h : Knows tl v.state) (hv : Since v v₁) : Knows tl v₁.state :=
  fun hk => (h hk).later hv.frame

/-- A program on the other parts of the memory. -/
theorem quiet_spec {α : Type} {p : Prog (Shared D X) α} (h : p.Steps SameWindow) :
    wp E.protocol c p.onFst (fun _ v' => Since v v') v := by
  refine wp.of_steps (Prog.Steps.onFst h) (fun calls x s hs hi => ?_) fun o x s hs => ?_
  · show s.2.clash = false
    rw [hs.2]
    exact hi
  · have hw : s.1.globalWindow = x.1.1.globalWindow := hs.1
    refine .inl ?_
    unfold register
    rw [hw]

/-- A copy that is not torn does not clash. -/
theorem Knows.not_clashes {s : State D X} (h : Knows tl s) :
    tl.clashes s.1.globalWindow = false := by
  by_contra hne
  simp only [Local.clashes, Bool.not_eq_false, Bool.and_eq_true, decide_eq_true_eq] at hne
  obtain ⟨⟨hknown, hversion⟩, hmax⟩ := hne
  exact hmax ((h hknown).current hversion)

theorem checkVersion_spec (h : Knows tl v.state) :
    wp E.protocol c (checkVersion tl) (fun _ v' => Since v v') v := by
  intro v₁ h₁ _ _
  have hclash : v₁.state.2.clash = false := v₁.inv_pair
  have hk : ∀ o, (regime S.Call D X).frame o v₁.pair ((v₁.state.1, { v₁.state.2 with
      clash := v₁.state.2.clash || tl.clashes v₁.state.1.globalWindow }), v₁.now.2) :=
    fun _ => .inl rfl
  have hinv : (v₁.state.2.clash || tl.clashes v₁.state.1.globalWindow) = false := by
    rw [hclash, (h.later (.of_le h₁)).not_clashes]
    rfl
  exact ⟨v₁.now.2, Regime.allows v₁ hinv fun o _ => hk o, (Since.of_le h₁).trans (.step hk)⟩

/-- Both words are loaded from a window with one maximum. -/
theorem reload_spec :
    wp E.protocol c (reload tl) (fun tl' v' => Since v v' ∧ Knows tl' v'.state) v := by
  unfold reload readWindow
  simp only [Prog.bind_assoc]
  refine wp.read fun v₁ h₁ v₂ h₂ _ ha => ?_
  have htorn : (v₂.state.2.torn ||
      decide (v₁.state.1.globalWindow.max ≠ v₂.state.1.globalWindow.max)) = false := ha
  have hmax : v₁.state.1.globalWindow.max = v₂.state.1.globalWindow.max := by
    simpa using (Bool.or_eq_false_iff.1 htorn).2
  have hk : ∀ o, (regime S.Call D X).frame o v₂.pair ((v₂.state.1, { v₂.state.2 with
      torn := v₂.state.2.torn || decide
        (v₁.state.1.globalWindow.max ≠ v₂.state.1.globalWindow.max) }),
      v₂.now.2) := fun _ => .inl rfl
  have hinv : v₂.state.2.clash = false := v₂.inv_pair
  refine ⟨v₂.now.2, Regime.allows v₂ hinv fun o _ => hk o,
    (Since.of_le (h₁.trans h₂)).trans (.step hk), fun _ => ?_⟩
  show Copy (register v₂.state) v₂.state.1.globalWindow.version v₁.state.1.globalWindow.max
  rw [hmax]
  exact .self (register v₂.state)

theorem syncWindow_spec (h : Knows tl v.state) :
    wp E.protocol c (syncWindow tl) (fun tl' v' => Since v v' ∧ Knows tl' v'.state) v := by
  refine wp.bind_of (checkVersion_spec h) fun version v₁ h₁ => ?_
  split
  · refine reload_spec.mono fun tl' v₂ h₂ => ?_
    exact ⟨h₁.trans h₂.1, h₂.2⟩
  · exact ⟨h₁, h.later h₁⟩

theorem choose_spec {α : Type} {p : Prog (State D X) α} (h : p.Steps fun s s' => s' = s) :
    wp E.protocol c p (fun _ v' => Since v v') v := by
  refine wp.of_steps h (fun calls x s hs hi => ?_) fun o x s hs => ?_
  · rw [hs]
    exact hi
  · rw [hs]
    exact .refl _

theorem steps_randomIndex (ty : TwoD.Types) (width : ℕ) :
    (TwoD.randomIndex ty width : Prog (State D X) ℕ).Steps fun s s' => s' = s :=
  .bind (.choose fun _ => rfl) fun _ => True.intro

theorem steps_hop (ty : TwoD.Types) (randomHops width index random hops : ℕ) :
    (TwoD.hop ty randomHops width index random hops : Prog (State D X) _).Steps
      fun s s' => s' = s := by
  unfold TwoD.hop
  split
  · exact .bind (steps_randomIndex _ _) fun _ => True.intro
  · exact True.intro

theorem enter_spec {contention : Bool} (h : Knows tl v.state) :
    wp E.protocol c (enter set contention tl) (fun tl' v' => Since v v' ∧
      Knows tl' v'.state) v := by
  refine wp.bind_of (syncWindow_spec h) ?_
  rintro tl' v₁ ⟨h₁, hk₁⟩
  split
  · refine wp.bind_of (choose_spec (steps_randomIndex _ _)) fun index v₂ h₂ => ?_
    exact ⟨h₁.trans h₂, hk₁.later h₂⟩
  · exact ⟨h₁, hk₁⟩

/-- The exchange of the window counts the version up. -/
theorem caeWindow_spec {new : Window} (hnew : new.version = tl.window.version + 1) :
    wp E.protocol c (caeWindow tl new) (fun tl' v' => Since v v' ∧ Knows tl' v'.state) v := by
  refine wp.cae (fun v₁ h₁ he _ => ?_) fun v₁ h₁ _ => ?_
  · have he : v₁.state.1.globalWindow = tl.window := he
    have hk : ∀ o, (regime S.Call D X).frame o v₁.pair
        (({ v₁.state.1 with globalWindow := new }, v₁.state.2), v₁.now.2) := by
      refine fun _ => .inr ?_
      show v₁.state.1.globalWindow.version < new.version
      rw [hnew, he]
      exact Nat.lt_succ_self _
    have hinv : v₁.state.2.clash = false := v₁.inv_pair
    exact ⟨v₁.now.2, Regime.allows v₁ hinv fun o _ => hk o, (Since.of_le h₁).trans (.step hk),
      fun _ => .self (register ({ v₁.state.1 with globalWindow := new }, v₁.state.2))⟩
  · refine reload_spec.mono fun tl' v₂ h₂ => ?_
    exact ⟨(Since.of_le h₁).trans h₂.1, h₂.2⟩

theorem tryShift_spec (h : Knows tl v.state) {valid : Bool} {new : Window}
    (hnew : new.version = tl.window.version + 1) :
    wp E.protocol c (tryShift valid tl new) (fun tl' v' => Since v v' ∧ Knows tl' v'.state) v := by
  refine wp.bind_of (checkVersion_spec h) fun version v₁ h₁ => ?_
  split
  · refine (caeWindow_spec hnew).mono fun tl' v₂ h₂ => ?_
    exact ⟨h₁.trans h₂.1, h₂.2⟩
  · exact ⟨h₁, h.later h₁⟩

/-- What a round of a search ends with. -/
def Searched (v₀ : View E.protocol c) (r : Search ⊕ (D × Local)) (v : View E.protocol c) : Prop :=
  Sum.elim (fun st => Since v₀ v ∧ Knows st.tl v.state) (fun a => Since v₀ v ∧ Knows a.2 v.state) r

/-- A search ends with a copy of the window. -/
theorem search_spec {round : Search → Prog (State D X) (Search ⊕ (D × Local))} {contention : Bool}
    (hr : ∀ st (v : View E.protocol c), Knows st.tl v.state → wp E.protocol c (round st)
      (Searched v) v)
    (h : Knows tl v.state) :
    wp E.protocol c (enter set contention tl >>= fun tl => Prog.forever round ⟨tl, 0, 0, true⟩)
      (fun a v' => Since v v' ∧ Knows a.2 v'.state) v := by
  refine wp.bind_of (enter_spec h) ?_
  rintro tl' v₁ ⟨h₁, hk₁⟩
  refine wp.forever (fun st v' => Since v v' ∧ Knows st.tl v'.state) ⟨h₁, hk₁⟩ ?_
  rintro st v₂ ⟨h₂, hk₂⟩
  refine (hr st v₂ hk₂).mono ?_
  rintro (st' | a) v₃ h₃
  · exact ⟨h₂.trans h₃.1, h₃.2⟩
  · exact ⟨h₂.trans h₃.1, h₃.2⟩

variable [HasCount D]

theorem steps_readDescriptor (index : ℕ) :
    (readDescriptor index : Prog (Shared D X) D).Steps SameWindow :=
  .bind (.read SameWindow.refl _) fun _ => .bind (.read SameWindow.refl _) fun _ => True.intro

theorem putRound_spec {st : Search} (h : Knows st.tl v.state) :
    wp E.protocol c (putRound set st) (Searched v) v := by
  refine wp.bind_of (quiet_spec (steps_readDescriptor _)) fun d v₁ hs₁ => ?_
  refine wp.bind_of (checkVersion_spec (h.later hs₁)) fun version v₂ h₂ => ?_
  have hs₂ := hs₁.trans h₂
  have hk₂ := h.later hs₂
  split
  · refine wp.bind_of reload_spec ?_
    rintro tl v₃ ⟨h₃, hk₃⟩
    exact ⟨hs₂.trans h₃, hk₃⟩
  · split
    · exact ⟨hs₂, hk₂⟩
    · split
      · refine wp.bind_of (choose_spec (steps_hop _ _ _ _ _ _)) fun r v₃ h₃ => ?_
        exact ⟨hs₂.trans h₃, hk₂.later h₃⟩
      · refine wp.bind_of (tryShift_spec hk₂ rfl) ?_
        rintro tl v₃ ⟨h₃, hk₃⟩
        exact ⟨hs₂.trans h₃, hk₃⟩

theorem getRound_spec {st : Search} (h : Knows st.tl v.state) :
    wp E.protocol c (getRound set st) (Searched v) v := by
  refine wp.bind_of (quiet_spec (steps_readDescriptor _)) fun d v₁ hs₁ => ?_
  refine wp.bind_of (checkVersion_spec (h.later hs₁)) fun version v₂ h₂ => ?_
  have hs₂ := hs₁.trans h₂
  have hk₂ := h.later hs₂
  split
  · refine wp.bind_of reload_spec ?_
    rintro tl v₃ ⟨h₃, hk₃⟩
    exact ⟨hs₂.trans h₃, hk₃⟩
  · split
    · exact ⟨hs₂, hk₂⟩
    · split
      · refine wp.bind_of (choose_spec (steps_hop _ _ _ _ _ _)) fun r v₃ h₃ => ?_
        exact ⟨hs₂.trans h₃, hk₂.later h₃⟩
      · split
        · exact ⟨hs₂, hk₂⟩
        · refine wp.bind_of (tryShift_spec hk₂ rfl) ?_
          rintro tl v₃ ⟨h₃, hk₃⟩
          exact ⟨hs₂.trans h₃, hk₃⟩

theorem putWindow_spec {contention : Bool} (h : Knows tl v.state) :
    wp E.protocol c (putWindow set contention tl) (fun a v' => Since v v' ∧ Knows a.2 v'.state) v :=
  search_spec (fun _ _ hk => putRound_spec hk) h

theorem getWindow_spec {contention : Bool} (h : Knows tl v.state) :
    wp E.protocol c (getWindow set contention tl) (fun a v' => Since v v' ∧ Knows a.2 v'.state) v :=
  search_spec (fun _ _ hk => getRound_spec hk) h

end Specs

/-! ### The stack -/

section Stack

variable {set : Params} {E : Results (stackObject set).service
  (regime Stack.Call Stack.Descriptor Treiber.Mem)}
  {c : Caller} {v : View E.protocol c} {tl : Local}

theorem steps_stackCae (idx : ℕ) (old new : Stack.Descriptor) (push : Bool) :
    (Stack.stackCae idx old new push).Steps SameWindow :=
  .bind (.cae SameWindow.refl fun _ _ => rfl) fun _ => True.intro

theorem push_spec (h : Knows tl v.state) (val : ℤ) :
    wp E.protocol c (push set val tl) (fun r v' => Knows r.1 v'.state) v := by
  refine wp.bind_of (quiet_spec (.update fun _ => rfl)) fun n v₁ h₁ => ?_
  refine wp.forever (fun b v' => Knows b.2 v'.state) (h.later h₁) ?_
  rintro ⟨contention, tl'⟩ v₂ hk₂
  refine wp.bind_of (putWindow_spec hk₂) ?_
  rintro ⟨d, tl''⟩ v₃ ⟨-, hk₃⟩
  refine wp.bind_of (quiet_spec (.update fun _ => rfl)) fun _ v₄ h₄ => ?_
  refine wp.bind_of (quiet_spec (steps_stackCae _ _ _ _)) fun done v₅ h₅ => ?_
  have hk₅ : Knows tl'' v₅.state := hk₃.later (h₄.trans h₅)
  cases done with
  | true => exact hk₅
  | false => exact hk₅

theorem pop_spec (h : Knows tl v.state) :
    wp E.protocol c (pop set tl) (fun r v' => Knows r.1 v'.state) v := by
  refine wp.forever (fun b v' => Knows b.2 v'.state) h ?_
  rintro ⟨contention, tl'⟩ v₂ hk₂
  refine wp.bind_of (getWindow_spec hk₂) ?_
  rintro ⟨d, tl''⟩ v₃ ⟨-, hk₃⟩
  have hk₃ : Knows tl'' v₃.state := hk₃
  dsimp only
  split
  · refine wp.read fun v₄ h₄ => ?_
    refine wp.bind_of (quiet_spec (steps_stackCae _ _ _ _)) fun done v₅ h₅ => ?_
    have hk₅ := hk₃.later ((Since.of_le h₄).trans h₅)
    cases done with
    | true => exact wp.read fun v₆ h₆ => hk₅.later (.of_le h₆)
    | false => exact hk₅
  · exact hk₃

theorem stack_obligations : Obligations (.trivial (stackObject set).service (regime _ _ _))
    (fun _ => True) (fun _ l x => Knows l x.1) (fun _ _ x v => Knows x.1 v.state)
    (Stack.initial set, {}) () .zero where
  init := rfl
  init_fresh _ := True.intro
  init_loc _ := nofun
  loc_later _ _ _ _ _ _ _ _ hk h hl := (h hl).later hk
  post_stable _ _ _ _ _ h hp := hp.later (.of_le h)
  code t op call l v _ _ _ hl _ := by
    cases call with
    | push val => exact wp.bind_of (push_spec hl val) fun _ _ h => h
    | pop => exact pop_spec hl
  finish _ _ _ _ _ h := ⟨fun _ _ => True.intro, h⟩

end Stack

/-! ### The counter -/

section Counter

variable {set : Params} {E : Results (counterObject set).service (regime CounterCall Count Unit)}
  {c : Caller} {v : View E.protocol c} {tl : Local}

theorem steps_counterCae (idx : ℕ) (old new : Count) :
    (counterCae idx old new).Steps SameWindow :=
  .bind (.cae SameWindow.refl fun _ _ => rfl) fun _ => True.intro

theorem increment_spec (h : Knows tl v.state) :
    wp E.protocol c (increment set tl) (fun r v' => Knows r.1 v'.state) v := by
  refine wp.forever (fun b v' => Knows b.2 v'.state) h ?_
  rintro ⟨contention, tl'⟩ v₂ hk₂
  refine wp.bind_of (putWindow_spec hk₂) ?_
  rintro ⟨d, tl''⟩ v₃ ⟨-, hk₃⟩
  refine wp.bind_of (quiet_spec (steps_counterCae _ _ _)) fun done v₄ h₄ => ?_
  have hk₄ : Knows tl'' v₄.state := hk₃.later h₄
  cases done with
  | true => exact hk₄
  | false => exact hk₄

theorem decrement_spec (h : Knows tl v.state) :
    wp E.protocol c (decrement set tl) (fun r v' => Knows r.1 v'.state) v := by
  refine wp.forever (fun b v' => Knows b.2 v'.state) h ?_
  rintro ⟨contention, tl'⟩ v₂ hk₂
  refine wp.bind_of (getWindow_spec hk₂) ?_
  rintro ⟨d, tl''⟩ v₃ ⟨-, hk₃⟩
  have hk₃ : Knows tl'' v₃.state := hk₃
  dsimp only
  split
  · refine wp.bind_of (quiet_spec (steps_counterCae _ _ _)) fun done v₄ h₄ => ?_
    have hk₄ := hk₃.later h₄
    cases done with
    | true => exact hk₄
    | false => exact hk₄
  · exact hk₃

theorem counter_obligations : Obligations (.trivial (counterObject set).service (regime _ _ _))
    (fun _ => True) (fun _ l x => Knows l x.1) (fun _ _ x v => Knows x.1 v.state)
    (counterInitial set, {}) () .zero where
  init := rfl
  init_fresh _ := True.intro
  init_loc _ := nofun
  loc_later _ _ _ _ _ _ _ _ hk h hl := (h hl).later hk
  post_stable _ _ _ _ _ h hp := hp.later (.of_le h)
  code t op call l v _ _ _ hl _ := by
    cases call with
    | increment => exact increment_spec hl
    | decrement => exact decrement_spec hl
  finish _ _ _ _ _ h := ⟨fun _ _ => True.intro, h⟩

end Counter

/-! ### The result -/

/-- In a run whose `read_window`s are not torn, no check takes a wrong copy for the window. -/
theorem windowCopies_consistent (set : Params) :
    (∀ p : Pool (stackObject set).service,
      Reach (fun _ _ => True) (fun _ s' => s'.2.torn = false) (Stack.initial set, {}) .zero p →
        p.world.shared.2.clash = false) ∧
    ∀ p : Pool (counterObject set).service,
      Reach (fun _ _ => True) (fun _ s' => s'.2.torn = false) (counterInitial set, {}) .zero p →
        p.world.shared.2.clash = false := by
  constructor
  · intro p hr
    obtain ⟨g, hinv, -⟩ := stack_obligations.implements.inv hr
    exact hinv
  · intro p hr
    obtain ⟨g, hinv, -⟩ := counter_obligations.implements.inv hr
    exact hinv

/-- Two pushes and two increments of two threads that take turns, with a shift of each window. -/
theorem windowCopies_consistent_two :
    (∃ p : Pool (stackObject (Stack.params 1 1)).service,
      p.world.shared.1.globalWindow.max = 2 ∧ p.world.shared.2.clash = false) ∧
    ∃ p : Pool (counterObject (Stack.params 1 1)).service,
      p.world.shared.1.globalWindow.max = 2 ∧ p.world.shared.2.clash = false := by
  constructor
  · have h : (((Pool.init (stackObject (Stack.params 1 1)).service
        (Stack.initial (Stack.params 1 1), {}) .zero).execIf (fun _ s' =>
        decide (s'.2.torn = false))
        (Move.invoke 0 (Stack.Call.push 7) :: Move.invoke 1 (Stack.Call.push 8) ::
          (List.replicate 11 [Move.step 0 0, Move.step 1 0]).flatten ++
          Move.step 0 0 :: List.replicate 30 (Move.step 1 0))).any fun p =>
        decide (p.world.shared.1.globalWindow.max = 2)) = true := by
      decide +kernel
    obtain ⟨p, hp, hc⟩ := (Option.any_eq_true _ _).1 h
    exact ⟨p, of_decide_eq_true hc, (windowCopies_consistent (Stack.params 1 1)).1 p
      (Pool.execIf_reach (fun _ _ => of_decide_eq_true) hp (fun _ _ _ _ => True.intro) .init)⟩
  · have h : (((Pool.init (counterObject (Stack.params 1 1)).service
        (counterInitial (Stack.params 1 1), {}) .zero).execIf (fun _ s' =>
        decide (s'.2.torn = false))
        (Move.invoke 0 CounterCall.increment :: Move.invoke 1 CounterCall.increment ::
          (List.replicate 29 [Move.step 0 0, Move.step 1 0]).flatten ++
          Move.step 0 0 :: List.replicate 29 (Move.step 1 0))).any fun p =>
        decide (p.world.shared.1.globalWindow.max = 2)) = true := by
      decide +kernel
    obtain ⟨p, hp, hc⟩ := (Option.any_eq_true _ _).1 h
    exact ⟨p, of_decide_eq_true hc, (windowCopies_consistent (Stack.params 1 1)).2 p
      (Pool.execIf_reach (fun _ _ => of_decide_eq_true) hp (fun _ _ _ _ => True.intro) .init)⟩

/-- Thread 1 has loaded the maximum 2. An increment of thread 0 moves the window to the maximum 3
before the load of the version. The next check of thread 1 finds its version to be the present one.
-/
theorem windowCopies_clash : ∃ p : Pool (counterObject (Stack.params 1 1)).service,
    Reachable (counterInitial (Stack.params 1 1), {}) .zero p ∧ p.world.shared.2.clash = true := by
  have h : (((Pool.init (counterObject (Stack.params 1 1)).service
      (counterInitial (Stack.params 1 1), {}) .zero).exec
      (Move.invoke 0 CounterCall.increment :: List.replicate 30 (Move.step 0 0) ++
        Move.invoke 0 CounterCall.increment :: List.replicate 28 (Move.step 0 0) ++
        Move.invoke 1 CounterCall.increment :: List.replicate 3 (Move.step 1 0) ++
        Move.invoke 0 CounterCall.increment :: List.replicate 28 (Move.step 0 0) ++
        List.replicate 6 (Move.step 1 0))).any fun p => p.world.shared.2.clash) = true := by
    decide +kernel
  obtain ⟨p, hp, hc⟩ := Pool.exec_of_check h
  exact ⟨p, Pool.exec_reach hp (fun _ _ _ _ => True.intro) .init, hc⟩

end Copies

end TwoDc
