import SemanticRelaxation.ElasticLpwStack.CopiesSpecs
import SemanticRelaxation.Prog.Solo
import SemanticRelaxation.TwoDcOptimized.Copies

/-!
# Versions of 16 bits

In both stacks with a packed window a copy with the present version is the present window, unless
the window has been shifted a multiple of 2^16 times since the copy was taken
(`packedWindows_identified`). So many shifts happen while a thread makes no call: on a stack of
width and depth 1 each push on the full window shifts it (`push_ready`), and after 2^16 of them an
old copy looks current (`packedWindows_clash`).
-/

namespace TwoDcOptimized

open AtomicProg Treiber Versioned

/-- In a run whose checks are not late no check takes an old copy for the window. -/
theorem packedWindows_identified (elastic : ElasticLpwStack.Params) (set : Params)
    (width depth : ℕ) : (∀ p : Pool (ElasticLpwStack.Copies.object elastic).service,
      Reach (fun _ _ => True) (fun _ s' => s'.2.late = false)
        (ElasticLpwStack.initial elastic width depth, {}) .zero p →
        p.world.shared.2.clash = false) ∧
    ∀ p : Pool (object set).service,
      Reach (fun _ _ => True) (fun _ s' => s'.2.late = false) (initial set) .zero p →
        p.world.shared.2.clash = false := by
  constructor
  · intro p hr
    obtain ⟨g, hinv, -⟩ := (ElasticLpwStack.Copies.copies_obligations width depth).implements.inv hr
    exact hinv.2
  · intro p hr
    obtain ⟨g, hinv, -⟩ := obligations.implements.inv hr
    exact hinv.2

/-- The checks of two pushes on each stack, with a shift of each window. -/
theorem packedWindows_identified_two :
    (∃ p : Pool (ElasticLpwStack.Copies.object ⟨2, 2⟩).service,
      p.world.shared.1.shifts = 1 ∧ p.world.shared.2.clash = false) ∧
    ∃ p : Pool (object (params 1 1)).service,
      p.world.shared.1.shifts = 1 ∧ p.world.shared.2.clash = false := by
  constructor
  · have h : (((Pool.init (ElasticLpwStack.Copies.object ⟨2, 2⟩).service
        (ElasticLpwStack.initial ⟨2, 2⟩ 1 1, {}) .zero).execIf (fun _ s' =>
        decide (s'.2.late = false))
        (Move.invoke 0 (ElasticLpwStack.Call.push 7) :: List.replicate 12 (Move.step 0 0) ++
          Move.invoke 0 (ElasticLpwStack.Call.push 8) :: List.replicate 38 (Move.step 0 0))).any
            fun p =>
        decide (p.world.shared.1.shifts = 1)) = true := by
      decide +kernel
    obtain ⟨p, hp, hc⟩ := (Option.any_eq_true _ _).1 h
    exact ⟨p, of_decide_eq_true hc, (packedWindows_identified ⟨2, 2⟩ (params 1 1) 1 1).1 p
      (Pool.execIf_reach (fun _ _ => of_decide_eq_true) hp (fun _ _ _ _ => True.intro) .init)⟩
  · have h : (((Pool.init (object (params 1 1)).service (initial (params 1 1)) .zero).execIf
        (fun _ s' => decide (s'.2.late = false))
        (Move.invoke 0 (Call.push 7) :: List.replicate 11 (Move.step 0 0) ++
          Move.invoke 0 (Call.push 8) :: List.replicate 30 (Move.step 0 0))).any fun p =>
        decide (p.world.shared.1.shifts = 1)) = true := by
      decide +kernel
    obtain ⟨p, hp, hc⟩ := (Option.any_eq_true _ _).1 h
    exact ⟨p, of_decide_eq_true hc, (packedWindows_identified ⟨2, 2⟩ (params 1 1) 1 1).2 p
      (Pool.execIf_reach (fun _ _ => of_decide_eq_true) hp (fun _ _ _ _ => True.intro) .init)⟩

/-! ### A long run -/

/-- The window is full with `k` items on the only sub-stack, and the thread has the current copy. -/
structure Ready (k : ℕ) (tl : Local) (s : State) : Prop where
  count : (s.1.setArray 0).count = k
  window : s.1.globalWindow = ⟨k, k % 2 ^ 16⟩
  copy : tl.window = s.1.globalWindow
  index : tl.index = 0

section Push

variable {α : Type} {Q : α → State → Prop} {s : State} {k : ℕ}

theorem check_total {x : Copied Window} {f : ℕ → Prog State α}
    (h : ∀ o, Total (.trivial State) Q (f s.1.globalWindow.version) (s.1, o)) :
    Total (.trivial State) Q (window.check x >>= f) s :=
  Total.update_iff.2 fun _ => ⟨True.intro, h _⟩

/-- The rounds of the search: on the old window, until the hops are used up, or on the new one. -/
structure Round (k m : ℕ) (st : Search) (s : State) : Prop where
  count : (s.1.setArray 0).count = k
  copy : st.tl.window = s.1.globalWindow
  index : st.tl.index = 0
  window : m = 0 ∧ s.1.globalWindow = ⟨k + 1, (k + 1) % 2 ^ 16⟩ ∨
    s.1.globalWindow = ⟨k, k % 2 ^ 16⟩ ∧ st.hops ≤ 1 ∧ st.random ≤ 2 ∧
      m + st.hops + st.random = 4

/-- What the search finds. -/
def Found (k : ℕ) (a : Descriptor × Local) (s : State) : Prop :=
  a.1 = s.1.setArray 0 ∧ a.1.count = k ∧ a.2.index = 0 ∧ a.2.window = s.1.globalWindow ∧
    s.1.globalWindow = ⟨k + 1, (k + 1) % 2 ^ 16⟩

/-- The shift of the current window. -/
theorem shift_total {tl : Local} (hcopy : tl.window = s.1.globalWindow)
    (hw : s.1.globalWindow = ⟨k, k % 2 ^ 16⟩) (o : Observed) :
    Total (.trivial State) (fun tl' s' =>
      s'.1 = { s.1 with globalWindow := ⟨k + 1, (k + 1) % 2 ^ 16⟩, shifts := s.1.shifts + 1 } ∧
        tl'.window = s'.1.globalWindow ∧ tl'.index = tl.index)
      (tryShift tl (k + 1)) (s.1, o) := by
  refine check_total fun o' => ?_
  rw [if_pos (by rw [hcopy])]
  refine Total.update_iff.2 fun _ => ⟨True.intro, ?_⟩
  have hnew : (tl.window.version + 1) % 2 ^ 16 = (k + 1) % 2 ^ 16 := by
    rw [hcopy, hw]
    exact Nat.mod_add_mod k _ 1
  have hget : window.get s.1 = tl.window := hcopy.symm
  rw [hnew, if_pos hget]
  exact .ret ⟨rfl, rfl, rfl⟩

/-- A hop on the only sub-stack. -/
theorem hop_total {random hops : ℕ} {s : State} (hr : random ≤ 2) (hh : hops ≠ 1) (hle : hops ≤ 1) :
    Total (.trivial State) (fun r s' => s' = s ∧ r.1 = 0 ∧ r.2.1 ≤ 2 ∧ r.2.2 ≤ 1 ∧
      r.2.1 + r.2.2 = random + hops + 1) (TwoD.hop types 2 1 0 random hops) s := by
  unfold TwoD.hop
  by_cases h2 : random < 2
  · rw [if_pos h2]
    simp only [TwoD.randomIndex, Prog.bind_assoc, Prog.pure_eq_ret, Prog.ret_bind, Total.choose_iff,
      Total.ret_iff]
    intro n
    have hmod : (random + 1) % 2 ^ types.random = random + 1 :=
      Nat.mod_eq_of_lt (show random + 1 < 2 ^ 8 by omega)
    rw [hmod]
    exact ⟨True.intro, Nat.mod_one n, by omega, hle, by omega⟩
  · rw [if_neg h2]
    have hmod : (hops + 1) % 2 ^ types.hops = hops + 1 :=
      Nat.mod_eq_of_lt (show hops + 1 < 2 ^ 16 by omega)
    rw [hmod]
    exact .ret ⟨rfl, rfl, hr, (show hops + 1 ≤ 1 by omega), (show random + (hops + 1) = _ by omega)⟩

theorem putRound_ready {m : ℕ} {st : Search} (hk : k < 2 ^ 20) (h : Round k m st s) :
    Total (.trivial State) (fun r s' => Sum.elim (fun st' => ∃ m' < m, Round k m' st' s')
      (fun a => Found k a s') r) (putRound (params 1 1) st) s := by
  obtain ⟨hcount, hcopy, hindex, hwindow⟩ := h
  have hversion : st.tl.window.version = s.1.globalWindow.version := by rw [hcopy]
  simp only [putRound, readDescriptor, Prog.bind_assoc, Prog.pure_eq_ret, Prog.ret_bind,
    Total.read_iff]
  refine check_total fun o => ?_
  rw [if_neg (not_not.2 hversion.symm), hindex, hcopy]
  rcases hwindow with ⟨rfl, hw⟩ | ⟨hw, hhops, hrandom, hm⟩
  · have hlt : (s.1.setArray 0).count < s.1.globalWindow.max := by
      rw [hcount, hw]
      exact Nat.lt_succ_self k
    rw [if_pos hlt]
    exact .ret ⟨rfl, hcount, hindex, hcopy, hw⟩
  · have hlt : ¬ (s.1.setArray 0).count < s.1.globalWindow.max := by
      rw [hcount, hw]
      exact lt_irrefl k
    rw [if_neg hlt]
    by_cases hh : st.hops = (params 1 1).width
    · rw [if_neg (not_not.2 hh)]
      have hmax : (s.1.globalWindow.max + (params 1 1).shift) % 2 ^ 32 = k + 1 := by
        rw [hw]
        exact Nat.mod_eq_of_lt (show k + 1 < 2 ^ 32 by omega)
      rw [hmax]
      refine Total.bind_of (shift_total hcopy hw o) ?_
      rintro tl s' ⟨hs', hcopy', hindex'⟩
      have hh : st.hops = 1 := hh
      refine .ret ⟨0, by omega, ?_⟩
      exact ⟨by rw [hs']; exact hcount, hcopy', hindex'.trans hindex, .inl ⟨rfl, by rw [hs']⟩⟩
    · rw [if_pos hh]
      refine Total.bind_of (hop_total hrandom hh hhops) ?_
      rintro ⟨i, random, hops⟩ s' ⟨rfl, rfl, hle, hle', hsum⟩
      have hsum : random + hops = st.random + st.hops + 1 := hsum
      refine .ret ⟨m - 1, by omega, hcount, hcopy, rfl, .inr ⟨hw, hle', hle, ?_⟩⟩
      show m - 1 + hops + random = 4
      omega

theorem putWindow_ready {tl : Local} (hk : k < 2 ^ 20) (h : Ready k tl s) :
    Total (.trivial State) (fun a s' => Found k a s') (putWindow (params 1 1) false tl) s := by
  obtain ⟨hcount, hwindow, hcopy, hindex⟩ := h
  simp only [putWindow, enter, syncWindow, Prog.bind_assoc]
  refine check_total fun o => ?_
  rw [if_neg (not_not.2 (by rw [hcopy]))]
  simp only [Prog.pure_eq_ret, Prog.ret_bind, Bool.false_eq_true, if_false]
  refine Total.forever_ghost (Round k) (fun m st s' hr => putRound_ready hk hr)
    (m := 4) ⟨hcount, hcopy, hindex, .inr ⟨hwindow, Nat.zero_le _, Nat.zero_le _, rfl⟩⟩

/-- A push on the full window shifts it by one. -/
theorem push_ready {tl : Local} (val : ℤ) (hk : k < 2 ^ 20) (h : Ready k tl s) :
    Total (.trivial State) (fun r s' => Ready (k + 1) r.1 s') (push (params 1 1) val tl) s := by
  have hcreate : Total (.trivial Memory) (fun _ m => m.setArray = s.1.setArray ∧
      m.globalWindow = s.1.globalWindow) (createNode val) s.1 :=
    .act (fun _ _ => True.intro) fun _ _ => .ret ⟨rfl, rfl⟩
  refine Total.bind_of (hcreate.onFst s.2) ?_
  rintro newNode s₁ ⟨⟨harray, hwin⟩, -⟩
  have h₁ : Ready k tl s₁ :=
    ⟨by rw [harray]; exact h.count, hwin.trans h.window, by rw [hwin]; exact h.copy,
    h.index⟩
  refine Total.forever_once (Total.bind_of (putWindow_ready hk h₁) ?_)
  rintro ⟨descriptor, tl'⟩ s₂ ⟨hd, hcount, hindex, hcopy, hw⟩
  have hset : Total (.trivial Memory) (fun _ m => m.setArray = s₂.1.setArray ∧
      m.globalWindow = s₂.1.globalWindow) (setNext newNode descriptor.node) s₂.1 :=
    .act (fun _ _ => True.intro) fun _ _ => .ret ⟨rfl, rfl⟩
  refine Total.bind_of (hset.onFst s₂.2) ?_
  rintro _ s₃ ⟨⟨harray₃, hwin₃⟩, -⟩
  have hindex : tl'.index = 0 := hindex
  have hd : descriptor = s₂.1.setArray 0 := hd
  have hcae : Total (.trivial Memory) (fun done m => done = true ∧
    m.globalWindow = s₃.1.globalWindow ∧
      (m.setArray 0).count = k + 1)
      (stackCae tl'.index descriptor ⟨some newNode, descriptor.count + 1⟩) s₃.1 := by
    refine Total.cae_of_eq (by rw [hindex, harray₃, hd]) fun _ => ⟨True.intro, .ret ⟨rfl, rfl, ?_⟩⟩
    have hcount : descriptor.count = k := hcount
    show (Function.update s₃.1.setArray tl'.index _ 0).count = k + 1
    rw [hindex, Function.update_self, hcount]
  refine Total.bind_of (hcae.onFst s₃.2) ?_
  rintro done s₄ ⟨⟨rfl, hwin₄, hcount₄⟩, -⟩
  refine .ret ⟨_, rfl, hcount₄, ?_, ?_, hindex⟩
  · rw [hwin₄, hwin₃]
    exact hw
  · rw [hwin₄, hwin₃]
    exact hcopy

end Push

/-- Thread 0 has a copy of the first window, and thread 1 is ready for the next push. -/
def Stale (k : ℕ) (p : Pool (object (params 1 1)).service) : Prop :=
  ∃ l₀ l₁, p.thread 0 = .idle l₀ ∧ p.thread 1 = .idle l₁ ∧ l₀.window = ⟨1, 1⟩ ∧
    Ready k l₁ p.world.shared

/-- One push of each thread. -/
theorem stale_two : ∃ p, Reachable (initial (params 1 1)) .zero p ∧ Stale 2 p := by
  have h : (((Pool.init (object (params 1 1)).service (initial (params 1 1)) .zero).exec
      (Move.invoke 0 (Call.push 7) :: List.replicate 11 (Move.step 0 0) ++
        Move.invoke 1 (Call.push 8) :: List.replicate 31 (Move.step 1 0))).any fun p =>
      match p.thread 0, p.thread 1 with
      | .idle l₀, .idle l₁ => decide (l₀.window = ⟨1, 1⟩ ∧
          (p.world.shared.1.setArray 0).count = 2 ∧
          p.world.shared.1.globalWindow = ⟨2, 2 % 2 ^ 16⟩ ∧
          l₁.window = p.world.shared.1.globalWindow ∧ l₁.index = 0)
      | _, _ => false) = true := by
    decide +kernel
  obtain ⟨p, hp, hc⟩ := Pool.exec_of_check h
  split at hc
  next l₀ l₁ h₀ h₁ =>
    obtain ⟨hw₀, hcount, hwindow, hcopy, hindex⟩ := of_decide_eq_true hc
    exact ⟨p, Pool.exec_reach hp (fun _ _ _ _ => True.intro) .init, l₀, l₁, h₀, h₁, hw₀, hcount,
      hwindow,
      hcopy, hindex⟩
  next => cases hc

/-- Pushes of thread 1, as many as are needed. -/
theorem stale_run (n : ℕ) (hn : n + 2 < 2 ^ 20) :
    ∃ p, Reachable (initial (params 1 1)) .zero p ∧ Stale (n + 2) p := by
  induction n with
  | zero => exact stale_two
  | succ n ih =>
    obtain ⟨p, hr, l₀, l₁, h₀, h₁, hw, hready⟩ := ih (by omega)
    have htotal : Total (.trivial State) (fun r s' => Ready (n + 2 + 1) r.1 s')
        ((object (params 1 1)).service.code ⟨1, p.world.calls.length⟩ (Call.push 8) l₁)
        p.world.shared :=
      Total.bind_of (push_ready 8 (by omega) hready) fun r s' h => .ret h
    obtain ⟨p', l', r, hr', ht', hready', hidle⟩ :=
      htotal.whole (fun _ _ => True.intro) hr h₁ True.intro
    refine ⟨p', hr', l₀, l', hidle 0 l₀ (by decide) h₀, ht', hw, ?_⟩
    rw [show n + 1 + 2 = n + 2 + 1 by omega]
    exact hready'

/-- Thread 0 pushes once and thread 1 pushes 2^16 times, which shifts the window as often. The first
check of the next push of thread 0 finds its version to be the present one. -/
theorem packedWindows_clash : ∃ p : Pool (object (params 1 1)).service,
    Reachable (initial (params 1 1)) .zero p ∧ p.world.shared.2.clash = true := by
  obtain ⟨p, hr, l₀, l₁, h₀, -, hw₀, hready⟩ := stale_run (2 ^ 16 - 1) (by omega)
  have hw : p.world.shared.1.globalWindow = ⟨2 ^ 16 + 1, 1⟩ := hready.window
  have hclash : window.Clash l₀.copy p.world.shared.1 := by
    refine ⟨?_, ?_⟩
    · show l₀.window.version = p.world.shared.1.globalWindow.version
      rw [hw₀, hw]
    · show l₀.window ≠ p.world.shared.1.globalWindow
      rw [hw₀, hw]
      simp
  refine Passes.call (A := fun s => s.2.clash = true) (c := Call.push 9) hr h₀ True.intro ?_
  refine .act 0 (.loop (.act 0 (.here ?_)))
  show (p.world.shared.2.clash || decide (window.Clash l₀.copy p.world.shared.1)) = true
  rw [decide_eq_true hclash, Bool.or_true]

end TwoDcOptimized
