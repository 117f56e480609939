import SemanticRelaxation.TwoDc.Window

/-!
# The coupled window without interference

A thread that runs alone keeps every count in the window `[max - depth, max]`, and both window
functions return: `putWindow_spec` and `getWindow_spec`. Nothing but the window changes.

The window moves up only when a whole round has found every count at `max`, and down only when it
has found every count at `max - depth`; as `shift ≤ depth`, the counts stay inside the new window,
and the next round finds a sub-structure at once.
-/

namespace TwoDc

open AtomicProg TwoD

/-- What `create_stack` and `create_counter` guarantee of the stored parameters. The words do not
wrap. -/
structure Params.WF (set : Params) : Prop where
  width_pos : 0 < set.width
  width_lt : set.width < 2 ^ 16
  shift_pos : 0 < set.shift
  shift_le : set.shift ≤ set.depth
  random_lt : set.randomHops < 2 ^ 16
  modulus_eq : set.modulus = 0

theorem Params.WF.fits {set : Params} (h : set.WF) : Fits types set.randomHops set.width :=
  .of_lt h.width_pos h.width_lt h.random_lt rfl rfl

variable {D X : Type} {set : Params}

section Counts

variable [HasCount D]

/-- The count of sub-structure `j`. -/
abbrev Shared.count (s : Shared D X) (j : ℕ) : ℕ := HasCount.count (s.setArray j)

/-- All counts lie in the global window, whose top is a number of shifts above `depth`. -/
structure WindowInv (set : Params) (s : Shared D X) : Prop where
  top : ∃ n, s.globalWindow.max = set.depth + n * set.shift
  le_max : ∀ j < set.width, s.count j ≤ s.globalWindow.max
  max_le : ∀ j < set.width, s.globalWindow.max ≤ s.count j + set.depth

theorem WindowInv.depth_le {s : Shared D X} (h : WindowInv set s) :
    set.depth ≤ s.globalWindow.max := by
  obtain ⟨n, hn⟩ := h.top
  omega

end Counts

/-- A thread's variables between two calls: a valid index, and a window that is old or current. -/
structure LocalOk (set : Params) (tl : Local) (s : Shared D X) : Prop where
  index_lt : tl.index < set.width
  version_le : tl.window.version ≤ s.globalWindow.version
  current : tl.window.version = s.globalWindow.version → tl.window = s.globalWindow

/-- `s'` is `s` with a window that is newer or the same. -/
structure Moved (s s' : Shared D X) : Prop where
  eq : s' = { s with globalWindow := s'.globalWindow }
  version_le : s.globalWindow.version ≤ s'.globalWindow.version
  same : s'.globalWindow.version = s.globalWindow.version → s'.globalWindow = s.globalWindow

namespace Moved

variable {s s' s'' : Shared D X}

theorem refl (s : Shared D X) : Moved s s := ⟨rfl, le_rfl, fun _ => rfl⟩

theorem trans (h : Moved s s') (h' : Moved s' s'') : Moved s s'' where
  eq := by rw [h'.eq, h.eq]
  version_le := h.version_le.trans h'.version_le
  same hv := by
    have h₁ := h.version_le
    have h₂ := h'.version_le
    rw [h'.same (by omega), h.same (by omega)]

theorem setArray (h : Moved s s') : s'.setArray = s.setArray := by rw [h.eq]

theorem mem (h : Moved s s') : s'.mem = s.mem := by rw [h.eq]

theorem count [HasCount D] (h : Moved s s') (j : ℕ) : s'.count j = s.count j := by
  rw [Shared.count, Shared.count, h.setArray]

/-- The window of `s'` is one version above that of `s`. -/
theorem bump (s : Shared D X) (m : ℕ) :
    Moved s { s with globalWindow := ⟨m, s.globalWindow.version + 1⟩ } :=
  ⟨rfl, Nat.le_succ _, fun h => absurd h (Nat.succ_ne_self _)⟩

theorem localOk (h : Moved s s') {tl : Local} (hl : LocalOk set tl s) : LocalOk set tl s' where
  index_lt := hl.index_lt
  version_le := hl.version_le.trans h.version_le
  current hv := by
    have h₁ := hl.version_le
    have h₂ := h.version_le
    rw [hl.current (by omega), h.same (by omega)]

end Moved

variable {C : Contract (Shared D X)} {s : Shared D X}

/-! ### The parts of the loops -/

theorem readWindow_spec {Q : Window → Shared D X → Prop} (h : Q s.globalWindow s) :
    Total C Q readWindow s := by
  simpa [readWindow] using h

theorem enter_spec (hp : set.WF) {contention : Bool} {tl : Local} (hl : LocalOk set tl s)
    {Q : Local → Shared D X → Prop} (h : ∀ i < set.width, Q ⟨s.globalWindow, i⟩ s) :
    Total C Q (enter set contention tl) s := by
  have hsync : Total C (fun w s' => w = s.globalWindow ∧ s' = s) (syncWindow tl.window) s := by
    simp only [syncWindow, Total.read_iff]
    split
    · exact readWindow_spec ⟨rfl, rfl⟩
    next hv => exact .ret ⟨hl.current (not_not.1 hv), rfl⟩
  refine Total.bind_of hsync ?_
  rintro w s' ⟨rfl, rfl⟩
  have hidx : Total C (fun i s'' => i < set.width ∧ s'' = s') (startIndex set contention tl.index)
      s' := by
    unfold startIndex
    split
    · exact (randomIndex_spec hp.fits.modulus).mono fun _ _ h => ⟨h.2, h.1⟩
    · exact .ret ⟨hl.index_lt, rfl⟩
  refine Total.bind_of hidx ?_
  rintro i s'' ⟨hi, rfl⟩
  exact .ret (h i hi)

/-- A shift of the current window succeeds. -/
theorem tryShift_spec {new : Window} {Q : Window → Shared D X → Prop}
    (hC : C.assume s { s with globalWindow := new } → C.guarantee s { s with globalWindow := new })
    (h : Q new { s with globalWindow := new }) :
    Total C Q (tryShift true s.globalWindow new) s := by
  simp only [tryShift, Total.read_iff, and_self, if_true]
  exact Total.cae_of_eq rfl fun ha => ⟨hC ha, .ret h⟩

theorem readDescriptor_spec [HasCount D] {index : ℕ} {Q : D → Shared D X → Prop}
    (h : Q (s.setArray index) s) :
    Total C Q (readDescriptor index) s := by
  unfold readDescriptor
  rw [Total.read_iff, Total.read_iff, HasCount.copy_self]
  exact .ret h

/-- The descriptor that a round begins with. -/
theorem readDescriptor_bind [HasCount D] {β : Type} {index : ℕ} {k : D → Prog (Shared D X) β}
    {Q : β → Shared D X → Prop} (h : Total C Q (k (s.setArray index)) s) :
    Total C Q (readDescriptor index >>= k) s := by
  refine Total.bind_of (readDescriptor_spec (Q := fun d s' => d = s.setArray index ∧ s' = s) ⟨rfl,
    rfl⟩) ?_
  rintro _ _ ⟨rfl, rfl⟩
  exact h

/-! ### `put_window` -/

section PutWindow

variable [HasCount D]

/-- Some sub-structure accepts a push. -/
def CanPut (set : Params) (s : Shared D X) : Prop :=
  ∃ j < set.width, s.count j < s.globalWindow.max

/-- At the head of every round: the thread's window is current, and every index left since the
last random hop had a full count. -/
structure PutLoop (set : Params) (s₀ : Shared D X) (st : Search) (s : Shared D X) : Prop where
  moved : Moved s₀ s
  inv : WindowInv set s
  window : st.tl.window = s.globalWindow
  scan : Scan set.randomHops set.width (fun j => s.count j = s.globalWindow.max)
    st.tl.index st.random st.hops

open Classical in
/-- The rounds left: the hops of this scan, and one scan more after a shift. -/
noncomputable def putMeasure (set : Params) (st : Search) (s : Shared D X) : ℕ :=
  hopsLeft set.randomHops set.width st.random st.hops +
    if CanPut set s then 0 else set.width + 1

/-- What `put_window` returns, for the state before and after. -/
structure PutPost (set : Params) (s₀ : Shared D X) (r : D × Local) (s : Shared D X) : Prop where
  moved : Moved s₀ s
  inv : WindowInv set s
  window : r.2.window = s.globalWindow
  index_lt : r.2.index < set.width
  descriptor : r.1 = s.setArray r.2.index
  count_lt : s.count r.2.index < s.globalWindow.max

/-- After a round that found every count at `max` the window moves up. -/
theorem WindowInv.shiftUp (hp : set.WF) (h : WindowInv set s)
    (hall : ∀ j < set.width, s.count j = s.globalWindow.max) :
    WindowInv set { s with globalWindow :=
      ⟨s.globalWindow.max + set.shift, s.globalWindow.version + 1⟩ } where
  top := by
    obtain ⟨n, hn⟩ := h.top
    exact ⟨n + 1, by simp only [hn]; ring⟩
  le_max j hj := by
    have : s.count j ≤ s.globalWindow.max := h.le_max j hj
    exact this.trans (Nat.le_add_right _ _)
  max_le j hj := by
    have h₁ := hall j hj
    have h₂ := hp.shift_le
    show s.globalWindow.max + set.shift ≤ s.count j + set.depth
    omega

theorem putRound_spec (hp : set.WF) {s₀ s : Shared D X} {st : Search}
    (h : PutLoop set s₀ st s) :
    Total (.trivial _) (fun r s' => Sum.elim
      (fun st' => PutLoop set s₀ st' s' ∧ putMeasure set st' s' < putMeasure set st s)
      (fun a => PutPost set s₀ a s') r) (putRound set st) s := by
  obtain ⟨⟨window, index⟩, hops, random, empty⟩ := st
  obtain ⟨hm, hi, hwin, hscan⟩ := h
  obtain rfl : window = s.globalWindow := hwin
  refine readDescriptor_bind ?_
  simp only [Total.read_iff, ne_eq, not_true_eq_false, if_false, hp.modulus_eq, Nat.mod_zero]
  by_cases hc : s.count index < s.globalWindow.max
  · rw [if_pos hc]
    exact .ret ⟨hm, hi, rfl, hscan.lt, rfl, hc⟩
  have hfull : s.count index = s.globalWindow.max :=
    le_antisymm (hi.le_max _ hscan.lt) (not_lt.1 hc)
  rw [if_neg hc]
  by_cases hh : hops = set.width
  · -- the round is complete: the window moves up, and then every count is below its top
    have hall := hscan.all hh
    have hfullAll : ¬ CanPut set s := by
      rintro ⟨j, hj, hlt⟩
      exact absurd (hall j hj) hlt.ne
    rw [if_neg (not_not.2 hh)]
    refine Total.bind_of (tryShift_spec (fun _ => True.intro) ⟨rfl, rfl⟩
      (Q := fun w s' => w = s'.globalWindow ∧ s' = _)) ?_
    rintro w s' ⟨rfl, rfl⟩
    have hcan : CanPut set { s with globalWindow :=
        ⟨s.globalWindow.max + set.shift, s.globalWindow.version + 1⟩ } :=
      ⟨0, hp.width_pos, lt_of_eq_of_lt (hall 0 hp.width_pos) (Nat.lt_add_of_pos_right hp.shift_pos)⟩
    refine .ret ⟨⟨hm.trans (Moved.bump s _), hi.shiftUp hp hall, rfl, .start hscan.lt⟩, ?_⟩
    simp only [putMeasure, hopsLeft, if_pos hcan, if_neg hfullAll]
    omega
  · rw [if_pos hh]
    refine Total.bind_of (hop_spec hp.fits hscan hfull hh) ?_
    rintro ⟨i, random', hops'⟩ s' ⟨rfl, hs, hlt⟩
    refine .ret ⟨⟨hm, hi, rfl, hs⟩, ?_⟩
    simp only [putMeasure] at hlt ⊢
    omega

/-- `put_window` returns a sub-structure whose count is below the top of the window. -/
theorem putWindow_spec (hp : set.WF) {contention : Bool} {tl : Local} (hi : WindowInv set s)
    (hl : LocalOk set tl s) :
    Total (.trivial _) (PutPost set s) (putWindow set contention tl) s := by
  refine Total.bind_of (enter_spec hp hl
    (Q := fun tl' s' => s' = s ∧ PutLoop set s ⟨tl', 0, 0, true⟩ s) ?_) ?_
  · exact fun i hlt => ⟨rfl, .refl s, hi, rfl, .start hlt⟩
  · rintro tl' s' ⟨rfl, hloop⟩
    exact Total.forever (PutLoop set s') (putMeasure set) (fun _ _ => putRound_spec hp) hloop

end PutWindow

/-! ### `get_window` -/

section GetWindow

variable [HasCount D]

/-- Some sub-structure accepts a pop. -/
def CanGet (set : Params) (s : Shared D X) : Prop :=
  ∃ j < set.width, s.globalWindow.max < s.count j + set.depth

/-- At the head of every round: the thread's window is current, every index left since the last
random hop stood at the bottom of the window, and `empty` is set as long as those counts are 0. -/
structure GetLoop (set : Params) (s₀ : Shared D X) (st : Search) (s : Shared D X) : Prop where
  moved : Moved s₀ s
  inv : WindowInv set s
  window : st.tl.window = s.globalWindow
  scan : Scan set.randomHops set.width
    (fun j => s.count j + set.depth = s.globalWindow.max ∧ (st.empty = true → s.count j = 0))
    st.tl.index st.random st.hops
  nonempty : st.empty = false → ∃ j < set.width, 0 < s.count j

open Classical in
/-- The rounds left: the hops of this scan, and one scan more after a shift. -/
noncomputable def getMeasure (set : Params) (st : Search) (s : Shared D X) : ℕ :=
  hopsLeft set.randomHops set.width st.random st.hops +
    if CanGet set s then 0 else set.width + 1

/-- What `get_window` returns, for the state before and after: a sub-structure above the bottom of
the window, or any one if all are empty. -/
structure GetPost (set : Params) (s₀ : Shared D X) (r : D × Local) (s : Shared D X) : Prop where
  moved : Moved s₀ s
  inv : WindowInv set s
  window : r.2.window = s.globalWindow
  index_lt : r.2.index < set.width
  descriptor : r.1 = s.setArray r.2.index
  answer : s.globalWindow.max < s.count r.2.index + set.depth ∨ ∀ j < set.width, s.count j = 0

/-- After a round that found every count at the bottom the window moves down, if it can. -/
theorem WindowInv.shiftDown (hp : set.WF) (h : WindowInv set s)
    (hall : ∀ j < set.width, s.count j + set.depth = s.globalWindow.max)
    (hpos : ∃ j < set.width, 0 < s.count j) :
    set.depth + set.shift ≤ s.globalWindow.max ∧
    WindowInv set { s with globalWindow :=
      ⟨s.globalWindow.max - set.shift, s.globalWindow.version + 1⟩ } := by
  obtain ⟨j₀, hj₀, hlt⟩ := hpos
  have h₀ := hall j₀ hj₀
  obtain ⟨n, hn⟩ := h.top
  obtain ⟨m, rfl⟩ : ∃ m, n = m + 1 := by
    cases n with
    | zero => omega
    | succ m => exact ⟨m, rfl⟩
  have hmax : s.globalWindow.max = set.depth + m * set.shift + set.shift := by
    rw [hn]
    ring
  have hs := hp.shift_le
  refine ⟨by omega, ⟨m, by simp only; omega⟩, fun j hj => ?_, fun j hj => ?_⟩
  · have := hall j hj
    show s.count j ≤ s.globalWindow.max - set.shift
    omega
  · have := hall j hj
    show s.globalWindow.max - set.shift ≤ s.count j + set.depth
    omega

theorem getRound_spec (hp : set.WF) {s₀ s : Shared D X} {st : Search}
    (h : GetLoop set s₀ st s) :
    Total (.trivial _) (fun r s' => Sum.elim
      (fun st' => GetLoop set s₀ st' s' ∧ getMeasure set st' s' < getMeasure set st s)
      (fun a => GetPost set s₀ a s') r) (getRound set st) s := by
  obtain ⟨⟨window, index⟩, hops, random, empty⟩ := st
  obtain ⟨hm, hi, hwin, hscan, hne⟩ := h
  obtain rfl : window = s.globalWindow := hwin
  refine readDescriptor_bind ?_
  simp only [Total.read_iff, ne_eq, not_true_eq_false, if_false, hp.modulus_eq, Nat.mod_zero]
  by_cases hc : s.globalWindow.max < s.count index + set.depth
  · rw [if_pos hc]
    exact .ret ⟨hm, hi, rfl, hscan.lt, rfl, .inl hc⟩
  have hbot : s.count index + set.depth = s.globalWindow.max :=
    le_antisymm (not_lt.1 hc) (hi.max_le _ hscan.lt)
  rw [if_neg hc]
  by_cases hh : hops = set.width
  · have hall := hscan.all hh
    rw [if_neg (not_not.2 hh)]
    cases empty with
    | true => exact .ret ⟨hm, hi, rfl, hscan.lt, rfl, .inr fun j hj => (hall j hj).2 rfl⟩
    | false =>
      -- some count is positive and all stand at the bottom, so the window can move down
      obtain ⟨hroom, hinv⟩ := hi.shiftDown hp (fun j hj => (hall j hj).1) (hne rfl)
      have hstuck : ¬ CanGet set s := by
        rintro ⟨j, hj, hlt⟩
        exact absurd (hall j hj).1 hlt.ne'
      have hsub : Words.usub 64 s.globalWindow.max set.shift = s.globalWindow.max - set.shift :=
        Words.usub_of_le (by omega)
      have hvalid : set.depth ≤ s.globalWindow.max - set.shift := by omega
      simp only [hsub, hvalid, decide_true, Bool.false_eq_true, if_false]
      refine Total.bind_of (tryShift_spec (fun _ => True.intro) ⟨rfl, rfl⟩
        (Q := fun w s' => w = s'.globalWindow ∧ s' = _)) ?_
      rintro w s' ⟨rfl, rfl⟩
      have hcan : CanGet set { s with globalWindow :=
          ⟨s.globalWindow.max - set.shift, s.globalWindow.version + 1⟩ } := by
        refine ⟨0, hp.width_pos, ?_⟩
        have h₁ := (hall 0 hp.width_pos).1
        have h₂ := hp.shift_pos
        show s.globalWindow.max - set.shift < s.count 0 + set.depth
        omega
      refine .ret ⟨⟨hm.trans (Moved.bump s _), hinv, rfl, .start hscan.lt,
        by intros; contradiction⟩, ?_⟩
      simp only [getMeasure, hopsLeft, if_pos hcan, if_neg hstuck]
      omega
  · rw [if_pos hh]
    generalize hempty' : (if 0 < HasCount.count (s.setArray index) then false else empty) = empty'
    have hkeep : empty' = true → empty = true ∧ s.count index = 0 := by
      intro h
      by_cases hpos : 0 < s.count index
      · rw [if_pos hpos] at hempty'
        exact absurd (hempty'.trans h) Bool.false_ne_true
      · rw [if_neg hpos] at hempty'
        exact ⟨hempty'.trans h, Nat.eq_zero_of_not_pos hpos⟩
    have hne' : empty' = false → ∃ j < set.width, 0 < s.count j := by
      intro h
      by_cases hpos : 0 < s.count index
      · exact ⟨index, hscan.lt, hpos⟩
      · rw [if_neg hpos] at hempty'
        exact hne (hempty'.trans h)
    have hscan' := hscan.mono fun j _ hj =>
      (⟨hj.1, fun h => hj.2 (hkeep h).1⟩ :
        s.count j + set.depth = s.globalWindow.max ∧ (empty' = true → s.count j = 0))
    refine Total.bind_of (hop_spec hp.fits hscan' ⟨hbot, fun h => (hkeep h).2⟩ hh) ?_
    rintro ⟨i, random', hops'⟩ s' ⟨rfl, hs, hlt⟩
    refine .ret ⟨⟨hm, hi, rfl, hs, hne'⟩, ?_⟩
    simp only [getMeasure] at hlt ⊢
    omega

/-- `get_window` returns a sub-structure above the bottom of the window, or all are empty. -/
theorem getWindow_spec (hp : set.WF) {contention : Bool} {tl : Local} (hi : WindowInv set s)
    (hl : LocalOk set tl s) :
    Total (.trivial _) (GetPost set s) (getWindow set contention tl) s := by
  refine Total.bind_of (enter_spec hp hl
    (Q := fun tl' s' => s' = s ∧ GetLoop set s ⟨tl', 0, 0, true⟩ s) ?_) ?_
  · exact fun i hlt => ⟨rfl, .refl s, hi, rfl, .start hlt, nofun⟩
  · rintro tl' s' ⟨rfl, hloop⟩
    exact Total.forever (GetLoop set s') (getMeasure set) (fun _ _ => getRound_spec hp) hloop

end GetWindow

end TwoDc
