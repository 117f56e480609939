import SemanticRelaxation.Prog.Ghost
import SemanticRelaxation.Prog.OneByOne
import SemanticRelaxation.Prog.Regime
import SemanticRelaxation.TwoDc.Stack
import SemanticRelaxation.TwoDc.WindowSeq
import Mathlib.Data.Prod.Lex

/-!
# Searches of the coupled window that run alone

The window and `count + depth` are words of 64 bits. Whatever the interleaving, as long as no shift
of the window wraps (`Unwrapped`), the maximum of the global window is a number of shifts above the
one it starts with, and the copies of the threads, torn or not, have maxima of this form (`OnGrid`).
From any such state a search that runs alone returns: `put_window` if some sub-structure leaves room
for a shift up of the window (`Room`), `get_window` if all are empty or one that is not has a
`count + depth` that fits the word (`Roomy`). A copy that is not the global window is replaced after
one round, and each shift brings the window closer to the counts. The counter of the hops has 16
bits, so this needs a width that it can reach, and it needs that a window above `depth` can be
shifted down (`Fitting`).

* `stack_obligations`: the windows and indices of all threads, in every reachable state;
* `putWindow_total`, `getWindow_total`: both searches return if they run alone;
* `getWindow_circles`: `get_window` does not if the window is above all sums for good.
-/

namespace TwoDc

namespace Alone

open AtomicProg TwoD Stack

variable {D X : Type} {set : Params} {m : ℕ}

/-- A shift that moves the window up or down adds or subtracts without a wrap of the word. -/
def Unwrapped (set : Params) (s s' : Shared D X) : Prop :=
  (s'.globalWindow.max = (s.globalWindow.max + set.shift) % set.modulus →
    s.globalWindow.max + set.shift < set.modulus) ∧
  (s'.globalWindow.max = Words.usub 64 s.globalWindow.max set.shift →
    set.shift ≤ s.globalWindow.max)

instance (s s' : Shared D X) : Decidable (Unwrapped set s s') := inferInstanceAs (Decidable (_ ∧ _))

/-- All sub-structures are empty, or one that is not can be compared with the window. -/
def Roomy [HasCount D] (set : Params) (s : Shared D X) : Prop :=
  (∀ j < set.width, s.count j = 0) ∨ ∃ j < set.width, 0 < s.count j ∧
    s.count j + set.depth < set.modulus

/-- Some sub-structure is not too full for a shift up of the window. -/
def Room [HasCount D] (set : Params) (s : Shared D X) : Prop :=
  ∃ j < set.width, s.count j + set.shift < set.modulus

/-- The values that the maximum of a window takes: it starts with `depth` in 16 bits. -/
def OnGrid (set : Params) (m : ℕ) : Prop := ∃ k, m = set.depth % 2 ^ 16 + k * set.shift

/-- Parameters for which the searches work. -/
structure Fitting (set : Params) : Prop where
  width_pos : 0 < set.width
  width_lt : set.width < 2 ^ 16
  shift_pos : 0 < set.shift
  random_lt : set.randomHops < 2 ^ 16
  depth_lt : set.depth < set.modulus
  /-- A window above `depth` can be shifted down. -/
  grid : ∀ m, OnGrid set m → set.depth < m → set.depth + set.shift ≤ m

theorem Fitting.fits (h : Fitting set) : Fits types set.randomHops set.width :=
  .of_lt h.width_pos h.width_lt h.random_lt rfl rfl

/-- The global window. -/
structure Good (set : Params) (s : Shared D X) : Prop where
  grid : OnGrid set s.globalWindow.max
  version : 0 < s.globalWindow.version

/-- What a thread holds between its calls. Before its first call, the version is 0. -/
structure Held (set : Params) (tl : Local) : Prop where
  index : tl.index < set.width
  window : OnGrid set tl.window.max ∨ tl.window.version = 0

/-- What a search holds. -/
structure Holds (set : Params) (tl : Local) : Prop where
  index : tl.index < set.width
  window : OnGrid set tl.window.max

theorem Holds.held {tl : Local} (h : Holds set tl) : Held set tl := ⟨h.index, .inl h.window⟩

theorem OnGrid.up (h : OnGrid set m) : OnGrid set (m + set.shift) := by
  obtain ⟨k, rfl⟩ := h
  exact ⟨k + 1, by ring⟩

theorem OnGrid.down (hp : Fitting set) (h : OnGrid set m) (hm : set.depth < m) :
    set.depth + set.shift ≤ m ∧ OnGrid set (m - set.shift) := by
  refine ⟨hp.grid m h hm, ?_⟩
  obtain ⟨k, rfl⟩ := h
  cases k with
  | zero =>
    have hle := Nat.mod_le set.depth (2 ^ 16)
    omega
  | succ k => exact ⟨k, by rw [Nat.succ_mul]; omega⟩

/-! ### Any interleaving -/

/-- Shifts that do not wrap change the window within the grid only. -/
def regime (C D X : Type) (set : Params) : Regime C (Shared D X) Unit where
  inv _ s := Good set s.1
  frame _ _ _ := True
  fresh _ _ := True
  assume s s' := Unwrapped set s s'
  refl _ _ := True.intro
  trans _ _ _ _ _ _ := True.intro
  inv_call _ _ _ h := h
  fresh_later _ _ _ _ _ := True.intro

section Interleaved

variable {L : Type} {S : Service (Shared D X) L} {E : Results S (regime S.Call D X set)}
  {c : Caller}
  {v : View E.protocol c} {tl : Local}

theorem good_of (v : View E.protocol c) : Good set v.state := v.inv_pair

/-- A step that leaves the window alone. -/
def Steady (s s' : Shared D X) : Prop := s'.globalWindow = s.globalWindow

theorem Steady.refl (s : Shared D X) : Steady s s := rfl

/-- A program on the other parts of the memory. -/
theorem quiet_spec {α : Type} {p : Prog (Shared D X) α} (h : p.Steps Steady)
    {A : Prop} (ha : A) : wp E.protocol c p (fun _ _ => A) v := by
  refine wp.mono (wp.of_steps h (fun calls x s hs hi => ?_) fun _ _ _ _ => True.intro)
    fun _ _ _ => ha
  have hi : Good set x.1 := hi
  have hgood : Good set s := by
    have hs : s.globalWindow = x.1.globalWindow := hs
    constructor
    · rw [hs]
      exact hi.grid
    · rw [hs]
      exact hi.version
  exact hgood

theorem readWindow_spec : wp E.protocol c readWindow (fun w _ => OnGrid set w.max) v :=
  wp.read fun v₁ _ => wp.read fun _ _ => (good_of v₁).grid

theorem randomIndex_spec (hp : Fitting set) :
    wp E.protocol c (randomIndex set.width) (fun i _ => i < set.width) v :=
  wp.choose fun _ _ _ => (Nat.mod_lt _ hp.fits.modulus).trans_le (Nat.mod_le _ _)

theorem hop_spec (hp : Fitting set) (index random hops : ℕ) :
    wp E.protocol c (hop set index random hops) (fun r _ => r.1 < set.width) v := by
  unfold hop TwoD.hop
  split
  · exact wp.bind_of (randomIndex_spec hp) fun _ _ h => h
  · exact RoundRobin.succ_lt hp.width_pos

theorem enter_spec (hp : Fitting set) {contention : Bool} (h : Held set tl) :
    wp E.protocol c (enter set contention tl) (fun tl' _ => Holds set tl') v := by
  refine wp.bind_of (A := fun w _ => OnGrid set w.max) ?_ fun w v₁ hw => ?_
  · refine wp.read fun v₁ h₁ => ?_
    split
    · exact readWindow_spec
    next hv =>
      have hversion : tl.window.version = v₁.state.globalWindow.version := not_not.1 hv
      refine h.window.resolve_right fun h0 => ?_
      have hpos := (good_of v₁).version
      omega
  · refine wp.bind_of (A := fun i _ => i < set.width) ?_ fun i v₂ hi => ⟨hi, hw⟩
    unfold startIndex
    split
    · exact randomIndex_spec hp
    · exact h.index

/-- An exchange by a window that is on the grid if the shift does not wrap. -/
theorem tryShift_spec {valid : Bool} {old new : Window} (hold : OnGrid set old.max)
    (hversion : 0 < new.version) (hnew : valid = true → ∀ s : Shared D X, s.globalWindow = old →
      Unwrapped set s { s with globalWindow := new } → OnGrid set new.max) :
    wp E.protocol c (tryShift valid old new) (fun w _ => OnGrid set w.max) v := by
  refine wp.read fun v₁ h₁ => ?_
  split
  next hc =>
    refine wp.cae (fun v₂ h₂ he ha => ?_) fun v₂ h₂ _ => readWindow_spec
    have hgrid := hnew hc.2 v₂.state he ha
    have hgood : Good set { v₂.state with globalWindow := new } := ⟨hgrid, hversion⟩
    exact ⟨v₂.now.2, Regime.allows v₂ hgood fun _ _ => True.intro, hgrid⟩
  next => exact hold

variable [HasCount D]

theorem readDescriptor_any {index : ℕ} :
    wp E.protocol c (readDescriptor index) (fun _ _ => True) v :=
  wp.read fun _ _ => wp.read fun _ _ => True.intro

/-- What a round of a search ends with. -/
def Searched (set : Params) (r : Search ⊕ (D × Local)) : Prop :=
  Sum.elim (fun st => Holds set st.tl) (fun a => Holds set a.2) r

theorem putRound_spec (hp : Fitting set) {st : Search} (h : Holds set st.tl) :
    wp E.protocol c (putRound set st) (fun r _ => Searched set r) v := by
  refine wp.bind_of readDescriptor_any fun d v₁ _ => wp.read fun v₂ h₂ => ?_
  split
  · exact wp.bind_of readWindow_spec fun w _ hw => ⟨h.index, hw⟩
  · split
    · exact h
    · split
      · exact wp.bind_of (hop_spec hp _ _ _) fun r _ hr => ⟨hr, h.window⟩
      · refine wp.bind_of (tryShift_spec h.window (Nat.succ_pos _) fun _ s he ha => ?_)
          fun w _ hw => ⟨h.index, hw⟩
        have hword := ha.1
        rw [he] at hword
        show OnGrid set ((st.tl.window.max + set.shift) % set.modulus)
        rw [Nat.mod_eq_of_lt (hword rfl)]
        exact h.window.up

theorem getRound_spec (hp : Fitting set) {st : Search} (h : Holds set st.tl) :
    wp E.protocol c (getRound set st) (fun r _ => Searched set r) v := by
  refine wp.bind_of readDescriptor_any fun d v₁ _ => wp.read fun v₂ h₂ => ?_
  split
  · exact wp.bind_of readWindow_spec fun w _ hw => ⟨h.index, hw⟩
  · split
    · exact h
    · split
      · exact wp.bind_of (hop_spec hp _ _ _) fun r _ hr => ⟨hr, h.window⟩
      · split
        · exact h
        · refine wp.bind_of (tryShift_spec h.window (Nat.succ_pos _) fun hvalid s he ha => ?_)
            fun w _ hw => ⟨h.index, hw⟩
          have hle : set.shift ≤ st.tl.window.max := by
            have hword := ha.2
            rw [he] at hword
            exact hword rfl
          rw [Words.usub_of_le hle] at hvalid ⊢
          have hvalid : set.depth ≤ st.tl.window.max - set.shift := of_decide_eq_true hvalid
          have hpos := hp.shift_pos
          exact (h.window.down hp (by omega)).2

omit [HasCount D] in
/-- A search ends with what a thread holds. -/
theorem search_spec (hp : Fitting set) {round : Search → Prog (Shared D X) (Search ⊕ (D × Local))}
    {contention : Bool} (hround : ∀ st (v : View E.protocol c), Holds set st.tl → wp E.protocol c
      (round st) (fun r _ => Searched set r) v)
    (h : Held set tl) :
    wp E.protocol c (enter set contention tl >>= fun tl => Prog.forever round ⟨tl, 0, 0, true⟩)
      (fun a _ => Held set a.2) v := by
  refine wp.bind_of (enter_spec hp h) fun tl' v₁ h₁ => ?_
  refine wp.forever (fun st _ => Holds set st.tl) h₁ fun st v₂ h₂ => (hround st v₂ h₂).mono ?_
  rintro (st' | a) v₃ h₃
  · exact h₃
  · exact Holds.held h₃

end Interleaved

section Stack

variable {E : Results (object set).service (regime Call Descriptor Treiber.Mem set)} {c : Caller}
  {v : View E.protocol c} {tl : Local}

theorem steps_stackCae (idx : ℕ) (old new : Descriptor) (push : Bool) :
    (stackCae idx old new push).Steps Steady :=
  .bind (.cae Steady.refl fun _ _ => rfl) fun _ => True.intro

theorem steps_createNode (val : ℤ) : (createNode val).Steps Steady := .update fun _ => rfl

theorem steps_setNext (node : ℕ) (next : Option ℕ) : (setNext node next).Steps Steady :=
  .update fun _ => rfl

theorem push_spec (hp : Fitting set) (h : Held set tl) (val : ℤ) :
    wp E.protocol c (push set val tl) (fun r _ => Held set r.1) v := by
  refine wp.bind_of (quiet_spec (steps_createNode val) h) fun n v₁ _ => ?_
  refine wp.forever (fun b _ => Held set b.2) h ?_
  rintro ⟨contention, tl'⟩ v₂ h₂
  refine wp.bind_of (search_spec hp (fun _ _ hs => putRound_spec hp hs) h₂) ?_
  rintro ⟨d, tl''⟩ v₃ h₃
  refine wp.bind_of (quiet_spec (steps_setNext _ _) h₃) fun _ v₄ h₄ => ?_
  refine wp.bind_of (quiet_spec (steps_stackCae _ _ _ _) h₄) fun done v₅ h₅ => ?_
  cases done with
  | true => exact h₅
  | false => exact h₅

theorem pop_spec (hp : Fitting set) (h : Held set tl) :
    wp E.protocol c (pop set tl) (fun r _ => Held set r.1) v := by
  refine wp.forever (fun b _ => Held set b.2) h ?_
  rintro ⟨contention, tl'⟩ v₂ h₂
  refine wp.bind_of (search_spec hp (fun _ _ hs => getRound_spec hp hs) h₂) ?_
  rintro ⟨d, tl''⟩ v₃ h₃
  dsimp only
  split
  next node hnode =>
    refine wp.read fun v₄ h₄ => ?_
    refine wp.bind_of (quiet_spec (steps_stackCae _ _ _ _) h₃) fun done v₅ h₅ => ?_
    cases done with
    | true => exact wp.read fun v₆ h₆ => h₅
    | false => exact h₅
  · exact h₃

theorem stack_obligations (hp : Fitting set) :
    Obligations (.trivial (object set).service (regime _ _ _ set))
    (fun _ => True) (fun _ l _ => Held set l) (fun _ _ x _ => Held set x.1) (initial set)
    () .zero where
  init := ⟨⟨0, by rw [Nat.zero_mul, Nat.add_zero]; rfl⟩, Nat.one_pos⟩
  init_fresh _ := True.intro
  init_loc _ := ⟨hp.width_pos, .inr rfl⟩
  loc_later _ _ _ _ _ _ _ _ _ hl := hl
  post_stable _ _ _ _ _ _ h := h
  code t op call l v _ _ _ hl _ := by
    cases call with
    | push val => exact wp.bind_of (push_spec hp hl val) fun _ _ h => h
    | pop => exact pop_spec hp hl
  finish _ _ _ _ _ h := ⟨fun _ _ => True.intro, h⟩

end Stack

/-! ### One thread alone -/

section Solo

variable {s s₀ : Shared D X} {st : Search} {tl : Local} {old new : Window}

theorem tryShift_total {Q : Window → Shared D X → Prop} (hv : old.version = s.globalWindow.version)
    (hsucc : s.globalWindow = old → Q new { s with globalWindow := new })
    (hfail : s.globalWindow ≠ old → Q s.globalWindow s) : Total (.trivial _) Q
    (tryShift true old new) s := by
  unfold tryShift
  rw [Total.read_iff, if_pos ⟨hv, rfl⟩]
  unfold caeWindow
  by_cases he : s.globalWindow = old
  · exact Total.cae_of_eq he fun _ => ⟨True.intro, .ret (hsucc he)⟩
  · unfold Prog.cae
    rw [Total.update_iff, if_neg he]
    exact fun _ => ⟨True.intro, TwoDc.readWindow_spec (hfail he)⟩

theorem enter_total (hp : Fitting set) (hs : Good set s) {contention : Bool} (h : Held set tl) :
    Total (.trivial _) (fun tl' s' => s' = s ∧ Holds set tl' ∧
      tl'.window.version = s.globalWindow.version)
      (enter set contention tl) s := by
  refine Total.bind_of (P := fun w s' => s' = s ∧ OnGrid set w.max ∧
    w.version = s.globalWindow.version) ?_ ?_
  · unfold syncWindow
    rw [Total.read_iff]
    split
    · exact TwoDc.readWindow_spec ⟨rfl, hs.grid, rfl⟩
    next hv =>
      have hversion : tl.window.version = s.globalWindow.version := not_not.1 hv
      refine .ret ⟨rfl, h.window.resolve_right fun h0 => ?_, hversion⟩
      have hpos := hs.version
      omega
  · rintro w s' ⟨rfl, hgrid, hversion⟩
    refine Total.bind_of (P := fun i s'' => s'' = s' ∧ i < set.width) ?_ ?_
    · unfold startIndex
      split
      · exact TwoD.randomIndex_spec hp.fits.modulus
      · exact .ret ⟨rfl, h.index⟩
    · rintro i s'' ⟨rfl, hi⟩
      exact .ret ⟨rfl, ⟨hi, hgrid⟩, hversion⟩

variable [HasCount D]

/-- At the head of a round: the array is as in the beginning, the thread's copy has the version of
the global window, and `P` holds of the counts that the search has left. -/
structure Scanning (set : Params) (P : ℕ → Prop) (s₀ : Shared D X) (st : Search) (s : Shared D X) :
    Prop where
  array : s.setArray = s₀.setArray
  grid : OnGrid set s.globalWindow.max
  version : st.tl.window.version = s.globalWindow.version
  window : OnGrid set st.tl.window.max
  scan : Scan set.randomHops set.width P st.tl.index st.random st.hops

open Classical in
/-- The shifts that may follow, one more if the copy is torn, and the hops that are left. -/
noncomputable def measure (set : Params) (shifts : ℕ) (st : Search) (s : Shared D X) : ℕ ×ₗ ℕ :=
  toLex ((if st.tl.window = s.globalWindow then 0 else 1) + shifts,
    hopsLeft set.randomHops set.width st.random st.hops)

/-- At the head of a round of `put_window`, all counts that were left are too large. -/
abbrev PutSolo (set : Params) (s₀ : Shared D X) (st : Search) (s : Shared D X) : Prop :=
  Scanning set (fun j => st.tl.window.max ≤ s₀.count j) s₀ st s

/-- A sub-structure that is not too full for the word stops `put_window` in the end. -/
theorem putRound_total (hp : Fitting set) {j : ℕ} (hj : j < set.width)
    (hroom : s₀.count j + set.shift < set.modulus) (h : PutSolo set s₀ st s) :
    Total (.trivial _) (fun r s' => Sum.elim (fun st' => PutSolo set s₀ st' s' ∧
        measure set (s₀.count j + 1 - s'.globalWindow.max) st' s' <
          measure set (s₀.count j + 1 - s.globalWindow.max) st s)
      (fun _ => True) r) (putRound set st) s := by
  unfold putRound
  refine readDescriptor_bind ?_
  rw [Total.read_iff, if_neg (not_not.2 h.version.symm)]
  split
  · exact .ret True.intro
  next hfull =>
    have hfull : st.tl.window.max ≤ s₀.count st.tl.index := by
      have harray := congrFun h.array st.tl.index
      rw [harray] at hfull
      exact Nat.le_of_not_lt hfull
    split
    next hhops =>
      refine Total.bind_of (TwoD.hop_spec hp.fits h.scan hfull hhops) ?_
      rintro ⟨i, random, hops⟩ s' ⟨rfl, hscan, hlt⟩
      exact .ret ⟨⟨h.array, h.grid, h.version, h.window, hscan⟩,
        Prod.Lex.toLex_lt_toLex.2 (.inr ⟨rfl, hlt⟩)⟩
    next hhops =>
      have hall := h.scan.all (not_not.1 hhops) j hj
      have hpos := hp.shift_pos
      have hlt : st.tl.window.max + set.shift < set.modulus := by omega
      rw [Nat.mod_eq_of_lt hlt]
      refine Total.bind_of (P := fun w s' => PutSolo set s₀
        { st with hops := 0, tl := { st.tl with window := w } } s' ∧
        measure set (s₀.count j + 1 - s'.globalWindow.max)
          { st with hops := 0, tl := { st.tl with window := w } } s' <
          measure set (s₀.count j + 1 - s.globalWindow.max) st s) (tryShift_total h.version ?_ ?_)
            fun w s' hw => .ret hw
      · intro he
        refine ⟨⟨h.array, h.window.up, rfl, h.window.up, .start h.scan.lt⟩,
          Prod.Lex.toLex_lt_toLex.2 (.inl ?_)⟩
        rw [if_pos rfl, if_pos he.symm, he]
        show 0 + (s₀.count j + 1 - (st.tl.window.max + set.shift)) <
          0 + (s₀.count j + 1 - st.tl.window.max)
        omega
      · intro he
        refine ⟨⟨h.array, h.grid, rfl, h.grid, .start h.scan.lt⟩,
          Prod.Lex.toLex_lt_toLex.2 (.inl ?_)⟩
        rw [if_pos rfl, if_neg fun hw => he hw.symm]
        omega

theorem putWindow_total (hp : Fitting set) (hs : Good set s) (hroom : Room set s)
    {contention : Bool} (h : Held set tl) :
    Total (.trivial _) (fun _ _ => True) (putWindow set contention tl) s := by
  obtain ⟨j, hj, hroom⟩ := hroom
  refine Total.bind_of (enter_total hp hs h) ?_
  rintro tl' s' ⟨rfl, hl, hversion⟩
  exact Total.forever (PutSolo set s')
    (fun st s => measure set (s'.count j + 1 - s.globalWindow.max) st s)
    (fun _ _ => putRound_total hp hj hroom) ⟨rfl, hs.grid, hversion, hl.window, .start hl.index⟩

/-- At the head of a round of `get_window`, all counts that were left are too small, and `empty` is
set as long as they are 0. -/
structure GetSolo (set : Params) (s₀ : Shared D X) (st : Search) (s : Shared D X) : Prop where
  scanning : Scanning set (fun j => (s₀.count j + set.depth) % set.modulus ≤ st.tl.window.max ∧
    (st.empty = true → s₀.count j = 0)) s₀ st s
  nonempty : st.empty = false → ∃ j < set.width, 0 < s₀.count j

omit [HasCount D] in
/-- The shift is valid if some count is positive and below a window on the grid. -/
theorem shift_valid (hp : Fitting set) {count : ℕ} (hm : OnGrid set m) (hpos : 0 < count)
    (hle : count + set.depth ≤ m) :
    Words.usub 64 m set.shift = m - set.shift ∧ set.depth ≤ m - set.shift ∧
      OnGrid set (m - set.shift) := by
  obtain ⟨hroom, hdown⟩ := hm.down hp (show set.depth < m by omega)
  exact ⟨Words.usub_of_le (by omega), by omega, hdown⟩

theorem getRound_total (hp : Fitting set) (hroomy : Roomy set s₀) (h : GetSolo set s₀ st s) :
    Total (.trivial _) (fun r s' => Sum.elim (fun st' => GetSolo set s₀ st' s' ∧
        measure set s'.globalWindow.max st' s' < measure set s.globalWindow.max st s)
      (fun _ => True) r) (getRound set st) s := by
  obtain ⟨hs, hne⟩ := h
  unfold getRound
  refine readDescriptor_bind ?_
  rw [Total.read_iff, if_neg (not_not.2 hs.version.symm), hs.array]
  split
  · exact .ret True.intro
  next hlow =>
    have hlow : (s₀.count st.tl.index + set.depth) % set.modulus ≤ st.tl.window.max :=
      Nat.le_of_not_lt hlow
    split
    next hhops =>
      generalize hempty : (if 0 < HasCount.count (s₀.setArray st.tl.index) then false
        else st.empty) = empty
      have hkeep : empty = true → st.empty = true ∧ s₀.count st.tl.index = 0 := by
        intro he
        by_cases hpos : 0 < s₀.count st.tl.index
        · rw [if_pos hpos] at hempty
          exact absurd (hempty.trans he) Bool.false_ne_true
        · rw [if_neg hpos] at hempty
          exact ⟨hempty.trans he, Nat.eq_zero_of_not_pos hpos⟩
      have hne' : empty = false → ∃ j < set.width, 0 < s₀.count j := by
        intro he
        by_cases hpos : 0 < s₀.count st.tl.index
        · exact ⟨_, hs.scan.lt, hpos⟩
        · rw [if_neg hpos] at hempty
          exact hne (hempty.trans he)
      have hscan := hs.scan.mono fun j _ hj =>
        (⟨hj.1, fun he => hj.2 (hkeep he).1⟩ : (s₀.count j + set.depth) % set.modulus ≤
          st.tl.window.max ∧
          (empty = true → s₀.count j = 0))
      refine Total.bind_of (TwoD.hop_spec hp.fits hscan ⟨hlow, fun he => (hkeep he).2⟩ hhops) ?_
      rintro ⟨i, random, hops⟩ s' ⟨rfl, hscan', hlt⟩
      exact .ret ⟨⟨⟨hs.array, hs.grid, hs.version, hs.window, hscan'⟩, hne'⟩,
        Prod.Lex.toLex_lt_toLex.2 (.inr ⟨rfl, hlt⟩)⟩
    next hhops =>
      split
      · exact .ret True.intro
      next hempty =>
        -- the sub-structure with a count that fits is below the window
        obtain ⟨j, hj, hpos, hfits⟩ : ∃ j < set.width, 0 < s₀.count j ∧
          s₀.count j + set.depth < set.modulus := by
          refine hroomy.resolve_left fun hzero => ?_
          obtain ⟨j, hj, hpos⟩ := hne (Bool.eq_false_iff.2 hempty)
          exact absurd (hzero j hj) hpos.ne'
        have hle := (hs.scan.all (not_not.1 hhops) j hj).1
        rw [Nat.mod_eq_of_lt hfits] at hle
        obtain ⟨hsub, hvalid, hdown⟩ := shift_valid hp hs.window hpos hle
        have hshift := hp.shift_pos
        simp only [hsub, hvalid, decide_true]
        refine Total.bind_of (P := fun w s' =>
          GetSolo set s₀ { st with hops := 0, empty := true, tl := { st.tl with window := w } } s' ∧
          measure set s'.globalWindow.max
            { st with hops := 0, empty := true, tl := { st.tl with window := w } } s' <
            measure set s.globalWindow.max st s) (tryShift_total hs.version ?_ ?_) fun w s' hw =>
              .ret hw
        · intro he
          refine ⟨⟨⟨hs.array, hdown, rfl, hdown, .start hs.scan.lt⟩, nofun⟩,
            Prod.Lex.toLex_lt_toLex.2 (.inl ?_)⟩
          rw [if_pos rfl, if_pos he.symm, he]
          show 0 + (st.tl.window.max - set.shift) < 0 + st.tl.window.max
          omega
        · intro he
          refine ⟨⟨⟨hs.array, hs.grid, rfl, hs.grid, .start hs.scan.lt⟩, nofun⟩,
            Prod.Lex.toLex_lt_toLex.2 (.inl ?_)⟩
          rw [if_pos rfl, if_neg fun hw => he hw.symm]
          omega

theorem getWindow_total (hp : Fitting set) (hs : Good set s) (hroomy : Roomy set s)
    {contention : Bool} (h : Held set tl) :
    Total (.trivial _) (fun _ _ => True) (getWindow set contention tl) s := by
  refine Total.bind_of (enter_total hp hs h) ?_
  rintro tl' s' ⟨rfl, hl, hversion⟩
  exact Total.forever (GetSolo set s') (fun st s => measure set s.globalWindow.max st s)
    (fun _ _ => getRound_total hp hroomy) ⟨⟨rfl, hs.grid, hversion, hl.window, .start hl.index⟩,
      nofun⟩

/-- A thread whose copy of the window is current, or has an old version. -/
def Fresh (tl : Local) (s : Shared D X) : Prop :=
  tl.window = s.globalWindow ∨ tl.window.version ≠ s.globalWindow.version

omit [HasCount D] in
theorem enter_slp (hw : 0 < set.width % 2 ^ 16) {contention : Bool} (h : Fresh tl s)
    (hi : tl.index < set.width) : slp (fun _ => True) (enter set contention tl)
      (fun tl' s' => s' = s ∧ tl'.window = s.globalWindow ∧ tl'.index < set.width) s := by
  refine slp.bind_of (A := fun w s' => s' = s ∧ w = s.globalWindow) ?_ ?_
  · refine slp.read fun _ => ?_
    split
    · exact slp.read fun _ => slp.read fun _ => ⟨rfl, rfl⟩
    next hv => exact ⟨rfl, h.resolve_right hv⟩
  · rintro w s' ⟨rfl, rfl⟩
    refine slp.bind_of (A := fun i s'' => s'' = s' ∧ i < set.width) ?_ ?_
    · unfold startIndex
      split
      · exact slp.of_total (fun _ _ => True.intro) (TwoD.randomIndex_spec (C := .trivial _) hw)
      · exact ⟨rfl, hi⟩
    · rintro i s'' ⟨rfl, hi'⟩
      exact ⟨rfl, rfl, hi'⟩

/-- The windows of `W` are above all sums, and a shift down leads to no other window. -/
structure Trapped (set : Params) (s : Shared D X) (W : ℕ → Prop) : Prop where
  low : ∀ m, W m → ∀ j < set.width, (s.count j + set.depth) % set.modulus ≤ m
  down : ∀ m, W m → set.depth ≤ Words.usub 64 m set.shift → W (Words.usub 64 m set.shift)
  nonempty : ¬∀ j < set.width, s.count j = 0

/-- At the head of a round of `get_window` that goes around for ever: the thread's copy is the
global window, which is one of `W`. -/
structure Circling (set : Params) (W : ℕ → Prop) (s₀ : Shared D X) (st : Search) (s : Shared D X) :
    Prop where
  array : s.setArray = s₀.setArray
  window : st.tl.window = s.globalWindow
  mem : W s.globalWindow.max
  scan : Scan set.randomHops set.width (fun j => st.empty = true →
    s₀.count j = 0) st.tl.index st.random st.hops

theorem readDescriptor_slp {index : ℕ} :
    slp (fun _ => True) (readDescriptor index) (fun d s' => d = s.setArray index ∧ s' = s) s :=
  slp.of_total (C := .trivial _) (fun _ _ => True.intro) (readDescriptor_spec ⟨rfl, rfl⟩)

theorem getRound_circles (hf : Fits types set.randomHops set.width) {W : ℕ → Prop}
    (ht : Trapped set s₀ W) (h : Circling set W s₀ st s) :
    slp (fun _ => True) (getRound set st) (fun r s' =>
      Sum.elim (fun st' => Circling set W s₀ st' s') (fun _ => False) r) s := by
  obtain ⟨harray, hwin, hmem, hscan⟩ := h
  refine slp.bind_of readDescriptor_slp ?_
  rintro d s ⟨rfl, rfl⟩
  rw [harray]
  refine slp.read fun _ => ?_
  have hlow : ¬st.tl.window.max < (HasCount.count (s₀.setArray st.tl.index) + set.depth) %
    set.modulus := by
    rw [hwin]
    exact Nat.not_lt.2 (ht.low _ hmem _ hscan.lt)
  rw [hwin, if_neg (not_not.2 rfl), ← hwin, if_neg hlow]
  split
  next hhops =>
    generalize hempty : (if 0 < HasCount.count (s₀.setArray st.tl.index) then false
      else st.empty) = empty
    have hkeep : empty = true → st.empty = true ∧ s₀.count st.tl.index = 0 := by
      intro he
      by_cases hpos : 0 < s₀.count st.tl.index
      · rw [if_pos hpos] at hempty
        exact absurd (hempty.trans he) Bool.false_ne_true
      · rw [if_neg hpos] at hempty
        exact ⟨hempty.trans he, Nat.eq_zero_of_not_pos hpos⟩
    have hscan' := hscan.mono fun j _ hj => (fun he => hj (hkeep he).1 : empty = true →
      s₀.count j = 0)
    refine slp.bind_of (slp.of_total (fun _ _ => True.intro)
      (TwoD.hop_spec (C := .trivial _) hf hscan' (fun he => (hkeep he).2) hhops)) ?_
    rintro ⟨i, random, hops⟩ s' ⟨rfl, hscan'', -⟩
    exact ⟨harray, hwin, hmem, hscan''⟩
  next hhops =>
    have hfull : st.empty ≠ true := fun he =>
      ht.nonempty fun j hj => hscan.all (not_not.1 hhops) j hj he
    rw [if_neg hfull]
    refine slp.bind_of (A := fun w s' => s'.setArray = s₀.setArray ∧ w = s'.globalWindow ∧
      W w.max) ?_ fun w s' ⟨harray', hw, hm⟩ => ⟨harray', hw, hw ▸ hm, .start hscan.lt⟩
    refine slp.read fun _ => ?_
    split
    next hvalid =>
      have hdown := ht.down _ (hwin ▸ hmem) (of_decide_eq_true hvalid.2)
      exact slp.cae (fun he _ => ⟨harray, rfl, hdown⟩) fun he => absurd hwin.symm he
    next => exact ⟨harray, hwin, hwin ▸ hmem⟩

theorem getWindow_circles (hf : Fits types set.randomHops set.width) {W : ℕ → Prop}
    (ht : Trapped set s W) (hW : W s.globalWindow.max) {contention : Bool}
    (hi : tl.index < set.width) (hw : Fresh tl s) :
    slp (fun _ => True) (getWindow set contention tl) (fun _ _ => False) s := by
  refine slp.bind_of (enter_slp hf.modulus hw hi) ?_
  rintro tl' s' ⟨rfl, hwin, hi'⟩
  exact slp.forever (Circling set W s') ⟨rfl, hwin, hW, .start hi'⟩ fun st s'' h =>
    getRound_circles hf ht h

/-- If all sums of positive counts and `depth` wrap, they are below every window that has reached
`depth`. -/
theorem trapped_of_wraps (hdepth : set.depth < set.modulus) (hroomy : ¬Roomy set s)
    (hcounts : ∀ j < set.width, s.count j < set.modulus) : Trapped set s (set.depth ≤ ·) where
  low m hm j hj := by
    refine le_trans ?_ hm
    have hlt := hcounts j hj
    rcases Nat.eq_zero_or_pos (s.count j) with hzero | hpos
    · rw [hzero, Nat.zero_add]
      exact Nat.mod_le _ _
    · have hwrap : set.modulus ≤ s.count j + set.depth := Nat.le_of_not_lt fun h =>
        hroomy (.inr ⟨j, hj, hpos, h⟩)
      rw [Nat.mod_eq_sub_mod hwrap, Nat.mod_eq_of_lt (by omega)]
      omega
  down _ _ h := h
  nonempty h := hroomy (.inl h)

end Solo

end Alone

end TwoDc
