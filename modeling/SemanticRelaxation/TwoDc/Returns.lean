import SemanticRelaxation.TwoDc.Alone
import SemanticRelaxation.TwoDc.StackSeq
import Mathlib.Algebra.Order.BigOperators.Group.Finset

/-!
# Which searches of the coupled window return

The searches that run alone return for widths below `2 ^ 16` and depths that the window comes to
(`window_returns`). For all others there is a run of one thread to a state from which a search does
not return. The runs are made of calls that may go as they are wanted to (`May`), with the number 0
for every random one.

* `walk`, `push_may`, `pop_may`: what a search alone, a push and a pop can do;
* `Reached.fill`, `Reached.drain`: sub-stacks are filled up to the window, or emptied down to it;
* `reached_trap`: a depth whose last 16 bits are above 1 lets the window start beside the multiples
  of the shift on which `depth` lies. It comes to stand above `depth` by less than a shift, with all
  counts below it: there is nothing to get, and no valid shift;
* `putWindow_stays`, `getWindow_stays`: the hops never come to a width of `2 ^ 16` or more.
-/

namespace TwoDc

namespace Alone

open AtomicProg TwoD Stack Treiber RoundRobin

/-- What the parameters that `create_stack` stores have in common. -/
structure Stored (set : Params) : Prop where
  shift_pos : 0 < set.shift
  shift_lt : set.shift < 2 ^ 63
  modulus : set.modulus = 2 ^ 64
  randomHops : set.randomHops = 2

section Rounds

variable {D X : Type} {set : Params} {s s' : Shared D X} {st : Search} {tl : Local}

theorem unwrapped_of_max_eq (hz : Stored set) (h : s'.globalWindow.max = s.globalWindow.max) :
    Unwrapped set s s' := by
  have hpos := hz.shift_pos
  have hlt := hz.shift_lt
  refine ⟨fun he => ?_, fun he => ?_⟩
  · rw [h, hz.modulus] at he
    rw [hz.modulus]
    omega
  · rw [h] at he
    unfold Words.usub at he
    split at he <;> omega

theorem unwrapped_up (hz : Stored set) {w : Window} (hm : w.max = s.globalWindow.max + set.shift)
    (hword : s.globalWindow.max + set.shift < 2 ^ 64) :
    Unwrapped set s { s with globalWindow := w } := by
  have hlt := hz.shift_lt
  refine ⟨fun _ => by rwa [hz.modulus], fun he => ?_⟩
  have he : w.max = Words.usub 64 s.globalWindow.max set.shift := he
  unfold Words.usub at he
  split at he <;> omega

/-- Runs in which no shift of the window wraps. -/
def allowed (hz : Stored set) : Contract (Shared D X) :=
  ⟨Unwrapped set, fun _ _ => True, fun _ => unwrapped_of_max_eq hz rfl, fun _ => True.intro⟩

/-- A search after a hop for which the number 0 is chosen. -/
def hopped (set : Params) (st : Search) (empty : Bool) : Search :=
  if st.random < set.randomHops then
    ⟨{ st.tl with index := 0 }, st.hops, (st.random + 1) % 2 ^ 16, empty⟩
  else
    ⟨{ st.tl with index := succ set.width st.tl.index }, (st.hops + 1) % 2 ^ 16, st.random, empty⟩

theorem hop_may {C : Contract (Shared D X)} {α : Type} {Q : α → Shared D X → Prop}
    {k : ℕ × ℕ × ℕ → Prog (Shared D X) α} (empty : Bool)
    (h : May C Q (k ((hopped set st empty).tl.index, (hopped set st empty).random,
      (hopped set st empty).hops)) s) :
    May C Q (hop set st.tl.index st.random st.hops >>= k) s := by
  refine .bind_of (A := fun r s' => r = ((hopped set st empty).tl.index,
    (hopped set st empty).random, (hopped set st empty).hops) ∧ s' = s) ?_ ?_
  · unfold hop TwoD.hop hopped
    split
    · refine .bind_of (A := fun i s' => i = 0 ∧ s' = s) (.choose 0 (.ret ⟨Nat.zero_mod _, rfl⟩)) ?_
      rintro i s' ⟨rfl, rfl⟩
      exact .ret ⟨rfl, rfl⟩
    · exact .ret ⟨rfl, rfl⟩
  · rintro _ _ ⟨rfl, rfl⟩
    exact h

/-- What a round does while the thread's copy is the global window: it ends the search at a
sub-structure with `A`, and else hops until it has been around. -/
structure Looks (C : Contract (Shared D X)) (set : Params) (s : Shared D X) (A : ℕ → Prop)
    (round : Search → Prog (Shared D X) (Search ⊕ (D × Local))) : Prop where
  hit : ∀ st, st.tl.window = s.globalWindow → A st.tl.index →
    May C (fun r s' => r = .inr (s.setArray st.tl.index, st.tl) ∧ s' = s) (round st) s
  hop : ∀ st, st.tl.window = s.globalWindow → ¬A st.tl.index → st.hops ≠ set.width →
    ∃ empty, May C (fun r s' => r = .inl (hopped set st empty) ∧ s' = s) (round st) s

/-- A search alone comes to a sub-structure with `A`, or around. -/
theorem walk (hz : Stored set) {C : Contract (Shared D X)} {A : ℕ → Prop}
    {round : Search → Prog (Shared D X) (Search ⊕ (D × Local))} (hl : Looks C set s A round)
    {Q : D × Local → Shared D X → Prop}
    (hhit : ∀ i < set.width, A i → Q (s.setArray i, ⟨s.globalWindow, i⟩) s)
    (hround : (∀ i < set.width, ¬A i) → set.width < 2 ^ 16 ∧ ∀ st : Search,
      st.tl = ⟨s.globalWindow, 0⟩ → st.hops = set.width → May C Q (Prog.forever round st) s)
    {n : ℕ} (hw : st.tl.window = s.globalWindow) (hi : st.tl.index < set.width)
    (hn : st.random < 2 ∧ st.hops = 0 ∧ 2 - st.random + set.width ≤ n ∨
      2 ≤ st.random ∧ st.hops = st.tl.index % 2 ^ 16 ∧ (∀ j < st.tl.index, ¬A j) ∧
        set.width - st.tl.index ≤ n) : May C Q (Prog.forever round st) s := by
  induction n generalizing st with
  | zero => omega
  | succ n ih =>
    by_cases hA : A st.tl.index
    · refine .forever ((hl.hit st hw hA).mono ?_)
      rintro _ s ⟨rfl, rfl⟩
      have htl : st.tl = ⟨s.globalWindow, st.tl.index⟩ := by rw [← hw]
      rw [htl]
      exact hhit _ hi hA
    · have hh : st.hops ≠ set.width := by
        have hle := Nat.mod_le st.tl.index (2 ^ 16)
        omega
      obtain ⟨empty, hm⟩ := hl.hop st hw hA hh
      refine .forever (hm.mono ?_)
      rintro _ s ⟨rfl, rfl⟩
      show May C Q (Prog.forever round (hopped set st empty)) s
      unfold hopped
      rw [hz.randomHops]
      rcases hn with ⟨hr, h0, hle⟩ | ⟨hr, hmod, hnone, hle⟩
      · rw [if_pos hr, Nat.mod_eq_of_lt (show st.random + 1 < 2 ^ 16 by omega)]
        refine ih hw (by dsimp only; omega) ?_
        by_cases hr' : st.random + 1 < 2
        · exact .inl ⟨hr', h0, by dsimp only; omega⟩
        · exact .inr ⟨Nat.le_of_not_lt hr', h0, nofun, by dsimp only; omega⟩
      · rw [if_neg (Nat.not_lt.2 hr)]
        have hnone' : ∀ j < st.tl.index + 1, ¬A j := fun j hj => by
          rcases Nat.lt_succ_iff_lt_or_eq.1 hj with hj | rfl
          · exact hnone j hj
          · exact hA
        unfold succ
        by_cases hend : set.width ≤ st.tl.index + 1
        · -- the search has come around
          obtain ⟨hlt, hround⟩ := hround fun i hi' => hnone' i (by omega)
          rw [if_pos hend]
          refine hround _ ?_ ?_
          · rw [← hw]
          · dsimp only
            omega
        · rw [if_neg hend]
          refine ih hw (by dsimp only; omega) (.inr ⟨hr, ?_, hnone', by dsimp only; omega⟩)
          dsimp only
          omega

theorem syncWindow_may {C : Contract (Shared D X)} (h : Fresh tl s) :
    May C (fun w s' => w = s.globalWindow ∧ s' = s) (syncWindow tl.window) s := by
  refine .read ?_
  split
  · exact .read (.read (.ret ⟨rfl, rfl⟩))
  next hv => exact .ret ⟨h.resolve_right hv, rfl⟩

/-- The search of a call in its first attempt. -/
theorem search_may (hz : Stored set) {C : Contract (Shared D X)} {A : ℕ → Prop}
    {round : Search → Prog (Shared D X) (Search ⊕ (D × Local))} (hl : Looks C set s A round)
    {Q : D × Local → Shared D X → Prop}
    (hhit : ∀ i < set.width, A i → Q (s.setArray i, ⟨s.globalWindow, i⟩) s)
    (hround : (∀ i < set.width, ¬A i) → set.width < 2 ^ 16 ∧ ∀ st : Search,
      st.tl = ⟨s.globalWindow, 0⟩ → st.hops = set.width → May C Q (Prog.forever round st) s)
    (hw : Fresh tl s) (hi : tl.index < set.width) :
    May C Q (enter set false tl >>= fun tl => Prog.forever round ⟨tl, 0, 0, true⟩) s := by
  refine .bind_of (A := fun tl' s' => tl' = ⟨s.globalWindow, tl.index⟩ ∧ s' = s) ?_ ?_
  · refine .bind_of (syncWindow_may hw) ?_
    rintro _ _ ⟨rfl, rfl⟩
    exact .ret ⟨rfl, rfl⟩
  · rintro _ _ ⟨rfl, rfl⟩
    exact walk hz hl hhit hround rfl hi (.inl ⟨Nat.two_pos, rfl, le_rfl⟩)

variable [HasCount D]

theorem readDescriptor_may {C : Contract (Shared D X)} {α : Type} {Q : α → Shared D X → Prop}
    {index : ℕ} {k : D → Prog (Shared D X) α} (h : May C Q (k (s.setArray index)) s) :
    May C Q (readDescriptor index >>= k) s := by
  refine .bind_of (A := fun d s' => d = s.setArray index ∧ s' = s) ?_ ?_
  · refine .read (.read ?_)
    rw [HasCount.copy_self]
    exact .ret ⟨rfl, rfl⟩
  · rintro _ _ ⟨rfl, rfl⟩
    exact h

theorem putRound_looks {C : Contract (Shared D X)} :
    Looks C set s (fun j => s.count j < s.globalWindow.max) (putRound set) where
  hit st hw hlt := by
    refine readDescriptor_may (.read ?_)
    rw [hw, if_neg (not_not.2 rfl), if_pos hlt]
    exact .ret ⟨rfl, rfl⟩
  hop st hw hge hh := by
    refine ⟨st.empty, readDescriptor_may (.read ?_)⟩
    rw [hw, if_neg (not_not.2 rfl), if_neg hge, if_pos hh]
    refine hop_may st.empty (.ret ⟨congrArg Sum.inl ?_, rfl⟩)
    unfold hopped
    split <;> rfl

theorem getRound_looks {C : Contract (Shared D X)} :
    Looks C set s (fun j => s.globalWindow.max < (s.count j + set.depth) % set.modulus)
      (getRound set) where
  hit st hw hlt := by
    refine readDescriptor_may (.read ?_)
    rw [hw, if_neg (not_not.2 rfl), if_pos hlt]
    exact .ret ⟨rfl, rfl⟩
  hop st hw hge hh := by
    refine ⟨if 0 < s.count st.tl.index then false else st.empty, readDescriptor_may (.read ?_)⟩
    rw [hw, if_neg (not_not.2 rfl), if_neg hge, if_pos hh]
    refine hop_may (if 0 < s.count st.tl.index then false else st.empty)
      (.ret ⟨congrArg Sum.inl ?_, rfl⟩)
    unfold hopped
    split <;> rfl

/-- `put_window` finds a sub-structure below the maximum, if there is one. -/
theorem putWindow_may (hz : Stored set) {C : Contract (Shared D X)} (hw : Fresh tl s)
    (hi : tl.index < set.width) (h : ∃ i < set.width, s.count i < s.globalWindow.max) :
    May C (fun r s' => s' = s ∧ ∃ i < set.width, s.count i < s.globalWindow.max ∧
      r = (s.setArray i, ⟨s.globalWindow, i⟩)) (putWindow set false tl) s := by
  obtain ⟨k, hk, hlt⟩ := h
  exact search_may hz putRound_looks (fun i hi hA => ⟨rfl, i, hi, hA, rfl⟩)
    (fun hnone => absurd hlt (hnone k hk)) hw hi

/-- `get_window` finds a sub-structure above the bottom, if there is one. -/
theorem getWindow_may (hz : Stored set) {C : Contract (Shared D X)} (hw : Fresh tl s)
    (hi : tl.index < set.width)
    (h : ∃ i < set.width, s.globalWindow.max < (s.count i + set.depth) % set.modulus) :
    May C (fun r s' => s' = s ∧ ∃ i < set.width,
      s.globalWindow.max < (s.count i + set.depth) % set.modulus ∧
      r = (s.setArray i, ⟨s.globalWindow, i⟩)) (getWindow set false tl) s := by
  obtain ⟨k, hk, hlt⟩ := h
  exact search_may hz getRound_looks (fun i hi hA => ⟨rfl, i, hi, hA, rfl⟩)
    (fun hnone => absurd hlt (hnone k hk)) hw hi

/-- `put_window` shifts the window, if no sub-structure is below the maximum, and finds the first
sub-structure. -/
theorem putWindow_shift (hz : Stored set) (hw : Fresh tl s) (hi : tl.index < set.width)
    (hlt : set.width < 2 ^ 16) (hfull : ∀ i < set.width, s.count i = s.globalWindow.max)
    (hword : s.globalWindow.max + set.shift < 2 ^ 64) :
    May (allowed hz) (fun r s' => ∃ w : Window, w.max = s.globalWindow.max + set.shift ∧
      s' = { s with globalWindow := w } ∧ r = (s.setArray 0, ⟨w, 0⟩))
      (putWindow set false tl) s := by
  refine search_may hz putRound_looks (fun i hi hA => absurd (hfull i hi) hA.ne)
    (fun _ => ⟨hlt, ?_⟩) hw hi
  rintro ⟨_, hops, random, empty⟩ rfl rfl
  have hcount : s.count 0 = s.globalWindow.max := hfull 0 (by omega)
  refine .forever (readDescriptor_may (.read ?_))
  have hge : ¬HasCount.count (s.setArray 0) < s.globalWindow.max := hcount.not_lt
  dsimp only
  rw [if_neg (not_not.2 rfl), if_neg hge, if_neg (not_not.2 rfl), hz.modulus,
    Nat.mod_eq_of_lt hword]
  refine .bind_of (A := fun w s' => w = ⟨s.globalWindow.max + set.shift,
    s.globalWindow.version + 1⟩ ∧ s' = { s with globalWindow := w }) ?_ ?_
  · refine .read ?_
    rw [if_pos ⟨rfl, rfl⟩]
    exact .cae rfl (unwrapped_up hz rfl hword) (.ret ⟨rfl, rfl⟩)
  · rintro _ _ ⟨rfl, rfl⟩
    have hpos := hz.shift_pos
    have hfree : s.count 0 < s.globalWindow.max + set.shift := by omega
    refine .ret (.forever ((putRound_looks.hit _ rfl hfree).mono ?_))
    rintro _ _ ⟨rfl, rfl⟩
    exact ⟨_, rfl, rfl, rfl⟩

/-! ### Widths that the counter of the hops does not reach -/

omit [HasCount D] in
theorem hop_slp (hw : 0 < set.width % 2 ^ 16) (hh : st.hops < 2 ^ 16) :
    slp (fun _ => True) (hop set st.tl.index st.random st.hops)
      (fun r s' => s' = s ∧ r.1 < set.width ∧ r.2.2 < 2 ^ 16) s := by
  unfold hop TwoD.hop
  split
  · refine slp.bind_of (slp.of_total (C := .trivial _) (fun _ _ => True.intro)
      (TwoD.randomIndex_spec hw)) ?_
    rintro i s' ⟨rfl, hi⟩
    exact ⟨rfl, hi, hh⟩
  · exact ⟨rfl, succ_lt (by omega), Nat.mod_lt _ (by decide)⟩

/-- What a search that does not leave its loop knows at the head of a round. -/
structure Staying (set : Params) (s₀ : Shared D X) (st : Search) (s : Shared D X) : Prop where
  state : s = s₀
  window : st.tl.window = s₀.globalWindow
  index : st.tl.index < set.width
  hops : st.hops < 2 ^ 16

omit [HasCount D] in
theorem search_stays (hw : 0 < set.width % 2 ^ 16)
    {round : Search → Prog (Shared D X) (Search ⊕ (D × Local))} {contention : Bool}
    (hround : ∀ st, Staying set s st s → slp (fun _ => True) (round st)
      (fun r s' => Sum.elim (fun st' => Staying set s st' s') (fun _ => False) r) s)
    (hf : Fresh tl s) (hi : tl.index < set.width) :
    slp (fun _ => True) (enter set contention tl >>= fun tl => Prog.forever round ⟨tl, 0, 0, true⟩)
      (fun _ _ => False) s := by
  refine slp.bind_of (enter_slp hw hf hi) ?_
  rintro tl' s' ⟨rfl, hwin, hi'⟩
  refine slp.forever (Staying set s') ⟨rfl, hwin, hi', Nat.two_pow_pos 16⟩ fun st s h => ?_
  obtain rfl := h.state
  exact hround st h

theorem putWindow_stays (hw : 0 < set.width % 2 ^ 16) (hge : 2 ^ 16 ≤ set.width)
    (hfull : ∀ i < set.width, s.globalWindow.max ≤ s.count i) {contention : Bool}
    (hf : Fresh tl s) (hi : tl.index < set.width) :
    slp (fun _ => True) (putWindow set contention tl) (fun _ _ => False) s := by
  refine search_stays hw (fun st h => ?_) hf hi
  refine slp.bind_of readDescriptor_slp ?_
  rintro d s ⟨rfl, rfl⟩
  refine slp.read fun _ => ?_
  have hhops := h.hops
  rw [h.window, if_neg (not_not.2 rfl), if_neg (Nat.not_lt.2 (hfull _ h.index)),
    if_pos (show st.hops ≠ set.width by omega)]
  refine slp.bind_of (hop_slp hw h.hops) ?_
  rintro ⟨i, random, hops⟩ s ⟨rfl, hi', hh⟩
  exact ⟨rfl, h.window, hi', hh⟩

theorem getWindow_stays (hw : 0 < set.width % 2 ^ 16) (hge : 2 ^ 16 ≤ set.width)
    (hlow : ∀ i < set.width, (s.count i + set.depth) % set.modulus ≤ s.globalWindow.max)
    {contention : Bool} (hf : Fresh tl s) (hi : tl.index < set.width) :
    slp (fun _ => True) (getWindow set contention tl) (fun _ _ => False) s := by
  refine search_stays hw (fun st h => ?_) hf hi
  refine slp.bind_of readDescriptor_slp ?_
  rintro d s ⟨rfl, rfl⟩
  refine slp.read fun _ => ?_
  have hhops := h.hops
  rw [h.window, if_neg (not_not.2 rfl), if_neg (Nat.not_lt.2 (hlow _ h.index)),
    if_pos (show st.hops ≠ set.width by omega)]
  refine slp.bind_of (hop_slp hw h.hops) ?_
  rintro ⟨i, random, hops⟩ s ⟨rfl, hi', hh⟩
  exact ⟨rfl, h.window, hi', hh⟩

end Rounds

/-! ### Runs of one thread -/

section Stack

variable {set : Params} {s : State} {tl : Local} {m : ℕ} {C : ℕ → ℕ}

/-- The stack while the thread is idle: the maximum of the window and the counts. -/
structure Holding (set : Params) (m : ℕ) (C : ℕ → ℕ) (tl : Local) (s : State) : Prop where
  index : tl.index < set.width
  fresh : Fresh tl s
  max : s.globalWindow.max = m
  listed : Listed set s
  count : ∀ j < set.width, s.count j = C j

theorem Holding.create (h : Holding set m C tl s) (val : ℤ) :
    Holding set m C tl { s with mem := s.mem.create val } :=
  ⟨h.index, h.fresh, h.max, h.listed.create val, h.count⟩

theorem Holding.count_update (h : Holding set m C tl s) (i : ℕ) (d : Descriptor) :
    ∀ j < set.width, HasCount.count (Function.update s.setArray i d j) =
      Function.update C i d.count j := by
  intro j hj
  by_cases hji : j = i
  · subst hji
    rw [Function.update_self, Function.update_self]
    rfl
  · rw [Function.update_of_ne hji, Function.update_of_ne hji]
    exact h.count j hj

theorem steady_may (hz : Stored set) {α : Type} {f : State → α × State} {Q : α → State → Prop}
    (hf : (f s).2.globalWindow = s.globalWindow) (h : Q (f s).1 (f s).2) :
    May (allowed hz) Q (Prog.update f) s :=
  .act 0 (unwrapped_of_max_eq hz (congrArg Window.max hf)) (.ret h)

theorem stackCae_may (hz : Stored set) {idx : ℕ} {old new : Descriptor} {push : Bool}
    (he : s.setArray idx = old) :
    May (allowed hz) (fun done s' => done = true ∧ s' = { s with
      setArray := Function.update s.setArray idx new
      mem := record idx old new push s.mem }) (stackCae idx old new push) s :=
  .cae he (unwrapped_of_max_eq hz rfl) (.ret ⟨rfl, rfl⟩)

/-- What the search of a call ends with: the entry `i`, with the maximum `m` of the window. -/
def Lands (s : State) (m i : ℕ) (r : Descriptor × Local) (s' : State) : Prop :=
  ∃ w : Window, w.max = m ∧ s' = { s with globalWindow := w } ∧ r = (s.setArray i, ⟨w, i⟩)

theorem push_may (hz : Stored set) (h : Holding set m C tl s) {m' : ℕ} {A : ℕ → Prop} (val : ℤ)
    (hsearch : May (allowed hz) (fun r s' => ∃ i < set.width, A i ∧
      Lands { s with mem := s.mem.create val } m' i r s') (putWindow set false tl)
        { s with mem := s.mem.create val }) :
    May (allowed hz) (fun r s' => ∃ i < set.width, A i ∧
      Holding set m' (Function.update C i (C i + 1)) r.1 s')
      ((object set).code (.push val) tl) s := by
  have hn : ∀ x ∈ s.mem.hist.added, x.node ≠ s.mem.fresh := fun x hx =>
    (h.listed.lists.fresh x hx).ne
  refine .bind_of (A := fun r s' => ∃ i < set.width, A i ∧
    Holding set m' (Function.update C i (C i + 1)) r.1 s') ?_ fun r s' h => .ret h
  refine .bind_of (A := fun n s' => n = s.mem.fresh ∧ s' = { s with mem := s.mem.create val })
    (steady_may hz rfl ⟨rfl, rfl⟩) ?_
  rintro _ _ ⟨rfl, rfl⟩
  refine .forever (.bind_of hsearch ?_)
  rintro _ _ ⟨i, hi, hA, w, hw, rfl, rfl⟩
  refine .bind_of (A := fun _ s' => s' = _) (steady_may hz rfl rfl) ?_
  rintro _ _ rfl
  refine .bind_of (stackCae_may hz rfl) ?_
  rintro _ _ ⟨rfl, rfl⟩
  have hlisted := ((h.listed.create val).setNext hn (s.setArray i).node).push hi hn
    (Nat.lt_succ_self _) (by simp [Mem.setNext])
  have hcount := h.count i hi
  refine .ret ⟨i, hi, hA, hi, .inl rfl, hw, ⟨hlisted.lists, hlisted.count⟩, ?_⟩
  rw [← hcount]
  exact h.count_update i _

theorem pop_may (hz : Stored set) (h : Holding set m C tl s) (hle : set.depth ≤ m)
    (hlow : ∃ i < set.width, m < (C i + set.depth) % set.modulus) :
    May (allowed hz) (fun r s' => ∃ i < set.width, m < (C i + set.depth) % set.modulus ∧
      Holding set m (Function.update C i (C i - 1)) r.1 s') ((object set).code .pop tl) s := by
  obtain ⟨k, hk, hlt⟩ := hlow
  refine .forever (.bind_of (getWindow_may hz h.fresh h.index
    ⟨k, hk, by rwa [h.max, h.count k hk]⟩) ?_)
  rintro _ s ⟨rfl, i, hi, hlt, rfl⟩
  rw [h.max, h.count i hi] at hlt
  have hpos : 0 < s.count i := by
    refine Nat.pos_of_ne_zero fun h0 => ?_
    rw [← h.count i hi, h0, Nat.zero_add] at hlt
    exact absurd ((Nat.mod_le _ _).trans hle) (Nat.not_le.2 hlt)
  dsimp only
  cases htop : (s.setArray i).node with
  | none =>
    have h0 := (h.listed.lists.top_eq_none_iff hi).1 htop
    rw [← h.listed.count i hi] at h0
    omega
  | some n =>
    refine .read (.bind_of (stackCae_may hz rfl) ?_)
    rintro _ _ ⟨rfl, rfl⟩
    obtain ⟨A, x, B, -, -, -, -, -, -, hlisted⟩ := h.listed.pop hi htop
    have hsub : Words.usub 64 (s.setArray i).count 1 = s.count i - 1 := Words.usub_of_le hpos
    have hcount := h.count i hi
    refine .read (.ret ⟨i, hi, hlt, hi, .inl rfl, h.max, ?_, ?_⟩)
    · rw [hsub, record_pop htop]
      exact ⟨hlisted.lists, hlisted.count⟩
    · rw [hsub, ← hcount]
      exact h.count_update i _

/-- A push while some sub-stack is below the maximum. -/
theorem push_below (hz : Stored set) (h : Holding set m C tl s)
    (hlow : ∃ i < set.width, C i < m) (val : ℤ) :
    May (allowed hz) (fun r s' => ∃ i < set.width, C i < m ∧
      Holding set m (Function.update C i (C i + 1)) r.1 s')
      ((object set).code (.push val) tl) s := by
  obtain ⟨k, hk, hlt⟩ := hlow
  have h₁ := h.create val
  refine push_may hz h val ((putWindow_may hz h₁.fresh h₁.index
    ⟨k, hk, by rwa [h₁.max, h₁.count k hk]⟩).mono ?_)
  rintro _ _ ⟨rfl, i, hi, hlt', rfl⟩
  rw [h₁.max, h₁.count i hi] at hlt'
  exact ⟨i, hi, hlt', _, h₁.max, rfl, rfl⟩

/-- A push while all sub-stacks are at the maximum. -/
theorem push_above (hz : Stored set) (hw : set.width < 2 ^ 16) (h : Holding set m (fun _ => m) tl s)
    (hword : m + set.shift < 2 ^ 64) (val : ℤ) :
    May (allowed hz) (fun r s' => ∃ i < set.width,
      Holding set (m + set.shift) (Function.update (fun _ => m) i (m + 1)) r.1 s')
      ((object set).code (.push val) tl) s := by
  have h₁ := h.create val
  refine (push_may hz h val (A := fun _ => True) ((putWindow_shift hz h₁.fresh h₁.index hw
    (fun i hi => by rw [h₁.max, h₁.count i hi]) (by rwa [h₁.max])).mono ?_)).mono
      fun _ _ ⟨i, hi, _, hh⟩ => ⟨i, hi, hh⟩
  rintro _ _ ⟨w, hm, rfl, rfl⟩
  exact ⟨0, (Nat.zero_le _).trans_lt h.index, True.intro, w, hm.trans (by rw [h₁.max]), rfl, rfl⟩

/-- Some run without a wrap of the window comes to a state with `X`, at which thread 0 is idle. -/
def Reached (set : Params) (X : Local → State → Prop) : Prop :=
  ∃ p : Pool (object set).service, Reach (fun _ _ => True) (Unwrapped set) (initial set) .zero p ∧
    ∃ tl, p.thread 0 = .idle tl ∧ X tl p.world.shared

theorem Reached.call (hz : Stored set) {X Y : Local → State → Prop} (h : Reached set X)
    (hcall : ∀ tl s, X tl s → ∃ c, May (allowed hz) (fun r s' => Y r.1 s')
      ((object set).code c tl) s) : Reached set Y := by
  obtain ⟨p, hr, tl, ht, hx⟩ := h
  obtain ⟨c, hc⟩ := hcall tl p.world.shared hx
  obtain ⟨p', tl', r, hr', ht', hy⟩ := May.call (C := allowed hz) hr ht True.intro hc
  exact ⟨p', hr', tl', ht', hy⟩

/-- Calls are made until `Y` holds: each makes `μ` smaller. -/
theorem Reached.until (hz : Stored set) {X : (ℕ → ℕ) → Local → State → Prop}
    {Y : Local → State → Prop} (μ : (ℕ → ℕ) → ℕ)
    (hstep : ∀ C tl s, X C tl s → Y tl s ∨ ∃ c, May (allowed hz)
      (fun r s' => ∃ C', X C' r.1 s' ∧ μ C' < μ C) ((object set).code c tl) s)
    (h : Reached set (X C)) : Reached set Y := by
  induction hn : μ C using Nat.strong_induction_on generalizing C with
  | _ n ih =>
    subst hn
    obtain ⟨p, hr, tl, ht, hx⟩ := h
    rcases hstep C tl _ hx with hy | ⟨c, hc⟩
    · exact ⟨p, hr, tl, ht, hy⟩
    · obtain ⟨p', hr', tl', ht', C', hx', hlt⟩ :=
        Reached.call hz ⟨p, hr, tl, ht, rfl, rfl⟩ (X := fun l x => l = tl ∧ x = p.world.shared)
          (Y := fun l x => ∃ C', X C' l x ∧ μ C' < μ C) (by
            rintro _ _ ⟨rfl, rfl⟩
            exact ⟨c, hc⟩)
      exact ih _ hlt ⟨p', hr', tl', ht', hx'⟩ rfl

/-- Pushes fill all sub-stacks up to the maximum. -/
theorem Reached.fill (hz : Stored set) (hC : ∀ j < set.width, C j ≤ m)
    (h : Reached set (Holding set m C)) : Reached set (Holding set m fun _ => m) := by
  refine Reached.until hz (X := fun C tl s => Holding set m C tl s ∧ ∀ j < set.width, C j ≤ m)
    (fun C => ∑ j ∈ Finset.range set.width, (m - C j)) (fun C tl s hx => ?_)
    (C := C) ?_
  · obtain ⟨hh, hle⟩ := hx
    by_cases hlow : ∃ i < set.width, C i < m
    · refine .inr ⟨.push 0, (push_below hz hh hlow 0).mono ?_⟩
      rintro r s' ⟨i, hi, hlt, hh'⟩
      refine ⟨_, ⟨hh', fun j hj => ?_⟩, Finset.sum_lt_sum (fun j _ => ?_)
        ⟨i, Finset.mem_range.2 hi, ?_⟩⟩
      · by_cases hji : j = i
        · subst hji
          rw [Function.update_self]
          exact hlt
        · rw [Function.update_of_ne hji]
          exact hle j hj
      · by_cases hji : j = i
        · subst hji
          rw [Function.update_self]
          omega
        · rw [Function.update_of_ne hji]
      · rw [Function.update_self]
        omega
    · refine .inl ⟨hh.index, hh.fresh, hh.max, hh.listed, fun j hj => ?_⟩
      rw [hh.count j hj]
      exact (hle j hj).antisymm (Nat.le_of_not_lt fun hlt => hlow ⟨j, hj, hlt⟩)
  · obtain ⟨p, hr, tl, ht, hh⟩ := h
    exact ⟨p, hr, tl, ht, hh, hC⟩

/-- Pops take items while some sum is above the maximum. -/
theorem Reached.drain (hz : Stored set) (low high : ℕ) (hle : set.depth ≤ m)
    (hlow : ∀ c, c ≤ high → m < (c + set.depth) % set.modulus → low < c)
    (hC : ∀ j < set.width, low ≤ C j ∧ C j ≤ high) (h : Reached set (Holding set m C)) :
    Reached set fun tl s => ∃ C, Holding set m C tl s ∧ ∀ j < set.width, low ≤ C j ∧ C j ≤ high ∧
      (C j + set.depth) % set.modulus ≤ m := by
  refine Reached.until hz (X := fun C tl s => Holding set m C tl s ∧ ∀ j < set.width,
    low ≤ C j ∧ C j ≤ high) (fun C => ∑ j ∈ Finset.range set.width, C j) (fun C tl s hx => ?_)
    (C := C) ?_
  · obtain ⟨hh, hC⟩ := hx
    by_cases habove : ∃ i < set.width, m < (C i + set.depth) % set.modulus
    · refine .inr ⟨.pop, (pop_may hz hh hle habove).mono ?_⟩
      rintro r s' ⟨i, hi, hlt, hh'⟩
      have hlt := hlow _ (hC i hi).2 hlt
      refine ⟨_, ⟨hh', fun j hj => ?_⟩, Finset.sum_lt_sum (fun j _ => ?_)
        ⟨i, Finset.mem_range.2 hi, ?_⟩⟩
      · have hj := hC j hj
        by_cases hji : j = i
        · subst hji
          rw [Function.update_self]
          omega
        · rwa [Function.update_of_ne hji]
      · by_cases hji : j = i
        · subst hji
          rw [Function.update_self]
          omega
        · rw [Function.update_of_ne hji]
      · rw [Function.update_self]
        omega
    · exact .inl ⟨C, hh, fun j hj => ⟨(hC j hj).1, (hC j hj).2, Nat.le_of_not_lt fun hlt =>
        habove ⟨j, hj, hlt⟩⟩⟩
  · obtain ⟨p, hr, tl, ht, hh⟩ := h
    exact ⟨p, hr, tl, ht, hh, hC⟩

end Stack

/-! ### The parameters of the stack -/

section Create

variable {width depth : ℕ}

theorem shift_eq (width depth : ℕ) :
    (wordParams width depth).shift = if 1 < depth / 2 then depth / 2 else 1 := rfl

theorem stored_params (width : ℕ) (hword : depth < 2 ^ 64) : Stored (wordParams width depth) := by
  refine ⟨?_, ?_, rfl, rfl⟩
  · rw [shift_eq]
    split <;> omega
  · rw [shift_eq]
    split <;> omega

/-- The parameters for which the searches work: the width fits into the counter of the hops, and the
window that starts with `depth` in 16 bits comes to `depth` itself. -/
theorem fitting_params (hw : 1 ≤ width) (hword : depth < 2 ^ 64) (hlt : width < 2 ^ 16)
    (hdepth : depth < 2 ^ 16 ∨ depth % 2 ^ 16 ≤ 1) : Fitting (wordParams width depth) := by
  have hpos := (stored_params width hword).shift_pos
  refine ⟨hw, hlt, hpos, show 2 < 2 ^ 16 by decide, hword, ?_⟩
  -- the maximum is one of the start, one shift above it, two, or more
  rintro _ ⟨k, rfl⟩ hm
  have hm : depth < depth % 2 ^ 16 + k * (wordParams width depth).shift := hm
  show depth + (wordParams width depth).shift ≤
    depth % 2 ^ 16 + k * (wordParams width depth).shift
  have hshift := shift_eq width depth
  split at hshift <;> match k with
  | 0 => omega
  | 1 => omega
  | 2 => omega
  | k + 3 =>
    rw [show (k + 3) * (wordParams width depth).shift = k * (wordParams width depth).shift +
      3 * (wordParams width depth).shift by ring]
    omega

/-- All sub-stacks are filled up to the window of the start. -/
theorem reached_bottom (depth : ℕ) (hw : 1 ≤ width) (hword : depth < 2 ^ 64) :
    Reached (wordParams width depth)
      (Holding (wordParams width depth) (depth % 2 ^ 16) fun _ => depth % 2 ^ 16) := by
  refine Reached.fill (stored_params width hword) (C := fun _ => 0) (fun _ _ => Nat.zero_le _) ?_
  exact ⟨_, .init, .zero, rfl, hw, .inr nofun, rfl, .initial, fun _ _ => rfl⟩

/-- A push moves the window up. -/
theorem reached_above (hlt : width < 2 ^ 16) (hword : depth < 2 ^ 64) {m : ℕ}
    (hm : m + (wordParams width depth).shift < 2 ^ 64)
    (h : Reached (wordParams width depth) (Holding (wordParams width depth) m fun _ => m)) :
    ∃ C, (∀ j, m ≤ C j ∧ C j ≤ m + 1) ∧ Reached (wordParams width depth)
      (Holding (wordParams width depth) (m + (wordParams width depth).shift) C) := by
  obtain ⟨p, hr, tl, ht, i, hi, hh⟩ := h.call (stored_params width hword)
    (Y := fun tl s => ∃ i < width, Holding (wordParams width depth)
      (m + (wordParams width depth).shift) (Function.update (fun _ => m) i (m + 1)) tl s)
    fun tl s hx => ⟨.push 0, push_above (stored_params width hword) hlt hx hm 0⟩
  refine ⟨_, fun j => ?_, p, hr, tl, ht, hh⟩
  by_cases hj : j = i
  · subst hj
    rw [Function.update_self]
    exact ⟨Nat.le_succ m, le_rfl⟩
  · rw [Function.update_of_ne hj]
    exact ⟨le_rfl, Nat.le_succ m⟩

/-- A window that is above all sums and cannot be moved down. -/
theorem Holding.trapped {m : ℕ} {C : ℕ → ℕ} {tl : Local} {s : State}
    (h : Holding (wordParams width depth) m C tl s) (hw : 1 ≤ width)
    (hC : ∀ j < width, 0 < C j ∧ (C j + depth) % 2 ^ 64 ≤ m)
    (hdown : Words.usub 64 m (wordParams width depth).shift < depth) :
    Trapped (wordParams width depth) s (· = m) where
  low := by
    rintro _ rfl j hj
    rw [h.count j hj]
    exact (hC j hj).2
  down := by
    rintro _ rfl hle
    exact absurd hle (Nat.not_le.2 hdown)
  nonempty hall := by
    have h0 := hall 0 hw
    rw [h.count 0 hw] at h0
    exact (hC 0 hw).1.ne' h0

/-- With any other depth, a run of one thread comes to a state from which `get_window` does not
return. -/
theorem reached_trap (hw : 1 ≤ width) (hlt : width < 2 ^ 16) (hword : depth < 2 ^ 64)
    (hge : 2 ^ 16 ≤ depth) (hmod : 2 ≤ depth % 2 ^ 16) :
    Reached (wordParams width depth) fun tl s => tl.index < width ∧ Fresh tl s ∧
      (∃ j < width, 0 < s.count j) ∧ (depth < 2 ^ 63 → Roomy (wordParams width depth) s) ∧
      Trapped (wordParams width depth) s (· = s.globalWindow.max) := by
  have hz := stored_params width hword
  have hshift := shift_eq width depth
  rw [if_pos (by omega)] at hshift
  -- two levels are filled
  obtain ⟨C, hC, h⟩ := reached_above hlt hword (by omega) (reached_bottom depth hw hword)
  have h := Reached.fill hz (fun j _ => (hC j).2.trans (by omega)) h
  by_cases hwrap : 2 ^ 64 ≤ depth % 2 ^ 16 + (wordParams width depth).shift + depth
  · obtain ⟨p, hr, tl, ht, hh⟩ := h
    have hpos : 0 < p.world.shared.count 0 := by
      rw [hh.count 0 hw]
      omega
    refine ⟨p, hr, tl, ht, hh.index, hh.fresh, ⟨0, hw, hpos⟩, fun hsmall => by omega, ?_⟩
    rw [hh.max]
    refine hh.trapped hw (fun j _ => ⟨by omega, ?_⟩) ?_
    · rw [Nat.mod_eq_sub_mod hwrap, Nat.mod_eq_of_lt (by omega)]
      omega
    rw [Words.usub_of_le (by omega)]
    omega
  · -- the window is moved to the next one, and pops take the items that it leaves them
    obtain ⟨C, hC, h⟩ := reached_above hlt hword (by omega) h
    have h := Reached.drain hz (depth % 2 ^ 16 + (wordParams width depth).shift +
      (wordParams width depth).shift - depth)
      (depth % 2 ^ 16 + (wordParams width depth).shift + 1) (show depth ≤ _ by omega)
      (fun c hc => show _ < (c + depth) % 2 ^ 64 → _ by omega)
      (fun j _ => ⟨(show _ ≤ _ by omega : _ ≤ _).trans (hC j).1, (hC j).2⟩) h
    obtain ⟨p, hr, tl, ht, C, hh, hC⟩ := h
    have hmod : ∀ j < width, (C j + depth) % 2 ^ 64 ≤ depth % 2 ^ 16 +
      (wordParams width depth).shift + (wordParams width depth).shift := fun j hj => (hC j hj).2.2
    have hpos : 0 < p.world.shared.count 0 := by
      have h0 := (hC 0 hw).1
      rw [hh.count 0 hw]
      omega
    refine ⟨p, hr, tl, ht, hh.index, hh.fresh, ⟨0, hw, hpos⟩,
      fun hsmall => .inr ⟨0, hw, hpos, ?_⟩, ?_⟩
    · have h0 := (hC 0 hw).2.1
      rw [hh.count 0 hw]
      show C 0 + depth < 2 ^ 64
      omega
    · rw [hh.max]
      refine hh.trapped hw (fun j hj => ⟨?_, hmod j hj⟩) ?_
      · have h1 := (hC j hj).1
        omega
      · rw [Words.usub_of_le (by omega)]
        omega

/-- Whatever has happened without a wrap of the window, both searches return if they run alone and
the counts leave room for them, with the variables that any thread has between its calls and with
any copy of a window, torn or not. Any other depth and any other width has a run to a state from
which one of them does not return. (If the width is a multiple of `2 ^ 16`, `random_index` divides
by zero.) -/
theorem window_returns (hw : 1 ≤ width) (hword : depth < 2 ^ 64) :
    (width < 2 ^ 16 → depth < 2 ^ 16 ∨ depth % 2 ^ 16 ≤ 1 →
      ∀ p : Pool (object (wordParams width depth)).service,
      Reach (fun _ _ => True) (Unwrapped (wordParams width depth))
        (initial (wordParams width depth)) .zero p →
      (∀ t tl, p.thread t = .idle tl → Held (wordParams width depth) tl) ∧
      (∀ tl contention, Held (wordParams width depth) tl →
        (Room (wordParams width depth) p.world.shared →
          (putWindow (wordParams width depth) contention tl).Terminates p.world.shared) ∧
        (Roomy (wordParams width depth) p.world.shared →
          (getWindow (wordParams width depth) contention tl).Terminates p.world.shared)) ∧
      ((∀ j < width, p.world.shared.count j < 2 ^ 64) → depth ≤ p.world.shared.globalWindow.max →
        ∀ tl contention, tl.index < width → tl.window = p.world.shared.globalWindow →
        (getWindow (wordParams width depth) contention tl).Terminates p.world.shared →
        Roomy (wordParams width depth) p.world.shared)) ∧
    (width < 2 ^ 16 → ¬(depth < 2 ^ 16 ∨ depth % 2 ^ 16 ≤ 1) →
      ∃ p : Pool (object (wordParams width depth)).service,
        Reach (fun _ _ => True) (Unwrapped (wordParams width depth))
          (initial (wordParams width depth)) .zero p ∧
        (∃ j < width, 0 < p.world.shared.count j) ∧
        (depth < 2 ^ 63 → Roomy (wordParams width depth) p.world.shared) ∧
        ∃ tl, p.thread 0 = .idle tl ∧ ∀ contention,
          ¬(getWindow (wordParams width depth) contention tl).Terminates p.world.shared) ∧
    (2 ^ 16 ≤ width → width % 2 ^ 16 ≠ 0 →
      ∃ p : Pool (object (wordParams width depth)).service,
        Reach (fun _ _ => True) (Unwrapped (wordParams width depth))
          (initial (wordParams width depth)) .zero p ∧
        Room (wordParams width depth) p.world.shared ∧
        ∃ tl, p.thread 0 = .idle tl ∧ ∀ contention,
          ¬(putWindow (wordParams width depth) contention tl).Terminates p.world.shared) := by
  refine ⟨fun hlt hdepth p hr => ?_, fun hlt hdepth => ?_, fun hge hmod => ?_⟩
  · have hp := fitting_params hw hword hlt hdepth
    obtain ⟨g, hg⟩ := (stack_obligations hp).implements.good hr
    have hgood : Good (wordParams width depth) p.world.shared := hg.inv.1
    refine ⟨hg.idle, fun tl contention h => ⟨fun hroom => ?_, fun hroomy => ?_⟩,
      fun hcounts hdepth tl contention hi hwin hreturns => ?_⟩
    · exact (putWindow_total hp hgood hroom h).terminates fun _ _ => True.intro
    · exact (getWindow_total hp hgood hroomy h).terminates fun _ _ => True.intro
    · by_contra hroomy
      exact (getWindow_circles hp.fits (trapped_of_wraps hword hroomy hcounts) hdepth hi
        (.inl hwin)).not_terminates hreturns
  · obtain ⟨p, hr, tl, ht, hi, hf, hpos, hroomy, htrap⟩ := reached_trap hw hlt hword
      (Nat.le_of_not_lt fun h => hdepth (.inl h)) (Nat.lt_of_not_le fun h => hdepth (.inr h))
    have hfits : Fits types (wordParams width depth).randomHops (wordParams width depth).width :=
      .of_lt hw hlt (by decide : 2 < 2 ^ 16) rfl rfl
    exact ⟨p, hr, hpos, hroomy, tl, ht, fun contention =>
      (getWindow_circles hfits htrap rfl hi hf).not_terminates⟩
  · obtain ⟨p, hr, tl, ht, hh⟩ := reached_bottom depth hw hword
    have hshift := (stored_params width hword).shift_lt
    refine ⟨p, hr, ⟨0, hw, ?_⟩, tl, ht, fun contention => (putWindow_stays
      (Nat.pos_of_ne_zero hmod) hge (fun i hi => ?_) hh.fresh hh.index).not_terminates⟩
    · rw [hh.count 0 hw]
      show _ < 2 ^ 64
      omega
    · rw [hh.max, hh.count i hi]

/-- Five pushes of two threads, with a shift of the window, and a pop: both searches return to both
threads. On a single stack with a depth of 65538, `get_window` comes not to return. -/
theorem window_returns_two : (∃ p : Pool (object (wordParams 2 2)).service,
    Reach (fun _ _ => True) (Unwrapped (wordParams 2 2)) (initial (wordParams 2 2)) .zero p ∧
    p.world.shared.globalWindow.max = 3 ∧ p.world.shared.count 0 = 3 ∧ p.world.shared.count 1 = 1 ∧
    ∀ t tl, p.thread t = .idle tl → ∀ contention,
      (putWindow (wordParams 2 2) contention tl).Terminates p.world.shared ∧
      (getWindow (wordParams 2 2) contention tl).Terminates p.world.shared) ∧
    ∃ p : Pool (object (wordParams 1 65538)).service, Reach (fun _ _ => True)
      (Unwrapped (wordParams 1 65538)) (initial (wordParams 1 65538)) .zero p ∧
      (∃ j < 1, 0 < p.world.shared.count j) ∧ Roomy (wordParams 1 65538) p.world.shared ∧
      ∃ tl, p.thread 0 = .idle tl ∧ ∀ contention,
        ¬(getWindow (wordParams 1 65538) contention tl).Terminates p.world.shared := by
  have h : (((Pool.init (object (wordParams 2 2)).service (initial (wordParams 2 2)) .zero).execIf
      (fun s s' => decide (Unwrapped (wordParams 2 2) s s'))
      (Move.invoke 0 (Call.push 7) :: Move.invoke 1 (Call.push 8) ::
        (List.replicate 12 [Move.step 0 0, Move.step 1 1]).flatten ++
        List.replicate 9 (Move.step 1 1) ++
        Move.invoke 0 (Call.push 9) :: List.replicate 10 (Move.step 0 0) ++
        Move.invoke 1 (Call.push 10) :: List.replicate 10 (Move.step 1 1) ++
        Move.invoke 0 (Call.push 11) :: List.replicate 34 (Move.step 0 0) ++
        Move.invoke 1 Call.pop :: List.replicate 12 (Move.step 1 1))).any fun p =>
      decide (p.world.shared.globalWindow.max = 3 ∧ p.world.shared.count 0 = 3 ∧
        p.world.shared.count 1 = 1)) = true := by
    decide +kernel
  obtain ⟨p, hp, hc⟩ := (Option.any_eq_true _ _).1 h
  obtain ⟨hmax, h0, h1⟩ := of_decide_eq_true hc
  have hr := Pool.execIf_reach (fun _ _ => of_decide_eq_true) hp (fun _ _ _ _ => True.intro) .init
  obtain ⟨hidle, hreturns, -⟩ := (window_returns (by decide) (by decide)).1 (by decide)
    (.inl (by decide)) p hr
  obtain ⟨p', hr', hpos, hroomy', hstays⟩ := (@window_returns 1 65538 (by decide)
    (by decide)).2.1 (by decide) (by decide)
  have hroom : Room (wordParams 2 2) p.world.shared := ⟨0, by decide, by rw [h0]; decide⟩
  have hroomy : Roomy (wordParams 2 2) p.world.shared :=
    .inr ⟨0, by decide, by rw [h0]; decide, by rw [h0]; decide⟩
  refine ⟨⟨p, hr, hmax, h0, h1, fun t tl ht contention => ?_⟩, p', hr', hpos,
    hroomy' (by decide), hstays⟩
  obtain ⟨hput, hget⟩ := hreturns tl contention (hidle t tl ht)
  exact ⟨hput hroom, hget hroomy⟩

/-- A stack of 65537 sub-stacks of depth 1: the first `get_window` does not return. -/
theorem window_strays :
    Reachable (initial (wordParams 65537 1)) .zero (Pool.init (object (wordParams 65537 1)).service
      (initial (wordParams 65537 1)) .zero) ∧
    ¬(getWindow (wordParams 65537 1) false .zero).Terminates (initial (wordParams 65537 1)) :=
  ⟨.init, (getWindow_stays (by decide) (by decide)
    (fun _ _ => show (0 + 1) % 2 ^ 64 ≤ 1 % 2 ^ 16 by decide)
    (.inr (show (0 : ℕ) ≠ 1 by decide)) (by decide)).not_terminates⟩

end Create

end Alone

end TwoDc
