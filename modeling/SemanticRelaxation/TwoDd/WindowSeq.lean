import SemanticRelaxation.TwoDd.Window

/-!
# The decoupled windows without interference

`WindowInv`: both windows have multiples of `depth` as maxima, the put counts stay in the put
window, the get counts in the get window, and no get count passes the put count of its
sub-structure. Both window functions keep it and return, and change nothing but the windows
(`putWindow_spec`, `getWindow_spec`).

The get window moves only after a round that met an item but none in the window. That item lies
above the window, so the put window is ahead, and with it every put count is at least the maximum
of the get window: all sub-structures have been emptied up to it.
-/

namespace TwoDd

open AtomicProg TwoD

variable {X D : Type} [Arrays X D] {set : Params}

/-- What `create_queue` and `create_stack` guarantee of the stored parameters, as far as no C type
overflows. -/
structure Params.WF (set : Params) : Prop where
  fits : Fits types set.randomHops set.width
  depth_pos : 0 < set.depth

/-- The put count of sub-structure `j`. -/
abbrev Shared.putCount (s : Shared X) (j : ℕ) : ℕ := Arrays.putCount X (Arrays.put s.mem j)

/-- The get count of sub-structure `j`. -/
abbrev Shared.getCount (s : Shared X) (j : ℕ) : ℕ := Arrays.getCount X (Arrays.get s.mem j)

/-- The counts lie in the windows. -/
structure WindowInv (set : Params) (s : Shared X) : Prop where
  put_dvd : set.depth ∣ s.globalPWindow
  get_dvd : set.depth ∣ s.globalGWindow
  put_le : ∀ j < set.width, s.putCount j ≤ s.globalPWindow
  le_put : ∀ j < set.width, s.globalPWindow ≤ s.putCount j + set.depth
  get_le : ∀ j < set.width, s.getCount j ≤ s.globalGWindow
  le_get : ∀ j < set.width, s.globalGWindow ≤ s.getCount j + set.depth
  get_le_put : ∀ j < set.width, s.getCount j ≤ s.putCount j

/-- A put on a sub-structure whose put count is below the maximum keeps the counts in the windows.
-/
theorem WindowInv.put {s : Shared X} (h : WindowInv set s) {mem : X} {j : ℕ}
    (hlt : s.putCount j < s.globalPWindow)
    (hj : Arrays.putCount X (Arrays.put mem j) = s.putCount j + 1)
    (hput : ∀ i ≠ j, Arrays.putCount X (Arrays.put mem i) = s.putCount i)
    (hget : ∀ i, Arrays.getCount X (Arrays.get mem i) = s.getCount i) :
    WindowInv set { s with mem } := by
  have hcases : ∀ i, s.putCount i ≤ Arrays.putCount X (Arrays.put mem i) ∧
      (Arrays.putCount X (Arrays.put mem i) = s.putCount i ∨
        Arrays.putCount X (Arrays.put mem i) ≤ s.globalPWindow) := by
    intro i
    by_cases hi : i = j
    · subst hi
      rw [hj]
      exact ⟨Nat.le_succ _, .inr hlt⟩
    · rw [hput i hi]
      exact ⟨le_rfl, .inl rfl⟩
  refine ⟨h.put_dvd, h.get_dvd, fun i hi => ?_, fun i hi => ?_, fun i hi => ?_, fun i hi => ?_,
    fun i hi => ?_⟩
  · rcases (hcases i).2 with he | hle
    · exact he.trans_le (h.put_le i hi)
    · exact hle
  · exact (h.le_put i hi).trans (Nat.add_le_add_right (hcases i).1 _)
  · exact (hget i).trans_le (h.get_le i hi)
  · exact (h.le_get i hi).trans (Nat.add_le_add_right (hget i).ge _)
  · exact (hget i).trans_le ((h.get_le_put i hi).trans (hcases i).1)

/-- A get from a sub-structure with an item in the window keeps the counts in the windows. -/
theorem WindowInv.get {s : Shared X} (h : WindowInv set s) {mem : X} {j : ℕ}
    (hlt : s.getCount j < s.globalGWindow) (hne : s.getCount j < s.putCount j)
    (hj : Arrays.getCount X (Arrays.get mem j) = s.getCount j + 1)
    (hget : ∀ i ≠ j, Arrays.getCount X (Arrays.get mem i) = s.getCount i)
    (hput : ∀ i, Arrays.putCount X (Arrays.put mem i) = s.putCount i) :
    WindowInv set { s with mem } := by
  have hcases : ∀ i, s.getCount i ≤ Arrays.getCount X (Arrays.get mem i) ∧
      (Arrays.getCount X (Arrays.get mem i) = s.getCount i ∨
        Arrays.getCount X (Arrays.get mem i) ≤ s.globalGWindow ∧
          Arrays.getCount X (Arrays.get mem i) ≤ s.putCount i) := by
    intro i
    by_cases hi : i = j
    · subst hi
      rw [hj]
      exact ⟨Nat.le_succ _, .inr ⟨hlt, hne⟩⟩
    · rw [hget i hi]
      exact ⟨le_rfl, .inl rfl⟩
  refine ⟨h.put_dvd, h.get_dvd, fun i hi => ?_, fun i hi => ?_, fun i hi => ?_, fun i hi => ?_,
    fun i hi => ?_⟩
  · exact (hput i).trans_le (h.put_le i hi)
  · exact (h.le_put i hi).trans (Nat.add_le_add_right (hput i).ge _)
  · rcases (hcases i).2 with he | hle
    · exact he.trans_le (h.get_le i hi)
    · exact hle.1
  · exact (h.le_get i hi).trans (Nat.add_le_add_right (hcases i).1 _)
  · refine le_trans ?_ (hput i).ge
    rcases (hcases i).2 with he | hle
    · exact he.trans_le (h.get_le_put i hi)
    · exact hle.2

variable {C : Contract (Shared X)} {s : Shared X}

/-! ### The parts of the loops -/

theorem readDescriptor_spec {β : Type} {Q : β → Shared X → Prop} {array : X → ℕ → D} {index : ℕ}
    {k : D → Prog (Shared X) β} (h : Total C Q (k (array s.mem index)) s) :
    Total C Q (readDescriptor array index >>= k) s := by
  simp only [readDescriptor, Prog.bind_assoc, Total.read_iff, Arrays.copy_self]
  exact h

theorem startIndex_spec (hp : set.WF) {contention : Bool} {index : ℕ} (hi : index < set.width) :
    Total C (fun i s' => s' = s ∧ i < set.width) (startIndex set contention index) s := by
  unfold startIndex
  split
  · exact randomIndex_spec hp.fits.modulus
  · exact .ret ⟨rfl, hi⟩

theorem syncWindow_spec {window : Shared X → ℕ} {old : ℕ} :
    Total C (fun m s' => s' = s ∧ m = window s) (syncWindow window old) s := by
  simp only [syncWindow, Total.read_iff]
  split
  · exact Total.act (fun _ _ => C.guarantee_refl s) fun _ _ => .ret ⟨rfl, rfl⟩
  next h => exact .ret ⟨rfl, not_not.1 h⟩

/-- A shift of the current window succeeds. -/
theorem shiftWindow_spec {window : Shared X → ℕ} {store : ℕ → Shared X → Shared X} {new : ℕ}
    (hs : window (store new s) = new) :
    Total (.trivial _) (fun m s' => s' = store new s ∧ m = new)
      (shiftWindow window store (window s) new) s := by
  simp only [shiftWindow, tryShift, Prog.bind_assoc, Total.read_iff, if_true]
  refine Total.cae_of_eq rfl fun _ => ⟨True.intro, ?_⟩
  exact Total.act (fun _ _ => True.intro) fun _ _ => .ret ⟨rfl, hs⟩

/-! ### `put_window` -/

/-- Some sub-structure accepts a put. -/
def CanPut (set : Params) (s : Shared X) : Prop :=
  ∃ j < set.width, s.putCount j < s.globalPWindow

/-- At the head of every round: the thread's window is current, and every index left since the
last random hop had a full put count. -/
structure PutLoop (set : Params) (mem : X) (gMax : ℕ) (st : Search) (s : Shared X) : Prop where
  mem_eq : s.mem = mem
  get_eq : s.globalGWindow = gMax
  inv : WindowInv set s
  window : st.tl.pWindow = s.globalPWindow
  scan : Scan set.randomHops set.width (fun j => s.putCount j = s.globalPWindow)
    st.tl.index st.random st.hops

open Classical in
/-- The rounds left: the hops of this scan, and one scan more after a shift. -/
noncomputable def putMeasure (set : Params) (st : Search) (s : Shared X) : ℕ :=
  hopsLeft set.randomHops set.width st.random st.hops +
    if CanPut set s then 0 else set.width + 1

/-- What `put_window` returns, for the state before and after. -/
structure PutPost (set : Params) (mem : X) (gMax : ℕ) (r : D × Local) (s : Shared X) : Prop where
  mem_eq : s.mem = mem
  get_eq : s.globalGWindow = gMax
  inv : WindowInv set s
  window : r.2.pWindow = s.globalPWindow
  index_lt : r.2.index < set.width
  descriptor : r.1 = Arrays.put s.mem r.2.index
  count_lt : s.putCount r.2.index < s.globalPWindow

/-- After a round that found every put count at the maximum the put window moves up. -/
theorem WindowInv.shiftPut (h : WindowInv set s)
    (hall : ∀ j < set.width, s.putCount j = s.globalPWindow) :
    WindowInv set { s with globalPWindow := s.globalPWindow + set.depth } where
  put_dvd := (Nat.dvd_add_self_right).2 h.put_dvd
  get_dvd := h.get_dvd
  put_le j hj := (h.put_le j hj).trans (Nat.le_add_right _ _)
  le_put j hj := (Nat.add_le_add_right (hall j hj).ge _ :)
  get_le := h.get_le
  le_get := h.le_get
  get_le_put := h.get_le_put

theorem putRound_spec (hp : set.WF) {mem : X} {gMax : ℕ} {st : Search}
    (h : PutLoop set mem gMax st s) :
    Total (.trivial _) (fun r s' => Sum.elim
      (fun st' => PutLoop set mem gMax st' s' ∧ putMeasure set st' s' < putMeasure set st s)
      (fun a => PutPost set mem gMax a s') r) (putRound set st) s := by
  obtain ⟨⟨pWindow, gWindow, index⟩, hops, random, notempty⟩ := st
  obtain ⟨hmem, hg, hi, hwin, hscan⟩ := h
  obtain rfl : pWindow = s.globalPWindow := hwin
  refine readDescriptor_spec ?_
  simp only [Total.read_iff, ne_eq, not_true_eq_false, if_false]
  by_cases hc : s.putCount index < s.globalPWindow
  · rw [if_pos hc]
    exact .ret ⟨hmem, hg, hi, rfl, hscan.lt, rfl, hc⟩
  have hfull : s.putCount index = s.globalPWindow :=
    le_antisymm (hi.put_le _ hscan.lt) (not_lt.1 hc)
  rw [if_neg hc]
  by_cases hh : hops = set.width
  · -- the round is complete: the window moves up, and then every count is below its maximum
    have hall := hscan.all hh
    have hstuck : ¬ CanPut set s := by
      rintro ⟨j, hj, hlt⟩
      exact absurd (hall j hj) hlt.ne
    rw [if_neg (not_not.2 hh)]
    refine Total.bind_of (shiftWindow_spec rfl) ?_
    rintro m s' ⟨rfl, rfl⟩
    have hw := hp.fits.width_pos
    have hcan : CanPut set { s with globalPWindow := s.globalPWindow + set.depth } :=
      ⟨0, hw, lt_of_eq_of_lt (hall 0 hw) (Nat.lt_add_of_pos_right hp.depth_pos)⟩
    refine .ret ⟨⟨hmem, hg, hi.shiftPut hall, rfl, .start hscan.lt⟩, ?_⟩
    simp only [putMeasure, hopsLeft, if_pos hcan, if_neg hstuck]
    omega
  · rw [if_pos hh]
    refine Total.bind_of (hop_spec hp.fits hscan hfull hh) ?_
    rintro ⟨i, random', hops'⟩ s' ⟨rfl, hs, hlt⟩
    refine .ret ⟨⟨hmem, hg, hi, rfl, hs⟩, ?_⟩
    simp only [putMeasure] at hlt ⊢
    omega

/-- `put_window` returns a sub-structure whose put count is below the put window's maximum. -/
theorem putWindow_spec (hp : set.WF) {contention : Bool} {tl : Local} (hi : WindowInv set s)
    (hl : tl.index < set.width) :
    Total (.trivial _) (PutPost set s.mem s.globalGWindow) (putWindow set contention tl) s := by
  refine Total.bind_of (startIndex_spec hp hl) ?_
  rintro i s' ⟨rfl, hlt⟩
  refine Total.bind_of syncWindow_spec ?_
  rintro m s'' ⟨rfl, rfl⟩
  exact Total.forever (PutLoop set s''.mem s''.globalGWindow) (putMeasure set)
    (fun _ _ => putRound_spec hp) ⟨rfl, rfl, hi, rfl, .start hlt⟩

/-! ### `get_window` -/

/-- Some sub-structure has an item in the get window. -/
def CanGet (set : Params) (s : Shared X) : Prop :=
  ∃ j < set.width, s.getCount j < s.globalGWindow ∧ s.putCount j ≠ s.getCount j

/-- At the head of every round: the thread's window is current, every index left since the last
random hop is exhausted, and `notempty` is unset as long as those are empty. -/
structure GetLoop (set : Params) (mem : X) (pMax : ℕ) (st : Search) (s : Shared X) : Prop where
  mem_eq : s.mem = mem
  put_eq : s.globalPWindow = pMax
  inv : WindowInv set s
  window : st.tl.gWindow = s.globalGWindow
  scan : Scan set.randomHops set.width
    (fun j => (s.getCount j = s.globalGWindow ∨ s.putCount j = s.getCount j) ∧
      (st.notempty = false → s.putCount j = s.getCount j)) st.tl.index st.random st.hops
  notempty : st.notempty = true →
    ∃ j < set.width, s.getCount j = s.globalGWindow ∧ s.putCount j ≠ s.getCount j

open Classical in
/-- The rounds left: the hops of this scan, and one scan more after a shift. -/
noncomputable def getMeasure (set : Params) (st : Search) (s : Shared X) : ℕ :=
  hopsLeft set.randomHops set.width st.random st.hops +
    if CanGet set s then 0 else set.width + 1

/-- What `get_window` returns, for the state before and after: a sub-structure with an item in the
get window, or any one if all are empty. -/
structure GetPost (set : Params) (mem : X) (pMax : ℕ) (r : D × Local) (s : Shared X) : Prop where
  mem_eq : s.mem = mem
  put_eq : s.globalPWindow = pMax
  inv : WindowInv set s
  window : r.2.gWindow = s.globalGWindow
  index_lt : r.2.index < set.width
  descriptor : r.1 = Arrays.get s.mem r.2.index
  answer : (s.getCount r.2.index < s.globalGWindow ∧
      s.getCount r.2.index < s.putCount r.2.index) ∨
    ∀ j < set.width, s.putCount j = s.getCount j

/-- After a round that found no item in the get window, but one above it, the get window moves up:
all sub-structures are emptied up to its maximum. -/
theorem WindowInv.shiftGet (h : WindowInv set s)
    (hall : ∀ j < set.width, s.getCount j = s.globalGWindow ∨ s.putCount j = s.getCount j)
    (hne : ∃ j < set.width, s.getCount j = s.globalGWindow ∧ s.putCount j ≠ s.getCount j) :
    (∀ j < set.width, s.getCount j = s.globalGWindow) ∧
      WindowInv set { s with globalGWindow := s.globalGWindow + set.depth } := by
  obtain ⟨j₀, hj₀, hget, hput⟩ := hne
  have hlt : s.globalGWindow < s.globalPWindow := by
    have h₁ := h.get_le_put j₀ hj₀
    have h₂ := h.put_le j₀ hj₀
    omega
  -- both maxima are multiples of `depth`
  have hahead : s.globalGWindow + set.depth ≤ s.globalPWindow := by
    obtain ⟨p, hp⟩ := h.put_dvd
    obtain ⟨g, hg⟩ := h.get_dvd
    rw [hp, hg] at hlt ⊢
    have hgp : g + 1 ≤ p := lt_of_mul_lt_mul_left hlt (Nat.zero_le _)
    calc set.depth * g + set.depth = set.depth * (g + 1) := by ring
      _ ≤ set.depth * p := Nat.mul_le_mul_left _ hgp
  have hget' : ∀ j < set.width, s.getCount j = s.globalGWindow := by
    intro j hj
    have h₁ := h.le_put j hj
    have h₂ := h.get_le j hj
    rcases hall j hj with he | he <;> omega
  refine ⟨hget', h.put_dvd, (Nat.dvd_add_self_right).2 h.get_dvd, h.put_le, h.le_put, ?_, ?_,
    h.get_le_put⟩
  · exact fun j hj => (h.get_le j hj).trans (Nat.le_add_right _ _)
  · exact fun j hj => (Nat.add_le_add_right (hget' j hj).ge _ :)

theorem getRound_spec (hp : set.WF) {mem : X} {pMax : ℕ} {st : Search}
    (h : GetLoop set mem pMax st s) :
    Total (.trivial _) (fun r s' => Sum.elim
      (fun st' => GetLoop set mem pMax st' s' ∧ getMeasure set st' s' < getMeasure set st s)
      (fun a => GetPost set mem pMax a s') r) (getRound set st) s := by
  obtain ⟨⟨pWindow, gWindow, index⟩, hops, random, notempty⟩ := st
  obtain ⟨hmem, hg, hi, hwin, hscan, hne⟩ := h
  obtain rfl : gWindow = s.globalGWindow := hwin
  refine readDescriptor_spec ?_
  simp only [Total.read_iff, ne_eq, not_true_eq_false, if_false]
  have hle := hi.get_le_put _ hscan.lt
  by_cases hc : s.getCount index < s.globalGWindow ∧ ¬ s.putCount index = s.getCount index
  · rw [if_pos hc]
    exact .ret ⟨hmem, hg, hi, rfl, hscan.lt, rfl, .inl ⟨hc.1, lt_of_le_of_ne hle (Ne.symm hc.2)⟩⟩
  have hdone : s.getCount index = s.globalGWindow ∨ s.putCount index = s.getCount index := by
    have h₁ := hi.get_le _ hscan.lt
    by_cases h₂ : s.putCount index = s.getCount index
    · exact .inr h₂
    · exact .inl (le_antisymm h₁ (not_lt.1 fun h₃ => hc ⟨h₃, h₂⟩))
  rw [if_neg hc]
  by_cases hh : hops = set.width
  · have hall := hscan.all hh
    rw [if_neg (not_not.2 hh)]
    cases notempty with
    | false => exact .ret ⟨hmem, hg, hi, rfl, hscan.lt, rfl, .inr fun j hj => (hall j hj).2 rfl⟩
    | true =>
      obtain ⟨hget, hinv⟩ := hi.shiftGet (fun j hj => (hall j hj).1) (hne rfl)
      have hstuck : ¬ CanGet set s := by
        rintro ⟨j, hj, hlt, -⟩
        exact absurd (hget j hj) hlt.ne
      have hcan : CanGet set { s with globalGWindow := s.globalGWindow + set.depth } := by
        obtain ⟨j, hj, he, hne'⟩ := hne rfl
        exact ⟨j, hj, lt_of_eq_of_lt he (Nat.lt_add_of_pos_right hp.depth_pos), hne'⟩
      rw [if_pos rfl]
      refine Total.bind_of (shiftWindow_spec rfl) ?_
      rintro m s' ⟨rfl, rfl⟩
      refine .ret ⟨⟨hmem, hg, hinv, rfl, .start hscan.lt, by intros; contradiction⟩, ?_⟩
      simp only [getMeasure, hopsLeft, if_pos hcan, if_neg hstuck]
      omega
  · rw [if_pos hh]
    generalize hne' : (notempty || !decide (s.putCount index = s.getCount index)) = notempty'
    have hkeep : notempty' = false → notempty = false ∧ s.putCount index = s.getCount index := by
      rintro rfl
      simpa using hne'
    have hmet : notempty' = true →
        ∃ j < set.width, s.getCount j = s.globalGWindow ∧ s.putCount j ≠ s.getCount j := by
      rintro rfl
      rcases Bool.or_eq_true .. ▸ hne' with h | h
      · exact hne h
      · have hput : ¬ s.putCount index = s.getCount index := by simpa using h
        exact ⟨index, hscan.lt, hdone.resolve_right hput, hput⟩
    have hscan' := hscan.mono fun j _ hj =>
      (⟨hj.1, fun h => hj.2 (hkeep h).1⟩ :
        (s.getCount j = s.globalGWindow ∨ s.putCount j = s.getCount j) ∧
          (notempty' = false → s.putCount j = s.getCount j))
    simp only [decide_not, hne']
    refine Total.bind_of (hop_spec hp.fits hscan' ⟨hdone, fun h => (hkeep h).2⟩ hh) ?_
    rintro ⟨i, random', hops'⟩ s' ⟨rfl, hs, hlt⟩
    refine .ret ⟨⟨hmem, hg, hi, rfl, hs, hmet⟩, ?_⟩
    simp only [getMeasure] at hlt ⊢
    omega

/-- `get_window` returns a sub-structure with an item in the get window, or all are empty. -/
theorem getWindow_spec (hp : set.WF) {contention : Bool} {tl : Local} (hi : WindowInv set s)
    (hl : tl.index < set.width) :
    Total (.trivial _) (GetPost set s.mem s.globalPWindow) (getWindow set contention tl) s := by
  simp only [getWindow, Total.read_iff]
  refine Total.bind_of (startIndex_spec hp hl) ?_
  rintro i s' ⟨rfl, hlt⟩
  refine Total.bind_of syncWindow_spec ?_
  rintro m s'' ⟨rfl, rfl⟩
  exact Total.forever (GetLoop set s''.mem s''.globalPWindow) (getMeasure set)
    (fun _ _ => getRound_spec hp) ⟨rfl, rfl, hi, rfl, .start hlt, by intros; contradiction⟩

end TwoDd
