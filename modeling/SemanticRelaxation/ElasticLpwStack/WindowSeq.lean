import SemanticRelaxation.ElasticLpwStack.Invariant

/-!
# The window of the elastic LpW stack without interference

`contract` says which runs are considered: those of fewer than 2^16 shifts that end in no failure,
in which no shift has a top row at an end of what is recorded (`EdgesClear`). In them both window
functions return and keep the invariant: `putWindow_spec` and `getWindow_spec`.
`synchronizeLateral_spec` says what the lateral stack records.

A thread tells by the version whether its window is current. Versions are 16 bits wide, so the
window of a thread that has made no call yet looks current once the version is 0 again; such a
thread divides by its width 0.
-/

namespace ElasticLpwStack

open AtomicProg Treiber TwoD

variable {set : Params} {s s₀ s' : State} {C : Contract State}

/-- What `create_stack` guarantees of the stored parameters, as far as no C type overflows. -/
structure Params.WF (set : Params) : Prop where
  width_lt : set.maxWidth < 2 ^ 16
  hops_lt : set.randomHops < 2 ^ 8

theorem Params.WF.fits (hp : set.WF) {width : ℕ} (hw : 1 ≤ width) (hw' : width ≤ set.maxWidth) :
    Fits types set.randomHops width where
  modulus := by
    show 0 < width % 2 ^ 16
    rw [Nat.mod_eq_of_lt (hw'.trans_lt hp.width_lt)]
    exact hw
  random_lt := hp.hops_lt
  width_lt := hw'.trans_lt hp.width_lt

/-- The runs that are considered: no assertion fails and nothing is divided by zero, the window is
shifted fewer than 2^16 times, and no shift has a top row at an end of what is recorded. -/
def contract (set : Params) : Contract State where
  assume s s' := (s.failed = false → s'.failed = false) ∧
    (s'.globalWindow ≠ s.globalWindow → s'.shifts < 2 ^ 16 ∧ EdgesClear set s s'.globalWindow)
  guarantee _ _ := True
  assume_refl _ := ⟨id, fun h => absurd rfl h⟩
  guarantee_refl _ := True.intro

/-! ### What threads remember -/

/-- The thread has made no call yet, or its window is that after some shift. -/
def Local.Ok (l : Local) (s : State) : Prop :=
  l.window = Local.zero.window ∨ ∃ m ≤ s.shifts, l.window.version = (1 + m) % 2 ^ 16 ∧
    (m = s.shifts → l.window = s.globalWindow)

/-- `s'` is `s` after shifts of the window. -/
structure Moved (s s' : State) : Prop where
  eq : s' = { s with
    globalWindow := s'.globalWindow
    lateral := s'.lateral
    lateralFresh := s'.lateralFresh
    shifts := s'.shifts }
  shifts_le : s.shifts ≤ s'.shifts
  same : s'.shifts = s.shifts → s'.globalWindow = s.globalWindow

namespace Moved

theorem refl (s : State) : Moved s s := ⟨rfl, le_rfl, fun _ => rfl⟩

theorem trans (h : Moved s₀ s) (h' : Moved s s') : Moved s₀ s' where
  eq := by rw [h'.eq, h.eq]
  shifts_le := h.shifts_le.trans h'.shifts_le
  same hv := by
    have h₁ := h.shifts_le
    have h₂ := h'.shifts_le
    rw [h'.same (by omega), h.same (by omega)]

theorem setArray (h : Moved s s') : s'.setArray = s.setArray := by rw [h.eq]

theorem mem (h : Moved s s') : s'.mem = s.mem := by rw [h.eq]

end Moved

theorem Local.Ok.mono {l : Local} (h : l.Ok s) (hle : s.shifts ≤ s'.shifts)
    (hsame : s'.shifts = s.shifts → s'.globalWindow = s.globalWindow) : l.Ok s' := by
  rcases h with h | ⟨m, hm, hv, hw⟩
  · exact .inl h
  · refine .inr ⟨m, hm.trans hle, hv, fun he => ?_⟩
    have hs : s'.shifts = s.shifts := by omega
    rw [hsame hs]
    exact hw (he.trans hs)

theorem Local.Ok.of_window {l : Local} (hw : WindowOk set s) (h : l.window = s.globalWindow) :
    l.Ok s :=
  .inr ⟨s.shifts, le_rfl, h ▸ hw.version, fun _ => h⟩

/-- A thread whose version is current has the current window, or has made no call yet. -/
theorem Local.Ok.current {l : Local} (h : l.Ok s) (hw : WindowOk set s)
    (hv : l.window.version = s.globalWindow.version) :
    l.window = s.globalWindow ∨ l.window = Local.zero.window := by
  rcases h with h | ⟨m, hm, hver, heq⟩
  · exact .inr h
  · refine .inl (heq ?_)
    have h₁ := hw.version
    have h₂ := hw.shifts_lt
    omega

/-! ### The parts of the loops -/

theorem assert_spec {β : Type} {Q : β → State → Prop} {b : Bool} {k : Unit → Prog State β}
    (hb : b = true) (h : Total C Q (k ()) s) : Total C Q (assert b >>= k) s := by
  subst hb
  exact h

/-- A failure ends the runs that are considered. -/
theorem fail_spec {β : Type} {Q : β → State → Prop} {b : Bool} {k : Unit → Prog State β}
    (hf : s.failed = false) (hb : b = false) : Total (contract set) Q (assert b >>= k) s := by
  subst hb
  refine Total.update_iff.2 fun ha => ?_
  have : true = false := ha.1 hf
  exact absurd this nofun

/-- The two loads of a descriptor are of the same one. -/
theorem readDescriptor_iff {β : Type} {Q : β → State → Prop} {idx : ℕ}
    {k : Descriptor → Prog State β} :
    Total C Q (readDescriptor idx >>= k) s ↔ Total C Q (k (s.setArray idx)) s := by
  simp only [readDescriptor, Prog.bind_assoc, Total.read_iff]
  exact Iff.rfl

theorem syncIndex_lt {width : ℕ} (hw : 0 < width) (index : ℕ) : syncIndex width index < width := by
  unfold syncIndex
  split <;> omega

theorem random_spec {width : ℕ} (hf : Fits types set.randomHops width) :
    Total C (fun i s' => s' = s ∧ i < width) (randomIndex width) s :=
  assert_spec (decide_eq_true hf.width_pos.ne') (randomIndex_spec hf.modulus)

/-- The choice of the first index, with a window that is current or that of a new thread. -/
theorem start_spec {contention : Bool} {width index : ℕ} (hf : s.failed = false)
    (hw : width = 0 ∨ Fits types set.randomHops width) {β : Type} {Q : β → State → Prop}
    {k : ℕ → Prog State β} {k' : Prog State β}
    (hk : ∀ i < width, Total (contract set) Q (k i) s)
    (hk' : index < width → Total (contract set) Q k' s) :
    Total (contract set) Q
      (if contention ∨ width ≤ index then randomIndex width >>= k else k') s := by
  split
  · rcases hw with rfl | hw
    · simp only [randomIndex, Prog.bind_assoc]
      exact fail_spec hf rfl
    · refine Total.bind_of (random_spec hw) ?_
      rintro i s' ⟨rfl, hi⟩
      exact hk i hi
  next h => exact hk' (not_le.1 fun h' => h (.inr h'))

theorem pushWiderCount_spec (i n max : ℕ) :
    Total C (fun c s' => s' = s ∧ max ≤ c ∧ ∀ j, i ≤ j → j < i + n → s.count j ≤ c)
      (pushWiderCount i n max) s := by
  induction n generalizing i max with
  | zero => exact .ret ⟨rfl, le_rfl, fun j hi hj => absurd hi (by omega)⟩
  | succ n ih =>
    unfold pushWiderCount
    rw [Total.read_iff]
    refine (ih _ _).mono ?_
    rintro c s' ⟨rfl, hmax, hall⟩
    have hle : max ≤ c ∧ s'.count i ≤ c := by
      unfold State.count
      split at hmax <;> omega
    refine ⟨rfl, hle.1, fun j hi hj => ?_⟩
    rcases hi.eq_or_lt with rfl | hlt
    · exact hle.2
    · exact hall j hlt (by omega)

/-- The state with another lateral stack. -/
def State.setLateral (s : State) (l : LateralDescriptor) (fresh : ℕ) : State :=
  { s with lateral := l, lateralFresh := fresh }

/-- The old width of the pushes is recorded, up to the highest row in use outside the new one. -/
theorem maybePushLateral_spec (w : Window) (u : Update) :
    Total (contract set) (fun d s' => (∃ f, s' = s.setLateral s.lateral f) ∧
      Recording w s.count u d.node d.count) (maybePushLateral w ⟨u.node, u.count, 0⟩) s := by
  have hpush : ∀ {c}, u.count < c → (w.oldPutWidth < w.putWidth → c = narrowerCount w) →
      (∀ j < w.oldPutWidth, w.putWidth ≤ j → s.count j ≤ c) →
      Total (contract set) (fun d s' => (∃ f, s' = s.setLateral s.lateral f) ∧
        Recording w s.count u d.node d.count) (pushLateral ⟨u.node, u.count,
          0⟩ c w.oldPutWidth) s :=
    fun hlt hwider hnarrower =>
      Total.act (fun _ _ => True.intro) fun _ _ => .ret ⟨⟨_, rfl⟩, .push hlt hwider hnarrower⟩
  unfold maybePushLateral
  split
  next h => exact hpush h.2 (fun _ => rfl) fun j hj hj' => absurd (hj.trans h.1) (not_lt.2 hj')
  next hwider =>
    split
    next h =>
      refine Total.bind_of (pushWiderCount_spec _ _ _) ?_
      rintro c s' ⟨rfl, -, hall⟩
      have hnarrower : ∀ j < w.oldPutWidth, w.putWidth ≤ j → s'.count j ≤ c :=
        fun j hj hj' => hall j hj' (by omega)
      split
      next hlt => exact hpush hlt (fun h' => absurd h' h.not_gt) hnarrower
      next hlt =>
        exact .ret ⟨⟨_, rfl⟩, .keep (fun h' => absurd h' h.not_gt) fun j hj hj' =>
          (hnarrower j hj hj').trans (not_lt.1 hlt)⟩
    next hnarrower =>
      exact .ret ⟨⟨_, rfl⟩, .keep (fun h => not_lt.1 fun hlt => hwider ⟨h, hlt⟩) fun j hj hj' =>
        absurd (hj'.trans_lt hj) hnarrower⟩

/-- `synchronize_lateral` changes nothing but the lateral stack, which then records the old width of
the pushes. -/
theorem synchronizeLateral_spec (h : Inv set s) :
    Total (contract set) (fun _ s' => ∃ l f, s' = s.setLateral l f ∧ l.version ≤ s.shifts + 1 ∧
        (s.shifts + 1 < 2 ^ 16 → Recording s.globalWindow s.count s.replaced l.node l.count))
      (synchronizeLateral s.globalWindow) s := by
  have hversion := h.window.version
  simp only [synchronizeLateral, Total.read_iff, ne_eq, not_true_eq_false, if_false]
  split
  next hv =>
    -- the lateral stack has the version of an older window
    refine .ret ⟨_, _, rfl, h.lateral_version.trans (Nat.le_succ _), fun hlt => ?_⟩
    have hle := h.lateral_version
    omega
  simp only [replaceLaterals, Total.update_iff]
  refine fun _ => ⟨True.intro, ?_⟩
  have hpublish : ∀ (d : LateralDescriptor) f,
      Recording s.globalWindow s.count s.replaced d.node d.count →
      Total (contract set) (fun _ s' => ∃ l f, s' = s.setLateral l f ∧ l.version ≤ s.shifts + 1 ∧
          (s.shifts + 1 < 2 ^ 16 → Recording s.globalWindow s.count s.replaced l.node l.count))
        (publishLateral s.globalWindow s.lateral d) (s.setLateral s.lateral f) := by
    intro d f hd
    unfold publishLateral
    split
    · refine Total.cae_of_eq rfl fun _ => ⟨True.intro, .ret ?_⟩
      refine ⟨{ d with version := s.globalWindow.version }, f, rfl, ?_, fun _ => hd⟩
      show s.globalWindow.version ≤ _
      omega
    next hsame =>
      obtain ⟨hc, hn⟩ : d.count = s.lateral.count ∧ d.node = s.lateral.node := by
        simpa only [ne_eq, not_or, not_not] using hsame
      exact .ret ⟨_, f, rfl, h.lateral_version.trans (Nat.le_succ _), fun _ => hc ▸ hn ▸ hd⟩
  split
  · refine Total.bind_of (maybePushLateral_spec (s := s.setLateral s.lateral s.replaced.fresh)
      s.globalWindow s.replaced) ?_
    rintro d _ ⟨⟨f, rfl⟩, hd⟩
    exact hpublish d f hd
  next hsame =>
    have heq : s.globalWindow.putWidth = s.globalWindow.oldPutWidth := not_not.1 hsame
    exact hpublish ⟨s.replaced.node, s.replaced.count, 0⟩ s.replaced.fresh
      (.keep (fun h => absurd h heq.not_gt) fun j hj hj' => absurd (heq ▸ hj') (not_le.2 hj))

/-- A shift from the current window, to a maximum that `Inv.shift` allows. -/
theorem shiftWindow_spec (h : Inv set s) (newMax : ℕ → ℕ) (hmax : s.depth ≤ newMax s.depth)
    (hle : newMax s.depth ≤ s.globalWindow.max + 2 ^ 15 ∨ newMax s.depth = s.depth)
    (hall : ∀ j < set.maxWidth, (s.setArray j).count ≤ newMax s.depth)
    (hbottom : newMax s.depth - s.depth ≤ (s.setArray 0).count) :
    Total (contract set) (fun w s' => w = s'.globalWindow ∧ Inv set s' ∧ Moved s s' ∧
        w.max = newMax s.depth ∧ w.bottom = newMax s.depth - s.depth)
      (shiftWindow s.globalWindow newMax) s := by
  refine Total.bind_of (synchronizeLateral_spec h) ?_
  rintro _ _ ⟨l, f, rfl, hl, hrec⟩
  simp only [readVersion, Total.read_iff, Total.choose_iff]
  intro c
  refine assert_spec (decide_eq_true hmax) ?_
  rw [Total.read_iff,
    if_pos (show s.globalWindow.version = (s.setLateral l f).globalWindow.version from rfl)]
  refine Total.cae_of_eq rfl fun ha => ⟨True.intro, ?_⟩
  set w : Window := ⟨newMax s.depth, s.depth, _, s.width, s.globalWindow.putWidth, _, _⟩ with hw
  have hwb : w.bottom = newMax s.depth - s.depth := Words.usub_of_le hmax
  have hversion : w.version ≠ s.globalWindow.version := by
    show (s.globalWindow.version + 1) % 2 ^ 16 ≠ s.globalWindow.version
    have := h.window.version
    omega
  obtain ⟨hshifts, hclear⟩ := ha.2 fun he => hversion (congrArg Window.version he)
  have hfin := h.shift (hrec hshifts) hl rfl hmax rfl rfl rfl rfl hshifts hle hclear hall
    (hwb ▸ hbottom)
  refine .ret ⟨rfl, hfin, ⟨rfl, Nat.le_succ _, fun he => ?_⟩, rfl, hwb⟩
  exact absurd he (Nat.succ_ne_self _)

/-! ### `put_window` -/

theorem enterPut_spec (hp : set.WF) (h : Inv set s) {contention : Bool} {tl : Local}
    (hl : tl.Ok s) :
    Total (contract set) (fun tl' s' => s' = s ∧ tl'.window = s.globalWindow ∧
      tl'.putIndex < s.globalWindow.putWidth) (enterPut contention tl) s := by
  have hfits := hp.fits h.window.put_pos (h.window.put_le.trans h.window.get_le)
  have hsync : Total (contract set) (fun tl' s' => s' = s ∧
      (tl'.window = s.globalWindow ∨ tl'.window = Local.zero.window)) (syncPutWindow tl) s := by
    simp only [syncPutWindow, readVersion, readWindow, Total.read_iff]
    split
    · rw [Total.read_iff]
      exact .ret ⟨rfl, .inl rfl⟩
    next hv => exact .ret ⟨rfl, hl.current h.window (not_not.1 hv)⟩
  refine Total.bind_of hsync ?_
  rintro tl' s' ⟨rfl, hw | hw⟩
  · refine start_spec h.asserted (.inr (hw ▸ hfits)) (fun i hi => ?_) fun hi => ?_
    · exact .ret ⟨rfl, hw, by rwa [← hw]⟩
    · exact .ret ⟨rfl, hw, by rwa [← hw]⟩
  · have hzero : tl'.window.putWidth = 0 := congrArg Window.putWidth hw
    refine start_spec h.asserted (.inl hzero) (fun i hi => ?_) fun hi => ?_
    · exact absurd hi (by omega)
    · exact absurd hi (by omega)

/-- Some sub-stack accepts a push. -/
def CanPut (s : State) : Prop :=
  ∃ j < s.globalWindow.putWidth, (s.setArray j).count < s.globalWindow.max

/-- At the head of every round: the thread's window is current, and every index left since the last
random hop is full. -/
structure PutLoop (set : Params) (s₀ : State) (st : Search) (s : State) : Prop where
  inv : Inv set s
  moved : Moved s₀ s
  window : st.tl.window = s.globalWindow
  scan : Scan set.randomHops s.globalWindow.putWidth
    (fun j => s.globalWindow.max ≤ (s.setArray j).count) st.tl.putIndex st.random st.hops

open Classical in
/-- The rounds left: the hops of this scan, and one scan more after a shift. -/
noncomputable def putMeasure (set : Params) (st : Search) (s : State) : ℕ :=
  hopsLeft set.randomHops s.globalWindow.putWidth st.random st.hops +
    if CanPut s then 0 else set.maxWidth + 1

/-- What `put_window` returns, for the state before and after: a sub-stack below the top of the
window. -/
structure PutPost (set : Params) (s₀ : State) (r : Descriptor × Local) (s : State) : Prop where
  inv : Inv set s
  moved : Moved s₀ s
  window : r.2.window = s.globalWindow
  index_lt : r.2.putIndex < s.globalWindow.putWidth
  descriptor : r.1 = s.setArray r.2.putIndex
  count_lt : (s.setArray r.2.putIndex).count < s.globalWindow.max

theorem putRound_spec (hp : set.WF) {st : Search} (h : PutLoop set s₀ st s) :
    Total (contract set) (fun r s' => Sum.elim
      (fun st' => PutLoop set s₀ st' s' ∧ putMeasure set st' s' < putMeasure set st s)
      (fun a => PutPost set s₀ a s') r) (putRound set st) s := by
  obtain ⟨⟨window, putIndex, getIndex⟩, hops, random, empty⟩ := st
  obtain ⟨hi, hm, hwin, hscan⟩ := h
  obtain rfl : window = s.globalWindow := hwin
  have hw := hi.window
  simp only [putRound, readDescriptor_iff, readVersion, Total.read_iff, ne_eq, not_true_eq_false,
    if_false]
  by_cases hc : (s.setArray putIndex).count < s.globalWindow.max
  · rw [if_pos hc]
    exact .ret ⟨hi, hm, rfl, hscan.lt, rfl, hc⟩
  have hfull : s.globalWindow.max ≤ (s.setArray putIndex).count := not_lt.1 hc
  rw [if_neg hc]
  by_cases hh : hops = s.globalWindow.putWidth
  · -- the round is complete: after the shift every row is below the top
    have hall := hscan.all hh
    have hstuck : ¬ CanPut s := by
      rintro ⟨j, hj, hlt⟩
      exact absurd (hall j hj) (not_le.2 hlt)
    have hmax := hw.putShiftMax_eq
    have hd := hw.set_depth
    have h₀ := hall 0 hw.put_pos
    have hup : s.globalWindow.max < putShiftMax s.globalWindow.max s.depth ∧
        s.depth ≤ putShiftMax s.globalWindow.max s.depth ∧
        (putShiftMax s.globalWindow.max s.depth ≤ s.globalWindow.max + 2 ^ 15 ∨
          putShiftMax s.globalWindow.max s.depth = s.depth) ∧
        putShiftMax s.globalWindow.max s.depth - s.depth ≤ (s.setArray 0).count := by
      rw [hmax]
      split <;> omega
    rw [if_neg (not_not.2 hh)]
    refine Total.bind_of (shiftWindow_spec hi _ hup.2.1 hup.2.2.1
      (fun j hj => (hi.le_max j hj).trans hup.1.le) hup.2.2.2) ?_
    rintro _ s' ⟨rfl, hi', hm', hmax', -⟩
    refine .ret ⟨⟨hi', hm.trans hm', rfl, .start (syncIndex_lt hi'.window.put_pos _)⟩, ?_⟩
    have hcan : CanPut s' := by
      refine ⟨0, hi'.window.put_pos, ?_⟩
      rw [hm'.setArray, hmax']
      exact (hi.le_max 0 (hw.put_pos.trans (hw.put_le.trans hw.get_le))).trans_lt hup.1
    have hle := hi'.window.put_le.trans hi'.window.get_le
    simp only [putMeasure, hopsLeft, if_pos hcan, if_neg hstuck]
    omega
  · rw [if_pos hh]
    have hfits := hp.fits hw.put_pos (hw.put_le.trans hw.get_le)
    refine Total.bind_of (hop_spec hfits hscan hfull hh) ?_
    rintro ⟨i, random', hops'⟩ s' ⟨rfl, hs, hlt⟩
    exact .ret ⟨⟨hi, hm, rfl, hs⟩, Nat.add_lt_add_right hlt _⟩

/-- `put_window` returns a sub-stack below the top of the window. -/
theorem putWindow_spec (hp : set.WF) {contention : Bool} {tl : Local} (h : Inv set s)
    (hl : tl.Ok s) :
    Total (contract set) (PutPost set s) (putWindow set contention tl) s := by
  refine Total.bind_of (enterPut_spec hp h hl) ?_
  rintro tl' s' ⟨rfl, hw, hidx⟩
  exact Total.forever (PutLoop set s') (putMeasure set) (fun _ _ => putRound_spec hp)
    ⟨h, .refl s', hw, .start hidx⟩

/-! ### `get_window` -/

theorem enterGet_spec (hp : set.WF) (h : Inv set s) {contention : Bool} {tl : Local}
    (hl : tl.Ok s) :
    Total (contract set) (fun tl' s' => s' = s ∧ tl'.window = s.globalWindow ∧
      tl'.getIndex < s.globalWindow.getWidth) (enterGet contention tl) s := by
  have hfits := hp.fits (h.window.put_pos.trans h.window.put_le) h.window.get_le
  have hsync : Total (contract set) (fun tl' s' => s' = s ∧
      (tl'.window = s.globalWindow ∨ tl'.window = Local.zero.window)) (syncGetWindow tl) s := by
    simp only [syncGetWindow, readVersion, readWindow, Total.read_iff]
    split
    · rw [Total.read_iff]
      exact .ret ⟨rfl, .inl rfl⟩
    next hv => exact .ret ⟨rfl, hl.current h.window (not_not.1 hv)⟩
  refine Total.bind_of hsync ?_
  rintro tl' s' ⟨rfl, hw | hw⟩
  · refine start_spec h.asserted (.inr (hw ▸ hfits)) (fun i hi => ?_) fun hi => ?_
    · exact .ret ⟨rfl, hw, by rwa [← hw]⟩
    · exact .ret ⟨rfl, hw, by rwa [← hw]⟩
  · have hzero : tl'.window.getWidth = 0 := congrArg Window.getWidth hw
    refine start_spec h.asserted (.inl hzero) (fun i hi => ?_) fun hi => ?_
    · exact absurd hi (by omega)
    · exact absurd hi (by omega)

/-- At the head of every round: the thread's window is current, every index left since the last
random hop has no row above the bottom, and `empty` is set as long as those have none at all. -/
structure GetLoop (set : Params) (s₀ : State) (st : Search) (s : State) : Prop where
  inv : Inv set s
  moved : Moved s₀ s
  window : st.tl.window = s.globalWindow
  scan : Scan set.randomHops s.globalWindow.getWidth
    (fun j => (s.setArray j).count ≤ s.globalWindow.bottom ∧
      (st.empty = true → (s.setArray j).count = 0)) st.tl.getIndex st.random st.hops
  nonempty : st.empty = false → 0 < s.globalWindow.bottom

/-- The rounds left: the hops of this scan, and one scan more for every row that the bottom can
fall. -/
def getMeasure (set : Params) (st : Search) (s : State) : ℕ :=
  s.globalWindow.bottom * (set.maxWidth + 1) +
    hopsLeft set.randomHops s.globalWindow.getWidth st.random st.hops

/-- What `get_window` returns, for the state before and after: a sub-stack above the bottom of the
window, or any one if it found no row at all. -/
structure GetPost (set : Params) (s₀ : State) (r : Descriptor × Local) (s : State) : Prop where
  inv : Inv set s
  moved : Moved s₀ s
  window : r.2.window = s.globalWindow
  index_lt : r.2.getIndex < s.globalWindow.getWidth
  descriptor : r.1 = s.setArray r.2.getIndex
  answer : s.globalWindow.bottom < (s.setArray r.2.getIndex).count ∨
    ∀ j < s.globalWindow.getWidth, (s.setArray j).count = 0

theorem getRound_spec (hp : set.WF) {st : Search} (h : GetLoop set s₀ st s) :
    Total (contract set) (fun r s' => Sum.elim
      (fun st' => GetLoop set s₀ st' s' ∧ getMeasure set st' s' < getMeasure set st s)
      (fun a => GetPost set s₀ a s') r) (getRound set st) s := by
  obtain ⟨⟨window, putIndex, getIndex⟩, hops, random, empty⟩ := st
  obtain ⟨hi, hm, hwin, hscan, hne⟩ := h
  obtain rfl : window = s.globalWindow := hwin
  have hw := hi.window
  simp only [getRound, readDescriptor_iff, readVersion, Total.read_iff, ne_eq, not_true_eq_false,
    if_false]
  by_cases hc : s.globalWindow.bottom < (s.setArray getIndex).count
  · rw [if_pos hc]
    exact .ret ⟨hi, hm, rfl, hscan.lt, rfl, .inl hc⟩
  have hlow : (s.setArray getIndex).count ≤ s.globalWindow.bottom := not_lt.1 hc
  rw [if_neg hc]
  by_cases hh : hops = s.globalWindow.getWidth
  · have hall := hscan.all hh
    rw [if_neg (not_not.2 hh)]
    cases empty with
    | true => exact .ret ⟨hi, hm, rfl, hscan.lt, rfl, .inr fun j hj => (hall j hj).2 rfl⟩
    | false =>
      -- no row is above the bottom, which is not 0: the window can be shifted down
      have hpos : 0 < s.globalWindow.bottom := hne rfl
      obtain ⟨h₁, h₂, h₃, h₄⟩ := hw.getShiftMax_bounds hpos
      have hle : ∀ j < set.maxWidth, (s.setArray j).count ≤ s.globalWindow.bottom := by
        intro j hj
        by_cases hlt : j < s.globalWindow.getWidth
        · exact (hall j hlt).1
        · exact hi.covered j hj (not_lt.1 hlt)
      rw [if_neg Bool.false_ne_true]
      refine Total.bind_of (shiftWindow_spec hi (fun depth =>
        getShiftMax s.globalWindow.max depth s.globalWindow.depth) h₁ h₄
        (fun j hj => (hle j hj).trans h₂) (h₃.le.trans hi.bottom_le)) ?_
      rintro _ s' ⟨rfl, hi', hm', -, hbottom⟩
      have hw' := hi'.window
      have hpos' := hw'.put_pos.trans hw'.put_le
      refine .ret ⟨⟨hi', hm.trans hm', rfl, .start (syncIndex_lt hpos' _),
        by intros; contradiction⟩, ?_⟩
      have hlt : s'.globalWindow.bottom + 1 ≤ s.globalWindow.bottom := hbottom.trans_lt h₃
      have hmul := Nat.mul_le_mul_right (set.maxWidth + 1) hlt
      rw [Nat.succ_mul] at hmul
      have hget := hw'.get_le
      show s'.globalWindow.bottom * (set.maxWidth + 1) +
          ((set.randomHops - random) + (s'.globalWindow.getWidth - 0)) <
        s.globalWindow.bottom * (set.maxWidth + 1) +
          ((set.randomHops - random) + (s.globalWindow.getWidth - hops))
      omega
  · rw [if_pos hh]
    generalize hempty : (if 0 < (s.setArray getIndex).count then false else empty) = empty'
    have hkeep : empty' = true → empty = true ∧ (s.setArray getIndex).count = 0 := by
      intro h
      by_cases hpos : 0 < (s.setArray getIndex).count
      · rw [if_pos hpos] at hempty
        exact absurd (hempty.trans h) Bool.false_ne_true
      · rw [if_neg hpos] at hempty
        exact ⟨hempty.trans h, Nat.eq_zero_of_not_pos hpos⟩
    have hne' : empty' = false → 0 < s.globalWindow.bottom := by
      intro h
      by_cases hpos : 0 < (s.setArray getIndex).count
      · exact hpos.trans_le hlow
      · rw [if_neg hpos] at hempty
        exact hne (hempty.trans h)
    have hscan' : Scan set.randomHops s.globalWindow.getWidth (fun j =>
        (s.setArray j).count ≤ s.globalWindow.bottom ∧ (empty' = true → (s.setArray j).count = 0))
        getIndex random hops := hscan.mono fun j _ hj => ⟨hj.1, fun h => hj.2 (hkeep h).1⟩
    have hfits := hp.fits (hw.put_pos.trans hw.put_le) hw.get_le
    refine Total.bind_of (hop_spec hfits hscan' ⟨hlow, fun h => (hkeep h).2⟩ hh) ?_
    rintro ⟨i, random', hops'⟩ s' ⟨rfl, hs, hlt⟩
    exact .ret ⟨⟨hi, hm, rfl, hs, hne'⟩, Nat.add_lt_add_left hlt _⟩

/-- `get_window` returns a sub-stack above the bottom of the window, or finds no row at all. -/
theorem getWindow_spec (hp : set.WF) {contention : Bool} {tl : Local} (h : Inv set s)
    (hl : tl.Ok s) :
    Total (contract set) (GetPost set s) (getWindow set contention tl) s := by
  refine Total.bind_of (enterGet_spec hp h hl) ?_
  rintro tl' s' ⟨rfl, hw, hidx⟩
  refine Total.bind_of (Total.forever (GetLoop set s') (getMeasure set)
    (Q := GetPost set s') (fun _ _ => getRound_spec hp)
    ⟨h, .refl s', hw, .start hidx, nofun⟩) ?_
  rintro ⟨d, tl''⟩ s'' hpost
  exact .ret ⟨hpost.inv, hpost.moved, hpost.window, hpost.index_lt, hpost.descriptor, hpost.answer⟩

end ElasticLpwStack
