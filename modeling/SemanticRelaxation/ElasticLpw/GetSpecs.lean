import SemanticRelaxation.ElasticLpw.PutSpecs

/-!
# The get side of the elastic LpW queue under interference

* `Bounded`: the bottom of the put window that a dequeue has loaded, in runs without a depth above
  the maximum;
* `shiftGet_spec`: the get window moves on to rows of one width;
* `getWindow_spec`: the window that it returns has been the get window, and the descriptor was that
  of a head;
* `Removable`: what a dequeue knows before it reads the node behind the head;
* `dequeue_spec`.
-/

namespace ElasticLpw

namespace Watched

open AtomicProg Linked MichaelScott Windowed TwoD

/-! ### Bounds and old get windows -/

/-- The bottom of a put window that was loaded is not above that of the present one. -/
def Bounded (bound : ℕ) (x : (State × Watch) × Ghost) : Prop :=
  x.1.2.wrapped = false → bound ≤ x.1.1.globalPWindow.bottom

section Bounds

variable {set : Params} {x x' : (State × Watch) × Ghost} {s : State} {w : Watch} {g : Ghost}
  {u : GetWindow} {bound index count : ℕ}

theorem Later.bottom_le (hl : Later x x') (hi : Inv set x.1.1 x.1.2 x.2)
    (hi' : Inv set x'.1.1 x'.1.2 x'.2) :
    x.1.1.globalPWindow.bottom ≤ x'.1.1.globalPWindow.bottom := by
  rcases List.mem_cons.1 (hl.mem_windows (List.mem_cons_self ..)) with he | hp
  · rw [he]
  · exact hi.put_bottom_lt.le.trans (hi'.history.max_le hp)

theorem Bounded.later (h : Bounded bound x) (hl : Later x x') (hi : Inv set x.1.1 x.1.2 x.2)
    (hi' : Inv set x'.1.1 x'.1.2 x'.2) : Bounded bound x' := fun hw =>
  (h (hl.watch.wrapped hw)).trans (hl.bottom_le hi hi')

theorem Got.later (h : Got x.1.1 x.2 u) (hl : Later x x') (hi : Inv set x.1.1 x.1.2 x.2)
    (hi' : Inv set x'.1.1 x'.1.2 x'.2) (h0 : u.max ≠ 0) : Got x'.1.1 x'.2 u where
  le := h.le.trans hl.put_le
  top := (hl.rowWidth hi hi' (Nat.pos_of_ne_zero h0) h.le).trans h.top
  rows r hb hr := (hl.rowWidth hi hi' (Nat.zero_lt_of_lt hb) (hr.trans h.le)).trans (h.rows r hb hr)

/-- A bound below the put window that is above a put count is a row that did not have the sub-queue.
-/
theorem Inv.narrow_of_misses (h : Inv set s w g) (hb : bound ≤ s.globalPWindow.bottom)
    (hj : index < set.maxWidth) (hm : Misses bound index count s) : Narrow bound index count s := by
  obtain ⟨hc, hlt⟩ := hm
  refine ⟨hc, not_lt.1 fun hw => ?_⟩
  rw [h.widthAt_eq (Nat.zero_lt_of_lt hc) (hb.trans h.put_bottom_lt.le)] at hw
  exact absurd (h.filled.done index hj bound hb hw) (not_le.2 hlt)

/-- Above each row below the maximum of a get window there is a row of its width, the next one at
most. -/
theorem Got.exists_row (h : Got s g u) (hc : count < u.max) : ∃ q, count < q ∧ q ≤ u.max ∧
    q ≤ ElasticLpw.nextRow u.bottom count ∧ rowWidth s g q = u.width := by
  have hgt := nextRow_gt u.bottom count
  rcases lt_or_ge (Windowed.nextRow u.bottom count) u.max with hlt | hge
  · exact ⟨_, hgt.1, hlt.le, le_rfl, h.rows _ hgt.2 hlt.le⟩
  · exact ⟨u.max, hc, le_rfl, hge, h.top⟩

end Bounds

variable {L : Type} {S : Service (State × Watch) L} {set : Params}
  {E : Results S (regime S.Call set)} {c : Caller} {v v₁ v₂ : View E.protocol c} {j n p : ℕ}

/-! ### `get_window` -/

theorem syncGWindow_spec {tl : Local} {word1 : ℕ} (hkn : Known set tl v.pair)
    (hle : word1 ≤ v.state.1.globalGWindow.max) : wp E.protocol c (syncGWindow tl word1).onFst
      (fun tl' v' => v ≤ v' ∧ Known set tl' v'.pair ∧ tl'.pWindow = tl.pWindow ∧
        tl'.gWindow.max = word1 ∧ tl'.getIndex < tl'.gWindow.width) v := by
  refine wp.read_fst fun v₁ h₁ => ?_
  have hl₁ := later_of_le h₁
  have hidx := syncIndex_lt (inv_of v₁).get_width.1 tl.getIndex
  exact ⟨h₁, ⟨hkn.put.later hl₁, .of_load (x := v₁.pair) (inv_of v₁) (hle.trans hl₁.get_le),
    fun _ => hidx⟩, rfl, rfl,
    hidx⟩

theorem enterGet_spec {tl : Local} (hkn : Known set tl v.pair) : wp E.protocol c (enterGet tl).onFst
    (fun tl' v' => v ≤ v' ∧ Known set tl' v'.pair ∧ tl'.pWindow = tl.pWindow ∧
      tl'.gWindow.max ≠ 0) v := by
  refine wp.read_fst fun v₁ h₁ => ?_
  have hkn₁ := hkn.later (later_of_le h₁)
  have hpos := (inv_of v₁).get_pos.ne'
  split
  next =>
    refine (syncGWindow_spec hkn₁ le_rfl).mono ?_
    rintro tl' v₂ ⟨h₂, hkn₂, hput, hmax, -⟩
    exact ⟨h₁.trans h₂, hkn₂, hput, hmax.symm ▸ hpos⟩
  next heq => exact ⟨h₁, hkn₁, rfl, not_not.1 heq ▸ hpos⟩

theorem startGetIndex_spec (hp : set.WF) {contention : Bool} {tl : Local}
    (hkn : Known set tl v.pair) (hc : contention = true → tl.gWindow.max ≠ 0) :
    wp E.protocol c (startGetIndex contention tl).onFst
      (fun i v' => v ≤ v' ∧ (tl.gWindow.max ≠ 0 → i < tl.gWindow.width)) v := by
  unfold startGetIndex
  split
  next h =>
    refine (randomIndex_spec (hp.fits (hkn.get.width (hc h)))).mono ?_
    exact fun i v₁ h₁ => ⟨h₁.1, fun _ => h₁.2⟩
  next => exact ⟨le_rfl, hkn.index⟩

/-- The maximum of the next get window. -/
theorem getShiftMax_spec {tl : Local} (hle : tl.gWindow.max ≤ v.state.1.globalPWindow.max)
    (hlt : v.state.2.wrapped = false → tl.gWindow.max < v.state.1.globalPWindow.max) :
    wp E.protocol c (getShiftMax tl).onFst (fun m v' => v ≤ v' ∧ tl.gWindow.max ≤ m ∧
      m ≤ v'.state.1.globalPWindow.max ∧ (v'.state.2.wrapped = false → tl.gWindow.max < m)) v := by
  have hread : ∀ v₁, v ≤ v₁ → wp E.protocol c readPMax.onFst (fun m v' => v ≤ v' ∧
    tl.gWindow.max ≤ m ∧
      m ≤ v'.state.1.globalPWindow.max ∧ (v'.state.2.wrapped = false → tl.gWindow.max < m)) v₁ := by
    intro v₁ h₁ v₂ h₂ _ _
    have hl := later_of_le (h₁.trans h₂)
    refine wp.same (k := .ret) ⟨h₁.trans h₂, hle.trans hl.put_le, le_rfl, fun hw => ?_⟩
    exact (hlt (hl.watch.wrapped hw)).trans_le hl.put_le
  refine wp.read_fst fun v₁ h₁ => ?_
  dsimp only
  split
  next => exact hread v₁ h₁
  next =>
    refine wp.read_fst fun v₂ h₂ => ?_
    split
    next => exact hread v₂ (h₁.trans h₂)
    next hge =>
      have hdepth := (inv_of v₁).depth
      exact ⟨h₁.trans h₂, Nat.le_add_right _ _, not_lt.1 hge,
        fun _ => Nat.lt_add_of_pos_right hdepth⟩

/-- The exchange of the get window. -/
theorem tryShiftGet_spec {old new : GetWindow} (hold : GetCopy set old v.pair) (h0 : old.max ≠ 0)
    (hle : old.max ≤ new.max) (hput : new.max ≤ v.state.1.globalPWindow.max)
    (hwidth : Allocated set new.width) (hlt : v.state.2.wrapped = false → old.max < new.max)
    (hbottom : old.max ≤ new.bottom) (huni : Uniform old.max new.max new.width v.pair) :
    wp E.protocol c (tryShiftGet old new).onFst
      (fun r v' => Along v v' ∧ GetCopy set r v'.pair ∧ r.max ≠ 0) v := by
  refine wp.read_fst fun v₁ h₁ => ?_
  split
  next =>
    refine wp.bind_fst (assert_true (decide_eq_true hle)) fun _ v₂ hs₂ => ?_
    have hs₂ := (Along.of_le h₁).trans hs₂
    refine wp.cae_fst (fun v₃ h₃ he _ => ?_) fun v₃ h₃ _ => ?_
    · have hs₃ := hs₂.trans (.of_le h₃)
      have he : v₃.state.1.globalGWindow = old := he
      subst he
      have hput₃ := hput.trans hs₃.later.put_le
      have hlt₃ : v₃.state.2.Clean → v₃.state.1.globalGWindow.max < new.max := fun hc =>
        hlt (hs₃.later.watch.wrapped hc.1)
      have huni₃ := huni.later hs₃.later (inv_of v) (inv_of v₃) hput
      have hi := (inv_of v₃).shiftGet hle hput₃ hwidth fun hc =>
        ⟨hput₃, huni₃ le_rfl _ (hlt₃ hc) le_rfl, fun r hb hr => huni₃ le_rfl r
          (hbottom.trans_lt hb) hr⟩
      have hk := fun o => Kept.shiftGet (s := v₃.state.1) (w := v₃.state.2) (g := v₃.now.2)
        (n := set.maxWidth) (o := o) new hle hlt₃
      have hall := allows_step v₃ hi fun o _ => hk o
      refine ⟨_, hall, ?_⟩
      dsimp only
      rw [if_pos rfl]
      refine wp.bind_fst (deqLateral_spec le_rfl) fun _ v₄ hs₄ => ?_
      refine ⟨(hs₃.trans (.step (h := hall.inv) (hk _))).trans hs₄,
        GetCopy.later ⟨le_rfl, fun _ _ => rfl, fun _ => hwidth⟩
        hs₄.later, ?_⟩
      exact (Nat.pos_of_ne_zero h0 |>.trans_le hle).ne'
    · dsimp only
      rw [if_neg Bool.false_ne_true]
      exact ⟨hs₂.trans (.of_le h₃), ⟨le_rfl, fun _ _ => rfl, fun _ => (inv_of v₃).get_width⟩,
        (inv_of v₃).get_pos.ne'⟩
  next => exact ⟨.of_le h₁, hold.later (later_of_le h₁), h0⟩

theorem shiftGet_spec {tl : Local} (hkn : Known set tl v.pair) (h0 : tl.gWindow.max ≠ 0)
    (hlt : v.state.2.wrapped = false → tl.gWindow.max < v.state.1.globalPWindow.max) :
    wp E.protocol c (shiftGet tl) (fun tl' v' => Along v v' ∧ Known set tl' v'.pair ∧
      tl'.pWindow = tl.pWindow ∧ tl'.gWindow.max ≠ 0 ∧ tl'.getIndex < tl'.gWindow.width) v := by
  refine wp.bind_of (getShiftMax_spec (hkn.get.le.trans (inv_of v).get_le) hlt) ?_
  rintro n v₁ ⟨h₁, hle, hput, hlt₁⟩
  refine wp.bind_of (getNextWindowLateral_spec hle hput) ?_
  rintro ⟨width, max⟩ v₂ ⟨hnext, hwidth, hge, hgt, hmax, huni⟩
  have hs₂ := (Along.of_le h₁).trans hnext
  have hbottom : tl.gWindow.max ≤
    (GetWindow.mk max (Words.usub 64 max tl.gWindow.max % 2 ^ 16) width).bottom := by
    have hge : tl.gWindow.max ≤ max := hge
    have hmod := Nat.mod_le (max - tl.gWindow.max) (2 ^ 16)
    show tl.gWindow.max ≤ Words.usub 64 max (Words.usub 64 max tl.gWindow.max % 2 ^ 16)
    rw [Words.usub_of_le hge, Words.usub_of_le (hmod.trans (Nat.sub_le _ _))]
    omega
  refine wp.bind_of (tryShiftGet_spec (hkn.get.later hs₂.later) h0 hge
    (hmax.trans (hput.trans hnext.later.put_le)) hwidth
    (fun hw => hgt (hlt₁ (hnext.later.watch.wrapped hw))) hbottom huni) ?_
  rintro w v₃ ⟨hs₃, hw, hw0⟩
  have hidx := syncIndex_lt (hw.width hw0).1 tl.getIndex
  exact ⟨hs₂.trans hs₃, ⟨hkn.put.later (hs₂.trans hs₃).later, hw, fun _ => hidx⟩, rfl, hw0, hidx⟩

/-- The descriptor of a head that is loaded word by word. -/
theorem readGet_spec (hj : j < set.maxWidth) :
    wp E.protocol c (readDescriptor State.getArray j).onFst (fun d v' => v ≤ v' ∧
      (v'.state.2.Clean → WasHead j d v'.state.1.queues v'.now.2.places)) v := by
  refine wp.read_fst fun v₁ h₁ => wp.read_fst fun v₂ h₂ => ?_
  have hl₂ := later_of_le h₂
  exact ⟨h₁.trans h₂, fun hc => .of_read (inv_of v₁).filled
    ((inv_of v₁).headed (hl₂.watch.clean hc))
    (inv_of v₂).filled ((inv_of v₂).headed hc) hl₂.queues hj⟩

theorem readPutCount_spec {bound count : ℕ} (hj : j < set.maxWidth) :
    wp E.protocol c (readPutCount bound j count).onFst
      (fun m v' => v ≤ v' ∧ (m = bound ∨ m ≤ v'.state.1.globalPWindow.max)) v := by
  unfold readPutCount
  split
  next => exact ⟨le_rfl, .inl rfl⟩
  next =>
    intro v₁ h₁ _ _
    exact wp.same (k := .ret) ⟨h₁, .inr ((inv_of v₁).filled.le j hj)⟩

theorem canShift_spec {notempty : Bool} {max : ℕ} (hle : max ≤ v.state.1.globalPWindow.max)
    (hn : notempty = true → v.state.2.wrapped = false → max < v.state.1.globalPWindow.max) :
    wp E.protocol c (canShift notempty max).onFst (fun r v' => v ≤ v' ∧
      (r = true → v'.state.2.wrapped = false → max < v'.state.1.globalPWindow.max)) v := by
  unfold canShift
  split
  next h => exact ⟨le_rfl, fun _ => hn h⟩
  next =>
    refine wp.read_fst fun v₁ h₁ => ?_
    refine ⟨h₁, fun hne _ => lt_of_le_of_ne (hle.trans (later_of_le h₁).put_le)
      (of_decide_eq_true hne)⟩

/-- What a round of `get_window` starts with, for a dequeue that has loaded the put window `u`. -/
structure GetLoop (v₀ : View E.protocol c) (u : PutWindow) (st : Search) (v : View E.protocol c) :
    Prop where
  along : Along v₀ v
  put : st.tl.pWindow = u
  known : Known set st.tl v.pair
  entered : st.tl.gWindow.max ≠ 0
  scan : Scan set.randomHops st.tl.gWindow.width (fun _ => True) st.tl.getIndex st.random st.hops
  notempty : st.notempty = true → v.state.2.wrapped = false →
    st.tl.gWindow.max < v.state.1.globalPWindow.max

/-- What `get_window` returns: a head, in a window that has been the get window. -/
structure GetPost (v₀ : View E.protocol c) (u : PutWindow) (r : Descriptor × Local)
    (v : View E.protocol c) : Prop where
  along : Along v₀ v
  put : r.2.pWindow = u
  known : Known set r.2 v.pair
  entered : r.2.gWindow.max ≠ 0
  got : v.state.2.Clean → Got v.state.1 v.now.2 r.2.gWindow
  head : v.state.2.Clean → WasHead r.2.getIndex r.1 v.state.1.queues v.now.2.places

theorem getRound_spec (hp : set.WF) {v₀ : View E.protocol c} {u : PutWindow} {st : Search}
    (hb : Bounded u.bottom v.pair) (h : GetLoop v₀ u st v) :
    wp E.protocol c (getRound set u.bottom st) (fun r v' =>
      Sum.elim (fun st' => GetLoop v₀ u st' v') (fun a => GetPost v₀ u a v') r) v := by
  obtain ⟨hs, hput, hkn, h0, hscan, hnot⟩ := h
  have hwidth := hkn.get.width h0
  have hidx : st.tl.getIndex < set.maxWidth := hscan.lt.trans_le hwidth.2
  refine wp.bind_of (readGet_spec hidx) ?_
  rintro d v₁ ⟨h₁, hhead⟩
  refine wp.bind_of (readPutCount_spec hidx) ?_
  rintro putCount v₂ ⟨h₂, hcount⟩
  refine wp.update fun v₃ h₃ _ => ?_
  have hl₃ := later_of_le ((h₁.trans h₂).trans h₃)
  have hb₃ := hb.later hl₃ (inv_of v) (inv_of v₃)
  have hw₃ : v₃.state.2.Before { v₃.state.2 with
      narrow := v₃.state.2.narrow || decide (Narrow u.bottom st.tl.getIndex d.count v₃.state.1)
      missed := v₃.state.2.missed || decide (Misses u.bottom st.tl.getIndex d.count v₃.state.1) } :=
    ⟨id, id, id⟩
  have hi₃ := (inv_of v₃).onSettings hw₃ (inv_of v₃).width (inv_of v₃).depth (inv_of v₃).asserted
    fun hw hnarrow => by
      obtain ⟨hn, hrow⟩ := Bool.or_eq_false_iff.1 hnarrow
      refine Bool.or_eq_false_iff.2 ⟨(inv_of v₃).noted hw hn, decide_eq_false fun hm => ?_⟩
      exact of_decide_eq_false hrow ((inv_of v₃).narrow_of_misses (hb₃ hw) hidx hm)
  have hk₃ := fun o => Kept.onSettings (s := v₃.state.1) (g := v₃.now.2) (n := set.maxWidth)
    (o := o)
    v₃.state.1.width v₃.state.1.depth v₃.state.1.failed hw₃
  have hall₃ := allows_step v₃ hi₃ fun o _ => hk₃ o
  refine ⟨_, hall₃, ?_⟩
  have hmid : Along v (v₃.step _ _ hall₃.inv) :=
    (Along.of_le ((h₁.trans h₂).trans h₃)).trans (.step (hk₃ _))
  have hs₃ := hs.trans hmid
  have hkn₃ := hkn.later hmid.later
  have hlt₃ : st.notempty = true → (v₃.step _ _ hall₃.inv).state.2.wrapped = false →
      st.tl.gWindow.max < v₃.state.1.globalPWindow.max := fun hn hw =>
    (hnot hn (hl₃.watch.wrapped hw)).trans_le hl₃.put_le
  dsimp only
  split
  next =>
    refine wp.bind_of (syncGWindow_spec hkn₃ le_rfl) ?_
    rintro tl' v₄ ⟨h₄, hkn₄, hput₄, hmax, hidx₄⟩
    exact ⟨hs₃.trans (.of_le h₄), hput₄.trans hput, hkn₄, hmax.symm ▸ (inv_of v₃).get_pos.ne',
      .start hidx₄,
      by intros; contradiction⟩
  next heq =>
    have hgot : (v₃.step _ _ hall₃.inv).state.2.Clean →
        Got v₃.state.1 v₃.now.2 st.tl.gWindow := fun hc => by
      rw [hkn₃.get.same hc (not_not.1 heq)]
      exact (inv_of v₃).got hc
    have hhead₃ : (v₃.step _ _ hall₃.inv).state.2.Clean →
        WasHead st.tl.getIndex d v₃.state.1.queues v₃.now.2.places := fun hc =>
      (hhead ((later_of_le (h₂.trans h₃)).watch.clean hc)).grown (inv_of v₁).filled hidx
        (later_of_le (h₂.trans h₃)).queues
    split
    next => exact ⟨hs₃, hput, hkn₃, h0, hgot, hhead₃⟩
    next hvalid =>
      split
      next hh =>
        refine wp.bind_of (hop_spec (hp.fits hwidth) hscan True.intro hh) ?_
        rintro ⟨index, random, hops⟩ v₄ ⟨h₄, hscan₄⟩
        have hl₄ := later_of_le h₄
        have hkn₄ := hkn₃.later hl₄
        refine ⟨hs₃.trans (.of_le h₄), hput, ⟨hkn₄.put, hkn₄.get, fun _ => Scan.lt hscan₄⟩, h0,
          hscan₄,
          fun hn hw => ?_⟩
        have hw₃ := hl₄.watch.wrapped hw
        refine lt_of_lt_of_le ?_ hl₄.put_le
        rcases (Bool.or_eq_true _ _).mp hn with hn | hn
        · exact hlt₃ hn hw₃
        · -- items above the get window are below the maximum of the put window
          have hlt : d.count < putCount := of_decide_eq_true hn
          have hge : st.tl.gWindow.max ≤ d.count := not_lt.1 fun hlt' => hvalid ⟨hlt', hlt⟩
          refine (hge.trans_lt hlt).trans_le ?_
          rcases hcount with rfl | hle
          · exact (hb₃ hw₃).trans (inv_of v₃).put_bottom_lt.le
          · exact hle.trans (later_of_le h₃).put_le
      next =>
        refine wp.bind_of (canShift_spec (hkn₃.get.le.trans (inv_of v₃).get_le) hlt₃) ?_
        rintro shift v₄ ⟨h₄, hlt₄⟩
        have hl₄ := later_of_le h₄
        split
        next hshift =>
          refine wp.bind_of (shiftGet_spec (hkn₃.later hl₄) h0 (hlt₄ hshift)) ?_
          rintro tl' v₅ ⟨hs₅, hkn₅, hput₅, h0₅, hidx₅⟩
          exact ⟨(hs₃.trans (.of_le h₄)).trans hs₅, hput₅.trans hput, hkn₅, h0₅, .start hidx₅,
            by intros; contradiction⟩
        next =>
          refine ⟨hs₃.trans (.of_le h₄), hput, hkn₃.later hl₄, h0, fun hc => ?_, fun hc => ?_⟩
          · exact (hgot (hl₄.watch.clean hc)).later hl₄ hi₃ (inv_of v₄) h0
          · exact (hhead₃ (hl₄.watch.clean hc)).grown (inv_of v₃).filled hidx hl₄.queues

theorem getWindow_spec (hp : set.WF) {contention : Bool} {tl : Local} (hkn : Known set tl v.pair)
    (hb : Bounded tl.pWindow.bottom v.pair) (hc : contention = true → tl.gWindow.max ≠ 0) :
    wp E.protocol c (getWindow set contention tl) (fun a v' => GetPost v tl.pWindow a v') v := by
  refine wp.bind_of (startGetIndex_spec hp hkn hc) ?_
  rintro index v₁ ⟨h₁, hidx⟩
  have hkn₁ := hkn.later (later_of_le h₁)
  have hkn₁ : Known set { tl with getIndex := index } v₁.pair := ⟨hkn₁.put, hkn₁.get, hidx⟩
  refine wp.bind_of (enterGet_spec hkn₁) ?_
  rintro tl' v₂ ⟨h₂, hkn₂, hput, h0⟩
  have hput : tl'.pWindow = tl.pWindow := hput
  have hs₂ := Along.of_le (h₁.trans h₂)
  rw [hput]
  refine wp.bind_of (wp.forever (Q := fun a v' => GetPost v tl.pWindow a v')
    (fun st v' => GetLoop v tl.pWindow st v') ⟨hs₂, hput, hkn₂, h0, .start (hkn₂.index h0),
      nofun⟩ ?_) ?_
  · intro st v₃ h₃
    exact getRound_spec hp (hb.later h₃.along.later (inv_of v) (inv_of v₃)) h₃
  · rintro ⟨d, tl''⟩ v₃ ⟨hs₃, hput₃, hkn₃, h0₃, hgot, hhead⟩
    exact ⟨hs₃, hput₃, ⟨hkn₃.put, hkn₃.get, hkn₃.index⟩, h0₃, hgot, hhead⟩

/-! ### `dequeue` -/

/-- What is known of a head `d` of sub-queue `j` and the descriptor `d'` that is to take its place,
in runs that are clean: there is a node behind the head, and its row is not above the new count. -/
def Takeable (max j : ℕ) (d d' : Descriptor) (x : (State × Watch) × Ghost) : Prop :=
  x.1.2.Clean → d.count < max → ∃ p t k r : ℕ, d.node = some t ∧ (x.1.1.nodes.line j)[p]? = some t ∧
    p < x.2.places.putPos j ∧ d'.node = some k ∧ (x.1.1.nodes.line j)[p + 1]? = some k ∧
    (x.2.places.rows j)[p + 1]? = some r ∧ r ≤ d'.count

theorem Takeable.later {x x' : (State × Watch) × Ghost} {max j : ℕ} {d d' : Descriptor}
    (h : Takeable max j d d' x) (hl : Later x x') : Takeable max j d d' x' := by
  intro hc hlt
  obtain ⟨p, t, k, r, hd, ht, hp, hk, hline, hr, hle⟩ := h (hl.watch.clean hc) hlt
  exact ⟨p, t, k, r, hd, hl.queues.line ht, hp.trans_le (hl.queues.putPos j), hk,
    hl.queues.line hline,
    hl.queues.row hr, hle⟩

/-- The head has not moved, so it stands at its position. -/
theorem Takeable.behind {x : (State × Watch) × Ghost} {max : ℕ} {d d' : Descriptor}
    (h : Takeable max j d d' x) (hi : Inv set x.1.1 x.1.2 x.2) (hj : j < set.maxWidth)
    (hc : x.1.2.Clean) (hlt : d.count < max) (he : x.1.1.getArray j = d) :
    ∃ k, d'.node = some k ∧ x.2.places.getPos j < x.2.places.putPos j ∧
      (x.1.1.nodes.line j)[x.2.places.getPos j + 1]? = some k ∧
      ∀ r, (x.2.places.rows j)[x.2.places.getPos j + 1]? = some r → r ≤ d'.count := by
  obtain ⟨p, t, k, r, hd, ht, hp, hk, hline, hr, hrow⟩ := h hc hlt
  have hpos := (hi.headed hc).head_pos hi.filled hj ht ((congrArg Descriptor.node he).trans hd)
  subst hpos
  refine ⟨k, hk, hp, hline, fun r' hr' => ?_⟩
  rw [Option.some.inj (hr'.symm.trans hr)]
  exact hrow

theorem deqCae_spec {max : ℕ} {d d' : Descriptor} (hj : j < set.maxWidth)
    (hcount : d.count ≤ d'.count) (h : Takeable max j d d' v.pair) :
    wp E.protocol c (deqCae max j d d') (fun _ v' => Along v v') v := by
  refine wp.cae (fun v₁ h₁ he _ => ?_) fun v₁ h₁ _ => .of_le h₁
  have hl₁ := later_of_le h₁
  have hi := inv_of v₁
  have he : v₁.state.1.getArray j = d := he
  have hw : v₁.state.2.Before
    { v₁.state.2 with late := v₁.state.2.late || decide (max ≤ d.count) } :=
    ⟨id, id, fun h => (Bool.or_eq_false_iff.1 h).1⟩
  have hle : (v₁.state.1.getArray j).count ≤ d'.count := he ▸ hcount
  by_cases hc : Watch.Clean { v₁.state.2 with late := v₁.state.2.late || decide (max ≤ d.count) }
  · have hlt : d.count < max := not_le.1 (of_decide_eq_false (Bool.or_eq_false_iff.1 hc.2).2)
    obtain ⟨k, hk, hp, hline, hrow⟩ := (h.later hl₁).behind hi hj (hw.clean hc) hlt he
    have hkept := fun o => Kept.takeNode (s := v₁.state.1) (g := v₁.now.2) (n := set.maxWidth)
      (o := o)
      hw hle
    exact ⟨_, allows_step v₁ (hi.takeNode (d := d') hw id hc hj hp (hk.trans hline.symm) hrow)
      fun o _ => hkept o,
      (Along.of_le h₁).trans (.step (hkept _))⟩
  · have hkept := fun o => Kept.loseNode (s := v₁.state.1) (g := v₁.now.2) (n := set.maxWidth)
      (o := o)
      hw hle
    exact ⟨_, allows_step v₁ (hi.loseNode hw id hc d') fun o _ => hkept o,
      (Along.of_le h₁).trans (.step (hkept _))⟩

/-- What is known of a head `d` before the node behind it is loaded. -/
def Removable (max j : ℕ) (d : Descriptor) (x : (State × Watch) × Ghost) : Prop :=
  x.1.2.Clean → d.count < max → ∃ p t r : ℕ, d.node = some t ∧ (x.1.1.nodes.line j)[p]? = some t ∧
    p < x.2.places.putPos j ∧ (x.2.places.rows j)[p]? = some r ∧ r ≤ d.count

theorem Removable.later {x x' : (State × Watch) × Ghost} {max j : ℕ} {d : Descriptor}
    (h : Removable max j d x) (hl : Later x x') : Removable max j d x' := by
  intro hc hlt
  obtain ⟨p, t, r, hd, ht, hp, hr, hle⟩ := h (hl.watch.clean hc) hlt
  exact ⟨p, t, r, hd, hl.queues.line ht, hp.trans_le (hl.queues.putPos j), hl.queues.row hr, hle⟩

/-- A head that the tail has passed. -/
theorem removable_of {x x' : (State × Watch) × Ghost} {max j : ℕ} {d : Descriptor}
    (hi : Inv set x.1.1 x.1.2 x.2) (hj : j < set.maxWidth) (hl : Later x x')
    (hhead : x.1.2.Clean → WasHead j d x.1.1.queues x.2.places) (hlt : x'.1.2.Clean →
      d.count < max → ∀ p r : ℕ, (x.1.1.nodes.line j)[p]? = d.node → p ≤ x.2.places.getPos j →
      (x.2.places.rows j)[p]? = some r → r ≤ d.count →
      p < x'.2.places.putPos j) : Removable max j d x' := by
  intro hc hmax
  obtain ⟨p, t, hd, ht, hpos, hrow⟩ := hhead (hl.watch.clean hc)
  have hlen := (List.getElem?_eq_some_iff.1 ht).1
  have hr := List.getElem?_eq_getElem (hlen.trans_eq (hi.filled.length _ hj).symm)
  exact ⟨p, t, _, hd, hl.queues.line ht, hlt hc hmax p _ (ht.trans hd.symm) hpos hr (hrow _ hr),
    hl.queues.row hr,
    hrow _ hr⟩

/-- The node behind a head in the get window, and its row. -/
theorem Removable.takeable {tl : Local} {d : Descriptor} {s : State} {w : Watch} {g : Ghost}
    (h : Removable tl.gWindow.max tl.getIndex d ((s, w), g)) (hi : Inv set s w g)
    (hj : tl.getIndex < set.maxWidth) (hidx : tl.getIndex < tl.gWindow.width)
    (hgot : w.Clean → Got s g tl.gWindow) : Takeable tl.gWindow.max tl.getIndex d
      ⟨(s.nodes.deref d.node).next, ElasticLpw.nextRow tl.gWindow.bottom d.count⟩ ((s, w), g) := by
  intro hc hlt
  obtain ⟨p, t, r, hd, ht, hp, hr, hle⟩ := h hc hlt
  have hput := hi.filled.valid.put_lt hj
  have hput : g.places.putPos tl.getIndex < (s.nodes.line tl.getIndex).length := hput
  have hrows := hi.filled.length _ hj
  have hlen : p + 1 < (s.nodes.line tl.getIndex).length := by
    have hp : p < g.places.putPos tl.getIndex := hp
    omega
  have hk := List.getElem?_eq_getElem hlen
  have hr' := List.getElem?_eq_getElem (hlen.trans_eq hrows.symm)
  refine ⟨p, t, _, _, hd, ht, hp, ?_, hk, hr', ?_⟩
  · rw [hd]
    exact (hi.filled.valid.lines.next _ hj p t ht).trans hk
  · obtain ⟨q, hq, -, hqn, hwidth⟩ := (hgot hc).exists_row hlt
    exact (hi.filled.row_le hj hr hr' (hle.trans_lt hq) (hidx.trans_eq hwidth.symm)).trans hqn

/-- What a round of `dequeue` ends with. -/
def Dequeued (set : Params) (u : PutWindow) (r : (Bool × Local) ⊕ (Local × Option ℤ))
    (v : View E.protocol c) : Prop :=
  Sum.elim (fun a => a.2.pWindow = u ∧ Known set a.2 v.pair ∧ a.2.gWindow.max ≠ 0)
    (fun a => Known set a.1 v.pair) r

theorem nonOverlap_spec {d : Descriptor} {tl : Local} (hkn : Known set tl v.pair)
    (h0 : tl.gWindow.max ≠ 0) (hgot : v.state.2.Clean → Got v.state.1 v.now.2 tl.gWindow)
    (h : Removable tl.gWindow.max tl.getIndex d v.pair) :
    wp E.protocol c (nonOverlap d tl) (fun r v' => Along v v' ∧
      Dequeued set tl.pWindow r v') v := by
  have hidx := hkn.index h0
  have hj : tl.getIndex < set.maxWidth := hidx.trans_le (hkn.get.width h0).2
  refine wp.read fun v₁ h₁ => ?_
  have hl₁ := later_of_le h₁
  have htake := (h.later hl₁).takeable (inv_of v₁) hj hidx fun hc =>
    (hgot (hl₁.watch.clean hc)).later hl₁ (inv_of v) (inv_of v₁) h0
  refine wp.bind_of (deqCae_spec hj (nextRow_gt tl.gWindow.bottom d.count).1.le htake) ?_
  rintro (_ | _) v₂ hs₂
  · have hs := (Along.of_le h₁).trans hs₂
    exact ⟨hs, rfl, hkn.later hs.later, h0⟩
  · refine wp.read fun v₃ h₃ => ?_
    have hs := (Along.of_le h₁).trans (hs₂.trans (.of_le h₃))
    exact ⟨hs, hkn.later hs.later⟩

theorem helpEnqueue_spec {contention : Bool} {tl : Local} {d : Descriptor}
    (hj : tl.getIndex < set.maxWidth) (ht : WasTail tl.getIndex d v.state.1.queues v.now.2.places)
    (hne : (v.state.1.nodes.deref d.node).next ≠ none) :
    wp E.protocol c (helpEnqueue d contention tl).onFst (fun r v' => Along v v' ∧ r.2 = tl) v := by
  refine wp.read_fst fun v₁ h₁ => wp.read_fst fun v₂ h₂ => wp.read_fst fun v₃ h₃ => ?_
  have hnext : (v₁.state.1.nodes.deref d.node).next = (v.state.1.nodes.deref d.node).next :=
    ht.next_grown (inv_of v).filled (inv_of v₁).filled (later_of_le h₁).queues hj hne
  obtain ⟨k, hk⟩ := Option.ne_none_iff_exists'.1 hne
  refine wp.bind_fst (putCae_spec hj fun v₄ h₄ he => ?_) fun _ v₄ hs₄ =>
    ⟨(Along.of_le ((h₁.trans h₂).trans h₃)).trans hs₄, rfl⟩
  have hl := later_of_le (((h₁.trans h₂).trans h₃).trans h₄)
  have hbehind := ht.behind (inv_of v).filled (inv_of v₄).filled hl.queues hj
    (congrArg Descriptor.node he) hk
  -- the tail has not moved since, so the node behind it was the pending one of the same window
  obtain ⟨hold, hmax, hwidth⟩ := ht.back (inv_of v).filled (inv_of v₄).filled hl.queues hj he hk
  have hsame := (inv_of v₄).present (hl.mem_windows (List.mem_cons_self ..)) hwidth (by
    rw [he, ← hold]
    exact hmax)
  have hmax₂ : v₂.state.1.globalPWindow.max = v.state.1.globalPWindow.max :=
    le_antisymm ((later_of_le (h₃.trans h₄)).put_le.trans (congrArg PutWindow.max hsame).ge)
      (later_of_le (h₁.trans h₂)).put_le
  have hmax₃ : v₃.state.1.globalPWindow = v₄.state.1.globalPWindow :=
    (later_of_le h₄).put_same (le_antisymm (later_of_le h₄).put_le
      ((congrArg PutWindow.max hsame).ge.trans (later_of_le ((h₁.trans h₂).trans h₃)).put_le))
  refine ⟨k, ?_, hbehind⟩
  rw [hnext, hk, hmax₂, hmax₃, congrArg PutWindow.max hsame]
  rfl

/-- The tail is loaded word by word. -/
theorem readTail_spec (hj : j < set.maxWidth) :
    wp E.protocol c (readDescriptor State.putArray j).onFst (fun e v' =>
      WasTail j e v'.state.1.queues v'.now.2.places ∧ ∃ u : View E.protocol c, v ≤ u ∧ u ≤ v' ∧
        e.node = (u.state.1.putArray j).node) v := by
  refine wp.read_fst fun v₁ h₁ => wp.read_fst fun v₂ h₂ => ?_
  exact ⟨.of_read (inv_of v₁).filled (inv_of v₂).filled (later_of_le h₂).queues hj, v₁, h₁, h₂, rfl⟩

theorem dequeueRound_spec (hp : set.WF) {contention : Bool} {tl : Local} (hkn : Known set tl v.pair)
    (hb : Bounded tl.pWindow.bottom v.pair) (hc : contention = true → tl.gWindow.max ≠ 0) :
    wp E.protocol c (dequeueRound set contention tl)
      (fun r v' => Along v v' ∧ Dequeued set tl.pWindow r v') v := by
  refine wp.bind_of (getWindow_spec hp hkn hb hc) ?_
  rintro ⟨d, tl'⟩ v₁ ⟨hs₁, hput, hkn₁, h0, hgot, hhead⟩
  have hput : tl'.pWindow = tl.pWindow := hput
  have hidx := hkn₁.index h0
  have hj : tl'.getIndex < set.maxWidth := hidx.trans_le (hkn₁.get.width h0).2
  -- what `non_overlap` needs to know of the head
  have hremove : ∀ {v' : View E.protocol c}, Along v₁ v' →
    (v'.state.2.Clean → d.count < tl'.gWindow.max →
      ∀ p r : ℕ, (v₁.state.1.nodes.line tl'.getIndex)[p]? = d.node →
        p ≤ v₁.now.2.places.getPos tl'.getIndex →
        (v₁.now.2.places.rows tl'.getIndex)[p]? = some r → r ≤ d.count →
        p < v'.now.2.places.putPos tl'.getIndex) →
      wp E.protocol c (nonOverlap d tl') (fun r v'' => Along v v'' ∧
        Dequeued set tl.pWindow r v'') v' := by
    intro v' hs' hlt
    refine (nonOverlap_spec (hkn₁.later hs'.later) h0 (fun hc' => ?_)
      (removable_of (inv_of v₁) hj hs'.later hhead hlt)).mono ?_
    · exact (hgot (hs'.later.watch.clean hc')).later hs'.later (inv_of v₁) (inv_of v') h0
    · rintro r v'' ⟨hs'', hr⟩
      exact ⟨(hs₁.trans hs').trans hs'', hput ▸ hr⟩
  dsimp only
  split
  next =>
    refine wp.bind_of (readTail_spec hj) ?_
    rintro e v₃ ⟨htail, v₂, h₂, h₃, he⟩
    have hl₂ := later_of_le h₂
    have hs₃ := Along.of_le (h₂.trans h₃)
    split
    next heq =>
      refine wp.read fun v₄ h₄ => ?_
      have hl₄ := hs₃.later.trans (later_of_le h₄)
      split
      next => exact ⟨hs₁.trans (hs₃.trans (.of_le h₄)), hkn₁.later hl₄⟩
      next hne =>
        have hne₄ : (v₄.state.1.nodes.deref e.node).next ≠ none := heq ▸ hne
        refine wp.bind_of (helpEnqueue_spec hj (htail.grown (later_of_le h₄).queues) hne₄) ?_
        rintro ⟨b, tl''⟩ v₅ ⟨hs₅, htl⟩
        obtain rfl : tl'' = tl' := htl
        have hs := hs₃.trans ((Along.of_le h₄).trans hs₅)
        exact ⟨hs₁.trans hs, hput, hkn₁.later hs.later, h0⟩
    next hne =>
      refine hremove hs₃ fun hc' hmax p r ht hpos hr hrow => ?_
      obtain ⟨t, ht'⟩ : ∃ t, d.node = some t := by
        obtain ⟨p', t, hd, -⟩ := hhead (hs₃.later.watch.clean hc')
        exact ⟨t, hd⟩
      have hline : (v₂.state.1.nodes.line tl'.getIndex)[p]? = d.node := by
        rw [ht'] at ht ⊢
        exact hl₂.queues.line ht
      exact ((inv_of _).filled.before_tail hj (hpos.trans (hl₂.queues.getPos _)) hline
        (he ▸ hne)).trans_le
        ((later_of_le h₃).queues.putPos _)
  next hge =>
    refine hremove (.refl v₁) fun hc' hmax p r ht hpos hr hrow => ?_
    have hbound := hb.later hs₁.later (inv_of v) (inv_of v₁) hc'.1
    rw [← hput] at hbound
    exact (inv_of v₁).filled.lt_put hj hr hrow hmax ((not_lt.1 hge).trans hbound)
      (hidx.trans_eq (hgot hc').top.symm)

/-- The second word of the put window is loaded after the first. If the depth is not above the
maximum, the bottom is not above that of the put window. -/
theorem loadPWindow_spec {tl : Local} {word1 : ℕ} (hkn : Known set tl v.pair)
    (hle : word1 ≤ v.state.1.globalPWindow.max) :
    wp E.protocol c (Prog.readWith (fun s => { s.globalPWindow with max := word1 }) fun s w =>
      { w with wrapped := w.wrapped || decide (word1 < s.globalPWindow.depth) })
      (fun u v' => Along v v' ∧ Known set { tl with pWindow := u } v'.pair ∧
        Bounded u.bottom v'.pair) v := by
  intro v₁ h₁ _ _
  have hi := inv_of v₁
  have hl₁ := later_of_le h₁
  have hw : v₁.state.2.Before { v₁.state.2 with
      wrapped := v₁.state.2.wrapped || decide (word1 < v₁.state.1.globalPWindow.depth) } :=
    ⟨id, fun h => (Bool.or_eq_false_iff.1 h).1, id⟩
  have hi₁ := hi.onSettings hw hi.width hi.depth hi.asserted fun h => hi.noted (hw.wrapped h)
  have hk := fun o => Kept.onSettings (s := v₁.state.1) (g := v₁.now.2) (n := set.maxWidth) (o := o)
    v₁.state.1.width v₁.state.1.depth v₁.state.1.failed hw
  have hall := allows_step v₁ hi₁ fun o _ => hk o
  have hs : Along v (v₁.step _ _ hall.inv) := (Along.of_le h₁).trans (.step (hk _))
  have hkn₁ := hkn.later hs.later
  refine ⟨_, hall, hs, ⟨.of_load (x := (v₁.step _ _ hall.inv).pair) (hle.trans hl₁.put_le),
    hkn₁.get, hkn₁.index⟩,
    fun h => ?_⟩
  have hdepth : v₁.state.1.globalPWindow.depth ≤ word1 :=
    not_lt.1 (of_decide_eq_false (Bool.or_eq_false_iff.1 h).2)
  show Words.usub 64 word1 v₁.state.1.globalPWindow.depth ≤ v₁.state.1.globalPWindow.bottom
  rw [Words.usub_of_le hdepth, hi.history.bottom_eq]
  exact Nat.sub_le_sub_right (hle.trans hl₁.put_le) _

theorem dequeue_spec (hp : set.WF) {tl : Local} (hkn : Known set tl v.pair) :
    wp E.protocol c (dequeue set tl) (fun r v' => Known set r.1 v'.pair) v := by
  refine wp.read fun v₁ h₁ => ?_
  refine wp.bind_of (loadPWindow_spec (hkn.later (later_of_le h₁)) le_rfl) ?_
  rintro u v₂ ⟨-, hkn₂, hb⟩
  refine wp.forever (fun b v' => (Along v₂ v' ∧ b.2.pWindow = u) ∧ Known set b.2 v'.pair ∧
    (b.1 = true → b.2.gWindow.max ≠ 0)) ⟨⟨.refl _, rfl⟩, hkn₂, nofun⟩ ?_
  rintro ⟨contention, tl'⟩ v₃ ⟨⟨hs₃, hput⟩, hkn₃, hc⟩
  obtain rfl : tl'.pWindow = u := hput
  refine (dequeueRound_spec hp hkn₃ (hb.later hs₃.later (inv_of _) (inv_of v₃)) hc).mono ?_
  rintro (⟨contention', tl''⟩ | r) v₄ ⟨hs₄, h₄⟩
  · exact ⟨⟨hs₃.trans hs₄, h₄.1⟩, h₄.2.1, fun _ => h₄.2.2⟩
  · exact h₄

end Watched

end ElasticLpw
