import SemanticRelaxation.RelaxationAnalysis.Timestamps
import Mathlib.Data.Nat.Count
import Mathlib.Data.Sum.Basic

/-!
# New timestamps without duplicates (`remove_duplicate_timestamps`)

Two sorted arrays of records are merged, and each record gets its number in the merged order as its
new timestamp. The two loops of the source share the two indices and the time. When the gets are
exhausted first, the flag ends the outer loop and the remaining puts keep their timestamps.

* `Merged`: the invariant, in which the new timestamp of a record is the number of the records
  before it;
* `duplicates_iff`: the timestamps are distinct and in the old order exactly if those of the
  remaining puts happen to be.
-/

namespace RelaxationAnalysis

/-- The arrays and the locals of `remove_duplicate_timestamps`. -/
structure Renumbering where
  put : ℕ → Stamp
  get : ℕ → Stamp
  keepGoing : Bool
  time : ℕ
  putIdx : ℕ
  getIdx : ℕ
  nextPutTime : ℕ
  nextGetTime : ℕ

/-- `put_stamps[put_idx++].timestamp = time++`. -/
def Renumbering.renumberPut (s : Renumbering) : Renumbering :=
  { s with
    put := Function.update s.put s.putIdx { s.put s.putIdx with timestamp := s.time }
    putIdx := s.putIdx + 1
    time := s.time + 1 }

/-- `get_stamps[get_idx++].timestamp = time++`. -/
def Renumbering.renumberGet (s : Renumbering) : Renumbering :=
  { s with
    get := Function.update s.get s.getIdx { s.get s.getIdx with timestamp := s.time }
    getIdx := s.getIdx + 1
    time := s.time + 1 }

/-- The first of the inner loops. -/
def putLoop (totPut : ℕ) : ℕ → Renumbering → Option Renumbering
  | 0, _ => none
  | fuel + 1, s =>
    if s.putIdx < totPut ∧ s.nextPutTime ≤ s.nextGetTime then
      let s := s.renumberPut
      if s.putIdx ≥ totPut then some { s with keepGoing := false }
      else putLoop totPut fuel { s with nextPutTime := (s.put s.putIdx).timestamp }
    else some s

/-- The second of the inner loops. -/
def getLoop (totPut totGet : ℕ) : ℕ → Renumbering → Option Renumbering
  | 0, _ => none
  | fuel + 1, s =>
    if s.nextGetTime < s.nextPutTime ∨ s.putIdx ≥ totPut then
      let s := s.renumberGet
      if s.getIdx ≥ totGet then some { s with keepGoing := false }
      else getLoop totPut totGet fuel { s with nextGetTime := (s.get s.getIdx).timestamp }
    else some s

/-- The outer loop; the fuel `inner` is the one of the inner loops. -/
def mergeLoop (totPut totGet inner : ℕ) : ℕ → Renumbering → Option Renumbering
  | 0, _ => none
  | fuel + 1, s =>
    if s.keepGoing then
      (putLoop totPut inner s).bind fun s => (getLoop totPut totGet inner s).bind
      (mergeLoop totPut totGet inner fuel)
    else some s

/-- `remove_duplicate_timestamps`: the two arrays afterwards. -/
def removeDuplicateTimestamps (fuel : ℕ) (putStamps : ℕ → Stamp) (totPut : ℕ)
    (getStamps : ℕ → Stamp) (totGet : ℕ) :
    Option ((ℕ → Stamp) × (ℕ → Stamp)) :=
  (mergeLoop totPut totGet fuel fuel
    ⟨putStamps, getStamps, true, 0, 0, 0, (putStamps 0).timestamp, (getStamps 0).timestamp⟩).map
    fun s => (s.put, s.get)

/-! ### What the new timestamps should be -/

/-- The timestamps of all records, of the puts and of the gets. -/
def times (put get : ℕ → Stamp) :
    ℕ ⊕ ℕ → ℕ := Sum.elim (fun i => (put i).timestamp) fun j => (get j).timestamp

/-- The order of the records: by time, the puts before the gets, and then as in the array. -/
def Earlier (t : ℕ ⊕ ℕ → ℕ) (r r' : ℕ ⊕ ℕ) :
    Prop := t r < t r' ∨ t r = t r' ∧ Sum.Lex (· < ·) (· < ·) r r'

/-- `r` is the number of a record. -/
def IsRecord (totPut totGet : ℕ) : ℕ ⊕ ℕ → Prop := Sum.elim (· < totPut) (· < totGet)

/-- All timestamps are distinct, and the records are in the order they had. -/
structure Renumbered (totPut totGet : ℕ) (t new : ℕ ⊕ ℕ → ℕ) : Prop where
  distinct : ∀ r r', IsRecord totPut totGet r → IsRecord totPut totGet r' → r ≠ r' → new r ≠ new r'
  order : ∀ r r', IsRecord totPut totGet r → IsRecord totPut totGet r' →
    (Earlier new r r' ↔ Earlier t r r')

/-- The records of an array are sorted. -/
def SortedTo (n : ℕ) (stamps : ℕ → Stamp) :
    Prop := ∀ i j, i ≤ j → j < n → (stamps i).timestamp ≤ (stamps j).timestamp

/-- The puts with a time after the last get have distinct timestamps, and these are not less than
the number of all other records. -/
def LatePutsApart (put : ℕ → Stamp) (totPut : ℕ) (get : ℕ → Stamp) (totGet : ℕ) : Prop :=
  ∀ i < totPut, (get (totGet - 1)).timestamp < (put i).timestamp →
    totGet + Nat.count (fun k => (put k).timestamp ≤ (get (totGet - 1)).timestamp) totPut ≤
      (put i).timestamp ∧
      ∀ k < totPut, k ≠ i → (put k).timestamp ≠ (put i).timestamp

section Count

variable {p : ℕ → Prop} [DecidablePred p] {n a : ℕ}

theorem le_count (ha : a ≤ n) (h : ∀ k < a, p k) : a ≤ Nat.count p n :=
  calc a = Nat.count p a := (Nat.count_iff_forall.2 h).symm
    _ ≤ Nat.count p n := Nat.count_monotone p ha

theorem count_le (h : ∀ k, a ≤ k → k < n → ¬p k) : Nat.count p n ≤ a := by
  rcases Nat.le_total n a with hna | han
  · exact (Nat.count_le p).trans hna
  · obtain ⟨d, rfl⟩ := Nat.exists_eq_add_of_le han
    have hzero : Nat.count (fun k => p (a + k)) d = 0 :=
      Nat.count_iff_forall_not.2 fun k hk => h _ (Nat.le_add_right ..) (Nat.add_lt_add_left hk _)
    rw [Nat.count_add, hzero, Nat.add_zero]
    exact Nat.count_le p

end Count

/-! ### The loops -/

/-- The number of gets before the put `i`. -/
def getsBefore (put get : ℕ → Stamp) (totGet i : ℕ) : ℕ :=
  Nat.count (fun j => (get j).timestamp < (put i).timestamp) totGet

/-- The number of puts before the get `j`. -/
def putsBefore (put get : ℕ → Stamp) (totPut j : ℕ) : ℕ :=
  Nat.count (fun i => (put i).timestamp ≤ (get j).timestamp) totPut

/-- The records before the two indices are the first ones in the merged order, and have their
numbers. -/
structure Merged (put : ℕ → Stamp) (totPut : ℕ) (get : ℕ → Stamp) (totGet : ℕ) (s : Renumbering) :
    Prop where
  putIdx_le : s.putIdx ≤ totPut
  getIdx_le : s.getIdx ≤ totGet
  time : s.time = s.putIdx + s.getIdx
  putDone : ∀ i < s.putIdx, (s.put i).timestamp = i + getsBefore put get totGet i
  getDone : ∀ j < s.getIdx, (s.get j).timestamp = j + putsBefore put get totPut j
  putRest : ∀ i, s.putIdx ≤ i → s.put i = put i
  getRest : ∀ j, s.getIdx ≤ j → s.get j = get j
  putTime : s.putIdx < totPut → s.nextPutTime = (put s.putIdx).timestamp
  getTime : s.getIdx < totGet → s.nextGetTime = (get s.getIdx).timestamp
  putFirst : ∀ i < s.putIdx, ∀ j, s.getIdx ≤ j → j < totGet → (put i).timestamp ≤ (get j).timestamp
  getFirst : ∀ j < s.getIdx, ∀ i, s.putIdx ≤ i → i < totPut → (get j).timestamp < (put i).timestamp
  putLast : ∀ i < s.putIdx, (put i).timestamp ≤ (get (totGet - 1)).timestamp

section Loops

variable {put get : ℕ → Stamp} {totPut totGet : ℕ} {s : Renumbering}

/-- One round of the first loop, with the time that is then looked at. -/
theorem Merged.putRound (h : Merged put totPut get totGet s) (hgets : SortedTo totGet get)
    (hp : s.putIdx < totPut) (hg : s.getIdx < totGet) (hle : s.nextPutTime ≤ s.nextGetTime)
    {next : ℕ} (keepGoing : Bool)
    (hnext : s.putIdx + 1 < totPut → next = (put (s.putIdx + 1)).timestamp) :
    Merged put totPut get totGet
      { s.renumberPut with nextPutTime := next, keepGoing := keepGoing } := by
  rw [h.putTime hp, h.getTime hg] at hle
  have hfirst : ∀ j, s.getIdx ≤ j → j < totGet → (put s.putIdx).timestamp ≤ (get j).timestamp :=
    fun j hj hjt => hle.trans (hgets _ _ hj hjt)
  have hnumber : getsBefore put get totGet s.putIdx = s.getIdx :=
    Nat.le_antisymm (count_le fun j hj hjt => Nat.not_lt.2 (hfirst j hj hjt))
      (le_count h.getIdx_le fun j hj => h.getFirst j hj _ le_rfl hp)
  refine ⟨hp, h.getIdx_le, ?_, ?_, h.getDone, ?_, h.getRest, hnext, h.getTime, ?_, ?_, ?_⟩
  · show s.time + 1 = s.putIdx + 1 + s.getIdx
    rw [h.time]
    omega
  · intro i hi
    show (Function.update s.put s.putIdx _ i).timestamp = _
    rcases Nat.lt_succ_iff_lt_or_eq.1 hi with hi | rfl
    · rw [Function.update_of_ne hi.ne]
      exact h.putDone i hi
    · rw [Function.update_self, hnumber]
      exact h.time
  · intro i hi
    show Function.update s.put s.putIdx _ i = _
    rw [Function.update_of_ne (Nat.ne_of_gt hi)]
    exact h.putRest i (Nat.le_of_succ_le hi)
  · intro i hi j hj hjt
    rcases Nat.lt_succ_iff_lt_or_eq.1 hi with hi | rfl
    · exact h.putFirst i hi j hj hjt
    · exact hfirst j hj hjt
  · intro j hj i hi hit
    exact h.getFirst j hj i (Nat.le_of_succ_le hi) hit
  · intro i hi
    rcases Nat.lt_succ_iff_lt_or_eq.1 hi with hi | rfl
    · exact h.putLast i hi
    · exact hfirst _ (Nat.le_sub_one_of_lt hg) (Nat.sub_one_lt_of_lt hg)

/-- One round of the second loop. -/
theorem Merged.getRound (h : Merged put totPut get totGet s) (hputs : SortedTo totPut put)
    (hg : s.getIdx < totGet) (hlt : s.nextGetTime < s.nextPutTime ∨ s.putIdx ≥ totPut) {next : ℕ}
    (keepGoing : Bool)
    (hnext : s.getIdx + 1 < totGet → next = (get (s.getIdx + 1)).timestamp) :
    Merged put totPut get totGet
      { s.renumberGet with nextGetTime := next, keepGoing := keepGoing } := by
  have hfirst : ∀ i, s.putIdx ≤ i → i < totPut → (get s.getIdx).timestamp < (put i).timestamp := by
    intro i hi hit
    have hlt : s.nextGetTime < s.nextPutTime :=
      hlt.resolve_right (Nat.not_le.2 (Nat.lt_of_le_of_lt hi hit))
    rw [h.putTime (Nat.lt_of_le_of_lt hi hit), h.getTime hg] at hlt
    exact hlt.trans_le (hputs _ _ hi hit)
  have hnumber : putsBefore put get totPut s.getIdx = s.putIdx :=
    Nat.le_antisymm (count_le fun i hi hit => Nat.not_le.2 (hfirst i hi hit))
      (le_count h.putIdx_le fun i hi => h.putFirst i hi _ le_rfl hg)
  refine ⟨h.putIdx_le, hg, ?_, h.putDone, ?_, h.putRest, ?_, h.putTime, hnext, ?_, ?_, h.putLast⟩
  · show s.time + 1 = s.putIdx + (s.getIdx + 1)
    rw [h.time]
    omega
  · intro j hj
    show (Function.update s.get s.getIdx _ j).timestamp = _
    rcases Nat.lt_succ_iff_lt_or_eq.1 hj with hj | rfl
    · rw [Function.update_of_ne hj.ne]
      exact h.getDone j hj
    · rw [Function.update_self, hnumber, Nat.add_comm]
      exact h.time
  · intro j hj
    show Function.update s.get s.getIdx _ j = _
    rw [Function.update_of_ne (Nat.ne_of_gt hj)]
    exact h.getRest j (Nat.le_of_succ_le hj)
  · intro i hi j hj hjt
    exact h.putFirst i hi j (Nat.le_of_succ_le hj) hjt
  · intro j hj i hi hit
    rcases Nat.lt_succ_iff_lt_or_eq.1 hj with hj | rfl
    · exact h.getFirst j hj i hi hit
    · exact hfirst i hi hit

/-- The first loop ends with all puts renumbered, or with a get to be renumbered next. -/
theorem putLoop_spec (hgets : SortedTo totGet get) (fuel : ℕ)
    (h : Merged put totPut get totGet s) (hp : s.putIdx < totPut) (hg : s.getIdx < totGet)
    (hk : s.keepGoing = true) (hf : totPut - s.putIdx < fuel) :
    ∃ s', putLoop totPut fuel s = some s' ∧ Merged put totPut get totGet s' ∧
      s'.getIdx = s.getIdx ∧ (s'.nextGetTime < s'.nextPutTime ∨ s'.putIdx ≥ totPut) ∧
      (s'.keepGoing = true ↔ s'.putIdx < totPut) := by
  induction fuel generalizing s with
  | zero => omega
  | succ fuel ih =>
    unfold putLoop
    by_cases hc : s.nextPutTime ≤ s.nextGetTime
    · rw [if_pos ⟨hp, hc⟩]
      by_cases hlast : s.renumberPut.putIdx ≥ totPut
      · dsimp only
        rw [if_pos hlast]
        refine ⟨_, rfl, h.putRound hgets hp hg hc false ?_, rfl, .inr hlast, ?_⟩
        · exact fun hlt => absurd hlt (Nat.not_lt.2 hlast)
        · exact ⟨nofun, fun hlt => absurd hlt (Nat.not_lt.2 hlast)⟩
      · dsimp only
        rw [if_neg hlast]
        have hlast : s.putIdx + 1 < totPut := Nat.lt_of_not_le hlast
        have hnext : s.renumberPut.put (s.putIdx + 1) = put (s.putIdx + 1) := by
          show Function.update s.put s.putIdx _ (s.putIdx + 1) = _
          rw [Function.update_of_ne (Nat.succ_ne_self _)]
          exact h.putRest _ (Nat.le_succ _)
        have hround := h.putRound hgets hp hg hc s.keepGoing fun _ => congrArg Stamp.timestamp hnext
        refine ih hround hlast hg hk ?_
        · show totPut - (s.putIdx + 1) < fuel
          omega
    · rw [if_neg fun hboth => hc hboth.2]
      exact ⟨s, rfl, h, rfl, .inl (Nat.lt_of_not_le hc), fun _ => hp, fun _ => hk⟩

/-- The second loop ends with all gets renumbered, or with a put to be renumbered next. -/
theorem getLoop_spec (hputs : SortedTo totPut put) (fuel : ℕ)
    (h : Merged put totPut get totGet s) (hg : s.getIdx < totGet) (hk : s.keepGoing = true ↔
      s.putIdx < totPut)
    (hf : totGet - s.getIdx < fuel) :
    ∃ s', getLoop totPut totGet fuel s = some s' ∧ Merged put totPut get totGet s' ∧
      s.getIdx ≤ s'.getIdx ∧ (s.nextGetTime < s.nextPutTime ∨ s.putIdx ≥ totPut →
        s.getIdx < s'.getIdx) ∧
      (s'.keepGoing = true → s'.putIdx < totPut ∧ s'.getIdx < totGet) ∧
      (s'.keepGoing = false → s'.getIdx = totGet) := by
  induction fuel generalizing s with
  | zero => omega
  | succ fuel ih =>
    unfold getLoop
    by_cases hc : s.nextGetTime < s.nextPutTime ∨ s.putIdx ≥ totPut
    · rw [if_pos hc]
      by_cases hlast : s.renumberGet.getIdx ≥ totGet
      · dsimp only
        rw [if_pos hlast]
        refine ⟨_, rfl, h.getRound hputs hg hc false ?_, Nat.le_succ _, fun _ => Nat.lt_succ_self _,
          nofun, fun _ => ?_⟩
        · exact fun hlt => absurd hlt (Nat.not_lt.2 hlast)
        · exact Nat.le_antisymm hg hlast
      · dsimp only
        rw [if_neg hlast]
        have hlast : s.getIdx + 1 < totGet := Nat.lt_of_not_le hlast
        have hnext : s.renumberGet.get (s.getIdx + 1) = get (s.getIdx + 1) := by
          show Function.update s.get s.getIdx _ (s.getIdx + 1) = _
          rw [Function.update_of_ne (Nat.succ_ne_self _)]
          exact h.getRest _ (Nat.le_succ _)
        have hround := h.getRound hputs hg hc s.keepGoing fun _ => congrArg Stamp.timestamp hnext
        obtain ⟨s', hs', hm, hle, -, hends⟩ := ih hround hlast hk (by
          show totGet - (s.getIdx + 1) < fuel
          omega)
        exact ⟨s', hs', hm, Nat.le_of_succ_le hle, fun _ => hle, hends⟩
    · rw [if_neg hc]
      have hp : s.putIdx < totPut := Nat.lt_of_not_le fun hge => hc (.inr hge)
      refine ⟨s, rfl, h, le_rfl, fun he => absurd he hc, fun _ => ⟨hp, hg⟩, fun hstop => ?_⟩
      rw [hk.2 hp] at hstop
      exact absurd hstop nofun

/-- The outer loop ends when all gets are renumbered. -/
theorem mergeLoop_spec (hputs : SortedTo totPut put) (hgets : SortedTo totGet get) (inner fuel : ℕ)
    (h : Merged put totPut get totGet s) (hk : s.keepGoing = true) (hp : s.putIdx < totPut)
    (hg : s.getIdx < totGet) (hinner : totPut + totGet < inner)
    (hf : totGet - s.getIdx + 1 < fuel) :
    ∃ s', mergeLoop totPut totGet inner fuel s = some s' ∧ Merged put totPut get totGet s' ∧
      s'.getIdx = totGet := by
  induction fuel generalizing s with
  | zero => omega
  | succ fuel ih =>
    obtain ⟨s₁, hs₁, h₁, hidx, hnext, hk₁⟩ := putLoop_spec hgets inner h hp hg hk (by omega)
    rw [← hidx] at hg
    obtain ⟨s₂, hs₂, h₂, -, hlt, hgo, hstop⟩ := getLoop_spec hputs inner h₁ hg hk₁ (by omega)
    have hlt := hlt hnext
    unfold mergeLoop
    rw [if_pos hk, hs₁, Option.bind_some, hs₂, Option.bind_some]
    cases hk₂ : s₂.keepGoing with
    | true => exact ih h₂ hk₂ (hgo hk₂).1 (hgo hk₂).2 (by omega)
    | false =>
      obtain ⟨fuel, rfl⟩ := Nat.exists_eq_add_one.2 (show 0 < fuel by omega)
      unfold mergeLoop
      rw [if_neg (by simp [hk₂])]
      exact ⟨s₂, rfl, h₂, hstop hk₂⟩

end Loops

/-! ### The order of the new timestamps -/

section Order

variable {put get : ℕ → Stamp} {totPut totGet : ℕ} {s : Renumbering}

/-- The puts that are renumbered are those that are not after the last get. -/
theorem Merged.putIdx_eq (h : Merged put totPut get totGet s) (hall : s.getIdx = totGet)
    (hg : 0 < totGet) :
    s.putIdx = putsBefore put get totPut (totGet - 1) :=
  Nat.le_antisymm (le_count h.putIdx_le h.putLast)
    (count_le fun i hi hit => Nat.not_le.2 (h.getFirst _ (by omega) i hi hit))

/-- A put that is not after a get has a smaller number, and otherwise a larger one. -/
theorem number_lt_iff (hputs : SortedTo totPut put) (hgets : SortedTo totGet get) {i j : ℕ}
    (hi : i < totPut) (hj : j < totGet) :
    (i + getsBefore put get totGet i < j + putsBefore put get totPut j ↔
      (put i).timestamp ≤ (get j).timestamp) ∧
    i + getsBefore put get totGet i ≠ j + putsBefore put get totPut j := by
  by_cases hle : (put i).timestamp ≤ (get j).timestamp
  · have hgetsBefore : getsBefore put get totGet i ≤ j :=
      count_le fun k hk hkt => Nat.not_lt.2 (hle.trans (hgets _ _ hk hkt))
    have hputsBefore : i + 1 ≤ putsBefore put get totPut j :=
      le_count hi fun k hk => (hputs _ _ (Nat.le_of_lt_succ hk) hi).trans hle
    refine ⟨⟨fun _ => hle, fun _ => ?_⟩, ?_⟩
    · omega
    · omega
  · have hlt := Nat.lt_of_not_le hle
    have hgetsBefore : j + 1 ≤ getsBefore put get totGet i :=
      le_count hj fun k hk => Nat.lt_of_le_of_lt (hgets _ _ (Nat.le_of_lt_succ hk) hj) hlt
    have hputsBefore : putsBefore put get totPut j ≤ i :=
      count_le fun k hk hkt => Nat.not_le.2 (hlt.trans_le (hputs _ _ hk hkt))
    refine ⟨⟨fun _ => ?_, fun he => absurd he hle⟩, ?_⟩
    · omega
    · omega

/-- The puts before others have smaller numbers. -/
theorem putNumber_lt (hputs : SortedTo totPut put) {i k : ℕ} (hik : i < k) (hk : k < totPut) :
    i + getsBefore put get totGet i < k + getsBefore put get totGet k :=
  Nat.add_lt_add_of_lt_of_le hik (Nat.count_mono_left fun _ _ hj => hj.trans_le
    (hputs _ _ hik.le hk))

theorem getNumber_lt (hgets : SortedTo totGet get) {j k : ℕ} (hjk : j < k) (hk : k < totGet) :
    j + putsBefore put get totPut j < k + putsBefore put get totPut k :=
  Nat.add_lt_add_of_lt_of_le hjk (Nat.count_mono_left fun _ _ hi => hi.trans (hgets _ _ hjk.le hk))

/-- Two different records come in one order or the other. -/
theorem earlier_or (t : ℕ ⊕ ℕ → ℕ) {r r' : ℕ ⊕ ℕ} (hne : r ≠ r') :
    Earlier t r r' ∨ Earlier t r' r := by
  rcases Nat.lt_trichotomy (t r) (t r') with hlt | heq | hgt
  · exact .inl (.inl hlt)
  · have hlex : Sum.Lex (· < ·) (· < ·) r r' ∨ Sum.Lex (· < ·) (· < ·) r' r := by
      cases r with
      | inl i =>
        cases r' with
        | inl k =>
          rcases Nat.lt_or_gt_of_ne fun he => hne (congrArg Sum.inl he) with h | h
          · exact .inl (.inl h)
          · exact .inr (.inl h)
        | inr j => exact .inl (.sep ..)
      | inr j =>
        cases r' with
        | inl i => exact .inr (.sep ..)
        | inr k =>
          rcases Nat.lt_or_gt_of_ne fun he => hne (congrArg Sum.inr he) with h | h
          · exact .inl (.inr h)
          · exact .inr (.inr h)
    exact hlex.imp (fun h => .inr ⟨heq, h⟩) fun h => .inr ⟨heq.symm, h⟩
  · exact .inr (.inl hgt)

theorem Earlier.ne {t : ℕ ⊕ ℕ → ℕ} {r r' : ℕ ⊕ ℕ} (h : Earlier t r r') : r ≠ r' := by
  rintro rfl
  rcases h with hlt | ⟨-, hlex⟩
  · exact Nat.lt_irrefl _ hlt
  · cases r with
    | inl i => exact Nat.lt_irrefl _ (Sum.lex_inl_inl.1 hlex)
    | inr j => exact Nat.lt_irrefl _ (Sum.lex_inr_inr.1 hlex)

/-- The records are renumbered if and only if an earlier one always gets a smaller time. -/
theorem renumbered_iff {t new : ℕ ⊕ ℕ → ℕ} : Renumbered totPut totGet t new ↔
    ∀ r r', IsRecord totPut totGet r → IsRecord totPut totGet r' → Earlier t r r' →
      new r < new r' := by
  constructor
  · intro h r r' hr hr' he
    rcases (h.order r r' hr hr').2 he with hlt | ⟨heq, -⟩
    · exact hlt
    · exact absurd heq (h.distinct r r' hr hr' he.ne)
  · intro h
    refine ⟨fun r r' hr hr' hne heq => ?_, fun r r' hr hr' => ⟨fun he => ?_,
      fun he => .inl (h r r' hr hr' he)⟩⟩
    · rcases earlier_or t hne with he | he
      · exact (h r r' hr hr' he).ne heq
      · exact (h r' r hr' hr he).ne heq.symm
    · rcases earlier_or t he.ne with ht | ht
      · exact ht
      · have hlt := h r' r hr' hr ht
        rcases he with hgt | ⟨heq, -⟩
        · omega
        · omega

/-- The order of the records of two sorted arrays. -/
theorem earlier_put_put (hputs : SortedTo totPut put) {i k : ℕ} (hi : i < totPut)
    (h : Earlier (times put get) (.inl i) (.inl k)) : i < k := by
  rcases h with hlt | ⟨-, hlex⟩
  · exact Nat.lt_of_not_le fun hki => Nat.not_le.2 hlt (hputs _ _ hki hi)
  · exact Sum.lex_inl_inl.1 hlex

theorem earlier_get_get (hgets : SortedTo totGet get) {j k : ℕ} (hj : j < totGet)
    (h : Earlier (times put get) (.inr j) (.inr k)) : j < k := by
  rcases h with hlt | ⟨-, hlex⟩
  · exact Nat.lt_of_not_le fun hkj => Nat.not_le.2 hlt (hgets _ _ hkj hj)
  · exact Sum.lex_inr_inr.1 hlex

theorem earlier_put_get {i j : ℕ} :
    Earlier (times put get) (.inl i) (.inr j) ↔ (put i).timestamp ≤ (get j).timestamp := by
  constructor
  · rintro (hlt | ⟨heq, -⟩)
    · exact Nat.le_of_lt hlt
    · exact Nat.le_of_eq heq
  · intro hle
    exact (Nat.lt_or_eq_of_le hle).imp id fun heq => ⟨heq, .sep ..⟩

theorem earlier_get_put {i j : ℕ} :
    Earlier (times put get) (.inr j) (.inl i) ↔ (get j).timestamp < (put i).timestamp := by
  constructor
  · rintro (hlt | ⟨-, hlex⟩)
    · exact hlt
    · exact absurd hlex Sum.lex_inr_inl
  · exact .inl

/-- After the loops: the new timestamps are as they should be exactly if the remaining puts are
apart. -/
theorem Merged.renumbered_iff (h : Merged put totPut get totGet s) (hall : s.getIdx = totGet)
    (hg : 0 < totGet) (hputs : SortedTo totPut put) (hgets : SortedTo totGet get) :
    Renumbered totPut totGet (times put get) (times s.put s.get) ↔
      LatePutsApart put totPut get totGet := by
  have hidx : s.putIdx = putsBefore put get totPut (totGet - 1) := h.putIdx_eq hall hg
  have hlate : ∀ i < totPut, s.putIdx ≤ i ↔ (get (totGet - 1)).timestamp < (put i).timestamp :=
    fun i hi =>
    ⟨fun hle => h.getFirst _ (by omega) i hle hi, fun hlt =>
      Nat.le_of_not_lt fun hlti => Nat.not_le.2 hlt (h.putLast i hlti)⟩
  have hget : ∀ j < totGet, (s.get j).timestamp = j + putsBefore put get totPut j := fun j hj =>
    h.getDone j (by omega)
  rw [RelaxationAnalysis.renumbered_iff]
  constructor
  · intro hmono i hi hafter
    have hrest : s.putIdx ≤ i := (hlate i hi).2 hafter
    have hnew : (s.put i).timestamp = (put i).timestamp :=
      congrArg Stamp.timestamp (h.putRest i hrest)
    refine ⟨?_, fun k hk hki heq => ?_⟩
    · have hlt : (s.get (totGet - 1)).timestamp < (s.put i).timestamp :=
        hmono (.inr (totGet - 1)) (.inl i) (Nat.sub_one_lt_of_lt hg) hi (earlier_get_put.2 hafter)
      rw [hget _ (Nat.sub_one_lt_of_lt hg), hnew, ← hidx] at hlt
      show totGet + putsBefore put get totPut (totGet - 1) ≤ _
      omega
    · have hkrest : s.putIdx ≤ k := (hlate k hk).2 (heq ▸ hafter)
      have hknew : (s.put k).timestamp = (put k).timestamp :=
        congrArg Stamp.timestamp (h.putRest k hkrest)
      rcases earlier_or (times put get) fun he => hki (Sum.inl.inj he) with he | he
      · have hlt : (s.put k).timestamp < (s.put i).timestamp := hmono (.inl k) (.inl i) hk hi he
        omega
      · have hlt : (s.put i).timestamp < (s.put k).timestamp := hmono (.inl i) (.inl k) hi hk he
        omega
  · intro hapart
    -- a remaining put has a time that is larger than all numbers
    have hrest : ∀ i, s.putIdx ≤ i → i < totPut → totGet + s.putIdx ≤ (s.put i).timestamp ∧
        (s.put i).timestamp = (put i).timestamp := by
      intro i hi hit
      rw [h.putRest i hi, hidx]
      exact ⟨(hapart i hit ((hlate i hit).1 hi)).1, rfl⟩
    have hputNumber : ∀ i < s.putIdx, (s.put i).timestamp < totGet + s.putIdx := by
      intro i hi
      rw [h.putDone i hi]
      have hle : getsBefore put get totGet i ≤ totGet := Nat.count_le _
      omega
    have hgetNumber : ∀ j < totGet, (s.get j).timestamp < totGet + s.putIdx := by
      intro j hj
      rw [hget j hj, hidx]
      have hle : putsBefore put get totPut j ≤ putsBefore put get totPut (totGet - 1) :=
        Nat.count_mono_left fun _ _ hi =>
          hi.trans (hgets _ _ (Nat.le_sub_one_of_lt hj) (Nat.sub_one_lt_of_lt hg))
      omega
    rintro (i | j) (k | l) hr hr' he
    · have hik : i < k := earlier_put_put hputs hr he
      show (s.put i).timestamp < (s.put k).timestamp
      rcases Nat.lt_or_ge k s.putIdx with hk | hk
      · rw [h.putDone i (hik.trans hk), h.putDone k hk]
        exact putNumber_lt hputs hik hr'
      · rcases Nat.lt_or_ge i s.putIdx with hi | hi
        · exact (hputNumber i hi).trans_le (hrest k hk hr').1
        · rw [(hrest i hi hr).2, (hrest k hk hr').2]
          exact Nat.lt_of_le_of_ne (hputs _ _ hik.le hr')
            ((hapart k hr' ((hlate k hr').1 hk)).2 i hr hik.ne)
    · have hle := earlier_put_get.1 he
      have hi : i < s.putIdx := Nat.lt_of_not_le fun hi => Nat.not_le.2 (h.getFirst l (by
        rw [hall]
        exact hr') i hi hr) hle
      show (s.put i).timestamp < (s.get l).timestamp
      rw [h.putDone i hi, hget l hr']
      exact (number_lt_iff hputs hgets hr hr').1.2 hle
    · have hlt := earlier_get_put.1 he
      show (s.get j).timestamp < (s.put k).timestamp
      rcases Nat.lt_or_ge k s.putIdx with hk | hk
      · rw [h.putDone k hk, hget j hr]
        have hnum := number_lt_iff hputs hgets hr' hr
        exact Nat.lt_of_le_of_ne (Nat.le_of_not_lt fun hgt => Nat.not_le.2 hlt
          (hnum.1.1 hgt)) hnum.2.symm
      · exact (hgetNumber j hr).trans_le (hrest k hk hr').1
    · have hjl : j < l := earlier_get_get hgets hr he
      show (s.get j).timestamp < (s.get l).timestamp
      rw [hget j hr, hget l hr']
      exact getNumber_lt hgets hjl hr'

end Order

/-- For two sorted arrays, the function returns, and then all timestamps are distinct and in the old
order exactly if the puts after the last get are apart. -/
theorem duplicates_iff {put get : ℕ → Stamp} {totPut totGet fuel : ℕ} (hp : 0 < totPut)
    (hg : 0 < totGet) (hputs : SortedTo totPut put) (hgets : SortedTo totGet get)
    (hf : totPut + totGet + 1 < fuel) :
    ∃ put' get', removeDuplicateTimestamps fuel put totPut get totGet = some (put', get') ∧
      (Renumbered totPut totGet (times put get) (times put' get') ↔
        LatePutsApart put totPut get totGet) := by
  have hinit : Merged put totPut get totGet ⟨put, get, true, 0, 0, 0, (put 0).timestamp,
    (get 0).timestamp⟩ :=
    ⟨Nat.zero_le _, Nat.zero_le _, rfl, nofun, nofun, fun _ _ => rfl, fun _ _ => rfl, fun _ => rfl,
      fun _ => rfl, nofun,
      nofun, nofun⟩
  obtain ⟨s, hs, hm, hall⟩ := mergeLoop_spec hputs hgets fuel fuel hinit rfl hp hg
    (Nat.lt_of_succ_lt hf) (by
      show totGet - 0 + 1 < fuel
      omega)
  refine ⟨s.put, s.get, ?_, hm.renumbered_iff hall hg hputs hgets⟩
  unfold removeDuplicateTimestamps
  rw [hs]
  rfl

/-- One put before a get, and two after it. -/
theorem duplicates_iff_three :
    ∃ put' get', removeDuplicateTimestamps 6 (fun i => ⟨10 * (i + 1), 0⟩) 3
      (fun _ => ⟨15, 0⟩) 1 = some (put', get') ∧
    (Renumbered 3 1 (times (fun i => ⟨10 * (i + 1), 0⟩) fun _ => ⟨15, 0⟩) (times put' get') ↔
      LatePutsApart (fun i => ⟨10 * (i + 1), 0⟩) 3 (fun _ => ⟨15, 0⟩) 1) :=
  duplicates_iff (by decide) (by decide) (fun i j hij _ => by
    show 10 * (i + 1) ≤ 10 * (j + 1)
    omega) (fun _ _ _ _ => le_rfl) (by decide)

/-- Two puts at the same time after the last get keep that time. -/
theorem duplicates_stay :
    ∃ put' get', removeDuplicateTimestamps 5 (fun _ => ⟨5, 0⟩) 2 (fun _ => ⟨1, 0⟩) 1 =
      some (put', get') ∧ SortedTo 2 (fun _ => ⟨5, 0⟩) ∧ SortedTo 1 (fun _ => ⟨1, 0⟩) ∧
    ¬Renumbered 2 1 (times (fun _ => ⟨5, 0⟩) fun _ => ⟨1, 0⟩) (times put' get') := by
  refine ⟨_, _, rfl, fun _ _ _ _ => le_rfl, fun _ _ _ _ => le_rfl, fun h => ?_⟩
  exact h.distinct (.inl 0) (.inl 1) (show 0 < 2 by decide) (show 1 < 2 by decide) (by decide) rfl

end RelaxationAnalysis
