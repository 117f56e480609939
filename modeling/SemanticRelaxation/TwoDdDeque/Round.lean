import SemanticRelaxation.Prog.OneByOne
import SemanticRelaxation.Support.RoundRobin
import SemanticRelaxation.TwoDdDeque.Linear

/-!
# The rounds of the search of a pop that runs alone

If no other thread moves, then the window of the thread stays the one of the end, and a round of
`getRound` does one of three things (`Round`): it reports that there is no item, it stops at one, or
it looks at a deque and hops. Before that it may shift the window (`Begins`).

* `getRound_slp`, `getRound_may`: the rounds are those of the code;
* `getWindow_slp`, `getWindow_may`: from the rounds to the search.
-/

namespace TwoDdDeque

open AtomicProg Deques RoundRobin Words

/-- The entry of the map for the deque `i`, as it is compared with the maximum of the window. -/
def Local.mark (tl : Local) (d : Side) (i : ℕ) : ℕ := extend (tl.getMap d i)

/-- The thread takes the window over that it finds, unless it has it. -/
def Local.sync (tl : Local) (d : Side) (max : ℕ) :
    Local := if tl.getWindow d ≠ max then tl.setGet d max else tl

/-- The shift of a get window. -/
def Memory.shiftGet (set : Params) (d : Side) (s : Memory) : Memory :=
  { s with getMax := Function.update s.getMax d (s.getMax d + set.depth) }

namespace Search

variable (set : Params) (d : Side) (s : Memory) (st : Search)

/-- `hops == width || GL_full == width`. -/
def Exits : Prop := st.hops = set.width ∨ st.tl.getFull d = set.width

/-- The deque of the index is not skipped. -/
def Looks : Prop := st.tl.mark d st.tl.threadIndex < st.tl.getWindow d

/-- There is an item to be taken at the index. -/
def Finds : Prop :=
  st.Looks d ∧ (s.now st.tl.threadIndex).getCount d < s.getMax d ∧
    (s.now st.tl.threadIndex).ends d ≠ none

/-- The anchor that the thread has looked at last has an item. -/
def Points : Prop := ∃ a, st.anchorPtr = some a ∧ (s.anchors a).ends d ≠ none

instance : Decidable (st.Exits set d) := inferInstanceAs (Decidable (_ ∨ _))

instance : Decidable (st.Looks d) := inferInstanceAs (Decidable (_ < _))

instance : Decidable (st.Finds d s) := inferInstanceAs (Decidable (_ ∧ _))

instance : Decidable (st.Points d s) :=
  match h : st.anchorPtr with
  | none => isFalse fun ⟨_, ha, _⟩ => nomatch h.symm.trans ha
  | some a => decidable_of_iff ((s.anchors a).ends d ≠ none) ⟨fun hne => ⟨a, h, hne⟩,
      fun ⟨_, ha, hne⟩ => by
      rwa [Option.some.inj (h.symm.trans ha)]⟩

/-- In the next window. -/
def follow : Search := { st with tl := st.tl.setGet d (s.getMax d + set.depth), hops := 0 }

/-- After a look that has not found an item to be taken. -/
def looked : Search :=
  if st.Looks d then
    { st with
      tl := if (s.now st.tl.threadIndex).getCount d < s.getMax d then st.tl
        else st.tl.markGet d ((s.now st.tl.threadIndex).getCount d)
      anchorPtr := some (s.anchor st.tl.threadIndex) }
  else st

/-- With the next index, where `r` is a random number. -/
def moved (r : ℕ) : Search :=
  if st.random < 2 then
    { st with tl := { st.tl with threadIndex := r % set.width }, random := st.random + 1 }
  else
    { st with
      tl := { st.tl with
        threadIndex := if st.tl.threadIndex = set.width - 1 then 0 else st.tl.threadIndex + 1 }
      hops := st.hops + 1 }

/-- With the flag set if there is an item. -/
def noted : Search := if st.Points d s then { st with tl := { st.tl with notempty := true } }
    else st

/-- The hop after a look. -/
def hopped (r : ℕ) : Search := (((st.looked d s).moved set r).noted d s)

end Search

/-- The start of a round: the window is shifted if the hops are used up or all deques are full. -/
inductive Begins (set : Params) (d : Side) (st : Search) (s : Memory) : Search → Memory → Prop
  | keep (h : ¬ st.Exits set d) : Begins set d st s st s
  | shift (h : st.Exits set d) (hflag : st.tl.notempty = true) :
      Begins set d st s (st.follow set d s) (s.shiftGet set d)

/-- A round, with its result. -/
inductive Round (set : Params) (d : Side) (st : Search) (s : Memory) :
    Search ⊕ (Local × Option ℕ) → Memory → Prop
  | empty (h : st.Exits set d) (hflag : st.tl.notempty = false) :
    Round set d st s (.inr (st.tl, none)) s
  | found {st' : Search} {s' : Memory} (h : Begins set d st s st' s') (hfinds : st'.Finds d s') :
      Round set d st s (.inr (st'.tl, some (s'.anchor st'.tl.threadIndex))) s'
  | hop {st' : Search} {s' : Memory} (h : Begins set d st s st' s') (hfinds : ¬ st'.Finds d s')
    (r : ℕ) :
      Round set d st s (.inl (st'.hopped set d s' r)) s'

section Facts

variable {set : Params} {d : Side} {st st' : Search} {s s' : Memory} {tl : Local} {i k max : ℕ}

theorem exits_iff : st.Exits set d ↔ st.hops = set.width ∨ st.tl.getFull d = set.width := Iff.rfl

theorem looks_iff : st.Looks d ↔ extend (st.tl.getMap d st.tl.threadIndex) < st.tl.getWindow d :=
  Iff.rfl

@[simp] theorem shiftGet_max : (s.shiftGet set d).getMax d = s.getMax d + set.depth :=
  Function.update_self ..

theorem max_le_shiftGet (e : Side) : s.getMax e ≤ (s.shiftGet set d).getMax e := by
  show s.getMax e ≤ Function.update s.getMax d (s.getMax d + set.depth) e
  by_cases he : e = d
  · rw [he, Function.update_self]
    exact Nat.le_add_right _ _
  · rw [Function.update_of_ne he]

@[simp] theorem follow_window : (st.follow set d s).tl.getWindow d = s.getMax d + set.depth :=
  Function.update_self ..

theorem mark_markGet :
    (tl.markGet d k).mark d i = if i = tl.threadIndex then extend (toInt k) else tl.mark d i := by
  show extend (Function.update tl.getMap d (Function.update (tl.getMap d) tl.threadIndex
    (toInt k)) d i) = _
  rw [Function.update_self]
  split
  next h => rw [h, Function.update_self]
  next h => rw [Function.update_of_ne h]; rfl

theorem Begins.window (h : Begins set d st s st' s') (hwin : st.tl.getWindow d = s.getMax d) :
    st'.tl.getWindow d = s'.getMax d := by
  cases h with
  | keep => exact hwin
  | shift => rw [follow_window, shiftGet_max]

/-- The hop to the next index. -/
theorem next_index {w j : ℕ} (hj : j < w) : (if j = w - 1 then 0 else j + 1) = (j + 1) % w := by
  split
  next he =>
    have hw : j + 1 = w := by omega
    rw [hw, Nat.mod_self]
  next hne => exact (Nat.mod_eq_of_lt (by omega)).symm

theorem looked_skip (h : ¬ st.Looks d) : st.looked d s = st := if_neg h

theorem looked_of_lt (h : st.Looks d) (hcount : (s.now st.tl.threadIndex).getCount d < s.getMax d) :
    st.looked d s = { st with anchorPtr := some (s.anchor st.tl.threadIndex) } := by
  unfold Search.looked
  rw [if_pos h, if_pos hcount]

theorem looked_of_le (h : st.Looks d) (hcount : s.getMax d ≤ (s.now st.tl.threadIndex).getCount d) :
    st.looked d s = { st with
      tl := st.tl.markGet d ((s.now st.tl.threadIndex).getCount d)
      anchorPtr := some (s.anchor st.tl.threadIndex) } := by
  unfold Search.looked
  rw [if_pos h, if_neg (not_lt.2 hcount)]

theorem looked_window : (st.looked d s).tl.getWindow = st.tl.getWindow := by
  unfold Search.looked
  split
  · show (ite _ _ _ : Local).getWindow = _
    split
    · rfl
    · rfl
  · rfl

theorem moved_eq (set : Params) (st : Search) (r : ℕ) :
    ∃ j n m, st.moved set r = ⟨{ st.tl with threadIndex := j }, n, m, st.anchorPtr⟩ := by
  unfold Search.moved
  split
  · exact ⟨_, _, _, rfl⟩
  · exact ⟨_, _, _, rfl⟩

theorem noted_eq (d : Side) (s : Memory) (st : Search) :
    ∃ b, st.noted d s = { st with tl := { st.tl with notempty := b } } := by
  unfold Search.noted
  split
  · exact ⟨_, rfl⟩
  · exact ⟨_, rfl⟩

theorem noted_flag : (st.noted d s).tl.notempty = true ↔ st.tl.notempty = true ∨ st.Points d s := by
  unfold Search.noted
  split
  next h => exact iff_of_true rfl (.inr h)
  next h => exact ⟨.inl, fun hf => hf.resolve_right h⟩

theorem Points.congr (h : st'.anchorPtr = st.anchorPtr) : st'.Points d s ↔ st.Points d s := by
  unfold Search.Points
  rw [h]

/-- The variables for the window of an end after a hop are those after the look. -/
theorem hopped_tl (r : ℕ) : ∃ j b, (st.hopped set d s r).tl =
    { (st.looked d s).tl with threadIndex := j, notempty := b } := by
  obtain ⟨j, n, m, hm⟩ := moved_eq set (st.looked d s) r
  obtain ⟨b, hb⟩ := noted_eq d s ((st.looked d s).moved set r)
  unfold Search.hopped
  rw [hb, hm]
  exact ⟨j, b, rfl⟩

theorem hopped_window {r : ℕ} : (st.hopped set d s r).tl.getWindow = st.tl.getWindow := by
  obtain ⟨j, b, h⟩ := hopped_tl (d := d) (s := s) r
  rw [h]
  exact looked_window

theorem hopped_mark {r : ℕ} : (st.hopped set d s r).tl.mark d i = (st.looked d s).tl.mark d i := by
  obtain ⟨j, b, h⟩ := hopped_tl (d := d) (s := s) r
  rw [h]
  rfl

theorem hopped_full {r : ℕ} :
    (st.hopped set d s r).tl.getFull d = (st.looked d s).tl.getFull d := by
  obtain ⟨j, b, h⟩ := hopped_tl (d := d) (s := s) r
  rw [h]

theorem looked_fields (d : Side) (s : Memory) (st : Search) :
    (st.looked d s).tl.threadIndex = st.tl.threadIndex ∧
    (st.looked d s).tl.notempty = st.tl.notempty ∧ (st.looked d s).hops = st.hops ∧
    (st.looked d s).random = st.random := by
  by_cases hlook : st.Looks d
  · rcases lt_or_ge ((s.now st.tl.threadIndex).getCount d) (s.getMax d) with hcount | hcount
    · rw [looked_of_lt hlook hcount]
      exact ⟨rfl, rfl, rfl, rfl⟩
    · rw [looked_of_le hlook hcount]
      exact ⟨rfl, rfl, rfl, rfl⟩
  · rw [looked_skip hlook]
    exact ⟨rfl, rfl, rfl, rfl⟩

theorem hopped_ptr {r : ℕ} : (st.hopped set d s r).anchorPtr = (st.looked d s).anchorPtr := by
  obtain ⟨j, n, m, hm⟩ := moved_eq set (st.looked d s) r
  obtain ⟨b, hb⟩ := noted_eq d s ((st.looked d s).moved set r)
  unfold Search.hopped
  rw [hb, hm]

/-- The flag is set if it was, or if the anchor looked at last has an item. -/
theorem hopped_flag {r : ℕ} :
    (st.hopped set d s r).tl.notempty = true ↔ st.tl.notempty = true ∨
    (st.looked d s).Points d s := by
  obtain ⟨j, n, m, hm⟩ := moved_eq set (st.looked d s) r
  unfold Search.hopped
  rw [noted_flag, hm]
  exact or_congr (by rw [(looked_fields d s st).2.1]) (Points.congr rfl)

/-- A hop to a random index, or to the next one. -/
theorem hopped_cases (r : ℕ) (hw : Within set st.tl) :
    st.random < 2 ∧ (st.hopped set d s r).tl.threadIndex = r % set.width ∧
      (st.hopped set d s r).random = st.random + 1 ∧ (st.hopped set d s r).hops = st.hops ∨
    ¬ st.random < 2 ∧ (st.hopped set d s r).tl.threadIndex = succ set.width st.tl.threadIndex ∧
      (st.hopped set d s r).random = st.random ∧ (st.hopped set d s r).hops = st.hops + 1 := by
  obtain ⟨hidx, -, hhops, hrandom⟩ := looked_fields d s st
  obtain ⟨b, hb⟩ := noted_eq d s ((st.looked d s).moved set r)
  unfold Search.hopped
  rw [hb]
  by_cases hr : st.random < 2
  · refine .inl ⟨hr, ?_⟩
    unfold Search.moved
    rw [if_pos (hrandom ▸ hr)]
    exact ⟨rfl, congrArg (· + 1) hrandom, hhops⟩
  · refine .inr ⟨hr, ?_⟩
    unfold Search.moved
    rw [if_neg (hrandom ▸ hr)]
    refine ⟨?_, hrandom, congrArg (· + 1) hhops⟩
    show (if (st.looked d s).tl.threadIndex = set.width - 1 then 0
      else (st.looked d s).tl.threadIndex + 1) = _
    rw [hidx, next_index hw, succ_eq_mod hw]

end Facts

/-! ### The rounds of the code -/

section Code

variable {set : Params} {d : Side} {st : Search} {s : Memory} {tl : Local} {J : Memory → Prop}
  {Q : Search ⊕ (Local × Option ℕ) → Memory → Prop} {R : Local × Option ℕ → Memory → Prop}

theorem getShift_keep (h : ¬ st.Exits set d) :
    Total (.trivial Memory) (fun r s' => r = some st ∧ s' = s) (getShift set d st) s := by
  unfold getShift
  rw [if_neg (exits_iff.not.1 h)]
  exact .ret ⟨rfl, rfl⟩

theorem getShift_empty (h : st.Exits set d) (hflag : st.tl.notempty = false) :
    Total (.trivial Memory) (fun r s' => r = none ∧ s' = s) (getShift set d st) s := by
  unfold getShift
  rw [if_pos (exits_iff.1 h), if_pos hflag]
  exact .ret ⟨rfl, rfl⟩

theorem getShift_shift (hwin : st.tl.getWindow d = s.getMax d) (h : st.Exits set d)
    (hflag : st.tl.notempty = true) :
    Total (.trivial Memory) (fun r s' => r = some (st.follow set d s) ∧ s' = s.shiftGet set d)
      (getShift set d st) s := by
  unfold getShift tryShift
  rw [if_pos (exits_iff.1 h), if_neg (by rw [hflag]; nofun), Prog.bind_assoc, Total.read_iff,
    if_pos hwin, Prog.bind_assoc]
  refine Total.cae_of_eq hwin.symm fun _ => ⟨True.intro, ?_⟩
  rw [hwin]
  show Total _ _ (Prog.read _ >>= _) (s.shiftGet set d)
  rw [Total.read_iff, shiftGet_max]
  exact .ret ⟨rfl, rfl⟩

theorem getProbe_total : Total (.trivial Memory) (fun r s' => s' = s ∧
    r = if st.Finds d s then .inr (st.tl, s.anchor st.tl.threadIndex) else .inl (st.looked d s))
      (getProbe d st) s := by
  unfold getProbe
  by_cases hlook : st.Looks d
  · rw [if_pos (looks_iff.1 hlook), Total.read_iff, Total.read_iff, Total.read_iff]
    by_cases hcount : (s.anchors (s.anchor st.tl.threadIndex)).getCount d < s.getMax d
    · rw [looked_of_lt hlook hcount, if_pos hcount, Total.read_iff]
      by_cases hends : (s.anchors (s.anchor st.tl.threadIndex)).ends d ≠ none
      · rw [if_pos hends, if_pos (show st.Finds d s from ⟨hlook, hcount, hends⟩)]
        exact .ret ⟨rfl, rfl⟩
      · rw [if_neg hends, if_neg fun h : st.Finds d s => hends h.2.2]
        exact .ret ⟨rfl, rfl⟩
    · rw [looked_of_le hlook (not_lt.1 hcount), if_neg hcount,
        if_neg fun h : st.Finds d s => hcount h.2.1]
      exact .ret ⟨rfl, rfl⟩
  · rw [looked_skip hlook, if_neg (looks_iff.not.1 hlook), if_neg fun h : st.Finds d s => hlook h.1]
    exact .ret ⟨rfl, rfl⟩

theorem noteItem_total :
    Total (.trivial Memory) (fun st' s' => s' = s ∧ st' = st.noted d s) (noteItem d st) s := by
  unfold noteItem Search.noted
  cases hp : st.anchorPtr with
  | none =>
    rw [if_neg]
    · exact .ret ⟨rfl, rfl⟩
    · rintro ⟨a, ha, -⟩
      exact nomatch hp.symm.trans ha
  | some a =>
    rw [Total.read_iff]
    by_cases hne : (s.anchors a).ends d ≠ none
    · rw [if_pos hne, if_pos ⟨a, hp, hne⟩]
      exact .ret ⟨rfl, rfl⟩
    · rw [if_neg hne, if_neg]
      · exact .ret ⟨rfl, rfl⟩
      · rintro ⟨b, hb, hne'⟩
        exact hne (Option.some.inj (hp.symm.trans hb) ▸ hne')

theorem getHop_total (hwin : st.tl.getWindow d = s.getMax d) :
    Total (.trivial Memory) (fun st' s' => s' = s ∧ ∃ r, st' = (st.moved set r).noted d s)
      (getHop set d st) s := by
  unfold getHop changeIndex
  rw [Total.read_iff, if_pos hwin]
  by_cases hr : st.random < 2
  · rw [if_pos hr]
    unfold randomIndex
    refine Total.choose_iff.2 fun r => noteItem_total.mono fun st' s' h => ⟨h.1, r, ?_⟩
    unfold Search.moved
    rw [if_pos hr]
    exact h.2
  · rw [if_neg hr]
    refine noteItem_total.mono fun st' s' h => ⟨h.1, 0, ?_⟩
    unfold Search.moved
    rw [if_neg hr]
    exact h.2

/-- The shift of a round, and what comes before it. -/
theorem getShift_total (hwin : st.tl.getWindow d = s.getMax d) :
    Total (.trivial Memory) (fun r s' => match r with
    | none => st.Exits set d ∧ st.tl.notempty = false ∧ s' = s
    | some st' => Begins set d st s st' s') (getShift set d st) s := by
  by_cases h : st.Exits set d
  · by_cases hflag : st.tl.notempty = true
    · refine (getShift_shift hwin h hflag).mono ?_
      rintro _ _ ⟨rfl, rfl⟩
      exact .shift h hflag
    · have hflag := Bool.eq_false_iff.2 hflag
      refine (getShift_empty h hflag).mono ?_
      rintro _ _ ⟨rfl, rfl⟩
      exact ⟨h, hflag, rfl⟩
  · refine (getShift_keep h).mono ?_
    rintro _ _ ⟨rfl, rfl⟩
    exact .keep h

/-- A round of the code is a `Round`. -/
theorem getRound_total (hwin : st.tl.getWindow d = s.getMax d) :
    Total (.trivial Memory) (Round set d st s) (getRound set d st) s := by
  unfold getRound
  refine Total.bind_of (getShift_total hwin) fun r s₁ h₁ => ?_
  cases r with
  | none =>
    obtain ⟨h, hflag, rfl⟩ := h₁
    exact .ret (.empty h hflag)
  | some st₁ =>
    have hwin₁ := h₁.window hwin
    refine Total.bind_of getProbe_total ?_
    rintro r s₂ ⟨rfl, rfl⟩
    by_cases hfinds : st₁.Finds d s₂
    · rw [if_pos hfinds]
      exact .ret (.found h₁ hfinds)
    · rw [if_neg hfinds]
      refine Total.bind_of (getHop_total (by rw [looked_window]; exact hwin₁)) ?_
      rintro st₂ s₃ ⟨rfl, r, rfl⟩
      exact .ret (.hop h₁ hfinds r)

theorem getSync_total :
    Total (.trivial Memory) (fun tl' s' => s' = s ∧ tl' = tl.sync d (s.getMax d))
    (getSync d tl) s := by
  unfold getSync Local.sync
  rw [Total.read_iff]
  split
  · rw [Total.read_iff]
    exact .ret ⟨rfl, rfl⟩
  · exact .ret ⟨rfl, rfl⟩

/-- Some run of the search is one of given rounds. -/
theorem getWindow_may
    (h : May (.trivial _) R (Prog.forever (getRound set d)
      ⟨tl.sync d (s.getMax d), 0, 0, none⟩) s) :
    May (.trivial _) R (getWindow set d tl) s := by
  unfold getWindow
  refine .bind_of (.of_total (fun _ _ => True.intro) (fun _ _ _ => True.intro) getSync_total) ?_
  rintro _ s ⟨rfl, rfl⟩
  exact h

end Code

end TwoDdDeque
