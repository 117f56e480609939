import SemanticRelaxation.TwoDdDeque.Serial

/-!
# Searches that do not miss the items

A search looks at the deques that its map does not make it skip. It reports that there is no item if
the flag is not set when the hops are used up, or when the full counter has come to the width.
`Sees` says of the variables with which a search starts, and of the counters, when it comes upon an
item before that.

* `Hopeful`: a search that has the flag or comes to an item, and comes to one again after the shift
  of the window;
* `Trapped`: a search that shifts the window again and again;
* `getWindow_sees`: neither reports that there is no item.
-/

namespace TwoDdDeque

open AtomicProg Deques RoundRobin Words

/-- A search that looks at the deque `i` finds an item there, to take or to note. -/
structure Visible (set : Params) (d : Side) (s : Memory) (tl : Local) (i : ℕ) : Prop where
  lt : i < set.width
  item : content s.hist i ≠ some []
  mark : tl.mark d i < s.getMax d

/-- A search that looks at the deque `i` counts it as full, and puts its counter into the map. -/
def Closed (d : Side) (s : Memory) (tl : Local) (i : ℕ) : Prop :=
  tl.mark d i < s.getMax d ∧ s.getMax d ≤ (s.now i).getCount d

instance (d : Side) (s : Memory) (tl : Local) (i : ℕ) : Decidable (Closed d s tl i) :=
  inferInstanceAs (Decidable (_ ∧ _))

/-- A search that has shifted the window finds an item in the deque `i`. -/
structure Remains (set : Params) (d : Side) (s : Memory) (tl : Local) (i : ℕ) : Prop where
  lt : i < set.width
  item : content s.hist i ≠ some []
  mark : tl.mark d i < s.getMax d + set.depth
  kept : Closed d s tl i → stored (s.getMax d) < s.getMax d + set.depth

/-- The deques that a search may look at from the index `t` on, in this order, after `r` random
hops. -/
def Walk (width : ℕ) : ℕ → ℕ → List ℕ → Prop
  | _, _, [] => True
  | r, t, j :: js => j = t ∧ if r < 2 then ∃ t' < width, Walk width (r + 1) t' js else Walk width r
    (succ width t) js

/-- The full counter does not come to the width before the search has found an item. -/
def Unhurried (set : Params) (d : Side) (s : Memory) (tl : Local) (r : ℕ) : Prop :=
  ∀ js, Walk set.width r tl.threadIndex js → (∀ j ∈ js, ¬ Visible set d s tl j) →
    tl.getFull d + js.countP (fun j => Closed d s tl j) < set.width

/-- There is an item in every deque that the search looks at, but for a closed one that it begins
with. -/
def Crowded (set : Params) (d : Side) (s : Memory) (tl : Local) : Prop :=
  ∀ i < set.width, content s.hist i = some [] → tl.mark d i < s.getMax d → i = tl.threadIndex ∧
    Closed d s tl i

/-- A search that starts with these variables, in the window of the end, does not miss the items. -/
def Sees (set : Params) (d : Side) (s : Memory) (tl : Local) : Prop :=
  AllEmpty set s.hist ∨
    (tl.notempty = true ∨ ∃ i, Visible set d s tl i) ∧
    ((∃ i, Remains set d s tl i) ∨ (∃ i, Visible set d s tl i) ∧ Crowded set d s tl) ∧
    (tl.notempty = true ∨ s.getMax d ≤ stored (s.getMax d) ∨ Unhurried set d s tl 0)

section Facts

variable {set : Params} {d : Side} {s s' : Memory} {tl tl' : Local} {st st' : Search} {i r : ℕ}

theorem Walk.lt {w t : ℕ} {js : List ℕ} (h : Walk w r t js) (ht : t < w) : ∀ j ∈ js, j < w := by
  induction js generalizing r t with
  | nil => exact nofun
  | cons j js ih =>
    obtain ⟨rfl, hrest⟩ := h
    rintro k hk
    rcases List.mem_cons.1 hk with rfl | hk
    · exact ht
    · split at hrest
      · obtain ⟨t', ht', hrest⟩ := hrest
        exact ih hrest ht' k hk
      · exact ih hrest (succ_lt (Nat.zero_lt_of_lt ht)) k hk

theorem Closed.congr (hmark : tl'.mark d i = tl.mark d i) : Closed d s tl' i ↔ Closed d s tl i := by
  unfold Closed
  rw [hmark]

theorem Visible.congr (hmark : tl'.mark d i = tl.mark d i) :
    Visible set d s tl' i ↔ Visible set d s tl i :=
  ⟨fun h => ⟨h.lt, h.item, hmark ▸ h.mark⟩, fun h => ⟨h.lt, h.item, hmark.symm ▸ h.mark⟩⟩

/-- The look of a round: the deque is skipped, it is empty below the maximum, or it is full and gets
into the map. -/
inductive Look (set : Params) (d : Side) (s : Memory) (st : Search) : Search → Prop
  | skip (h : s.getMax d ≤ st.tl.mark d st.tl.threadIndex) : Look set d s st st
  | vacant (h : st.tl.mark d st.tl.threadIndex < s.getMax d)
      (hcount : (s.now st.tl.threadIndex).getCount d < s.getMax d)
      (hitem : content s.hist st.tl.threadIndex = some []) :
      Look set d s st { st with anchorPtr := some (s.anchor st.tl.threadIndex) }
  | full (h : st.tl.mark d st.tl.threadIndex < s.getMax d)
      (hcount : (s.now st.tl.threadIndex).getCount d = s.getMax d) :
      Look set d s st { st with
        tl := st.tl.markGet d (s.getMax d)
        anchorPtr := some (s.anchor st.tl.threadIndex) }

theorem looked_cases (hs : Sound set s) (hwin : st.tl.getWindow d = s.getMax d)
    (hw : Within set st.tl) (hfinds : ¬ st.Finds d s) : Look set d s st (st.looked d s) := by
  by_cases hlook : st.Looks d
  · have hmark : st.tl.mark d st.tl.threadIndex < s.getMax d := hwin ▸ hlook
    rcases lt_or_ge ((s.now st.tl.threadIndex).getCount d) (s.getMax d) with hcount | hcount
    · rw [looked_of_lt hlook hcount]
      have hends : (s.now st.tl.threadIndex).ends d = none := by
        by_contra hne
        exact hfinds ⟨hlook, hcount, hne⟩
      exact .vacant hmark hcount ((hs.ends hw).1 hends)
    · have hcount := le_antisymm (hs.count hw) hcount
      rw [looked_of_le hlook hcount.ge, hcount]
      exact .full hmark hcount
  · rw [looked_skip hlook]
    exact .skip (hwin ▸ not_lt.1 hlook)

/-- The map after a deque has been put into it. -/
theorem mark_full : (st.tl.markGet d (s.getMax d)).mark d i =
    if i = st.tl.threadIndex then stored (s.getMax d) else st.tl.mark d i := mark_markGet

/-- The last anchor has an item if the deque at the index has. -/
theorem points_of_item (st' : Search) (hs : Sound set s) (hw : Within set st.tl)
    (hitem : content s.hist st.tl.threadIndex ≠ some [])
    (hptr : st'.anchorPtr = some (s.anchor st.tl.threadIndex)) :
    st'.Points d s :=
  ⟨_, hptr, fun hnone => hitem ((hs.ends hw).1 hnone)⟩

end Facts

/-! ### The rounds -/

/-- Before a round of a search. -/
structure Scan (set : Params) (d : Side) (st : Search) (s : Memory) : Prop where
  sound : Sound set s
  tidy : Tidy set st.tl s
  window : st.tl.getWindow d = s.getMax d
  first : st.random < 2 → st.hops = 0

section Scan

variable {set : Params} {d : Side} {s s' : Memory} {st st' : Search} {i r : ℕ}

theorem Scan.hop (h : Scan set d st s) (hfull : st.tl.getFull d < set.width) :
    Scan set d (st.hopped set d s r) s := by
  refine ⟨h.sound, h.tidy.hopped h.sound h.window hfull,
    by rw [hopped_window]; exact h.window, fun hlt => ?_⟩
  rcases hopped_cases (d := d) (s := s) r h.tidy.1 with ⟨hr, -, -, hhops⟩ | ⟨hr, -, hrandom, -⟩
  · exact hhops.trans (h.first hr)
  · exact absurd (hrandom ▸ hlt) hr

theorem Scan.look (h : Scan set d st s) (hfinds : ¬ st.Finds d s) :
    Look set d s st (st.looked d s) :=
  looked_cases h.sound h.window h.tidy.1 hfinds

/-- A search that stops at an item comes upon it again. -/
theorem Scan.sees (h : Scan set d st s) (hfull : st.tl.getFull d < set.width)
    (hfinds : st.Finds d s) :
    Sees set d s st.tl := by
  obtain ⟨hlook, hcount, hends⟩ := hfinds
  have hitem : content s.hist st.tl.threadIndex ≠ some [] := fun he =>
    hends ((h.sound.ends h.tidy.1).2 he)
  have hmark : st.tl.mark d st.tl.threadIndex < s.getMax d := h.window ▸ hlook
  have hvisible : Visible set d s st.tl st.tl.threadIndex := ⟨h.tidy.1, hitem, hmark⟩
  refine .inr ⟨.inr ⟨_, hvisible⟩, .inl ⟨_, h.tidy.1, hitem, hmark.trans_le (Nat.le_add_right _ _),
    fun hc => ?_⟩,
    .inr (.inr fun js hwalk hnone => ?_)⟩
  · exact absurd hc.2 (not_le.2 hcount)
  · cases js with
    | nil => exact hfull
    | cons j js =>
      obtain ⟨rfl, -⟩ := hwalk
      exact absurd hvisible (hnone _ (List.mem_cons_self ..))

end Scan

/-! ### Hopeful searches -/

/-- The flag is set, or the search comes to an item before it can end; and if the window is shifted,
then it comes to an item in the next window. -/
structure Hopeful (set : Params) (d : Side) (st : Search) (s : Memory) : Prop where
  sight : st.tl.notempty = true ∨ (∃ i, Visible set d s st.tl i) ∧
    Scanned set.width (fun i => ¬ Visible set d s st.tl i) st.tl.threadIndex st.hops ∧
    (s.getMax d ≤ stored (s.getMax d) ∨ Unhurried set d s st.tl st.random)
  later : ∃ i, Remains set d s st.tl i

section Hopeful

variable {set : Params} {d : Side} {s s' : Memory} {st st' : Search} {i r : ℕ}

/-- The item that remains after a look. -/
theorem Remains.look (h : Remains set d s st.tl i) (hl : Look set d s st st') :
    Remains set d s st'.tl i := by
  cases hl with
  | skip => exact h
  | vacant => exact h
  | full hmark hcount =>
    by_cases hi : i = st.tl.threadIndex
    · subst hi
      have hkept := h.kept ⟨hmark, hcount.ge⟩
      refine ⟨h.lt, h.item, ?_, fun _ => hkept⟩
      rw [mark_full, if_pos rfl]
      exact hkept
    · have hsame : (st.tl.markGet d (s.getMax d)).mark d i = st.tl.mark d i :=
        by rw [mark_full, if_neg hi]
      exact ⟨h.lt, h.item, hsame.trans_lt h.mark, fun hc => h.kept ((Closed.congr hsame).1 hc)⟩

theorem Remains.hop (h : Remains set d s (st.looked d s).tl i) :
    Remains set d s (st.hopped set d s r).tl i :=
  ⟨h.lt, h.item, by rw [hopped_mark]; exact h.mark, fun hc =>
    h.kept ((Closed.congr hopped_mark).1 hc)⟩

/-- A look at a deque without an item that could be seen changes nothing about the others. -/
theorem Visible.look (hvis : ¬ Visible set d s st.tl st.tl.threadIndex) (hl : Look set d s st st') :
    Visible set d s st'.tl i ↔ Visible set d s st.tl i := by
  cases hl with
  | skip => rfl
  | vacant => rfl
  | full hmark hcount =>
    by_cases hi : i = st.tl.threadIndex
    · subst hi
      exact iff_of_false (fun h => hvis ⟨h.lt, h.item, hmark⟩) hvis
    · exact Visible.congr (by rw [mark_full, if_neg hi])

/-- What a look does to the full counter. -/
theorem Look.full_eq (hl : Look set d s st st') :
    st'.tl.getFull d = st.tl.getFull d + if Closed d s st.tl st.tl.threadIndex then 1 else 0 := by
  cases hl with
  | skip h => rw [if_neg fun hc => absurd hc.1 (not_lt.2 h), Nat.add_zero]
  | vacant h hcount => rw [if_neg fun hc => absurd hc.2 (not_le.2 hcount), Nat.add_zero]
  | full h hcount =>
    rw [if_pos ⟨h, hcount.ge⟩]
    exact Function.update_self ..

/-- In a window that the map cannot hold, a closed deque stays closed. -/
theorem Closed.look (hkept : stored (s.getMax d) < s.getMax d) (hl : Look set d s st st') :
    Closed d s st'.tl i ↔ Closed d s st.tl i := by
  cases hl with
  | skip => rfl
  | vacant => rfl
  | full hmark hcount =>
    by_cases hi : i = st.tl.threadIndex
    · subst hi
      refine iff_of_true ⟨?_, hcount.ge⟩ ⟨hmark, hcount.ge⟩
      rw [mark_full, if_pos rfl]
      exact hkept
    · exact Closed.congr (by rw [mark_full, if_neg hi])

/-- A walk goes on where the search hops to. -/
theorem Walk.hop (hw : Within set st.tl) {js : List ℕ}
    (h : Walk set.width (st.hopped set d s r).random (st.hopped set d s r).tl.threadIndex js) :
    Walk set.width st.random st.tl.threadIndex (st.tl.threadIndex :: js) := by
  refine ⟨rfl, ?_⟩
  rcases hopped_cases (d := d) (s := s) r hw with ⟨hr, hidx, hrandom, -⟩ | ⟨hr, hidx, hrandom, -⟩
  · rw [if_pos hr]
    rw [hidx, hrandom] at h
    exact ⟨_, Nat.mod_lt _ set.width_pos, h⟩
  · rw [if_neg hr]
    rwa [hidx, hrandom] at h

theorem Unhurried.hop (h : Unhurried set d s st.tl st.random) (hw : Within set st.tl)
    (hkept : stored (s.getMax d) < s.getMax d) (hvis : ¬ Visible set d s st.tl st.tl.threadIndex)
    (hl : Look set d s st (st.looked d s)) :
    Unhurried set d s (st.hopped set d s r).tl (st.hopped set d s r).random := by
  intro js hwalk hnone
  have hall := h _ (hwalk.hop hw) fun j hj => by
    rcases List.mem_cons.1 hj with rfl | hj
    · exact hvis
    · exact fun hv => hnone j hj ((Visible.congr hopped_mark).2 ((Visible.look hvis hl).2 hv))
  have hcount : js.countP (fun j => Closed d s (st.hopped set d s r).tl j) = js.countP fun j =>
    Closed d s st.tl j :=
    List.countP_congr fun j _ => by
      rw [decide_eq_true_iff, decide_eq_true_iff]
      exact (Closed.congr hopped_mark).trans (Closed.look hkept hl)
  rw [List.countP_cons] at hall
  rw [hopped_full, hl.full_eq, hcount]
  split
  next hc =>
    rw [if_pos (decide_eq_true hc)] at hall
    omega
  next hc => omega

theorem Hopeful.hop (h : Hopeful set d st s) (hs : Scan set d st s) (hfinds : ¬ st.Finds d s) :
    Hopeful set d (st.hopped set d s r) s := by
  have hl := hs.look hfinds
  obtain ⟨k, hk⟩ := h.later
  refine ⟨?_, k, (hk.look hl).hop⟩
  rw [hopped_flag]
  by_cases hvis : Visible set d s st.tl st.tl.threadIndex
  · -- its item is noted
    refine .inl (.inr ?_)
    generalize st.looked d s = st' at hl ⊢
    cases hl with
    | skip hmark => exact absurd hvis.mark (not_lt.2 hmark)
    | vacant _ _ hitem => exact absurd hitem hvis.item
    | full => exact points_of_item _ hs.sound hs.tidy.1 hvis.item rfl
  · rcases h.sight with hflag | ⟨⟨i, hi⟩, hscan, hfull⟩
    · exact .inl (.inl hflag)
    · have hsame : ∀ j, Visible set d s (st.hopped set d s r).tl j ↔ Visible set d s st.tl j :=
        fun j =>
        (Visible.congr hopped_mark).trans (Visible.look hvis hl)
      refine .inr ⟨⟨i, (hsame i).2 hi⟩, ?_, ?_⟩
      · refine Scanned.mono (P := fun j => ¬ Visible set d s st.tl j) ?_ fun j _ hj hv =>
          hj ((hsame j).1 hv)
        rcases hopped_cases (d := d) (s := s) r hs.tidy.1 with
          ⟨hr, hidx, -, hhops⟩ | ⟨-, hidx, -, hhops⟩
        · rw [hidx, hhops, hs.first hr]
          exact .start (Nat.mod_lt _ set.width_pos)
        · rw [hidx, hhops]
          exact hscan.hop hvis
      · rcases le_or_gt (s.getMax d) (stored (s.getMax d)) with hkept | hkept
        · exact .inl hkept
        · exact .inr ((hfull.resolve_left (not_le.2 hkept)).hop hs.tidy.1 hkept hvis hl)

end Hopeful

/-! ### Trapped searches -/

/-- All items are in closed deques, which are skipped from then on. The first look may have been at
a closed deque without an item. -/
structure Closing (set : Params) (d : Side) (st : Search) (s : Memory) : Prop where
  below : s.getMax d < 2 ^ 63
  kept : 2 ^ 63 ≤ stored (s.getMax d)
  held : ∀ i < set.width, 2 ^ 63 ≤ st.tl.mark d i ∨
    Closed d s st.tl i ∧ (content s.hist i ≠ some [] ∨ i = st.tl.threadIndex ∧ st.random = 0)
  scanned : Scanned set.width (fun i => 2 ^ 63 ≤ st.tl.mark d i) st.tl.threadIndex st.hops
  sight : (∃ i, Visible set d s st.tl i) ∨ st.random ≠ 0 ∧ st.tl.notempty = true ∧ st.Points d s

/-- All deques are skipped, and the anchor that the search has looked at last has an item: every hop
sets the flag. -/
structure Stuck (set : Params) (d : Side) (st : Search) (s : Memory) : Prop where
  held : ∀ i < set.width, 2 ^ 63 ≤ st.tl.mark d i
  points : st.Points d s
  flag : st.tl.notempty = true ∨ st.hops = 0 ∧ st.tl.getFull d = 0

/-- A search that does not end as long as the maximum of the window is below `2 ^ 63`. -/
def Trapped (set : Params) (d : Side) (st : Search) (s : Memory) : Prop :=
  2 ^ 63 ≤ s.getMax d ∨ Closing set d st s ∨ Stuck set d st s

section Trapped

variable {set : Params} {d : Side} {s s' : Memory} {st st' : Search} {i r : ℕ}

/-- When a search that is closing comes to the end of its hops, all deques are skipped. -/
theorem Closing.all_held (h : Closing set d st s) (hs : Scan set d st s) (hexit : st.Exits set d) :
    ∀ i < set.width, 2 ^ 63 ≤ st.tl.mark d i := by
  rcases hexit with hhops | hwidth
  · exact h.scanned.all_of_le hhops.ge
  · intro i hi
    have hkept : st.tl.getWindow d ≤ stored (st.tl.getWindow d) := by
      rw [hs.window]
      exact h.below.le.trans h.kept
    have hle := (hs.tidy.2 d).all_skipped hkept hwidth hi
    refine (h.held i hi).resolve_right fun hc => ?_
    exact absurd hc.1.1 (not_lt.2 (hs.window ▸ hle))

theorem Closing.points (h : Closing set d st s) (hs : Scan set d st s) (hexit : st.Exits set d) :
    st.tl.notempty = true ∧ st.Points d s := by
  refine (h.sight.resolve_left ?_).2
  rintro ⟨i, hi⟩
  exact absurd (h.all_held hs hexit i hi.lt) (not_le.2 (hi.mark.trans h.below))

theorem Trapped.empty (h : Trapped set d st s) (hs : Scan set d st s) (hexit : st.Exits set d)
    (hflag : st.tl.notempty = false) : 2 ^ 63 ≤ s.getMax d := by
  rcases h with h | h | h
  · exact h
  · exact absurd (h.points hs hexit).1 (Bool.eq_false_iff.1 hflag)
  · have hw := set.width_pos
    obtain ⟨hhops, hfull⟩ := h.flag.resolve_left (Bool.eq_false_iff.1 hflag)
    rcases hexit with hexit | hexit
    · omega
    · omega

theorem Trapped.found (h : Trapped set d st s) (hs : Scan set d st s) (hfinds : st.Finds d s) :
    2 ^ 63 ≤ s.getMax d := by
  obtain ⟨hlook, hcount, -⟩ := hfinds
  have hmark : st.tl.mark d st.tl.threadIndex < s.getMax d := hs.window ▸ hlook
  rcases h with h | h | h
  · exact h
  · rcases h.held _ hs.tidy.1 with hle | ⟨hc, -⟩
    · exact hle.trans hmark.le
    · exact absurd hc.2 (not_le.2 hcount)
  · exact (h.held _ hs.tidy.1).trans hmark.le

theorem Closing.hop (h : Closing set d st s) (hs : Scan set d st s) (hfinds : ¬ st.Finds d s) :
    Closing set d (st.hopped set d s r) s := by
  have hl := hs.look hfinds
  -- after the first look there are items in all closed deques that are left
  have hafter : (∀ i < set.width, 2 ^ 63 ≤ (st.looked d s).tl.mark d i ∨
        Closed d s (st.looked d s).tl i ∧ content s.hist i ≠ some []) ∧
      2 ^ 63 ≤ (st.looked d s).tl.mark d st.tl.threadIndex ∧
      (∀ i, 2 ^ 63 ≤ st.tl.mark d i → 2 ^ 63 ≤ (st.looked d s).tl.mark d i) ∧
      ((∃ i, Visible set d s (st.looked d s).tl i) ∨
        (st.tl.notempty = true ∨ (st.looked d s).Points d s) ∧ (st.looked d s).Points d s) := by
    generalize st.looked d s = st' at hl ⊢
    cases hl with
    | skip hmark =>
      have hopen : ∀ i, i = st.tl.threadIndex → ¬ Closed d s st.tl i := by
        rintro i rfl hc
        exact absurd hc.1 (not_lt.2 hmark)
      refine ⟨fun i hi => (h.held i hi).imp_right fun hc => ⟨hc.1,
        hc.2.resolve_right fun he => hopen i he.1 hc.1⟩,
        (h.held _ hs.tidy.1).resolve_right fun hc => hopen _ rfl hc.1, fun _ h => h, ?_⟩
      exact h.sight.imp_right fun hp => ⟨.inl hp.2.1, hp.2.2⟩
    | vacant hmark hcount =>
      rcases h.held _ hs.tidy.1 with hle | ⟨hc, -⟩
      · exact absurd (hle.trans hmark.le) (not_le.2 h.below)
      · exact absurd hc.2 (not_le.2 hcount)
    | full hmark hcount =>
      have hsame : ∀ i, i ≠ st.tl.threadIndex →
        (st.tl.markGet d (s.getMax d)).mark d i = st.tl.mark d i := by
        intro i hi
        rw [mark_full, if_neg hi]
      have hself : 2 ^ 63 ≤ (st.tl.markGet d (s.getMax d)).mark d st.tl.threadIndex := by
        rw [mark_full, if_pos rfl]
        exact h.kept
      refine ⟨fun i hi => ?_, hself, fun i hi => ?_, ?_⟩
      · by_cases he : i = st.tl.threadIndex
        · exact .inl (he ▸ hself)
        · show 2 ^ 63 ≤ (st.tl.markGet d (s.getMax d)).mark d i ∨ _
          rw [hsame i he]
          exact (h.held i hi).imp_right fun hc =>
            ⟨(Closed.congr (hsame i he)).2 hc.1, hc.2.resolve_right fun h => he h.1⟩
      · by_cases he : i = st.tl.threadIndex
        · exact he ▸ hself
        · exact (hsame i he).symm ▸ hi
      · by_cases hitem : content s.hist st.tl.threadIndex = some []
        · -- the first look, at a deque without an item
          have hzero : st.random = 0 := by
            rcases h.held _ hs.tidy.1 with hle | ⟨-, hc⟩
            · exact absurd (hle.trans hmark.le) (not_le.2 h.below)
            · exact (hc.resolve_left fun hne => hne hitem).2
          obtain ⟨i, hi⟩ := h.sight.resolve_right fun hp => hp.1 hzero
          have he : i ≠ st.tl.threadIndex := by
            rintro rfl
            exact hi.item hitem
          exact .inl ⟨i, (Visible.congr (hsame i he)).2 hi⟩
        · have hp := points_of_item (d := d) { st with
            tl := st.tl.markGet d (s.getMax d)
            anchorPtr := some (s.anchor st.tl.threadIndex) } hs.sound hs.tidy.1 hitem rfl
          exact .inr ⟨.inr hp, hp⟩
  obtain ⟨hheld, hself, hmono, hsight⟩ := hafter
  refine ⟨h.below, h.kept, fun i hi => ?_, ?_, ?_⟩
  · rw [hopped_mark]
    exact (hheld i hi).imp_right fun hc => ⟨(Closed.congr hopped_mark).2 hc.1, .inl hc.2⟩
  · refine Scanned.mono (P := fun i => 2 ^ 63 ≤ (st.looked d s).tl.mark d i) ?_ fun i _ hi => by
      rw [hopped_mark]
      exact hi
    rcases hopped_cases (d := d) (s := s) r hs.tidy.1 with
      ⟨hr, hidx, -, hhops⟩ | ⟨-, hidx, -, hhops⟩
    · rw [hidx, hhops, hs.first hr]
      exact .start (Nat.mod_lt _ set.width_pos)
    · rw [hidx, hhops]
      exact (h.scanned.mono fun i _ => hmono i).hop hself
  · rcases hsight with ⟨i, hi⟩ | ⟨hflag, hp⟩
    · exact .inl ⟨i, (Visible.congr hopped_mark).2 hi⟩
    · refine .inr ⟨?_, hopped_flag.2 hflag, (Points.congr hopped_ptr).2 hp⟩
      rcases hopped_cases (d := d) (s := s) r hs.tidy.1 with
        ⟨-, -, hrandom, -⟩ | ⟨hr, -, hrandom, -⟩
      · omega
      · omega

theorem Stuck.hop (h : Stuck set d st s) (hs : Scan set d st s) (hfinds : ¬ st.Finds d s) :
    2 ^ 63 ≤ s.getMax d ∨ Stuck set d (st.hopped set d s r) s := by
  have hl := hs.look hfinds
  have hle := h.held _ hs.tidy.1
  rcases lt_or_ge (st.tl.mark d st.tl.threadIndex) (s.getMax d) with hmark | hmark
  · exact .inl (hle.trans hmark.le)
  · have hsame : st.looked d s = st := looked_skip fun hlook : st.tl.mark _ _ < _ => by
      rw [hs.window] at hlook
      exact absurd hlook (not_lt.2 hmark)
    refine .inr ⟨fun i hi => ?_, (Points.congr hopped_ptr).2 (hsame.symm ▸ h.points), .inl ?_⟩
    · rw [hopped_mark, hsame]
      exact h.held i hi
    · exact hopped_flag.2 (.inr (hsame.symm ▸ h.points))

theorem Trapped.hop (h : Trapped set d st s) (hs : Scan set d st s) (hfinds : ¬ st.Finds d s) :
    Trapped set d (st.hopped set d s r) s := by
  rcases h with h | h | h
  · exact .inl h
  · exact .inr (.inl (h.hop hs hfinds))
  · exact (h.hop hs hfinds).imp_right .inr

end Trapped

/-! ### The search -/

section Search

variable {set : Params} {J : Memory → Prop} {d : Side} {s s' : Memory} {tl : Local}
  {st st' : Search} {ok : Prop}

/-- What a search that sees the items begins with. -/
theorem Sees.start (h : Sees set d s tl) (hs : Scan set d ⟨tl, 0, 0, none⟩ s) :
    AllEmpty set s.hist ∨ Hopeful set d ⟨tl, 0, 0, none⟩ s ∨ Trapped set d ⟨tl, 0, 0, none⟩ s := by
  rcases h with hall | ⟨hsight, hlater, hfull⟩
  · exact .inl hall
  by_cases hremains : ∃ i, Remains set d s tl i
  · refine .inr (.inl ⟨?_, hremains⟩)
    rcases hsight with hflag | hvisible
    · exact .inl hflag
    · exact hfull.imp_right fun hfull => ⟨hvisible, .start hs.tidy.1, hfull⟩
  · obtain ⟨⟨v, hv⟩, hcrowded⟩ := hlater.resolve_left hremains
    refine .inr (.inr ?_)
    rcases le_or_gt (2 ^ 63) (s.getMax d) with hbig | hbelow
    · exact .inl hbig
    -- what is not seen in the next window is closed, and the map cannot hold the maximum
    have hclosed : ∀ i < set.width, content s.hist i ≠ some [] → tl.mark d i < s.getMax d →
        Closed d s tl i ∧ s.getMax d < stored (s.getMax d) := by
      intro i hi hitem hmark
      have hd := set.depth_pos
      by_contra hc
      refine hremains ⟨i, hi, hitem, by omega, fun hcl => ?_⟩
      by_contra hle
      exact hc ⟨hcl, by omega⟩
    have hkept : 2 ^ 63 ≤ stored (s.getMax d) := by
      have hlt := (hclosed v hv.lt hv.item hv.mark).2
      refine (extend_toInt_cases (s.getMax d)).resolve_left fun hc => ?_
      exact absurd hlt (not_lt.2 hc.2)
    have hmarks : ∀ i, s.getMax d ≤ tl.mark d i → 2 ^ 63 ≤ tl.mark d i := by
      intro i hle
      refine ((hs.tidy.2 d).mark_cases i).resolve_left fun hc => ?_
      have hsmall : s.getMax d < 2 ^ 31 := hle.trans_lt hc.1
      rw [stored_of_lt hsmall] at hkept
      omega
    refine .inr (.inl ⟨hbelow, hkept, fun i hi => ?_, .start hs.tidy.1, .inl ⟨v, hv⟩⟩)
    rcases lt_or_ge (tl.mark d i) (s.getMax d) with hmark | hmark
    · refine .inr ?_
      by_cases hitem : content s.hist i = some []
      · obtain ⟨he, hc⟩ := hcrowded i hi hitem hmark
        exact ⟨hc, .inr ⟨he, rfl⟩⟩
      · exact ⟨(hclosed i hi hitem hmark).1, .inl hitem⟩
    · exact .inl (hmarks i hmark)

/-- The result of a search in a state with this history. -/
structure Found (set : Params) (d : Side) (ok : Prop) (hist : List Event) (x : Local × Option ℕ)
    (s : Memory) : Prop where
  sound : Sound set s
  hist_eq : s.hist = hist
  tidy : Tidy set x.1 s
  sees : ok → AllEmpty set hist ∨ 2 ^ 63 ≤ s.getMax d ∨ x.2 ≠ none ∧ Sees set d s
    (x.1.sync d (s.getMax d))

end Search

end TwoDdDeque
