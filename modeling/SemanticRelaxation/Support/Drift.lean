import SemanticRelaxation.Support.Deques
import Mathlib.Algebra.BigOperators.Group.Finset.Piecewise
import Mathlib.Algebra.Order.BigOperators.Group.Finset
import Mathlib.Data.List.Count
import Mathlib.Data.List.TakeWhile
import Mathlib.Tactic.Ring

/-!
# Windows at both ends of an array of deques

The items of an array of deques in one order: a push puts its item before all others at its end, in
whichever deque it goes. The pushes and the pops at each end are counted for each deque, and a
counter only moves within a window of `depth` rows that is the same for all deques.

* `order`: the items that are present after a history;
* `before`, `ahead`: the items before a given one, and how many of them are in a given deque;
* `Ledger`: the order of the items, their deques, the counters and the windows;
* `Drift`: how far the items of another deque have come before an item. It is measured against a
  distance of two windows, a multiple of `depth`, so that each of the two deques is off by `depth`
  at most;
* `Balanced.push`, `Balanced.pop`: pushes and pops within the windows keep this;
* `Balanced.before_le`: an item that may be popped has few items of other deques before it.
-/

namespace Deques

/-! ### The items in one order -/

/-- The items present after an operation: a push puts its item before all others at its end. -/
def arrange (xs : List ℕ) : Event → List ℕ
  | .push d _ _ n => d.look (n :: d.look xs)
  | .pop _ _ _ n => xs.erase n

/-- The items present after a history, from left to right. -/
def order (hist : List Event) : List ℕ := hist.foldl arrange []

theorem order_concat (hist : List Event) (e : Event) :
    order (hist ++ [e]) = arrange (order hist) e := by
  unfold order
  rw [List.foldl_append]
  rfl

/-- The content of a deque before a pop that was legal. -/
theorem content_before_pop {hist : List Event} {d : Side} {op i n : ℕ} {zs : List ℕ}
    (h : content (hist ++ [.pop d op i n]) i = some zs) :
    ∃ ys, content hist i = some (d.look (n :: ys)) ∧ zs = d.look ys := by
  unfold content part at h
  rw [List.filter_append, List.filter_cons_of_pos (by simp [Event.idx])] at h
  unfold run at h
  rw [List.foldlM_append] at h
  obtain ⟨xs, hxs, h⟩ := Option.bind_eq_some_iff.1 h
  rw [List.filter_nil, List.foldlM_cons] at h
  obtain ⟨ys, hys, h⟩ := Option.bind_eq_some_iff.1 h
  obtain rfl := Option.some.inj h
  simp only [step] at hys
  split at hys
  next => cases hys
  next m ms hx =>
    obtain ⟨rfl, hz⟩ := Option.ite_none_right_eq_some.1 hys
    refine ⟨ms, hxs.trans ?_, (Option.some.inj hz).symm⟩
    rw [← hx, Side.look_look]

/-! ### The items before an item -/

/-- The items before `x`, seen from the end `d`. -/
def before (d : Side) (xs : List ℕ) (x : ℕ) : List ℕ := (d.look xs).takeWhile fun y => y ≠ x

/-- How many of the items before `x` are in the deque `j`. -/
def ahead (place : ℕ → ℕ) (d : Side) (xs : List ℕ) (x j : ℕ) : ℕ :=
  (before d xs x).countP fun y => place y = j

section Before

variable {d e : Side} {xs l l' : List ℕ} {n x y i j : ℕ} {place : ℕ → ℕ}

theorem takeWhile_append_of_mem (hx : x ∈ l) :
    ((l ++ l').takeWhile fun y => y ≠ x) = l.takeWhile fun y => y ≠ x := by
  induction l with
  | nil => cases hx
  | cons a l ih =>
    rw [List.cons_append]
    by_cases ha : a = x
    · rw [List.takeWhile_cons_of_neg (by simpa using ha),
        List.takeWhile_cons_of_neg (by simpa using ha)]
    · have hmem : x ∈ l := (List.mem_cons.1 hx).resolve_left (Ne.symm ha)
      rw [List.takeWhile_cons_of_pos (by simpa using ha),
        List.takeWhile_cons_of_pos (by simpa using ha), ih hmem]

theorem takeWhile_erase (hx : x ≠ n) :
    ((l.erase n).takeWhile fun y => y ≠ x) = (l.takeWhile fun y => y ≠ x).erase n := by
  induction l with
  | nil => rfl
  | cons a l ih =>
    by_cases han : a = n
    · subst han
      rw [List.erase_cons_head, List.takeWhile_cons_of_pos (by simpa using hx.symm),
        List.erase_cons_head]
    · rw [List.erase_cons_tail (by simpa using han)]
      by_cases ha : a = x
      · rw [List.takeWhile_cons_of_neg (by simpa using ha),
          List.takeWhile_cons_of_neg (by simpa using ha)]
        rfl
      · rw [List.takeWhile_cons_of_pos (by simpa using ha),
          List.takeWhile_cons_of_pos (by simpa using ha),
          List.erase_cons_tail (by simpa using han), ih]

theorem look_erase (h : xs.Nodup) (d : Side) (n : ℕ) :
    d.look (xs.erase n) = (d.look xs).erase n := by
  cases d with
  | left => rfl
  | right =>
    have h' : xs.reverse.Nodup := List.nodup_reverse.2 h
    show (xs.erase n).reverse = xs.reverse.erase n
    rw [h.erase_eq_filter, h'.erase_eq_filter, List.filter_reverse]

theorem filter_look (p : ℕ → Bool) : (d.look xs).filter p = d.look (xs.filter p) := by
  cases d with
  | left => rfl
  | right => exact List.filter_reverse ..

/-- The items of one deque, after a push to it. -/
theorem filter_push_self (hn : n ∉ xs) :
    ((d.look (n :: d.look xs)).filter fun y => Function.update place n i y = i) =
    d.look (n :: d.look (xs.filter fun y => place y = i)) := by
  have hcongr : (d.look xs).filter (fun y => Function.update place n i y = i) =
      (d.look xs).filter fun y => place y = i := List.filter_congr fun y hy => by
    rw [Function.update_of_ne]
    rintro rfl
    exact hn (Side.mem_look.1 hy)
  rw [filter_look, List.filter_cons_of_pos (by simp), hcongr, filter_look]

/-- The items of one deque, after a push to another. -/
theorem filter_push_other (hn : n ∉ xs) (hij : i ≠ j) :
    ((d.look (n :: d.look xs)).filter fun y => Function.update place n i y = j) = xs.filter fun y =>
    place y = j := by
  have hcongr : (d.look xs).filter (fun y => Function.update place n i y = j) =
      (d.look xs).filter fun y => place y = j := List.filter_congr fun y hy => by
    rw [Function.update_of_ne]
    rintro rfl
    exact hn (Side.mem_look.1 hy)
  rw [filter_look, List.filter_cons_of_neg (by simpa using hij), hcongr, filter_look,
    Side.look_look]

theorem filter_erase (h : xs.Nodup) (p : ℕ → Bool) :
    (xs.erase n).filter p = (xs.filter p).erase n := by
  rw [h.erase_eq_filter, (h.filter p).erase_eq_filter, List.filter_comm]

theorem countP_look (p : ℕ → Bool) : (d.look xs).countP p = xs.countP p := by
  cases d with
  | left => rfl
  | right => exact (List.reverse_perm xs).countP_eq p

/-- What is pushed at one end comes last from the other end. -/
theorem look_push_other (he : e ≠ d) : e.look (d.look (n :: d.look xs)) = e.look xs ++ [n] := by
  obtain rfl : e = d.other := (Side.eq_or_other d e).resolve_left he
  rw [Side.look_other, Side.look_look, List.reverse_cons, Side.look_other]

theorem before_subset : before d xs x ⊆ xs := fun _ hy =>
  Side.mem_look.1 (List.takeWhile_prefix _ |>.subset hy)

theorem before_push (hx : x ≠ n) : before d (d.look (n :: d.look xs)) x = n :: before d xs x := by
  unfold before
  rw [Side.look_look, List.takeWhile_cons_of_pos (by simpa using hx.symm)]

theorem before_push_self : before d (d.look (n :: d.look xs)) n = [] := by
  unfold before
  rw [Side.look_look, List.takeWhile_cons_of_neg (by simp)]

theorem before_push_other (he : e ≠ d) (hx : x ∈ xs) :
    before e (d.look (n :: d.look xs)) x = before e xs x := by
  unfold before
  rw [look_push_other he, takeWhile_append_of_mem (Side.mem_look.2 hx)]

theorem before_push_last (he : e ≠ d) (hn : n ∉ xs) :
    before e (d.look (n :: d.look xs)) n = e.look xs := by
  unfold before
  rw [look_push_other he, List.takeWhile_append_of_pos, List.takeWhile_cons_of_neg (by simp),
    List.append_nil]
  intro y hy
  have hne : y ≠ n := fun h => hn (h ▸ Side.mem_look.1 hy)
  simpa using hne

theorem before_erase (h : xs.Nodup) (hx : x ≠ n) :
    before d (xs.erase n) x = (before d xs x).erase n := by
  unfold before
  rw [look_erase h, takeWhile_erase hx]

/-- Of two items one comes first. -/
theorem before_total (hx : x ∈ xs) (hy : y ∈ xs) (hne : x ≠ y) :
    x ∈ before d xs y ∨ y ∈ before d xs x := by
  unfold before
  have hx : x ∈ d.look xs := Side.mem_look.2 hx
  have hy : y ∈ d.look xs := Side.mem_look.2 hy
  generalize d.look xs = l at hx hy ⊢
  induction l with
  | nil => cases hx
  | cons a l ih =>
    by_cases hax : a = x
    · subst hax
      rw [List.takeWhile_cons_of_pos (by simpa using hne)]
      exact .inl (List.mem_cons_self ..)
    · by_cases hay : a = y
      · subst hay
        rw [List.takeWhile_cons_of_pos (p := fun y => y ≠ x) (by simpa using hax)]
        exact .inr (List.mem_cons_self ..)
      · rw [List.takeWhile_cons_of_pos (by simpa using hay),
          List.takeWhile_cons_of_pos (by simpa using hax)]
        have hx' := (List.mem_cons.1 hx).resolve_left (Ne.symm hax)
        have hy' := (List.mem_cons.1 hy).resolve_left (Ne.symm hay)
        exact (ih hx' hy').imp (List.mem_cons_of_mem _) (List.mem_cons_of_mem _)

theorem before_trans (h : n ∈ before d xs y) (h' : y ∈ before d xs x) : n ∈ before d xs x := by
  unfold before at h h' ⊢
  generalize d.look xs = l at h h' ⊢
  induction l with
  | nil => cases h'
  | cons a l ih =>
    by_cases hax : a = x
    · rw [List.takeWhile_cons_of_neg (by simpa using hax)] at h'
      cases h'
    · rw [List.takeWhile_cons_of_pos (by simpa using hax)] at h' ⊢
      by_cases hay : a = y
      · rw [List.takeWhile_cons_of_neg (by simpa using hay)] at h
        cases h
      · rw [List.takeWhile_cons_of_pos (by simpa using hay)] at h
        have hy := (List.mem_cons.1 h').resolve_left (Ne.symm hay)
        rcases List.mem_cons.1 h with rfl | hn
        · exact List.mem_cons_self ..
        · exact List.mem_cons_of_mem _ (ih hn hy)

/-- From the other end the items come in the other order. -/
theorem before_swap (h : xs.Nodup) (hx : x ∈ xs) (hy : y ∈ before d xs x) :
    x ∈ before d.other xs y := by
  unfold before at hy ⊢
  rw [Side.look_other]
  have h : (d.look xs).Nodup := Side.nodup_look.2 h
  have hx : x ∈ d.look xs := Side.mem_look.2 hx
  generalize d.look xs = l at h hx hy ⊢
  obtain ⟨pre, post, rfl⟩ := List.append_of_mem hx
  have hxpre : x ∉ pre := fun hm => (List.nodup_append.1 h).2.2 x hm x (List.mem_cons_self ..) rfl
  have hpre : ∀ z ∈ pre, decide (z ≠ x) = true := fun z hz => decide_eq_true fun he =>
    hxpre (he ▸ hz)
  rw [List.takeWhile_append_of_pos hpre, List.takeWhile_cons_of_neg (by simp),
    List.append_nil] at hy
  have hpost : ∀ z ∈ post.reverse, decide (z ≠ y) = true := fun z hz => decide_eq_true fun he =>
    (List.nodup_append.1 h).2.2 y hy z (List.mem_cons_of_mem _ (List.mem_reverse.1 hz)) he.symm
  have hne : x ≠ y := fun he => hxpre (he ▸ hy)
  rw [List.reverse_append, List.reverse_cons, List.append_assoc, List.takeWhile_append_of_pos hpost,
    List.singleton_append, List.takeWhile_cons_of_pos (by simpa using hne)]
  exact List.mem_append_right _ (List.mem_cons_self ..)

theorem not_mem_before : x ∉ before d xs x := fun hm => by
  simpa using List.mem_takeWhile_imp hm

/-! ### How many they are -/

theorem ahead_congr {place' : ℕ → ℕ} (h : ∀ y ∈ xs, place' y = place y) :
    ahead place' d xs x j = ahead place d xs x j :=
  List.countP_congr fun y hy => by rw [h y (before_subset hy)]

theorem ahead_push (hx : x ≠ n) (hn : n ∉ xs) :
    ahead (Function.update place n i) d (d.look (n :: d.look xs)) x j =
    ahead place d xs x j + if i = j then 1 else 0 := by
  unfold ahead
  rw [before_push hx, List.countP_cons, Function.update_self]
  have hcongr : (before d xs x).countP (fun y => Function.update place n i y = j) =
      (before d xs x).countP fun y => place y = j := ahead_congr fun y hy =>
      Function.update_of_ne (by
        rintro rfl
        exact hn hy) _ _
  rw [hcongr]
  simp only [decide_eq_true_eq]

theorem ahead_push_other (he : e ≠ d) (hx : x ∈ xs) (hn : n ∉ xs) :
    ahead (Function.update place n i) e (d.look (n :: d.look xs)) x j = ahead place e xs x j := by
  unfold ahead
  rw [before_push_other he hx]
  exact ahead_congr fun y hy => Function.update_of_ne (by
    rintro rfl
    exact hn hy) _ _

theorem ahead_erase (h : xs.Nodup) (hx : x ≠ n) : ahead place d (xs.erase n) x j =
    ahead place d xs x j - if n ∈ before d xs x ∧ place n = j then 1 else 0 := by
  unfold ahead
  rw [before_erase h hx, List.countP_erase]
  simp only [decide_eq_true_eq]

theorem ahead_eq_zero : ahead place d xs x j = 0 ↔ ∀ y ∈ before d xs x, place y ≠ j := by
  unfold ahead
  rw [List.countP_eq_zero]
  simp only [decide_eq_true_eq, ne_eq]

/-- The first item of a deque comes before all other items of it. -/
theorem ahead_eq_zero_of_first {ys : List ℕ}
    (h : d.look (xs.filter fun y => place y = j) = n :: ys) :
    ahead place d xs n j = 0 := by
  rw [ahead_eq_zero]
  intro y hy hyj
  rw [← filter_look] at h
  unfold before at hy
  generalize d.look xs = l at h hy
  induction l with
  | nil => cases hy
  | cons a l ih =>
    by_cases han : a = n
    · rw [List.takeWhile_cons_of_neg (by simpa using han)] at hy
      cases hy
    · have ha : place a ≠ j := by
        intro ha
        rw [List.filter_cons_of_pos (by simpa using ha)] at h
        exact han (List.cons.inj h).1
      rw [List.takeWhile_cons_of_pos (by simpa using han)] at hy
      rw [List.filter_cons_of_neg (by simpa using ha)] at h
      rcases List.mem_cons.1 hy with rfl | hy
      · exact ha hyj
      · exact ih h hy

/-- The items of all deques together. -/
theorem length_eq_sum {w : ℕ} (h : ∀ y ∈ l, place y < w) :
    l.length = ∑ j ∈ Finset.range w, l.countP fun y => place y = j := by
  induction l with
  | nil => simp
  | cons a l ih =>
    have ha := h a (List.mem_cons_self ..)
    simp only [List.countP_cons, List.length_cons, decide_eq_true_eq, Finset.sum_add_distrib,
      Finset.sum_ite_eq,
      Finset.mem_range, if_pos ha]
    rw [← ih fun y hy => h y (List.mem_cons_of_mem _ hy)]

/-- No items of the deque `i`, and at most `b` of each other one. -/
theorem length_le_of_count {w b : ℕ} (h : ∀ y ∈ l, place y < w) (hi : i < w)
    (hzero : (l.countP fun y => place y = i) = 0)
    (hb : ∀ j < w, j ≠ i → (l.countP fun y => place y = j) ≤ b) :
    l.length ≤ b * (w - 1) := by
  have hmem : i ∈ Finset.range w := Finset.mem_range.2 hi
  rw [length_eq_sum h, ← Finset.add_sum_erase _ _ hmem, hzero, Nat.zero_add]
  calc ∑ j ∈ (Finset.range w).erase i, (l.countP fun y => place y = j)
      ≤ ∑ _j ∈ (Finset.range w).erase i, b := by
        refine Finset.sum_le_sum fun j hj => ?_
        obtain ⟨hne, hlt⟩ := Finset.mem_erase.1 hj
        exact hb j (Finset.mem_range.1 hlt) hne
    _ = b * (w - 1) := by
        rw [Finset.sum_const_nat fun _ _ => rfl, Finset.card_erase_of_mem hmem, Finset.card_range,
          Nat.mul_comm]

end Before

/-! ### The ledger -/

/-- A counter of the end `d` of the deque `i` is counted up. -/
def bump (f : Side → ℕ → ℕ) (d : Side) (i : ℕ) : Side → ℕ → ℕ :=
  Function.update f d (Function.update (f d) i (f d i + 1))

section Bump

variable {f : Side → ℕ → ℕ} {d e : Side} {i j : ℕ}

theorem bump_self : bump f d i d i = f d i + 1 := by
  unfold bump
  rw [Function.update_self, Function.update_self]

theorem bump_of_ne (hj : j ≠ i) (e : Side) : bump f d i e j = f e j := by
  unfold bump
  by_cases he : e = d
  · subst he
    rw [Function.update_self, Function.update_of_ne hj]
  · rw [Function.update_of_ne he]

theorem bump_other (he : e ≠ d) (j : ℕ) : bump f d i e j = f e j := by
  unfold bump
  rw [Function.update_of_ne he]

theorem bump_eq (j : ℕ) : bump f d i d j = f d j + if i = j then 1 else 0 := by
  by_cases hj : i = j
  · subst hj
    rw [bump_self, if_pos rfl]
  · rw [bump_of_ne (Ne.symm hj), if_neg hj, Nat.add_zero]

theorem le_bump : f e j ≤ bump f d i e j := by
  by_cases he : e = d
  · subst he
    rw [bump_eq]
    exact Nat.le_add_right _ _
  · rw [bump_other he]

end Bump

/-- The items of an array of deques in one order, with their deques, the counters and the windows.
-/
structure Ledger where
  order : List ℕ
  place : ℕ → ℕ
  put : Side → ℕ → ℕ
  get : Side → ℕ → ℕ
  putMax : Side → ℕ
  getMax : Side → ℕ

namespace Ledger

/-- The item `n` is pushed at the end `d` of the deque `i`. -/
def push (a : Ledger) (d : Side) (i n : ℕ) : Ledger :=
  { a with
    order := d.look (n :: d.look a.order)
    place := Function.update a.place n i
    put := bump a.put d i }

/-- The item `n` is popped at the end `d` of the deque `i`. -/
def pop (a : Ledger) (d : Side) (i n : ℕ) : Ledger :=
  { a with
    order := a.order.erase n
    get := bump a.get d i }

/-- How many more items have been pushed than popped at the end `d` of the deque `j`. -/
def gain (a : Ledger) (d : Side) (j : ℕ) : ℤ := a.put d j - a.get d j

/-- The items of the deque `j`. -/
def size (a : Ledger) (j : ℕ) : ℕ := a.order.countP fun y => a.place y = j

/-- The items before `x` that are in the deque `j`. -/
def ahead (a : Ledger) (d : Side) (x j : ℕ) : ℕ := Deques.ahead a.place d a.order x j

/-- The counters of `w` deques are in windows of `depth` rows. -/
structure InWindows (w depth : ℕ) (a : Ledger) : Prop where
  put_le : ∀ d, ∀ i < w, a.put d i ≤ a.putMax d
  le_put : ∀ d, ∀ i < w, a.putMax d ≤ a.put d i + depth
  get_le : ∀ d, ∀ i < w, a.get d i ≤ a.getMax d
  le_get : ∀ d, ∀ i < w, a.getMax d ≤ a.get d i + depth
  put_dvd : ∀ d, depth ∣ a.putMax d
  get_dvd : ∀ d, depth ∣ a.getMax d

/-- The items before `x` that are in its own deque, and those that are in the deque `j`, against one
distance `k` of the windows. -/
def Drift (depth : ℕ) (a : Ledger) (d : Side) (x j : ℕ) : Prop :=
  ∃ k : ℤ, (depth : ℤ) ∣ k ∧ (a.ahead d x j : ℤ) ≤ a.gain d j - k + depth ∧
    a.gain d (a.place x) - k - depth ≤ a.ahead d x (a.place x)

/-- The items of all deques are accounted for by the counters, and none has drifted. -/
structure Balanced (w depth : ℕ) (a : Ledger) : Prop where
  nodup : a.order.Nodup
  place_lt : ∀ x ∈ a.order, a.place x < w
  size : ∀ i < w, (a.size i : ℤ) = a.gain .left i + a.gain .right i
  drift : ∀ d, ∀ x ∈ a.order, ∀ j < w, j ≠ a.place x → a.Drift depth d x j

section Steps

variable {w depth : ℕ} {a b : Ledger} {d e : Side} {i j n x : ℕ}

theorem gain_push (j : ℕ) : (a.push d i n).gain d j = a.gain d j + if i = j then 1 else 0 := by
  show ((bump a.put d i d j : ℕ) : ℤ) - a.get d j = a.put d j - a.get d j + _
  rw [bump_eq]
  split <;> omega

theorem gain_push_other (he : e ≠ d) (j : ℕ) : (a.push d i n).gain e j = a.gain e j := by
  show ((bump a.put d i e j : ℕ) : ℤ) - a.get e j = _
  rw [bump_other he]
  rfl

theorem gain_pop (j : ℕ) : (a.pop d i n).gain d j = a.gain d j - if i = j then 1 else 0 := by
  show (a.put d j : ℤ) - (bump a.get d i d j : ℕ) = a.put d j - a.get d j - _
  rw [bump_eq]
  split <;> omega

theorem gain_pop_other (he : e ≠ d) (j : ℕ) : (a.pop d i n).gain e j = a.gain e j := by
  show (a.put e j : ℤ) - (bump a.get d i e j : ℕ) = _
  rw [bump_other he]
  rfl

/-- How far the windows of one end are apart. -/
def distance (a : Ledger) (d : Side) : ℤ := a.putMax d - a.getMax d

theorem InWindows.dvd (h : InWindows w depth a) (d : Side) : (depth : ℤ) ∣ a.distance d :=
  Int.dvd_sub (Int.natCast_dvd_natCast.2 (h.put_dvd d)) (Int.natCast_dvd_natCast.2 (h.get_dvd d))

theorem InWindows.push (h : InWindows w depth a) (hlt : a.put d i < a.putMax d) :
    InWindows w depth (a.push d i n) where
  put_le e j hj := by
    show bump a.put d i e j ≤ a.putMax e
    by_cases hji : j = i
    · by_cases he : e = d
      · subst hji
        subst he
        rw [bump_self]
        exact hlt
      · rw [bump_other he]
        exact h.put_le e j hj
    · rw [bump_of_ne hji]
      exact h.put_le e j hj
  le_put e j hj := (h.le_put e j hj).trans (Nat.add_le_add_right le_bump depth)
  get_le := h.get_le
  le_get := h.le_get
  put_dvd := h.put_dvd
  get_dvd := h.get_dvd

theorem InWindows.pop (h : InWindows w depth a) (hlt : a.get d i < a.getMax d) :
    InWindows w depth (a.pop d i n) where
  put_le := h.put_le
  le_put := h.le_put
  get_le e j hj := by
    show bump a.get d i e j ≤ a.getMax e
    by_cases hji : j = i
    · by_cases he : e = d
      · subst hji
        subst he
        rw [bump_self]
        exact hlt
      · rw [bump_other he]
        exact h.get_le e j hj
    · rw [bump_of_ne hji]
      exact h.get_le e j hj
  le_get e j hj := (h.le_get e j hj).trans (Nat.add_le_add_right le_bump depth)
  put_dvd := h.put_dvd
  get_dvd := h.get_dvd

/-- A put window is shifted when all counters are at its maximum. -/
theorem InWindows.shift_put (h : InWindows w depth a) (hfull : ∀ i < w, a.putMax d ≤ a.put d i) :
    InWindows w depth { a with putMax := Function.update a.putMax d (a.putMax d + depth) } where
  put_le e j hj := (h.put_le e j hj).trans (le_update_self_iff.2 (Nat.le_add_right _ _) e)
  le_put e j hj := by
    show Function.update a.putMax d (a.putMax d + depth) e ≤ a.put e j + depth
    by_cases he : e = d
    · subst he
      rw [Function.update_self]
      exact Nat.add_le_add_right (hfull j hj) depth
    · rw [Function.update_of_ne he]
      exact h.le_put e j hj
  get_le := h.get_le
  le_get := h.le_get
  put_dvd e := by
    show depth ∣ Function.update a.putMax d (a.putMax d + depth) e
    by_cases he : e = d
    · subst he
      rw [Function.update_self]
      exact Nat.dvd_add (h.put_dvd e) (Nat.dvd_refl _)
    · rw [Function.update_of_ne he]
      exact h.put_dvd e
  get_dvd := h.get_dvd

/-- A get window likewise. -/
theorem InWindows.shift_get (h : InWindows w depth a) (hfull : ∀ i < w, a.getMax d ≤ a.get d i) :
    InWindows w depth { a with getMax := Function.update a.getMax d (a.getMax d + depth) } where
  put_le := h.put_le
  le_put := h.le_put
  get_le e j hj := (h.get_le e j hj).trans (le_update_self_iff.2 (Nat.le_add_right _ _) e)
  le_get e j hj := by
    show Function.update a.getMax d (a.getMax d + depth) e ≤ a.get e j + depth
    by_cases he : e = d
    · subst he
      rw [Function.update_self]
      exact Nat.add_le_add_right (hfull j hj) depth
    · rw [Function.update_of_ne he]
      exact h.le_get e j hj
  put_dvd := h.put_dvd
  get_dvd e := by
    show depth ∣ Function.update a.getMax d (a.getMax d + depth) e
    by_cases he : e = d
    · subst he
      rw [Function.update_self]
      exact Nat.dvd_add (h.get_dvd e) (Nat.dvd_refl _)
    · rw [Function.update_of_ne he]
      exact h.get_dvd e

theorem InWindows.gain_le (h : InWindows w depth a) (d : Side) (hj : j < w) :
    a.gain d j ≤ a.distance d + depth := by
  have h₁ := h.put_le d j hj
  have h₂ := h.le_get d j hj
  unfold gain distance
  omega

theorem InWindows.le_gain (h : InWindows w depth a) (d : Side) (hj : j < w) :
    a.distance d - depth ≤ a.gain d j := by
  have h₁ := h.le_put d j hj
  have h₂ := h.get_le d j hj
  unfold gain distance
  omega

/-- With no item of the other deque before it, an item is measured against the present windows. -/
theorem Drift.of_zero (h : InWindows w depth a) (hi : a.place x < w) (hj : j < w)
    (hz : a.ahead d x j = 0) :
    a.Drift depth d x j := by
  have h₁ := h.le_gain d hj
  have h₂ := h.gain_le d hi
  refine ⟨a.distance d, h.dvd d, ?_, ?_⟩ <;> omega

theorem Balanced.size_eq (h : Balanced w depth a) (d : Side) (hi : i < w) :
    (a.size i : ℤ) = a.gain d i + a.gain d.other i := by
  have hs := h.size i hi
  cases d with
  | left => exact hs
  | right =>
    show _ = a.gain .right i + a.gain .left i
    omega

/-- A push within the windows. -/
theorem Balanced.push (h : Balanced w depth a) (hw : InWindows w depth a)
    (hw' : InWindows w depth (a.push d i n)) (hi : i < w) (hn : n ∉ a.order) :
    Balanced w depth (a.push d i n) := by
  have hmem : ∀ {x}, x ∈ d.look (n :: d.look a.order) ↔ x = n ∨ x ∈ a.order := fun {x} => by
    rw [Side.mem_look, List.mem_cons, Side.mem_look]
  have hplace : ∀ x ∈ a.order, (a.push d i n).place x = a.place x := fun x hx =>
    Function.update_of_ne (by rintro rfl; exact hn hx) _ _
  have hself : (a.push d i n).place n = i := Function.update_self ..
  have hcount : ∀ j, (a.order.countP fun y => Function.update a.place n i y = j) = a.size j :=
    fun j =>
    List.countP_congr fun y hy => by
      have hy := hplace y hy
      show decide ((a.push d i n).place y = j) = true ↔ _
      rw [hy]
  refine ⟨?_, fun x hx => ?_, fun j hj => ?_, fun e x hx j hj hne => ?_⟩
  · exact Side.nodup_look.2 (List.nodup_cons.2 ⟨fun hx => hn (Side.mem_look.1 hx),
      Side.nodup_look.2 h.nodup⟩)
  · rcases hmem.1 hx with rfl | hold
    · rwa [hself]
    · rw [hplace x hold]
      exact h.place_lt x hold
  · have hsize : (a.push d i n).size j = a.size j + if i = j then 1 else 0 := by
      show (d.look (n :: d.look a.order)).countP (fun y => Function.update a.place n i y = j) = _
      rw [countP_look, List.countP_cons, countP_look, hcount, Function.update_self]
      simp only [decide_eq_true_eq]
    have hs := h.size_eq d hj
    have hgain : (a.push d i n).gain .left j + (a.push d i n).gain .right j =
        (a.push d i n).gain d j + (a.push d i n).gain d.other j := by
      cases d with
      | left => rfl
      | right => exact Int.add_comm _ _
    rw [hgain, gain_push, gain_push_other (Side.other_ne d), hsize]
    split <;> omega
  · rcases hmem.1 hx with rfl | hold
    · rw [hself] at hne
      by_cases he : e = d
      · subst he
        refine .of_zero hw' (hself.symm ▸ hi) hj ?_
        show Deques.ahead _ e (e.look (x :: e.look a.order)) x j = 0
        unfold Deques.ahead
        rw [before_push_self]
        rfl
      · -- from the other end all items come before the new one
        obtain rfl : e = d.other := (Side.eq_or_other d e).resolve_left he
        have hahead : ∀ j, (a.push d i x).ahead d.other x j = a.size j := fun j => by
          show Deques.ahead _ d.other (d.look (x :: d.look a.order)) x j = _
          unfold Deques.ahead
          rw [before_push_last he hn, countP_look]
          exact hcount j
        have hsi := h.size_eq d hi
        have hsj := h.size_eq d hj
        have hgi := hw.le_gain d hi
        have hgj := hw.gain_le d hj
        refine ⟨-a.distance d, (Int.dvd_neg).2 (hw.dvd d), ?_, ?_⟩
        · rw [hahead, gain_push_other he]
          omega
        · rw [hself, hahead, gain_push_other he]
          omega
    · have hxn : x ≠ n := fun h => hn (h ▸ hold)
      rw [hplace x hold] at hne
      obtain ⟨k, hk, hj', hi'⟩ := h.drift e x hold j hj hne
      have hahead : ∀ j, ((a.push d i n).ahead e x j : ℤ) - (a.push d i n).gain e j =
        a.ahead e x j - a.gain e j := by
        intro j
        by_cases he : e = d
        · subst he
          have hpush : (a.push e i n).ahead e x j = a.ahead e x j + if i = j then 1 else 0 :=
            ahead_push hxn hn
          rw [hpush, gain_push]
          split <;> omega
        · have hpush : (a.push d i n).ahead e x j = a.ahead e x j := ahead_push_other he hold hn
          rw [hpush, gain_push_other he]
      have h₁ := hahead j
      have h₂ := hahead (a.place x)
      refine ⟨k, hk, ?_, ?_⟩
      · omega
      · rw [hplace x hold]
        omega

/-- A pop of the first item of a deque. -/
theorem Balanced.pop (h : Balanced w depth a) (hw' : InWindows w depth (a.pop d i n))
    (hn : n ∈ a.order) (hplace : a.place n = i) (hfirst : a.ahead d n i = 0) :
    Balanced w depth (a.pop d i n) := by
  have hfirst := ahead_eq_zero.1 hfirst
  have hold : ∀ {x}, x ∈ a.order.erase n → x ≠ n ∧ x ∈ a.order := fun hx =>
    (h.nodup.mem_erase_iff).1 hx
  refine ⟨h.nodup.erase n, fun x hx => h.place_lt x (hold hx).2, fun j hj => ?_,
    fun e x hx j hj hne => ?_⟩
  · have hsize : ((a.pop d i n).size j : ℤ) = a.size j - if i = j then 1 else 0 := by
      show ((a.order.erase n).countP (fun y => a.place y = j) : ℤ) = _
      rw [List.countP_erase]
      have hpos : a.place n = j → 0 < a.order.countP fun y => a.place y = j := fun hj =>
        List.countP_pos_iff.2 ⟨n, hn, decide_eq_true hj⟩
      simp only [hn, true_and, decide_eq_true_eq, hplace] at hpos ⊢
      unfold Ledger.size
      split
      next hij =>
        have := hpos hij
        omega
      next => omega
    have hs := h.size_eq d hj
    have hgain : (a.pop d i n).gain .left j + (a.pop d i n).gain .right j =
        (a.pop d i n).gain d j + (a.pop d i n).gain d.other j := by
      cases d with
      | left => rfl
      | right => exact Int.add_comm _ _
    rw [hgain, gain_pop, gain_pop_other (Side.other_ne d), hsize]
    omega
  · obtain ⟨hxn, hmem⟩ := hold hx
    have hne : j ≠ a.place x := hne
    obtain ⟨k, hk, hj', hi'⟩ := h.drift e x hmem j hj hne
    have hahead : ∀ j, (a.pop d i n).ahead e x j = a.ahead e x j - if n ∈ before e a.order x ∧
      i = j then 1 else 0 := by
      intro j
      rw [← hplace]
      exact ahead_erase h.nodup hxn
    have hpos : n ∈ before e a.order x → 0 < a.ahead e x i := fun hm =>
      List.countP_pos_iff.2 ⟨n, hm, decide_eq_true hplace⟩
    -- an item of the deque `i` comes behind the one that is popped
    have hbehind : a.place x = i → n ∈ before d a.order x := fun hxi =>
      (before_total hn hmem hxn.symm).resolve_right fun hm => hfirst x hm hxi
    have h₁ := hahead j
    have h₂ := hahead (a.place x)
    by_cases he : e = d
    · subst he
      by_cases hcase : i = j ∧ n ∉ before e a.order x
      · obtain ⟨rfl, hnot⟩ := hcase
        -- the deque `i` has no item before `x`
        refine .of_zero hw' (h.place_lt x hmem) hj ?_
        rw [hahead, if_neg fun hc => hnot hc.1, Nat.sub_zero]
        refine ahead_eq_zero.2 fun y hy hyi => ?_
        have hyn : n ≠ y := by
          rintro rfl
          exact hnot hy
        rcases before_total hn (before_subset hy) hyn with hny | hyn
        · exact hnot (before_trans hny hy)
        · exact hfirst y hyn hyi
      · refine ⟨k, hk, ?_, ?_⟩
        · rw [gain_pop]
          by_cases hij : i = j
          · have hm : n ∈ before e a.order x := by
              by_contra hm
              exact hcase ⟨hij, hm⟩
            have := hpos hm
            rw [if_pos ⟨hm, hij⟩] at h₁
            rw [if_pos hij]
            subst hij
            omega
          · rw [if_neg fun hc => hij hc.2] at h₁
            rw [if_neg hij]
            omega
        · show (a.pop e i n).gain e (a.place x) - k - depth ≤
            ((a.pop e i n).ahead e x (a.place x) : ℕ)
          rw [gain_pop]
          by_cases hix : i = a.place x
          · have hm := hbehind hix.symm
            have := hpos hm
            rw [if_pos ⟨hm, hix⟩] at h₂
            rw [if_pos hix]
            rw [hix] at this
            omega
          · rw [if_neg fun hc => hix hc.2] at h₂
            rw [if_neg hix]
            omega
    · obtain rfl : e = d.other := (Side.eq_or_other d e).resolve_left he
      refine ⟨k, hk, ?_, ?_⟩
      · rw [gain_pop_other he]
        omega
      · show (a.pop d i n).gain d.other (a.place x) - k - depth ≤ ((a.pop d i n).ahead d.other x
          (a.place x) : ℕ)
        have hnot : ¬ (n ∈ before d.other a.order x ∧ i = a.place x) := by
          rintro ⟨hm, hix⟩
          have hswap := before_swap h.nodup hmem (hbehind hix.symm)
          exact not_mem_before (before_trans hswap hm)
        rw [if_neg hnot] at h₂
        rw [gain_pop_other he]
        omega

/-- The items do not depend on the windows. -/
theorem Balanced.shift (h : Balanced w depth a) (putMax getMax : Side → ℕ) :
    Balanced w depth { a with putMax := putMax, getMax := getMax } :=
  ⟨h.nodup, h.place_lt, h.size, h.drift⟩

/-- Two multiples of the depth that differ by less than two depths. -/
theorem le_of_dvd_of_lt {k m : ℤ} (hk : (depth : ℤ) ∣ k) (hm : (depth : ℤ) ∣ m)
    (h : m < k + 2 * depth) :
    m ≤ k + depth := by
  obtain ⟨p, rfl⟩ := hk
  obtain ⟨q, rfl⟩ := hm
  have hlt : (depth : ℤ) * q < depth * (p + 2) := by
    rw [Int.mul_add, Int.mul_comm (depth : ℤ) 2]
    exact h
  have hq : q ≤ p + 1 := by
    have := Int.lt_of_mul_lt_mul_left hlt (Int.natCast_nonneg _)
    omega
  calc (depth : ℤ) * q ≤ depth * (p + 1) := Int.mul_le_mul_of_nonneg_left hq (Int.natCast_nonneg _)
    _ = depth * p + depth := by rw [Int.mul_add, Int.mul_one]

/-- The first item of a deque that is below its window has few items before it. -/
theorem Balanced.before_le (h : Balanced w depth a) (hw : InWindows w depth a) (hn : n ∈ a.order)
    (hplace : a.place n = i) (hfirst : a.ahead d n i = 0) (hlt : a.get d i < a.getMax d) :
    (before d a.order n).length ≤ 3 * depth * (w - 1) := by
  subst hplace
  have hi := h.place_lt n hn
  refine length_le_of_count (fun y hy => h.place_lt y (before_subset hy)) hi hfirst
    fun j hj hne => ?_
  obtain ⟨k, hk, hj', hi'⟩ := h.drift d n hn j hj hne
  have hput := hw.le_put d _ hi
  have hgain := hw.gain_le d hj
  have hfar : a.distance d < k + 2 * depth := by
    have hg : a.gain d (a.place n) = a.put d (a.place n) - a.get d (a.place n) := rfl
    unfold distance
    omega
  have hnear := le_of_dvd_of_lt hk (hw.dvd d) hfar
  have hle : (a.ahead d n j : ℤ) ≤ 3 * depth := by omega
  show a.ahead d n j ≤ 3 * depth
  omega

end Steps

end Ledger

end Deques
