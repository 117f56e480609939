import Mathlib.Data.List.Count
import Mathlib.Order.Nat
import Mathlib.Logic.Function.Basic
import Mathlib.Data.Nat.Notation

/-!
# Counting sort

Entries with keys are put into one array, sorted by their keys. The places are found by counting:
`before l u` entries of `l` have smaller keys than `u`, and `count l u` have the key `u`.

* `bucket l u`: the entries with the key `u`;
* `Filling`: some entries have been put into the array, each part from its end on, and `Filling.put`
  puts the next one;
* `Filling.row`: a part of the finished array.
-/

namespace Buckets

variable {β : Type}

/-- The number of entries with smaller keys. -/
def before (l : List (ℕ × β)) (u : ℕ) : ℕ := l.countP fun e => e.1 < u

/-- The number of entries with a key. -/
def count (l : List (ℕ × β)) (u : ℕ) : ℕ := l.countP fun e => e.1 = u

/-- The entries with a key. -/
def bucket (l : List (ℕ × β)) (u : ℕ) : List β := (l.filter fun e => e.1 = u).map Prod.snd

variable {l done todo : List (ℕ × β)} {u w n : ℕ} {v : β}

theorem mem_bucket : v ∈ bucket l u ↔ (u, v) ∈ l := by
  simp [bucket]

theorem count_bucket [DecidableEq β] : (bucket l u).count v = l.count (u, v) := by
  unfold bucket
  induction l with
  | nil => rfl
  | cons e l ih =>
    obtain ⟨a, b⟩ := e
    rw [List.count_cons, ← ih]
    by_cases ha : a = u
    · subst ha
      simp [List.count_cons]
    · simp [ha]

theorem before_succ : before l (u + 1) = before l u + count l u := by
  unfold before count
  induction l with
  | nil => rfl
  | cons e l ih =>
    simp only [List.countP_cons, ih, decide_eq_true_eq]
    split_ifs <;> omega

theorem before_mono (h : u ≤ w) : before l u ≤ before l w := by
  induction h with
  | refl => exact le_rfl
  | step _ ih => exact ih.trans (before_succ ▸ Nat.le_add_right _ _)

theorem before_le_length : before l u ≤ l.length := List.countP_le_length

theorem before_of_lt (h : ∀ e ∈ l, e.1 < u) : before l u = l.length :=
  List.countP_eq_length.2 fun e he => decide_eq_true (h e he)

theorem before_of_le (h : ∀ e ∈ l, u ≤ e.1) : before l u = 0 :=
  List.countP_eq_zero.2 fun e he => by simpa using h e he

theorem count_append : count (done ++ todo) u = count done u + count todo u := List.countP_append

/-- Every place belongs to a key. -/
theorem exists_row {j : ℕ} (h : j < before l u) :
    ∃ w < u, before l w ≤ j ∧ j < before l (w + 1) := by
  induction u with
  | zero =>
    rw [before_of_le fun _ _ => Nat.zero_le _] at h
    exact absurd h (Nat.not_lt_zero _)
  | succ u ih =>
    by_cases hj : j < before l u
    · obtain ⟨w, hw, hrow⟩ := ih hj
      exact ⟨w, Nat.lt_succ_of_lt hw, hrow⟩
    · exact ⟨u, Nat.lt_succ_self u, not_lt.1 hj, h⟩

/-- The entries `done` have been put into the places of `slot`, and `start` is the first place of a
key that has been used. -/
structure Filling (n : ℕ) (done todo : List (ℕ × β)) (start : ℕ → ℕ) (slot : ℕ → β) : Prop where
  start_eq : ∀ u ≤ n, start u = before (done ++ todo) u + count todo u
  slots : ∀ u ≤ n, (List.range (count done u)).map (fun k => slot (start u + k)) =
    (bucket done u).reverse

variable {start : ℕ → ℕ} {slot : ℕ → β}

theorem Filling.nil (h : ∀ u ≤ n, start u = before l (u + 1)) : Filling n [] l start slot where
  start_eq u hu := (h u hu).trans before_succ
  slots _ _ := rfl

theorem Filling.start_pos (h : Filling n done ((u, v) :: todo) start slot) (hu : u ≤ n) :
    0 < start u := by
  have hcount : 0 < count ((u, v) :: todo) u := by simp [count]
  rw [h.start_eq u hu]
  omega

/-- The place for the next entry. -/
theorem Filling.start_le (h : Filling n done todo start slot) (hu : u ≤ n) :
    start u + count done u = before (done ++ todo) (u + 1) := by
  rw [h.start_eq u hu, before_succ, count_append]
  omega

theorem Filling.lt_length (h : Filling n done ((u, v) :: todo) start slot) (hu : u ≤ n) :
    start u - 1 < (done ++ (u, v) :: todo).length := by
  have hpos := h.start_pos hu
  have hle : start u ≤ before (done ++ (u, v) :: todo) (u + 1) :=
    h.start_le hu ▸ Nat.le_add_right _ _
  have hlen := hle.trans before_le_length
  omega

/-- The part of a key ends behind its first entry. -/
theorem Filling.end_le (h : Filling n done ((u, v) :: todo) start slot) (hu : u ≤ n) {capacity : ℕ}
    (hdone : 0 < count done u → before (done ++ (u, v) :: todo) (u + 1) ≤ capacity)
    (hcap : start u - 1 < capacity) :
    before (done ++ (u, v) :: todo) (u + 1) ≤ capacity := by
  rcases Nat.eq_zero_or_pos (count done u) with hzero | hpos
  · rw [← h.start_le hu, hzero]
    have hstart := h.start_pos hu
    omega
  · exact hdone hpos

/-- The next entry is put in front of those with the same key. -/
theorem Filling.put (h : Filling n done ((u, v) :: todo) start slot) (hu : u ≤ n) :
    Filling n (done ++ [(u, v)]) todo (Function.update start u (start u - 1))
      (Function.update slot (start u - 1) v) := by
  have hpos := h.start_pos hu
  have happ : done ++ [(u, v)] ++ todo = done ++ (u, v) :: todo := List.append_assoc ..
  have hcount : ∀ w, count ((u, v) :: todo) w = count todo w + if u = w then 1 else 0 := fun w => by
    simp [count, List.countP_cons]
  have hdone : ∀ w, count (done ++ [(u, v)]) w = count done w + if u = w then 1 else 0 :=
    fun w => by
    simp [count]
  refine ⟨fun w hw => ?_, fun w hw => ?_⟩
  · rw [happ]
    have hstart := h.start_eq w hw
    rw [hcount] at hstart
    by_cases hwu : w = u
    · subst hwu
      rw [Function.update_self]
      rw [if_pos rfl] at hstart
      omega
    · rw [Function.update_of_ne hwu]
      rwa [if_neg (Ne.symm hwu)] at hstart
  · by_cases hwu : w = u
    · subst hwu
      rw [hdone, if_pos rfl, List.range_succ_eq_map, List.map_cons, List.map_map,
        Function.update_self]
      have hbucket : bucket (done ++ [(w, v)]) w = bucket done w ++ [v] := by
        simp [bucket]
      rw [hbucket, List.reverse_append, ← h.slots w hw]
      refine List.cons_eq_cons.2 ⟨Function.update_self .., List.map_congr_left fun k _ => ?_⟩
      -- the places behind the new one are those of before
      have hplace : start w - 1 + (k + 1) = start w + k := by omega
      show Function.update slot (start w - 1) v (start w - 1 + (k + 1)) = _
      rw [hplace, Function.update_of_ne (by omega)]
    · rw [hdone, if_neg (Ne.symm hwu), Nat.add_zero, Function.update_of_ne hwu]
      have hbucket : bucket (done ++ [(u, v)]) w = bucket done w := by
        simp [bucket, Ne.symm hwu]
      rw [hbucket, ← h.slots w hw]
      refine List.map_congr_left fun k hk => Function.update_of_ne ?_ _ _
      have hk := List.mem_range.1 hk
      have hw₁ := h.start_le hw
      have hu₁ := h.start_le hu
      have hw₀ := h.start_eq w hw
      have hu₀ := h.start_eq u hu
      rw [hcount, if_pos rfl] at hu₀
      -- the parts of different keys have no place in common
      rcases Nat.lt_or_gt_of_ne hwu with hlt | hlt
      · have hmono : before (done ++ (u, v) :: todo) (w + 1) ≤ before (done ++ (u, v) :: todo) u :=
          before_mono hlt
        omega
      · have hmono : before (done ++ (u, v) :: todo) (u + 1) ≤ before (done ++ (u, v) :: todo) w :=
          before_mono hlt
        omega

/-- The finished array. -/
theorem Filling.row (h : Filling n l [] start slot) (hu : u ≤ n) :
    start u = before l u ∧ (List.range (count l u)).map (fun k => slot (before l u + k)) =
      (bucket l u).reverse := by
  have hstart : start u = before l u := by
    rw [h.start_eq u hu, List.append_nil]
    rfl
  exact ⟨hstart, hstart ▸ h.slots u hu⟩

/-- An array that has room for every part has room for all of them. -/
theorem length_le {capacity : ℕ} (hn : ∀ e ∈ l, e.1 ≤ n)
    (h : ∀ u ≤ n, 0 < count l u → before l (u + 1) ≤ capacity) : l.length ≤ capacity := by
  rcases Nat.eq_zero_or_pos l.length with hzero | hpos
  · rw [hzero]
    exact Nat.zero_le _
  · have hlast : l.length - 1 < before l (n + 1) := by
      rw [before_of_lt fun e he => Nat.lt_succ_of_le (hn e he)]
      omega
    obtain ⟨u, hu, hle, hlt⟩ := exists_row hlast
    have hcount : 0 < count l u := by
      rw [before_succ] at hlt
      omega
    have hend := h u (Nat.le_of_lt_succ hu) hcount
    omega

/-- Every place of the finished array holds an entry. -/
theorem Filling.mem (h : Filling n l [] start slot) (hn : ∀ e ∈ l, e.1 ≤ n) {j : ℕ}
    (hj : j < l.length) :
    ∃ e ∈ l, slot j = e.2 := by
  rw [← before_of_lt fun e he => Nat.lt_succ_of_le (hn e he)] at hj
  obtain ⟨u, hu, hle, hlt⟩ := exists_row hj
  rw [before_succ] at hlt
  have hin : slot j ∈ (bucket l u).reverse := by
    rw [← (h.row (Nat.le_of_lt_succ hu)).2]
    refine List.mem_map.2 ⟨j - before l u, List.mem_range.2 (by omega), congrArg slot ?_⟩
    omega
  exact ⟨(u, slot j), mem_bucket.1 (List.mem_reverse.1 hin), rfl⟩

end Buckets
