import Mathlib.Algebra.BigOperators.Ring.Finset
import Mathlib.Algebra.Order.BigOperators.Group.Finset
import Mathlib.Data.List.Count
import Mathlib.Data.List.Sort
import Mathlib.Order.Interval.Finset.Nat
import Mathlib.Tactic.Linarith

/-!
# Counting the items ahead of one item

The items of a relaxed structure stand in one list in the order of their age, and every item sits
in one of `w` sub-structures, its class `f x < w`.

* `length_le_mul`: a list with no item of class `i` and at most `K` of every other class has at
  most `K * (w - 1)` items;
* `length_le_of_rows`: items whose rows increase and stay in a window of depth `d` are at most `d`;
* `Suffixes`: what holds, for every item of the list, between its height in its own sub-structure
  and the number of older items in each sub-structure. It is the invariant behind the rank bounds
  of relaxed stacks, and survives a push (`Suffixes.cons`) and a pop (`Suffixes.remove`).
-/

namespace Rank

variable {ι : Type} (f : ι → ℕ)

/-- The number of items of class `j`. -/
def count (j : ℕ) (l : List ι) : ℕ := l.countP fun x => f x = j

variable {f}

@[simp] theorem count_nil (j : ℕ) : count f j [] = 0 := rfl

theorem count_cons (j : ℕ) (x : ι) (l : List ι) :
    count f j (x :: l) = count f j l + if f x = j then 1 else 0 := by
  simp [count, List.countP_cons]

@[simp] theorem count_cons_self (x : ι) (l : List ι) :
    count f (f x) (x :: l) = count f (f x) l + 1 := by
  simp [count_cons]

theorem count_cons_of_ne {j : ℕ} {x : ι} (h : f x ≠ j) (l : List ι) :
    count f j (x :: l) = count f j l := by
  simp [count_cons, h]

@[simp] theorem count_append (j : ℕ) (l m : List ι) :
    count f j (l ++ m) = count f j l + count f j m := by
  simp [count, List.countP_append]

theorem count_eq_zero {j : ℕ} {l : List ι} : count f j l = 0 ↔ ∀ x ∈ l, f x ≠ j := by
  simp [count, List.countP_eq_zero]

theorem count_eq_length_filter (j : ℕ) (l : List ι) :
    count f j l = (l.filter fun x => f x = j).length :=
  List.countP_eq_length_filter

theorem length_eq_sum {w : ℕ} {l : List ι} (h : ∀ x ∈ l, f x < w) :
    l.length = ∑ j ∈ Finset.range w, count f j l := by
  induction l with
  | nil => simp
  | cons x l ih =>
    have hx : f x < w := h x (List.mem_cons_self ..)
    simp only [count_cons, Finset.sum_add_distrib, List.length_cons,
      ← ih fun y hy => h y (List.mem_cons_of_mem _ hy)]
    rw [Finset.sum_ite_eq, if_pos (Finset.mem_range.2 hx)]

/-- No item of class `i` and at most `K` of every other class. -/
theorem length_le_mul {w K i : ℕ} {l : List ι} (h : ∀ x ∈ l, f x < w) (hi : i < w)
    (h0 : count f i l = 0) (hK : ∀ j < w, j ≠ i → count f j l ≤ K) :
    l.length ≤ K * (w - 1) := by
  rw [length_eq_sum h, ← Finset.add_sum_erase _ _ (Finset.mem_range.2 hi), h0, Nat.zero_add]
  calc ∑ j ∈ (Finset.range w).erase i, count f j l
      ≤ ∑ _j ∈ (Finset.range w).erase i, K := Finset.sum_le_sum fun j hj => by
        obtain ⟨hne, hj⟩ := Finset.mem_erase.1 hj
        exact hK j (Finset.mem_range.1 hj) hne
    _ = K * (w - 1) := by
        rw [Finset.sum_const, Finset.card_erase_of_mem (Finset.mem_range.2 hi),
          Finset.card_range, Nat.nsmul_eq_mul, Nat.mul_comm]

/-- Increasing rows in the window `(b, b + d]` are at most `d`. -/
theorem length_le_of_rows {d b : ℕ} {rows : List ℕ} (hs : rows.Pairwise (· < ·))
    (hlo : ∀ r ∈ rows, b < r) (hhi : ∀ r ∈ rows, r ≤ b + d) : rows.length ≤ d := by
  have hn : rows.Nodup := hs.imp fun h => Nat.ne_of_lt h
  have hsub : rows.toFinset ⊆ Finset.Ioc b (b + d) := fun r hr => by
    rw [List.mem_toFinset] at hr
    exact Finset.mem_Ioc.2 ⟨hlo r hr, hhi r hr⟩
  have := Finset.card_le_card hsub
  rwa [List.toFinset_card_of_nodup hn, Nat.card_Ioc, Nat.add_sub_cancel_left] at this

/-! ### Heights in relaxed stacks -/

variable (f)

/-- For every item of the list (youngest first) and every class `j < w`, `R` relates the height of
the item in its own sub-structure to the number of older items of class `j`. -/
def Suffixes (w : ℕ) (R : ℕ → ℕ → Prop) : List ι → Prop
  | [] => True
  | x :: l => (∀ j < w, R (count f (f x) l + 1) (count f j l)) ∧ Suffixes w R l

variable {f}

namespace Suffixes

variable {w : ℕ} {R : ℕ → ℕ → Prop}

theorem cons {x : ι} {l : List ι} (h : Suffixes f w R l)
    (hx : ∀ j < w, R (count f (f x) l + 1) (count f j l)) : Suffixes f w R (x :: l) :=
  ⟨hx, h⟩

theorem split {A B : List ι} {x : ι} (h : Suffixes f w R (A ++ x :: B)) :
    ∀ j < w, R (count f (f x) B + 1) (count f j B) := by
  induction A with
  | nil => exact h.1
  | cons a A ih => exact ih h.2

/-- Remove an item that has no younger item of its class. For a younger item the number of older
items of the removed class becomes the whole size of that sub-structure, so it is enough that `R`
relates every height of the remaining list to every size. -/
theorem remove {A B : List ι} {x : ι} (h : Suffixes f w R (A ++ x :: B))
    (htop : count f (f x) A = 0)
    (hR : ∀ i j k, j < w → k ≤ count f i (A ++ B) → R k (count f j (A ++ B))) :
    Suffixes f w R (A ++ B) := by
  suffices H : ∀ A', Suffixes f w R (A' ++ x :: B) → count f (f x) A' = 0 →
      (∀ i, count f i A' ≤ count f i A) → Suffixes f w R (A' ++ B) from
    H A h htop fun _ => le_rfl
  intro A'
  induction A' with
  | nil => exact fun h' _ _ => h'.2
  | cons a A' ih =>
    intro h' h0 hle
    have ha : f a ≠ f x := (count_eq_zero.1 h0) a (List.mem_cons_self ..)
    have h0' : count f (f x) A' = 0 := by rwa [count_cons_of_ne ha] at h0
    have hle' : ∀ i, count f i A' + (if f a = i then 1 else 0) ≤ count f i A := fun i => by
      rw [← count_cons]
      exact hle i
    rw [List.cons_append]
    refine ⟨fun j hj => ?_, ih h'.2 h0' fun i => by have := hle' i; omega⟩
    by_cases hjx : j = f x
    · subst hjx
      have hsize : count f (f x) (A' ++ B) = count f (f x) (A ++ B) := by
        simp only [count_append, h0', htop]
      rw [hsize]
      refine hR (f a) (f x) _ hj ?_
      have := hle' (f a)
      simp only [count_append, if_true] at this ⊢
      omega
    · rw [List.cons_append] at h'
      have := h'.1 j hj
      simpa only [count_append, count_cons_of_ne (Ne.symm hjx), count_cons_of_ne (Ne.symm ha)]
        using this

end Suffixes

end Rank
