import Mathlib.Data.Nat.ModEq
import Mathlib.Tactic.Ring

/-!
# Round-robin scans

A scan visits the indices `a, a + 1, …` modulo `w`, one index a round, and counts its hops.
`Scanned w P i n` says that the scan now stands at `i` after `n` hops and that `P` held at every
index it left. Once it has made `w` hops, `P` holds everywhere (`Scanned.all`).
-/

namespace RoundRobin

/-- The index after `i` on a ring of `w` indices. -/
def succ (w i : ℕ) : ℕ := if w ≤ i + 1 then 0 else i + 1

theorem succ_lt {w i : ℕ} (hw : 0 < w) : succ w i < w := by
  unfold succ
  split <;> omega

theorem succ_eq_mod {w i : ℕ} (hi : i < w) : succ w i = (i + 1) % w := by
  unfold succ
  split
  · rw [show i + 1 = w by omega, Nat.mod_self]
  · rw [Nat.mod_eq_of_lt (by omega)]

/-- A scan that stands at `i` after `n` hops and found `P` at every index it left. -/
def Scanned (w : ℕ) (P : ℕ → Prop) (i n : ℕ) : Prop :=
  i < w ∧ ∃ a, i = (a + n) % w ∧ ∀ m < n, P ((a + m) % w)

namespace Scanned

variable {w i n : ℕ} {P Q : ℕ → Prop}

theorem lt (h : Scanned w P i n) : i < w := h.1

theorem start (hi : i < w) : Scanned w P i 0 :=
  ⟨hi, i, (Nat.mod_eq_of_lt hi).symm, fun _ hm => absurd hm (Nat.not_lt_zero _)⟩

theorem mono (h : Scanned w P i n) (hPQ : ∀ j < w, P j → Q j) : Scanned w Q i n := by
  obtain ⟨hi, a, ha, hP⟩ := h
  exact ⟨hi, a, ha, fun m hm => hPQ _ (Nat.mod_lt _ (by omega)) (hP m hm)⟩

theorem hop (h : Scanned w P i n) (hp : P i) : Scanned w P (succ w i) (n + 1) := by
  obtain ⟨hi, a, ha, hP⟩ := h
  refine ⟨succ_lt (by omega), a, ?_, fun m hm => ?_⟩
  · rw [succ_eq_mod hi, ha, ← Nat.add_assoc, Nat.mod_add_mod]
  · rcases Nat.lt_succ_iff_lt_or_eq.1 hm with hm | rfl
    · exact hP m hm
    · rwa [← ha]

/-- After `w` hops the scan has visited every index. -/
theorem all (h : Scanned w P i w) : ∀ j < w, P j := by
  obtain ⟨hi, a, -, hP⟩ := h
  intro j hj
  have hw : 0 < w := by omega
  have hr : a % w < w := Nat.mod_lt _ hw
  -- the hop that stood at `j` is the distance from `a` to `j` on the ring
  have key : (a + (j + (w - a % w)) % w) % w = j := by
    have hd := Nat.div_add_mod a w
    rw [Nat.add_mod_mod, show a + (j + (w - a % w)) = j + w * (a / w + 1) by
      rw [Nat.mul_add, Nat.mul_one]
      omega]
    rw [Nat.add_mul_mod_self_left, Nat.mod_eq_of_lt hj]
  have := hP ((j + (w - a % w)) % w) (Nat.mod_lt _ hw)
  rwa [key] at this

/-- After more hops it has as well. -/
theorem all_of_le (h : Scanned w P i n) (hn : w ≤ n) : ∀ j < w, P j := by
  obtain ⟨hi, a, -, hP⟩ := h
  have hw : Scanned w P ((a + w) % w) w :=
    ⟨Nat.mod_lt _ (by omega), a, rfl, fun m hm => hP m (hm.trans_le hn)⟩
  exact hw.all

end Scanned

end RoundRobin
