import Mathlib.Data.Nat.ModEq

/-!
# Copies of a register that counts its writes

A thread that works with a copy of a shared register checks a version number before it trusts the
copy. If the number is the count of the writes, a copy with the present number is a copy of the
present value (`Copy.current`). If it is kept modulo `m`, this still holds of a copy whose age in
writes is not a positive multiple of `m` (`Copy.current_of_mod`).
-/

namespace Versions

variable {W : Type}

/-- A value, and how often it has been written. -/
structure Register (W : Type) where
  value : W
  writes : ℕ

variable {r r' r'' : Register W} {k m : ℕ} {w : W}

/-- The register may have been written in between. -/
def Register.Later (r r' : Register W) : Prop := r' = r ∨ r.writes < r'.writes

namespace Register.Later

theorem refl (r : Register W) : r.Later r := .inl rfl

theorem trans (h : r.Later r') (h' : r'.Later r'') : r.Later r'' := by
  rcases h with rfl | h
  · exact h'
  · rcases h' with rfl | h'
    · exact .inr h
    · exact .inr (h.trans h')

end Register.Later

/-- The value `w` was copied after `k` writes, if there have not been more. -/
structure Copy (r : Register W) (k : ℕ) (w : W) : Prop where
  le : k ≤ r.writes
  eq : k = r.writes → w = r.value

namespace Copy

theorem self (r : Register W) : Copy r r.writes r.value := ⟨le_rfl, fun _ => rfl⟩

/-- Nothing is known of the value after a write. -/
theorem old (h : k < r.writes) : Copy r k w := ⟨h.le, fun e => absurd e h.ne⟩

theorem later (h : Copy r k w) (hr : r.Later r') : Copy r' k w := by
  rcases hr with rfl | hr
  · exact h
  · exact old (h.le.trans_lt hr)

theorem current (h : Copy r k w) (he : k = r.writes) : w = r.value := h.eq he

/-- Numbers modulo `m` tell copies apart, except for those that are a multiple of `m` writes old. -/
theorem current_of_mod (h : Copy r k w) (he : k % m = r.writes % m)
    (hm : ¬ (k < r.writes ∧ m ∣ r.writes - k)) : w = r.value := by
  have hle := h.le
  have hdvd : m ∣ r.writes - k := (Nat.modEq_iff_dvd' hle).1 he
  refine h.eq ?_
  by_contra hne
  exact hm ⟨lt_of_le_of_ne hle hne, hdvd⟩

end Copy

end Versions
