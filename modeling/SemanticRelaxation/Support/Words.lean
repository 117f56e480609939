import Mathlib.Algebra.Group.Nat.Defs
import Mathlib.Algebra.Group.Int.Defs

/-!
# Words

Counters that only grow are natural numbers. Where the code subtracts, the result of a word of `w`
bits is written out, and so is what an `int` keeps of a `uint64_t`.

`Noted` is for expressions that are to be free of wraps: the operations on words of `w` bits, with a
note whether any of them so far has wrapped or lost bits. An expression of the source is written in
`do` notation, one operation a line; the lemmas `add_of_lt`, `sub_of_le` and `convert_of_lt` take
the exact operations out of it one after the other.
-/

namespace Words

/-- `a - b` on unsigned words of `w` bits. -/
def usub (w a b : ℕ) : ℕ := if b ≤ a then a - b else a + 2 ^ w - b

theorem usub_of_le {w a b : ℕ} (h : b ≤ a) : usub w a b = a - b := if_pos h

/-- A `uint64_t` as an `int`. -/
def toInt (n : ℕ) : ℤ := (n : ℤ).bmod (2 ^ 32)

/-- An `int` as a `uint64_t`: the sign is extended. -/
def extend (m : ℤ) : ℕ := (m % 2 ^ 64).toNat

theorem toInt_of_lt {n : ℕ} (h : n < 2 ^ 31) : toInt n = n :=
  Int.bmod_eq_of_le (by omega) (by omega)

/-- Two numbers that fit into 32 bits are not the same `int`. -/
theorem toInt_ne {a b : ℕ} (h : a < b) (hb : b < 2 ^ 32) : toInt a ≠ toInt b := by
  intro he
  have hmod : ((a : ℤ).bmod (2 ^ 32)) % (2 ^ 32 : ℕ) = ((b : ℤ).bmod (2 ^ 32)) % (2 ^ 32 : ℕ) :=
    congrArg (· % ((2 ^ 32 : ℕ) : ℤ)) he
  rw [Int.bmod_emod, Int.bmod_emod] at hmod
  omega

/-- What fits into an `int` comes back. -/
theorem extend_toInt {n : ℕ} (h : n < 2 ^ 31) : extend (toInt n) = n := by
  rw [toInt_of_lt h, extend]
  omega

/-- What comes back is a number that fits into an `int`, or one with the sign extended. -/
theorem extend_toInt_cases (n : ℕ) :
    extend (toInt n) < 2 ^ 31 ∧ extend (toInt n) ≤ n ∨ 2 ^ 63 ≤ extend (toInt n) := by
  unfold extend toInt
  rw [Int.bmod_def]
  split
  · omega
  · omega

/-! ### Operations with a record of wraps -/

/-- A value, and whether an operation on the way to it has wrapped. -/
structure Noted (α : Type) where
  value : α
  wrapped : Bool

instance : Monad Noted where
  pure a := ⟨a, false⟩
  bind x f := ⟨(f x.value).value, x.wrapped || (f x.value).wrapped⟩

/-- `a + b`. -/
def add (w a b : ℕ) : Noted ℕ := ⟨(a + b) % 2 ^ w, decide (2 ^ w ≤ a + b)⟩

/-- `a - b`. -/
def sub (w a b : ℕ) : Noted ℕ := ⟨usub w a b, decide (a < b)⟩

/-- A conversion to a word of `w` bits. -/
def convert (w a : ℕ) : Noted ℕ := ⟨a % 2 ^ w, decide (2 ^ w ≤ a)⟩

section Exact

variable {w a b : ℕ} {α β : Type}

@[simp] theorem Noted.pure_bind (x : α) (f : α → Noted β) : (pure x >>= f) = f x := rfl

theorem add_of_lt (h : a + b < 2 ^ w) : add w a b = pure (a + b) := by
  unfold add
  rw [Nat.mod_eq_of_lt h, decide_eq_false (Nat.not_le.2 h)]
  rfl

theorem sub_of_le (h : b ≤ a) : sub w a b = pure (a - b) := by
  unfold sub
  rw [usub_of_le h, decide_eq_false (Nat.not_lt.2 h)]
  rfl

theorem convert_of_lt (h : a < 2 ^ w) : convert w a = pure a := by
  unfold convert
  rw [Nat.mod_eq_of_lt h, decide_eq_false (Nat.not_le.2 h)]
  rfl

end Exact

end Words
