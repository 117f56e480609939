import Mathlib.Data.Nat.Notation
import Mathlib.Algebra.Order.Group.Nat
import Mathlib.Data.Nat.ModEq

/-!
# Words in a file

* `toBytes k x`: the `k` bytes of a word, the lowest one first, and `ofBytes` the word of some
  bytes;
* `wordAt`: the word of 64 bits at an offset in a file. Behind the end of a file there are zeros;
* `wordAt_words`: what is written word by word is read back.
-/

namespace Bytes

/-- The `k` bytes of a word. -/
def toBytes : ℕ → ℕ → List UInt8
  | 0, _ => []
  | k + 1, x => UInt8.ofNat x :: toBytes k (x / 256)

/-- The word of some bytes. -/
def ofBytes : List UInt8 → ℕ
  | [] => 0
  | b :: l => b.toNat + 256 * ofBytes l

@[simp] theorem toBytes_length (k x : ℕ) : (toBytes k x).length = k := by
  induction k generalizing x with
  | zero => rfl
  | succ k ih => rw [toBytes, List.length_cons, ih]

theorem ofBytes_toBytes (k x : ℕ) : ofBytes (toBytes k x) = x % 256 ^ k := by
  induction k generalizing x with
  | zero => rw [pow_zero, Nat.mod_one]; rfl
  | succ k ih =>
    have hbyte : (UInt8.ofNat x).toNat = x % 256 := UInt8.toNat_ofNat'
    rw [toBytes, ofBytes, ih, hbyte, pow_succ', Nat.mod_mul]

/-- The words of 64 bits, one after another. -/
def words (l : List ℕ) : List UInt8 := l.flatMap (toBytes 8)

/-- The word of 64 bits at an offset. -/
def wordAt (file : List UInt8) (offset : ℕ) : ℕ := ofBytes ((file.drop offset).take 8)

variable {l : List ℕ} {i x : ℕ}

theorem words_cons (y : ℕ) : words (y :: l) = toBytes 8 y ++ words l := rfl

theorem wordAt_words (hi : l[i]? = some x) (hx : x < 2 ^ 64) : wordAt (words l) (8 * i) = x := by
  induction l generalizing i with
  | nil => cases hi
  | cons y l ih =>
    unfold wordAt at ih ⊢
    rw [words_cons]
    cases i with
    | zero =>
      obtain rfl := Option.some.inj hi
      rw [Nat.mul_zero, List.drop_zero, List.take_left' (toBytes_length 8 y), ofBytes_toBytes]
      exact Nat.mod_eq_of_lt hx
    | succ i =>
      have hskip : 8 * (i + 1) = (toBytes 8 y).length + 8 * i := by
        rw [toBytes_length, Nat.mul_succ, Nat.add_comm]
      rw [hskip, ← List.drop_drop, List.drop_left]
      exact ih hi

end Bytes
