import SemanticRelaxation.ElasticLpwStack.Window
import SemanticRelaxation.Support.Words

/-!
# The elastic LpW stack: where a window is shifted to

`put_shift_max` and `get_shift_max` in the integer types of the source: `row_t` is `uint32_t` and
`depth_t` is `uint16_t`. What is computed of depths alone is an `int`. No operation wraps, and the
functions are those that the shift of the window uses (`putShiftMaxWords_eq`,
`getShiftMaxWords_eq`).
-/

namespace ElasticLpwStack

open Words

/-- `new_depth + 1 >> 1` for a `depth_t`. -/
def shiftWords (newDepth : ℕ) : Noted ℕ := do
  let sum ← add 31 newDepth 1
  convert 16 (sum / 2)

/-- `put_shift_max`. -/
def putShiftMaxWords (oldMax newDepth : ℕ) : Noted ℕ := do
  let shift ← shiftWords newDepth
  let newMax ← add 32 oldMax shift
  return if newMax < newDepth then newDepth else newMax

/-- `get_shift_max`. -/
def getShiftMaxWords (oldMax newDepth oldDepth : ℕ) : Noted ℕ := do
  let shift ← shiftWords newDepth
  if oldDepth = newDepth then
    let least ← add 31 shift newDepth
    if least ≤ oldMax then sub 32 oldMax shift else return newDepth
  else
    let least ← add 31 oldDepth shift
    if least ≤ oldMax then
      let oldBottom ← sub 32 oldMax oldDepth
      let newBottom ← sub 32 oldBottom shift
      add 32 newBottom newDepth
    else return newDepth

section Shift

variable {oldMax newDepth oldDepth : ℕ}

theorem shiftWords_eq (hd : newDepth < 2 ^ 16) :
    shiftWords newDepth = pure ((newDepth + 1) / 2) := by
  unfold shiftWords
  rw [add_of_lt (by omega), Noted.pure_bind, convert_of_lt (by omega)]

theorem putShiftMaxWords_eq (hd : newDepth < 2 ^ 16) (hmax : oldMax < 2 ^ 32 - 2 ^ 17) :
    putShiftMaxWords oldMax newDepth = pure (putShiftMax oldMax newDepth) := by
  unfold putShiftMaxWords putShiftMax
  have hsum : oldMax + (newDepth + 1) / 2 < 2 ^ 32 := by omega
  rw [shiftWords_eq hd, Noted.pure_bind, add_of_lt hsum, Noted.pure_bind, Nat.mod_eq_of_lt hsum]

theorem getShiftMaxWords_eq (hd : newDepth < 2 ^ 16) (hold : oldDepth < 2 ^ 16)
    (hmax : oldMax < 2 ^ 32 - 2 ^ 17) :
    getShiftMaxWords oldMax newDepth oldDepth = pure (getShiftMax oldMax newDepth oldDepth) := by
  unfold getShiftMaxWords getShiftMax
  rw [shiftWords_eq hd, Noted.pure_bind]
  by_cases heq : oldDepth = newDepth
  · rw [if_pos heq, add_of_lt (by omega), Noted.pure_bind]
    simp only [if_pos heq]
    split
    next hle => rw [sub_of_le (by omega)]
    next => rfl
  · rw [if_neg heq, add_of_lt (by omega), Noted.pure_bind]
    simp only [if_neg heq]
    split
    next hle =>
      rw [sub_of_le (by omega), Noted.pure_bind, sub_of_le (by omega), Noted.pure_bind,
        add_of_lt (by omega)]
    next => rfl

/-- The bottom moves down by the shift, but not below 0, whether the depth changes or not. -/
theorem getShiftMax_bottom (oldMax newDepth oldDepth : ℕ) :
    newDepth ≤ getShiftMax oldMax newDepth oldDepth ∧
    getShiftMax oldMax newDepth oldDepth - newDepth = (oldMax - oldDepth) - (newDepth + 1) / 2 := by
  unfold getShiftMax
  simp only
  constructor
  · split
    next heq =>
      split
      next hle => omega
      next => exact le_rfl
    next hne =>
      split
      next hle => omega
      next => exact le_rfl
  · split
    next heq =>
      split
      next hle => omega
      next hlt => omega
    next hne =>
      split
      next hle => omega
      next hlt => omega

theorem putShiftMax_eq_max (hd : newDepth < 2 ^ 16) (hmax : oldMax < 2 ^ 32 - 2 ^ 17) :
    putShiftMax oldMax newDepth = max (oldMax + (newDepth + 1) / 2) newDepth := by
  unfold putShiftMax
  rw [Nat.mod_eq_of_lt (by omega)]
  simp only
  split
  next hlt => rw [max_eq_right hlt.le]
  next hle => rw [max_eq_left (not_lt.1 hle)]

/-- The shifts in machine words: no operation wraps, the bottom of a window moves down by half the
new depth, but not below 0, and its top moves up by half the new depth, but not below the new depth.
-/
theorem shiftMax_exact (hold : oldDepth < 2 ^ 16) (hnew : newDepth < 2 ^ 16)
    (hmax : oldMax < 2 ^ 32 - 2 ^ 17) :
    (∃ newMax, getShiftMaxWords oldMax newDepth oldDepth = ⟨newMax, false⟩ ∧ newDepth ≤ newMax ∧
      (newMax : ℤ) - newDepth = max 0 ((oldMax - oldDepth : ℤ) - ((newDepth + 1) / 2 : ℕ))) ∧
    ∃ newMax, putShiftMaxWords oldMax newDepth = ⟨newMax, false⟩ ∧ newDepth ≤ newMax ∧
      newMax = max (oldMax + (newDepth + 1) / 2) newDepth := by
  obtain ⟨hdepth, hbottom⟩ := getShiftMax_bottom oldMax newDepth oldDepth
  refine ⟨⟨_, getShiftMaxWords_eq hnew hold hmax, hdepth, ?_⟩, _, putShiftMaxWords_eq hnew hmax,
    ?_, ?_⟩
  · omega
  · rw [putShiftMax_eq_max hnew hmax]
    exact le_max_right _ _
  · exact putShiftMax_eq_max hnew hmax

/-- The depth changes from 4 to 7, and the floor is met. -/
theorem shiftMax_exact_floor : getShiftMaxWords 6 7 4 = ⟨7, false⟩ ∧
    (∃ newMax, getShiftMaxWords 6 7 4 = ⟨newMax, false⟩ ∧ 7 ≤ newMax ∧
      (newMax : ℤ) - (7 : ℕ) = max 0 (((6 : ℕ) - (4 : ℕ) : ℤ) - ((7 + 1) / 2 : ℕ))) ∧
    ∃ newMax, putShiftMaxWords 6 7 = ⟨newMax, false⟩ ∧ 7 ≤ newMax ∧ newMax = max
      (6 + (7 + 1) / 2) 7 :=
  ⟨rfl, shiftMax_exact (by decide) (by decide) (by decide)⟩

end Shift

end ElasticLpwStack
