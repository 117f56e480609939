import Mathlib.Tactic.NormNum
import Mathlib.Tactic.Common

/-!
# The parameters of a queue (`create_queue` of the optimized 2Dd queue and of the elastic LaW queue)

Both versions derive width and depth from the bound on the relaxation in the same way, in one of
four modes. The bound has 64 bits, width and depth have 16, and what is assigned to them is cut off.

* `deriveParameters`: the four modes;
* `createQueue_iff`: what is stored is sound exactly if nothing is cut off to zero, and if in mode 0
  the product fits into an `int`.
-/

namespace CreateQueue

/-- The arguments of a call, at least 1 and of the types of the source. -/
structure Request where
  numThreads : ℕ
  width : ℕ
  depth : ℕ
  kMode : ℕ
  relaxationBound : ℕ
  numThreads_pos : 1 ≤ numThreads
  width_pos : 1 ≤ width
  depth_pos : 1 ≤ depth
  bound_pos : 1 ≤ relaxationBound
  numThreads_lt : numThreads < 2 ^ 64
  width_lt : width < 2 ^ 16
  depth_lt : depth < 2 ^ 16
  bound_lt : relaxationBound < 2 ^ 64
  kMode_le : kMode ≤ 3

/-- The three variables that are derived, and stored in the set. -/
structure Parameters where
  width : ℕ
  depth : ℕ
  relaxationBound : ℕ
  deriving DecidableEq

/-- An assignment to a `width_t` or `depth_t`. A sum or product that wraps at 2^64 before is cut off
to the same. -/
def cut (x : ℕ) : ℕ := x % 2 ^ 16

/-- A product of two `uint16_t`, which is an `int`, as a `uint64_t`. A product from 2^31 on
overflows: here it wraps, as it does in the instruction for it. -/
def product (a b : ℕ) : ℕ := if a * b < 2 ^ 31 then a * b else a * b + (2 ^ 64 - 2 ^ 32)

/-- The body of the modes 3 and 1, where the width is given. -/
def fixedWidth (width relaxationBound : ℕ) : Parameters :=
  if width < 2 then ⟨1, cut relaxationBound, 0⟩
  else
    let depth := cut (relaxationBound / (width - 1))
    if depth < 1 then ⟨cut (relaxationBound / 1 + 1), 1, relaxationBound⟩ else ⟨width, depth,
      relaxationBound⟩

/-- The body of the mode 2, where the depth is given. -/
def fixedDepth (depth relaxationBound : ℕ) : Parameters :=
  let width := cut (relaxationBound / depth + 1)
  if width < 1 then ⟨1, cut relaxationBound, 0⟩ else ⟨width, depth, relaxationBound⟩

/-- The part of `create_queue` that calculates width and depth. -/
def deriveParameters (r : Request) : Parameters :=
  if r.kMode = 3 then fixedWidth (cut (r.numThreads * r.width)) r.relaxationBound
  else if r.kMode = 2 then fixedDepth r.depth r.relaxationBound
  else if r.kMode = 1 then fixedWidth r.width r.relaxationBound
  else ⟨r.width, r.depth, product r.depth (r.width - 1)⟩

/-- `create_queue` of the optimized 2Dd queue: what is stored, and whether the assertion `depth !=
0` in `initialize_global_window`, which is called then, holds. -/
def optimizedCreateQueue (r : Request) : Parameters × Bool :=
  let set := deriveParameters r
  (set, set.depth ≠ 0)

/-- `create_queue` of the elastic LaW queue: what is stored, and `max_width`. -/
def elasticLawCreateQueue (r : Request) (maxWidth : ℕ) : Parameters × ℕ :=
  let set := deriveParameters r
  (set, if maxWidth < set.width then set.width else maxWidth)

/-! ### What the parameters should be -/

/-- The parameters make sense, and they are as relaxed as requested at most. -/
structure Sound (r : Request) (set : Parameters) : Prop where
  width : 1 ≤ set.width
  depth : 1 ≤ set.depth
  bounded : r.kMode ∈ [1, 2, 3] → set.depth * (set.width - 1) ≤ r.relaxationBound
  exact : r.kMode = 0 → set.relaxationBound = set.depth * (set.width - 1)

/-- With this width, nothing is cut off to zero. -/
def WidthFits (width relaxationBound : ℕ) : Prop :=
  if width < 2 then cut relaxationBound ≠ 0
  else ¬(cut (relaxationBound / (width - 1)) = 0 ∧ cut (relaxationBound + 1) = 0)

/-- The requests for which the types suffice. -/
def Fits (r : Request) : Prop :=
  (r.kMode = 3 → WidthFits (cut (r.numThreads * r.width)) r.relaxationBound) ∧
  (r.kMode = 2 → ¬(cut (r.relaxationBound / r.depth + 1) = 0 ∧ cut r.relaxationBound = 0)) ∧
  (r.kMode = 1 → WidthFits r.width r.relaxationBound) ∧
  (r.kMode = 0 → r.depth * (r.width - 1) < 2 ^ 31)

theorem cut_le (x : ℕ) : cut x ≤ x := Nat.mod_le _ _

theorem one_le_cut {x : ℕ} : 1 ≤ cut x ↔ cut x ≠ 0 := Nat.one_le_iff_ne_zero

/-- The modes 3 and 1: the product is never larger than the bound. -/
theorem fixedWidth_iff {width bound : ℕ} :
    (1 ≤ (fixedWidth width bound).width ∧ 1 ≤ (fixedWidth width bound).depth ∧
    (fixedWidth width bound).depth * ((fixedWidth width bound).width - 1) ≤ bound) ↔
    WidthFits width bound := by
  unfold fixedWidth WidthFits
  by_cases hw : width < 2
  · simp only [if_pos hw]
    rw [one_le_cut]
    exact ⟨fun h => h.2.1, fun h => ⟨Nat.le_refl _, h, by omega⟩⟩
  · simp only [if_neg hw]
    have hdiv : bound / (width - 1) * (width - 1) ≤ bound := Nat.div_mul_le_self _ _
    by_cases hd : cut (bound / (width - 1)) < 1
    · have hzero : cut (bound / (width - 1)) = 0 := by omega
      simp only [if_pos hd, Nat.div_one]
      rw [one_le_cut]
      refine ⟨fun h he => h.1 he.2, fun h => ⟨fun he => h ⟨hzero, he⟩, Nat.le_refl _, ?_⟩⟩
      have hle := cut_le (bound + 1)
      omega
    · simp only [if_neg hd]
      refine ⟨fun _ he => hd (by omega), fun _ => ⟨by omega, by omega, ?_⟩⟩
      exact (Nat.mul_le_mul_right _ (cut_le _)).trans hdiv

/-- The mode 2. -/
theorem fixedDepth_iff {depth bound : ℕ} (hdepth : 1 ≤ depth) :
    (1 ≤ (fixedDepth depth bound).width ∧
    1 ≤ (fixedDepth depth bound).depth ∧
      (fixedDepth depth bound).depth * ((fixedDepth depth bound).width - 1) ≤ bound) ↔
    ¬(cut (bound / depth + 1) = 0 ∧ cut bound = 0) := by
  unfold fixedDepth
  have hdiv : depth * (bound / depth) ≤ bound := Nat.mul_div_le _ _
  by_cases hw : cut (bound / depth + 1) < 1
  · have hzero : cut (bound / depth + 1) = 0 := by omega
    simp only [if_pos hw]
    rw [one_le_cut]
    exact ⟨fun h he => h.2.1 he.2, fun h => ⟨Nat.le_refl _, fun he => h ⟨hzero, he⟩, by omega⟩⟩
  · simp only [if_neg hw]
    refine ⟨fun _ he => hw (by omega), fun _ => ⟨by omega, hdepth, ?_⟩⟩
    have hle := cut_le (bound / depth + 1)
    calc depth * (cut (bound / depth + 1) - 1) ≤ depth * (bound / depth) :=
      Nat.mul_le_mul_left _ (by omega)
      _ ≤ bound := hdiv

/-- The mode 0. -/
theorem product_eq_iff {a b : ℕ} : product a b = a * b ↔ a * b < 2 ^ 31 := by
  unfold product
  by_cases h : a * b < 2 ^ 31
  · rw [if_pos h]
    exact ⟨fun _ => h, fun _ => rfl⟩
  · rw [if_neg h]
    have hpos : 0 < 2 ^ 64 - 2 ^ 32 := by norm_num
    refine ⟨fun he => ?_, fun he => absurd he h⟩
    omega

theorem sound_iff (r : Request) : Sound r (deriveParameters r) ↔ Fits r := by
  have hparts : ∀ set : Parameters, r.kMode ≠ 0 → (Sound r set ↔
      1 ≤ set.width ∧ 1 ≤ set.depth ∧ set.depth * (set.width - 1) ≤ r.relaxationBound) := by
    intro set hmode
    have hle := r.kMode_le
    have hmem : r.kMode ∈ [1, 2, 3] := by
      simp only [List.mem_cons, List.not_mem_nil, or_false]
      omega
    exact ⟨fun h => ⟨h.width, h.depth, h.bounded hmem⟩, fun h => ⟨h.1, h.2.1, fun _ => h.2.2,
      fun he => absurd he hmode⟩⟩
  unfold deriveParameters Fits
  by_cases h3 : r.kMode = 3
  · rw [if_pos h3, hparts _ (by omega), fixedWidth_iff]
    exact ⟨fun h => ⟨fun _ => h, by omega, by omega, by omega⟩, fun h => h.1 h3⟩
  · rw [if_neg h3]
    by_cases h2 : r.kMode = 2
    · rw [if_pos h2, hparts _ (by omega), fixedDepth_iff r.depth_pos]
      exact ⟨fun h => ⟨by omega, fun _ => h, by omega, by omega⟩, fun h => h.2.1 h2⟩
    · rw [if_neg h2]
      by_cases h1 : r.kMode = 1
      · rw [if_pos h1, hparts _ (by omega), fixedWidth_iff]
        exact ⟨fun h => ⟨by omega, by omega, fun _ => h, by omega⟩, fun h => h.2.2.1 h1⟩
      · have h0 : r.kMode = 0 := by
          have hle := r.kMode_le
          omega
        rw [if_neg h1]
        constructor
        · intro h
          exact ⟨by omega, by omega, by omega, fun _ => product_eq_iff.1 (h.exact h0)⟩
        · intro h
          refine ⟨r.width_pos, r.depth_pos, fun hmem => ?_, fun _ => product_eq_iff.2 (h.2.2.2 h0)⟩
          rw [h0] at hmem
          exact absurd hmem (by decide)

/-- In both versions the stored parameters are sound if and only if the types suffice for the
request. -/
theorem createQueue_iff (r : Request) (maxWidth : ℕ) :
    (Sound r (optimizedCreateQueue r).1 ↔ Fits r) ∧ (Sound r (elasticLawCreateQueue r maxWidth).1 ↔
      Fits r) :=
  ⟨sound_iff r, sound_iff r⟩

/-- One thread, a width of 1 and a bound of 2^16, in mode 3: the depth is 0. -/
def bound65536 : Request :=
  ⟨1, 1, 1, 3, 65536, by decide, by decide, by decide, by decide, by decide, by decide, by
    decide, by decide, by decide⟩

theorem createQueue_misses : (optimizedCreateQueue bound65536).1.depth = 0 ∧
    (elasticLawCreateQueue bound65536 1).1.depth = 0 ∧ ¬Sound bound65536
    (optimizedCreateQueue bound65536).1 ∧
    ¬Sound bound65536 (elasticLawCreateQueue bound65536 1).1 := by
  have hdepth : (deriveParameters bound65536).depth = 0 := by decide
  refine ⟨hdepth, hdepth, fun h => ?_, fun h => ?_⟩
  · exact absurd h.depth (by
      show ¬1 ≤ (deriveParameters bound65536).depth
      rw [hdepth]
      decide)
  · exact absurd h.depth (by
      show ¬1 ≤ (deriveParameters bound65536).depth
      rw [hdepth]
      decide)

end CreateQueue
