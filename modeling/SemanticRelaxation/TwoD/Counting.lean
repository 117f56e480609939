import SemanticRelaxation.Prog.Sequential
import Mathlib.Algebra.BigOperators.Intervals
import Mathlib.Algebra.Order.BigOperators.Group.Finset
import Mathlib.Algebra.Order.Group.Abs
import Mathlib.Tactic.Ring

/-!
# Counters that are spread over sub-counters

Calls on a counter that are executed one at a time, with the states around them (`SeqCalls`), and
the true total of the counter: the increments minus the decrements that changed a sub-counter.

* `total_eq`: the total is the sum of the sub-counters;
* `Even.estimate`: a sub-counter times the width is near the sum if the sub-counters are near each
  other.
-/

namespace TwoD

open AtomicProg

variable {σ L Call Ret : Type}

/-- A call with the states around it. -/
structure Event (σ Call Ret : Type) where
  call : Call
  before : σ
  ret : Ret
  after : σ

/-- Calls executed one at a time, the latest one first, with the thread-local states of all threads.
-/
inductive SeqCalls (code : Call → L → Prog σ (L × Ret)) (s₀ : σ) (l₀ : L) :
    List (Event σ Call Ret) → σ → (ℕ → L) → Prop
  | init : SeqCalls code s₀ l₀ [] s₀ fun _ => l₀
  | call {es : List (Event σ Call Ret)} {s s' : σ} {ls : ℕ → L} {l : L} {r : Ret}
      {tr : List (σ × σ)} (t : ℕ) (c : Call) (hs : SeqCalls code s₀ l₀ es s ls)
      (hr : (code c (ls t)).Runs s (l, r) s' tr) :
      SeqCalls code s₀ l₀ (⟨c, s, r, s'⟩ :: es) s' (Function.update ls t l)

/-- Every call keeps `Inv` and `Loc`, and is good: then all calls of a run are. -/
theorem SeqCalls.invariant {code : Call → L → Prog σ (L × Ret)} {s₀ s : σ} {l₀ : L} {ls : ℕ → L}
    {es : List (Event σ Call Ret)} (Inv : σ → Prop) (Loc : L → σ → Prop)
    (Good : Event σ Call Ret → Prop) (h₀ : Inv s₀) (hl₀ : Loc l₀ s₀)
    (step : ∀ c l s, Inv s → Loc l s → Total (.trivial σ) (fun r s' => Inv s' ∧ Loc r.1 s' ∧
      (∀ l', Loc l' s → Loc l' s') ∧ Good ⟨c, s, r.2, s'⟩) (code c l) s)
    (h : SeqCalls code s₀ l₀ es s ls) : Inv s ∧ (∀ t, Loc (ls t) s) ∧ ∀ e ∈ es, Good e := by
  induction h with
  | init => exact ⟨h₀, fun _ => hl₀, nofun⟩
  | @call es s s' ls l r tr t c _ hr ih =>
    obtain ⟨hi, hl, hg⟩ := ih
    obtain ⟨⟨hi', hl', hk, hgood⟩, -⟩ := (step c (ls t) s hi (hl t)).runs hr fun _ _ => True.intro
    refine ⟨hi', fun u => ?_, ?_⟩
    · by_cases hu : u = t
      · subst hu
        rwa [Function.update_self]
      · rw [Function.update_of_ne hu]
        exact hk _ (hl u)
    · simp only [List.mem_cons]
      rintro e (rfl | he)
      · exact hgood
      · exact hg e he

/-- The calls of a counter. -/
inductive CounterCall
  | increment
  | decrement

/-- A sub-counter has changed. -/
def Changed (width : ℕ) (c c' : ℕ → ℕ) : Prop := ∃ j < width, c' j ≠ c j

instance (width : ℕ) (c c' : ℕ → ℕ) : Decidable (Changed width c c') :=
  inferInstanceAs (Decidable (∃ j < width, _))

/-- The increments minus the decrements that changed a sub-counter. -/
def total (width : ℕ) (count : σ → ℕ → ℕ) : List (Event σ CounterCall Ret) → ℤ
  | [] => 0
  | e :: es => total width count es + match e.call with
    | .increment => 1
    | .decrement => if Changed width (count e.before) (count e.after) then -1 else 0

/-- Sub-counter `j` is one higher in `c'` than in `c`. -/
def Bump (width j : ℕ) (c c' : ℕ → ℕ) : Prop :=
  j < width ∧ ∀ i < width, c' i = c i + if i = j then 1 else 0

/-- What a call does to the sub-counters. -/
def Counts (width : ℕ) (c c' : ℕ → ℕ) : CounterCall → Prop
  | .increment => ∃ j, Bump width j c c'
  | .decrement => (∀ i < width, c' i = c i) ∨ ∃ j, Bump width j c' c

theorem Bump.sum {width j : ℕ} {c c' : ℕ → ℕ} (h : Bump width j c c') :
    ∑ i ∈ Finset.range width, (c' i : ℤ) = ∑ i ∈ Finset.range width, (c i : ℤ) + 1 := by
  have hone : ∑ i ∈ Finset.range width, (if i = j then 1 else 0 : ℤ) = 1 := by
    simp [h.1]
  rw [← hone, ← Finset.sum_add_distrib]
  apply Finset.sum_congr rfl
  intro i hi
  rw [h.2 i (Finset.mem_range.1 hi)]
  split <;> simp

theorem Bump.changed {width j : ℕ} {c c' : ℕ → ℕ} (h : Bump width j c' c) : Changed width c c' := by
  have hj := h.2 j h.1
  rw [if_pos rfl] at hj
  exact ⟨j, h.1, by omega⟩

/-- The total is the sum of the sub-counters. -/
theorem total_eq {code : CounterCall → L → Prog σ (L × Ret)} {s₀ s : σ} {l₀ : L} {ls : ℕ → L}
    {es : List (Event σ CounterCall Ret)} {width : ℕ} {count : σ → ℕ → ℕ}
    (h₀ : ∀ j < width, count s₀ j = 0) (h : SeqCalls code s₀ l₀ es s ls)
    (hc : ∀ e ∈ es, Counts width (count e.before) (count e.after) e.call) :
    total width count es = ∑ j ∈ Finset.range width, (count s j : ℤ) := by
  induction h with
  | init =>
    rw [total, Finset.sum_eq_zero]
    intro j hj
    rw [h₀ j (Finset.mem_range.1 hj), Nat.cast_zero]
  | @call es s s' ls l r tr t c _ _ ih =>
    have ih := ih fun e he => hc e (List.mem_cons_of_mem _ he)
    have hcall : Counts width (count s) (count s') c := hc _ (List.mem_cons_self ..)
    rw [total, ih]
    cases c with
    | increment =>
      obtain ⟨j, hj⟩ := hcall
      exact hj.sum.symm
    | decrement =>
      dsimp only
      rcases hcall with hsame | ⟨j, hj⟩
      · have hno : ¬ Changed width (count s) (count s') := by
          rintro ⟨j, hlt, hne⟩
          exact hne (hsame j hlt)
        rw [if_neg hno, add_zero]
        apply Finset.sum_congr rfl
        intro i hi
        rw [hsame i (Finset.mem_range.1 hi)]
      · rw [if_pos hj.changed, hj.sum]
        ring

/-- No two sub-counters are more than `k` apart. -/
def Even (width k : ℕ) (c : ℕ → ℕ) : Prop := ∀ i < width, ∀ j < width, c i ≤ c j + k

/-- One of the sub-counters, taken for all of them. -/
theorem Even.estimate {width k i : ℕ} {c : ℕ → ℕ} (h : Even width k c) (hi : i < width) :
    |((c i * width : ℕ) : ℤ) - ∑ j ∈ Finset.range width, (c j : ℤ)| ≤ k * (width - 1 : ℕ) := by
  have hwhole : ((c i * width : ℕ) : ℤ) = ∑ _j ∈ Finset.range width, (c i : ℤ) := by
    simp [mul_comm]
  have hmem := Finset.mem_range.2 hi
  rw [hwhole, ← Finset.sum_sub_distrib, ← Finset.sum_erase_add _ _ hmem, sub_self, add_zero]
  calc |∑ j ∈ (Finset.range width).erase i, ((c i : ℤ) - c j)|
      ≤ ∑ j ∈ (Finset.range width).erase i, |(c i : ℤ) - c j| := Finset.abs_sum_le_sum_abs _ _
    _ ≤ ∑ _j ∈ (Finset.range width).erase i, (k : ℤ) := by
        apply Finset.sum_le_sum
        intro j hj
        have hj := Finset.mem_range.1 (Finset.mem_of_mem_erase hj)
        have h₁ := h i hi j hj
        have h₂ := h j hj i hi
        exact abs_le.2 ⟨by omega, by omega⟩
    _ = k * (width - 1 : ℕ) := by
        rw [Finset.sum_const, Finset.card_erase_of_mem hmem, Finset.card_range, nsmul_eq_mul,
          mul_comm]

/-- The last call has answered the total, up to the bound that the structures report on their
relaxation. -/
def Accurate (width depth : ℕ) (count : σ → ℕ → ℕ) (es : List (Event σ CounterCall ℕ)) : Prop :=
  ∀ e ∈ es.head?, |(e.ret : ℤ) - total width count es| ≤ 2 * depth * (width - 1 : ℕ)

/-- Calls that leave the sub-counters near each other, and answer one of them for all, are accurate.
-/
theorem SeqCalls.accurate {code : CounterCall → L → Prog σ (L × ℕ)} {s₀ s : σ} {l₀ : L} {ls : ℕ → L}
    {es : List (Event σ CounterCall ℕ)} {width depth k : ℕ} {count : σ → ℕ → ℕ}
    (h : SeqCalls code s₀ l₀ es s ls) (h₀ : ∀ j < width, count s₀ j = 0) (hk : k ≤ 2 * depth)
    (hgood : ∀ e ∈ es, Counts width (count e.before) (count e.after) e.call ∧
      Even width k (count e.after) ∧ ∃ i < width, e.ret = count e.after i * width) :
    Accurate width depth count es := by
  have htotal := total_eq h₀ h fun e he => (hgood e he).1
  cases h with
  | init => exact nofun
  | @call es s₁ _ _ l r _ t c _ _ =>
    intro e he
    obtain rfl : _ = e := Option.some.inj he
    obtain ⟨-, heven, i, hi, hret⟩ := hgood _ (List.mem_cons_self ..)
    have hret : r = count s i * width := hret
    rw [htotal]
    calc |((r : ℕ) : ℤ) - ∑ j ∈ Finset.range width, (count s j : ℤ)|
        ≤ k * (width - 1 : ℕ) := hret ▸ heven.estimate hi
      _ ≤ 2 * depth * (width - 1 : ℕ) := by
        apply Int.mul_le_mul_of_nonneg_right
        · exact_mod_cast hk
        · exact Int.natCast_nonneg _

end TwoD
