import SemanticRelaxation.TwoD.Hop
import SemanticRelaxation.Prog.Annotated

/-!
# Hopping while others take steps

The steps of `hop` and `random_index` leave the shared memory alone, so whatever a thread has seen
of the indices it left it has still seen after the next hop.
-/

namespace TwoD

open AtomicProg RoundRobin

variable {σ L Γ : Type} {S : Service σ L} {P : Protocol S Γ} {c : Caller} {v : View P c}
  {ty : Types}
  {randomHops width index random hops : ℕ}

theorem hop_onFst {τ : Type} :
    ((hop ty randomHops width index random hops : Prog σ _).onFst : Prog (σ × τ) _) =
    hop ty randomHops width index random hops := by
  unfold hop
  split <;> rfl

theorem randomIndex_rely (h : 0 < width % 2 ^ ty.index) :
    wp P c (randomIndex ty width) (fun i v' => v ≤ v' ∧ i < width) v := by
  refine wp.choose fun r v₁ h₁ => ?_
  exact ⟨h₁, (Nat.mod_lt _ h).trans_le (Nat.mod_le _ _)⟩

/-- A hop away from an index with `A` keeps the scan. -/
theorem hop_rely {A : ℕ → Prop} (hf : Fits ty randomHops width)
    (hs : Scan randomHops width A index random hops) (hp : A index) (hh : hops ≠ width) :
    wp P c (hop ty randomHops width index random hops)
      (fun r v' => v ≤ v' ∧ Scan randomHops width A r.1 r.2.1 r.2.2) v := by
  obtain ⟨hscan, hle, hring⟩ := hs
  have hlt : hops < width := lt_of_le_of_ne hle hh
  have hw := hf.width_lt
  have hr := hf.random_lt
  unfold hop
  split
  next hrand =>
    obtain rfl : hops = 0 := hring.resolve_right (not_le.2 hrand)
    refine wp.bind_of (randomIndex_rely hf.modulus) ?_
    rintro i v' ⟨hv, hi⟩
    exact ⟨hv, .start hi⟩
  next hring' =>
    rw [Nat.mod_eq_of_lt (show hops + 1 < 2 ^ ty.hops by omega)]
    exact ⟨le_rfl, hscan.hop hp, hlt, .inr (not_lt.1 hring')⟩

end TwoD
