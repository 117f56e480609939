import SemanticRelaxation.Prog.Sequential
import SemanticRelaxation.Support.RoundRobin
import Mathlib.Tactic

/-!
# Hopping between sub-structures

All window files share one search: a thread first hops `random_hops` times to a random index, then
around the ring of the `width` sub-structures, and gives up on the window after a whole round. The
copies of `hop` and `random_index` differ in the types of their counters only (`Types`).

`Scan` is the invariant of the search: the indices left since the last random hop all have a
property `P`, so that `P` holds everywhere once the round is complete (`Scan.all`).
-/

namespace TwoD

open AtomicProg RoundRobin

/-- The sizes in bits of the C types: the parameter of `random_index`, and the counters `random`
and `hops`. -/
structure Types where
  index : ℕ
  random : ℕ
  hops : ℕ

variable {σ : Type}

/-- `random_index`. -/
def randomIndex (ty : Types) (width : ℕ) : Prog σ ℕ := do
  let r ← Prog.choose
  return r % (width % 2 ^ ty.index)

/-- `hop`: the next index, with the new values of `random` and `hops`. -/
def hop (ty : Types) (randomHops width index random hops : ℕ) : Prog σ (ℕ × ℕ × ℕ) :=
  if random < randomHops then do
    let index ← randomIndex ty width
    return (index, (random + 1) % 2 ^ ty.random, hops)
  else
    return (succ width index, random, (hops + 1) % 2 ^ ty.hops)

/-- The numbers fit their types, and `random_index` does not divide by zero. -/
structure Fits (ty : Types) (randomHops width : ℕ) : Prop where
  modulus : 0 < width % 2 ^ ty.index
  random_lt : randomHops < 2 ^ ty.random
  width_lt : width < 2 ^ ty.hops

/-- The search stands at `index` after `random` random hops and `hops` hops on the ring, and `P`
held at every index it left on the ring. -/
structure Scan (randomHops width : ℕ) (P : ℕ → Prop) (index random hops : ℕ) : Prop where
  scanned : Scanned width P index hops
  hops_le : hops ≤ width
  ring : hops = 0 ∨ randomHops ≤ random

/-- The hops left in this round. -/
def hopsLeft (randomHops width random hops : ℕ) : ℕ := (randomHops - random) + (width - hops)

variable {ty : Types} {randomHops width index random hops : ℕ} {P P' : ℕ → Prop}

namespace Fits

theorem width_pos (h : Fits ty randomHops width) : 0 < width :=
  Nat.pos_of_ne_zero fun h0 => absurd h.modulus (by simp [h0])

theorem of_lt {bits : ℕ} (hw : 0 < width) (hlt : width < 2 ^ bits) (hr : randomHops < 2 ^ ty.random)
    (hi : ty.index = bits) (hh : ty.hops = bits) : Fits ty randomHops width where
  modulus := by rwa [hi, Nat.mod_eq_of_lt hlt]
  random_lt := hr
  width_lt := by rwa [hh]

end Fits

namespace Scan

theorem lt (h : Scan randomHops width P index random hops) : index < width := h.scanned.lt

theorem start (hi : index < width) : Scan randomHops width P index random 0 :=
  ⟨.start hi, Nat.zero_le _, .inl rfl⟩

theorem mono (h : Scan randomHops width P index random hops) (hP : ∀ j < width, P j → P' j) :
    Scan randomHops width P' index random hops :=
  ⟨h.scanned.mono hP, h.hops_le, h.ring⟩

/-- A complete round has visited every index. -/
theorem all (h : Scan randomHops width P index random hops) (hh : hops = width) :
    ∀ j < width, P j := by
  obtain ⟨hs, -, -⟩ := h
  subst hh
  exact hs.all

end Scan

theorem randomIndex_spec {C : Contract σ} {s : σ} (h : 0 < width % 2 ^ ty.index) :
    Total C (fun i s' => s' = s ∧ i < width) (randomIndex ty width) s := by
  simp only [randomIndex, Total.choose_iff, Prog.pure_eq_ret, Total.ret_iff]
  intro c
  exact ⟨True.intro, (Nat.mod_lt _ h).trans_le (Nat.mod_le _ _)⟩

/-- A hop away from an index with `P` keeps the scan and leaves fewer hops. -/
theorem hop_spec {C : Contract σ} {s : σ} (hf : Fits ty randomHops width)
    (hs : Scan randomHops width P index random hops) (hp : P index) (hh : hops ≠ width) :
    Total C (fun r s' => s' = s ∧ Scan randomHops width P r.1 r.2.1 r.2.2 ∧
      hopsLeft randomHops width r.2.1 r.2.2 < hopsLeft randomHops width random hops)
      (hop ty randomHops width index random hops) s := by
  obtain ⟨hscan, hle, hring⟩ := hs
  have hlt : hops < width := lt_of_le_of_ne hle hh
  have hw := hf.width_lt
  have hr := hf.random_lt
  unfold hop
  split
  next hrand =>
    obtain rfl : hops = 0 := hring.resolve_right (not_le.2 hrand)
    refine Total.bind_of (randomIndex_spec hf.modulus) ?_
    rintro i s' ⟨rfl, hi⟩
    rw [Nat.mod_eq_of_lt (show random + 1 < 2 ^ ty.random by omega)]
    refine .ret ⟨rfl, .start hi, ?_⟩
    simp only [hopsLeft]
    omega
  next hring' =>
    rw [Nat.mod_eq_of_lt (show hops + 1 < 2 ^ ty.hops by omega)]
    refine .ret ⟨rfl, ⟨hscan.hop hp, hlt, .inr (not_lt.1 hring')⟩, ?_⟩
    simp only [hopsLeft]
    omega

end TwoD
