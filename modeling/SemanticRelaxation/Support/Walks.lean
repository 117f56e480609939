import Mathlib.Data.Finset.Card
import Mathlib.Data.Fintype.Card
import Mathlib.Data.Nat.Find
import Mathlib.Order.Bounds.Basic

/-!
# Walks and distances

Walks of a directed graph that is given by its edges, from a fixed vertex.

* `Shortest.lt_card`: a shortest walk has fewer steps than the graph has vertices, since each step
  leads to a vertex at a new distance;
* `Walk.exact`: labels of the vertices that are lengths of walks, and that no edge can lower, are
  the distances.
-/

namespace Walks

variable {α : Type} {E : α → α → Prop} {a u v : α} {k : ℕ}

/-- A walk of `k` edges from `a`. -/
inductive Walk (E : α → α → Prop) (a : α) : ℕ → α → Prop
  | nil : Walk E a 0 a
  | step {k : ℕ} {u v : α} (h : Walk E a k u) (e : E u v) : Walk E a (k + 1) v

/-- The length of a shortest walk. -/
def Shortest (E : α → α → Prop) (a v : α) (k : ℕ) : Prop := IsLeast {n | Walk E a n v} k

theorem Walk.mem {S : Finset α} (ha : a ∈ S) (hS : ∀ u ∈ S, ∀ v, E u v → v ∈ S) (h : Walk E a k v) :
    v ∈ S := by
  induction h with
  | nil => exact ha
  | step _ e ih => exact hS _ ih _ e

theorem Walk.exists_shortest (h : Walk E a k v) : ∃ n ≤ k, Shortest E a v n := by
  classical
  have hex : ∃ n, Walk E a n v := ⟨k, h⟩
  exact ⟨Nat.find hex, Nat.find_min' hex h, Nat.find_spec hex, fun n hn => Nat.find_min' hex hn⟩

namespace Shortest

theorem unique {m : ℕ} (h : Shortest E a v k) (h' : Shortest E a v m) : k = m := IsLeast.unique h h'

/-- The last vertex before the end is closer by one. -/
theorem pred (h : Shortest E a v (k + 1)) : ∃ u, Shortest E a u k ∧ E u v := by
  obtain ⟨hw, hle⟩ := h
  cases hw with
  | @step _ u _ hw e =>
    refine ⟨u, ⟨hw, fun n hn => ?_⟩, e⟩
    have hn' : k + 1 ≤ n + 1 := hle (Walk.step hn e)
    omega

/-- There are vertices at all smaller distances. -/
theorem level (h : Shortest E a v k) {j : ℕ} (hj : j ≤ k) : ∃ u, Shortest E a u j := by
  induction k generalizing v with
  | zero =>
    obtain rfl : j = 0 := Nat.le_zero.1 hj
    exact ⟨v, h⟩
  | succ k ih =>
    rcases Nat.le_succ_iff.1 hj with hj | rfl
    · obtain ⟨u, hu, -⟩ := h.pred
      exact ih hu hj
    · exact ⟨v, h⟩

theorem lt_card {S : Finset α} (ha : a ∈ S) (hS : ∀ u ∈ S, ∀ v, E u v → v ∈ S)
    (h : Shortest E a v k) :
    k < S.card := by
  choose f hf using fun j : Fin (k + 1) => h.level (Nat.lt_succ_iff.1 j.2)
  have hinj : Function.Injective f := fun i j he => Fin.ext ((hf i).unique (he ▸ hf j))
  have hle : (Finset.univ.map ⟨f, hinj⟩).card ≤ S.card := by
    refine Finset.card_le_card fun u hu => ?_
    obtain ⟨j, -, rfl⟩ := Finset.mem_map.1 hu
    exact (hf j).1.mem ha hS
  rw [Finset.card_map, Finset.card_univ, Fintype.card_fin] at hle
  exact hle

end Shortest

/-- Labels up to `M`, where `M` stands for no walk. They are the distances if those below `M` are
lengths of walks, and no edge leads to a label that could be lowered. -/
theorem Walk.exact {S : Finset α} {d : α → ℕ} {M : ℕ} (ha : a ∈ S) (hS : ∀ u ∈ S, ∀ v, E u v →
      v ∈ S)
    (hM : S.card ≤ M) (hle : ∀ v, d v ≤ M) (hroot : d a = 0) (hsound : ∀ v, d v < M → Walk E a
      (d v) v)
    (hclosed : ∀ u ∈ S, d u < M → ∀ v, E u v → d v ≤ d u + 1) (v : α) :
    Shortest E a v (d v) ∨ (∀ k, ¬ Walk E a k v) ∧ d v = M := by
  -- the labels along a shortest walk
  have hwalk : ∀ k u, Shortest E a u k → d u ≤ k := by
    intro k
    induction k with
    | zero =>
      intro u hu
      have h0 : Walk E a 0 u := hu.1
      cases h0
      exact hroot.le
    | succ k ih =>
      intro w hw
      obtain ⟨u, hu, e⟩ := hw.pred
      have hlt : k < M := (hu.lt_card ha hS).trans_le hM
      have hdu := ih u hu
      exact (hclosed u (hu.1.mem ha hS) (hdu.trans_lt hlt) w e).trans (Nat.succ_le_succ hdu)
  rcases (hle v).lt_or_eq with hlt | heq
  · refine .inl ⟨hsound v hlt, fun n hn => ?_⟩
    obtain ⟨m, hm, hshort⟩ := Walk.exists_shortest hn
    exact (hwalk m v hshort).trans hm
  · refine .inr ⟨fun k hk => ?_, heq⟩
    obtain ⟨m, -, hshort⟩ := hk.exists_shortest
    have h₁ := hwalk m v hshort
    have h₂ := hshort.lt_card ha hS
    omega

end Walks
