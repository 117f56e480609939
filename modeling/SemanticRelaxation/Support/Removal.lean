import SemanticRelaxation.Support.Lifo
import Mathlib.Data.List.Nodup

/-!
# Removal from a linked list

A list of nodes is linked by `next` and ends with `NULL`; the nodes carry values.

* `findBefore`: the search for a value behind a node, which counts what it passes;
* `Path.unlink`: the list without the node that has been found;
* `Path.concat`: the list with one more node at its end.
-/

namespace Lifo

variable {α : Type} {next : ℕ → Option ℕ} {val : ℕ → α} {p : Option ℕ} {n m k fuel : ℕ}
  {line pre post : List ℕ}

/-- The node before the first one behind `n` with the value `key`, and how many nodes were passed:
`k` is counted up. There is no result if the list ends before. -/
def findBefore [DecidableEq α] (next : ℕ → Option ℕ) (val : ℕ → α) (key : α) :
    ℕ → ℕ → ℕ → Option (ℕ × ℕ)
  | 0, _, _ => none
  | fuel + 1, n, k =>
    match next n with
    | none => none
    | some m => if val m = key then some (n, k) else findBefore next val key fuel m (k + 1)

theorem findBefore_eq [DecidableEq α] {key : α} (h : Path next (next n) (pre ++ m :: post))
    (hpre : ∀ x ∈ pre, val x ≠ key) (hm : val m = key) (hf : pre.length < fuel) :
    findBefore next val key fuel n k = some (pre.getLastD n, k + pre.length) := by
  induction pre generalizing n k fuel with
  | nil =>
    obtain ⟨fuel, rfl⟩ : ∃ f, fuel = f + 1 := Nat.exists_eq_add_one.2 hf
    have hn : next n = some m := h.1
    simp [findBefore, hn, hm]
  | cons x pre ih =>
    obtain ⟨fuel, rfl⟩ : ∃ f, fuel = f + 1 := Nat.exists_eq_add_one.2 (Nat.zero_lt_of_lt hf)
    obtain ⟨hn, hrest⟩ := h
    have hx : val x ≠ key := hpre x (List.mem_cons_self ..)
    have hrec : findBefore next val key fuel x (k + 1) = some (pre.getLastD x,
      k + 1 + pre.length) := ih hrest
      (fun y hy => hpre y (List.mem_cons_of_mem _ hy)) (Nat.lt_of_succ_lt_succ hf)
    rw [findBefore, hn]
    simp only [if_neg hx, hrec, List.getLastD_cons, List.length_cons]
    congr 2
    omega

theorem getLastD_mem (n : ℕ) (pre : List ℕ) : pre.getLastD n ∈ n :: pre := by
  induction pre generalizing n with
  | nil => exact List.mem_cons_self ..
  | cons x pre ih =>
    rw [List.getLastD_cons]
    exact List.mem_cons_of_mem _ (ih x)

theorem Path.next_getLastD (h : Path next p (n :: (pre ++ m :: post))) :
    next (pre.getLastD n) = some m := by
  induction pre generalizing n p with
  | nil => exact h.2.1
  | cons y pre ih =>
    rw [List.getLastD_cons]
    exact ih h.2

/-- The list without the node `m`. -/
theorem Path.unlink (h : Path next p (n :: (pre ++ m :: post)))
    (hnodup : (n :: (pre ++ m :: post)).Nodup) :
    Path (Function.update next (pre.getLastD n) (next m)) p (n :: (pre ++ post)) := by
  induction pre generalizing n p with
  | nil =>
    obtain ⟨hp, hn, hpost⟩ := h
    refine ⟨hp, ?_⟩
    show Path _ (Function.update next n (next m) n) post
    rw [Function.update_self]
    refine hpost.congr fun x hx => Function.update_of_ne ?_ _ _
    rintro rfl
    exact (List.nodup_cons.1 hnodup).1 (List.mem_cons_of_mem _ hx)
  | cons y pre ih =>
    obtain ⟨hp, hrest⟩ := h
    obtain ⟨hn, hnodup⟩ := List.nodup_cons.1 hnodup
    refine ⟨hp, ?_⟩
    rw [List.getLastD_cons, Function.update_of_ne]
    · exact ih hrest hnodup
    · intro he
      have hmem := getLastD_mem y pre
      rw [← he] at hmem
      exact hn (List.mem_append_left (m :: post) (show n ∈ y :: pre from hmem))

/-- The list with the node `m` at its end. -/
theorem Path.concat (h : Path next p (n :: pre)) (hnodup : (n :: pre).Nodup) (hm : m ∉ n :: pre)
    (hnext : next m = none) :
    Path (Function.update next (pre.getLastD n) (some m)) p (n :: pre ++ [m]) := by
  induction pre generalizing n p with
  | nil =>
    refine ⟨h.1, ?_, ?_⟩
    · show Function.update next n (some m) n = some m
      exact Function.update_self ..
    · show Function.update next n (some m) m = none
      rw [Function.update_of_ne (List.ne_of_not_mem_cons hm)]
      exact hnext
  | cons y pre ih =>
    obtain ⟨hp, hrest⟩ := h
    obtain ⟨hn, hnodup⟩ := List.nodup_cons.1 hnodup
    refine ⟨hp, ?_⟩
    rw [List.getLastD_cons, Function.update_of_ne]
    · exact ih hrest hnodup (List.not_mem_of_not_mem_cons hm)
    · intro he
      have hmem := getLastD_mem y pre
      rw [← he] at hmem
      exact hn hmem

/-- The first node with a value, and what removing it does to the list of the values. -/
theorem exists_split [DecidableEq α] {key : α} (h : key ∈ line.map val) :
    ∃ pre m post, line = pre ++ m :: post ∧
    (∀ x ∈ pre, val x ≠ key) ∧ val m = key ∧ (line.map val).idxOf key = pre.length ∧
      (line.map val).erase key = (pre ++ post).map val := by
  induction line with
  | nil => exact absurd h List.not_mem_nil
  | cons n line ih =>
    by_cases hn : val n = key
    · refine ⟨[], n, line, rfl, nofun, hn, ?_, ?_⟩
      · rw [List.map_cons, hn, List.idxOf_cons_self]
        rfl
      · rw [List.map_cons, hn, List.erase_cons_head]
        rfl
    · have hmem : key ∈ line.map val := (List.mem_cons.1 h).resolve_left (Ne.symm hn)
      obtain ⟨pre, m, post, rfl, hpre, hm, hidx, herase⟩ := ih hmem
      refine ⟨n :: pre, m, post, rfl, ?_, hm, ?_, ?_⟩
      · intro x hx
        rcases List.mem_cons.1 hx with rfl | hx
        · exact hn
        · exact hpre x hx
      · rw [List.map_cons, List.idxOf_cons_ne _ hn, hidx]
        rfl
      · rw [List.map_cons, List.erase_cons_tail (by simpa using hn), herase]
        rfl

end Lifo
