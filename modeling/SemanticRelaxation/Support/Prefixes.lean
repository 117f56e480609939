import Mathlib.Data.Nat.Notation

/-!
# Lists that only grow at their end

The entries of a list stay where they are when others are appended.
-/

namespace List

variable {α : Type} {l l' : List α} {p : ℕ} {a b : α}

theorem IsPrefix.getElem?_of_lt (h : l <+: l') (hp : p < l.length) : l'[p]? = l[p]? := by
  rw [List.getElem?_eq_getElem hp]
  exact List.prefix_iff_getElem?.1 h p hp

theorem IsPrefix.getElem?_of_some (h : l <+: l') (ha : l[p]? = some a) : l'[p]? = some a :=
  (h.getElem?_of_lt (List.getElem?_eq_some_iff.1 ha).1).trans ha

/-- An entry of a list with a new last one is an old one or the new one. -/
theorem getElem?_concat_cases (h : (l ++ [b])[p]? = some a) :
    l[p]? = some a ∨ p = l.length ∧ a = b := by
  rcases Nat.lt_trichotomy p l.length with hp | rfl | hp
  · rw [List.getElem?_append_left hp] at h
    exact .inl h
  · rw [List.getElem?_concat_length] at h
    exact .inr ⟨rfl, (Option.some.inj h).symm⟩
  · rw [List.getElem?_eq_none (by rw [List.length_append]; exact hp)] at h
    cases h

end List
