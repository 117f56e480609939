import SemanticRelaxation.Support.Linked

/-!
# A single linked queue of records

The lateral queues of the elastic structures are linked queues of records that never change once
they are linked. `m.valAt k` is the record at position `k`, counted from the first node that was
ever in the queue, and `m.last` the position of the last one.

`Single tail m` says that `tail` points to the last node. It is kept by `m.snoc tail v`, which links
a new record behind it and changes nothing at the other positions.
-/

namespace Linked

variable {α : Type}

namespace Cells

variable (m : Cells α)

/-- The last position. -/
def last : ℕ := (m.line 0).length - 1

/-- The record at a position. -/
def valAt [Inhabited α] (k : ℕ) : α := (m.deref (m.line 0)[k]?).val

/-- A new record behind the node `tail`. -/
def snoc (tail : Option ℕ) (v : α) : Cells α := (m.create v).append 0 tail m.fresh

end Cells

/-- The tail pointer is up to date. -/
structure Single (tail : Option ℕ) (m : Cells α) : Prop where
  lines : Lines 1 m
  tail : tail = (m.line 0)[m.last]?

namespace Single

variable {tail : Option ℕ} {m : Cells α} {v : α} {k l : ℕ}

theorem length_line (h : Single tail m) : (m.line 0).length = m.last + 1 := by
  have h₁ := List.length_pos_iff.2 (h.lines.ne_nil 0 one_pos)
  unfold Cells.last
  omega

theorem line_eq_some (h : Single tail m) (hk : k ≤ m.last) : ∃ n, (m.line 0)[k]? = some n := by
  have h₁ := h.length_line
  exact ⟨_, List.getElem?_eq_getElem (by omega)⟩

theorem line_eq_none (h : Single tail m) : (m.line 0)[m.last + 1]? = none :=
  List.getElem?_eq_none h.length_line.le

/-- Two positions with the same node are the same. -/
theorem pos_eq (h : Single tail m) (hk : k ≤ m.last) (he : (m.line 0)[k]? = (m.line 0)[l]?) :
    k = l := by
  obtain ⟨n, hn⟩ := h.line_eq_some hk
  exact (h.lines.inj 0 one_pos 0 one_pos _ _ _ hn (he ▸ hn)).2

/-- The tail is the last node, which has no successor. -/
theorem tail_last (h : Single tail m) :
    ∃ t, tail = some t ∧ (m.line 0)[m.last]? = some t ∧ (m.heap t).next = none ∧ t < m.fresh := by
  obtain ⟨t, ht⟩ := h.line_eq_some le_rfl
  refine ⟨t, h.tail.trans ht, ht, ?_, h.lines.lt_fresh 0 one_pos t (List.mem_of_getElem? ht)⟩
  rw [h.lines.next 0 one_pos _ _ ht, h.line_eq_none]

theorem line_snoc_eq : (m.snoc tail v).line 0 = m.line 0 ++ [m.fresh] := by
  show Function.update m.line 0 (m.line 0 ++ [m.fresh]) 0 = _
  rw [Function.update_self]

theorem last_snoc (h : Single tail m) : (m.snoc tail v).last = m.last + 1 := by
  unfold Cells.last
  rw [line_snoc_eq, List.length_append, h.length_line, List.length_singleton]
  rfl

theorem line_snoc (h : Single tail m) (hk : k ≤ m.last) :
    ((m.snoc tail v).line 0)[k]? = (m.line 0)[k]? := by
  have h₁ := h.length_line
  rw [line_snoc_eq, List.getElem?_append_left (by omega)]

theorem line_snoc_last (h : Single tail m) :
    ((m.snoc tail v).line 0)[m.last + 1]? = some m.fresh := by
  rw [line_snoc_eq, ← h.length_line, List.getElem?_concat_length]

/-! ### Following the links -/

variable [Inhabited α]

theorem next_line (h : Single tail m) (hk : k ≤ m.last) :
    (m.deref (m.line 0)[k]?).next = (m.line 0)[k + 1]? := by
  obtain ⟨n, hn⟩ := h.line_eq_some hk
  rw [hn]
  exact h.lines.next 0 one_pos _ _ hn

theorem tail_val (h : Single tail m) : (m.deref tail).val = m.valAt m.last := by
  rw [h.tail]
  rfl

theorem tail_next (h : Single tail m) : (m.deref tail).next = none := by
  obtain ⟨t, rfl, -, hn, -⟩ := h.tail_last
  exact hn

theorem create_next (h : Single tail m) : ((m.create v).deref tail).next = none := by
  obtain ⟨t, rfl, -, hn, hlt⟩ := h.tail_last
  show (Function.update m.heap m.fresh _ t).next = none
  rwa [Function.update_of_ne hlt.ne]

theorem snoc_next (h : Single tail m) : ((m.snoc tail v).deref tail).next = some m.fresh := by
  obtain ⟨t, rfl, -, -, -⟩ := h.tail_last
  exact Cells.append_next_self _ 0 t _

theorem valAt_snoc (h : Single tail m) (hk : k ≤ m.last) : (m.snoc tail v).valAt k = m.valAt k := by
  obtain ⟨n, hn⟩ := h.line_eq_some hk
  have hlt := h.lines.lt_fresh 0 one_pos _ (List.mem_of_getElem? hn)
  unfold Cells.valAt
  rw [h.line_snoc hk, hn]
  show (((m.create v).append 0 tail m.fresh).heap n).val = (m.heap n).val
  rw [Cells.append_val]
  show (Function.update m.heap m.fresh _ n).val = _
  rw [Function.update_of_ne hlt.ne]

theorem valAt_snoc_last (h : Single tail m) : (m.snoc tail v).valAt (m.last + 1) = v := by
  unfold Cells.valAt
  rw [h.line_snoc_last]
  show (((m.create v).append 0 tail m.fresh).heap m.fresh).val = v
  rw [Cells.append_val]
  show (Function.update m.heap m.fresh _ m.fresh).val = v
  rw [Function.update_self]

theorem snoc (h : Single tail m) (v : α) : Single (some m.fresh) (m.snoc tail v) := by
  obtain ⟨t, rfl, hline, hnone, hlt⟩ := h.tail_last
  refine ⟨?_, ?_⟩
  · refine (h.lines.create v).append one_pos hline h.create_next (Nat.lt_succ_self _) ?_ ?_
    · exact fun i hi hm => absurd (h.lines.lt_fresh i hi _ hm) (lt_irrefl _)
    · show (Function.update m.heap m.fresh _ m.fresh).next = none
      rw [Function.update_self]
  · rw [h.last_snoc, h.line_snoc_last]

end Single

end Linked
