import SemanticRelaxation.Support.Linked

/-!
# Arrays of linked queues with rows

Linked queues whose nodes are numbered by rows: the rows of one queue increase from node to node,
but may leave gaps. A get descriptor holds the head node of its queue with its row, a put descriptor
the last node with its row. `rowOf` reads the row off the tag of an item.

`RowQueues.link` and `RowQueues.remove` keep the relation; `RowQueues.holds_iff` and
`RowQueues.present_eq_nil_iff` tell from the descriptors what is present.
-/

namespace Linked

variable {τ : Type}

/-- The rows after a node of row `r` was linked at position `p` of queue `j`. -/
def linkRow (row : ℕ → ℕ → ℕ) (j p r : ℕ) : ℕ → ℕ → ℕ :=
  fun i q => if i = j ∧ q = p then r else row i q

theorem linkRow_of_ne (row : ℕ → ℕ → ℕ) {i j q p : ℕ} (r : ℕ) (h : i = j → q ≠ p) :
    linkRow row j p r i q = row i q := if_neg fun h' => h h'.1 h'.2

theorem linkRow_self (row : ℕ → ℕ → ℕ) (j p r : ℕ) : linkRow row j p r j p = r :=
  if_pos ⟨rfl, rfl⟩

/-- Rows of earlier positions stay. -/
theorem linkRow_of_lt {m : Mem τ} {row : ℕ → ℕ → ℕ} {i j q r : ℕ} (hq : q < (m.line i).length) :
    linkRow row j (m.line j).length r i q = row i q := by
  refine linkRow_of_ne row r ?_
  rintro rfl
  exact hq.ne

theorem Mem.length_link (m : Mem τ) (idx : ℕ) (tail : Option ℕ) (node : ℕ) (tag : τ) (i : ℕ) :
    ((m.link idx tail node tag).line i).length =
      if i = idx then (m.line i).length + 1 else (m.line i).length := by
  show (Function.update m.line idx (m.line idx ++ [node]) i).length = _
  by_cases hi : i = idx
  · subst hi
    rw [Function.update_self, List.length_append, if_pos rfl, List.length_singleton]
  · rw [Function.update_of_ne hi, if_neg hi]

/-- An item of queue `j` is present. -/
def Mem.Holds (m : Mem τ) (j : ℕ) : Prop := ∃ x ∈ m.hist.present, x.idx = j

/-- The descriptors hold the head and the last node of every queue, with their rows. -/
structure RowQueues (w : ℕ) (rowOf : τ → ℕ) (get put : ℕ → Descriptor) (pos : ℕ → ℕ)
    (row : ℕ → ℕ → ℕ) (m : Mem τ) : Prop where
  lists : Queues w pos m
  pos_lt : ∀ j < w, pos j < (m.line j).length
  headNode : ∀ j < w, (get j).node = (m.line j)[pos j]?
  tailNode : ∀ j < w, (put j).node = (m.line j)[(m.line j).length - 1]?
  getCount : ∀ j < w, (get j).count = row j (pos j)
  putCount : ∀ j < w, (put j).count = row j ((m.line j).length - 1)
  row_lt : ∀ j < w, ∀ p q, p < q → q < (m.line j).length → row j p < row j q
  row_eq : ∀ x ∈ m.hist.present, rowOf x.tag = row x.idx x.pos

namespace RowQueues

variable {w : ℕ} {rowOf : τ → ℕ} {get put : ℕ → Descriptor} {pos : ℕ → ℕ} {row : ℕ → ℕ → ℕ}
  {m : Mem τ} {j p q n r : ℕ}

theorem init : RowQueues w rowOf (fun i => ⟨some i, 0⟩) (fun i => ⟨some i, 0⟩) (fun _ => 0)
    (fun _ _ => 0) (Mem.init τ w) where
  lists := .init
  pos_lt _ _ := one_pos
  headNode _ _ := rfl
  tailNode _ _ := rfl
  getCount _ _ := rfl
  putCount _ _ := rfl
  row_lt j _ p q hpq hq := by
    have hq : q < 1 := hq
    omega
  row_eq := by simp [Mem.init]

/-- A new node changes nothing but the memory. -/
theorem create (h : RowQueues w rowOf get put pos row m) (val : ℤ) :
    RowQueues w rowOf get put pos row (m.create val) :=
  { h with lists := h.lists.create val }

theorem row_le (h : RowQueues w rowOf get put pos row m) (hj : j < w) (hpq : p ≤ q)
    (hq : q < (m.line j).length) : row j p ≤ row j q := by
  rcases hpq.lt_or_eq with hlt | rfl
  · exact (h.row_lt j hj _ _ hlt hq).le
  · exact le_rfl

/-- Positions are in the order of their rows. -/
theorem lt_of_row_lt (h : RowQueues w rowOf get put pos row m) (hj : j < w)
    (hp : p < (m.line j).length) (hlt : row j p < row j q) : p < q := by
  by_contra hge
  exact absurd (h.row_le hj (not_lt.1 hge) hp) (not_le.2 hlt)

theorem row_le_put (h : RowQueues w rowOf get put pos row m) (hj : j < w)
    (hp : p < (m.line j).length) : row j p ≤ (put j).count := by
  rw [h.putCount j hj]
  exact h.row_le hj (Nat.le_sub_one_of_lt hp) (by omega)

/-- No get count passes the put count of its queue. -/
theorem get_le_put (h : RowQueues w rowOf get put pos row m) (hj : j < w) :
    (get j).count ≤ (put j).count := by
  rw [h.getCount j hj]
  exact h.row_le_put hj (h.pos_lt j hj)

theorem length_of_present (h : RowQueues w rowOf get put pos row m) {x : Item τ}
    (hx : x ∈ m.hist.present) : x.idx < w ∧ pos x.idx < x.pos ∧ x.pos < (m.line x.idx).length := by
  obtain ⟨hj, hp⟩ := h.lists.placed_present hx
  exact ⟨hj, (h.lists.behind x hx).1, (List.getElem?_eq_some_iff.1 hp).1⟩

/-- An item present lies above the get count and not above the put count of its queue. -/
theorem row_present (h : RowQueues w rowOf get put pos row m) {x : Item τ}
    (hx : x ∈ m.hist.present) :
    (get x.idx).count < rowOf x.tag ∧ rowOf x.tag ≤ (put x.idx).count := by
  obtain ⟨hj, hpos, hlen⟩ := h.length_of_present hx
  rw [h.row_eq x hx, h.getCount _ hj]
  exact ⟨h.row_lt _ hj _ _ hpos hlen, h.row_le_put hj hlen⟩

/-- The last node of a queue, which has no successor. -/
theorem tail_last (h : RowQueues w rowOf get put pos row m) (hj : j < w) :
    ∃ t, (put j).node = some t ∧ (m.line j)[(m.line j).length - 1]? = some t ∧
      (m.heap t).next = none := by
  have hlt := h.pos_lt j hj
  have ht := List.getElem?_eq_getElem
    (show (m.line j).length - 1 < (m.line j).length by omega)
  refine ⟨_, (h.tailNode j hj).trans ht, ht, ?_⟩
  rw [h.lists.lines.next j hj _ _ ht]
  exact List.getElem?_eq_none (by omega)

/-- The head and the last node of a queue are the same exactly if nothing is behind the head. -/
theorem node_eq_iff (h : RowQueues w rowOf get put pos row m) (hj : j < w) :
    (get j).node = (put j).node ↔ pos j + 1 = (m.line j).length := by
  have hlt := h.pos_lt j hj
  rw [h.headNode j hj, h.tailNode j hj]
  constructor
  · intro he
    have hg := List.getElem?_eq_getElem hlt
    rw [hg] at he
    have := (h.lists.lines.inj _ hj _ hj _ _ _ hg he.symm).2
    omega
  · intro he
    rw [← he, Nat.add_sub_cancel]

theorem holds_iff_pos (h : RowQueues w rowOf get put pos row m) (hj : j < w) :
    m.Holds j ↔ pos j + 1 < (m.line j).length := by
  constructor
  · rintro ⟨x, hx, rfl⟩
    obtain ⟨-, h₁, h₂⟩ := h.length_of_present hx
    omega
  · intro hlt
    obtain ⟨x, hx, hi, -⟩ :=
      h.lists.all j hj _ _ (Nat.lt_succ_self _) (List.getElem?_eq_getElem hlt)
    exact ⟨x, hx, hi⟩

theorem holds_iff (h : RowQueues w rowOf get put pos row m) (hj : j < w) :
    m.Holds j ↔ (get j).node ≠ (put j).node := by
  have hlt := h.pos_lt j hj
  rw [h.holds_iff_pos hj, ne_eq, h.node_eq_iff hj]
  omega

/-- A queue holds an item exactly if its put count is above its get count. -/
theorem holds_iff_count (h : RowQueues w rowOf get put pos row m) (hj : j < w) :
    m.Holds j ↔ (get j).count < (put j).count := by
  constructor
  · rintro ⟨x, hx, rfl⟩
    obtain ⟨h₁, h₂⟩ := h.row_present hx
    exact h₁.trans_le h₂
  · intro hlt
    rw [h.getCount j hj, h.putCount j hj] at hlt
    have := h.lt_of_row_lt hj (h.pos_lt j hj) hlt
    exact (h.holds_iff_pos hj).2 (by omega)

theorem present_eq_nil_iff (h : RowQueues w rowOf get put pos row m) :
    m.hist.present = [] ↔ ∀ j < w, (get j).node = (put j).node := by
  rw [h.lists.present_eq_nil_iff h.pos_lt]
  exact forall₂_congr fun j hj => (h.node_eq_iff hj).symm

/-! ### Enqueue -/

/-- A new node behind the last one of queue `j`, in a higher row, with the put descriptor. -/
theorem link (h : RowQueues w rowOf get put pos row m) (hj : j < w) {tag : τ}
    (hlt : (put j).count < rowOf tag) (hfresh : n < m.fresh) (hn : ∀ i < w, n ∉ m.line i)
    (hnext : (m.heap n).next = none) :
    RowQueues w rowOf get (Function.update put j ⟨some n, rowOf tag⟩) pos
      (linkRow row j (m.line j).length (rowOf tag)) (m.link j (put j).node n tag) := by
  have hposj := h.pos_lt j hj
  obtain ⟨t, hnode, ht, hnone⟩ := h.tail_last hj
  have hline : ∀ i q, q < (m.line i).length →
      (Function.update m.line j (m.line j ++ [n]) i)[q]? = (m.line i)[q]? := by
    intro i q hq
    by_cases hij : i = j
    · subst hij
      rw [Function.update_self, List.getElem?_append_left hq]
    · rw [Function.update_of_ne hij]
  rw [hnode]
  refine
    { lists := h.lists.link hj ht hnone hfresh hn hnext (Nat.le_sub_one_of_lt hposj) _
      pos_lt := fun i hi => ?_
      headNode := fun i hi => (h.headNode i hi).trans (hline i _ (h.pos_lt i hi)).symm
      tailNode := fun i hi => ?_
      getCount := fun i hi => (h.getCount i hi).trans (linkRow_of_lt (h.pos_lt i hi)).symm
      putCount := fun i hi => ?_
      row_lt := fun i hi p q hpq hq => ?_
      row_eq := fun x hx => ?_ }
  · have h₁ := h.pos_lt i hi
    rw [m.length_link]
    split <;> omega
  · rw [m.length_link]
    show (Function.update put j _ i).node = (Function.update m.line j (m.line j ++ [n]) i)[_]?
    by_cases hij : i = j
    · subst hij
      rw [if_pos rfl, Nat.add_sub_cancel, Function.update_self, Function.update_self,
        List.getElem?_concat_length]
    · rw [if_neg hij, Function.update_of_ne hij, Function.update_of_ne hij]
      exact h.tailNode i hi
  · have h₁ := h.pos_lt i hi
    rw [m.length_link]
    by_cases hij : i = j
    · subst hij
      rw [if_pos rfl, Nat.add_sub_cancel, Function.update_self, linkRow_self]
    · rw [if_neg hij, Function.update_of_ne hij, linkRow_of_lt (by omega)]
      exact h.putCount i hi
  · rw [m.length_link] at hq
    by_cases hnew : i = j ∧ q = (m.line j).length
    · -- the new row is above the last one of its queue
      obtain ⟨rfl, rfl⟩ := hnew
      rw [linkRow_self, linkRow_of_lt hpq]
      exact (h.row_le_put hi hpq).trans_lt hlt
    · have hq' : q < (m.line i).length := by
        by_cases hij : i = j
        · subst hij
          rw [if_pos rfl] at hq
          have : q ≠ (m.line i).length := fun e => hnew ⟨rfl, e⟩
          omega
        · rwa [if_neg hij] at hq
      rw [linkRow_of_lt hq', linkRow_of_lt (hpq.trans hq')]
      exact h.row_lt i hi p q hpq hq'
  · rcases List.mem_append.1 hx with hx | hx
    · exact (h.row_eq x hx).trans (linkRow_of_lt (h.length_of_present hx).2.2).symm
    · obtain rfl := List.mem_singleton.1 hx
      exact (linkRow_self row j _ _).symm

/-! ### Dequeue -/

/-- The item behind the head of queue `j` leaves, and the get descriptor moves to its node. -/
theorem remove (h : RowQueues w rowOf get put pos row m) (hj : j < w) (hold : m.Holds j) :
    ∃ A x B, m.hist.present = A ++ x :: B ∧ x.idx = j ∧ x.pos = pos j + 1 ∧
      (m.heap x.node).val = x.val ∧ (∀ y ∈ A, y.idx ≠ j) ∧
      (m.deref (get j).node).next = some x.node ∧
      RowQueues w rowOf (Function.update get j ⟨some x.node, rowOf x.tag⟩) put
        (Function.update pos j (pos j + 1)) row (m.remove (some x.node)) := by
  have hlen := (h.holds_iff_pos hj).1 hold
  have hnode := List.getElem?_eq_getElem hlen
  obtain ⟨A, x, B, hpres, hx, rfl, hxpos, hv, hA, hq⟩ := h.lists.remove hj hnode
  rw [← hx] at hnode hv hq
  have hrem : (m.remove (some x.node)).hist = _ := h.lists.conserved.remove_eq hpres
  have hmem : ∀ y ∈ A ++ B, y ∈ m.hist.present := by
    intro y hy
    rw [hpres]
    rcases List.mem_append.1 hy with hy | hy <;> simp [hy]
  have hrow : rowOf x.tag = row x.idx (pos x.idx + 1) := by
    rw [h.row_eq x (hpres ▸ List.mem_append_right _ (List.mem_cons_self ..)), hxpos]
  refine ⟨A, x, B, hpres, rfl, hxpos, hv, hA, ?_,
    { h with
      lists := hq
      pos_lt := fun i hi => ?_
      headNode := fun i hi => ?_
      getCount := fun i hi => ?_
      row_eq := ?_ }⟩
  · have hg := List.getElem?_eq_getElem (h.pos_lt _ hj)
    rw [h.headNode _ hj, hg]
    exact (h.lists.lines.next _ hj _ _ hg).trans hnode
  · show Function.update pos x.idx _ i < (m.line i).length
    by_cases hij : i = x.idx
    · subst hij
      rwa [Function.update_self]
    · rw [Function.update_of_ne hij]
      exact h.pos_lt i hi
  · show (Function.update get x.idx _ i).node = (m.line i)[Function.update pos x.idx _ i]?
    by_cases hij : i = x.idx
    · subst hij
      rw [Function.update_self, Function.update_self]
      exact hnode.symm
    · rw [Function.update_of_ne hij, Function.update_of_ne hij]
      exact h.headNode i hi
  · by_cases hij : i = x.idx
    · subst hij
      rw [Function.update_self, Function.update_self]
      exact hrow
    · rw [Function.update_of_ne hij, Function.update_of_ne hij]
      exact h.getCount i hi
  · rw [hrem]
    exact fun y hy => h.row_eq y (hmem y hy)

end RowQueues

end Linked
