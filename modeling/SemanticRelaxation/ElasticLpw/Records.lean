import SemanticRelaxation.ElasticLpw.Watched
import SemanticRelaxation.Support.Windowed

/-!
# The elastic LpW queue: what the lateral nodes record of the put windows

The lists of put windows have the latest one first.

* `History`: each put window continues the one before it;
* `recorded`: the lateral nodes for the changes of the width;
* `widthAt_recorded`: the last node with a count up to a row has the width of the put window of that
  row.
-/

namespace ElasticLpw

open Windowed

/-- The rows of a put window and its sub-queues. -/
def PutWindow.span (w : PutWindow) : Span := ⟨w.bottom, w.max, w.width⟩

/-- What holds of the fields of a put window. -/
structure PutWindow.Ok (set : Params) (w : PutWindow) : Prop where
  depth : 0 < w.depth
  width : 0 < w.width ∧ w.width ≤ set.maxWidth
  next : 0 < w.nextWidth ∧ w.nextWidth ≤ set.maxWidth

/-- The put window `w` continues the put window `p`. -/
structure PutWindow.Continues (w p : PutWindow) : Prop where
  max : w.max = p.max + w.depth
  width : w.width = p.nextWidth

/-- Put windows that continue each other, from the rows above 0 on. -/
def History (set : Params) : List PutWindow → Prop
  | [] => False
  | [w] => w.Ok set ∧ w.max = w.depth
  | w :: p :: l => w.Ok set ∧ w.Continues p ∧ History set (p :: l)

/-- The lateral nodes that record the widths of put windows. -/
def recorded : List PutWindow → List LateralNode
  | [] => []
  | [w] => [⟨0, w.width⟩]
  | w :: p :: l =>
    if p.width = w.width then recorded (p :: l) else recorded (p :: l) ++ [⟨p.max + 1, w.width⟩]

/-- The node that may be linked in the put window `w` already, for the window after it. -/
inductive Pending (w : PutWindow) : List LateralNode → Prop
  | nil : Pending w []
  | node (h : w.width ≠ w.nextWidth) : Pending w [⟨w.max + 1, w.nextWidth⟩]

namespace History

variable {set : Params} {w p u : PutWindow} {l : List PutWindow} {v : LateralNode} {row : ℕ}

theorem ok (h : History set (w :: l)) : w.Ok set := by
  cases l with
  | nil => exact h.1
  | cons => exact h.1

theorem tail (h : History set (w :: p :: l)) : History set (p :: l) := h.2.2

theorem ok_of_mem (h : History set l) (hw : w ∈ l) : w.Ok set := by
  induction l with
  | nil => cases hw
  | cons u l ih =>
    rcases List.mem_cons.1 hw with rfl | hw
    · exact h.ok
    · cases l with
      | nil => cases hw
      | cons p l => exact ih h.tail hw

theorem depth_le (h : History set (w :: l)) : w.depth ≤ w.max := by
  cases l with
  | nil => exact h.2.ge
  | cons p l => exact (Nat.le_add_left _ _).trans h.2.1.max.ge

theorem bottom_eq (h : History set (w :: l)) : w.bottom = w.max - w.depth :=
  Words.usub_of_le h.depth_le

theorem bottom_lt (h : History set (w :: l)) : w.bottom < w.max := by
  have h₁ := h.ok.depth
  have h₂ := h.depth_le
  rw [h.bottom_eq]
  omega

theorem max_pos (h : History set (w :: l)) : 0 < w.max := Nat.zero_lt_of_lt h.bottom_lt

theorem bottom_cons (h : History set (w :: p :: l)) : w.bottom = p.max := by
  rw [h.bottom_eq, h.2.1.max, Nat.add_sub_cancel]

theorem spans (h : History set l) : Spans (l.map PutWindow.span) := by
  induction l with
  | nil => exact True.intro
  | cons w l ih =>
    cases l with
    | nil =>
      refine ⟨?_, h.bottom_lt⟩
      show w.bottom = 0
      rw [h.bottom_eq, h.2, Nat.sub_self]
    | cons p l => exact ⟨h.bottom_cons, h.bottom_lt, ih h.tail⟩

/-- Earlier put windows are below the latest one. -/
theorem max_le (h : History set (w :: l)) (hu : u ∈ l) : u.max ≤ w.bottom :=
  h.spans.max_le (List.mem_map_of_mem hu)

theorem max_lt (h : History set (w :: l)) (hu : u ∈ l) : u.max < w.max :=
  (h.max_le hu).trans_lt h.bottom_lt

/-- The maximum tells the put windows apart. -/
theorem eq_of_max (h : History set (w :: l)) (hu : u ∈ w :: l) (he : u.max = w.max) : u = w := by
  rcases List.mem_cons.1 hu with rfl | hu
  · rfl
  · exact absurd he (h.max_lt hu).ne

/-! ### The recorded nodes -/

theorem count_le (h : History set (w :: l)) (hv : v ∈ recorded (w :: l)) :
    v.count ≤ w.bottom + 1 := by
  induction l generalizing w with
  | nil =>
    obtain rfl := List.mem_singleton.1 hv
    exact Nat.zero_le _
  | cons p l ih =>
    have h₁ := h.bottom_cons
    have h₂ := h.tail.bottom_lt
    unfold recorded at hv
    split at hv
    · exact (ih h.tail hv).trans (by omega)
    · rcases List.mem_append.1 hv with hv | hv
      · exact (ih h.tail hv).trans (by omega)
      · obtain rfl := List.mem_singleton.1 hv
        exact (congrArg Nat.succ h₁).ge

/-- The counts increase along the list. -/
theorem recorded_sorted (h : History set (w :: l)) :
    (recorded (w :: l)).Pairwise fun a b => a.count < b.count := by
  induction l generalizing w with
  | nil => exact List.pairwise_singleton ..
  | cons p l ih =>
    unfold recorded
    split
    · exact ih h.tail
    · refine List.pairwise_append.2 ⟨ih h.tail, List.pairwise_singleton .., fun a ha b hb => ?_⟩
      obtain rfl := List.mem_singleton.1 hb
      exact (h.tail.count_le ha).trans_lt (Nat.succ_lt_succ h.tail.bottom_lt)

/-- The last node has the width of the latest put window. -/
theorem getLast_recorded (h : History set (w :: l)) :
    (recorded (w :: l)).getLast?.map (·.width) = some w.width := by
  induction l generalizing w with
  | nil => rfl
  | cons p l ih =>
    unfold recorded
    split
    next he => rw [ih h.tail, he]
    next => rw [List.getLast?_concat]; rfl

/-- A change of the width in an earlier put window is recorded. -/
theorem mem_recorded (h : History set (w :: l)) (hu : u ∈ l) (hne : u.width ≠ u.nextWidth) :
    ∃ v ∈ recorded (w :: l), v.count = u.max + 1 := by
  induction l generalizing w with
  | nil => cases hu
  | cons p l ih =>
    unfold recorded
    rcases List.mem_cons.1 hu with rfl | hu
    · rw [if_neg fun he => hne (he.trans h.2.1.width)]
      exact ⟨_, List.mem_append_right _ (List.mem_singleton_self _), rfl⟩
    · obtain ⟨v, hv, hc⟩ := ih h.tail hu
      split
      · exact ⟨v, hv, hc⟩
      · exact ⟨v, List.mem_append_left _ hv, hc⟩

/-- All recorded nodes have valid widths. -/
theorem width_ok (h : History set (w :: l)) (hv : v ∈ recorded (w :: l)) :
    0 < v.width ∧ v.width ≤ set.maxWidth := by
  induction l generalizing w with
  | nil =>
    obtain rfl := List.mem_singleton.1 hv
    exact h.1.width
  | cons p l ih =>
    unfold recorded at hv
    split at hv
    · exact ih h.tail hv
    · rcases List.mem_append.1 hv with hv | hv
      · exact ih h.tail hv
      · obtain rfl := List.mem_singleton.1 hv
        exact h.1.width

end History

section Lookup

variable {set : Params} {w u : PutWindow} {l : List PutWindow} {nodes pend : List LateralNode}
  {row : ℕ}

theorem lastLateral_append (h : ∀ v ∈ pend, row < v.count) :
    lastLateral (nodes ++ pend) row = lastLateral nodes row := by
  unfold lastLateral
  have hnone : pend.filter (fun v => decide (v.count ≤ row)) = [] :=
    List.filter_eq_nil_iff.2 fun v hv => by simpa using h v hv
  rw [List.filter_append, hnone, List.append_nil]

theorem lastLateral_of_le (h : ∀ v ∈ nodes, v.count ≤ row) :
    lastLateral nodes row = nodes.getLast? := by
  unfold lastLateral
  rw [List.filter_eq_self.2 fun v hv => by simpa using h v hv]

/-- The node before the first one above the row. -/
theorem lastLateral_eq (hs : nodes.Pairwise fun a b => a.count < b.count) {k : ℕ} {v : LateralNode}
    (hk : nodes[k]? = some v) (hv : v.count ≤ row)
    (habove : ∀ k' v', k < k' → nodes[k']? = some v' → row < v'.count) :
    lastLateral nodes row = some v := by
  obtain ⟨hlt, rfl⟩ := List.getElem?_eq_some_iff.1 hk
  have htake : (nodes.take (k + 1)).getLast? = some nodes[k] := by
    rw [List.take_succ_eq_append_getElem hlt, List.getLast?_concat]
  have hsplit : lastLateral nodes row = lastLateral (nodes.take (k + 1) ++ nodes.drop
    (k + 1)) row := by
    rw [List.take_append_drop]
  rw [hsplit, lastLateral_append, lastLateral_of_le, htake]
  · intro a ha
    obtain ⟨i, hi⟩ := List.mem_iff_getElem?.1 ha
    rw [List.getElem?_take] at hi
    split at hi
    next hik =>
      obtain ⟨hil, rfl⟩ := List.getElem?_eq_some_iff.1 hi
      rcases (Nat.lt_succ_iff.1 hik).lt_or_eq with hlt' | rfl
      · exact (List.pairwise_iff_getElem.1 hs i k hil hlt hlt').le.trans hv
      · exact hv
    next => cases hi
  · intro a ha
    obtain ⟨i, hi⟩ := List.mem_iff_getElem?.1 ha
    rw [List.getElem?_drop] at hi
    exact habove _ _ (by omega) hi

/-- A row has the width of the put window that covers it. -/
theorem History.widthAt_recorded (h : History set (w :: l)) (hp : Pending w pend) (hu : u ∈ w :: l)
    (hb : u.bottom < row) (hr : row ≤ u.max) :
    widthAt (recorded (w :: l) ++ pend) row = u.width := by
  unfold widthAt
  have hle : u.max ≤ w.max := by
    rcases List.mem_cons.1 hu with rfl | hu
    · exact le_rfl
    · exact (h.max_lt hu).le
  rw [lastLateral_append fun v hv => ?_]
  · clear hp hle
    induction l generalizing w with
    | nil =>
      obtain rfl := List.mem_singleton.1 hu
      rfl
    | cons p l ih =>
      have hcons := h.bottom_cons
      rcases List.mem_cons.1 hu with rfl | hu
      · -- all nodes are below the rows of the latest window
        rw [lastLateral_of_le fun v hv => (h.count_le hv).trans hb, h.getLast_recorded]
        rfl
      · have hmax := h.max_le hu
        unfold recorded
        split
        · exact ih h.tail hu
        · rw [lastLateral_append fun v hv => ?_]
          · exact ih h.tail hu
          · obtain rfl := List.mem_singleton.1 hv
            show row < p.max + 1
            omega
  · cases hp with
    | nil => cases hv
    | node =>
      obtain rfl := List.mem_singleton.1 hv
      show row < w.max + 1
      omega

end Lookup

end ElasticLpw
