import SemanticRelaxation.ElasticLaw.Queue
import SemanticRelaxation.Support.Lateral
import SemanticRelaxation.Support.Rows

/-!
# The elastic LaW queue: the invariant between two calls

The windows tile the rows: each begins where the one before it ends. Every item lies in the rows of
the window in which it was enqueued, and that window has not been left by the get side yet. A
window that the put side has left is full: each of its sub-queues has a node in its last row.

`Ghost` holds what the invariant knows and the memory does not: the position of the get side in the
lateral queue, the positions of the heads, and the row of every node. The windows move by
`Inv.shiftPut` and `Inv.shiftGet`.
-/

namespace ElasticLaw

open AtomicProg Linked

/-- The lateral nodes from the first on. -/
abbrev State.line (s : State) : List ℕ := s.lateral.line 0

/-- The position of the put window. -/
abbrev State.last (s : State) : ℕ := s.lateral.last

/-- The window at a position of the lateral queue. -/
abbrev State.win (s : State) (k : ℕ) : Window := s.lateral.valAt k

/-- The position of the lateral head, the position of the head of every sub-queue, and the row of
every position. -/
structure Ghost where
  head : ℕ
  pos : ℕ → ℕ
  row : ℕ → ℕ → ℕ

/-- The lateral queue: it ends at `lateral->tail`, its windows tile the rows, and their widths are
allocated. -/
structure LateralOk (set : Params) (s : State) : Prop extends
    Single s.lateralTail s.lateral where
  last_pos : 0 < s.last
  zero : (s.win 0).max = 0
  tile : ∀ k < s.last, (s.win (k + 1)).max = (s.win k).max + (s.win (k + 1)).depth
  depth_pos : ∀ k < s.last, 1 ≤ (s.win (k + 1)).depth
  width_pos : ∀ k ≤ s.last, 1 ≤ (s.win k).width
  width_le : ∀ k ≤ s.last, (s.win k).width ≤ set.maxWidth
  next_depth : 1 ≤ s.depth
  next_width : 1 ≤ s.width ∧ s.width ≤ set.maxWidth

namespace LateralOk

variable {set : Params} {s : State}

theorem bottom_eq (h : LateralOk set s) {k : ℕ} (hk : k < s.last) :
    (s.win (k + 1)).bottom = (s.win k).max := by
  have h₁ := h.tile k hk
  rw [Window.bottom, Words.usub_of_le (by omega), h₁, Nat.add_sub_cancel]

theorem max_lt (h : LateralOk set s) {k l : ℕ} (hkl : k < l) (hl : l ≤ s.last) :
    (s.win k).max < (s.win l).max := by
  induction l with
  | zero => exact absurd hkl (Nat.not_lt_zero _)
  | succ l ih =>
    have h₁ := h.tile l hl
    have h₂ := h.depth_pos l hl
    rcases Nat.lt_succ_iff_lt_or_eq.1 hkl with hlt | rfl
    · have h₃ := ih hlt (Nat.le_of_succ_le hl)
      omega
    · omega

theorem max_le (h : LateralOk set s) {k l : ℕ} (hkl : k ≤ l) (hl : l ≤ s.last) :
    (s.win k).max ≤ (s.win l).max := by
  rcases hkl.lt_or_eq with hlt | rfl
  · exact (h.max_lt hlt hl).le
  · exact le_rfl

theorem bottom_lt (h : LateralOk set s) {k : ℕ} (hk : k < s.last) :
    (s.win (k + 1)).bottom < (s.win (k + 1)).max := by
  rw [h.bottom_eq hk]
  exact h.max_lt (Nat.lt_succ_self k) hk

/-- Windows with increasing maxima are in increasing positions. -/
theorem le_of_max_le (h : LateralOk set s) {k l : ℕ} (hk : k ≤ s.last)
    (hm : (s.win k).max ≤ (s.win l).max) : k ≤ l := by
  by_contra hlt
  exact absurd (h.max_lt (not_le.1 hlt) hk) (not_lt.2 hm)

/-- The state after `shift_put` in the last window. -/
def shifted (s : State) : State :=
  { s with
    lateral := s.lateral.snoc s.lateralTail ⟨(s.win s.last).max + s.depth, s.width, s.depth⟩
    lateralTail := some s.lateral.fresh }

theorem shift (h : LateralOk set s) : LateralOk set (shifted s) := by
  have hlast : (shifted s).last = s.last + 1 := h.last_snoc
  have hold : ∀ k ≤ s.last, (shifted s).win k = s.win k := fun k hk => h.valAt_snoc hk
  have hnew : (shifted s).win (s.last + 1) = ⟨(s.win s.last).max + s.depth, s.width, s.depth⟩ :=
    h.valAt_snoc_last
  have hcases : ∀ k ≤ (shifted s).last, k ≤ s.last ∨ k = s.last + 1 := by
    intro k hk
    rw [hlast] at hk
    omega
  refine
    { h.snoc _ with
      last_pos := by omega
      zero := (congrArg Window.max (hold 0 (Nat.zero_le _))).trans h.zero
      tile := fun k hk => ?_
      depth_pos := fun k hk => ?_
      width_pos := fun k hk => ?_
      width_le := fun k hk => ?_
      next_depth := h.next_depth
      next_width := h.next_width }
  · rcases hcases (k + 1) hk with hle | he
    · rw [hold _ hle, hold _ (Nat.le_of_succ_le hle)]
      exact h.tile k hle
    · obtain rfl : k = s.last := Nat.succ_injective he
      rw [hnew, hold _ le_rfl]
  · rcases hcases (k + 1) hk with hle | he
    · rw [hold _ hle]
      exact h.depth_pos k hle
    · rw [he, hnew]
      exact h.next_depth
  · rcases hcases k hk with hle | rfl
    · rw [hold _ hle]
      exact h.width_pos k hle
    · rw [hnew]
      exact h.next_width.1
  · rcases hcases k hk with hle | rfl
    · rw [hold _ hle]
      exact h.width_le k hle
    · rw [hnew]
      exact h.next_width.2

end LateralOk

/-- An item in the rows of the window of its enqueue, which the get side has not left. -/
structure ItemOk (g : Ghost) (s : State) (x : Item Tag) (k : ℕ) : Prop where
  head_lt : g.head < k
  le_last : k ≤ s.last
  window : x.tag.window = s.win k
  idx_lt : x.idx < (s.win k).width
  row_le : x.tag.row ≤ (s.win k).max
  next_row : x.tag.row = nextRow (s.win k) (g.row x.idx (x.pos - 1))

/-- The invariant between two calls. -/
structure Inv (set : Params) (g : Ghost) (s : State) : Prop extends
    RowQueues set.maxWidth Tag.row s.getArray s.putArray g.pos g.row s.nodes where
  lateral : LateralOk set s
  head : s.lateralHead = s.line[g.head]?
  head_lt : g.head < s.last
  put_le : ∀ j < set.maxWidth, (s.putArray j).count ≤ (s.win s.last).max
  items : ∀ x ∈ s.nodes.hist.present, ∃ k, ItemOk g s x k
  full : ∀ k, g.head < k → k < s.last → ∀ j < (s.win k).width,
    ∃ p < (s.nodes.line j).length, g.row j p = (s.win k).max
  ordered : s.nodes.hist.present.Pairwise fun y x => y.tag.window.max ≤ x.tag.window.max
  asserted : s.failed = false

theorem lt_nextRow (w : Window) (c : ℕ) : c < nextRow w c ∧ w.bottom < nextRow w c := by
  unfold nextRow
  split <;> omega

theorem nextRow_le {w : Window} {c m : ℕ} (hb : w.bottom < m) (hc : c < m) : nextRow w c ≤ m := by
  unfold nextRow
  split <;> omega

namespace Inv

variable {set : Params} {g : Ghost} {s : State}

theorem initial {width depth : ℕ} (hw : 1 ≤ width) (hw' : width ≤ set.maxWidth) (hd : 1 ≤ depth) :
    Inv set ⟨0, fun _ => 0, fun _ _ => 0⟩ (initial set width depth) := by
  have hwin₀ : (ElasticLaw.initial set width depth).win 0 = ⟨0, width, 0⟩ := rfl
  have hwin₁ : (ElasticLaw.initial set width depth).win 1 = ⟨depth, width, depth⟩ := rfl
  have hle : ∀ k ≤ (ElasticLaw.initial set width depth).last, k = 0 ∨ k = 1 := by
    intro k hk
    have : k ≤ 1 := hk
    omega
  have hlt : ∀ k < (ElasticLaw.initial set width depth).last, k = 0 := by
    intro k hk
    have : k < 1 := hk
    omega
  refine
    { RowQueues.init with
      lateral := ⟨⟨?_, rfl⟩, one_pos, rfl, ?_, ?_, ?_, ?_, hd, hw, hw'⟩
      head := rfl
      head_lt := one_pos
      put_le := fun _ _ => Nat.zero_le _
      items := by simp [ElasticLaw.initial, Mem.init]
      full := ?_
      ordered := .nil
      asserted := rfl }
  · refine ⟨fun _ _ => List.cons_ne_nil _ _, fun j _ p n hn => ?_, fun i hi j hj p q n hp hq => ?_,
      fun j _ n hn => ?_⟩
    · have hp : p < 2 := (List.getElem?_eq_some_iff.1 hn).1
      rcases (by omega : p = 0 ∨ p = 1) with rfl | rfl
      · obtain rfl : 0 = n := Option.some.inj hn
        rfl
      · obtain rfl : 1 = n := Option.some.inj hn
        rfl
    · refine ⟨by omega, ?_⟩
      have hp' : p < 2 := (List.getElem?_eq_some_iff.1 hp).1
      have hq' : q < 2 := (List.getElem?_eq_some_iff.1 hq).1
      have hnd : [0, 1].Nodup := by decide
      exact (List.getElem?_inj hp' hnd).1 (hp.trans hq.symm)
    · have : n ∈ [0, 1] := hn
      show n < 2
      simp only [List.mem_cons, List.not_mem_nil, or_false] at this
      omega
  · intro k hk
    rw [hlt k hk, hwin₀, hwin₁, Nat.zero_add]
  · intro k hk
    rw [hlt k hk, hwin₁]
    exact hd
  · intro k hk
    rcases hle k hk with rfl | rfl
    · exact hw
    · exact hw
  · intro k hk
    rcases hle k hk with rfl | rfl
    · exact hw'
    · exact hw'
  · intro k h₁ h₂
    have h₁ : 0 < k := h₁
    have h₂ : k < 1 := h₂
    omega

/-- A new node changes nothing but the memory. -/
theorem create (h : Inv set g s) (val : ℤ) :
    Inv set g { s with nodes := s.nodes.create val } :=
  { h.toRowQueues.create val, h with
    lateral := { h.lateral with }
    items := fun x hx => (h.items x hx).imp fun _ hk => { hk with } }

theorem setWidth (h : Inv set g s) {w : ℕ} (hw : 1 ≤ w ∧ w ≤ set.maxWidth) :
    Inv set g { s with width := w } :=
  { h with
    lateral := { h.lateral with next_width := hw }
    items := fun x hx => (h.items x hx).imp fun _ hk => { hk with } }

theorem setDepth (h : Inv set g s) {d : ℕ} (hd : 1 ≤ d) : Inv set g { s with depth := d } :=
  { h with
    lateral := { h.lateral with next_depth := hd }
    items := fun x hx => (h.items x hx).imp fun _ hk => { hk with } }

/-- The put window moves on once all its sub-queues are full. -/
theorem shiftPut (h : Inv set g s)
    (hall : ∀ j < (s.win s.last).width, (s.win s.last).max ≤ (s.putArray j).count) :
    Inv set g (LateralOk.shifted s) := by
  have hlast : (LateralOk.shifted s).last = s.last + 1 := h.lateral.last_snoc
  have hwin : ∀ {k}, k ≤ s.last → (LateralOk.shifted s).win k = s.win k :=
    fun hk => h.lateral.valAt_snoc hk
  have hmax := h.lateral.shift.max_le (Nat.le_succ s.last) hlast.ge
  rw [hwin le_rfl, Nat.succ_eq_add_one, ← hlast] at hmax
  refine
    { h with
      lateral := h.lateral.shift
      head := h.head.trans (h.lateral.line_snoc h.head_lt.le).symm
      head_lt := by rw [hlast]; exact Nat.lt_succ_of_lt h.head_lt
      put_le := fun j hj => (h.put_le j hj).trans hmax
      items := fun x hx => ?_
      full := fun k hk hk' j hj => ?_ }
  · obtain ⟨k, hk⟩ := h.items x hx
    have he := hwin hk.le_last
    exact ⟨k, hk.head_lt, by rw [hlast]; exact Nat.le_succ_of_le hk.le_last, by
      rw [he]; exact hk.window,
      by rw [he]; exact hk.idx_lt, by rw [he]; exact hk.row_le, by rw [he]; exact hk.next_row⟩
  · rw [hlast] at hk'
    have he := hwin (Nat.lt_succ_iff.1 hk')
    rw [he] at hj ⊢
    rcases Nat.lt_succ_iff_lt_or_eq.1 hk' with hlt | rfl
    · exact h.full k hk hlt j hj
    · -- the window that is left: the last node of every sub-queue is in its last row
      have hj' := hj.trans_le (h.lateral.width_le _ le_rfl)
      have hpos := h.pos_lt j hj'
      refine ⟨(s.nodes.line j).length - 1, by
        show _ < (s.nodes.line j).length
        omega, ?_⟩
      rw [← h.putCount j hj']
      exact le_antisymm (h.put_le j hj') (hall j hj)

/-- The get window moves on once all its sub-queues have been emptied up to its last row. -/
theorem shiftGet (h : Inv set g s) (hlt : g.head + 1 < s.last)
    (hall : ∀ j < (s.win (g.head + 1)).width, (s.win (g.head + 1)).max ≤ (s.getArray j).count) :
    Inv set { g with head := g.head + 1 } { s with lateralHead := s.line[g.head + 1]? } := by
  refine
    { h with
      lateral := { h.lateral with }
      head := rfl
      head_lt := hlt
      items := fun x hx => ?_
      full := fun k hk hk' j hj => h.full k (Nat.lt_of_succ_lt hk) hk' j hj }
  obtain ⟨k, hk⟩ := h.items x hx
  have hne : k ≠ g.head + 1 := by
    rintro rfl
    have h₁ := (h.row_present hx).1
    have h₂ := hall _ hk.idx_lt
    have h₃ := hk.row_le
    omega
  have h₁ := hk.head_lt
  exact ⟨k, { hk with head_lt := (show g.head + 1 < k by omega) }⟩

/-- Linking a node and swinging the tail, below the maximum of the put window. -/
theorem enqueue (h : Inv set g s) {j n r : ℕ} (hj : j < (s.win s.last).width)
    (hlt : (s.putArray j).count < (s.win s.last).max)
    (hr : r = nextRow (s.win s.last) (s.putArray j).count) (hfresh : n < s.nodes.fresh)
    (hn : ∀ i < set.maxWidth, n ∉ s.nodes.line i) (hnext : (s.nodes.heap n).next = none) :
    Inv set { g with row := linkRow g.row j (s.nodes.line j).length r }
      { s with
        putArray := Function.update s.putArray j ⟨some n, r⟩
        nodes := s.nodes.link j (s.putArray j).node n ⟨r, s.win s.last⟩ } := by
  have hj' := hj.trans_le (h.lateral.width_le _ le_rfl)
  have hposj := h.pos_lt j hj'
  have hlow := (lt_nextRow (s.win s.last) (s.putArray j).count).1
  have hhigh : r ≤ (s.win s.last).max := by
    have h₁ := h.lateral.last_pos
    have h₂ := h.lateral.bottom_lt (Nat.sub_one_lt_of_lt h₁)
    rw [Nat.sub_add_cancel h₁] at h₂
    exact hr ▸ nextRow_le h₂ hlt
  have hrows := h.toRowQueues.link hj'
    (show _ < Tag.row ⟨r, s.win s.last⟩ from hr ▸ hlow) hfresh hn hnext
  refine
    { hrows, h with
      lateral := { h.lateral with }
      put_le := fun i hi => ?_
      items := fun x hx => ?_
      full := fun k hk hk' i hi => ?_
      ordered := ?_ }
  · show (Function.update s.putArray j _ i).count ≤ _
    by_cases hij : i = j
    · subst hij
      rw [Function.update_self]
      exact hhigh
    · rw [Function.update_of_ne hij]
      exact h.put_le i hi
  · rcases List.mem_append.1 hx with hx | hx
    · obtain ⟨k, hk⟩ := h.items x hx
      have hlt := (h.length_of_present hx).2.2
      exact ⟨k, { hk with
        next_row := by
          show _ = nextRow (s.win k)
            (linkRow g.row j (s.nodes.line j).length r x.idx (x.pos - 1))
          rw [linkRow_of_lt (by omega)]
          exact hk.next_row }⟩
    · obtain rfl := List.mem_singleton.1 hx
      refine ⟨s.last, h.head_lt, le_rfl, rfl, hj, hhigh, ?_⟩
      show r = nextRow (s.win s.last)
        (linkRow g.row j (s.nodes.line j).length r j ((s.nodes.line j).length - 1))
      rw [linkRow_of_lt (by omega), ← h.putCount j hj']
      exact hr
  · obtain ⟨p, hp, he⟩ := h.full k hk hk' i hi
    refine ⟨p, ?_, (linkRow_of_lt hp).trans he⟩
    show p < ((s.nodes.link j (s.putArray j).node n _).line i).length
    rw [Mem.length_link]
    split <;> omega
  · refine List.pairwise_append.2 ⟨h.ordered, List.pairwise_singleton _ _, fun y hy x hx => ?_⟩
    obtain rfl := List.mem_singleton.1 hx
    obtain ⟨k, hk⟩ := h.items y hy
    rw [hk.window]
    exact h.lateral.max_le hk.le_last le_rfl

/-- An item in the rows of the get window was enqueued there. -/
theorem window_eq (h : Inv set g s) {x : Item Tag} (hx : x ∈ s.nodes.hist.present)
    (hle : x.tag.row ≤ (s.win (g.head + 1)).max) : ItemOk g s x (g.head + 1) := by
  obtain ⟨k, hk⟩ := h.items x hx
  have h₁ := hk.head_lt
  suffices he : k = g.head + 1 by rwa [he] at hk
  obtain ⟨l, rfl⟩ := Nat.exists_eq_add_of_lt h₁
  have h₂ := (lt_nextRow (s.win (g.head + l + 1)) (g.row x.idx (x.pos - 1))).2
  rw [← hk.next_row, h.lateral.bottom_eq hk.le_last] at h₂
  by_contra hne
  have h₃ := h.lateral.max_le (show g.head + 1 ≤ g.head + l by omega) (Nat.le_of_lt hk.le_last)
  omega

/-- Below the get window's maximum at most `depth` items of one sub-queue are older. -/
theorem count_le (h : Inv set g s) {A B : List (Item Tag)} {x : Item Tag}
    (hpres : s.nodes.hist.present = A ++ x :: B) (hle : x.tag.row ≤ (s.win (g.head + 1)).max) :
    (∀ y ∈ A, ItemOk g s y (g.head + 1)) ∧
      ∀ i, Rank.count Item.idx i A ≤ (s.win (g.head + 1)).depth := by
  have hx := h.window_eq (hpres ▸ List.mem_append_right _ (List.mem_cons_self ..)) hle
  have hmem : ∀ y ∈ A, y ∈ s.nodes.hist.present := fun y hy =>
    hpres ▸ List.mem_append_left _ hy
  have hord := h.ordered
  have hsorted := h.lists.sorted
  rw [hpres, List.pairwise_append] at hord hsorted
  have hA : ∀ y ∈ A, ItemOk g s y (g.head + 1) := by
    intro y hy
    obtain ⟨k, hk⟩ := h.items y (hmem y hy)
    have h₁ := hord.2.2 y hy x (List.mem_cons_self ..)
    rw [hk.window, hx.window] at h₁
    have h₂ := h.lateral.le_of_max_le hk.le_last h₁
    have h₃ := hk.head_lt
    obtain rfl : k = g.head + 1 := by omega
    exact hk
  refine ⟨hA, fun i => ?_⟩
  have hf : ∀ y ∈ A.filter (fun y => y.idx = i), y ∈ A ∧ y.idx = i := by
    intro y hy
    simpa using List.mem_filter.1 hy
  rw [Rank.count_eq_length_filter, ← List.length_map (f := fun y : Item Tag => y.tag.row)]
  refine Rank.length_le_of_rows (b := (s.win g.head).max) ?_ ?_ ?_
  · rw [List.pairwise_map]
    refine (hsorted.1.sublist List.filter_sublist).imp_of_mem fun {y z} hy hz hlt => ?_
    obtain ⟨hy, hyi⟩ := hf y hy
    obtain ⟨hz, hzi⟩ := hf z hz
    obtain ⟨hzw, -, hzp⟩ := h.length_of_present (hmem z hz)
    rw [h.row_eq y (hmem y hy), h.row_eq z (hmem z hz), hyi, hzi]
    rw [hzi] at hzw hzp
    exact h.row_lt i hzw _ _ (hlt (hyi.trans hzi.symm)) hzp
  · intro r hr
    obtain ⟨y, hy, rfl⟩ := List.mem_map.1 hr
    have hy := hA y (hf y hy).1
    have h₁ := (lt_nextRow (s.win (g.head + 1)) (g.row y.idx (y.pos - 1))).2
    rwa [← hy.next_row, h.lateral.bottom_eq h.head_lt] at h₁
  · intro r hr
    obtain ⟨y, hy, rfl⟩ := List.mem_map.1 hr
    exact (hA y (hf y hy).1).row_le.trans (h.lateral.tile _ h.head_lt).le

/-- A dequeue below a row of the get window takes an item of that window. -/
theorem dequeue (h : Inv set g s) {j p : ℕ} (hj : j < set.maxWidth)
    (hp : p < (s.nodes.line j).length) (hlt : (s.getArray j).count < g.row j p)
    (hle : g.row j p ≤ (s.win (g.head + 1)).max) :
    ∃ A x B, s.nodes.hist.present = A ++ x :: B ∧ (s.nodes.heap x.node).val = x.val ∧
      (s.nodes.deref (s.getArray j).node).next = some x.node ∧
      A.length ≤ (x.tag.window.width - 1) * x.tag.window.depth ∧
      nextRow (s.win (g.head + 1)) (s.getArray j).count = x.tag.row ∧
      Inv set { g with pos := Function.update g.pos j (g.pos j + 1) }
        { s with
          getArray := Function.update s.getArray j ⟨some x.node, x.tag.row⟩
          nodes := s.nodes.remove (some x.node) } := by
  rw [h.getCount j hj] at hlt
  have hpos := h.lt_of_row_lt hj (h.pos_lt j hj) hlt
  obtain ⟨A, x, B, hpres, rfl, hxpos, hv, hA, hnext, hq⟩ :=
    h.toRowQueues.remove hj ((h.holds_iff_pos hj).2 (by omega))
  have hmemx : x ∈ s.nodes.hist.present := hpres ▸ List.mem_append_right _ (List.mem_cons_self ..)
  have hok : ItemOk g s x (g.head + 1) := by
    refine h.window_eq hmemx (le_trans ?_ hle)
    rw [h.row_eq x hmemx, hxpos]
    exact h.row_le hj hpos hp
  have hrem : (s.nodes.remove (some x.node)).hist = _ := h.lists.conserved.remove_eq hpres
  have hmem : ∀ y ∈ A ++ B, y ∈ s.nodes.hist.present := by
    intro y hy
    rw [hpres]
    rcases List.mem_append.1 hy with hy | hy <;> simp [hy]
  refine ⟨A, x, B, hpres, hv, hnext, ?_, ?_,
    { hq, h with
      lateral := { h.lateral with }
      items := ?_
      ordered := ?_ }⟩
  · obtain ⟨hAok, hcount⟩ := h.count_le hpres hok.row_le
    rw [hok.window, Nat.mul_comm]
    exact Rank.length_le_mul (f := Item.idx) (fun y hy => (hAok y hy).idx_lt) hok.idx_lt
      (Rank.count_eq_zero.2 hA) fun i _ _ => hcount i
  · rw [h.getCount _ hj, hok.next_row, hxpos, Nat.add_sub_cancel]
  · show ∀ y ∈ (s.nodes.remove (some x.node)).hist.present, _
    rw [hrem]
    exact fun y hy => (h.items y (hmem y hy)).imp fun _ hk => { hk with }
  · show ((s.nodes.remove (some x.node)).hist.present).Pairwise _
    rw [hrem]
    refine h.ordered.sublist ?_
    rw [hpres]
    exact List.Sublist.append (List.Sublist.refl _) (List.sublist_cons_self _ _)

end Inv

end ElasticLaw
