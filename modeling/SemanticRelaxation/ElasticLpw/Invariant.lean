import SemanticRelaxation.ElasticLpw.Queue
import SemanticRelaxation.Support.Lateral
import SemanticRelaxation.Support.Rows

/-!
# The elastic LpW queue: the invariant between two calls

Every row has a width, which the lateral queue records. Sub-queue `j` has nodes in the rows wider
than `j` only, and in all of them up to its last row (`dense`); the rows up to the bottoms of the
two windows are full. The rows up to the bottom of the get window are done: no item is left there.

The first item of a sub-queue in the get window is then in the row that `dequeue` computes for it
(`Inv.next_row`). Every step keeps the invariant, except a shift of the get window away from rows
that are not used up: `Inv.shiftGet` asks for get counts at the maximum of the window.
-/

namespace ElasticLpw

open AtomicProg Linked

/-- The lateral nodes from the first on. -/
abbrev State.line (s : State) : List ℕ := s.lateral.line 0

/-- What the invariant knows and the memory does not: the position of the lateral head, the
positions of the heads, the row of every position, and the width of every row. -/
structure Ghost where
  head : ℕ
  pos : ℕ → ℕ
  row : ℕ → ℕ → ℕ
  width : ℕ → ℕ

/-- The lateral queue records the widths of the rows up to the maximum of the put window. -/
structure Widths (g : Ghost) (s : State) : Prop extends Single s.lateralTail s.lateral where
  head : s.lateralHead = s.line[g.head]?
  head_le : g.head ≤ s.lateral.last
  head_count : (s.lateral.valAt g.head).count ≤ s.globalGWindow.max
  count_lt : ∀ k < s.lateral.last, (s.lateral.valAt k).count < (s.lateral.valAt (k + 1)).count
  last_count : (s.lateral.valAt s.lateral.last).count ≤ s.globalPWindow.bottom + 1
  last_width : (s.lateral.valAt s.lateral.last).width = s.globalPWindow.width
  between : ∀ k < s.lateral.last, ∀ r, (s.lateral.valAt k).count ≤ r →
    r < (s.lateral.valAt (k + 1)).count → g.width r = (s.lateral.valAt k).width
  last_rows : ∀ r, (s.lateral.valAt s.lateral.last).count ≤ r → r ≤ s.globalPWindow.max →
    g.width r = s.globalPWindow.width

/-- The get window is not above the put window and in rows of one width. -/
structure Windows (set : Params) (g : Ghost) (s : State) : Prop where
  put_depth : 1 ≤ s.globalPWindow.depth ∧ s.globalPWindow.depth ≤ s.globalPWindow.max
  get_depth : 1 ≤ s.globalGWindow.depth ∧ s.globalGWindow.depth ≤ s.globalGWindow.max
  get_le_put : s.globalGWindow.max ≤ s.globalPWindow.max
  get_width : ∀ r, s.globalGWindow.bottom < r → r ≤ s.globalGWindow.max →
    g.width r = s.globalGWindow.width
  width_ok : ∀ r, 1 ≤ g.width r ∧ g.width r ≤ set.maxWidth
  next_ok : 1 ≤ s.globalPWindow.nextWidth ∧ s.globalPWindow.nextWidth ≤ set.maxWidth
  set_width : 1 ≤ s.width ∧ s.width ≤ set.maxWidth
  set_depth : 1 ≤ s.depth ∧ s.depth < 2 ^ 16

/-- The invariant between two calls. -/
structure Inv (set : Params) (g : Ghost) (s : State) : Prop extends
    RowQueues set.maxWidth id s.getArray s.putArray g.pos g.row s.nodes where
  widths : Widths g s
  windows : Windows set g s
  put_le : ∀ j < set.maxWidth, (s.putArray j).count ≤ s.globalPWindow.max
  get_le : ∀ j < set.maxWidth, (s.getArray j).count ≤ s.globalGWindow.max
  idx_lt : ∀ j < set.maxWidth, ∀ p < (s.nodes.line j).length, 0 < p → j < g.width (g.row j p)
  dense : ∀ j < set.maxWidth, ∀ p < (s.nodes.line j).length, ∀ r, 1 ≤ r → r < g.row j p →
    j < g.width r → ∃ q < (s.nodes.line j).length, g.row j q = r
  full : ∀ r, 1 ≤ r → r ≤ s.globalPWindow.bottom ∨ r ≤ s.globalGWindow.bottom →
    ∀ j < g.width r, ∃ q < (s.nodes.line j).length, g.row j q = r
  above : ∀ x ∈ s.nodes.hist.present, s.globalGWindow.bottom < x.tag
  asserted : s.failed = false

theorem lt_nextRow (b c : ℕ) : c < nextRow b c ∧ b < nextRow b c := by
  unfold nextRow
  split <;> omega

theorem nextRow_le {b c m : ℕ} (hb : b < m) (hc : c < m) : nextRow b c ≤ m := by
  unfold nextRow
  split <;> omega

namespace Windows

variable {set : Params} {g : Ghost} {s : State}

theorem put_bottom (h : Windows set g s) :
    s.globalPWindow.bottom = s.globalPWindow.max - s.globalPWindow.depth :=
  Words.usub_of_le h.put_depth.2

theorem get_bottom (h : Windows set g s) :
    s.globalGWindow.bottom = s.globalGWindow.max - s.globalGWindow.depth :=
  Words.usub_of_le h.get_depth.2

theorem put_bottom_lt (h : Windows set g s) : s.globalPWindow.bottom < s.globalPWindow.max := by
  have h₁ := h.put_depth
  rw [h.put_bottom]
  omega

theorem get_bottom_lt (h : Windows set g s) : s.globalGWindow.bottom < s.globalGWindow.max := by
  have h₁ := h.get_depth
  rw [h.get_bottom]
  omega

theorem gWidth_eq (h : Windows set g s) : g.width s.globalGWindow.max = s.globalGWindow.width :=
  h.get_width _ h.get_bottom_lt le_rfl

theorem gWidth_ok (h : Windows set g s) :
    1 ≤ s.globalGWindow.width ∧ s.globalGWindow.width ≤ set.maxWidth := by
  rw [← h.gWidth_eq]
  exact h.width_ok _

end Windows

/-! ### The widths when the put window moves on -/

/-- The put window after a shift. -/
def State.nextPWindow (s : State) : PutWindow :=
  ⟨s.globalPWindow.max + s.depth, s.depth, s.globalPWindow.nextWidth, s.width⟩

theorem State.nextPWindow_bottom (s : State) : s.nextPWindow.bottom = s.globalPWindow.max := by
  show Words.usub 64 (s.globalPWindow.max + s.depth) s.depth = _
  rw [Words.usub_of_le (Nat.le_add_left _ _), Nat.add_sub_cancel]

/-- The rows above the window `w` get the width of the next window. -/
def Ghost.shiftPut (g : Ghost) (w : PutWindow) : Ghost :=
  { g with width := fun r => if r ≤ w.max then g.width r else w.nextWidth }

theorem Ghost.shiftPut_of_le (g : Ghost) {w : PutWindow} {r : ℕ} (hr : r ≤ w.max) :
    (g.shiftPut w).width r = g.width r := if_pos hr

theorem Ghost.shiftPut_of_lt (g : Ghost) {w : PutWindow} {r : ℕ} (hr : w.max < r) :
    (g.shiftPut w).width r = w.nextWidth := if_neg (not_le.2 hr)

/-- The lateral queue after `maybe_enq_lateral` for the current put window. -/
inductive Recorded (s : State) : Cells LateralNode → Option ℕ → Prop
  | same (h : s.globalPWindow.width = s.globalPWindow.nextWidth) :
      Recorded s s.lateral s.lateralTail
  | change (h : s.globalPWindow.width ≠ s.globalPWindow.nextWidth) :
      Recorded s (s.lateral.snoc s.lateralTail
        ⟨s.globalPWindow.max + 1, s.globalPWindow.nextWidth⟩) (some s.lateral.fresh)

namespace Widths

variable {set : Params} {g : Ghost} {s : State}

theorem count_le (h : Widths g s) {k l : ℕ} (hkl : k ≤ l) (hl : l ≤ s.lateral.last) :
    (s.lateral.valAt k).count ≤ (s.lateral.valAt l).count := by
  induction l with
  | zero =>
    obtain rfl : k = 0 := Nat.le_zero.1 hkl
    exact le_rfl
  | succ l ih =>
    rcases hkl.lt_or_eq with hlt | rfl
    · exact (ih (Nat.lt_succ_iff.1 hlt) (Nat.le_of_succ_le hl)).trans (h.count_lt l hl).le
    · exact le_rfl

theorem shift (h : Widths g s) (hw : Windows set g s) {m : Cells LateralNode} {t : Option ℕ}
    (hlat : Recorded s m t) : Widths (g.shiftPut s.globalPWindow)
      { s with lateral := m, lateralTail := t, globalPWindow := s.nextPWindow } := by
  have hbottom := s.nextPWindow_bottom
  have hlt := hw.put_bottom_lt
  have hlast := h.last_count
  have hbetween : ∀ k < s.lateral.last, ∀ r, (s.lateral.valAt k).count ≤ r →
      r < (s.lateral.valAt (k + 1)).count →
      (g.shiftPut s.globalPWindow).width r = (s.lateral.valAt k).width := by
    intro k hk r hr hr'
    have h₁ := hr'.trans_le (h.count_le hk le_rfl)
    rw [g.shiftPut_of_le (by omega)]
    exact h.between k hk r hr hr'
  cases hlat with
  | same he =>
    refine
      { h with
        last_count := by
          show (s.lateral.valAt s.lateral.last).count ≤ s.nextPWindow.bottom + 1
          omega
        last_width := h.last_width.trans he
        between := hbetween
        last_rows := fun r hr _ => ?_ }
    by_cases hr' : r ≤ s.globalPWindow.max
    · rw [g.shiftPut_of_le hr']
      exact (h.last_rows r hr hr').trans he
    · exact g.shiftPut_of_lt (not_le.1 hr')
  | change hne =>
    set v : LateralNode := ⟨s.globalPWindow.max + 1, s.globalPWindow.nextWidth⟩ with hv
    have hnew : (s.lateral.snoc s.lateralTail v).valAt (s.lateral.last + 1) = v :=
      h.valAt_snoc_last
    have hold : ∀ k ≤ s.lateral.last, (s.lateral.snoc s.lateralTail v).valAt k =
        s.lateral.valAt k := fun k hk => h.valAt_snoc hk
    refine
      { h.snoc v with
        head := h.head.trans (h.line_snoc h.head_le).symm
        head_le := (h.head_le.trans (Nat.le_succ _)).trans h.last_snoc.ge
        head_count := by
          show ((s.lateral.snoc s.lateralTail v).valAt g.head).count ≤ _
          rw [hold _ h.head_le]
          exact h.head_count
        count_lt := fun k hk => ?_
        last_count := ?_
        last_width := ?_
        between := fun k hk r hr hr' => ?_
        last_rows := fun r hr _ => ?_ }
    all_goals dsimp only at *
    · rw [h.last_snoc] at hk
      rcases Nat.lt_succ_iff_lt_or_eq.1 hk with hk | rfl
      · rw [hold k hk.le, hold (k + 1) hk]
        exact h.count_lt k hk
      · rw [hold _ le_rfl, hnew]
        show _ < s.globalPWindow.max + 1
        omega
    · rw [h.last_snoc, hnew, hbottom]
    · rw [h.last_snoc, hnew]
      rfl
    · rw [h.last_snoc] at hk
      rcases Nat.lt_succ_iff_lt_or_eq.1 hk with hk | rfl
      · rw [hold k hk.le] at hr ⊢
        rw [hold (k + 1) hk] at hr'
        exact hbetween k hk r hr hr'
      · rw [hold _ le_rfl] at hr ⊢
        rw [hnew] at hr'
        have hle : r ≤ s.globalPWindow.max := Nat.lt_succ_iff.1 hr'
        rw [g.shiftPut_of_le hle, h.last_width]
        exact h.last_rows r hr hle
    · rw [h.last_snoc, hnew] at hr
      exact g.shiftPut_of_lt hr

end Widths

namespace Inv

variable {set : Params} {g : Ghost} {s : State}

/-! ### What the invariant says -/

theorem pWidth_eq (h : Inv set g s) {r : ℕ} (hlo : s.globalPWindow.bottom < r)
    (hhi : r ≤ s.globalPWindow.max) : g.width r = s.globalPWindow.width :=
  h.widths.last_rows r (h.widths.last_count.trans hlo) hhi

theorem pWidth_ok (h : Inv set g s) :
    1 ≤ s.globalPWindow.width ∧ s.globalPWindow.width ≤ set.maxWidth := by
  rw [← h.pWidth_eq h.windows.put_bottom_lt le_rfl]
  exact h.windows.width_ok _

/-- In rows of both windows the widths agree. -/
theorem width_eq (h : Inv set g s) (hlt : s.globalPWindow.bottom < s.globalGWindow.max) :
    s.globalGWindow.width = s.globalPWindow.width := by
  rw [← h.windows.gWidth_eq]
  exact h.pWidth_eq hlt h.windows.get_le_put

/-- The rows of the items present. -/
theorem row_present' (h : Inv set g s) {x : Item ℕ} (hx : x ∈ s.nodes.hist.present) :
    x.idx < set.maxWidth ∧ s.globalGWindow.bottom < x.tag ∧ x.tag ≤ s.globalPWindow.max ∧
      x.idx < g.width x.tag ∧ (s.getArray x.idx).count < x.tag := by
  obtain ⟨hj, hpos, hlen⟩ := h.length_of_present hx
  obtain ⟨h₁, h₂⟩ := h.row_present hx
  have h₃ := h.idx_lt _ hj _ hlen (by omega)
  rw [← h.row_eq x hx] at h₃
  exact ⟨hj, h.above x hx, h₂.trans (h.put_le _ hj), h₃, h₁⟩

/-- A sub-queue with an item in a row of the get window is in its width. -/
theorem idx_lt_gWidth (h : Inv set g s) {x : Item ℕ} (hx : x ∈ s.nodes.hist.present)
    (hle : x.tag ≤ s.globalGWindow.max) : x.idx < s.globalGWindow.width := by
  obtain ⟨-, h₁, -, h₂, -⟩ := h.row_present' hx
  rwa [h.windows.get_width _ h₁ hle] at h₂

/-- A node in a row above the get count is an item. -/
theorem holds_of_row (h : Inv set g s) {j p : ℕ} (hj : j < set.maxWidth)
    (hp : p < (s.nodes.line j).length) (hlt : (s.getArray j).count < g.row j p) :
    s.nodes.Holds j := by
  rw [h.getCount j hj] at hlt
  have := h.lt_of_row_lt hj (h.pos_lt j hj) hlt
  exact (h.holds_iff_pos hj).2 (by omega)

/-- Below the put window the sub-queues are full. -/
theorem holds_of_lt (h : Inv set g s) {j r : ℕ} (hr : s.globalGWindow.bottom < r)
    (hr' : r ≤ s.globalGWindow.max) (hle : r ≤ s.globalPWindow.bottom)
    (hj : j < s.globalGWindow.width) (hlt : (s.getArray j).count < r) : s.nodes.Holds j := by
  have hj' := hj.trans_le h.windows.gWidth_ok.2
  obtain ⟨q, hq, he⟩ := h.full r (by omega) (.inl hle) j (by rwa [h.windows.get_width r hr hr'])
  exact h.holds_of_row hj' hq (he ▸ hlt)

/-- The first item of a sub-queue of the get window, in the row that `dequeue` computes. -/
theorem next_row (h : Inv set g s) {j : ℕ} (hj : j < s.globalGWindow.width)
    (hlt : (s.getArray j).count < s.globalGWindow.max) (hold : s.nodes.Holds j) :
    g.row j (g.pos j + 1) = nextRow s.globalGWindow.bottom (s.getArray j).count := by
  have hj' := hj.trans_le h.windows.gWidth_ok.2
  have hlen := (h.holds_iff_pos hj').1 hold
  obtain ⟨x, hx, rfl, hpos⟩ :=
    h.lists.all j hj' (g.pos j + 1) _ (Nat.lt_succ_self _) (List.getElem?_eq_getElem hlen)
  obtain ⟨-, hlo, -, -, hget⟩ := h.row_present' hx
  have hrow : x.tag = g.row x.idx (g.pos x.idx + 1) := by
    rw [← hpos]
    exact h.row_eq x hx
  rw [hrow] at hlo hget
  have hle : nextRow s.globalGWindow.bottom (s.getArray x.idx).count ≤
      g.row x.idx (g.pos x.idx + 1) := nextRow_le hlo hget
  refine le_antisymm (not_lt.1 fun hlt' => ?_) hle
  -- a lower row would be one that the sub-queue left out
  obtain ⟨h₁, h₂⟩ := lt_nextRow s.globalGWindow.bottom (s.getArray x.idx).count
  obtain ⟨q, hq, he⟩ := h.dense _ hj' _ hlen _ (by omega) hlt' (by
    rwa [h.windows.get_width _ h₂ (nextRow_le h.windows.get_bottom_lt hlt)])
  rw [← he] at hlt' h₁
  rw [h.getCount _ hj'] at h₁
  have h₃ := h.lt_of_row_lt hj' hq hlt'
  have h₄ := h.lt_of_row_lt hj' (h.pos_lt _ hj') h₁
  omega

/-! ### What keeps it -/

theorem initial {width depth : ℕ} (hw : 1 ≤ width) (hw' : width ≤ set.maxWidth) (hd : 1 ≤ depth)
    (hd' : depth < 2 ^ 16) :
    Inv set ⟨0, fun _ => 0, fun _ _ => 0, fun _ => width⟩ (initial set width depth) := by
  have hbottom : (ElasticLpw.initial set width depth).globalPWindow.bottom = 0 := by
    show Words.usub 64 depth depth = 0
    rw [Words.usub_of_le le_rfl, Nat.sub_self]
  refine
    { RowQueues.init with
      widths := ⟨⟨?_, rfl⟩, rfl, le_rfl, Nat.zero_le _, ?_, Nat.zero_le _, rfl, ?_,
        fun _ _ _ => rfl⟩
      windows := ⟨⟨hd, le_rfl⟩, ⟨hd, le_rfl⟩, le_rfl, fun _ _ _ => rfl, fun _ => ⟨hw, hw'⟩,
        ⟨hw, hw'⟩, ⟨hw, hw'⟩, ⟨hd, hd'⟩⟩
      put_le := fun _ _ => Nat.zero_le _
      get_le := fun _ _ => Nat.zero_le _
      idx_lt := fun j _ p hp hp' => ?_
      dense := fun j _ p _ r hr hlt => ?_
      full := fun r hr hle => ?_
      above := by simp [ElasticLpw.initial, Mem.init]
      asserted := rfl }
  · refine ⟨fun _ _ => List.cons_ne_nil _ _, fun j _ p n hn => ?_, fun i hi j hj p q n hp hq => ?_,
      fun j _ n hn => ?_⟩
    · have hp : p < 1 := (List.getElem?_eq_some_iff.1 hn).1
      obtain rfl : p = 0 := by omega
      rfl
    · have hp : p < 1 := (List.getElem?_eq_some_iff.1 hp).1
      have hq : q < 1 := (List.getElem?_eq_some_iff.1 hq).1
      omega
    · have : n ∈ [0] := hn
      rw [List.mem_singleton.1 this]
      exact one_pos
  · intro k hk
    exact absurd hk (Nat.not_lt_zero _)
  · intro k hk
    exact absurd hk (Nat.not_lt_zero _)
  · have hp : p < 1 := hp
    omega
  · exact absurd hlt (Nat.not_lt_zero _)
  · have hg : (ElasticLpw.initial set width depth).globalGWindow.bottom = 0 := hbottom
    rw [hbottom, hg] at hle
    omega

/-- A new node changes nothing but the memory. -/
theorem create (h : Inv set g s) (val : ℤ) : Inv set g { s with nodes := s.nodes.create val } :=
  { h.toRowQueues.create val, h with
    widths := { h.widths with }
    windows := { h.windows with } }

theorem setWidth (h : Inv set g s) {w : ℕ} (hw : 1 ≤ w ∧ w ≤ set.maxWidth) :
    Inv set g { s with width := w } :=
  { h with
    widths := { h.widths with }
    windows := { h.windows with set_width := hw } }

theorem setDepth (h : Inv set g s) {d : ℕ} (hd : 1 ≤ d ∧ d < 2 ^ 16) :
    Inv set g { s with depth := d } :=
  { h with
    widths := { h.widths with }
    windows := { h.windows with set_depth := hd } }

/-- The row of every node is a row of the put window or below. -/
theorem row_le_max (h : Inv set g s) {j p : ℕ} (hj : j < set.maxWidth)
    (hp : p < (s.nodes.line j).length) : g.row j p ≤ s.globalPWindow.max :=
  (h.row_le_put hj hp).trans (h.put_le j hj)

/-- Linking a node and swinging the tail, below the maximum of the put window. -/
theorem enqueue (h : Inv set g s) {j n r : ℕ} (hj : j < s.globalPWindow.width)
    (hlt : (s.putArray j).count < s.globalPWindow.max)
    (hr : r = nextRow s.globalPWindow.bottom (s.putArray j).count) (hfresh : n < s.nodes.fresh)
    (hn : ∀ i < set.maxWidth, n ∉ s.nodes.line i) (hnext : (s.nodes.heap n).next = none) :
    Inv set { g with row := linkRow g.row j (s.nodes.line j).length r }
      { s with
        putArray := Function.update s.putArray j ⟨some n, r⟩
        nodes := s.nodes.link j (s.putArray j).node n r } := by
  have hj' := hj.trans_le h.pWidth_ok.2
  have hposj := h.pos_lt j hj'
  obtain ⟨hlow, hbot⟩ := lt_nextRow s.globalPWindow.bottom (s.putArray j).count
  have hhigh := nextRow_le h.windows.put_bottom_lt hlt
  rw [← hr] at hlow hbot hhigh
  have hrows := h.toRowQueues.link hj' (show _ < id r from hlow) hfresh hn hnext
  have hlen : ∀ i, (s.nodes.line i).length ≤
      ((s.nodes.link j (s.putArray j).node n r).line i).length := by
    intro i
    rw [Mem.length_link]
    split <;> omega
  have hkeep : ∀ i < set.maxWidth, ∀ r', (∃ q < (s.nodes.line i).length, g.row i q = r') →
      ∃ q < ((s.nodes.link j (s.putArray j).node n r).line i).length,
        linkRow g.row j (s.nodes.line j).length r i q = r' := by
    rintro i - r' ⟨q, hq, he⟩
    exact ⟨q, hq.trans_le (hlen i), (linkRow_of_lt hq).trans he⟩
  -- the positions of the new lines: an old one, or the new node
  have hcases : ∀ i p, p < ((s.nodes.link j (s.putArray j).node n r).line i).length →
      p < (s.nodes.line i).length ∧ linkRow g.row j (s.nodes.line j).length r i p = g.row i p ∨
        i = j ∧ linkRow g.row j (s.nodes.line j).length r i p = r := by
    intro i p hp
    rw [Mem.length_link] at hp
    by_cases hp' : p < (s.nodes.line i).length
    · exact .inl ⟨hp', linkRow_of_lt hp'⟩
    · by_cases hij : i = j
      · subst hij
        rw [if_pos rfl] at hp
        obtain rfl : p = (s.nodes.line i).length := by omega
        exact .inr ⟨rfl, linkRow_self _ _ _ _⟩
      · rw [if_neg hij] at hp
        exact absurd hp hp'
  refine
    { hrows, h with
      widths := { h.widths with }
      windows := { h.windows with }
      put_le := fun i hi => ?_
      idx_lt := fun i hi p hp hp' => ?_
      dense := fun i hi p hp r' hr' hlt' hir => hkeep i hi r' ?_
      full := fun r' hr' hle i hi => hkeep i (hi.trans_le (h.windows.width_ok r').2) r'
        (h.full r' hr' hle i hi)
      above := fun x hx => ?_ }
  · show (Function.update s.putArray j _ i).count ≤ _
    by_cases hij : i = j
    · subst hij
      rw [Function.update_self]
      exact hhigh
    · rw [Function.update_of_ne hij]
      exact h.put_le i hi
  · show i < g.width (linkRow g.row j (s.nodes.line j).length r i p)
    rcases hcases i p hp with ⟨hp, he⟩ | ⟨rfl, he⟩
    · rw [he]
      exact h.idx_lt i hi p hp hp'
    · rw [he, h.pWidth_eq hbot hhigh]
      exact hj
  · replace hlt' : r' < linkRow g.row j (s.nodes.line j).length r i p := hlt'
    rcases hcases i p hp with ⟨hp, he⟩ | ⟨rfl, he⟩
    · rw [he] at hlt'
      exact h.dense i hi p hp r' hr' hlt' hir
    · -- below the new row: a full row, the last row so far, or a row below that
      rw [he] at hlt'
      by_cases hle : r' ≤ s.globalPWindow.bottom
      · exact h.full r' hr' (.inl hle) i hir
      · have hput := h.putCount i hi
        have hle' : r' ≤ (s.putArray i).count := by
          rw [hr, nextRow] at hlt'
          split at hlt' <;> omega
        rw [hput] at hle'
        rcases hle'.lt_or_eq with hlt' | rfl
        · exact h.dense i hi _ (by omega) r' hr' hlt' hir
        · exact ⟨_, by omega, rfl⟩
  · rcases List.mem_append.1 hx with hx | hx
    · exact h.above x hx
    · obtain rfl := List.mem_singleton.1 hx
      -- the row at the bottom of the get window is full, and the new row is above it
      show s.globalGWindow.bottom < r
      by_contra hge
      have hge := not_lt.1 hge
      have hle := h.windows.get_bottom_lt.le.trans h.windows.get_le_put
      obtain ⟨q, hq, he⟩ := h.full _ (by omega) (.inr le_rfl) j (by
        rwa [h.pWidth_eq (hbot.trans_le hge) hle])
      have hput := h.row_le_put hj' hq
      omega

/-- A dequeue from a sub-queue of the get window. -/
theorem dequeue (h : Inv set g s) {j : ℕ} (hj : j < s.globalGWindow.width)
    (hlt : (s.getArray j).count < s.globalGWindow.max) (hold : s.nodes.Holds j) :
    ∃ x ∈ s.nodes.hist.present, (s.nodes.heap x.node).val = x.val ∧
      (s.nodes.deref (s.getArray j).node).next = some x.node ∧
      nextRow s.globalGWindow.bottom (s.getArray j).count = x.tag ∧
      Inv set { g with pos := Function.update g.pos j (g.pos j + 1) }
        { s with
          getArray := Function.update s.getArray j ⟨some x.node, x.tag⟩
          nodes := s.nodes.remove (some x.node) } := by
  have hj' := hj.trans_le h.windows.gWidth_ok.2
  have hrow := h.next_row hj hlt hold
  obtain ⟨A, x, B, hpres, rfl, hpos, hv, -, hnext, hq⟩ := h.toRowQueues.remove hj' hold
  have hx : x ∈ s.nodes.hist.present := hpres ▸ List.mem_append_right _ (List.mem_cons_self ..)
  have hrem : (s.nodes.remove (some x.node)).hist = _ := h.lists.conserved.remove_eq hpres
  have htag : x.tag = nextRow s.globalGWindow.bottom (s.getArray x.idx).count := by
    rw [← hrow, ← hpos]
    exact h.row_eq x hx
  have hle : x.tag ≤ s.globalGWindow.max := htag ▸ nextRow_le h.windows.get_bottom_lt hlt
  refine ⟨x, hx, hv, hnext, htag.symm,
    { hq, h with
      widths := { h.widths with }
      windows := { h.windows with }
      get_le := fun i hi => ?_
      above := ?_ }⟩
  · show (Function.update s.getArray x.idx _ i).count ≤ _
    by_cases hij : i = x.idx
    · subst hij
      rw [Function.update_self]
      exact hle
    · rw [Function.update_of_ne hij]
      exact h.get_le i hi
  · show ∀ y ∈ (s.nodes.remove (some x.node)).hist.present, _
    rw [hrem]
    intro y hy
    refine h.above y ?_
    rw [hpres]
    rcases List.mem_append.1 hy with hy | hy <;> simp [hy]

/-- The get window moves to rows of one width, once its rows are used up. -/
theorem shiftGet (h : Inv set g s) {m d w : ℕ} (hlt : s.globalGWindow.max < m)
    (hle : m ≤ s.globalPWindow.max) (hd : d = m - s.globalGWindow.max)
    (hw : ∀ r, s.globalGWindow.max < r → r ≤ m → g.width r = w)
    (hall : ∀ j < s.globalGWindow.width, s.globalGWindow.max ≤ (s.getArray j).count) :
    Inv set g { s with globalGWindow := ⟨m, d, w⟩ } := by
  have hbottom : (⟨m, d, w⟩ : GetWindow).bottom = s.globalGWindow.max := by
    show Words.usub 64 m d = _
    rw [Words.usub_of_le (by omega)]
    omega
  refine
    { h with
      widths := { h.widths with head_count := h.widths.head_count.trans hlt.le }
      windows := { h.windows with
        get_depth := ⟨?_, ?_⟩
        get_le_put := hle
        get_width := fun r hr hr' => hw r (by rwa [← hbottom]) hr' }
      get_le := fun j hj => (h.get_le j hj).trans hlt.le
      full := fun r hr hor j hj => ?_
      above := fun x hx => ?_ }
  · show 1 ≤ d
    omega
  · show d ≤ m
    omega
  · by_cases hold : r ≤ s.globalPWindow.bottom ∨ r ≤ s.globalGWindow.bottom
    · exact h.full r hr hold j hj
    · -- a row of the window that is left: the get side has been through it
      have hr' : r ≤ s.globalGWindow.max := by
        rcases hor with h' | h'
        · exact absurd (.inl h') hold
        · rwa [← hbottom]
      have hj' := hj.trans_le (h.windows.width_ok r).2
      rw [h.windows.get_width r (by omega) hr'] at hj
      have hget := hall j hj
      rw [h.getCount j hj'] at hget
      rcases (hr'.trans hget).lt_or_eq with hlt' | he
      · refine h.dense j hj' _ (h.pos_lt j hj') r hr hlt' ?_
        rwa [h.windows.get_width r (by omega) hr']
      · exact ⟨_, h.pos_lt j hj', he.symm⟩
  · show (⟨m, d, w⟩ : GetWindow).bottom < x.tag
    rw [hbottom]
    by_contra hge
    have h₁ := hall _ (h.idx_lt_gWidth hx (not_lt.1 hge))
    have h₂ := (h.row_present' hx).2.2.2.2
    omega

/-- The put window moves on once its sub-queues are full. -/
theorem shiftPut (h : Inv set g s) {m : Cells LateralNode} {t : Option ℕ}
    (hlat : Recorded s m t)
    (hall : ∀ j < s.globalPWindow.width, s.globalPWindow.max ≤ (s.putArray j).count) :
    Inv set (g.shiftPut s.globalPWindow)
      { s with lateral := m, lateralTail := t, globalPWindow := s.nextPWindow } := by
  have hbottom := s.nextPWindow_bottom
  have hdepth := h.windows.set_depth.1
  have hmax : s.globalPWindow.max < s.nextPWindow.max := Nat.lt_add_of_pos_right hdepth
  refine
    { h with
      widths := h.widths.shift h.windows hlat
      windows :=
        { put_depth := ⟨hdepth, Nat.le_add_left _ _⟩
          get_depth := h.windows.get_depth
          get_le_put := h.windows.get_le_put.trans hmax.le
          get_width := fun r hr hr' => ?_
          width_ok := fun r => ?_
          next_ok := h.windows.set_width
          set_width := h.windows.set_width
          set_depth := h.windows.set_depth }
      put_le := fun j hj => (h.put_le j hj).trans hmax.le
      idx_lt := fun j hj p hp hp' => ?_
      dense := fun j hj p hp r hr hlt hjr => ?_
      full := fun r hr hor j hj => ?_ }
  · rw [g.shiftPut_of_le (hr'.trans h.windows.get_le_put)]
    exact h.windows.get_width r hr hr'
  · by_cases hr : r ≤ s.globalPWindow.max
    · rw [g.shiftPut_of_le hr]
      exact h.windows.width_ok r
    · rw [g.shiftPut_of_lt (not_le.1 hr)]
      exact h.windows.next_ok
  · show j < (g.shiftPut s.globalPWindow).width (g.row j p)
    rw [g.shiftPut_of_le (h.row_le_max hj hp)]
    exact h.idx_lt j hj p hp hp'
  · have hlt' : r < g.row j p := hlt
    rw [g.shiftPut_of_le (hlt'.le.trans (h.row_le_max hj hp))] at hjr
    exact h.dense j hj p hp r hr hlt' hjr
  · have hr' : r ≤ s.globalPWindow.max := by
      rcases hor with h' | h'
      · rwa [hbottom] at h'
      · exact h'.trans (h.windows.get_bottom_lt.le.trans h.windows.get_le_put)
    rw [g.shiftPut_of_le hr'] at hj
    by_cases hold : r ≤ s.globalPWindow.bottom
    · exact h.full r hr (.inl hold) j hj
    · -- a row of the window that is left: every sub-queue has a node in its last row
      have hj' := hj.trans_le (h.windows.width_ok r).2
      have hjr := hj
      rw [h.pWidth_eq (not_le.1 hold) hr'] at hj
      have hput := le_antisymm (h.put_le j hj') (hall j hj)
      have hpos := h.pos_lt j hj'
      rw [h.putCount j hj'] at hput
      rcases hr'.lt_or_eq with hlt | he
      · exact h.dense j hj' _ (by omega) r hr (hput ▸ hlt) hjr
      · exact ⟨_, by
          show _ < (s.nodes.line j).length
          omega, hput.trans he.symm⟩

/-- The head of the lateral queue moves on in the rows below the get window's maximum. -/
theorem moveHead (h : Inv set g s) {k : ℕ} (hk : k ≤ s.lateral.last)
    (hc : (s.lateral.valAt k).count ≤ s.globalGWindow.max) :
    Inv set { g with head := k } { s with lateralHead := s.line[k]? } :=
  { h with
    widths := { h.widths with head := rfl, head_le := hk, head_count := hc }
    windows := { h.windows with } }

end Inv

end ElasticLpw
