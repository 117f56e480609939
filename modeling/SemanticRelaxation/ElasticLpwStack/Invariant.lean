import SemanticRelaxation.ElasticLpwStack.Stack

/-!
# The elastic LpW stack: the invariant between two calls

The nodes of a sub-stack have decreasing rows, and those of sub-stack 0 leave no row out, so that
its row never falls below the window. A sub-stack that pops do not reach has no row above the bottom
of the window (`covered`), because the lateral stack records the rows that pushes have left
(`placed`).

The records are not exact at their ends: `push_wider_count` gives the highest row in use where the
row above it is meant, pushes from below the window put their item one row below what
`push_narrower_count` takes for the lowest row, and with a `last_shift` that nobody has written
records are cut off above the last bottom. `EdgesClear` says of a shift that no top row of a
sub-stack is at such an end.
-/

namespace ElasticLpwStack

open AtomicProg Treiber TwoD

variable {set : Params} {s s' : State}

/-! ### Rows of a sub-stack -/

/-- The rows of the nodes of a sub-stack from the top on: `step` relates each to the one above. -/
def Rows (step : ℕ → ℕ → Prop) (nextCount : ℕ → ℕ) : List Item → ℕ → Prop
  | [], count => count = 0
  | x :: l, count => step (nextCount x.node) count ∧ Rows step nextCount l (nextCount x.node)

theorem Rows.congr {step : ℕ → ℕ → Prop} {nc nc' : ℕ → ℕ} {l : List Item} {c : ℕ}
    (h : Rows step nc l c) (heq : ∀ x ∈ l, nc' x.node = nc x.node) : Rows step nc' l c := by
  induction l generalizing c with
  | nil => exact h
  | cons x l ih =>
    have hx := heq x (List.mem_cons_self ..)
    refine ⟨hx ▸ h.1, ?_⟩
    rw [hx]
    exact ih h.2 fun y hy => heq y (List.mem_cons_of_mem _ hy)

theorem Rows.imp {step step' : ℕ → ℕ → Prop} {nc : ℕ → ℕ} {l : List Item} {c : ℕ}
    (h : Rows (· < ·) nc l c) (hs : Rows step nc l c)
    (himp : ∀ r r', 0 < r' → r' ≤ c → step r r' → step' r r') : Rows step' nc l c := by
  induction l generalizing c with
  | nil => exact h
  | cons x l ih =>
    refine ⟨himp _ _ (Nat.zero_lt_of_lt h.1) le_rfl hs.1, ih h.2 hs.2 fun r r' hr hle => ?_⟩
    exact himp r r' hr (hle.trans (Nat.le_of_lt h.1))

/-- The top row of a sub-stack that has a row at all. -/
theorem Rows.top {P : ℕ → Prop} {nc : ℕ → ℕ} {l : List Item} {c : ℕ}
    (h : Rows (fun _ r => P r) nc l c) (hc : 0 < c) : P c := by
  cases l with
  | nil => exact absurd h hc.ne'
  | cons x l => exact h.1

/-- A sub-stack with row 0 has no nodes. -/
theorem Rows.eq_nil {nc : ℕ → ℕ} {l : List Item} (h : Rows (· < ·) nc l 0) : l = [] := by
  cases l with
  | nil => rfl
  | cons x l => exact absurd h.1 (Nat.not_lt_zero _)

/-! ### The invariant -/

/-- The window has the shape of a window, for the number of shifts so far. -/
structure WindowOk (set : Params) (s : State) : Prop where
  depth_ok : 1 ≤ s.globalWindow.depth ∧ s.globalWindow.depth ≤ s.globalWindow.max
  depth_lt : s.globalWindow.depth < 2 ^ 16
  put_pos : 1 ≤ s.globalWindow.putWidth
  put_le : s.globalWindow.putWidth ≤ s.globalWindow.getWidth
  get_le : s.globalWindow.getWidth ≤ set.maxWidth
  old_le : s.globalWindow.oldPutWidth ≤ set.maxWidth
  version : s.globalWindow.version = (1 + s.shifts) % 2 ^ 16
  shifts_lt : s.shifts < 2 ^ 16
  max_le : s.globalWindow.max ≤ 2 ^ 16 + s.shifts * 2 ^ 15
  set_width : 1 ≤ s.width ∧ s.width ≤ set.maxWidth
  set_depth : 1 ≤ s.depth ∧ s.depth < 2 ^ 16

/-- The laterals that `replace_laterals` would leave for the window. -/
def State.replaced (s : State) : Update :=
  replaceLateralNode s.globalWindow s.lateralFresh s.lateral.node s.lateral.count

/-- The invariant between two calls. -/
structure Inv (set : Params) (s : State) : Prop where
  window : WindowOk set s
  lateral : LateralOk set.maxWidth s.lateral.node s.lateral.count
  lateral_version : s.lateral.version ≤ s.shifts
  lists : Stacks set.maxWidth (fun j => (s.setArray j).node) s.mem
  rows : ∀ j < set.maxWidth,
    Rows (· < ·) s.nextCount (classOf j s.mem.hist.present) (s.setArray j).count
  gapless : Rows (fun r c => r + 1 = c) s.nextCount (classOf 0 s.mem.hist.present)
    (s.setArray 0).count
  le_max : ∀ j < set.maxWidth, (s.setArray j).count ≤ s.globalWindow.max
  bottom_le : s.globalWindow.bottom ≤ (s.setArray 0).count
  covered : ∀ j < set.maxWidth, s.globalWindow.getWidth ≤ j →
    (s.setArray j).count ≤ s.globalWindow.bottom
  placed : ∀ j < set.maxWidth, Rows (fun _ r => Placed s.globalWindow s.replaced j r) s.nextCount
    (classOf j s.mem.hist.present) (s.setArray j).count
  asserted : s.failed = false

/-- The counts of the sub-stacks. -/
def State.count (s : State) (j : ℕ) : ℕ := (s.setArray j).count

/-- If the top row of a sub-stack outside both widths of the pushes is the lowest one of the window
`w`, then a sub-stack to its right has a higher one. -/
def BottomClear (set : Params) (s : State) (w : Window) : Prop :=
  ∀ j < set.maxWidth, s.globalWindow.putWidth ≤ j → w.putWidth ≤ j → s.count j = w.bottom + 1 →
    ∃ i < set.maxWidth, j ≤ i ∧ w.bottom + 1 < s.count i

instance (set : Params) (s : State) (w : Window) : Decidable (BottomClear set s w) :=
  inferInstanceAs (Decidable (∀ j < set.maxWidth, _))

/-- If `last_shift` of the window `w` is not 0, then the top rows of the sub-stacks outside both
widths of the pushes are below the row that the lateral stack will be lowered to. -/
def LastShiftClear (set : Params) (s : State) (w : Window) : Prop :=
  ∀ j < set.maxWidth, s.globalWindow.putWidth ≤ j → w.putWidth ≤ j → w.lastShift ≠ 0 →
    0 < s.count j → s.count j + 1 < w.lastBottom

instance (set : Params) (s : State) (w : Window) : Decidable (LastShiftClear set s w) :=
  inferInstanceAs (Decidable (∀ j < set.maxWidth, _))

/-- No top row of a sub-stack that the pushes have left is at an end of what is recorded, or read,
at a shift to the window `w`. -/
structure EdgesClear (set : Params) (s : State) (w : Window) : Prop where
  bottom : BottomClear set s w
  top : TopClear s.globalWindow s.count s.lateral.node s.lateral.count
  lastShift : LastShiftClear set s w

instance (set : Params) (s : State) (w : Window) : Decidable (EdgesClear set s w) :=
  decidable_of_iff (BottomClear set s w ∧
      TopClear s.globalWindow s.count s.lateral.node s.lateral.count ∧ LastShiftClear set s w)
    ⟨fun h => ⟨h.1, h.2.1, h.2.2⟩, fun h => ⟨h.bottom, h.top, h.lastShift⟩⟩

theorem WindowOk.bottom_eq (h : WindowOk set s) :
    s.globalWindow.bottom = s.globalWindow.max - s.globalWindow.depth :=
  Words.usub_of_le h.depth_ok.2

namespace Inv

theorem node_eq_none_iff (h : Inv set s) {j : ℕ} (hj : j < set.maxWidth) :
    (s.setArray j).node = none ↔ (s.setArray j).count = 0 := by
  rw [h.lists.top_eq_none_iff hj, ← length_classOf, List.length_eq_zero_iff]
  have hrows := h.rows j hj
  constructor
  · intro hnil
    rw [hnil] at hrows
    exact hrows
  · intro h0
    rw [h0] at hrows
    exact hrows.eq_nil

/-- If no sub-stack that pops reach has a row, then no sub-stack has one. -/
theorem empty_of_reached (h : Inv set s)
    (hall : ∀ j < s.globalWindow.getWidth, (s.setArray j).count = 0) {j : ℕ}
    (hj : j < set.maxWidth) : (s.setArray j).node = none := by
  rw [h.node_eq_none_iff hj]
  by_cases hlt : j < s.globalWindow.getWidth
  · exact hall j hlt
  · -- the bottom of the window is 0, as sub-stack 0 does not fall below it
    have h₀ := hall 0 (h.window.put_pos.trans h.window.put_le)
    have h₁ := h.bottom_le
    have h₂ := h.covered j hj (not_lt.1 hlt)
    omega

/-! ### What keeps it -/

theorem initial {width depth : ℕ} (hw : 1 ≤ width) (hw' : width ≤ set.maxWidth) (hd : 1 ≤ depth)
    (hd' : depth < 2 ^ 16) : Inv set (initial set width depth) := by
  have hbottom : (ElasticLpwStack.initial set width depth).globalWindow.bottom = 0 := by
    show Words.usub 32 depth depth = 0
    rw [Words.usub_of_le le_rfl, Nat.sub_self]
  refine
    { window := ⟨⟨hd, le_rfl⟩, hd', hw, le_rfl, hw', hw', rfl, Nat.two_pow_pos _, ?_, ⟨hw, hw'⟩,
        ⟨hd, hd'⟩⟩
      lateral := ⟨le_rfl, fun h => absurd h (lt_irrefl _), rfl⟩
      lateral_version := le_rfl
      lists := .init
      rows := fun _ _ => rfl
      gapless := rfl
      le_max := fun _ _ => Nat.zero_le _
      bottom_le := hbottom.le
      covered := fun _ _ _ => Nat.zero_le _
      placed := fun _ _ => rfl
      asserted := rfl }
  show depth ≤ 2 ^ 16 + 0 * 2 ^ 15
  omega

theorem setWidth (h : Inv set s) {w : ℕ} (hw : 1 ≤ w ∧ w ≤ set.maxWidth) :
    Inv set { s with width := w } :=
  { h with window := { h.window with set_width := hw } }

theorem setDepth (h : Inv set s) {d : ℕ} (hd : 1 ≤ d ∧ d < 2 ^ 16) :
    Inv set { s with depth := d } :=
  { h with window := { h.window with set_depth := hd } }

theorem create (h : Inv set s) (v : ℤ) : Inv set { s with mem := s.mem.create v } :=
  { h with
    window := { h.window with }
    lists := h.lists.create v }

/-- Stores to the fields of a node that was not pushed. -/
theorem setNext (h : Inv set s) {n : ℕ} (hn : ∀ x ∈ s.mem.hist.added, x.node ≠ n)
    (next : Option ℕ) (r : ℕ) :
    Inv set { s with
      mem := s.mem.setNext n next
      nextCount := Function.update s.nextCount n r } := by
  have heq : ∀ j, ∀ x ∈ classOf j s.mem.hist.present,
      Function.update s.nextCount n r x.node = s.nextCount x.node := fun j x hx =>
    Function.update_of_ne (hn x (h.lists.conserved.mem_added (List.mem_of_mem_filter hx))) _ _
  exact
    { h with
      window := { h.window with }
      lists := h.lists.setNext hn next
      rows := fun j hj => (h.rows j hj).congr (heq j)
      gapless := h.gapless.congr (heq 0)
      placed := fun j hj => (h.placed j hj).congr (heq j) }

/-- The top node of a sub-stack after a change of the descriptors at `j`. -/
theorem node_update (f : ℕ → Descriptor) (j : ℕ) (d : Descriptor) :
    (fun i => (Function.update f j d i).node) = Function.update (fun i => (f i).node) j d.node := by
  funext i
  by_cases hij : i = j
  · subst hij
    simp only [Function.update_self]
  · simp only [Function.update_of_ne hij]

theorem push (h : Inv set s) {j n : ℕ} (hj : j < s.globalWindow.putWidth)
    (hlt : (s.setArray j).count < s.globalWindow.max) (hn : ∀ x ∈ s.mem.hist.added, x.node ≠ n)
    (hfresh : n < s.mem.fresh) (hnext : (s.mem.heap n).next = (s.setArray j).node)
    (hcount : s.nextCount n = (s.setArray j).count) :
    Inv set { s with
      setArray := Function.update s.setArray j
        ⟨some n, nextRow s.globalWindow (s.setArray j).count⟩
      mem := s.mem.push j n } := by
  have hb := h.window.bottom_eq
  have hd := h.window.depth_ok
  have hj' := hj.trans_le (h.window.put_le.trans h.window.get_le)
  have hrow : (s.setArray j).count < nextRow s.globalWindow (s.setArray j).count ∧
      nextRow s.globalWindow (s.setArray j).count ≤ s.globalWindow.max := by
    unfold nextRow
    split <;> omega
  set x : Item := ⟨n, (s.mem.heap n).val, j⟩ with hx
  have hclass : ∀ i, classOf i (s.mem.push j n).hist.present =
      if i = j then x :: classOf i s.mem.hist.present else classOf i s.mem.hist.present := by
    intro i
    by_cases hij : i = j
    · subst hij
      rw [if_pos rfl]
      exact classOf_cons_self x _
    · rw [if_neg hij]
      exact classOf_cons_of_ne (Ne.symm hij) _
  have hrows : ∀ (step : ℕ → ℕ → Prop) (i : ℕ),
      Rows step s.nextCount (classOf i s.mem.hist.present) (s.setArray i).count →
      (i = j → step (s.setArray i).count (nextRow s.globalWindow (s.setArray i).count)) →
      Rows step s.nextCount (classOf i (s.mem.push j n).hist.present)
        (Function.update s.setArray j
          ⟨some n, nextRow s.globalWindow (s.setArray j).count⟩ i).count := by
    intro step i hi hstep
    rw [hclass]
    by_cases hij : i = j
    · subst hij
      rw [if_pos rfl, Function.update_self]
      have hnext : s.nextCount x.node = (s.setArray i).count := hcount
      exact ⟨hnext ▸ hstep rfl, hnext ▸ hi⟩
    · rw [if_neg hij, Function.update_of_ne hij]
      exact hi
  refine
    { window := { h.window with }
      lateral := h.lateral
      lateral_version := h.lateral_version
      lists := ?_
      rows := fun i hi => hrows _ i (h.rows i hi) fun hij => hij ▸ hrow.1
      gapless := hrows _ 0 h.gapless fun _ => ?_
      le_max := fun i hi => ?_
      bottom_le := ?_
      covered := fun i hi hge => ?_
      placed := fun i hi => hrows _ i (h.placed i hi) fun hij => ?_
      asserted := h.asserted }
  · rw [node_update]
    exact h.lists.push hj' hn hfresh hnext
  · -- sub-stack 0 is not below the window
    have hlow := h.bottom_le
    exact (if_pos (by omega)).symm
  · show (Function.update s.setArray _ _ i).count ≤ _
    by_cases hij : i = j
    · subst hij
      rw [Function.update_self]
      exact hrow.2
    · rw [Function.update_of_ne hij]
      exact h.le_max i hi
  · show _ ≤ (Function.update s.setArray _ _ 0).count
    by_cases hij : 0 = j
    · subst hij
      rw [Function.update_self]
      exact h.bottom_le.trans hrow.1.le
    · rw [Function.update_of_ne hij]
      exact h.bottom_le
  · have hij : i ≠ j := (hj.trans_le (h.window.put_le.trans hge)).ne'
    show (Function.update s.setArray _ _ i).count ≤ _
    rw [Function.update_of_ne hij]
    exact h.covered i hi hge
  · -- the new row is not below the window
    subst hij
    have hb : s.globalWindow.bottom ≤ nextRow s.globalWindow (s.setArray i).count := by
      unfold nextRow
      split <;> omega
    exact
      { below := (replaceLateralNode_narrow h.lateral).recorded (replaceLateralNode_ok h.lateral)
          (Nat.succ_le_succ hb) hj
        outside := fun _ => .inr ⟨hj, hb⟩ }

theorem pop (h : Inv set s) {j n : ℕ} (hj : j < s.globalWindow.getWidth)
    (hlt : s.globalWindow.bottom < (s.setArray j).count) (htop : (s.setArray j).node = some n) :
    Inv set { s with
      setArray := Function.update s.setArray j ⟨(s.mem.heap n).next, s.nextCount n⟩
      mem := s.mem.pop n } := by
  have hj' := hj.trans_le h.window.get_le
  obtain ⟨A, x, B, hpres, rfl, rfl, -, hA, hst⟩ := h.lists.pop hj' htop
  have hrem : (s.mem.pop x.node).hist.present = A ++ B := by
    show (s.mem.hist.remove x.node).present = _
    rw [show s.mem.hist.remove x.node = _ from h.lists.conserved.remove_eq hpres]
  have hself : classOf x.idx s.mem.hist.present = x :: classOf x.idx (A ++ B) :=
    hpres ▸ classOf_remove_self hA
  have hother : ∀ i, i ≠ x.idx → classOf i s.mem.hist.present = classOf i (A ++ B) :=
    fun i hi => hpres ▸ classOf_remove_of_ne (Ne.symm hi)
  have hdown : s.nextCount x.node < (s.setArray x.idx).count := by
    have := h.rows _ hj'
    rw [hself] at this
    exact this.1
  have hrows : ∀ (step : ℕ → ℕ → Prop) (i : ℕ),
      Rows step s.nextCount (classOf i s.mem.hist.present) (s.setArray i).count →
      Rows step s.nextCount (classOf i (s.mem.pop x.node).hist.present)
        (Function.update s.setArray x.idx
          ⟨(s.mem.heap x.node).next, s.nextCount x.node⟩ i).count := by
    intro step i hi
    rw [hrem]
    by_cases hij : i = x.idx
    · subst hij
      rw [hself] at hi
      rw [Function.update_self]
      exact hi.2
    · rw [Function.update_of_ne hij, ← hother i hij]
      exact hi
  refine
    { window := { h.window with }
      lateral := h.lateral
      lateral_version := h.lateral_version
      lists := ?_
      rows := fun i hi => hrows _ i (h.rows i hi)
      gapless := hrows _ 0 h.gapless
      le_max := fun i hi => ?_
      bottom_le := ?_
      covered := fun i hi hge => ?_
      placed := fun i hi => hrows _ i (h.placed i hi)
      asserted := h.asserted }
  · rw [node_update]
    exact hst
  · show (Function.update s.setArray _ _ i).count ≤ _
    by_cases hij : i = x.idx
    · subst hij
      rw [Function.update_self]
      exact hdown.le.trans (h.le_max _ hi)
    · rw [Function.update_of_ne hij]
      exact h.le_max i hi
  · show _ ≤ (Function.update s.setArray _ _ 0).count
    by_cases hij : 0 = x.idx
    · -- the row below the top of sub-stack 0 is not left out
      have h₀ := h.gapless
      rw [hij, hself] at h₀
      have h₁ : s.nextCount x.node + 1 = (s.setArray x.idx).count := h₀.1
      rw [hij, Function.update_self]
      show s.globalWindow.bottom ≤ s.nextCount x.node
      omega
    · rw [Function.update_of_ne hij]
      exact h.bottom_le
  · have hij : i ≠ x.idx := (hj.trans_le hge).ne'
    show (Function.update s.setArray _ _ i).count ≤ _
    rw [Function.update_of_ne hij]
    exact h.covered i hi hge

/-! ### Shifts of the window -/

/-- Every item outside the width of the pushes is recorded by the lateral stack that the
synchronisation leaves. -/
theorem recorded (h : Inv set s) {l : LateralDescriptor}
    (hrec : Recording s.globalWindow s.count s.replaced l.node l.count)
    (htop : TopClear s.globalWindow s.count l.node l.count) {j : ℕ} (hj : j < set.maxWidth)
    (hput : s.globalWindow.putWidth ≤ j) (hpos : 0 < s.count j) :
    Recorded j (s.count j) l.node l.count :=
  hrec.outside (replaceLateralNode_ok h.lateral) htop
    (Rows.top (h.placed j hj) hpos) hpos le_rfl hput

/-- A shift that leaves no row above the new window, sub-stack 0 not below it, and no top row at an
end of what is recorded. -/
theorem shift (h : Inv set s) {l : LateralDescriptor} {f : ℕ} {w : Window}
    (hrec : Recording s.globalWindow s.count s.replaced l.node l.count)
    (hver : l.version ≤ s.shifts + 1) (hdepth : w.depth = s.depth) (hmax : s.depth ≤ w.max)
    (hput : w.putWidth = s.width) (hold : w.oldPutWidth = s.globalWindow.putWidth)
    (hget : w.getWidth = shiftWidth l w.bottom s.globalWindow.putWidth s.width)
    (hversion : w.version = (s.globalWindow.version + 1) % 2 ^ 16) (hshifts : s.shifts + 1 < 2 ^ 16)
    (hle : w.max ≤ s.globalWindow.max + 2 ^ 15 ∨ w.max = s.depth)
    (hclear : EdgesClear set { s with lateral := l, lateralFresh := f } w)
    (hall : ∀ j < set.maxWidth, (s.setArray j).count ≤ w.max)
    (hbottom : w.bottom ≤ (s.setArray 0).count) :
    Inv set { s with
      lateral := l
      lateralFresh := f
      globalWindow := w
      shifts := s.shifts + 1 } := by
  have hw := h.window
  have hok : LateralOk set.maxWidth l.node l.count :=
    hrec.ok (replaceLateralNode_ok h.lateral) hw.old_le
  have hgetLe : w.getWidth ≤ set.maxWidth := by
    have h₁ := hw.put_le.trans hw.get_le
    have h₂ := hw.set_width.2
    rw [hget]
    refine widest_le hok ?_
    split <;> assumption
  have hgetGe : s.width ≤ w.getWidth ∧ s.globalWindow.putWidth ≤ w.getWidth := by
    have h₃ : (if s.globalWindow.putWidth ≤ s.width then s.width else s.globalWindow.putWidth) ≤
        w.getWidth := hget ▸ le_widest _ _ _ _
    split at h₃ <;> omega
  have hwb : w.bottom = w.max - w.depth := Words.usub_of_le (hdepth ▸ hmax)
  have hlow : narrowerCount w ≤ w.lastBottom := by
    have h₁ := hw.set_depth.1
    have h₂ : w.lastBottom = w.max - w.depth / 2 := Words.usub_of_le (by omega)
    show w.bottom + 1 ≤ _
    omega
  refine
    { h with
      window :=
        { depth_ok := ⟨hdepth ▸ hw.set_depth.1, hdepth ▸ hmax⟩
          depth_lt := hdepth ▸ hw.set_depth.2
          put_pos := hput ▸ hw.set_width.1
          put_le := hput ▸ hgetGe.1
          get_le := hgetLe
          old_le := hold ▸ hw.put_le.trans hw.get_le
          version := ?_
          shifts_lt := hshifts
          max_le := ?_
          set_width := hw.set_width
          set_depth := hw.set_depth }
      lateral := hok
      lateral_version := hver
      le_max := hall
      bottom_le := hbottom
      covered := fun j hj hge => ?_
      placed := fun j hj => ?_ }
  · show w.version = (1 + (s.shifts + 1)) % 2 ^ 16
    rw [hversion, hw.version, Nat.mod_add_mod, Nat.add_assoc]
  · have h₁ := hw.max_le
    have h₂ := hw.set_depth.2
    show w.max ≤ 2 ^ 16 + (s.shifts + 1) * 2 ^ 15
    omega
  · -- a row above the lowest one of the new window is recorded, and read
    have hread : ∀ i < set.maxWidth, j ≤ i → s.count i ≤ w.bottom + 1 := by
      intro i hi hji
      by_contra hgt
      have hrow := h.recorded hrec hclear.top hi (hgetGe.2.trans (hge.trans hji)) (by omega)
      have hlt : i < w.getWidth := hget ▸ lt_widest (hrow.reaches hok (not_le.1 hgt)) _
      exact absurd (hlt.trans_le hge) (not_lt.2 hji)
    by_contra hgt
    have hj₁ := hread j hj le_rfl
    have hj₂ : w.bottom < s.count j := not_le.1 hgt
    obtain ⟨i, hi, hji, hlt⟩ := hclear.bottom j hj (hgetGe.2.trans hge) (hput ▸ hgetGe.1.trans hge)
      (show s.count j = w.bottom + 1 by omega)
    exact absurd (hread i hi hji) (not_le.2 hlt)
  · refine (h.rows j hj).imp (h.placed j hj) fun r r' hpos hle hp => ?_
    refine hrec.placed (replaceLateralNode_ok h.lateral) hok hclear.top hp hpos hle hold hlow ?_
    intro hj₁ hj₂ hs
    exact (Nat.succ_le_succ hle).trans_lt (hclear.lastShift j hj hj₁ hj₂ hs (hpos.trans_le hle))

end Inv

/-- What a shift up by `put_shift_max` gives. -/
theorem WindowOk.putShiftMax_eq (h : WindowOk set s) :
    putShiftMax s.globalWindow.max s.depth =
      if s.globalWindow.max + (s.depth + 1) / 2 < s.depth then s.depth
      else s.globalWindow.max + (s.depth + 1) / 2 := by
  have h₁ := h.max_le
  have h₂ := h.shifts_lt
  have h₃ := h.set_depth.2
  unfold putShiftMax
  rw [Nat.mod_eq_of_lt (by omega)]

/-- A shift down by `get_shift_max` lowers the bottom, but to no row below 0, and leaves the old
bottom inside the window. -/
theorem WindowOk.getShiftMax_bounds (h : WindowOk set s) (hpos : 0 < s.globalWindow.bottom) :
    s.depth ≤ getShiftMax s.globalWindow.max s.depth s.globalWindow.depth ∧
    s.globalWindow.bottom ≤ getShiftMax s.globalWindow.max s.depth s.globalWindow.depth ∧
    getShiftMax s.globalWindow.max s.depth s.globalWindow.depth - s.depth < s.globalWindow.bottom ∧
    (getShiftMax s.globalWindow.max s.depth s.globalWindow.depth ≤ s.globalWindow.max + 2 ^ 15 ∨
      getShiftMax s.globalWindow.max s.depth s.globalWindow.depth = s.depth) := by
  have hb := h.bottom_eq
  have h₁ := h.depth_ok
  have h₂ := h.set_depth
  rw [hb] at hpos ⊢
  unfold getShiftMax
  dsimp only
  split
  · split <;> omega
  · split <;> omega

end ElasticLpwStack
