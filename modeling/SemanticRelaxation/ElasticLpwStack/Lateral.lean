import SemanticRelaxation.Prog.Sequential
import SemanticRelaxation.Support.Treiber
import SemanticRelaxation.Support.Words

/-!
# The elastic LpW stack: state and lateral stack (`src/2Dc-stack_elastic-lpw/lateral_stack.c`)

One window bounds the top rows of all sub-stacks, with one width for pops and one for pushes. The
lateral stack records how wide the rows below the window are: its top node stands for the rows up to
the `count` of the descriptor, the next node for those up to `next_count`, and so on down to 0. It
is brought up to date before each shift of the window.

Lateral nodes do not change after their creation. So a pointer to one is modelled by the list of the
nodes from it on, with `NULL` as the empty list, and `id` tells nodes apart that are otherwise
equal.
-/

namespace ElasticLpwStack

open AtomicProg Treiber

/-- `descriptor_t` of a sub-stack. -/
structure Descriptor where
  node : Option ℕ
  count : ℕ
  deriving DecidableEq

/-- `window_t`. No code writes `last_shift` after the static initialisation. -/
structure Window where
  max : ℕ
  depth : ℕ
  getWidth : ℕ
  putWidth : ℕ
  oldPutWidth : ℕ
  version : ℕ
  lastShift : ℕ
  deriving DecidableEq

/-- `lateral_node_t`; the next node is the next element of the list. -/
structure LateralNode where
  id : ℕ
  width : ℕ
  nextCount : ℕ
  deriving DecidableEq

/-- `lateral_descriptor_t`. -/
structure LateralDescriptor where
  node : List LateralNode
  count : ℕ
  version : ℕ
  deriving DecidableEq

/-- `max - depth` on `row_t`. -/
def Window.bottom (w : Window) : ℕ := Words.usub 32 w.max w.depth

/-- The shared memory: the descriptors of the sub-stacks, the window, the lateral stack, the fields
`depth` and `width` of the next window, and the nodes with their field `next_count`. `shifts` counts
the shifts of the window so far, and `failed` is set by a failed assertion or a division by zero. -/
structure State where
  setArray : ℕ → Descriptor
  globalWindow : Window
  lateral : LateralDescriptor
  lateralFresh : ℕ
  depth : ℕ
  width : ℕ
  nextCount : ℕ → ℕ
  mem : Mem
  shifts : ℕ
  failed : Bool

/-- The constant fields of `mstack_t`. -/
structure Params where
  maxWidth : ℕ
  randomHops : ℕ

/-- `assert`. -/
def assert (b : Bool) : Prog State Unit := Prog.assert (fun s => { s with failed := true }) b

/-! ### `shift_width` -/

/-- The loop of `shift_width` over the nodes whose rows reach above `bottom + 1`. -/
def widest (bottom : ℕ) : List LateralNode → ℕ → ℕ → ℕ
  | [], _, maxWidth => maxWidth
  | node :: next, count, maxWidth =>
    if bottom + 1 < count then
      widest bottom next node.nextCount (if maxWidth < node.width then node.width else maxWidth)
    else
      maxWidth

/-- `shift_width`: the width of the pops from a window with this bottom. -/
def shiftWidth (lateral : LateralDescriptor) (bottom oldPutWidth newPutWidth : ℕ) : ℕ :=
  widest bottom lateral.node lateral.count
    (if oldPutWidth ≤ newPutWidth then newPutWidth else oldPutWidth)

/-! ### `synchronize_lateral` -/

/-- `push_narrower_count` and `lower_narrower_count`. -/
def narrowerCount (w : Window) : ℕ := w.bottom + 1

/-- `push_wider_count`: the largest count of the `n` sub-stacks from `i` on. -/
def pushWiderCount (i : ℕ) : ℕ → ℕ → Prog State ℕ
  | 0, max => return max
  | n + 1, max => do
    let descriptor ← Prog.read fun s => s.setArray i
    pushWiderCount (i + 1) n (if max < descriptor.count then descriptor.count else max)

/-- `lateral_new_count`. -/
def lateralNewCount (w : Window) (lateralCount lowerLimit lateralWidth : ℕ) : ℕ :=
  if w.putWidth < lateralWidth ∧ w.lastShift ≠ 0 then
    let lastBottom := Words.usub 32 w.max (w.depth / 2)
    if lastBottom < lateralCount then lastBottom else lateralCount
  else if lateralWidth ≤ w.putWidth ∧ lowerLimit < lateralCount then
    lowerLimit
  else
    lateralCount

/-- `update_tuple_t` without `base`, which only the reclamation of nodes uses, and the next unused
node. -/
structure Update where
  count : ℕ
  node : List LateralNode
  fresh : ℕ

/-- `replace_lateral_node`: lower and replace the nodes from `node` on, whose rows reach to `count`.
-/
def replaceLateralNode (w : Window) (fresh : ℕ) : List LateralNode → ℕ → Update
  | [], count => ⟨count, [], fresh⟩
  | node :: tail, count =>
    -- below the point any node can be lowered
    if count < narrowerCount w then ⟨count, node :: tail, fresh⟩
    else
      let next := replaceLateralNode w fresh tail node.nextCount
      let newCount := lateralNewCount w count (narrowerCount w) node.width
      if next.node = tail ∧ next.count = node.nextCount ∧ newCount = count then
        ⟨count, node :: tail, next.fresh⟩
      else if next.node = tail ∧ next.count = node.nextCount ∧ newCount ≤ node.nextCount then
        next
      else if next.node = tail ∧ next.count = node.nextCount ∧ newCount < count then
        ⟨newCount, node :: tail, next.fresh⟩
      else if newCount ≤ node.nextCount then
        next
      else
        ⟨newCount, ⟨next.fresh, node.width, next.count⟩ :: next.node, next.fresh + 1⟩

/-- `replace_laterals`: the new descriptor, still without a version. -/
def replaceLaterals (w : Window) (read : LateralDescriptor) : Prog State LateralDescriptor :=
  Prog.update fun s =>
    let top := replaceLateralNode w s.lateralFresh read.node read.count
    (⟨top.node, top.count, 0⟩, { s with lateralFresh := top.fresh })

/-- `push_lateral`. -/
def pushLateral (descriptor : LateralDescriptor) (count width : ℕ) : Prog State LateralDescriptor :=
  Prog.update fun s =>
    (⟨⟨s.lateralFresh, width, descriptor.count⟩ :: descriptor.node, count, descriptor.version⟩,
      { s with lateralFresh := s.lateralFresh + 1 })

/-- `maybe_push_lateral`: record the old width if the window changes it. -/
def maybePushLateral (w : Window) (new : LateralDescriptor) : Prog State LateralDescriptor := do
  if w.oldPutWidth < w.putWidth ∧ new.count < narrowerCount w then
    pushLateral new (narrowerCount w) w.oldPutWidth
  else if w.putWidth < w.oldPutWidth then
    let upperBound ← pushWiderCount w.putWidth (w.oldPutWidth - w.putWidth) 0
    if new.count < upperBound then pushLateral new upperBound w.oldPutWidth else return new
  else
    return new

/-- The end of `synchronize_lateral`: the exchange, only if there is any change. -/
def publishLateral (w : Window) (read new : LateralDescriptor) : Prog State Unit := do
  if new.count ≠ read.count ∨ new.node ≠ read.node then
    let _ ← Prog.cae State.lateral (fun d s => { s with lateral := d }) read
      { new with version := w.version }
    return ()
  else
    return ()

/-- `synchronize_lateral` for the thread's window `w`. -/
def synchronizeLateral (w : Window) : Prog State Unit := do
  let read ← Prog.read State.lateral
  let version ← Prog.read fun s => s.globalWindow.version
  if version ≠ w.version then
    return ()
  else if read.version = w.version then
    return ()
  else
    let new ← replaceLaterals w read
    if w.putWidth ≠ w.oldPutWidth then
      let new ← maybePushLateral w new
      publishLateral w read new
    else
      publishLateral w read new

/-- `create_lateral_stack(max_width)`: one node for no rows. -/
def initialLateral (maxWidth : ℕ) : LateralDescriptor := ⟨[⟨0, maxWidth + 1, 0⟩], 0, 0⟩

/-! ### Well formed lateral stacks -/

/-- The counts decrease down to 0, and the nodes that stand for any rows have widths of sub-stacks.
-/
def LateralOk (maxWidth : ℕ) : List LateralNode → ℕ → Prop
  | [], count => count = 0
  | node :: next, count => node.nextCount ≤ count ∧
    (0 < count → node.nextCount < count ∧ node.width ≤ maxWidth) ∧
    LateralOk maxWidth next node.nextCount

/-- `shift_width` reads a record wider than `j` for a window with this bottom. -/
def Reaches (bottom j : ℕ) : List LateralNode → ℕ → Prop
  | [], _ => False
  | node :: next, count =>
    bottom + 1 < count ∧ (j < node.width ∨ Reaches bottom j next node.nextCount)

section Widest

variable {b j m c n : ℕ} {l : List LateralNode}

theorem widest_le (h : LateralOk m l c) (hn : n ≤ m) : widest b l c n ≤ m := by
  induction l generalizing c n with
  | nil => exact hn
  | cons node next ih =>
    unfold widest
    split
    next hlt =>
      refine ih h.2.2 ?_
      split
      · exact (h.2.1 (Nat.zero_lt_of_lt hlt)).2
      · exact hn
    · exact hn

theorem le_widest (b : ℕ) (l : List LateralNode) (c n : ℕ) : n ≤ widest b l c n := by
  induction l generalizing c n with
  | nil => exact le_rfl
  | cons node next ih =>
    unfold widest
    split
    · refine le_trans ?_ (ih _ _)
      split
      next hlt => exact hlt.le
      · exact le_rfl
    · exact le_rfl

theorem lt_widest (h : Reaches b j l c) (n : ℕ) : j < widest b l c n := by
  induction l generalizing c n with
  | nil => exact absurd h id
  | cons node next ih =>
    obtain ⟨hlt, hj⟩ := h
    unfold widest
    rw [if_pos hlt]
    rcases hj with hj | hj
    · refine lt_of_lt_of_le ?_ (le_widest _ _ _ _)
      split <;> omega
    · exact ih hj _

end Widest

/-! ### What is recorded

The two ends of the rows of a record are not exact. `push_wider_count` gives the highest row in use,
which is an item's row, and `push_narrower_count` the row above the bottom, while a push from below
the window puts its item at the bottom. So an item may lie one row below the rows of its record, or
in the row that is their upper bound. -/

/-- A record wider than `j` stands for the row `r`, up to the ends of its rows. -/
def Recorded (j r : ℕ) : List LateralNode → ℕ → Prop
  | [], _ => False
  | node :: next, count =>
    (node.nextCount ≤ r + 1 ∧ r ≤ count ∧ j < node.width) ∨ Recorded j r next node.nextCount

/-- No record of at most the width `p` stands for a row from `n` on. -/
def NarrowLow (p n : ℕ) : List LateralNode → ℕ → Prop
  | [], _ => True
  | node :: next, count => (node.width ≤ p → count ≤ n) ∧ NarrowLow p n next node.nextCount

section Recorded

variable {b j m p r c n : ℕ} {l : List LateralNode}

theorem Recorded.le (hl : LateralOk m l c) (h : Recorded j r l c) : r ≤ c := by
  induction l generalizing c with
  | nil => exact absurd h id
  | cons node next ih =>
    rcases h with h | h
    · exact h.2.1
    · exact (ih hl.2.2 h).trans hl.1

/-- What is recorded is read, unless the row is the lowest one of the window. -/
theorem Recorded.reaches (hl : LateralOk m l c) (h : Recorded j r l c) (hr : b + 1 < r) :
    Reaches b j l c := by
  induction l generalizing c with
  | nil => exact absurd h id
  | cons node next ih =>
    refine ⟨hr.trans_le (h.le hl), ?_⟩
    rcases h with h | h
    · exact .inl h.2.2
    · exact .inr (ih hl.2.2 h)

theorem NarrowLow.of_le (hl : LateralOk m l c) (hc : c ≤ n) : NarrowLow p n l c := by
  induction l generalizing c with
  | nil => exact True.intro
  | cons node next ih => exact ⟨fun _ => hc, ih hl.2.2 (hl.1.trans hc)⟩

/-- Above the rows of the narrow records only wide ones stand for a row. -/
theorem NarrowLow.recorded (h : NarrowLow p n l c) (hl : LateralOk m l c) (hn : n ≤ r + 1)
    (hj : j < p) : c ≤ r + 1 ∨ Recorded j r l c := by
  induction l generalizing c with
  | nil =>
    obtain rfl : c = 0 := hl
    exact .inl (Nat.zero_le _)
  | cons node next ih =>
    by_cases hc : c ≤ r + 1
    · exact .inl hc
    have hwide : p < node.width := not_le.1 fun hle => hc ((h.1 hle).trans hn)
    rcases ih h.2 hl.2.2 with hnext | hnext
    · exact .inr (.inl ⟨hnext, by omega, hj.trans hwide⟩)
    · exact .inr (.inr hnext)

end Recorded

/-! ### One replacement -/

/-- The bottom that a window has been shifted down from. -/
def Window.lastBottom (w : Window) : ℕ := Words.usub 32 w.max (w.depth / 2)

section Replace

variable {w : Window} {f j m r c x : ℕ} {node : LateralNode} {l : List LateralNode}

theorem lateralNewCount_le {limit width : ℕ} : lateralNewCount w c limit width ≤ c := by
  unfold lateralNewCount
  split
  · simp only
    split
    next hlt => exact hlt.le
    next => exact le_rfl
  · split
    next hlt => exact hlt.2.le
    next => exact le_rfl

theorem lateralNewCount_narrow {limit width : ℕ} (hw : width ≤ w.putWidth) :
    lateralNewCount w c limit width ≤ limit := by
  unfold lateralNewCount
  rw [if_neg fun h => not_lt.2 hw h.1]
  split
  · exact le_rfl
  next h => exact not_lt.1 fun hlt => h ⟨hw, hlt⟩

theorem lateralNewCount_low {limit width : ℕ} (hs : w.lastShift ≠ 0)
    (hlimit : limit ≤ w.lastBottom) :
    lateralNewCount w c limit width ≤ w.lastBottom := by
  by_cases hw : width ≤ w.putWidth
  · exact (lateralNewCount_narrow hw).trans hlimit
  · unfold lateralNewCount
    rw [if_pos ⟨not_le.1 hw, hs⟩]
    simp only
    split
    · exact le_rfl
    next h => exact not_lt.1 h

/-- A record keeps a row that it is not to lose. -/
theorem lateralNewCount_keeps {limit width : ℕ} (hx : x ≤ r + 1) (hxc : x < c) (hr : r ≤ c)
    (hj : j < width) (hrow : r + 1 < limit ∨ w.putWidth ≤ j)
    (hlast : w.lastShift ≠ 0 → r + 1 < w.lastBottom) :
    r ≤ lateralNewCount w c limit width ∧ x < lateralNewCount w c limit width := by
  unfold lateralNewCount
  split
  next h =>
    have hlow := hlast h.2
    simp only
    split
    · exact ⟨(Nat.le_succ r).trans hlow.le, hx.trans_lt hlow⟩
    · exact ⟨hr, hxc⟩
  next =>
    split
    next h =>
      have hlow : r + 1 < limit :=
        hrow.resolve_right fun hle => absurd (hj.trans_le h.1) (not_lt.2 hle)
      exact ⟨(Nat.le_succ r).trans hlow.le, hx.trans_lt hlow⟩
    next => exact ⟨hr, hxc⟩

/-- The node is kept, or copied, for the rows up to its new count, or it is removed because that is
not above the next count. -/
theorem replaceLateralNode_cases (hlow : ¬c < narrowerCount w) (hc : node.nextCount < c) :
    (node.nextCount < lateralNewCount w c (narrowerCount w) node.width ∧
      (replaceLateralNode w f (node :: l) c).count = lateralNewCount w c
      (narrowerCount w) node.width ∧
      ∃ id, (replaceLateralNode w f (node :: l) c).node =
        ⟨id, node.width, (replaceLateralNode w f l node.nextCount).count⟩ ::
          (replaceLateralNode w f l node.nextCount).node) ∨
    (lateralNewCount w c (narrowerCount w) node.width ≤ node.nextCount ∧
      (replaceLateralNode w f (node :: l) c).count =
      (replaceLateralNode w f l node.nextCount).count ∧
      (replaceLateralNode w f (node :: l) c).node =
      (replaceLateralNode w f l node.nextCount).node) := by
  rw [replaceLateralNode, if_neg hlow]
  generalize lateralNewCount w c (narrowerCount w) node.width = n
  generalize replaceLateralNode w f l node.nextCount = next
  obtain ⟨id, width, nextCount⟩ := node
  simp only
  split
  next h =>
    obtain ⟨rfl, rfl, rfl⟩ := h
    exact .inl ⟨hc, rfl, _, rfl⟩
  next =>
    split
    next h => exact .inr ⟨h.2.2, rfl, rfl⟩
    next hkeep =>
      split
      next h =>
        obtain ⟨rfl, rfl, -⟩ := h
        exact .inl ⟨not_le.1 fun hn => hkeep ⟨rfl, rfl, hn⟩, rfl, _, rfl⟩
      next =>
        split
        next hn => exact .inr ⟨hn, rfl, rfl⟩
        next hn => exact .inl ⟨not_le.1 hn, rfl, _, rfl⟩

/-- A node that may be replaced stands for some rows. -/
theorem LateralOk.lt_of_not_low (h : LateralOk m (node :: l) c) (hlow : ¬c < narrowerCount w) :
    node.nextCount < c ∧ node.width ≤ m :=
  h.2.1 ((Nat.succ_pos _).trans_le (not_lt.1 hlow))

theorem replaceLateralNode_low (hlow : c < narrowerCount w) :
    replaceLateralNode w f l c = ⟨c, l, f⟩ := by
  cases l with
  | nil => rfl
  | cons node tail => exact if_pos hlow

theorem replaceLateralNode_count_le (h : LateralOk m l c) :
    (replaceLateralNode w f l c).count ≤ c := by
  induction l generalizing c with
  | nil => exact le_rfl
  | cons node tail ih =>
    by_cases hlow : c < narrowerCount w
    · rw [replaceLateralNode_low hlow]
    · rcases replaceLateralNode_cases (f := f) (l := tail) hlow (h.lt_of_not_low hlow).1 with
        ⟨-, hu, -⟩ | ⟨-, hu, -⟩
      · rw [hu]
        exact lateralNewCount_le
      · rw [hu]
        exact (ih h.2.2).trans h.1

theorem replaceLateralNode_ok (h : LateralOk m l c) :
    LateralOk m (replaceLateralNode w f l c).node (replaceLateralNode w f l c).count := by
  induction l generalizing c with
  | nil => exact h
  | cons node tail ih =>
    by_cases hlow : c < narrowerCount w
    · rw [replaceLateralNode_low hlow]
      exact h
    · obtain ⟨hlt, hwidth⟩ := h.lt_of_not_low hlow
      rcases replaceLateralNode_cases (f := f) (l := tail) hlow hlt with
        ⟨hn, hu, id, hnode⟩ | ⟨-, hu, hnode⟩
      · rw [hu, hnode]
        have hnext := (replaceLateralNode_count_le (w := w) (f := f) h.2.2).trans_lt hn
        exact ⟨hnext.le, fun _ => ⟨hnext, hwidth⟩, ih h.2.2⟩
      · rw [hu, hnode]
        exact ih h.2.2

/-- The records that are not wider than the pushes are lowered to the row above the bottom. -/
theorem replaceLateralNode_narrow (h : LateralOk m l c) : NarrowLow w.putWidth (narrowerCount w)
    (replaceLateralNode w f l c).node (replaceLateralNode w f l c).count := by
  induction l generalizing c with
  | nil => exact True.intro
  | cons node tail ih =>
    by_cases hlow : c < narrowerCount w
    · rw [replaceLateralNode_low hlow]
      exact .of_le h hlow.le
    · rcases replaceLateralNode_cases (f := f) (l := tail) hlow (h.lt_of_not_low hlow).1 with
        ⟨-, hu, id, hnode⟩ | ⟨-, hu, hnode⟩
      · rw [hu, hnode]
        exact ⟨lateralNewCount_narrow, ih h.2.2⟩
      · rw [hu, hnode]
        exact ih h.2.2

/-- After a shift down no record stands for rows above the old bottom. -/
theorem replaceLateralNode_lowered (h : LateralOk m l c) (hs : w.lastShift ≠ 0)
    (hlimit : narrowerCount w ≤ w.lastBottom) :
    (replaceLateralNode w f l c).count ≤ w.lastBottom := by
  induction l generalizing c with
  | nil =>
    obtain rfl : c = 0 := h
    exact Nat.zero_le _
  | cons node tail ih =>
    by_cases hlow : c < narrowerCount w
    · rw [replaceLateralNode_low hlow]
      exact hlow.le.trans hlimit
    · rcases replaceLateralNode_cases (f := f) (l := tail) hlow (h.lt_of_not_low hlow).1 with
        ⟨-, hu, -⟩ | ⟨-, hu, -⟩
      · rw [hu]
        exact lateralNewCount_low hs hlimit
      · rw [hu]
        exact ih h.2.2

/-- What is recorded stays recorded, below the window or for sub-stacks outside the width of the
pushes. -/
theorem Recorded.replace (hl : LateralOk m l c) (h : Recorded j r l c)
    (hrow : r + 1 < narrowerCount w ∨ w.putWidth ≤ j)
    (hlast : w.lastShift ≠ 0 → r + 1 < w.lastBottom) :
    Recorded j r (replaceLateralNode w f l c).node (replaceLateralNode w f l c).count := by
  induction l generalizing c with
  | nil => exact absurd h id
  | cons node tail ih =>
    by_cases hlow : c < narrowerCount w
    · rw [replaceLateralNode_low hlow]
      exact h
    · have hlt := (hl.lt_of_not_low hlow).1
      have hcases := replaceLateralNode_cases (f := f) (l := tail) hlow hlt
      rcases h with ⟨hnext, hle, hj⟩ | h
      · obtain ⟨hr, hx⟩ := lateralNewCount_keeps hnext hlt hle hj hrow hlast
        rcases hcases with ⟨-, hu, id, hnode⟩ | ⟨hn, -, -⟩
        · rw [hu, hnode]
          exact .inl ⟨(replaceLateralNode_count_le hl.2.2).trans hnext, hr, hj⟩
        · exact absurd hx (not_lt.2 hn)
      · have hrest := ih hl.2.2 h
        rcases hcases with ⟨-, hu, id, hnode⟩ | ⟨-, hu, hnode⟩
        · rw [hu, hnode]
          exact .inr hrest
        · rw [hu, hnode]
          exact hrest

end Replace

/-! ### One synchronisation

`synchronize_lateral` replaces the laterals of the shifting thread's window and records the old
width of the pushes. From what is then recorded, `Recording.outside` and `Recording.below` say that
no item outside the width of the pushes is forgotten, and `Recording.placed` that this is so again
for the next window. -/

/-- Where the items are that pushes have put in row `r` of sub-stack `j` until the window `w`, for
the laterals `u` replaced for it: below the rows of the records at most what they stand for, and
outside the old width what they stand for or what was pushed since the last shift. -/
structure Placed (w : Window) (u : Update) (j r : ℕ) : Prop where
  below : u.count ≤ r + 1 ∨ Recorded j r u.node u.count
  outside : w.oldPutWidth ≤ j →
    Recorded j r u.node u.count ∨ (j < w.putWidth ∧ w.bottom ≤ r)

/-- The laterals after the synchronisation with a window `w`, from the replaced laterals `u` and the
counts of the sub-stacks. -/
inductive Recording (w : Window) (count : ℕ → ℕ) (u : Update) : List LateralNode → ℕ → Prop
  | keep (hwider : w.oldPutWidth < w.putWidth → narrowerCount w ≤ u.count)
      (hnarrower : ∀ j < w.oldPutWidth, w.putWidth ≤ j → count j ≤ u.count) :
      Recording w count u u.node u.count
  | push {id c : ℕ} (hlt : u.count < c) (hwider : w.oldPutWidth < w.putWidth → c = narrowerCount w)
      (hnarrower : ∀ j < w.oldPutWidth, w.putWidth ≤ j → count j ≤ c) :
      Recording w count u (⟨id, w.oldPutWidth, u.count⟩ :: u.node) c

/-- The width of the top record. -/
def topWidth : List LateralNode → ℕ
  | [] => 0
  | node :: _ => node.width

/-- If the top record ends at the row of a sub-stack that the pushes have left, or just above it,
then it is wide enough for the sub-stack. -/
def TopClear (w : Window) (count : ℕ → ℕ) (l : List LateralNode) (c : ℕ) : Prop :=
  ∀ j < w.oldPutWidth, w.putWidth ≤ j → 0 < count j → (count j = c ∨ count j + 1 = c) →
    j < topWidth l

instance (w : Window) (count : ℕ → ℕ) (l : List LateralNode) (c : ℕ) :
    Decidable (TopClear w count l c) :=
  inferInstanceAs (Decidable (∀ j < w.oldPutWidth, _))

section Recording

variable {w w' : Window} {count : ℕ → ℕ} {u : Update} {f j m r c : ℕ} {l : List LateralNode}

theorem Recording.ok (h : Recording w count u l c) (hu : LateralOk m u.node u.count)
    (hold : w.oldPutWidth ≤ m) : LateralOk m l c := by
  cases h with
  | keep => exact hu
  | push hlt => exact ⟨hlt.le, fun _ => ⟨hlt, hold⟩, hu⟩

theorem Recorded.of_top (hl : LateralOk m l c) (hc : c ≤ r + 1) (hrc : r ≤ c)
    (hj : j < topWidth l) : Recorded j r l c := by
  cases l with
  | nil => exact absurd hj (Nat.not_lt_zero _)
  | cons node next => exact .inl ⟨hl.1.trans hc, hrc, hj⟩

/-- Every item outside the width of the pushes is recorded. -/
theorem Recording.outside (h : Recording w count u l c) (hu : LateralOk m u.node u.count)
    (htop : TopClear w count l c) (hp : Placed w u j r) (hr : 0 < r) (hrj : r ≤ count j)
    (hj : w.putWidth ≤ j) : Recorded j r l c := by
  by_cases hold : w.oldPutWidth ≤ j
  · have hrec : Recorded j r u.node u.count :=
      (hp.outside hold).resolve_right fun h => absurd h.1 (not_lt.2 hj)
    cases h with
    | keep => exact hrec
    | push => exact .inr hrec
  · have hlt := not_le.1 hold
    cases h with
    | keep _ hnarrower =>
      rcases hp.below with hle | hrec
      · have hc := hnarrower j hlt hj
        refine .of_top hu hle (hrj.trans hc) (htop j hlt hj (hr.trans_le hrj) ?_)
        omega
      · exact hrec
    | push hc _ hnarrower =>
      rcases hp.below with hle | hrec
      · exact .inl ⟨hle, hrj.trans (hnarrower j hlt hj), hlt⟩
      · exact .inr hrec

/-- An item inside the width of the pushes is recorded, or its row is above the records. -/
theorem Recording.below (h : Recording w count u l c) (hp : Placed w u j r) (hj : j < w.putWidth) :
    c ≤ r + 1 ∨ Recorded j r l c := by
  cases h with
  | keep => exact hp.below
  | push hc hwider =>
    rcases hp.below with hle | hrec
    · by_cases hcr : c ≤ r + 1
      · exact .inl hcr
      by_cases hold : w.oldPutWidth ≤ j
      · rcases hp.outside hold with hrec | ⟨-, hb⟩
        · exact .inr (.inr hrec)
        · have hcb : c = w.bottom + 1 := hwider (hold.trans_lt hj)
          exact .inl (by omega)
      · exact .inr (.inl ⟨hle, by omega, not_le.1 hold⟩)
    · exact .inr (.inr hrec)

/-- What is placed for one window is placed for the next one. -/
theorem Recording.placed (h : Recording w count u l c) (hu : LateralOk m u.node u.count)
    (hl : LateralOk m l c) (htop : TopClear w count l c) (hp : Placed w u j r) (hr : 0 < r)
    (hrj : r ≤ count j) (hold : w'.oldPutWidth = w.putWidth)
    (hlow : narrowerCount w' ≤ w'.lastBottom)
    (hlast : w.putWidth ≤ j → w'.putWidth ≤ j → w'.lastShift ≠ 0 → r + 1 < w'.lastBottom) :
    Placed w' (replaceLateralNode w' f l c) j r := by
  -- a row that is recorded for the old window, and is not to be forgotten
  have hkeep : Recorded j r l c → (r + 1 < narrowerCount w' ∨ w'.putWidth ≤ j) →
      (w'.lastShift ≠ 0 → r + 1 < w'.lastBottom) →
      Recorded j r (replaceLateralNode w' f l c).node (replaceLateralNode w' f l c).count :=
    fun hrec => hrec.replace hl
  constructor
  · by_cases hrow : r + 1 < narrowerCount w'
    · have hc : c ≤ r + 1 ∨ Recorded j r l c := by
        by_cases hj : j < w.putWidth
        · exact h.below hp hj
        · exact .inr (h.outside hu htop hp hr hrj (not_lt.1 hj))
      rcases hc with hc | hrec
      · exact .inl ((replaceLateralNode_count_le hl).trans hc)
      · exact .inr (hkeep hrec (.inl hrow) fun _ => hrow.trans_le hlow)
    by_cases hput : j < w'.putWidth
    · exact (replaceLateralNode_narrow hl).recorded (replaceLateralNode_ok hl) (not_lt.1 hrow) hput
    by_cases hj : j < w.putWidth
    · rcases h.below hp hj with hc | hrec
      · exact .inl ((replaceLateralNode_count_le hl).trans hc)
      by_cases hs : w'.lastShift ≠ 0 ∧ w'.lastBottom ≤ r + 1
      · exact .inl ((replaceLateralNode_lowered hl hs.1 hlow).trans hs.2)
      · exact .inr (hkeep hrec (.inr (not_lt.1 hput)) fun h => not_le.1 fun h' => hs ⟨h, h'⟩)
    · exact .inr (hkeep (h.outside hu htop hp hr hrj (not_lt.1 hj)) (.inr (not_lt.1 hput))
        (hlast (not_lt.1 hj) (not_lt.1 hput)))
  · intro hj
    rw [hold] at hj
    have hrec := h.outside hu htop hp hr hrj hj
    by_cases hput : j < w'.putWidth
    · by_cases hb : w'.bottom ≤ r
      · exact .inr ⟨hput, hb⟩
      · have hrow : r + 1 < narrowerCount w' := Nat.succ_lt_succ (not_le.1 hb)
        exact .inl (hkeep hrec (.inl hrow) fun _ => hrow.trans_le hlow)
    · exact .inl (hkeep hrec (.inr (not_lt.1 hput)) (hlast hj (not_lt.1 hput)))

end Recording

end ElasticLpwStack
