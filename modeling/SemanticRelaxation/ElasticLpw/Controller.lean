import SemanticRelaxation.ElasticLpw.Lateral
import Mathlib.Data.Int.Basic
import Mathlib.Tactic.Common

/-!
# The controller of the width (`src/2Dd-queue_elastic-lpw/controller.h`)

Each thread counts its contended and its uncontended attempts to enqueue. When the count gets too
large or too small, the thread votes for a wider or a narrower queue, and `update_width` stores a
width that is `DIFF` away from the one in the thread's put window. The window shifts bring that
width into the windows.

* `System`: the width, the put windows and the controllers; the steps of the threads are taken in
  any order;
* `controller_in_range`: the width stays in its range as long as no vote widens a window beyond it.
-/

namespace ElasticLpw

namespace Controller

/-- An assignment to an `int16_t`. -/
def int16 (x : ℤ) : ℤ := Int.bmod x (2 ^ 16)

def contInc : ℤ := 75

def uncontDec : ℤ := 1

def contTreshold : ℤ := 5000

def iterTreshold : ℤ := 40000000

def diff : ℕ := 5

/-- `elastic_controller_t`. -/
structure State where
  count : ℤ
  iters : ℤ
  thisMax : ℕ
  votes : ℤ
  deriving DecidableEq

/-- The controller of a thread before its first attempt. -/
def State.zero : State := ⟨0, 0, 0, 0⟩

/-- The regular halving of the count, so that it does not drift. -/
def halve (cont : State) : State :=
  if cont.iters = iterTreshold then { cont with count := cont.count / 2, iters := 0 } else cont

/-- `inc_controller`. -/
def incController (cont : State) : Bool × State :=
  let cont := halve { cont with
    count := int16 (cont.count + contInc)
    iters := int16 (cont.iters + 1) }
  if cont.count > contTreshold then (true, { cont with count := 0 }) else (false, cont)

/-- `dec_controller`. -/
def decController (cont : State) : Bool × State :=
  let cont := halve { cont with
    count := int16 (cont.count - uncontDec)
    iters := int16 (cont.iters + 1) }
  if cont.count < -contTreshold then (true, { cont with count := 0 }) else (false, cont)

/-- The votes are those for one put window; `this_max` is a `uint16_t`. -/
def follow (cont : State) (threadWin : PutWindow) : State :=
  if cont.thisMax ≠ threadWin.max then { cont with votes := 0, thisMax := threadWin.max % 2 ^ 16 }
    else cont

/-- `inc_put_controller`: the controller afterwards, and the width that is given to `update_width`.
-/
def incPutController (cont : State) (threadWin : PutWindow) : State × Option ℕ :=
  let (vote, cont) := incController cont
  if vote ∧ threadWin.width ≠ 0 then
    let cont := follow cont threadWin
    let cont := { cont with votes := int16 (cont.votes + 1) }
    (cont, if cont.votes > 0 then some ((threadWin.width + diff) % 2 ^ 16) else none)
  else (cont, none)

/-- `dec_put_controller`. -/
def decPutController (cont : State) (threadWin : PutWindow) : State × Option ℕ :=
  let (vote, cont) := decController cont
  if vote ∧ threadWin.width > 1 then
    let cont := follow cont threadWin
    let cont := { cont with votes := int16 (cont.votes - 1) }
    (cont, if cont.votes < 0 ∧ threadWin.width > diff then some (threadWin.width - diff) else none)
  else (cont, none)

/-- What the controllers read and write: `set->width` and `set->max_width`, the global put window,
and each thread's `thread_PWindow`, `new_window` in its call of `put_window`, and controller. -/
structure System where
  width : ℕ
  maxWidth : ℕ
  globalPWindow : PutWindow
  pWindow : ℕ → PutWindow
  newWindow : ℕ → Option PutWindow
  controller : ℕ → State

/-- After `create_queue`. -/
def System.initial (maxWidth width depth : ℕ) : System :=
  ⟨width, maxWidth, ⟨depth, depth, width, width⟩, fun _ => ⟨0, 0, 0, 0⟩, fun _ => none,
    fun _ => .zero⟩

/-- The steps of the thread `t`. -/
inductive Event
  /-- `enq_cae` has failed: `inc_put_controller`. -/
  | contended (t : ℕ)
  /-- `enq_cae` has succeeded: `dec_put_controller`. -/
  | uncontended (t : ℕ)
  /-- The loads of the two words of the global put window. -/
  | loadWord1 (t : ℕ)
  | loadWord2 (t : ℕ)
  /-- The shift of the put window: `new_window` is filled, for a depth that is found in the set, and
  then exchanged. -/
  | prepare (t depth : ℕ)
  | shift (t : ℕ)

/-- `update_width`, if it is called. -/
def System.updateWidth (s : System) (t : ℕ) (x : State × Option ℕ) : System :=
  { s with controller := Function.update s.controller t x.1, width := x.2.getD s.width }

/-- `CAE(&global_PWindow.content, &thread_PWindow, &new_window)`, and the assignment to
`thread_PWindow`. -/
def System.exchange (s : System) (t : ℕ) : System :=
  match s.newWindow t with
  | none => s
  | some new =>
    if s.globalPWindow = s.pWindow t then
      { s with globalPWindow := new, pWindow := Function.update s.pWindow t new }
    else { s with pWindow := Function.update s.pWindow t s.globalPWindow }

/-- One step. -/
def System.step (s : System) : Event → System
  | .contended t => s.updateWidth t (incPutController (s.controller t) (s.pWindow t))
  | .uncontended t => s.updateWidth t (decPutController (s.controller t) (s.pWindow t))
  | .loadWord1 t =>
    { s with
      pWindow := Function.update s.pWindow t { s.pWindow t with max := s.globalPWindow.max } }
  | .loadWord2 t =>
    { s with
      pWindow := Function.update s.pWindow t { s.globalPWindow with max := (s.pWindow t).max } }
  | .prepare t depth =>
    let new : PutWindow := ⟨(s.pWindow t).max + depth, depth, (s.pWindow t).nextWidth, s.width⟩
    { s with newWindow := Function.update s.newWindow t (some new) }
  | .shift t => s.exchange t

/-! ### The range of the width -/

/-- The width is in its range, and the indices of all windows are indices of the arrays. -/
structure InRange (s : System) : Prop where
  pos : 1 ≤ s.width
  le : s.width ≤ s.maxWidth
  globalPWindow : s.globalPWindow.width ≤ s.maxWidth ∧ s.globalPWindow.nextWidth ≤ s.maxWidth
  pWindow : ∀ t, (s.pWindow t).width ≤ s.maxWidth ∧ (s.pWindow t).nextWidth ≤ s.maxWidth
  newWindow : ∀ t new, s.newWindow t = some new → new.width ≤ s.maxWidth ∧
    new.nextWidth ≤ s.maxWidth

/-- The contended attempt is a vote for a wider queue that succeeds. -/
def Widens (cont : State) (threadWin : PutWindow) : Prop :=
  (incController cont).1 = true ∧ threadWin.width ≠ 0 ∧
    0 < int16 ((follow (incController cont).2 threadWin).votes + 1)

/-- A vote does not widen a window beyond the range. A sum that a `uint16_t` does not hold is a
small width. -/
def Allowed (s : System) : Event → Prop
  | .contended t => Widens (s.controller t) (s.pWindow t) →
      (s.pWindow t).width + diff ≤ s.maxWidth ∨ 2 ^ 16 < (s.pWindow t).width + diff
  | _ => True

theorem incPutController_width (cont : State) (w : PutWindow) :
    (Widens cont w ∧ (incPutController cont w).2 = some ((w.width + diff) % 2 ^ 16)) ∨
      (¬Widens cont w ∧ (incPutController cont w).2 = none) := by
  unfold Widens incPutController
  obtain ⟨vote, cont'⟩ := incController cont
  by_cases hv : vote = true ∧ w.width ≠ 0
  · simp only [if_pos hv]
    by_cases hvotes : int16 ((follow cont' w).votes + 1) > 0
    · exact .inl ⟨⟨hv.1, hv.2, hvotes⟩, by rw [if_pos hvotes]⟩
    · exact .inr ⟨fun h => hvotes h.2.2, by rw [if_neg hvotes]⟩
  · simp only [if_neg hv]
    exact .inr ⟨fun h => hv ⟨h.1, h.2.1⟩, trivial⟩

theorem decPutController_width (cont : State) (w : PutWindow) :
    (decPutController cont w).2 = none ∨ (decPutController cont w).2 = some (w.width - diff) ∧
    diff < w.width := by
  unfold decPutController
  obtain ⟨vote, cont'⟩ := decController cont
  by_cases hv : vote = true ∧ w.width > 1
  · simp only [if_pos hv]
    by_cases hvotes : int16 ((follow cont' w).votes - 1) < 0 ∧ w.width > diff
    · exact .inr ⟨by rw [if_pos hvotes], hvotes.2⟩
    · exact .inl (by rw [if_neg hvotes])
  · simp only [if_neg hv]
    exact .inl trivial

section Steps

variable {s : System} {e : Event} {t : ℕ} {w : PutWindow}

theorem step_maxWidth (s : System) (e : Event) : (s.step e).maxWidth = s.maxWidth := by
  cases e with
  | shift t =>
    show (s.exchange t).maxWidth = s.maxWidth
    unfold System.exchange
    cases s.newWindow t with
    | none => rfl
    | some new =>
      dsimp only
      split
      · rfl
      · rfl
  | _ => rfl

/-- A step on the put window of one thread. -/
theorem InRange.setWindow (h : InRange s) (hw : w.width ≤ s.maxWidth ∧ w.nextWidth ≤ s.maxWidth) :
    InRange { s with pWindow := Function.update s.pWindow t w } := by
  refine ⟨h.pos, h.le, h.globalPWindow, fun u => ?_, h.newWindow⟩
  show (Function.update s.pWindow t w u).width ≤ s.maxWidth ∧
    (Function.update s.pWindow t w u).nextWidth ≤ s.maxWidth
  by_cases hu : u = t
  · subst hu
    rw [Function.update_self]
    exact hw
  · rw [Function.update_of_ne hu]
    exact h.pWindow u

/-- A call of a controller concerns the width only. -/
theorem InRange.updateWidth (h : InRange s) {x : State × Option ℕ}
    (hx : ∀ width, x.2 = some width → 1 ≤ width ∧ width ≤ s.maxWidth) :
    InRange (s.updateWidth t x) := by
  have hwidth : 1 ≤ x.2.getD s.width ∧ x.2.getD s.width ≤ s.maxWidth := by
    cases hc : x.2 with
    | none => exact ⟨h.pos, h.le⟩
    | some width => exact hx width hc
  exact ⟨hwidth.1, hwidth.2, h.globalPWindow, h.pWindow, h.newWindow⟩

theorem cut_range_iff {width maxWidth : ℕ} (hle : width ≤ maxWidth) (hmax : maxWidth < 2 ^ 16) :
    (1 ≤ (width + diff) % 2 ^ 16 ∧ (width + diff) % 2 ^ 16 ≤ maxWidth) ↔
      width + diff ≤ maxWidth ∨ 2 ^ 16 < width + diff := by
  have hd : diff = 5 := rfl
  omega

/-- A step that is allowed keeps all widths in range. -/
theorem InRange.step (h : InRange s) (hmax : s.maxWidth < 2 ^ 16) (he : Allowed s e) :
    InRange (s.step e) := by
  cases e with
  | contended t =>
    refine h.updateWidth fun width hw => ?_
    rcases incPutController_width (s.controller t) (s.pWindow t) with ⟨hwid, hx⟩ | ⟨-, hx⟩
    · obtain rfl := Option.some.inj (hx.symm.trans hw)
      exact (cut_range_iff (h.pWindow t).1 hmax).2 (he hwid)
    · cases hx.symm.trans hw
  | uncontended t =>
    refine h.updateWidth fun width hw => ?_
    rcases decPutController_width (s.controller t) (s.pWindow t) with hx | ⟨hx, hlt⟩
    · cases hx.symm.trans hw
    · obtain rfl := Option.some.inj (hx.symm.trans hw)
      have hle := (h.pWindow t).1
      omega
  | loadWord1 t => exact h.setWindow (h.pWindow t)
  | loadWord2 t => exact h.setWindow h.globalPWindow
  | prepare t depth =>
    refine ⟨h.pos, h.le, h.globalPWindow, h.pWindow, fun u new hu => ?_⟩
    change Function.update s.newWindow t _ u = some new at hu
    by_cases hut : u = t
    · subst hut
      rw [Function.update_self] at hu
      obtain rfl := Option.some.inj hu
      exact ⟨(h.pWindow u).2, h.le⟩
    · rw [Function.update_of_ne hut] at hu
      exact h.newWindow u new hu
  | shift t =>
    show InRange (s.exchange t)
    unfold System.exchange
    cases hnew : s.newWindow t with
    | none => exact h
    | some new =>
      have hw := h.newWindow t new hnew
      dsimp only
      split
      · have h' : InRange { s with pWindow := Function.update s.pWindow t new } := h.setWindow hw
        exact ⟨h'.pos, h'.le, hw, h'.pWindow, h'.newWindow⟩
      · exact h.setWindow h.globalPWindow

/-- From a state in range, a step keeps the width in range only if it is allowed. -/
theorem InRange.step_iff (h : InRange s) (hmax : s.maxWidth < 2 ^ 16) :
    (1 ≤ (s.step e).width ∧ (s.step e).width ≤ (s.step e).maxWidth) ↔ Allowed s e := by
  constructor
  · intro hrange
    rw [step_maxWidth] at hrange
    cases e with
    | contended t =>
      intro hwid
      rcases incPutController_width (s.controller t) (s.pWindow t) with ⟨-, hx⟩ | ⟨hnot, -⟩
      · have hwidth : (s.step (.contended t)).width = ((s.pWindow t).width + diff) % 2 ^ 16 := by
          show (incPutController (s.controller t) (s.pWindow t)).2.getD s.width = _
          rw [hx]
          rfl
        rw [hwidth] at hrange
        exact (cut_range_iff (h.pWindow t).1 hmax).1 hrange
      · exact absurd hwid hnot
    | _ => trivial
  · intro he
    have h' := h.step hmax he
    exact ⟨h'.pos, h'.le⟩

end Steps

/-- The states that allowed steps reach. -/
inductive Run (maxWidth width depth : ℕ) : System → Prop
  | init : Run maxWidth width depth (.initial maxWidth width depth)
  | step {s : System} (e : Event) (h : Run maxWidth width depth s) (he : Allowed s e) :
    Run maxWidth width depth (s.step e)

/-- In every run whose steps are allowed, the width and the windows are in range; and the first step
that is not allowed takes the width out of its range. -/
theorem controller_in_range {maxWidth width depth : ℕ} (hpos : 1 ≤ width) (hle : width ≤ maxWidth)
    (hmax : maxWidth < 2 ^ 16) {s : System} (hs : Run maxWidth width depth s) :
    s.maxWidth = maxWidth ∧ InRange s ∧
      ∀ e, (1 ≤ (s.step e).width ∧ (s.step e).width ≤ (s.step e).maxWidth) ↔ Allowed s e := by
  have hrun : s.maxWidth = maxWidth ∧ InRange s := by
    induction hs with
    | init =>
      exact ⟨rfl, hpos, hle, ⟨hle, hle⟩, fun _ => ⟨Nat.zero_le _, Nat.zero_le _⟩, nofun⟩
    | step e _ he ih =>
      rw [step_maxWidth]
      exact ⟨ih.1, ih.2.step (ih.1.symm ▸ hmax) he⟩
  exact ⟨hrun.1, hrun.2, fun e => hrun.2.step_iff (hrun.1.symm ▸ hmax)⟩

/-- Two attempts of a thread, of which one is contended. -/
theorem controller_in_range_two : ∃ s, Run 4 2 3 s ∧ s.maxWidth = 4 ∧ InRange s ∧
    ∀ e, (1 ≤ (s.step e).width ∧ (s.step e).width ≤ (s.step e).maxWidth) ↔ Allowed s e := by
  have hrun : Run 4 2 3 (((System.initial 4 2 3).step (.contended 0)).step (.uncontended 0)) :=
    .step _ (.step _ .init fun h => absurd h.1 (by decide)) True.intro
  exact ⟨_, hrun, controller_in_range (by decide) (by decide) (by decide) hrun⟩

/-- The states that any steps reach. -/
def after (s : System) (es : List Event) : System := es.foldl System.step s

/-- One sub-queue. After 67 attempts that are contended the width is 6, and two shifts later that is
the width of the put window, whose indices the arrays do not have. -/
theorem controller_widens :
    let s := after (.initial 1 1 1) (.loadWord1 0 :: .loadWord2 0 :: List.replicate 67
      (.contended 0) ++
      [.prepare 0 1, .shift 0, .prepare 0 1, .shift 0])
    s.maxWidth = 1 ∧ s.width = 6 ∧ (s.pWindow 0).width = 6 := by
  decide +kernel

end Controller

end ElasticLpw
