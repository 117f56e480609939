import SemanticRelaxation.ElasticLpwStack.Stack
import SemanticRelaxation.Prog.Annotated
import SemanticRelaxation.Prog.Versioned

/-!
# The elastic LpW stack with its version checks observed

The window functions and the calls once more, over the shared memory and what the version checks of
the window functions find (`Versioned.check`). A thread remembers after which shift it took its copy
of the window. All that does not touch the window is the code of the stack itself, and without the
observations the rest is so as well (`push_annotates`, `pop_annotates`).
-/

namespace ElasticLpwStack

namespace Copies

open AtomicProg Treiber

/-- The shared memory, and what the version checks have observed. -/
abbrev Watched := State × Observed

/-- The window counts its shifts, beginning with 1. -/
def window : Versioned State Window where
  get := State.globalWindow
  set w s := { s with globalWindow := w, shifts := s.shifts + 1 }
  version := Window.version
  writes s := s.shifts + 1
  modulus := 2 ^ 16

/-- The thread-local window and indices. -/
structure Local where
  copy : Copied Window
  putIndex : ℕ
  getIndex : ℕ

/-- `thread_Window`. -/
abbrev Local.window (tl : Local) : Window := tl.copy.value

/-- The thread-local variables before the first call of a thread: static storage, all zero. -/
def Local.zero : Local := ⟨⟨⟨0, 0, 0, 0, 0, 0, 0⟩, 0⟩, 0, 0⟩

/-- The fields of the new window that do not depend on the old maximum: `put_width` and `depth` of
the set, the lateral stack, and the `last_shift` that is not initialised. -/
def readSet : Prog State (ℕ × ℕ × LateralDescriptor × ℕ) := do
  let putWidth ← Prog.read State.width
  let depth ← Prog.read State.depth
  let lateral ← Prog.read State.lateral
  let lastShift ← Prog.choose
  return (putWidth, depth, lateral, lastShift)

/-- The shift of the thread's window to the maximum `newMax depth`: the thread's copy afterwards. -/
def shiftWindow (copy : Copied Window) (newMax : ℕ → ℕ) : Prog Watched (Copied Window) := do
  let w := copy.value
  (synchronizeLateral w).onFst
  let (putWidth, depth, lateral, lastShift) ← readSet.onFst
  let max := newMax depth
  let getWidth := shiftWidth lateral (Words.usub 32 max depth) w.putWidth putWidth
  (assert (depth ≤ max)).onFst
  let new : Window := ⟨max, depth, getWidth, putWidth, w.putWidth, (w.version + 1) % 2 ^ 16,
    lastShift % 2 ^ 16⟩
  let version ← window.check copy
  if w.version = version then
    match ← window.exchange w new with
    | some copy => return { copy with value := new }
    | none => window.load
  else
    return copy

/-- The variables of the search loops; `put_window` has no `empty`. -/
structure Search where
  tl : Local
  hops : ℕ
  random : ℕ
  empty : Bool

/-! ### `put_window` -/

/-- The thread-local variables with a window that was just loaded. -/
def Local.syncPut (tl : Local) (copy : Copied Window) : Local :=
  { tl with copy, putIndex := syncIndex copy.value.putWidth tl.putIndex }

/-- The first synchronisation of `put_window`. -/
def syncPutWindow (tl : Local) : Prog Watched Local := do
  let version ← window.check tl.copy
  if tl.window.version ≠ version then
    let copy ← window.load
    return tl.syncPut copy
  else
    return tl

/-- The lines before the loop of `put_window`. -/
def enterPut (contention : Bool) (tl : Local) : Prog Watched Local := do
  let tl ← syncPutWindow tl
  if contention ∨ tl.window.putWidth ≤ tl.putIndex then
    let putIndex ← (randomIndex tl.window.putWidth).onFst
    return { tl with putIndex }
  else
    return tl

/-- One round of the loop of `put_window`. -/
def putRound (set : Params) (st : Search) : Prog Watched (Search ⊕ (Descriptor × Local)) := do
  let tl := st.tl
  let descriptor ← (readDescriptor tl.putIndex).onFst
  let version ← window.check tl.copy
  if version ≠ tl.window.version then
    let copy ← window.load
    return .inl { st with hops := 0, tl := tl.syncPut copy }
  else if descriptor.count < tl.window.max then
    return .inr (descriptor, { tl with
      getIndex := if tl.getIndex < tl.window.putWidth then tl.putIndex else tl.getIndex })
  else if st.hops ≠ tl.window.putWidth then
    let (putIndex, random, hops) ←
      (hop set tl.putIndex st.random st.hops tl.window.putWidth).onFst
    return .inl { st with tl := { tl with putIndex }, hops, random }
  else
    let copy ← shiftWindow tl.copy (putShiftMax tl.window.max)
    return .inl { st with hops := 0, tl := tl.syncPut copy }

/-- `put_window`. -/
def putWindow (set : Params) (contention : Bool) (tl : Local) :
    Prog Watched (Descriptor × Local) := do
  let tl ← enterPut contention tl
  Prog.forever (putRound set) ⟨tl, 0, 0, true⟩

/-! ### `get_window` -/

/-- The thread-local variables with a window that was just loaded. -/
def Local.syncGet (tl : Local) (copy : Copied Window) : Local :=
  { tl with copy, getIndex := syncIndex copy.value.getWidth tl.getIndex }

/-- The first synchronisation of `get_window`. -/
def syncGetWindow (tl : Local) : Prog Watched Local := do
  let version ← window.check tl.copy
  if tl.window.version ≠ version then
    let copy ← window.load
    return tl.syncGet copy
  else
    return tl

/-- The lines before the loop of `get_window`. -/
def enterGet (contention : Bool) (tl : Local) : Prog Watched Local := do
  let tl ← syncGetWindow tl
  if contention ∨ tl.window.getWidth ≤ tl.getIndex then
    let getIndex ← (randomIndex tl.window.getWidth).onFst
    return { tl with getIndex }
  else
    return tl

/-- One round of the loop of `get_window`. -/
def getRound (set : Params) (st : Search) : Prog Watched (Search ⊕ (Descriptor × Local)) := do
  let tl := st.tl
  let descriptor ← (readDescriptor tl.getIndex).onFst
  let version ← window.check tl.copy
  if version ≠ tl.window.version then
    let copy ← window.load
    return .inl { st with hops := 0, empty := true, tl := tl.syncGet copy }
  else if tl.window.bottom < descriptor.count then
    return .inr (descriptor, tl)
  else if st.hops ≠ tl.window.getWidth then
    let empty := if 0 < descriptor.count then false else st.empty
    let (getIndex, random, hops) ←
      (hop set tl.getIndex st.random st.hops tl.window.getWidth).onFst
    return .inl ⟨{ tl with getIndex }, hops, random, empty⟩
  else if st.empty then
    return .inr (descriptor, tl)
  else
    let copy ← shiftWindow tl.copy (fun depth => getShiftMax tl.window.max depth tl.window.depth)
    return .inl { st with hops := 0, empty := true, tl := tl.syncGet copy }

/-- `get_window`. -/
def getWindow (set : Params) (contention : Bool) (tl : Local) :
    Prog Watched (Descriptor × Local) := do
  let tl ← enterGet contention tl
  let (descriptor, tl) ← Prog.forever (getRound set) ⟨tl, 0, 0, true⟩
  return (descriptor, { tl with
    putIndex := if tl.getIndex < tl.window.putWidth then tl.getIndex else tl.putIndex })

/-! ### The calls -/

/-- `push`. -/
def push (set : Params) (val : ℤ) (tl : Local) : Prog Watched (Local × ℤ) := do
  let newNode ← (createNode val).onFst
  Prog.forever (fun (contention, tl) => do
    let (descriptor, tl) ← putWindow set contention tl
    (setNext newNode descriptor).onFst
    let done ← (stackCae tl.putIndex descriptor
      ⟨some newNode, nextRow tl.window descriptor.count⟩ true).onFst
    if done then return .inr (tl, 1) else return .inl (true, tl)) (false, tl)

/-- `pop`: `none` stands for the `return 0` of the empty stack. -/
def pop (set : Params) (tl : Local) : Prog Watched (Local × Option ℤ) :=
  Prog.forever (fun (contention, tl) => do
    let (descriptor, tl) ← getWindow set contention tl
    match descriptor.node with
    | some node =>
      let next ← Prog.read fun s : Watched => (s.1.mem.heap node).next
      let nextCount ← Prog.read fun s : Watched => s.1.nextCount node
      let done ← (stackCae tl.getIndex descriptor ⟨next, nextCount⟩ false).onFst
      if done then
        let nodeVal ← Prog.read fun s : Watched => (s.1.mem.heap node).val
        return .inr (tl, some nodeVal)
      else
        return .inl (true, tl)
    | none => return .inr (tl, none)) (false, tl)

/-- The stack as a shared object. -/
def object (set : Params) : Object Watched Local where
  Call := Call
  Ret := Option ℤ
  code
    | .push v, tl => do
      let (tl, res) ← push set v tl
      return (tl, some res)
    | .pop, tl => pop set tl
    | .updateWidth w, tl => do
      let old ← (updateWidth set w).onFst
      return (tl, some old)
    | .updateDepth d, tl => do
      let old ← (updateDepth d).onFst
      return (tl, some old)

/-! ### Without the observations, the code of the stack -/

/-- What the code keeps of the thread-local variables. -/
def Local.plain (tl : Local) : ElasticLpwStack.Local := ⟨tl.copy.value, tl.putIndex, tl.getIndex⟩

/-- What the code keeps of the variables of a search. -/
def Search.plain (st : Search) : ElasticLpwStack.Search :=
  ⟨st.tl.plain, st.hops, st.random, st.empty⟩

section Annotates

open Prog

variable {set : Params}

theorem check_annotates (x : Copied Window) : (window.check x).Annotates readVersion :=
  .act (fun _ _ => ⟨rfl, rfl⟩) .ret

theorem load_annotates : (window.load).AnnotatesBy Copied.value readWindow :=
  .act Copied.value (fun _ _ => ⟨rfl, rfl⟩) fun _ => .ret rfl

theorem shiftWindow_annotates (x : Copied Window) (newMax : ℕ → ℕ) :
    (shiftWindow x newMax).AnnotatesBy Copied.value
    (ElasticLpwStack.shiftWindow x.value newMax) := by
  refine (Annotates.onFst _).bind_by fun _ => ?_
  -- the loads of `readSet`
  refine AnnotatesBy.act id (fun _ _ => ⟨rfl, rfl⟩) fun putWidth => ?_
  refine AnnotatesBy.act id (fun _ _ => ⟨rfl, rfl⟩) fun depth => ?_
  refine AnnotatesBy.act id (fun _ _ => ⟨rfl, rfl⟩) fun lateral => ?_
  refine AnnotatesBy.act id (fun _ _ => ⟨rfl, rfl⟩) fun lastShift => ?_
  refine (Annotates.onFst _).bind_by fun _ => (check_annotates x).bind_by fun version => ?_
  split
  · -- the value that a failed exchange has found is not used
    refine AnnotatesBy.rel (fun r d => r.isSome = d.1) (fun r => ⟨(r.isSome, x.value), rfl⟩)
      (fun n y => ?_) fun r d hr => ?_
    · by_cases h : y.1.globalWindow = x.value
      · simp [window, h]
      · simp [window, h]
    · obtain ⟨done, found⟩ := d
      cases r with
      | some copy =>
        obtain rfl : true = done := hr
        exact .ret rfl
      | none =>
        obtain rfl : false = done := hr
        exact load_annotates
  · exact .ret rfl

theorem syncPutWindow_annotates (tl : Local) :
    (syncPutWindow tl).AnnotatesBy Local.plain (ElasticLpwStack.syncPutWindow tl.plain) := by
  refine (check_annotates tl.copy).bind_by fun version => ?_
  show AnnotatesBy _ (if tl.window.version ≠ version then _ else _)
    (if tl.window.version ≠ version then _ else _)
  split
  · exact load_annotates.bind fun _ => .ret rfl
  · exact .ret rfl

theorem enterPut_annotates (contention : Bool) (tl : Local) :
    (enterPut contention tl).AnnotatesBy Local.plain
      (ElasticLpwStack.enterPut contention tl.plain) := by
  refine (syncPutWindow_annotates tl).bind fun tl => ?_
  show AnnotatesBy _ (if contention ∨ tl.window.putWidth ≤ tl.putIndex then _ else _)
    (if contention ∨ tl.window.putWidth ≤ tl.putIndex then _ else _)
  split
  · exact (Annotates.onFst _).bind_by fun _ => .ret rfl
  · exact .ret rfl

theorem putRound_annotates (set : Params) (st : Search) : (putRound set st).AnnotatesBy
    (Sum.map Search.plain (Prod.map id Local.plain)) (ElasticLpwStack.putRound set st.plain) := by
  refine (Annotates.onFst _).bind_by fun descriptor =>
    (check_annotates st.tl.copy).bind_by fun version => ?_
  show AnnotatesBy _ (if version ≠ st.tl.window.version then _ else _)
    (if version ≠ st.tl.window.version then _ else _)
  split
  · exact load_annotates.bind fun _ => .ret rfl
  · show AnnotatesBy _ (if descriptor.count < st.tl.window.max then _ else _)
      (if descriptor.count < st.tl.window.max then _ else _)
    split
    · exact .ret rfl
    · show AnnotatesBy _ (if st.hops ≠ st.tl.window.putWidth then _ else _)
        (if st.hops ≠ st.tl.window.putWidth then _ else _)
      split
      · exact (Annotates.onFst _).bind_by fun _ => .ret rfl
      · exact (shiftWindow_annotates st.tl.copy _).bind fun _ => .ret rfl

/-- The observed `put_window` is the code of `ElasticLpwStack.putWindow`. -/
theorem putWindow_annotates (set : Params) (contention : Bool) (tl : Local) :
    (putWindow set contention tl).AnnotatesBy (Prod.map id Local.plain)
      (ElasticLpwStack.putWindow set contention tl.plain) :=
  (enterPut_annotates contention tl).bind fun tl =>
    .forever (putRound_annotates set) ⟨tl, 0, 0, true⟩

theorem syncGetWindow_annotates (tl : Local) :
    (syncGetWindow tl).AnnotatesBy Local.plain (ElasticLpwStack.syncGetWindow tl.plain) := by
  refine (check_annotates tl.copy).bind_by fun version => ?_
  show AnnotatesBy _ (if tl.window.version ≠ version then _ else _)
    (if tl.window.version ≠ version then _ else _)
  split
  · exact load_annotates.bind fun _ => .ret rfl
  · exact .ret rfl

theorem enterGet_annotates (contention : Bool) (tl : Local) :
    (enterGet contention tl).AnnotatesBy Local.plain
      (ElasticLpwStack.enterGet contention tl.plain) := by
  refine (syncGetWindow_annotates tl).bind fun tl => ?_
  show AnnotatesBy _ (if contention ∨ tl.window.getWidth ≤ tl.getIndex then _ else _)
    (if contention ∨ tl.window.getWidth ≤ tl.getIndex then _ else _)
  split
  · exact (Annotates.onFst _).bind_by fun _ => .ret rfl
  · exact .ret rfl

theorem getRound_annotates (set : Params) (st : Search) : (getRound set st).AnnotatesBy
    (Sum.map Search.plain (Prod.map id Local.plain)) (ElasticLpwStack.getRound set st.plain) := by
  refine (Annotates.onFst _).bind_by fun descriptor =>
    (check_annotates st.tl.copy).bind_by fun version => ?_
  show AnnotatesBy _ (if version ≠ st.tl.window.version then _ else _)
    (if version ≠ st.tl.window.version then _ else _)
  split
  · exact load_annotates.bind fun _ => .ret rfl
  · show AnnotatesBy _ (if st.tl.window.bottom < descriptor.count then _ else _)
      (if st.tl.window.bottom < descriptor.count then _ else _)
    split
    · exact .ret rfl
    · show AnnotatesBy _ (if st.hops ≠ st.tl.window.getWidth then _ else _)
        (if st.hops ≠ st.tl.window.getWidth then _ else _)
      split
      · exact (Annotates.onFst _).bind_by fun _ => .ret rfl
      · show AnnotatesBy _ (if st.empty = true then _ else _) (if st.empty = true then _ else _)
        split
        · exact .ret rfl
        · exact (shiftWindow_annotates st.tl.copy _).bind fun _ => .ret rfl

/-- The observed `get_window` is the code of `ElasticLpwStack.getWindow`. -/
theorem getWindow_annotates (set : Params) (contention : Bool) (tl : Local) :
    (getWindow set contention tl).AnnotatesBy (Prod.map id Local.plain)
      (ElasticLpwStack.getWindow set contention tl.plain) :=
  (enterGet_annotates contention tl).bind fun tl =>
    AnnotatesBy.bind (.forever (ψ := Search.plain) (χ := Prod.map id Local.plain)
      (getRound_annotates set) ⟨tl, 0, 0, true⟩) fun _ => .ret rfl

theorem push_annotates (set : Params) (val : ℤ) (tl : Local) :
    (push set val tl).AnnotatesBy (Prod.map Local.plain id)
      (ElasticLpwStack.push set val tl.plain) := by
  refine (Annotates.onFst _).bind_by fun newNode =>
    .forever (ψ := Prod.map id Local.plain) (fun b => ?_) (false, tl)
  refine (putWindow_annotates set b.1 b.2).bind fun r => (Annotates.onFst _).bind_by fun _ =>
    (Annotates.onFst _).bind_by fun done => ?_
  cases done with
  | true => exact .ret rfl
  | false => exact .ret rfl

theorem pop_annotates (set : Params) (tl : Local) :
    (pop set tl).AnnotatesBy (Prod.map Local.plain id) (ElasticLpwStack.pop set tl.plain) := by
  refine .forever (ψ := Prod.map id Local.plain) (fun b => ?_) (false, tl)
  refine (getWindow_annotates set b.1 b.2).bind fun r => ?_
  obtain ⟨⟨node, count⟩, tl'⟩ := r
  cases node with
  | none => exact .ret rfl
  | some node =>
    refine Annotates.bind_by (.act (fun _ _ => ⟨rfl, rfl⟩) .ret) fun next =>
      Annotates.bind_by (.act (fun _ _ => ⟨rfl, rfl⟩) .ret) fun nextCount =>
        (Annotates.onFst _).bind_by fun done => ?_
    cases done with
    | true => exact Annotates.bind_by (.act (fun _ _ => ⟨rfl, rfl⟩) .ret) fun _ => .ret rfl
    | false => exact .ret rfl

/-- The observed stack is the stack: it reaches nothing else. -/
theorem object_reaches (set : Params) {ok : Call → Prop} {A : Watched → Watched → Prop}
    {s₀ : State} {o₀ : Observed} {p : Pool (object set).service}
    (hr : Reach (fun (call : Call) _ => ok call) A (s₀, o₀) .zero p) :
    ∃ p' : Pool (ElasticLpwStack.object set).service,
      Reach (fun (call : Call) _ => ok call) (fun _ _ => True) s₀ .zero p' ∧
        p.Annotates Local.plain p' := by
  refine Reach.of_annotated_by (φ := Local.plain) ok (fun c call tl => ?_) hr
  cases call with
  | push val => exact (push_annotates set val tl).bind fun _ => .ret rfl
  | pop => exact pop_annotates set tl
  | updateWidth w => exact (Annotates.onFst _).bind_by fun _ => .ret rfl
  | updateDepth d => exact (Annotates.onFst _).bind_by fun _ => .ret rfl

end Annotates

/-! ### What leaves the window alone -/

variable {set : Params}

theorem same_refl (s : State) : window.Same s s := Versioned.Same.refl s

theorem steps_assert (b : Bool) : (assert b).Steps window.Same := by
  unfold assert Prog.assert
  split
  · exact True.intro
  · exact .update fun _ => ⟨rfl, rfl⟩

theorem steps_randomIndex (width : ℕ) : (randomIndex width).Steps window.Same :=
  .bind (steps_assert _) fun _ => .bind (.choose same_refl) fun _ => True.intro

theorem steps_hop (index random hops width : ℕ) :
    (hop set index random hops width).Steps window.Same := by
  unfold hop TwoD.hop
  split
  · exact .bind (.bind (.choose same_refl) fun _ => True.intro) fun _ => True.intro
  · exact True.intro

theorem steps_readDescriptor (idx : ℕ) : (readDescriptor idx).Steps window.Same :=
  .bind (.read same_refl _) fun _ => .bind (.read same_refl _) fun _ => True.intro

theorem steps_readSet : readSet.Steps window.Same :=
  .bind (.read same_refl _) fun _ => .bind (.read same_refl _) fun _ =>
    .bind (.read same_refl _) fun _ => .bind (.choose same_refl) fun _ => True.intro

theorem steps_pushWiderCount (i n max : ℕ) : (pushWiderCount i n max).Steps window.Same := by
  induction n generalizing i max with
  | zero => exact True.intro
  | succ n ih => exact .bind (.read same_refl _) fun _ => ih _ _

theorem steps_pushLateral (d : LateralDescriptor) (count width : ℕ) :
    (pushLateral d count width).Steps window.Same := .update fun _ => ⟨rfl, rfl⟩

theorem steps_maybePushLateral (w : Window) (new : LateralDescriptor) :
    (maybePushLateral w new).Steps window.Same := by
  unfold maybePushLateral
  split
  · exact steps_pushLateral _ _ _
  · split
    · refine .bind (steps_pushWiderCount _ _ _) fun upperBound => ?_
      split
      · exact steps_pushLateral _ _ _
      · exact True.intro
    · exact True.intro

theorem steps_publishLateral (w : Window) (read new : LateralDescriptor) :
    (publishLateral w read new).Steps window.Same := by
  unfold publishLateral
  split
  · exact .bind (.cae same_refl fun _ _ => ⟨rfl, rfl⟩) fun _ => True.intro
  · exact True.intro

theorem steps_synchronizeLateral (w : Window) : (synchronizeLateral w).Steps window.Same := by
  refine .bind (.read same_refl _) fun read => .bind (.read same_refl _) fun version => ?_
  split
  · exact True.intro
  · split
    · exact True.intro
    · refine .bind (.update fun _ => ⟨rfl, rfl⟩) fun new => ?_
      split
      · exact .bind (steps_maybePushLateral _ _) fun _ => steps_publishLateral _ _ _
      · exact steps_publishLateral _ _ _

theorem steps_setNext (node : ℕ) (d : Descriptor) : (setNext node d).Steps window.Same :=
  .bind (.update fun _ => ⟨rfl, rfl⟩) fun _ => .update fun _ => ⟨rfl, rfl⟩

theorem steps_stackCae (idx : ℕ) (old new : Descriptor) (push : Bool) :
    (stackCae idx old new push).Steps window.Same :=
  .bind (.cae same_refl fun _ _ => ⟨rfl, rfl⟩) fun _ => True.intro

theorem steps_updateDepth (depth : ℕ) : (updateDepth depth).Steps window.Same := by
  refine .bind (.read same_refl _) fun oldDepth => .forever (fun _ => ?_) oldDepth
  refine .bind (.cae same_refl fun _ _ => ⟨rfl, rfl⟩) fun r => ?_
  obtain ⟨done, found⟩ := r
  cases done with
  | true => exact True.intro
  | false => exact True.intro

theorem steps_updateWidth (width : ℕ) : (updateWidth set width).Steps window.Same := by
  refine .bind (.read same_refl _) fun oldWidth => .bind (steps_assert _) fun _ => ?_
  refine .forever (fun _ => ?_) oldWidth
  refine .bind (.cae same_refl fun _ _ => ⟨rfl, rfl⟩) fun r => ?_
  obtain ⟨done, found⟩ := r
  cases done with
  | true => exact True.intro
  | false => exact True.intro

end Copies

end ElasticLpwStack
