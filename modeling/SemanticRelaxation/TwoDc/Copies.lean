import SemanticRelaxation.TwoDc.Stack
import SemanticRelaxation.Prog.Annotated

/-!
# The 2Dc window functions with their version checks observed

The window functions over the shared memory and a ghost state. `Ghost.clash` is set by a version
check that takes the thread's copy of the window for current although the two maxima differ, and
`Ghost.torn` by a `read_window` whose two loads are of windows with different maxima. A thread knows
whether it has read the window at all.

With them the calls of the 2Dc stack (`src/2Dc-stack/2Dc-stack.c`) and of the 2Dc counter
(`src/2Dc-counter/2Dc-counter.c`).
-/

namespace TwoDc

namespace Copies

open AtomicProg

/-- What has been observed. -/
structure Ghost where
  torn : Bool := false
  clash : Bool := false

abbrev State (D X : Type) := Shared D X × Ghost

/-- `thread_Window` and `thread_index`, and whether the window was read. -/
structure Local where
  window : Window
  known : Bool
  index : ℕ

/-- The thread-local variables before the first call of a thread. -/
def Local.zero : Local := ⟨⟨0, 0⟩, false, 0⟩

variable {D X : Type}

/-- The thread takes its copy of the window `w` for current, and it is wrong. -/
def Local.clashes (tl : Local) (w : Window) : Bool :=
  tl.known && decide (tl.window.version = w.version) && decide (tl.window.max ≠ w.max)

/-- The load of `global_Window.content.version` for a comparison with the thread's copy. -/
def checkVersion (tl : Local) : Prog (State D X) ℕ :=
  Prog.update fun s => (s.1.globalWindow.version, s.1, { s.2 with
    clash := s.2.clash || tl.clashes s.1.globalWindow })

/-- `read_window`: two loads. -/
def readWindow : Prog (State D X) Window := do
  let max ← Prog.read fun s => s.1.globalWindow.max
  let version ← Prog.update fun s => (s.1.globalWindow.version, s.1,
    { s.2 with torn := s.2.torn || decide (max ≠ s.1.globalWindow.max) })
  return ⟨max, version⟩

/-- `read_window()`, as an assignment to the thread-local variables. -/
def reload (tl : Local) : Prog (State D X) Local := do
  let window ← readWindow
  return { tl with window, known := true }

/-- `if(thread_Window.version != global_Window.content.version) read_window();`. -/
def syncWindow (tl : Local) : Prog (State D X) Local := do
  let version ← checkVersion tl
  if tl.window.version ≠ version then reload tl else return tl

/-- The first lines of both window functions. -/
def enter (set : Params) (contention : Bool) (tl : Local) : Prog (State D X) Local := do
  let tl ← syncWindow tl
  if contention then
    let index ← TwoD.randomIndex types set.width
    return { tl with index }
  else
    return tl

/-- `CAE(&global_Window.content, &thread_Window, &new_window)` and what follows it. -/
def caeWindow (tl : Local) (new : Window) : Prog (State D X) Local := do
  let (done, _) ← Prog.cae (fun s : State D X => s.1.globalWindow)
    (fun w s => ({ s.1 with globalWindow := w }, s.2)) tl.window new
  if done then return { tl with window := new, known := true } else reload tl

/-- The attempt to shift, if the thread's window is still current and the new one is `valid`. -/
def tryShift (valid : Bool) (tl : Local) (new : Window) : Prog (State D X) Local := do
  let version ← checkVersion tl
  if tl.window.version = version ∧ valid then caeWindow tl new else return tl

/-- The variables of the search loops. -/
structure Search where
  tl : Local
  hops : ℕ
  random : ℕ
  /-- `empty` of `get_window`. -/
  empty : Bool

section Searches

variable [HasCount D]

/-- One round of the loop of `put_window`. -/
def putRound (set : Params) (st : Search) : Prog (State D X) (Search ⊕ (D × Local)) := do
  let descriptor ← (readDescriptor st.tl.index).onFst
  let version ← checkVersion st.tl
  if version ≠ st.tl.window.version then
    let tl ← reload st.tl
    return .inl { st with hops := 0, tl }
  else if HasCount.count descriptor < st.tl.window.max then
    return .inr (descriptor, st.tl)
  else if st.hops ≠ set.width then
    let (index, random, hops) ←
      TwoD.hop types set.randomHops set.width st.tl.index st.random st.hops
    return .inl { st with hops, random, tl := { st.tl with index } }
  else
    let tl ← tryShift true st.tl ⟨(st.tl.window.max + set.shift) % set.modulus,
      st.tl.window.version + 1⟩
    return .inl { st with hops := 0, tl }

/-- `put_window`. -/
def putWindow (set : Params) (contention : Bool) (tl : Local) : Prog (State D X) (D × Local) := do
  let tl ← enter set contention tl
  Prog.forever (putRound set) ⟨tl, 0, 0, true⟩

/-- One round of the loop of `get_window`. -/
def getRound (set : Params) (st : Search) : Prog (State D X) (Search ⊕ (D × Local)) := do
  let descriptor ← (readDescriptor st.tl.index).onFst
  let version ← checkVersion st.tl
  if version ≠ st.tl.window.version then
    let tl ← reload st.tl
    return .inl { st with hops := 0, empty := true, tl }
  else if st.tl.window.max < (HasCount.count descriptor + set.depth) % set.modulus then
    return .inr (descriptor, st.tl)
  else if st.hops ≠ set.width then
    let empty := if 0 < HasCount.count descriptor then false else st.empty
    let (index, random, hops) ←
      TwoD.hop types set.randomHops set.width st.tl.index st.random st.hops
    return .inl ⟨{ st.tl with index }, hops, random, empty⟩
  else if st.empty then
    return .inr (descriptor, st.tl)
  else
    let max := Words.usub 64 st.tl.window.max set.shift
    let tl ← tryShift (set.depth ≤ max) st.tl ⟨max, st.tl.window.version + 1⟩
    return .inl { st with hops := 0, empty := true, tl }

/-- `get_window`. -/
def getWindow (set : Params) (contention : Bool) (tl : Local) : Prog (State D X) (D × Local) := do
  let tl ← enter set contention tl
  Prog.forever (getRound set) ⟨tl, 0, 0, true⟩

end Searches

/-! ### The 2Dc stack -/

/-- `push`. -/
def push (set : Params) (val : ℤ) (tl : Local) :
    Prog (State Stack.Descriptor Treiber.Mem) (Local × ℤ) := do
  let newNode ← (Stack.createNode val).onFst
  Prog.forever (fun (contention, tl) => do
    let (descriptor, tl) ← putWindow set contention tl
    (Stack.setNext newNode descriptor.node).onFst
    let done ← (Stack.stackCae tl.index descriptor ⟨some newNode, descriptor.count + 1⟩ true).onFst
    if done then return .inr (tl, 1) else return .inl (true, tl)) (false, tl)

/-- `pop`: `none` stands for the `return 0` of the empty stack. -/
def pop (set : Params) (tl : Local) :
    Prog (State Stack.Descriptor Treiber.Mem) (Local × Option ℤ) :=
  Prog.forever (fun (contention, tl) => do
    let (descriptor, tl) ← getWindow set contention tl
    match descriptor.node with
    | some node =>
      let next ← Prog.read fun s : State Stack.Descriptor Treiber.Mem => (s.1.mem.heap node).next
      let done ← (Stack.stackCae tl.index descriptor
        ⟨next, Words.usub 64 descriptor.count 1⟩ false).onFst
      if done then
        let nodeVal ← Prog.read fun s : State Stack.Descriptor Treiber.Mem =>
          (s.1.mem.heap node).val
        return .inr (tl, some nodeVal)
      else
        return .inl (true, tl)
    | none => return .inr (tl, none)) (false, tl)

/-- The 2Dc stack as a shared object. -/
def stackObject (set : Params) : Object (State Stack.Descriptor Treiber.Mem) Local where
  Call := Stack.Call
  Ret := Option ℤ
  code
    | .push v, tl => do
      let (tl, res) ← push set v tl
      return (tl, some res)
    | .pop, tl => pop set tl

/-! ### The 2Dc counter -/

/-- `descriptor_t` of the counter. -/
structure Count where
  count : ℕ
  deriving DecidableEq

instance : HasCount Count where
  count := Count.count
  copy _ second := second
  copy_self _ := rfl
  copy_count _ _ := rfl

/-- The shared memory that `create_counter` leaves. -/
def counterInitial (set : Params) : Shared Count Unit := ⟨fun _ => ⟨0⟩, ⟨set.depth, 0⟩, ()⟩

/-- `counter_cae` on the descriptor with index `idx`. -/
def counterCae (idx : ℕ) (old new : Count) : Prog (Shared Count Unit) Bool := do
  let (done, _) ← Prog.cae (fun s : Shared Count Unit => s.setArray idx)
    (fun d s => { s with setArray := Function.update s.setArray idx d }) old new
  return done

/-- `increment`. -/
def increment (set : Params) (tl : Local) : Prog (State Count Unit) (Local × ℤ) :=
  Prog.forever (fun (contention, tl) => do
    let (descriptor, tl) ← putWindow set contention tl
    let done ← (counterCae tl.index descriptor ⟨descriptor.count + 1⟩).onFst
    if done then return .inr (tl, 1) else return .inl (true, tl)) (false, tl)

/-- `decrement`. -/
def decrement (set : Params) (tl : Local) : Prog (State Count Unit) (Local × ℤ) :=
  Prog.forever (fun (contention, tl) => do
    let (descriptor, tl) ← getWindow set contention tl
    if 0 < descriptor.count then
      let done ← (counterCae tl.index descriptor ⟨descriptor.count - 1⟩).onFst
      if done then return .inr (tl, 1) else return .inl (true, tl)
    else
      return .inr (tl, 0)) (false, tl)

/-- The calls of the counter. -/
inductive CounterCall
  | increment
  | decrement

/-- The 2Dc counter as a shared object. -/
def counterObject (set : Params) : Object (State Count Unit) Local where
  Call := CounterCall
  Ret := ℤ
  code
    | .increment, tl => increment set tl
    | .decrement, tl => decrement set tl

/-! ### Without the observations, the code of the window and of the stack -/

/-- What the code keeps of the thread-local variables. -/
def Local.plain (tl : Local) : TwoDc.Local := ⟨tl.window, tl.index⟩

/-- What the code keeps of the variables of a search. -/
def Search.plain (st : Search) : TwoDc.Search := ⟨st.tl.plain, st.hops, st.random, st.empty⟩

section Annotates

open Prog

variable {α α' : Type} {set : Params} {tl : Local}

/-- A part that replaces the thread's window, and what follows it. -/
theorem bind_window {φ : α → α'} {p : Prog (State D X) Local} {q : Prog (Shared D X) Window} {i : ℕ}
    {f : Local → Prog (State D X) α} {g : TwoDc.Local → Prog (Shared D X) α'}
    (hp : p.AnnotatesBy Local.plain (q >>= fun window => .ret ⟨window, i⟩))
    (hf : ∀ tl, (f tl).AnnotatesBy φ (g tl.plain)) :
    (p >>= f).AnnotatesBy φ (q >>= fun window => g ⟨window, i⟩) := by
  have h := hp.bind hf
  rwa [bind_assoc] at h

theorem randomIndex_annotates (width : ℕ) :
    (TwoD.randomIndex types width : Prog (State D X) ℕ).Annotates (TwoD.randomIndex types width) :=
  Annotates.bind (.act (fun _ _ => ⟨rfl, rfl⟩) .ret) fun _ => .ret _

theorem hop_annotates (hops width index random n : ℕ) :
    (TwoD.hop types hops width index random n : Prog (State D X) _).Annotates
      (TwoD.hop types hops width index random n) := by
  unfold TwoD.hop
  split
  · exact (randomIndex_annotates width).bind fun _ => .ret _
  · exact .ret _

theorem checkVersion_annotates (tl : Local) : (checkVersion tl : Prog (State D X) ℕ).Annotates
    (Prog.read fun s => s.globalWindow.version) := .act (fun _ _ => ⟨rfl, rfl⟩) .ret

theorem readWindow_annotates : (readWindow : Prog (State D X) Window).Annotates TwoDc.readWindow :=
  Annotates.bind (.act (fun _ _ => ⟨rfl, rfl⟩) .ret) fun _ =>
    Annotates.bind (.act (fun _ _ => ⟨rfl, rfl⟩) .ret) fun _ => .ret _

theorem reload_annotates (tl : Local) : (reload tl : Prog (State D X) Local).AnnotatesBy Local.plain
    (TwoDc.readWindow >>= fun window => .ret ⟨window, tl.index⟩) :=
  readWindow_annotates.bind_by fun _ => .ret rfl

theorem syncWindow_annotates (tl : Local) :
    (syncWindow tl : Prog (State D X) Local).AnnotatesBy Local.plain
    (TwoDc.syncWindow tl.window >>= fun window => .ret ⟨window, tl.index⟩) := by
  unfold TwoDc.syncWindow
  rw [bind_assoc]
  refine (checkVersion_annotates tl).bind_by fun version => ?_
  split
  · exact reload_annotates tl
  · exact .ret rfl

theorem enter_annotates (set : Params) (contention : Bool) (tl : Local) :
    (enter set contention tl : Prog (State D X) Local).AnnotatesBy Local.plain
      (TwoDc.enter set contention tl.plain) := by
  refine bind_window (i := tl.index) (g := fun tl : TwoDc.Local =>
    startIndex set contention tl.index >>= fun index => .ret (⟨tl.window, index⟩ : TwoDc.Local))
    (syncWindow_annotates tl) fun tl => ?_
  unfold startIndex
  cases contention with
  | true => exact (randomIndex_annotates set.width).bind_by fun _ => .ret rfl
  | false => exact .ret rfl

theorem tryShift_annotates (valid : Bool) (tl : Local) (new : Window) :
    (tryShift valid tl new : Prog (State D X) Local).AnnotatesBy Local.plain
      (TwoDc.tryShift valid tl.window new >>= fun window => .ret ⟨window, tl.index⟩) := by
  unfold TwoDc.tryShift
  rw [bind_assoc]
  refine (checkVersion_annotates tl).bind_by fun version => ?_
  split
  · unfold TwoDc.caeWindow caeWindow
    rw [bind_assoc]
    refine Annotates.bind_by (.act (fun _ x => ?_) .ret) fun r => ?_
    · by_cases h : x.1.globalWindow = tl.window
      · simp only [if_pos h, and_self]
      · simp only [if_neg h, and_self]
    · obtain ⟨done, found⟩ := r
      cases done with
      | true => exact .ret rfl
      | false => exact reload_annotates tl
  · exact .ret rfl

/-- A round that ends with another window. -/
theorem bind_search {p : Prog (State D X) Local} {q : Prog (Shared D X) Window} {i : ℕ}
    (hp : p.AnnotatesBy Local.plain (q >>= fun window => .ret ⟨window, i⟩)) (hops random : ℕ)
    (empty : Bool) : (p >>= fun tl => .ret (.inl ⟨tl, hops, random, empty⟩ : Search ⊕
      (D × Local))).AnnotatesBy
      (Sum.map Search.plain (Prod.map id Local.plain))
      (q >>= fun window => .ret (.inl ⟨⟨window, i⟩, hops, random, empty⟩ : TwoDc.Search ⊕
        (D × TwoDc.Local))) :=
  bind_window (g := fun tl => .ret (.inl ⟨tl, hops, random, empty⟩ : TwoDc.Search ⊕
    (D × TwoDc.Local))) hp
    fun _ => .ret rfl

variable [HasCount D]

theorem putRound_annotates (set : Params) (st : Search) :
    (putRound set st : Prog (State D X) _).AnnotatesBy
    (Sum.map Search.plain (Prod.map id Local.plain)) (TwoDc.putRound set st.plain) := by
  refine (Annotates.onFst _).bind_by fun descriptor => (checkVersion_annotates st.tl).bind_by
    fun version => ?_
  show AnnotatesBy _ (if version ≠ st.tl.window.version then _ else _)
    (if version ≠ st.tl.window.version then _ else _)
  split
  · exact bind_search (reload_annotates st.tl) 0 st.random st.empty
  · show AnnotatesBy _ (if HasCount.count descriptor < st.tl.window.max then _ else _)
      (if HasCount.count descriptor < st.tl.window.max then _ else _)
    split
    · exact .ret rfl
    · show AnnotatesBy _ (if st.hops ≠ set.width then _ else _) (if st.hops ≠ set.width then _
        else _)
      split
      · exact (hop_annotates _ _ _ _ _).bind_by fun _ => .ret rfl
      · exact bind_search (tryShift_annotates true st.tl _) 0 st.random st.empty

/-- The observed `put_window` is the code of `TwoDc.putWindow`. -/
theorem putWindow_annotates (set : Params) (contention : Bool) (tl : Local) :
    (putWindow set contention tl : Prog (State D X) _).AnnotatesBy (Prod.map id Local.plain)
      (TwoDc.putWindow set contention tl.plain) :=
  (enter_annotates set contention tl).bind fun tl => .forever (putRound_annotates set) ⟨tl, 0,
    0, true⟩

theorem getRound_annotates (set : Params) (st : Search) :
    (getRound set st : Prog (State D X) _).AnnotatesBy
    (Sum.map Search.plain (Prod.map id Local.plain)) (TwoDc.getRound set st.plain) := by
  refine (Annotates.onFst _).bind_by fun descriptor => (checkVersion_annotates st.tl).bind_by
    fun version => ?_
  show AnnotatesBy _ (if version ≠ st.tl.window.version then _ else _)
    (if version ≠ st.tl.window.version then _ else _)
  split
  · exact bind_search (reload_annotates st.tl) 0 st.random true
  · show AnnotatesBy _ (if st.tl.window.max < (HasCount.count descriptor + set.depth) %
      set.modulus then _ else _)
      (if st.tl.window.max < (HasCount.count descriptor + set.depth) % set.modulus then _ else _)
    split
    · exact .ret rfl
    · show AnnotatesBy _ (if st.hops ≠ set.width then _ else _) (if st.hops ≠ set.width then _
        else _)
      split
      · exact (hop_annotates _ _ _ _ _).bind_by fun _ => .ret rfl
      · show AnnotatesBy _ (if st.empty = true then _ else _) (if st.empty = true then _ else _)
        split
        · exact .ret rfl
        · exact bind_search (tryShift_annotates _ st.tl _) 0 st.random true

/-- The observed `get_window` is the code of `TwoDc.getWindow`. -/
theorem getWindow_annotates (set : Params) (contention : Bool) (tl : Local) :
    (getWindow set contention tl : Prog (State D X) _).AnnotatesBy (Prod.map id Local.plain)
      (TwoDc.getWindow set contention tl.plain) :=
  (enter_annotates set contention tl).bind fun tl => .forever (getRound_annotates set) ⟨tl, 0,
    0, true⟩

omit [HasCount D]

theorem push_annotates (set : Params) (val : ℤ) (tl : Local) :
    (push set val tl).AnnotatesBy (Prod.map Local.plain id) (Stack.push set val tl.plain) := by
  refine (Annotates.onFst _).bind_by fun newNode =>
    .forever (ψ := Prod.map id Local.plain) (fun b => ?_) (false, tl)
  refine (putWindow_annotates set b.1 b.2).bind fun r => (Annotates.onFst _).bind_by fun _ =>
    (Annotates.onFst _).bind_by fun done => ?_
  cases done with
  | true => exact .ret rfl
  | false => exact .ret rfl

theorem pop_annotates (set : Params) (tl : Local) :
    (pop set tl).AnnotatesBy (Prod.map Local.plain id) (Stack.pop set tl.plain) := by
  refine .forever (ψ := Prod.map id Local.plain) (fun b => ?_) (false, tl)
  refine (getWindow_annotates set b.1 b.2).bind fun r => ?_
  obtain ⟨⟨node, count⟩, tl'⟩ := r
  cases node with
  | none => exact .ret rfl
  | some node =>
    refine Annotates.bind_by (.act (fun _ _ => ⟨rfl, rfl⟩) .ret) fun next =>
      (Annotates.onFst _).bind_by fun done => ?_
    cases done with
    | true => exact Annotates.bind_by (.act (fun _ _ => ⟨rfl, rfl⟩) .ret) fun _ => .ret rfl
    | false => exact .ret rfl

/-- The observed stack is the stack: it reaches nothing else. -/
theorem stackObject_reaches (set : Params) {ok : Stack.Call → Prop}
    {A : State Stack.Descriptor Treiber.Mem → State Stack.Descriptor Treiber.Mem → Prop}
    {p : Pool (stackObject set).service}
    (hr : Reach (fun (call : Stack.Call) _ => ok call) A (Stack.initial set, {}) .zero p) :
    ∃ p' : Pool (Stack.object set).service,
      Reach (fun (call : Stack.Call) _ => ok call) (fun _ _ => True) (Stack.initial set) .zero p' ∧
        p.Annotates Local.plain p' := by
  refine Reach.of_annotated_by (φ := Local.plain) ok (fun c call tl => ?_) hr
  cases call with
  | push val => exact (push_annotates set val tl).bind fun _ => .ret rfl
  | pop => exact pop_annotates set tl

end Annotates

end Copies

end TwoDc
