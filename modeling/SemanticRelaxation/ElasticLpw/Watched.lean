import SemanticRelaxation.ElasticLpw.Queue
import SemanticRelaxation.Prog.Annotated

/-!
# The elastic LpW queue with notes of its runs

The code of the queue over its memory and a ghost state (`Watch`), which notes

* `overtaken`: a thread has loaded the lateral head for a next maximum that other threads have moved
  the get window past, beyond a row where the width changes;
* `wrapped`: a dequeue has loaded a put window whose depth is above the maximum it had loaded
  before;
* `late`: a dequeue has taken an item off a sub-queue whose get count had reached the maximum of its
  get window;
* `narrow`: a dequeue has looked at a sub-queue whose get count is below the bottom of its put
  window, though the window of that row did not have the sub-queue;
* `missed`: a dequeue has taken the bottom of its put window for a put count that is smaller.

Only the functions on the way to these places are written again; `object_annotates` says that
nothing else is changed.
-/

namespace ElasticLpw

open AtomicProg Linked

/-- The lateral nodes, in the order of the list. -/
def State.lateralNodes (s : State) : List LateralNode :=
  (s.lateral.line 0).map fun n => (s.lateral.heap n).val

/-- The last lateral node with a count up to `row`. -/
def lastLateral (nodes : List LateralNode) (row : ℕ) : Option LateralNode :=
  (nodes.filter fun v => decide (v.count ≤ row)).getLast?

/-- The width that the lateral nodes give to a row. -/
def widthAt (nodes : List LateralNode) (row : ℕ) :
    ℕ := ((lastLateral nodes row).map (·.width)).getD 0

namespace Watched

/-- What has been noted. -/
structure Watch where
  overtaken : Bool := false
  wrapped : Bool := false
  late : Bool := false
  narrow : Bool := false
  missed : Bool := false
  deriving DecidableEq

/-- A width changes above the row `nextMax`, in the get window or below it. -/
def Overtakes (nextMax : ℕ) (s : State) : Prop :=
  ∃ v ∈ s.lateralNodes, nextMax < v.count ∧ v.count ≤ s.globalGWindow.max

instance (nextMax : ℕ) (s : State) : Decidable (Overtakes nextMax s) :=
  inferInstanceAs (Decidable (∃ v ∈ _, _))

/-- `bound` stands for the put count of sub-queue `index`, which was not in the window of the row
`bound`. -/
def Narrow (bound index count : ℕ) (s : State) : Prop :=
  count < bound ∧ widthAt s.lateralNodes bound ≤ index

instance (bound index count : ℕ) (s : State) : Decidable (Narrow bound index count s) :=
  inferInstanceAs (Decidable (_ ∧ _))

/-- `bound` is taken for the put count of sub-queue `index`, and is above it. -/
def Misses (bound index count : ℕ) (s : State) : Prop :=
  count < bound ∧ (s.putArray index).count < bound

instance (bound index count : ℕ) (s : State) : Decidable (Misses bound index count s) :=
  inferInstanceAs (Decidable (_ ∧ _))

/-- `get_next_window_lateral`. -/
def getNextWindowLateral (prevMax nextMax : ℕ) : Prog (State × Watch) (ℕ × ℕ) := do
  let head ← Prog.readWith State.lateralHead fun s w =>
    { w with overtaken := w.overtaken || decide (Overtakes nextMax s) }
  Prog.onFst do
    let lookahead ← readLateralNext head
    assert head.isSome
    let node ← readLateral head
    assert (node.count ≤ nextMax)
    let (current, lookahead) ← Prog.forever (skipLateral (prevMax + 1)) (head, lookahead)
    let nextMax ← cutMax lookahead nextMax
    let node ← readLateral current
    assert (node.width ≠ 0)
    return (node.width, nextMax)

/-- The shift branch of `get_window`. -/
def shiftGet (tl : Local) : Prog (State × Watch) Local := do
  let max ← (getShiftMax tl).onFst
  let (width, max) ← getNextWindowLateral tl.gWindow.max max
  let gWindow ←
    (tryShiftGet tl.gWindow ⟨max, Words.usub 64 max tl.gWindow.max % 2 ^ 16, width⟩).onFst
  return { tl with gWindow, getIndex := syncIndex gWindow.width tl.getIndex }

/-- One round of the loop of `get_window`. -/
def getRound (set : Params) (bound : ℕ) (st : Search) :
    Prog (State × Watch) (Search ⊕ (Descriptor × Local)) := do
  let tl := st.tl
  let descriptor ← (readDescriptor State.getArray tl.getIndex).onFst
  let putCount ← (readPutCount bound tl.getIndex descriptor.count).onFst
  let word1 ← Prog.readWith (fun s => s.globalGWindow.max) fun s w =>
    { w with
      narrow := w.narrow || decide (Narrow bound tl.getIndex descriptor.count s)
      missed := w.missed || decide (Misses bound tl.getIndex descriptor.count s) }
  if tl.gWindow.max ≠ word1 then
    let tl ← (syncGWindow tl word1).onFst
    return .inl { st with hops := 0, notempty := false, tl }
  else if descriptor.count < tl.gWindow.max ∧ descriptor.count < putCount then
    return .inr (descriptor, tl)
  else if st.hops ≠ tl.gWindow.width then
    let notempty := st.notempty || decide (descriptor.count < putCount)
    let (getIndex, random, hops) ← (hop set tl.getIndex st.random st.hops tl.gWindow.width).onFst
    return .inl ⟨{ tl with getIndex }, hops, random, notempty⟩
  else
    let shift ← (canShift st.notempty tl.gWindow.max).onFst
    if shift then
      let tl ← shiftGet tl
      return .inl { st with hops := 0, notempty := false, tl }
    else
      return .inr (descriptor, tl)

/-- `get_window`. -/
def getWindow (set : Params) (contention : Bool) (tl : Local) :
    Prog (State × Watch) (Descriptor × Local) := do
  let getIndex ← (startGetIndex contention tl).onFst
  let tl ← (enterGet { tl with getIndex }).onFst
  let (descriptor, tl) ← Prog.forever (getRound set tl.pWindow.bottom) ⟨tl, 0, 0, false⟩
  return (descriptor, { tl with
    putIndex := if tl.gWindow.width = tl.pWindow.width then tl.getIndex else tl.putIndex })

/-- `deq_cae` on the get descriptor with index `idx`, by a thread with the get window's maximum
`max`. -/
def deqCae (max idx : ℕ) (old new : Descriptor) : Prog (State × Watch) Bool := do
  let (done, _) ← Prog.cae (fun x : State × Watch => x.1.getArray idx)
    (fun d x => ({ x.1 with
      getArray := Function.update x.1.getArray idx d
      nodes := x.1.nodes.remove d.node },
      { x.2 with late := x.2.late || decide (max ≤ old.count) })) old new
  return done

/-- The branch `non_overlap` of `dequeue`. -/
def nonOverlap (deqDescriptor : Descriptor) (tl : Local) :
    Prog (State × Watch) ((Bool × Local) ⊕ (Local × Option ℤ)) := do
  let next ← (readNext deqDescriptor.node).onFst
  let done ← deqCae tl.gWindow.max tl.getIndex deqDescriptor
    ⟨next, nextRow tl.gWindow.bottom deqDescriptor.count⟩
  if done then
    let val ← (Prog.read fun s : State => (s.nodes.deref next).val).onFst
    return .inr (tl, some val)
  else
    return .inl (true, tl)

/-- One round of the loop of `dequeue`. -/
def dequeueRound (set : Params) (contention : Bool) (tl : Local) :
    Prog (State × Watch) ((Bool × Local) ⊕ (Local × Option ℤ)) := do
  let (deqDescriptor, tl) ← getWindow set contention tl
  let head := deqDescriptor.node
  if tl.pWindow.bottom < tl.gWindow.max then
    let enqDescriptor ← (readDescriptor State.putArray tl.getIndex).onFst
    let tail := enqDescriptor.node
    if head = tail then
      let next ← (readNext head).onFst
      if next = none then
        return .inr (tl, none)
      else
        let r ← (helpEnqueue enqDescriptor contention tl).onFst
        return .inl r
    else
      nonOverlap deqDescriptor tl
  else
    nonOverlap deqDescriptor tl

/-- `dequeue`. -/
def dequeue (set : Params) (tl : Local) : Prog (State × Watch) (Local × Option ℤ) := do
  let word1 ← readPMax.onFst
  let pWindow ← Prog.readWith (fun s => { s.globalPWindow with max := word1 }) fun s w =>
    { w with wrapped := w.wrapped || decide (word1 < s.globalPWindow.depth) }
  Prog.forever (fun (contention, tl) => dequeueRound set contention tl) (false, { tl with pWindow })

/-- The queue with its notes. -/
def object (set : Params) : Object (State × Watch) Local where
  Call := Call
  Ret := Option ℤ
  code
    | .dequeue, tl => dequeue set tl
    | call, tl => ((ElasticLpw.object set).code call tl).onFst

/-! ### The notes change nothing -/

open Prog.Annotates

theorem getNextWindowLateral_annotates (prevMax nextMax : ℕ) :
    (getNextWindowLateral prevMax nextMax).Annotates
      (ElasticLpw.getNextWindowLateral prevMax nextMax) :=
  (readWith _ _).bind fun _ => Prog.Annotates.onFst _

theorem shiftGet_annotates (tl : Local) : (shiftGet tl).Annotates (ElasticLpw.shiftGet tl) := by
  refine (Prog.Annotates.onFst _).bind fun _ => (getNextWindowLateral_annotates _ _).bind
    fun _ => ?_
  exact (Prog.Annotates.onFst _).bind fun _ => .ret _

theorem getRound_annotates (set : Params) (bound : ℕ) (st : Search) :
    (getRound set bound st).Annotates (ElasticLpw.getRound set bound st) := by
  refine (Prog.Annotates.onFst _).bind fun d => (Prog.Annotates.onFst _).bind fun _ =>
    (readWith _ _).bind fun _ => ?_
  dsimp only
  split
  · exact (Prog.Annotates.onFst _).bind fun _ => .ret _
  · split
    · exact .ret _
    · split
      · exact (Prog.Annotates.onFst _).bind fun _ => .ret _
      · refine (Prog.Annotates.onFst _).bind fun shift => ?_
        split
        · exact (shiftGet_annotates _).bind fun _ => .ret _
        · exact .ret _

theorem getWindow_annotates (set : Params) (contention : Bool) (tl : Local) :
    (getWindow set contention tl).Annotates (ElasticLpw.getWindow set contention tl) := by
  refine (Prog.Annotates.onFst _).bind fun _ => (Prog.Annotates.onFst _).bind fun _ => ?_
  exact (Prog.Annotates.forever (getRound_annotates set _) _).bind fun _ => .ret _

theorem deqCae_annotates (max idx : ℕ) (old new : Descriptor) :
    (deqCae max idx old new).Annotates (ElasticLpw.deqCae idx old new) := by
  refine Prog.Annotates.act (fun _ x => ?_) fun _ => .ret _
  dsimp only
  by_cases h : x.1.getArray idx = old
  · rw [if_pos h, if_pos h]
    exact ⟨rfl, rfl⟩
  · rw [if_neg h, if_neg h]
    exact ⟨rfl, rfl⟩

theorem nonOverlap_annotates (d : Descriptor) (tl : Local) :
    (nonOverlap d tl).Annotates (ElasticLpw.nonOverlap d tl) := by
  refine (Prog.Annotates.onFst _).bind fun _ => (deqCae_annotates _ _ _ _).bind fun done => ?_
  cases done with
  | true => exact (Prog.Annotates.onFst _).bind fun _ => .ret _
  | false => exact .ret _

theorem dequeueRound_annotates (set : Params) (contention : Bool) (tl : Local) :
    (dequeueRound set contention tl).Annotates (ElasticLpw.dequeueRound set contention tl) := by
  refine (getWindow_annotates set contention tl).bind fun a => ?_
  obtain ⟨d, tl⟩ := a
  dsimp only
  split
  · refine (Prog.Annotates.onFst _).bind fun e => ?_
    split
    · refine (Prog.Annotates.onFst _).bind fun next => ?_
      split
      · exact .ret _
      · exact (Prog.Annotates.onFst _).bind fun _ => .ret _
    · exact nonOverlap_annotates d tl
  · exact nonOverlap_annotates d tl

/-- The code with notes does what the code does. -/
theorem object_annotates (set : Params) (call : Call) (tl : Local) :
    ((object set).code call tl).Annotates ((ElasticLpw.object set).code call tl) := by
  cases call with
  | dequeue =>
    refine (Prog.Annotates.onFst _).bind fun _ => (readWith _ _).bind fun _ => ?_
    exact Prog.Annotates.forever (fun b => dequeueRound_annotates set b.1 b.2) _
  | enqueue v => exact Prog.Annotates.onFst _
  | updateWidth w => exact Prog.Annotates.onFst _
  | updateDepth d => exact Prog.Annotates.onFst _

end Watched

end ElasticLpw
