import SemanticRelaxation.ElasticLaw.Lateral
import SemanticRelaxation.TwoD.Hop

/-!
# The elastic LaW queue: windows (`src/2Dd-queue_elastic-law/2Dd-window_elastic.c`)

`putWindow` works in the window at the tail of the lateral queue and appends a window, with the
current `depth` and `width`, once a round has found all its sub-queues full. `getWindow` works in
the window behind the head and moves the head on once a round has found nothing to dequeue.
-/

namespace ElasticLaw

open AtomicProg Linked

/-- `width_t` throughout. -/
def types : TwoD.Types := ⟨16, 16, 16⟩

/-- `random_index`. -/
def randomIndex (width : ℕ) : Prog State ℕ := TwoD.randomIndex types width

/-- `hop`. -/
def hop (set : Params) (index random hops width : ℕ) : Prog State (ℕ × ℕ × ℕ) :=
  TwoD.hop types set.randomHops width index random hops

/-- A copy of a descriptor, which is not atomic: two loads. -/
def readDescriptor (array : State → ℕ → Descriptor) (index : ℕ) : Prog State Descriptor := do
  let node ← Prog.read fun s => (array s index).node
  let count ← Prog.read fun s => (array s index).count
  return ⟨node, count⟩

/-- `if (unlikely(index >= width)) index = 0;`. -/
def syncIndex (width index : ℕ) : ℕ := if width ≤ index then 0 else index

/-- The index of one side, set to the index of the other if both windows are as wide. -/
def followIndex (window otherWindow : Option ℕ) (index otherIndex : ℕ) : Prog State ℕ := do
  let w ← readWindow window
  let other ← readWindow otherWindow
  return if otherWindow.isSome ∧ other.width = w.width then index else otherIndex

/-- The variables of the search loops. -/
structure Search where
  tl : Local
  hops : ℕ
  random : ℕ

/-! ### `put_window` -/

/-- The thread-local windows after a load of `lateral->tail`. -/
def loadPutWindow (tl : Local) (latTail : Option ℕ) : Prog State Local := do
  let w ← readWindow latTail
  return { tl with
    putWindow := latTail, ltailPointer := latTail, putIndex := syncIndex w.width tl.putIndex }

/-- The attempt to shift, if the thread's put window is still the tail. -/
def tryShiftPut (tl : Local) (max : ℕ) : Prog State Unit := do
  let latTail ← Prog.read State.lateralTail
  if tl.ltailPointer = latTail then
    let depth ← Prog.read State.depth
    let width ← Prog.read State.width
    shiftPut tl.ltailPointer (max + depth) depth width
  else
    return ()

/-- One round of the loop of `put_window`. -/
def putRound (set : Params) (st : Search) : Prog State (Search ⊕ (Descriptor × Local)) := do
  let descriptor ← readDescriptor State.putArray st.tl.putIndex
  let latTail ← Prog.read State.lateralTail
  let w ← readWindow st.tl.putWindow
  if latTail ≠ st.tl.ltailPointer then
    let tl ← loadPutWindow st.tl latTail
    return .inl { st with hops := 0, tl }
  else if descriptor.count < w.max then
    assert (st.tl.putIndex < w.width)
    let getIndex ← followIndex st.tl.putWindow st.tl.getWindow st.tl.putIndex st.tl.getIndex
    return .inr (descriptor, { st.tl with getIndex })
  else if st.hops < w.width then
    let (putIndex, random, hops) ← hop set st.tl.putIndex st.random st.hops w.width
    return .inl ⟨{ st.tl with putIndex }, hops, random⟩
  else
    tryShiftPut st.tl w.max
    let latTail ← Prog.read State.lateralTail
    let tl ← loadPutWindow st.tl latTail
    return .inl { st with hops := 0, tl }

/-- `if(contention == 1 || unlikely(index >= width)) index = random_index(width);`. -/
def startIndex (contention : Bool) (width index : ℕ) : Prog State ℕ :=
  if contention ∨ width ≤ index then randomIndex width else return index

/-- `put_window`. -/
def putWindow (set : Params) (contention : Bool) (tl : Local) :
    Prog State (Descriptor × Local) := do
  let latTail ← Prog.read State.lateralTail
  let w ← readWindow latTail
  let putIndex ← startIndex contention w.width tl.putIndex
  Prog.forever (putRound set)
    ⟨{ tl with putWindow := latTail, ltailPointer := latTail, putIndex }, 0, 0⟩

/-! ### `get_window` -/

/-- The thread-local windows after a load of `lateral->head`. -/
def loadGetWindow (tl : Local) (latHead : Option ℕ) : Prog State Local := do
  let next ← readLateralNext latHead
  let w ← readWindow next
  return { tl with
    lheadPointer := latHead, getWindow := next, getIndex := syncIndex w.width tl.getIndex }

/-- The first synchronisation of `get_window`. -/
def enterGet (tl : Local) : Prog State Local := do
  let latHead ← Prog.read State.lateralHead
  let next ← readLateralNext latHead
  if latHead ≠ tl.lheadPointer ∧ next.isSome then loadGetWindow tl latHead else return tl

/-- The put count that `get_window` compares with: the bottom of the thread's put window, where that
is above the get window, or the current count. -/
def readPutCount (tl : Local) : Prog State ℕ := do
  let p ← readWindow tl.putWindow
  let g ← readWindow tl.getWindow
  if g.max < p.max then return p.bottom
  else Prog.read fun s => (s.putArray tl.getIndex).count

/-- The shift branch of `get_window`. -/
def moveGetWindow (tl : Local) : Prog State Local := do
  let next ← readLateralNext tl.getWindow
  assert next.isSome
  shiftGet tl.lheadPointer
  let latHead ← Prog.read State.lateralHead
  let tl ← loadGetWindow tl latHead
  assert tl.getWindow.isSome
  return tl

/-- One round of the loop of `get_window`. -/
def getRound (set : Params) (st : Search) : Prog State (Search ⊕ (Descriptor × Local)) := do
  let descriptor ← readDescriptor State.getArray st.tl.getIndex
  let putCount ← readPutCount st.tl
  let latHead ← Prog.read State.lateralHead
  let w ← readWindow st.tl.getWindow
  if latHead ≠ st.tl.lheadPointer then
    let next ← readLateralNext latHead
    if next = none then
      return .inr (descriptor, st.tl)
    else
      let tl ← loadGetWindow st.tl latHead
      return .inl { st with tl }
  else if descriptor.count < w.max ∧ descriptor.count < putCount then
    return .inr (descriptor, st.tl)
  else if st.hops ≠ w.width then
    let (getIndex, random, hops) ← hop set st.tl.getIndex st.random st.hops w.width
    return .inl ⟨{ st.tl with getIndex }, hops, random⟩
  else
    let latTail ← Prog.read State.lateralTail
    if st.tl.getWindow ≠ latTail then
      let tl ← moveGetWindow st.tl
      return .inl { st with hops := 0, tl }
    else
      return .inr (descriptor, st.tl)

/-- `if(contention == 1) thread_get_index = random_index(thread_get_window->width);`. -/
def startGetIndex (contention : Bool) (tl : Local) : Prog State ℕ := do
  let w ← readWindow tl.getWindow
  if contention then randomIndex w.width else return tl.getIndex

/-- `get_window`. -/
def getWindow (set : Params) (contention : Bool) (tl : Local) :
    Prog State (Descriptor × Local) := do
  let getIndex ← startGetIndex contention tl
  let tl ← enterGet { tl with getIndex }
  let (descriptor, tl) ← Prog.forever (getRound set) ⟨tl, 0, 0⟩
  let putIndex ← followIndex tl.getWindow tl.putWindow tl.getIndex tl.putIndex
  return (descriptor, { tl with putIndex })

/-- `init_thread_windows`. -/
def initThreadWindows (tl : Local) : Prog State Local := do
  let lheadPointer ← Prog.read State.lateralHead
  let ltailPointer ← Prog.read State.lateralTail
  let getWindow ← readLateralNext lheadPointer
  return { tl with lheadPointer, ltailPointer, getWindow, putWindow := ltailPointer }

end ElasticLaw
