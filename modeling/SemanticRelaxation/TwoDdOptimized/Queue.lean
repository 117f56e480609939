import SemanticRelaxation.TwoDd.Queue

/-!
# The optimized 2Dd queue (`src/2Dd-queue_optimized`)

The sub-queues, their descriptors and the two windows are those of the 2Dd queue. A thread keeps an
index for each of the two operations and both windows over its calls:

* `getWindow` takes the lower end of the thread's put window for the put count as long as that
  window is above its get window, and moves the get window on also if the put window is another one;
* `dequeue` does not compare head and tail in this case.

`width_t` and `depth_t` have 16 bits, a `row_t` has 64 bits and only grows.
-/

namespace TwoDdOptimized

open AtomicProg Linked TwoDd TwoDd.Queue

/-- `thread_PWindow.max`, `thread_GWindow.max`, `thread_put_index` and `thread_get_index`. -/
structure Local where
  pWindow : ℕ
  gWindow : ℕ
  putIndex : ℕ
  getIndex : ℕ

/-- The thread-local variables before the first call of a thread. -/
def Local.zero : Local := ⟨0, 0, 0, 0⟩

/-- The variables of the search loops. -/
structure Search where
  tl : Local
  hops : ℕ
  random : ℕ
  /-- `notempty` of `get_window`. -/
  notempty : Bool

/-- `random_index` takes a `width_t`, and so are the counters `random` and `hops`. -/
def types : TwoD.Types := ⟨16, 16, 16⟩

/-- `random_index`. -/
def randomIndex (width : ℕ) : Prog State ℕ := TwoD.randomIndex types width

/-- `hop`. -/
def hop (set : Params) (index random hops : ℕ) : Prog State (ℕ × ℕ × ℕ) :=
  TwoD.hop types set.randomHops set.width index random hops

/-- `if(contention == 1) thread_index = random_index(thread_width);` for one of the two indices. -/
def startIndex (set : Params) (contention : Bool) (index : ℕ) : Prog State ℕ :=
  if contention then randomIndex set.width else return index

/-- The shift branch of both loops; the result is the thread's window afterwards, which a failing
exchange overwrites with the window found. -/
def shiftWindow (window : State → ℕ) (store : ℕ → State → State) (old new : ℕ) :
    Prog State ℕ := do
  let max ← Prog.read window
  if old = max then
    let (done, found) ← Prog.cae window store old new
    return if done then new else found
  else
    return old

/-- One round of the loop of `put_window`. -/
def putRound (set : Params) (st : Search) : Prog State (Search ⊕ (Descriptor × Local)) := do
  let descriptor ← readDescriptor (X := Memory) Arrays.put st.tl.putIndex
  let gmax ← Prog.read Shared.globalPWindow
  if st.tl.pWindow ≠ gmax then
    return .inl { st with hops := 0, tl := { st.tl with pWindow := gmax } }
  else if descriptor.count < st.tl.pWindow then
    return .inr (descriptor, { st.tl with getIndex := st.tl.putIndex })
  else if st.hops < set.width then
    let (putIndex, random, hops) ← hop set st.tl.putIndex st.random st.hops
    return .inl { st with hops, random, tl := { st.tl with putIndex } }
  else
    let pWindow ← shiftWindow Shared.globalPWindow (fun m s => { s with globalPWindow := m })
      st.tl.pWindow (st.tl.pWindow + set.depth)
    return .inl { st with hops := 0, tl := { st.tl with pWindow } }

/-- `put_window`. -/
def putWindow (set : Params) (contention : Bool) (tl : Local) :
    Prog State (Descriptor × Local) := do
  let putIndex ← startIndex set contention tl.putIndex
  let pWindow ← Prog.read Shared.globalPWindow
  Prog.forever (putRound set) ⟨{ tl with putIndex, pWindow }, 0, 0, false⟩

/-- The `put_count` that `get_window` compares with. -/
def putCount (set : Params) (tl : Local) : Prog State ℕ :=
  if tl.gWindow < tl.pWindow then
    return tl.pWindow - set.depth
  else
    Prog.read fun s => (s.mem.putArray tl.getIndex).count

/-- `notempty || thread_GWindow.max != global_PWindow.content.max`. -/
def canShift (st : Search) : Prog State Bool := do
  if st.notempty then
    return true
  else
    let max ← Prog.read Shared.globalPWindow
    return decide (st.tl.gWindow ≠ max)

/-- One round of the loop of `get_window`. -/
def getRound (set : Params) (st : Search) : Prog State (Search ⊕ (Descriptor × Local)) := do
  let descriptor ← readDescriptor (X := Memory) Arrays.get st.tl.getIndex
  let putCount ← putCount set st.tl
  let gmax ← Prog.read Shared.globalGWindow
  if st.tl.gWindow ≠ gmax then
    return .inl { st with hops := 0, notempty := false, tl := { st.tl with gWindow := gmax } }
  else if descriptor.count < st.tl.gWindow ∧ descriptor.count < putCount then
    return .inr (descriptor, { st.tl with putIndex := st.tl.getIndex })
  else if st.hops ≠ set.width then
    let notempty := st.notempty || descriptor.count < putCount
    let (getIndex, random, hops) ← hop set st.tl.getIndex st.random st.hops
    return .inl ⟨{ st.tl with getIndex }, hops, random, notempty⟩
  else
    let shift ← canShift st
    if shift then
      let gWindow ← shiftWindow Shared.globalGWindow (fun m s => { s with globalGWindow := m })
        st.tl.gWindow (st.tl.gWindow + set.depth)
      return .inl { st with hops := 0, notempty := false, tl := { st.tl with gWindow } }
    else
      return .inr (descriptor, { st.tl with putIndex := st.tl.getIndex })

/-- `get_window`. -/
def getWindow (set : Params) (contention : Bool) (tl : Local) :
    Prog State (Descriptor × Local) := do
  let getIndex ← startIndex set contention tl.getIndex
  let gWindow ← Prog.read Shared.globalGWindow
  Prog.forever (getRound set) ⟨{ tl with getIndex, gWindow }, 0, 0, false⟩

/-- What the calls answer, where an assertion that fails ends the program. -/
inductive Answer
  | enqueued
  | value (val : ℤ)
  | empty
  | assertFailed
  deriving DecidableEq

/-- One round of the loop of `enqueue`: with the node linked, the two descriptors of the last
exchange; without them one of the assertions has failed. -/
def enqueueRound (set : Params) (newNode : ℕ) (contention : Bool) (tl : Local) :
    Prog State ((Bool × Local) ⊕ (Local × Option (Descriptor × Descriptor))) := do
  let (descriptor, tl) ← putWindow set contention tl
  if tl.gWindow ≤ tl.pWindow ∧ descriptor.count < tl.pWindow then
    let tail := descriptor.node
    -- the descriptor is not read atomically, so the count is checked again
    let putCount ← Prog.read fun s : State => (s.mem.putArray tl.putIndex).count
    if tl.pWindow ≤ putCount then
      return .inl (contention, tl)
    else
      let next ← readNext tail
      if next = none then
        let done ← enqCas tl.putIndex tail newNode
        if done then
          return .inr (tl, some (descriptor, ⟨some newNode, descriptor.count + 1⟩))
        else
          return .inl (true, tl)
      else
        -- help a pending enqueue
        let next ← readNext tail
        let done ← putCae tl.putIndex descriptor ⟨next, descriptor.count + 1⟩
        return .inl (contention || !done, tl)
  else
    return .inr (tl, none)

/-- `enqueue`. -/
def enqueue (set : Params) (val : ℤ) (tl : Local) : Prog State (Local × Answer) := do
  let newNode ← createNode val
  let (tl, descriptors) ←
    Prog.forever (fun (contention, tl) => enqueueRound set newNode contention tl) (false, tl)
  match descriptors with
  | none => return (tl, .assertFailed)
  | some (descriptor, newDescriptor) =>
    let _ ← putCae tl.putIndex descriptor newDescriptor
    return (tl, .enqueued)

/-- The part of `dequeue` from the label `safe_deq` on. -/
def dequeueHead (deqDescriptor : Descriptor) (tl : Local) :
    Prog State ((Bool × Local) ⊕ (Local × Answer)) := do
  let next ← readNext deqDescriptor.node
  let done ← deqCae tl.getIndex deqDescriptor ⟨next, deqDescriptor.count + 1⟩
  if done then
    let val ← Prog.read fun s : State => (s.mem.nodes.deref next).val
    return .inr (tl, .value val)
  else
    return .inl (true, tl)

/-- One round of the loop of `dequeue`. -/
def dequeueRound (set : Params) (contention : Bool) (tl : Local) :
    Prog State ((Bool × Local) ⊕ (Local × Answer)) := do
  let (deqDescriptor, tl) ← getWindow set contention tl
  let head := deqDescriptor.node
  let enqDescriptor ← readDescriptor (X := Memory) Arrays.put tl.getIndex
  if tl.gWindow < tl.pWindow then
    dequeueHead deqDescriptor tl
  else
    let tail := enqDescriptor.node
    if head = tail then
      let next ← readNext head
      if next = none then
        return .inr (tl, .empty)
      else
        -- help a pending enqueue
        let next ← readNext tail
        let done ← putCae tl.getIndex enqDescriptor ⟨next, enqDescriptor.count + 1⟩
        return .inl (contention || !done, tl)
    else
      dequeueHead deqDescriptor tl

/-- `dequeue`. -/
def dequeue (set : Params) (tl : Local) : Prog State (Local × Answer) := do
  let pWindow ← Prog.read Shared.globalPWindow
  Prog.forever (fun (contention, tl) => dequeueRound set contention tl)
    (false, { tl with pWindow })

/-- The queue as a shared object. -/
def object (set : Params) : Object State Local where
  Call := Call
  Ret := Answer
  code
    | .enqueue v, tl => enqueue set v tl
    | .dequeue, tl => dequeue set tl

end TwoDdOptimized
