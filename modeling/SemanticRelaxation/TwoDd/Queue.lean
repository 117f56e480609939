import SemanticRelaxation.Support.Linked
import SemanticRelaxation.TwoDd.Window

/-!
# The 2Dd queue (`src/2Dd-queue/2Dd-queue.c`)

An array of Michael-Scott queues. A put descriptor holds a queue's tail node and the number of its
enqueues, a get descriptor its head node and the number of its dequeues. An enqueue links its node
behind the tail and then swings the put descriptor; a thread that finds the tail lagging swings it.

`enqCas` and `deqCae` keep, next to the exchanges, the list of the items present (oldest first) with
its distances, as the build with `RELAXATION_ANALYSIS` does.
-/

namespace TwoDd

namespace Queue

open AtomicProg Linked

/-- The two arrays of descriptors, whose second word is `put_count` or `get_count`, and the node
memory. -/
structure Memory where
  putArray : ℕ → Descriptor
  getArray : ℕ → Descriptor
  nodes : Mem Unit

instance : Arrays Memory Descriptor where
  put := Memory.putArray
  get := Memory.getArray
  putCount := Descriptor.count
  getCount := Descriptor.count
  copy first second := ⟨first.node, second.count⟩
  copy_self _ := rfl

abbrev State := Shared Memory

/-- `create_queue`: the fields that the window code reads. -/
def params (width depth : ℕ) : Params := ⟨width, depth, 2⟩

/-- The shared memory that `create_queue` leaves: a dummy node in every sub-queue. -/
def initial (set : Params) : State where
  globalPWindow := set.depth
  globalGWindow := set.depth
  mem := ⟨fun i => ⟨some i, 0⟩, fun i => ⟨some i, 0⟩, .init Unit set.width⟩

/-- A step on the node memory. -/
def State.onNodes (s : State) (f : Mem Unit → Mem Unit) : State :=
  { s with mem := { s.mem with nodes := f s.mem.nodes } }

/-- `create_node(key, val, NULL)`. -/
def createNode (val : ℤ) : Prog State ℕ :=
  Prog.update fun s => (s.mem.nodes.fresh, s.onNodes (·.create val))

/-- The load of `node->next`. -/
def readNext (node : Option ℕ) : Prog State (Option ℕ) :=
  Prog.read fun s => (s.mem.nodes.deref node).next

/-- `enq_cas(&tail->next, new_node)` in sub-queue `idx`. -/
def enqCas (idx : ℕ) (tail : Option ℕ) (newNode : ℕ) : Prog State Bool := do
  let (done, _) ← Prog.cae (fun s : State => (s.mem.nodes.deref tail).next)
    (fun _ s => s.onNodes (·.link idx tail newNode ())) none (some newNode)
  return done

/-- `CAE(&set->put_array[idx].descriptor, &old, &new)`. -/
def putCae (idx : ℕ) (old new : Descriptor) : Prog State Bool := do
  let (done, _) ← Prog.cae (fun s : State => s.mem.putArray idx)
    (fun d s => { s with mem := { s.mem with putArray := Function.update s.mem.putArray idx d } })
    old new
  return done

/-- `deq_cae` on the get descriptor with index `idx`. -/
def deqCae (idx : ℕ) (old new : Descriptor) : Prog State Bool := do
  let (done, _) ← Prog.cae (fun s : State => s.mem.getArray idx)
    (fun d s => { s with mem :=
      { s.mem with
        getArray := Function.update s.mem.getArray idx d
        nodes := s.mem.nodes.remove d.node } }) old new
  return done

/-- One round of the loop of `enqueue`: with the node linked, the two descriptors of the last
exchange. -/
def enqueueRound (set : Params) (newNode : ℕ) (contention : Bool) (tl : Local) :
    Prog State ((Bool × Local) ⊕ (Local × Descriptor × Descriptor)) := do
  let (descriptor, tl) ← putWindow set contention tl
  let tail := descriptor.node
  let next ← readNext tail
  if next = none then
    let putCount ← Prog.read fun s : State => (s.mem.putArray tl.index).count
    -- the descriptor is not read atomically, so the count is checked again
    if tl.pWindow ≤ putCount then
      return .inl (contention, tl)
    else
      let done ← enqCas tl.index tail newNode
      if done then
        return .inr (tl, descriptor, ⟨some newNode, descriptor.count + 1⟩)
      else
        return .inl (true, tl)
  else
    -- help a pending enqueue
    let next ← readNext tail
    let done ← putCae tl.index descriptor ⟨next, descriptor.count + 1⟩
    return .inl (contention || !done, tl)

/-- `enqueue`. -/
def enqueue (set : Params) (val : ℤ) (tl : Local) : Prog State (Local × ℤ) := do
  let newNode ← createNode val
  let (tl, descriptor, newDescriptor) ←
    Prog.forever (fun (contention, tl) => enqueueRound set newNode contention tl) (false, tl)
  let _ ← putCae tl.index descriptor newDescriptor
  return (tl, 1)

/-- The branch of `dequeue` that removes the node behind `head`. -/
def dequeueHead (deqDescriptor : Descriptor) (tl : Local) :
    Prog State ((Bool × Local) ⊕ (Local × Option ℤ)) := do
  let next ← readNext deqDescriptor.node
  let done ← deqCae tl.index deqDescriptor ⟨next, deqDescriptor.count + 1⟩
  if done then
    let next ← readNext deqDescriptor.node
    let val ← Prog.read fun s : State => (s.mem.nodes.deref next).val
    return .inr (tl, some val)
  else
    return .inl (true, tl)

/-- One round of the loop of `dequeue`; `none` stands for `return 0`. -/
def dequeueRound (set : Params) (contention : Bool) (tl : Local) :
    Prog State ((Bool × Local) ⊕ (Local × Option ℤ)) := do
  let (deqDescriptor, tl) ← getWindow set contention tl
  let head := deqDescriptor.node
  let enqDescriptor ← readDescriptor (X := Memory) Arrays.put tl.index
  let tail := enqDescriptor.node
  if head = tail then
    let next ← readNext head
    if next = none then
      return .inr (tl, none)
    else
      -- help a pending enqueue
      let next ← readNext tail
      let done ← putCae tl.index enqDescriptor ⟨next, enqDescriptor.count + 1⟩
      return .inl (contention || !done, tl)
  else
    dequeueHead deqDescriptor tl

/-- `dequeue`. -/
def dequeue (set : Params) (tl : Local) : Prog State (Local × Option ℤ) :=
  Prog.forever (fun (contention, tl) => dequeueRound set contention tl) (false, tl)

/-- The calls of the interface. -/
inductive Call
  | enqueue (val : ℤ)
  | dequeue

/-- The queue as a shared object; `enqueue` answers 1 and `dequeue` the value or 0. -/
def object (set : Params) : Object State Local where
  Call := Call
  Ret := Option ℤ
  code
    | .enqueue v, tl => do
      let (tl, res) ← enqueue set v tl
      return (tl, some res)
    | .dequeue, tl => dequeue set tl

end Queue

end TwoDd
