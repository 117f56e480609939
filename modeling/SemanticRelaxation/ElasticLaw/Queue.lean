import SemanticRelaxation.ElasticLaw.Window

/-!
# The elastic LaW queue (`src/2Dd-queue_elastic-law/2Dd-queue_elastic.c`)

An array of `max_width` Michael-Scott queues. The put count of a sub-queue is the row of its last
node, one above the row before it but never below the put window; the get count follows it.
-/

namespace ElasticLaw

open AtomicProg Linked

/-- `create_queue`, with `depth <= 2^16 - 1` and `1 <= width <= max_width`. -/
def initial (set : Params) (width depth : ℕ) : State where
  putArray i := ⟨some i, 0⟩
  getArray i := ⟨some i, 0⟩
  lateral := initialLateral width depth
  lateralHead := some 0
  lateralTail := some 1
  depth
  width
  nodes := .init Tag set.maxWidth
  failed := false

/-- The parameters that `create_queue` stores. -/
def params (maxWidth : ℕ) : Params := ⟨maxWidth, 2⟩

/-- `create_node(key, val, NULL)`. -/
def createNode (val : ℤ) : Prog State ℕ :=
  Prog.update fun s => (s.nodes.fresh, { s with nodes := s.nodes.create val })

/-- The load of `node->next`. -/
def readNext (node : Option ℕ) : Prog State (Option ℕ) :=
  Prog.read fun s => (s.nodes.deref node).next

/-- `enq_cae(&tail->next, new_node)` in sub-queue `idx`. -/
def enqCae (idx : ℕ) (tail : Option ℕ) (newNode : ℕ) (tag : Tag) : Prog State Bool := do
  let (done, _) ← Prog.cae (fun s : State => (s.nodes.deref tail).next)
    (fun _ s => { s with nodes := s.nodes.link idx tail newNode tag }) none (some newNode)
  return done

/-- `CAE(&set->put_array[idx].descriptor, &old, &new)`. -/
def putCae (idx : ℕ) (old new : Descriptor) : Prog State Bool := do
  let (done, _) ← Prog.cae (fun s : State => s.putArray idx)
    (fun d s => { s with putArray := Function.update s.putArray idx d }) old new
  return done

/-- `deq_cae` on the get descriptor with index `idx`. -/
def deqCae (idx : ℕ) (old new : Descriptor) : Prog State Bool := do
  let (done, _) ← Prog.cae (fun s : State => s.getArray idx)
    (fun d s => { s with
      getArray := Function.update s.getArray idx d
      nodes := s.nodes.remove d.node }) old new
  return done

/-- The row after `count` in a window: never below the window. -/
def nextRow (w : Window) (count : ℕ) : ℕ := if w.bottom ≤ count then count + 1 else w.bottom + 1

/-- The attempt of `enqueue` to link its node behind `tail`, or to help a pending enqueue. -/
def tryLink (newNode : ℕ) (contention : Bool) (tl : Local) (descriptor : Descriptor) (w : Window) :
    Prog State ((Bool × Local) ⊕ (Local × Descriptor × Descriptor)) := do
  let tail := descriptor.node
  let newCount := nextRow w descriptor.count
  let next ← readNext tail
  if next = none then
    let done ← enqCae tl.putIndex tail newNode ⟨newCount, w⟩
    if done then
      assert (tl.putIndex ≤ w.width)
      return .inr (tl, descriptor, ⟨some newNode, newCount⟩)
    else
      return .inl (true, tl)
  else
    let next ← readNext tail
    let done ← putCae tl.putIndex descriptor ⟨next, newCount⟩
    if done then
      assert (newCount ≤ w.max)
      return .inl (contention, tl)
    else
      return .inl (true, tl)

/-- One round of the loop of `enqueue`: with the node linked, the two descriptors of the last
exchange. -/
def enqueueRound (set : Params) (newNode : ℕ) (contention : Bool) (tl : Local) :
    Prog State ((Bool × Local) ⊕ (Local × Descriptor × Descriptor)) := do
  let (descriptor, tl) ← putWindow set contention tl
  assert descriptor.node.isSome
  let w ← readWindow tl.putWindow
  assert (descriptor.count < w.max)
  let count ← Prog.read fun s : State => (s.putArray tl.putIndex).count
  if w.max ≤ count then
    return .inl (contention, tl)
  else
    tryLink newNode contention tl descriptor w

/-- `enqueue`. -/
def enqueue (set : Params) (val : ℤ) (tl : Local) : Prog State (Local × ℤ) := do
  let newNode ← createNode val
  let (tl, descriptor, newDescriptor) ←
    Prog.forever (fun (contention, tl) => enqueueRound set newNode contention tl) (false, tl)
  assert newDescriptor.node.isSome
  let _ ← putCae tl.putIndex descriptor newDescriptor
  return (tl, 1)

/-- The branch `safe_deq` of `dequeue`, which removes the node behind the head. -/
def safeDeq (deqDescriptor : Descriptor) (tl : Local) :
    Prog State ((Bool × Local) ⊕ (Local × Option ℤ)) := do
  let next ← readNext deqDescriptor.node
  let w ← readWindow tl.getWindow
  let done ← deqCae tl.getIndex deqDescriptor ⟨next, nextRow w deqDescriptor.count⟩
  if done then
    let val ← Prog.read fun s : State => (s.nodes.deref next).val
    return .inr (tl, some val)
  else
    return .inl (true, tl)

/-- The branch of `dequeue` that swings a lagging tail. -/
def helpEnqueue (enqDescriptor : Descriptor) (contention : Bool) (tl : Local) :
    Prog State (Bool × Local) := do
  let next ← readNext enqDescriptor.node
  let latTail ← Prog.read State.lateralTail
  let w ← readWindow latTail
  let done ← putCae tl.getIndex enqDescriptor ⟨next, nextRow w enqDescriptor.count⟩
  return (contention || !done, tl)

/-- One round of the loop of `dequeue`; `none` stands for `return 0`. -/
def dequeueRound (set : Params) (contention : Bool) (tl : Local) :
    Prog State ((Bool × Local) ⊕ (Local × Option ℤ)) := do
  let (deqDescriptor, tl) ← getWindow set contention tl
  let head := deqDescriptor.node
  let p ← readWindow tl.putWindow
  let g ← readWindow tl.getWindow
  if g.max < p.max then
    safeDeq deqDescriptor tl
  else
    let enqDescriptor ← readDescriptor State.putArray tl.getIndex
    let tail := enqDescriptor.node
    if head = tail then
      let next ← readNext head
      if next = none then
        return .inr (tl, none)
      else
        let r ← helpEnqueue enqDescriptor contention tl
        return .inl r
    else
      safeDeq deqDescriptor tl

/-- `dequeue`. -/
def dequeue (set : Params) (tl : Local) : Prog State (Local × Option ℤ) := do
  let latTail ← Prog.read State.lateralTail
  Prog.forever (fun (contention, tl) => dequeueRound set contention tl)
    (false, { tl with putWindow := latTail, ltailPointer := latTail })

/-- `update_width`: an atomic exchange. -/
def updateWidth (width : ℕ) : Prog State ℕ := Prog.update fun s => (s.width, { s with width })

/-- `update_depth`: an atomic exchange. -/
def updateDepth (depth : ℕ) : Prog State ℕ := Prog.update fun s => (s.depth, { s with depth })

/-- The thread-local variables of a new thread. -/
def Local.zero : Local := ⟨none, none, none, none, 0, 0⟩

/-- The calls of the interface; `register` is `queue_register` of a new thread. -/
inductive Call
  | register
  | enqueue (val : ℤ)
  | dequeue
  | updateWidth (width : ℕ)
  | updateDepth (depth : ℕ)

/-- The arguments that the calls are made with: a width that is allocated, and a positive
`depth_t`. -/
def Call.Valid (set : Params) : Call → Prop
  | .updateWidth w => 1 ≤ w ∧ w ≤ set.maxWidth
  | .updateDepth d => 1 ≤ d ∧ d < 2 ^ 16
  | _ => True

/-- The queue as a shared object. -/
def object (set : Params) : Object State Local where
  Call := Call
  Ret := Option ℤ
  code
    | .register, _ => do
      let tl ← initThreadWindows .zero
      return (tl, none)
    | .enqueue v, tl => do
      let (tl, res) ← enqueue set v tl
      return (tl, some res)
    | .dequeue, tl => dequeue set tl
    | .updateWidth w, tl => do
      let old ← updateWidth w
      return (tl, some old)
    | .updateDepth d, tl => do
      let old ← updateDepth d
      return (tl, some old)

/-- The thread-local variables of a thread that registers before the first operation. -/
def Local.registered : Local := ⟨some 1, some 1, some 0, some 1, 0, 0⟩

end ElasticLaw
