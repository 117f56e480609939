import SemanticRelaxation.ElasticLpw.Window

/-!
# The elastic LpW queue (`src/2Dd-queue_elastic-lpw/2Dd-queue_elastic.c`)

An array of `max_width` Michael-Scott queues. The put count of a sub-queue is the row of its last
node, one above the row before it but never below the put window; the get count follows it.
-/

namespace ElasticLpw

open AtomicProg Linked

/-- `create_queue`, with `depth <= 2^16 - 1` and `1 <= width <= max_width`. -/
def initial (set : Params) (width depth : ℕ) : State where
  putArray i := ⟨some i, 0⟩
  getArray i := ⟨some i, 0⟩
  globalPWindow := ⟨depth, depth, width, width⟩
  globalGWindow := ⟨depth, depth, width⟩
  lateral := initialLateral width
  lateralHead := some 0
  lateralTail := some 0
  depth
  width
  nodes := .init ℕ set.maxWidth
  failed := false

/-- The parameters that `create_queue` stores. -/
def params (maxWidth : ℕ) : Params := ⟨maxWidth, 2⟩

/-- `create_node(key, val, NULL)`. -/
def createNode (val : ℤ) : Prog State ℕ :=
  Prog.update fun s => (s.nodes.fresh, { s with nodes := s.nodes.create val })

/-- The load of `node->next`. -/
def readNext (node : Option ℕ) : Prog State (Option ℕ) :=
  Prog.read fun s => (s.nodes.deref node).next

/-- `enq_cae(&tail->next, new_node)` in sub-queue `idx`. -/
def enqCae (idx : ℕ) (tail : Option ℕ) (newNode row : ℕ) : Prog State Bool := do
  let (done, _) ← Prog.cae (fun s : State => (s.nodes.deref tail).next)
    (fun _ s => { s with nodes := s.nodes.link idx tail newNode row }) none (some newNode)
  return done

/-- `CAE(&set->put_array[idx].descriptor, &old, &new)`. -/
def putCae (idx : ℕ) (old new : Descriptor) : Prog State Bool := do
  let (done, _) ← Prog.cae (fun s : State => s.putArray idx)
    (fun d s => { s with putArray := Function.update s.putArray idx d }) old new
  return done

/-- `deq_cae` on the get descriptor with index `idx`. -/
def deqCae (idx : ℕ) (old new : Descriptor) : Prog State Bool := do
  let (done, _) ← Prog.cae (fun s : State => s.getArray idx)
    (fun d s => { s with
      getArray := Function.update s.getArray idx d
      nodes := s.nodes.remove d.node }) old new
  return done

/-- The row after `count` in a window with rows above `bottom`: never below the window. -/
def nextRow (bottom count : ℕ) : ℕ := if bottom ≤ count then count + 1 else bottom + 1

/-- The attempt of `enqueue` to link its node behind `tail`, or to help a pending enqueue. -/
def tryLink (newNode : ℕ) (contention : Bool) (tl : Local) (descriptor : Descriptor) :
    Prog State ((Bool × Local) ⊕ (Local × Descriptor × Descriptor)) := do
  let tail := descriptor.node
  let newCount := nextRow tl.pWindow.bottom descriptor.count
  let next ← readNext tail
  if next = none then
    let done ← enqCae tl.putIndex tail newNode newCount
    if done then
      assert (tl.putIndex ≤ tl.pWindow.width)
      return .inr (tl, descriptor, ⟨some newNode, newCount⟩)
    else
      return .inl (true, tl)
  else
    let next ← readNext tail
    let done ← putCae tl.putIndex descriptor ⟨next, newCount⟩
    if done then
      assert (newCount ≤ tl.pWindow.max)
      return .inl (contention, tl)
    else
      return .inl (true, tl)

/-- One round of the loop of `enqueue`: with the node linked, the two descriptors of the last
exchange. -/
def enqueueRound (set : Params) (newNode : ℕ) (contention : Bool) (tl : Local) :
    Prog State ((Bool × Local) ⊕ (Local × Descriptor × Descriptor)) := do
  let (descriptor, tl) ← putWindow set contention tl
  assert (tl.gWindow.max ≤ tl.pWindow.max)
  assert (descriptor.count < tl.pWindow.max)
  let count ← Prog.read fun s : State => (s.putArray tl.putIndex).count
  if tl.pWindow.max ≤ count then
    return .inl (contention, tl)
  else
    tryLink newNode contention tl descriptor

/-- `enqueue`. -/
def enqueue (set : Params) (val : ℤ) (tl : Local) : Prog State (Local × ℤ) := do
  let newNode ← createNode val
  let (tl, descriptor, newDescriptor) ←
    Prog.forever (fun (contention, tl) => enqueueRound set newNode contention tl) (false, tl)
  let _ ← putCae tl.putIndex descriptor newDescriptor
  return (tl, 1)

/-- The branch `non_overlap` of `dequeue`, which removes the node behind the head. -/
def nonOverlap (deqDescriptor : Descriptor) (tl : Local) :
    Prog State ((Bool × Local) ⊕ (Local × Option ℤ)) := do
  let next ← readNext deqDescriptor.node
  let done ← deqCae tl.getIndex deqDescriptor
    ⟨next, nextRow tl.gWindow.bottom deqDescriptor.count⟩
  if done then
    let val ← Prog.read fun s : State => (s.nodes.deref next).val
    return .inr (tl, some val)
  else
    return .inl (true, tl)

/-- The branch of `dequeue` that swings a lagging tail. -/
def helpEnqueue (enqDescriptor : Descriptor) (contention : Bool) (tl : Local) :
    Prog State (Bool × Local) := do
  let next ← readNext enqDescriptor.node
  let max ← readPMax
  let depth ← Prog.read fun s : State => s.globalPWindow.depth
  let done ← putCae tl.getIndex enqDescriptor
    ⟨next, nextRow (Words.usub 64 max depth) enqDescriptor.count⟩
  return (contention || !done, tl)

/-- One round of the loop of `dequeue`; `none` stands for `return 0`. -/
def dequeueRound (set : Params) (contention : Bool) (tl : Local) :
    Prog State ((Bool × Local) ⊕ (Local × Option ℤ)) := do
  let (deqDescriptor, tl) ← getWindow set contention tl
  let head := deqDescriptor.node
  if tl.pWindow.bottom < tl.gWindow.max then
    let enqDescriptor ← readDescriptor State.putArray tl.getIndex
    let tail := enqDescriptor.node
    if head = tail then
      let next ← readNext head
      if next = none then
        return .inr (tl, none)
      else
        let r ← helpEnqueue enqDescriptor contention tl
        return .inl r
    else
      nonOverlap deqDescriptor tl
  else
    nonOverlap deqDescriptor tl

/-- `dequeue`. -/
def dequeue (set : Params) (tl : Local) : Prog State (Local × Option ℤ) := do
  let word1 ← readPMax
  let pWindow ← loadPWindow word1
  Prog.forever (fun (contention, tl) => dequeueRound set contention tl) (false, { tl with pWindow })

/-- `update_width`: an atomic exchange. -/
def updateWidth (width : ℕ) : Prog State ℕ := Prog.update fun s => (s.width, { s with width })

/-- `update_depth`: an atomic exchange. -/
def updateDepth (depth : ℕ) : Prog State ℕ := Prog.update fun s => (s.depth, { s with depth })

/-- The calls of the interface. -/
inductive Call
  | enqueue (val : ℤ)
  | dequeue
  | updateWidth (width : ℕ)
  | updateDepth (depth : ℕ)

/-- The arguments that the calls are made with: a width that is allocated, and a positive
`depth_t`. -/
def Call.Valid (set : Params) : Call → Prop
  | .updateWidth w => 1 ≤ w ∧ w ≤ set.maxWidth
  | .updateDepth d => 1 ≤ d ∧ d < 2 ^ 16
  | _ => True

/-- The queue as a shared object. -/
def object (set : Params) : Object State Local where
  Call := Call
  Ret := Option ℤ
  code
    | .enqueue v, tl => do
      let (tl, res) ← enqueue set v tl
      return (tl, some res)
    | .dequeue, tl => dequeue set tl
    | .updateWidth w, tl => do
      let old ← updateWidth w
      return (tl, some old)
    | .updateDepth d, tl => do
      let old ← updateDepth d
      return (tl, some old)

end ElasticLpw
