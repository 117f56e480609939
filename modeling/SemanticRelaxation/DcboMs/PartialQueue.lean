import SemanticRelaxation.Dcbo.BalancedQueue
import SemanticRelaxation.Support.MichaelScott

/-!
# The Michael-Scott partial queue (`src/dcbo-ms/partial-ms.c`)

The head and tail of a queue are descriptors of two words, a node and a count, that are exchanged
together but read one word at a time. The model has all partial queues of a d-CBO queue in one
memory; a pointer `q` is the index of a queue.

`taken` is ghost state: the calls whose `deq_cae` succeeded, in order.
-/

namespace DcboMs

open AtomicProg Linked

/-- The memory of all partial queues. -/
structure Memory where
  head : ℕ → Descriptor
  tail : ℕ → Descriptor
  cells : Cells ℤ
  taken : ℕ → List ℕ

/-- The memory that `init_ms_queue` leaves for `width` queues: a dummy node in each. -/
def initial (width : ℕ) : Memory :=
  ⟨fun q => ⟨some q, 0⟩, fun q => ⟨some q, 0⟩, .init ℤ width, fun _ => []⟩

namespace Memory

variable (s : Memory)

/-- A step on the nodes. -/
def onCells (f : Cells ℤ → Cells ℤ) : Memory := { s with cells := f s.cells }

/-- A store to `q->tail`. -/
def setTail (q : ℕ) (d : Descriptor) : Memory := { s with tail := Function.update s.tail q d }

/-- A store to `q->head` by the call `op`. -/
def setHead (op q : ℕ) (d : Descriptor) : Memory :=
  { s with
    head := Function.update s.head q d
    taken := Function.update s.taken q (s.taken q ++ [op]) }

end Memory

/-- A copy of a descriptor: its two words are loaded in either order. -/
def readDescriptor (loc : Memory → Descriptor) : Prog Memory Descriptor := do
  let nodeFirst ← Prog.choose
  if nodeFirst = 0 then
    let node ← Prog.read fun s => (loc s).node
    let count ← Prog.read fun s => (loc s).count
    return ⟨node, count⟩
  else
    let count ← Prog.read fun s => (loc s).count
    let node ← Prog.read fun s => (loc s).node
    return ⟨node, count⟩

/-- The load of `node->next`. -/
def readNext (node : Option ℕ) : Prog Memory (Option ℕ) :=
  Prog.read fun s => (s.cells.deref node).next

/-- `create_ms_node(key, val, NULL)`. -/
def createMsNode (val : ℤ) : Prog Memory ℕ :=
  Prog.update fun s => (s.cells.fresh, s.onCells (·.create val))

/-- `enq_cae(&tail.node->next, new_node)` in queue `q`. -/
def enqCae (q : ℕ) (tail : Option ℕ) (newNode : ℕ) : Prog Memory Bool := do
  let (done, _) ← Prog.cae (fun s : Memory => (s.cells.deref tail).next)
    (fun _ s => s.onCells (·.append q tail newNode)) none (some newNode)
  return done

/-- `CAE(&q->tail, &tail, &new_tail)`. -/
def tailCae (q : ℕ) (tail newTail : Descriptor) : Prog Memory Unit := do
  let _ ← Prog.cae (fun s : Memory => s.tail q) (fun d s => s.setTail q d) tail newTail
  return ()

/-- `deq_cae(&q->head, &head, &new_head)`. -/
def deqCae (c : Caller) (q : ℕ) (head newHead : Descriptor) : Prog Memory Bool := do
  let (done, _) ← Prog.cae (fun s : Memory => s.head q) (fun d s => s.setHead c.op q d) head newHead
  return done

/-- One round of the loop of `ms_enqueue`; with the node linked, the tail it was linked to. -/
def msEnqueueRound (q newNode : ℕ) : Prog Memory (Unit ⊕ Descriptor) := do
  let tail ← readDescriptor fun s => s.tail q
  let next ← readNext tail.node
  if next = none then
    let done ← enqCae q tail.node newNode
    return if done then .inr tail else .inl ()
  else
    let next ← readNext tail.node
    tailCae q tail ⟨next, tail.count + 1⟩
    return .inl ()

/-- `ms_enqueue`. -/
def msEnqueue (q : ℕ) (val : ℤ) : Prog Memory ℤ := do
  let newNode ← createMsNode val
  let tail ← Prog.forever (fun _ => msEnqueueRound q newNode) ()
  tailCae q tail ⟨some newNode, tail.count + 1⟩
  return 1

/-- The branch of `ms_dequeue` that finds the head and the tail at one node. -/
def helpOrEmpty (q : ℕ) (head tail : Descriptor) : Prog Memory (Unit ⊕ ℤ) := do
  let next ← readNext head.node
  if next = none then return .inr Dcbo.EMPTY
  else
    let next ← readNext tail.node
    tailCae q tail ⟨next, tail.count + 1⟩
    return .inl ()

/-- The branch of `ms_dequeue` that removes the node behind the head. -/
def takeHead (c : Caller) (q : ℕ) (head : Descriptor) : Prog Memory (Unit ⊕ ℤ) := do
  let next ← readNext head.node
  let done ← deqCae c q head ⟨next, head.count + 1⟩
  if done then
    let next ← readNext head.node
    let val ← Prog.read fun s : Memory => (s.cells.deref next).val
    return .inr val
  else return .inl ()

/-- One round of the loop of `ms_dequeue`. -/
def msDequeueRound (c : Caller) (q : ℕ) : Prog Memory (Unit ⊕ ℤ) := do
  let head ← readDescriptor fun s => s.head q
  let tail ← readDescriptor fun s => s.tail q
  if head.node = tail.node then helpOrEmpty q head tail else takeHead c q head

/-- `ms_dequeue`. -/
def msDequeue (c : Caller) (q : ℕ) : Prog Memory ℤ :=
  Prog.forever (fun _ => msDequeueRound c q) ()

/-- `ms_enq_count`. -/
def msEnqCount (q : ℕ) : Prog Memory ℕ := Prog.read fun s => (s.tail q).count

/-- `ms_deq_count`. -/
def msDeqCount (q : ℕ) : Prog Memory ℕ := Prog.read fun s => (s.head q).count

/-- The macros of `partial-ms.h`. -/
def partialMs : Dcbo.Partial Memory Unit where
  enqueue _ q val handle := do
    let r ← msEnqueue q val
    return (handle, r)
  dequeue := msDequeue
  tailVersion := msEnqCount
  enqCount := msEnqCount
  deqCount := msDeqCount

/-- The calls on the partial queues themselves. -/
inductive Call
  | enqueue (q : ℕ) (val : ℤ)
  | dequeue (q : ℕ)
  deriving DecidableEq

/-- The queue that a call is made on. -/
def Call.queue : Call → ℕ
  | .enqueue q _ => q
  | .dequeue q => q

/-- The partial queues as a service. -/
abbrev partialService : Service Memory Unit where
  Call := Call
  Ret := ℤ
  code
    | _, .enqueue q val, l => do
      let r ← msEnqueue q val
      return (l, r)
    | c, .dequeue q, l => do
      let r ← msDequeue c q
      return (l, r)

end DcboMs
