import SemanticRelaxation.Dcbo.BalancedQueue
import SemanticRelaxation.Support.Segments

/-!
# The FAAArrayQueue partial queue (`src/dcbo-faaaq/partial-faaaq.c`)

A linked list of segments with `BUFFER_SIZE` slots each. An enqueue and a dequeue get the index of
their slot by a fetch-and-add; the enqueue puts its item there unless the dequeue was there first
and has marked the slot as `TAKEN`. A segment without slots left is followed by a new one, which
carries the item of the enqueue that appends it.

The model has all partial queues of a d-CBO queue in one memory; a pointer `q` is the index of a
queue. Ghost state: `stored seg idx` is the call that has put its item into a slot, with the item,
and `claims q` lists the slots that dequeues have got by fetch-and-add, with their calls, in order.
-/

namespace DcboFaaaq

open AtomicProg Linked Segments

/-- `BUFFER_SIZE`. -/
def bufferSize : ℕ := 1024

/-- `TAKEN`. -/
def TAKEN : ℤ := -1

/-- `segment_t`, less its pointer to the next segment. -/
structure Segment where
  enqIdx : ℕ
  deqIdx : ℕ
  nodeIdx : ℕ
  items : ℕ → ℤ

instance : Inhabited Segment := ⟨⟨0, 0, 0, fun _ => Dcbo.EMPTY⟩⟩

/-- A slot: its segment and its index there. -/
structure Slot where
  seg : ℕ
  idx : ℕ
  deriving DecidableEq

/-- The memory of all partial queues. -/
structure Memory where
  chain : Chain Segment
  stored : Slot → Option (ℕ × ℤ)
  claims : ℕ → List (Slot × ℕ)

/-- The memory that `init_faaaq_queue` leaves for `width` queues. -/
def initial (width : ℕ) : Memory := ⟨.init Segment width, fun _ => none, fun _ => []⟩

namespace Memory

variable (s : Memory)

/-- A segment. -/
def seg (n : ℕ) : Segment := s.chain.seg n

/-- What is in a slot. -/
def item (x : Slot) : ℤ := (s.seg x.seg).items x.idx

/-- A step on the chains. -/
def onChain (f : Chain Segment → Chain Segment) : Memory := { s with chain := f s.chain }

/-- A store to a slot. -/
def setItem (x : Slot) (item : ℤ) : Memory :=
  s.onChain (·.modify x.seg fun y => { y with items := Function.update y.items x.idx item })

/-- The call `op` puts its item `val` into a slot. -/
def put (op : ℕ) (x : Slot) (val : ℤ) : Memory :=
  { s.setItem x val with stored := Function.update s.stored x (some (op, val)) }

/-- The call `op` links the segment `n`, which carries its item `val`, behind `tail`. -/
def link (op q tail n : ℕ) (val : ℤ) : Memory :=
  { s.onChain (·.link q tail n) with
    stored := Function.update s.stored ⟨n, 0⟩ (some (op, val)) }

/-- The call `op` increments the `deq_idx` of `n`, and gets a slot if there is one left. -/
def claim (op q n : ℕ) : Memory :=
  { s.onChain (·.modify n fun y => { y with deqIdx := y.deqIdx + 1 }) with
    claims := if (s.seg n).deqIdx < bufferSize then
      Function.update s.claims q (s.claims q ++ [(⟨n, (s.seg n).deqIdx⟩, op)]) else s.claims }

end Memory

/-- The loads of `q->tail` and `q->head`. -/
def readTail (q : ℕ) : Prog Memory ℕ := Prog.read fun s => s.chain.tail q

def readHead (q : ℕ) : Prog Memory ℕ := Prog.read fun s => s.chain.head q

/-- The load of `segment->next`. -/
def readNext (n : ℕ) : Prog Memory (Option ℕ) := Prog.read fun s => (s.chain.cells.heap n).next

/-- `CAE(&q->tail, &tail, &next)` and `CAE(&q->head, &head, &next)`. -/
def tailCae (q tail next : ℕ) : Prog Memory Unit := do
  let _ ← Prog.cae (fun s : Memory => s.chain.tail q)
    (fun n s => s.onChain (·.setTail q n)) tail next
  return ()

def headCae (q head next : ℕ) : Prog Memory Unit := do
  let _ ← Prog.cae (fun s : Memory => s.chain.head q)
    (fun n s => s.onChain (·.setHead q n)) head next
  return ()

/-- `FAI_U64(&tail->enq_idx)`. -/
def fetchAddEnq (n : ℕ) : Prog Memory ℕ :=
  Prog.update fun s => ((s.seg n).enqIdx,
    s.onChain (·.modify n fun y => { y with enqIdx := y.enqIdx + 1 }))

/-- `FAI_U64(&head->deq_idx)`. -/
def fetchAddDeq (c : Caller) (q n : ℕ) : Prog Memory ℕ :=
  Prog.update fun s => ((s.seg n).deqIdx, s.claim c.op q n)

/-- `create_segment(key, val, NULL, node_idx)`. -/
def createSegment (val : ℤ) (nodeIdx : ℕ) : Prog Memory ℕ :=
  Prog.update fun s => (s.chain.cells.fresh,
    s.onChain (·.create ⟨1, 0, nodeIdx, fun i => if i = 0 then val else Dcbo.EMPTY⟩))

/-- `CAE(&tail->next, &null_segment, &new_segment)`. -/
def nextCae (c : Caller) (q tail newSegment : ℕ) (val : ℤ) : Prog Memory Bool := do
  let (done, _) ← Prog.cae (fun s : Memory => (s.chain.cells.heap tail).next)
    (fun _ s => s.link c.op q tail newSegment val) none (some newSegment)
  return done

/-- `enq_cae(&tail->items[idx], val)`. -/
def enqCae (c : Caller) (x : Slot) (val : ℤ) : Prog Memory Bool := do
  let (done, _) ← Prog.cae (fun s : Memory => s.item x) (fun val s => s.put c.op x val)
    Dcbo.EMPTY val
  return done

/-- `deq_swp(&head->items[idx])`. -/
def deqSwp (x : Slot) : Prog Memory ℤ := Prog.update fun s => (s.item x, s.setItem x TAKEN)

/-- The branch of `faaaq_enqueue` that appends a segment. -/
def appendSegment (c : Caller) (q tail : ℕ) (val : ℤ) : Prog Memory (Unit ⊕ ℤ) := do
  let nodeIdx ← Prog.read fun s : Memory => (s.seg tail).nodeIdx
  let newSegment ← createSegment val (nodeIdx + 1)
  let done ← nextCae c q tail newSegment val
  if done then
    tailCae q tail newSegment
    return .inr 1
  else return .inl ()

/-- The branch of `faaaq_enqueue` for a segment without slots left. -/
def leaveSegment (c : Caller) (q tail : ℕ) (val : ℤ) : Prog Memory (Unit ⊕ ℤ) := do
  let tail' ← readTail q
  if tail ≠ tail' then return .inl ()
  else
    match ← readNext tail with
    | none => appendSegment c q tail val
    | some next =>
      tailCae q tail next
      return .inl ()

/-- One round of the loop of `faaaq_enqueue`. -/
def faaaqEnqueueRound (c : Caller) (q : ℕ) (val : ℤ) : Prog Memory (Unit ⊕ ℤ) := do
  let tail ← readTail q
  let idx ← fetchAddEnq tail
  if idx > bufferSize - 1 then leaveSegment c q tail val
  else
    let done ← enqCae c ⟨tail, idx⟩ val
    return if done then .inr 1 else .inl ()

/-- `faaaq_enqueue`. -/
def faaaqEnqueue (c : Caller) (q : ℕ) (val : ℤ) : Prog Memory ℤ :=
  Prog.forever (fun _ => faaaqEnqueueRound c q val) ()

/-- The loads of the operands of `head->deq_idx >= head->enq_idx`, in either order. -/
def readIndices (n : ℕ) : Prog Memory (ℕ × ℕ) := do
  let deqFirst ← Prog.choose
  if deqFirst = 0 then
    let deqIdx ← Prog.read fun s : Memory => (s.seg n).deqIdx
    let enqIdx ← Prog.read fun s : Memory => (s.seg n).enqIdx
    return (deqIdx, enqIdx)
  else
    let enqIdx ← Prog.read fun s : Memory => (s.seg n).enqIdx
    let deqIdx ← Prog.read fun s : Memory => (s.seg n).deqIdx
    return (deqIdx, enqIdx)

/-- `head->deq_idx >= head->enq_idx && head->next == NULL`. -/
def noneLeft (n : ℕ) : Prog Memory Bool := do
  let (deqIdx, enqIdx) ← readIndices n
  if deqIdx ≥ enqIdx then
    let next ← readNext n
    return decide (next = none)
  else return false

/-- The branch of `faaaq_dequeue` for a segment whose slots have all been claimed. -/
def nextSegment (q head : ℕ) : Prog Memory (Unit ⊕ ℤ) := do
  match ← readNext head with
  | none => return .inr Dcbo.EMPTY
  | some next =>
    headCae q head next
    return .inl ()

/-- One round of the loop of `faaaq_dequeue`. -/
def faaaqDequeueRound (c : Caller) (q : ℕ) : Prog Memory (Unit ⊕ ℤ) := do
  let head ← readHead q
  let none ← noneLeft head
  if none then return .inr Dcbo.EMPTY
  else
    let idx ← fetchAddDeq c q head
    if idx > bufferSize - 1 then nextSegment q head
    else
      let item ← deqSwp ⟨head, idx⟩
      return if item ≠ Dcbo.EMPTY then .inr item else .inl ()

/-- `faaaq_dequeue`. -/
def faaaqDequeue (c : Caller) (q : ℕ) : Prog Memory ℤ :=
  Prog.forever (fun _ => faaaqDequeueRound c q) ()

/-- `idx` or, beyond the last slot, `BUFFER_SIZE`. -/
def capped (idx : ℕ) : ℕ := if idx > bufferSize - 1 then bufferSize else idx

/-- `faaaq_enq_count`. -/
def faaaqEnqCount (q : ℕ) : Prog Memory ℕ := do
  let tail ← readTail q
  let idx ← Prog.read fun s : Memory => (s.seg tail).enqIdx
  let nodeIdx ← Prog.read fun s : Memory => (s.seg tail).nodeIdx
  return capped idx + bufferSize * nodeIdx

/-- `faaaq_deq_count`. -/
def faaaqDeqCount (q : ℕ) : Prog Memory ℕ := do
  let head ← readHead q
  let idx ← Prog.read fun s : Memory => (s.seg head).deqIdx
  let nodeIdx ← Prog.read fun s : Memory => (s.seg head).nodeIdx
  return capped idx + bufferSize * nodeIdx

/-- The macros of `partial-faaaq.h`. -/
def partialFaaaq : Dcbo.Partial Memory Unit where
  enqueue c q val handle := do
    let r ← faaaqEnqueue c q val
    return (handle, r)
  dequeue := faaaqDequeue
  tailVersion := faaaqEnqCount
  enqCount := faaaqEnqCount
  deqCount := faaaqDeqCount

/-- The calls on the partial queues themselves. -/
inductive Call
  | enqueue (q : ℕ) (val : ℤ)
  | dequeue (q : ℕ)
  deriving DecidableEq

/-- The partial queues as a service. -/
abbrev partialService : Service Memory Unit where
  Call := Call
  Ret := ℤ
  code
    | c, .enqueue q val, l => do
      let r ← faaaqEnqueue c q val
      return (l, r)
    | c, .dequeue q, l => do
      let r ← faaaqDequeue c q
      return (l, r)

end DcboFaaaq
