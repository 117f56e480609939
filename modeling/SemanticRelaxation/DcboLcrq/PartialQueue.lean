import SemanticRelaxation.Dcbo.BalancedQueue
import SemanticRelaxation.Support.Segments

/-!
# The LCRQ partial queue (`src/dcbo-lcrq/lcrq.c`)

A linked list of rings with `RING_SIZE` cells each. An enqueue and a dequeue get an index by a
fetch-and-add on the tail or head of a ring; index `i` belongs to the cell `i & (RING_SIZE - 1)`. A
ring that is full is closed, and followed by a new one that carries the item of the enqueue that
appends it. A thread keeps a ring that it could not append in its handle.

The model has all partial queues of a d-CBO queue in one memory; a pointer `q` is the index of a
queue. `size` stands for `RING_SIZE`. A 64-bit word with a flag in bit 63 is a `Word`, the flag
apart. The value of a cell is read as an `int64_t`, so an empty cell holds -1.

Ghost state: a ring records which call has put an item in at an index (`stored`), which call has got
an index of the head (`claims`), which has removed the item of an index (`taken`), how many indices
of the tail have been given out before it was closed (`issued`), and which indices dequeues have
given up by marking a cell that held an older item (`passed`). `misled` records that a dequeue has
answered by the early check of `lcrq_get` on a closed ring with indices that no dequeue had got.
-/

namespace DcboLcrq

open AtomicProg Linked Segments

/-- `LCRQ_RING_SIZE` if nothing else is defined. -/
def LCRQ_RING_SIZE : ℕ := 2 ^ 12

/-- A 64-bit word, bit 63 apart. -/
structure Word where
  index : ℕ
  mark : Bool
  deriving DecidableEq

/-- The word as an `int64_t`. -/
def Word.signed (x : Word) : ℤ := if x.mark then (x.index : ℤ) - 2 ^ 63 else x.index

/-- `RingNode`. -/
structure RingNode where
  val : ℤ
  idx : Word
  deriving DecidableEq

/-- `RingQueue`, less its pointer to the next ring, with its ghost record. -/
structure RingQueue where
  head : ℕ
  tail : Word
  itemsEnqueued : ℕ
  array : ℕ → RingNode
  stored : ℕ → Option (ℕ × ℤ)
  claims : ℕ → Option ℕ
  taken : ℕ → Option ℕ
  passed : ℕ → Bool
  issued : ℕ

/-- `init_ring`. -/
def initRing : RingQueue :=
  ⟨0, ⟨0, false⟩, 0, fun i => ⟨-1, ⟨i, false⟩⟩, fun _ => none, fun _ => none, fun _ => none,
    fun _ => false, 0⟩

instance : Inhabited RingQueue := ⟨initRing⟩

/-- The memory of all partial queues. -/
structure Memory where
  chain : Chain RingQueue
  misled : Bool

/-- The memory that `queue_init` leaves for `width` queues. -/
def initial (width : ℕ) : Memory := ⟨.init RingQueue width, false⟩

namespace RingQueue

variable (a : RingQueue)

/-- A fetch-and-add on the tail. -/
def addTail : RingQueue :=
  { a with
    tail := ⟨a.tail.index + 1, a.tail.mark⟩
    issued := if a.tail.mark then a.issued else a.tail.index + 1 }

/-- Bit 63 of the tail is set. -/
def close : RingQueue := { a with tail := ⟨a.tail.index, true⟩ }

/-- A fetch-and-add on the head by the call `op`. -/
def addHead (op : ℕ) : RingQueue :=
  { a with
    head := a.head + 1
    claims := Function.update a.claims a.head (some op) }

/-- A store to a cell. -/
def setCell (i : ℕ) (cell : RingNode) :
    RingQueue := { a with array := Function.update a.array i cell }

/-- The call `op` puts its item `val` in at index `t`. -/
def put (size op t : ℕ) (val : ℤ) : RingQueue :=
  { a.setCell (t % size) ⟨val, ⟨t, false⟩⟩ with
    stored := Function.update a.stored t (some (op, val)) }

/-- The call `op` removes the item of index `h`. -/
def take (size op h : ℕ) (cell : RingNode) : RingQueue :=
  { a.setCell (h % size) cell with taken := Function.update a.taken h (some op) }

/-- A dequeue gives the index `h` up. -/
def pass (size h : ℕ) (cell : RingNode) : RingQueue :=
  { a.setCell (h % size) cell with passed := Function.update a.passed h true }

/-- The call `op` prepares a ring that is not linked for its item. -/
def prepare (op : ℕ) (val : ℤ) (items : ℕ) : RingQueue :=
  { a.setCell 0 ⟨val, ⟨0, false⟩⟩ with
    tail := ⟨1, false⟩
    itemsEnqueued := items
    stored := Function.update a.stored 0 (some (op, val))
    issued := 1 }

end RingQueue

namespace Memory

variable (s : Memory)

/-- A ring. -/
def ring (n : ℕ) : RingQueue := s.chain.seg n

/-- A step on the chains. -/
def onChain (f : Chain RingQueue → Chain RingQueue) : Memory := { s with chain := f s.chain }

/-- A step on a ring. -/
def onRing (n : ℕ) (f : RingQueue → RingQueue) : Memory := s.onChain (·.modify n f)

end Memory

/-! ### Atomic steps -/

/-- The loads of `q->tail` and `q->head`. -/
def readTail (q : ℕ) : Prog Memory ℕ := Prog.read fun s => s.chain.tail q

def readHead (q : ℕ) : Prog Memory ℕ := Prog.read fun s => s.chain.head q

/-- The load of `rq->next`. -/
def readNext (n : ℕ) : Prog Memory (Option ℕ) := Prog.read fun s => (s.chain.cells.heap n).next

/-- The loads of `rq->tail` and `rq->head`. -/
def readRingTail (n : ℕ) : Prog Memory Word := Prog.read fun s => (s.ring n).tail

def readRingHead (n : ℕ) : Prog Memory ℕ := Prog.read fun s => (s.ring n).head

/-- `CAE(&q->tail, &rq, &next)` and `CAE(&q->head, &rq, &next)`. -/
def tailCae (q rq next : ℕ) : Prog Memory Unit := do
  let _ ← Prog.cae (fun s : Memory => s.chain.tail q) (fun n s => s.onChain (·.setTail q n)) rq next
  return ()

def headCae (q rq next : ℕ) : Prog Memory Unit := do
  let _ ← Prog.cae (fun s : Memory => s.chain.head q) (fun n s => s.onChain (·.setHead q n)) rq next
  return ()

/-- `FAI_U64(&rq->tail)`. -/
def fetchAddTail (n : ℕ) : Prog Memory Word :=
  Prog.update fun s => ((s.ring n).tail, s.onRing n (·.addTail))

/-- `FAI_U64(&rq->head)`. -/
def fetchAddHead (c : Caller) (n : ℕ) : Prog Memory ℕ :=
  Prog.update fun s => ((s.ring n).head, s.onRing n (·.addHead c.op))

/-- The copy of a cell: its two words are loaded in either order. -/
def readCell (n i : ℕ) : Prog Memory RingNode := do
  let valFirst ← Prog.choose
  if valFirst = 0 then
    let val ← Prog.read fun s : Memory => ((s.ring n).array i).val
    let idx ← Prog.read fun s : Memory => ((s.ring n).array i).idx
    return ⟨val, idx⟩
  else
    let idx ← Prog.read fun s : Memory => ((s.ring n).array i).idx
    let val ← Prog.read fun s : Memory => ((s.ring n).array i).val
    return ⟨val, idx⟩

/-- `CAE` on the cell `i` of the ring `n`, where `set` is the store with its ghost record. -/
def cellCae (n i : ℕ) (set : RingNode → RingQueue → RingQueue) (cell new : RingNode) :
    Prog Memory (Bool × RingNode) :=
  Prog.cae (fun s : Memory => (s.ring n).array i) (fun d s => s.onRing n (set d)) cell new

/-- `TAS_U64(&rq->tail, 63)`: whether the bit was clear. -/
def tasTail (n : ℕ) : Prog Memory Bool :=
  Prog.update fun s => (!(s.ring n).tail.mark, s.onRing n (·.close))

/-! ### `lcrq_put` -/

/-- `close_crq(rq, t, tries)`. -/
def closeCrq (rq t tries : ℕ) : Prog Memory Bool := do
  if tries < 10 then
    let (done, _) ← Prog.cae (fun s : Memory => (s.ring rq).tail) (fun _ s => s.onRing rq (·.close))
      (⟨t + 1, false⟩ : Word) ⟨t + 1, true⟩
    return done
  else tasTail rq

/-- What an attempt to put an item into a ring comes to. -/
inductive Attempt
  | stored
  | again (tryClose : ℕ)
  | alloc (tryClose : ℕ)

/-- The conditions on the cell of the index `t`: it is empty, has not been moved on, and if it is
marked then no dequeue has got the index. -/
def readSafe (rq t : ℕ) (cell : RingNode) : Prog Memory Bool :=
  if cell.val = -1 ∧ cell.idx.index ≤ t then
    if cell.idx.mark then do
      let h ← readRingHead rq
      return decide (h < t)
    else return true
  else return false

/-- `enq_cae` if the conditions hold. -/
def enqCae (size : ℕ) (c : Caller) (rq t : ℕ) (arg : ℤ) (cell : RingNode) (safe : Bool) :
    Prog Memory Bool :=
  if safe then do
    let (done, _) ← cellCae rq (t % size) (fun _ a => a.put size c.op t arg) cell ⟨arg, ⟨t, false⟩⟩
    return done
  else return false

/-- The end of the loop of `lcrq_put`: the ring is closed if it is full. -/
def closeFull (size rq t tryClose : ℕ) : Prog Memory Attempt := do
  let h ← readRingHead rq
  if (t : ℤ) - h ≥ size then
    let closed ← closeCrq rq t (tryClose + 1)
    return if closed then .alloc (tryClose + 1) else .again (tryClose + 1)
  else return .again tryClose

/-- The part of the loop of `lcrq_put` that uses the index `t`. -/
def putCell (size : ℕ) (c : Caller) (rq : ℕ) (t : Word) (arg : ℤ) (tryClose : ℕ) :
    Prog Memory Attempt :=
  if t.mark then return .alloc tryClose
  else do
    let cell ← readCell rq (t.index % size)
    let safe ← readSafe rq t.index cell
    let done ← enqCae size c rq t.index arg cell safe
    if done then return .stored else closeFull size rq t.index tryClose

/-- `handle->next`, or else a new ring. -/
def allocRing : Option ℕ → Prog Memory ℕ
  | some nrq => return nrq
  | none => Prog.update fun s => (s.chain.cells.fresh, s.onChain (·.create initRing))

/-- From the label `alloc` of `lcrq_put` on: the handle, and whether the ring has been appended. -/
def appendRing (c : Caller) (q rq t : ℕ) (arg : ℤ) (handle : Option ℕ) :
    Prog Memory (Option ℕ ⊕ Option ℕ) := do
  let nrq ← allocRing handle
  let items ← Prog.read fun s : Memory => (s.ring rq).itemsEnqueued
  let _ ← Prog.update fun s : Memory => ((), s.onRing nrq (·.prepare c.op arg (items + t)))
  let (done, _) ← Prog.cae (fun s : Memory => (s.chain.cells.heap rq).next)
    (fun _ s => s.onChain (·.link q rq nrq)) none (some nrq)
  if done then
    tailCae q rq nrq
    return .inr none
  else return .inl (some nrq)

/-- One round of the loop of `lcrq_put`, with `handle->next` and `try_close`. -/
def lcrqPutRound (size : ℕ) (c : Caller) (q : ℕ) (arg : ℤ) (x : Option ℕ × ℕ) :
    Prog Memory ((Option ℕ × ℕ) ⊕ Option ℕ) := do
  let rq ← readTail q
  match ← readNext rq with
  | some next =>
    tailCae q rq next
    return .inl x
  | none =>
    let t ← fetchAddTail rq
    match ← putCell size c rq t arg x.2 with
    | .stored => return .inr x.1
    | .again tryClose => return .inl (x.1, tryClose)
    | .alloc tryClose =>
      match ← appendRing c q rq t.index arg x.1 with
      | .inl handle => return .inl (handle, tryClose)
      | .inr handle => return .inr handle

/-- `lcrq_put`; the result is `handle->next`. -/
def lcrqPut (size : ℕ) (c : Caller) (q : ℕ) (arg : ℤ) (handle : Option ℕ) :
    Prog Memory (Option ℕ) :=
  Prog.forever (lcrqPutRound size c q arg) (handle, 0)

/-! ### `lcrq_get` -/

/-- The load of `rq->next` in the early check, once the tail has been read. -/
def readNextEarly (n : ℕ) (tail : Word) : Prog Memory (Option ℕ) :=
  Prog.update fun s => ((s.chain.cells.heap n).next,
    if (s.chain.cells.heap n).next = none ∧ tail.mark ∧ (s.ring n).head < (s.ring n).issued then
      { s with misled := true } else s)

/-- `head >= tail && rq->next == NULL`. -/
def nothingLeft (rq : ℕ) : Prog Memory Bool := do
  let head ← readRingHead rq
  let tail ← readRingTail rq
  if (head : ℤ) ≥ tail.signed then
    let next ← readNextEarly rq tail
    return decide (next = none)
  else return false

/-- The load of `rq->tail` in the inner loop of `lcrq_get`, every 1024 rounds. -/
def reloadTail (rq : ℕ) (tt : Word) (r : ℕ) : Prog Memory Word :=
  if r % 2 ^ 10 = 0 then readRingTail rq else return tt

/-- One round of the inner loop of `lcrq_get` at index `h`, with `cell`, `tt` and `r`. It ends with
the value that was removed, or with nothing. -/
def getCellRound (size : ℕ) (c : Caller) (rq h : ℕ) (x : RingNode × Word × ℕ) :
    Prog Memory ((RingNode × Word × ℕ) ⊕ Option ℤ) := do
  let (cell, tt, r) := x
  if cell.idx.index > h then return .inr none
  else if cell.val ≠ -1 then
    if cell.idx.index = h then
      let (done, cell') ← cellCae rq (h % size) (fun d a => a.take size c.op h d) cell
        ⟨-1, ⟨h + size, cell.idx.mark⟩⟩
      return if done then .inr (some cell.val) else .inl (cell', tt, r)
    else
      let (done, cell') ← cellCae rq (h % size) (fun d a => a.pass size h d) cell
        ⟨cell.val, ⟨cell.idx.index, true⟩⟩
      return if done then .inr none else .inl (cell', tt, r)
  else
    let tt ← reloadTail rq tt r
    if cell.idx.mark then
      let (done, cell') ← cellCae rq (h % size) (fun d a => a.setCell (h % size) d) cell
        ⟨cell.val, ⟨h + size, true⟩⟩
      return if done then .inr none else .inl (cell', tt, r)
    else if tt.index < h + 1 ∨ r > 200000 ∨ tt.mark then
      let (done, cell') ← cellCae rq (h % size) (fun d a => a.setCell (h % size) d) cell
        ⟨cell.val, ⟨h + size, false⟩⟩
      if done then
        if r > 200000 ∧ (tt.mark ∨ tt.index > size) then
          let _ ← tasTail rq
          return .inr none
        else return .inr none
      else return .inl (cell', tt, r)
    else return .inl (cell, tt, r + 1)

/-- The inner loop of `lcrq_get`. -/
def getCell (size : ℕ) (c : Caller) (rq h : ℕ) : Prog Memory (Option ℤ) := do
  let cell ← readCell rq (h % size)
  Prog.forever (getCellRound size c rq h) (cell, ⟨0, false⟩, 0)

/-- The end of the loop of `lcrq_get`. -/
def leaveRing (q rq h : ℕ) : Prog Memory (Unit ⊕ ℤ) := do
  let tail ← readRingTail rq
  if tail.index ≤ h + 1 then
    match ← readNext rq with
    | none => return .inr (-1)
    | some next =>
      let tail ← readRingTail rq
      if tail.index ≤ h + 1 then
        headCae q rq next
        return .inl ()
      else return .inl ()
  else return .inl ()

/-- One round of the loop of `lcrq_get`. -/
def lcrqGetRound (size : ℕ) (c : Caller) (q : ℕ) : Prog Memory (Unit ⊕ ℤ) := do
  let rq ← readHead q
  let nothing ← nothingLeft rq
  if nothing then return .inr (-1)
  else
    let h ← fetchAddHead c rq
    match ← getCell size c rq h with
    | some val => return .inr val
    | none => leaveRing q rq h

/-- `lcrq_get`. -/
def lcrqGet (size : ℕ) (c : Caller) (q : ℕ) : Prog Memory ℤ :=
  Prog.forever (fun _ => lcrqGetRound size c q) ()

/-! ### The interface -/

/-- What `dequeue_wrap` makes of the result of `lcrq_get`: an `int`. -/
def wrap (val : ℤ) : ℤ := if val ≠ -1 then val.bmod (2 ^ 32) else 0

/-- `dequeue_wrap`. -/
def dequeueWrap (size : ℕ) (c : Caller) (q : ℕ) : Prog Memory ℤ := do
  let val ← lcrqGet size c q
  return wrap val

/-- `enqueue_wrap`. -/
def enqueueWrap (size : ℕ) (c : Caller) (q : ℕ) (v : ℤ) (handle : Option ℕ) :
    Prog Memory (Option ℕ × ℤ) := do
  let handle ← lcrqPut size c q v handle
  return (handle, 1)

/-- `lcrq_enq_count`. -/
def lcrqEnqCount (q : ℕ) : Prog Memory ℕ := do
  let tail ← readTail q
  let idx ← readRingTail tail
  let items ← Prog.read fun s : Memory => (s.ring tail).itemsEnqueued
  return idx.index + items

/-- `lcrq_deq_count`. -/
def lcrqDeqCount (q : ℕ) : Prog Memory ℕ := do
  let head ← readHead q
  let idx ← readRingHead head
  let items ← Prog.read fun s : Memory => (s.ring head).itemsEnqueued
  return idx + items

/-- `lcrq_tail_version`: the low halves of two words side by side. -/
def lcrqTailVersion (q : ℕ) : Prog Memory ℕ := do
  let tail ← readTail q
  let idx ← readRingTail tail
  let items ← Prog.read fun s : Memory => (s.ring tail).itemsEnqueued
  return idx.index % 2 ^ 32 + 2 ^ 32 * (items % 2 ^ 32)

/-- The macros of `partial-queue.h`. A thread keeps `lcrq_handle.next`. -/
def partialLcrq (size : ℕ) : Dcbo.Partial Memory (Option ℕ) where
  enqueue := enqueueWrap size
  dequeue := dequeueWrap size
  tailVersion := lcrqTailVersion
  enqCount := lcrqEnqCount
  deqCount := lcrqDeqCount

end DcboLcrq
