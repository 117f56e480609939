import SemanticRelaxation.Prog.Concurrent
import SemanticRelaxation.Support.Segments

/-!
# The k-segment queue (`src/queue-k-segment/queue-q_relaxed-k-segment.c`)

A linked list of segments with `segment_size` slots each. An enqueue puts its node into any empty
slot of the last segment, a dequeue deletes the item of any slot of the first one. An enqueue that
finds a full segment appends a new one, a dequeue that finds all items of the first segment deleted
moves the head on.

A node is not changed once it is in a slot, and only its value is ever read, so that a slot holds
the value. `deleted` is 0 or 1, a `Bool` here. Ghost state: `inserts` lists the slots in the order
in which they were filled, and `deletes` those whose items were deleted, with the calls that did so.
-/

namespace QueueKSegment

open AtomicProg Linked Segments

/-- `index_t`: a slot. -/
structure Index where
  node : Option ℤ
  deleted : Bool
  deriving DecidableEq

/-- `segment_t`, less its pointer to the next segment. -/
structure Segment where
  indices : ℕ → Index

instance : Inhabited Segment := ⟨⟨fun _ => ⟨none, false⟩⟩⟩

/-- The place of a slot: its segment and its index there. -/
structure Slot where
  seg : ℕ
  idx : ℕ
  deriving DecidableEq

/-- The memory. `null` tells that `head` or `tail` has become `NULL`. -/
structure Memory where
  chain : Chain Segment
  null : Bool
  inserts : List (Slot × ℕ)
  deletes : List (Slot × ℕ)

/-- One segment of empty slots. -/
def initial : Memory := ⟨.init Segment 1, false, [], []⟩

namespace Memory

variable (s : Memory)

/-- What is in a slot. -/
def index (x : Slot) : Index := (s.chain.seg x.seg).indices x.idx

/-- The segments that have been linked, in order. -/
abbrev line : List ℕ := s.chain.cells.line 0

/-- A step on the list of segments. -/
def onChain (f : Chain Segment → Chain Segment) : Memory := { s with chain := f s.chain }

/-- A store to a slot. -/
def setIndex (x : Slot) (y : Index) : Memory :=
  s.onChain (·.modify x.seg fun seg => { seg with indices := Function.update seg.indices x.idx y })

/-- The call `op` puts its node into a slot. -/
def insert (op : ℕ) (x : Slot) (val : ℤ) : Memory :=
  { s.setIndex x { s.index x with node := some val } with inserts := s.inserts ++ [(x, op)] }

/-- The call `op` deletes the item of a slot. -/
def delete (op : ℕ) (x : Slot) : Memory :=
  { s.setIndex x { s.index x with deleted := true } with deletes := s.deletes ++ [(x, op)] }

end Memory

/-- The loads of `tail`, `head` and `segment->next`. -/
def readTail : Prog Memory ℕ := Prog.read fun s => s.chain.tail 0

def readHead : Prog Memory ℕ := Prog.read fun s => s.chain.head 0

def readNext (segment : ℕ) : Prog Memory (Option ℕ) :=
  Prog.read fun s => (s.chain.cells.heap segment).next

/-- The loads of the fields of a slot. -/
def readNode (x : Slot) : Prog Memory (Option ℤ) := Prog.read fun s => (s.index x).node

def readDeleted (x : Slot) : Prog Memory Bool := Prog.read fun s => (s.index x).deleted

/-- `CAS(&tail, segment, next)` and `CAS(&head, segment, next)`. -/
def tailCas (segment : ℕ) : Option ℕ → Prog Memory Unit
  | some next => do
    let _ ← Prog.cae (fun s : Memory => s.chain.tail 0) (fun n s => s.onChain (·.setTail 0 n))
      segment next
    return ()
  | none => Prog.update fun s =>
      ((), if s.chain.tail 0 = segment then { s with null := true } else s)

def headCas (segment : ℕ) : Option ℕ → Prog Memory Unit
  | some next => do
    let _ ← Prog.cae (fun s : Memory => s.chain.head 0) (fun n s => s.onChain (·.setHead 0 n))
      segment next
    return ()
  | none => Prog.update fun s =>
      ((), if s.chain.head 0 = segment then { s with null := true } else s)

/-- The allocation of a segment with empty slots. -/
def newSegment : Prog Memory ℕ :=
  Prog.update fun s => (s.chain.cells.fresh, s.onChain (·.create default))

/-- `CAS(&current_segment->next, NULL, new_segment)`. -/
def nextCas (currentSegment new : ℕ) : Prog Memory Bool := do
  let (done, _) ← Prog.cae (fun s : Memory => (s.chain.cells.heap currentSegment).next)
    (fun _ s => s.onChain (·.link 0 currentSegment new)) none (some new)
  return done

/-- The branch of `try_create_segment` for a segment that has a successor. -/
def helpTail (currentSegment : ℕ) : Prog Memory Unit := do
  let next ← readNext currentSegment
  if next = none then return ()
  else
    let tail ← readTail
    if tail = currentSegment then
      let next ← readNext currentSegment
      tailCas currentSegment next
    else return ()

/-- `try_create_segment`. -/
def tryCreateSegment (currentSegment : ℕ) : Prog Memory Unit := do
  let new ← newSegment
  let done ← nextCas currentSegment new
  if done then tailCas currentSegment (some new) else helpTail currentSegment

/-- `slot`, or 0 behind the last slot of a segment. -/
def wrap (segmentSize slot : ℕ) : ℕ := if slot ≥ segmentSize then 0 else slot

/-- `random_slot`. -/
def randomSlot (segmentSize : ℕ) : Prog Memory ℕ := do
  let r ← Prog.choose
  return r % segmentSize

/-- The variables of `get_push_slot`. -/
structure Push where
  pushSlot : ℕ
  currentSegment : ℕ
  walkCount : ℕ

/-- The end of a round of `get_push_slot`. -/
def walkOn (segmentSize : ℕ) (l : Push) : Prog Memory (Push ⊕ Slot) := do
  if l.walkCount ≥ segmentSize then
    tryCreateSegment l.currentSegment
    let tail ← readTail
    return .inl { l with currentSegment := tail, walkCount := 0 }
  else return .inl { l with walkCount := l.walkCount + 1 }

/-- One round of the loop of `get_push_slot`. -/
def getPushSlotRound (segmentSize : ℕ) (l : Push) : Prog Memory (Push ⊕ Slot) := do
  let pushSlot := wrap segmentSize l.pushSlot
  let currentNode ← readNode ⟨l.currentSegment, pushSlot⟩
  if currentNode = none then return .inr ⟨l.currentSegment, pushSlot⟩
  else
    let tail ← readTail
    if l.currentSegment = tail then walkOn segmentSize { l with pushSlot := pushSlot + 1 }
    else
      let tail ← readTail
      walkOn segmentSize ⟨pushSlot, tail, 0⟩

/-- `get_push_slot`. -/
def getPushSlot (segmentSize : ℕ) : Prog Memory Slot := do
  let pushSlot ← randomSlot segmentSize
  let tail ← readTail
  Prog.forever (getPushSlotRound segmentSize) ⟨pushSlot, tail, 0⟩

/-- `enq_cae(&current_segment->indices[push_slot].node, new_node)`. -/
def enqCae (c : Caller) (x : Slot) (val : ℤ) : Prog Memory Bool := do
  let (done, _) ← Prog.cae (fun s : Memory => (s.index x).node) (fun _ s => s.insert c.op x val)
    none (some val)
  return done

/-- One round of the loop of `queue_relaxed_insert`. -/
def insertRound (c : Caller) (segmentSize : ℕ) (val : ℤ) : Prog Memory (Unit ⊕ ℤ) := do
  let slot ← getPushSlot segmentSize
  let done ← enqCae c slot val
  return if done then .inr 1 else .inl ()

/-- `queue_relaxed_insert`. -/
def queueRelaxedInsert (c : Caller) (segmentSize : ℕ) (val : ℤ) : Prog Memory ℤ :=
  Prog.forever (fun _ => insertRound c segmentSize val) ()

/-- The variables of `get_pop_slot`. -/
structure Pop where
  popSlot : ℕ
  currentSegment : ℕ
  walkCount : ℕ
  pendingSlot : Bool
  currentNode : Option ℤ
  deletedNode : Bool

/-- The end of a round of `get_pop_slot`: the look at a slot. -/
def look (segmentSize : ℕ) (l : Pop) : Prog Memory (Pop ⊕ Pop) := do
  let popSlot := wrap segmentSize l.popSlot
  let currentNode ← readNode ⟨l.currentSegment, popSlot⟩
  let deletedNode ← readDeleted ⟨l.currentSegment, popSlot⟩
  let l := { l with popSlot, currentNode, deletedNode }
  if currentNode ≠ none ∧ deletedNode = false then return .inr l
  else
    let head ← readHead
    if l.currentSegment = head then
      return .inl { l with
        popSlot := popSlot + 1, pendingSlot := l.pendingSlot || decide (currentNode = none) }
    else
      let head ← readHead
      return .inl { l with currentSegment := head, walkCount := 0 }

/-- `CAS(&head, current_segment, current_segment->next)` and the start in the new first segment. -/
def moveHead (segmentSize : ℕ) (l : Pop) : Prog Memory (Pop ⊕ Pop) := do
  let next ← readNext l.currentSegment
  headCas l.currentSegment next
  let head ← readHead
  look segmentSize { l with currentSegment := head, walkCount := 0 }

/-- One round of the loop of `get_pop_slot`. -/
def getPopSlotRound (segmentSize : ℕ) (l : Pop) : Prog Memory (Pop ⊕ Pop) := do
  if l.walkCount ≥ segmentSize then
    let tail ← readTail
    if l.currentSegment = tail then return .inr l
    else if l.pendingSlot = false then moveHead segmentSize l
    else look segmentSize l
  else look segmentSize { l with walkCount := l.walkCount + 1 }

/-- `get_pop_slot`. The node and the mark are loaded before they are used for the first time. -/
def getPopSlot (segmentSize : ℕ) : Prog Memory Pop := do
  let head ← readHead
  let popSlot ← randomSlot segmentSize
  Prog.forever (getPopSlotRound segmentSize) ⟨popSlot, head, 0, false, none, false⟩

/-- `CAS(&current_segment->indices[pop_slot].deleted, 0, 1)`. -/
def deletedCas (c : Caller) (x : Slot) : Prog Memory Bool := do
  let (done, _) ← Prog.cae (fun s : Memory => (s.index x).deleted) (fun _ s => s.delete c.op x)
    false true
  return done

/-- One round of the loop of `queue_relaxed_delete`. -/
def deleteRound (c : Caller) (segmentSize : ℕ) : Prog Memory (Unit ⊕ ℤ) := do
  let l ← getPopSlot segmentSize
  match l.currentNode with
  | none => return .inr 0
  | some nodeVal =>
    if l.deletedNode = true then return .inr 0
    else
      let done ← deletedCas c ⟨l.currentSegment, l.popSlot⟩
      return if done then .inr nodeVal else .inl ()

/-- `queue_relaxed_delete`. -/
def queueRelaxedDelete (c : Caller) (segmentSize : ℕ) : Prog Memory ℤ :=
  Prog.forever (fun _ => deleteRound c segmentSize) ()

/-- The calls on the queue. -/
inductive Call
  | insert (val : ℤ)
  | delete
  deriving DecidableEq

/-- The queue as a service. -/
abbrev queueService (segmentSize : ℕ) : Service Memory Unit where
  Call := Call
  Ret := ℤ
  code
    | c, .insert val, l => do
      let r ← queueRelaxedInsert c segmentSize val
      return (l, r)
    | c, .delete, l => do
      let r ← queueRelaxedDelete c segmentSize
      return (l, r)

end QueueKSegment
