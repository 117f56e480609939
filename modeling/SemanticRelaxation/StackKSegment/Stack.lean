import SemanticRelaxation.Prog.Concurrent
import Mathlib.Logic.Relation
import Mathlib.Data.List.Basic

/-!
# The k-segment stack (`src/stack-k-segment/stack-s_relaxed-k-segment.c`)

A stack of segments with `segment_size` slots each. A push puts its node into an empty slot of the
first segment, a pop takes the node of a slot of the first segment. A push that finds the segment
full puts a new one in front of it; a pop that finds it empty announces its removal in the counter
`remove` of the segment, looks at all slots once more, and moves the head on. A push whose segment
has such an announcement takes its node out again and starts anew.

Ghost state of the segments: `retired` are those that have been removed, `marks n` the pops that
have incremented the counter of `n` and not decremented it since, but for those that have removed
it, and `leaves n` counts how often a pop that had made two passes over `n`, with nothing behind it,
went on from there because the head had changed. Ghost state of the slots: the call that pushes a
node, the pops that have taken nodes, and the nodes whose push has seen no announcement.
-/

namespace StackKSegment

open AtomicProg

/-- `segment_t`, less its slots. -/
structure Segment where
  next : Option ℕ
  remove : ℤ

/-- The place of a slot: its segment and its index there. -/
structure Slot where
  seg : ℕ
  idx : ℕ
  deriving DecidableEq

/-- `head_t`. -/
structure Head where
  segment : ℕ
  version : ℕ
  deriving DecidableEq

/-- The memory of the segments. `null` tells that the head has become `NULL`. -/
structure Segments where
  heap : ℕ → Segment
  fresh : ℕ
  head : Head
  null : Bool
  maker : ℕ → ℕ
  retired : List ℕ
  marks : ℕ → List ℕ
  leaves : ℕ → ℕ

/-- The memory of the slots and nodes. -/
structure Slots where
  slot : Slot → Option ℕ
  val : ℕ → ℤ
  fresh : ℕ
  pusher : ℕ → ℕ
  takes : List (ℕ × ℕ)
  committed : ℕ → Bool

/-- The memory. -/
structure Memory where
  segs : Segments
  slots : Slots

/-- One segment of empty slots. -/
def initial : Memory where
  segs := ⟨fun _ => ⟨none, 0⟩, 1, ⟨0, 0⟩, false, fun _ => 0, [], fun _ => [], fun _ => 0⟩
  slots := ⟨fun _ => none, fun _ => 0, 0, fun _ => 0, [], fun _ => false⟩

namespace Segments

variable (s : Segments)

/-- A segment is allocated by the call `op` in front of `next`. -/
def create (op next : ℕ) : Segments :=
  { s with
    heap := Function.update s.heap s.fresh ⟨some next, 0⟩
    fresh := s.fresh + 1
    maker := Function.update s.maker s.fresh op }

/-- A new segment becomes the head. -/
def push (head : Head) : Segments := { s with head }

/-- The call `op` removes the first segment. -/
def pop (op : ℕ) (head : Head) : Segments :=
  { s with
    head
    retired := s.head.segment :: s.retired
    marks := Function.update s.marks s.head.segment ((s.marks s.head.segment).erase op) }

/-- A store to the counter of a segment. -/
def setRemove (n : ℕ) (remove : ℤ) : Segments :=
  { s with heap := Function.update s.heap n { s.heap n with remove } }

/-- The call `op` increments the counter of a segment. -/
def mark (op n : ℕ) : Segments :=
  { s.setRemove n ((s.heap n).remove + 1) with
    marks := Function.update s.marks n (op :: s.marks n) }

/-- The call `op` decrements the counter of a segment. -/
def unmark (op n : ℕ) : Segments :=
  { s.setRemove n ((s.heap n).remove - 1) with
    marks := Function.update s.marks n ((s.marks n).erase op) }

/-- The call `op` decrements the counter of the last segment, from which it goes on. -/
def leave (op n : ℕ) : Segments :=
  { s.unmark op n with leaves := Function.update s.leaves n (s.leaves n + 1) }

end Segments

namespace Slots

variable (s : Slots)

/-- The call `op` allocates its node. -/
def create (op : ℕ) (val : ℤ) : Slots :=
  { s with
    val := Function.update s.val s.fresh val
    pusher := Function.update s.pusher s.fresh op
    fresh := s.fresh + 1 }

/-- A store to a slot. -/
def set (x : Slot) (n : Option ℕ) : Slots := { s with slot := Function.update s.slot x n }

/-- The call `op` takes the node `n` out of a slot. -/
def take (op : ℕ) (x : Slot) (n : ℕ) : Slots := { s.set x none with takes := s.takes ++ [(n, op)] }

/-- The push of the node `n` sees no announcement. -/
def commit (n : ℕ) : Slots := { s with committed := Function.update s.committed n true }

end Slots

namespace Memory

variable (s : Memory)

/-- A step on the segments, and one on the slots. -/
def onSegs (f : Segments → Segments) : Memory := { s with segs := f s.segs }

def onSlots (f : Slots → Slots) : Memory := { s with slots := f s.slots }

end Memory

/-! ### Loads and stores -/

/-- The loads of `head->segment`, `segment->next` and the node of a slot. -/
def readHeadSegment : Prog Memory ℕ := Prog.read fun s => s.segs.head.segment

def readNext (segment : ℕ) : Prog Memory (Option ℕ) := Prog.read fun s => (s.segs.heap segment).next

def readNode (x : Slot) : Prog Memory (Option ℕ) := Prog.read fun s => s.slots.slot x

/-- `current_head = *head`: two loads, in either order. -/
def readHead : Prog Memory Head := do
  let segmentFirst ← Prog.choose
  if segmentFirst = 0 then
    let segment ← readHeadSegment
    let version ← Prog.read fun s : Memory => s.segs.head.version
    return ⟨segment, version⟩
  else
    let version ← Prog.read fun s : Memory => s.segs.head.version
    let segment ← readHeadSegment
    return ⟨segment, version⟩

/-- `IAF_U64(&segment->remove)`. -/
def incRemove (c : Caller) (segment : ℕ) : Prog Memory Unit :=
  Prog.update fun s => ((), s.onSegs (·.mark c.op segment))

/-- `DAF_U64(&segment->remove)`. -/
def decRemove (c : Caller) (segment : ℕ) : Prog Memory Unit :=
  Prog.update fun s => ((), s.onSegs (·.unmark c.op segment))

/-- The same decrement, where a pop goes on from the last segment. -/
def decRemoveLast (c : Caller) (segment : ℕ) : Prog Memory Unit :=
  Prog.update fun s => ((), s.onSegs (·.leave c.op segment))

/-- `mstack_new_node`. -/
def newNode (c : Caller) (val : ℤ) : Prog Memory ℕ :=
  Prog.update fun s => (s.slots.fresh, s.onSlots (·.create c.op val))

/-- The allocation of a segment with empty slots. -/
def newSegment (c : Caller) (next : ℕ) : Prog Memory ℕ :=
  Prog.update fun s => (s.segs.fresh, s.onSegs (·.create c.op next))

/-- `wrap`: the slot, or 0 behind the last slot of a segment. -/
def wrap (segmentSize slot : ℕ) : ℕ := if slot ≥ segmentSize then 0 else slot

/-- `random_slot`. -/
def randomSlot (segmentSize : ℕ) : Prog Memory ℕ := do
  let r ← Prog.choose
  return r % segmentSize

/-! ### `mstack_relaxed_insert` -/

/-- `CAE(head, &current_head, &new_head)` with a new segment. -/
def pushHeadCae (currentHead : Head) (segment : ℕ) : Prog Memory Unit := do
  let _ ← Prog.cae (fun s : Memory => s.segs.head)
    (fun head s => s.onSegs (·.push head)) currentHead
    ⟨segment, currentHead.version + 1⟩
  return ()

/-- `try_create_segment`. -/
def tryCreateSegment (c : Caller) (currentHead : Head) : Prog Memory Unit := do
  let segment ← newSegment c currentHead.segment
  pushHeadCae currentHead segment

/-- The variables of `get_push_slot`; `current_segment` is always that of `current_head`. -/
structure Push where
  pushSlot : ℕ
  currentHead : Head
  walkCount : ℕ

/-- The end of a round of `get_push_slot`: the look at a slot. -/
def lookPush (segmentSize : ℕ) (l : Push) : Prog Memory (Push ⊕ Slot) := do
  let pushSlot := wrap segmentSize l.pushSlot
  let currentNode ← readNode ⟨l.currentHead.segment, pushSlot⟩
  if currentNode = none then return .inr ⟨l.currentHead.segment, pushSlot⟩
  else
    let segment ← readHeadSegment
    if l.currentHead.segment = segment then return .inl { l with pushSlot := pushSlot + 1 }
    else
      let currentHead ← readHead
      return .inl ⟨pushSlot, currentHead, 0⟩

/-- One round of the loop of `get_push_slot`. -/
def getPushSlotRound (c : Caller) (segmentSize : ℕ) (l : Push) : Prog Memory (Push ⊕ Slot) := do
  if l.walkCount ≥ segmentSize then
    tryCreateSegment c l.currentHead
    let currentHead ← readHead
    lookPush segmentSize ⟨l.pushSlot, currentHead, 1⟩
  else lookPush segmentSize { l with walkCount := l.walkCount + 1 }

/-- `get_push_slot`. -/
def getPushSlot (c : Caller) (segmentSize : ℕ) : Prog Memory Slot := do
  let pushSlot ← randomSlot segmentSize
  let currentHead ← readHead
  Prog.forever (getPushSlotRound c segmentSize) ⟨pushSlot, currentHead, 0⟩

/-- `current_segment->remove == 0`: from now on the node stays. -/
def noRemoval (segment newNode : ℕ) : Prog Memory Bool :=
  Prog.update fun s =>
    if (s.segs.heap segment).remove = 0 then (true, s.onSlots (·.commit newNode)) else (false, s)

/-- `CAS(&current_segment->indices[push_slot].node, new_node, NULL)`. -/
def retractCas (x : Slot) (newNode : ℕ) : Prog Memory Bool := do
  let (done, _) ← Prog.cae (fun s : Memory => s.slots.slot x) (fun n s => s.onSlots (·.set x n))
    (some newNode) none
  return done

/-- `check_commit`. -/
def checkCommit (x : Slot) (newNode : ℕ) : Prog Memory Bool := do
  let node ← readNode x
  if node ≠ some newNode then return true
  else
    let free ← noRemoval x.seg newNode
    if free then return true
    else
      let done ← retractCas x newNode
      return !done

/-- `CAS(&current_segment->indices[push_slot].node, NULL, new_node)`. -/
def putCas (x : Slot) (newNode : ℕ) : Prog Memory Bool := do
  let (done, _) ← Prog.cae (fun s : Memory => s.slots.slot x) (fun n s => s.onSlots (·.set x n))
    none (some newNode)
  return done

/-- What a push does with the slot that it has found. -/
def pushInto (x : Slot) (newNode : ℕ) : Prog Memory (Unit ⊕ ℤ) := do
  let done ← putCas x newNode
  if done then
    let kept ← checkCommit x newNode
    return if kept then .inr 1 else .inl ()
  else return .inl ()

/-- One round of the loop of `mstack_relaxed_insert`. -/
def insertRound (c : Caller) (segmentSize newNode : ℕ) : Prog Memory (Unit ⊕ ℤ) := do
  let slot ← getPushSlot c segmentSize
  pushInto slot newNode

/-- `mstack_relaxed_insert`. -/
def mstackRelaxedInsert (c : Caller) (segmentSize : ℕ) (val : ℤ) : Prog Memory ℤ := do
  let newNode ← newNode c val
  Prog.forever (fun _ => insertRound c segmentSize newNode) ()

/-! ### `mstack_relaxed_delete` -/

/-- The variables of `get_pop_slot`; `current_segment` is always that of `current_head`. -/
structure Pop where
  popSlot : ℕ
  currentHead : Head
  walkCount : ℕ
  marked : Bool
  currentNode : Option ℕ

/-- `CAE(head, &current_head, &new_head)` with the next segment. -/
def popHeadCae (c : Caller) (currentHead : Head) : Option ℕ → Prog Memory Bool
  | some next => do
    let (deleted, _) ← Prog.cae (fun s : Memory => s.segs.head)
      (fun head s => s.onSegs (·.pop c.op head)) currentHead ⟨next, currentHead.version + 1⟩
    return deleted
  | none => Prog.update fun s =>
      if s.segs.head = currentHead then (true, s.onSegs fun segs => { segs with null := true })
      else (false, s)

/-- The decrement of a pop that has incremented. -/
def decMarked (c : Caller) (l : Pop) : Prog Memory Unit :=
  if l.marked then decRemove c l.currentHead.segment else return ()

/-- The end of a round of `get_pop_slot`: the look at a slot. -/
def look (c : Caller) (segmentSize : ℕ) (l : Pop) : Prog Memory (Pop ⊕ Pop) := do
  let popSlot := wrap segmentSize l.popSlot
  let currentNode ← readNode ⟨l.currentHead.segment, popSlot⟩
  if currentNode ≠ none then
    decMarked c l
    return .inr { l with popSlot, currentNode }
  else
    let segment ← readHeadSegment
    if l.currentHead.segment = segment then
      return .inl { l with popSlot := popSlot + 1, currentNode }
    else
      decMarked c l
      let currentHead ← readHead
      return .inl ⟨popSlot, currentHead, 0, false, currentNode⟩

/-- The start in the new first segment. -/
def restart (c : Caller) (segmentSize : ℕ) (l : Pop) : Prog Memory (Pop ⊕ Pop) := do
  let currentHead ← readHead
  look c segmentSize { l with currentHead, walkCount := 1, marked := false }

/-- The branch of `get_pop_slot` after two passes over a segment. -/
def leaveSegment (c : Caller) (segmentSize : ℕ) (l : Pop) : Prog Memory (Pop ⊕ Pop) := do
  let next ← readNext l.currentHead.segment
  if next = none then
    let segment ← readHeadSegment
    if l.currentHead.segment = segment then return .inr l
    else
      decRemoveLast c l.currentHead.segment
      restart c segmentSize l
  else
    let next ← readNext l.currentHead.segment
    let deleted ← popHeadCae c l.currentHead next
    if deleted then restart c segmentSize l
    else
      decRemove c l.currentHead.segment
      restart c segmentSize l

/-- What `get_pop_slot` does with its count of slots. -/
def walk (c : Caller) (segmentSize : ℕ) (l : Pop) : Prog Memory (Pop ⊕ Pop) :=
  if l.walkCount ≥ segmentSize * 2 then leaveSegment c segmentSize l
  else look c segmentSize { l with walkCount := l.walkCount + 1 }

/-- One round of the loop of `get_pop_slot`. -/
def getPopSlotRound (c : Caller) (segmentSize : ℕ) (l : Pop) : Prog Memory (Pop ⊕ Pop) := do
  if l.walkCount = segmentSize then
    let next ← readNext l.currentHead.segment
    if next ≠ none then
      incRemove c l.currentHead.segment
      walk c segmentSize { l with marked := true }
    else walk c segmentSize l
  else walk c segmentSize l

/-- `get_pop_slot`. The node is loaded before it is used for the first time. -/
def getPopSlot (c : Caller) (segmentSize : ℕ) : Prog Memory Pop := do
  let popSlot ← randomSlot segmentSize
  let currentHead ← readHead
  Prog.forever (getPopSlotRound c segmentSize) ⟨popSlot, currentHead, 0, false, none⟩

/-- `CAS(&current_segment->indices[pop_slot].node, current_node, NULL)`. -/
def takeCas (c : Caller) (x : Slot) (currentNode : ℕ) : Prog Memory Bool := do
  let (done, _) ← Prog.cae (fun s : Memory => s.slots.slot x)
    (fun _ s => s.onSlots (·.take c.op x currentNode)) (some currentNode) none
  return done

/-- The end of a round of `mstack_relaxed_delete`. -/
def takeNode (c : Caller) (x : Slot) (currentNode : ℕ) : Prog Memory (Unit ⊕ ℤ) := do
  let done ← takeCas c x currentNode
  if done then
    let nodeVal ← Prog.read fun s : Memory => s.slots.val currentNode
    return .inr nodeVal
  else return .inl ()

/-- One round of the loop of `mstack_relaxed_delete`. -/
def deleteRound (c : Caller) (segmentSize : ℕ) : Prog Memory (Unit ⊕ ℤ) := do
  let l ← getPopSlot c segmentSize
  match l.currentNode with
  | none => return .inr 0
  | some currentNode => takeNode c ⟨l.currentHead.segment, l.popSlot⟩ currentNode

/-- `mstack_relaxed_delete`. -/
def mstackRelaxedDelete (c : Caller) (segmentSize : ℕ) : Prog Memory ℤ :=
  Prog.forever (fun _ => deleteRound c segmentSize) ()

/-- The calls on the stack. -/
inductive Call
  | push (val : ℤ)
  | pop
  deriving DecidableEq

/-- The stack as a service. -/
abbrev stackService (segmentSize : ℕ) : Service Memory Unit where
  Call := Call
  Ret := ℤ
  code
    | c, .push val, l => do
      let r ← mstackRelaxedInsert c segmentSize val
      return (l, r)
    | c, .pop, l => do
      let r ← mstackRelaxedDelete c segmentSize
      return (l, r)

end StackKSegment
