import SemanticRelaxation.Prog.Annotated
import SemanticRelaxation.Prog.History
import SemanticRelaxation.Prog.Obstruction
import SemanticRelaxation.QueueKSegment.Relaxed

/-!
# Notes of the dequeues of the k-segment queue

`get_pop_slot` does not reset `pending_slot` when it goes on with another first segment, or after
the empty slot that it has met has been filled. As long as the mark is set it does not move the
head. Notes of the run tell of each dequeue whether its mark is set (`Note`).

* `notedQueue`: the queue with the notes of its dequeues, and `code_annotates`: it does what the
  queue does;
* `inv_shared`: the invariant of the queue, in all states that it reaches.
-/

namespace QueueKSegment

open AtomicProg Linked Segments RoundRobin

namespace Pending

/-- What is noted of the dequeue of a thread: its segment, whether it has met an empty slot in a
first segment, and the segment in which the slot that it looks at is empty. -/
structure Note where
  segment : ℕ
  pending : Bool
  met : Option ℕ
  deriving DecidableEq

/-- The memory with the notes of all threads. -/
abbrev State := Memory × (ℕ → Note)

/-- A load of a dequeue, with a note. -/
def watch {β : Type} (c : Caller) (f : Memory → β) (note : Memory → Note → Note) : Prog State β :=
  Prog.readWith f fun s notes => Function.update notes c.thread (note s (notes c.thread))

namespace Note

/-- A new scan in the present first segment. -/
def start (s : Memory) (_ : Note) : Note := ⟨s.chain.head 0, false, none⟩

/-- The load of the node of a slot. -/
def meet (x : Slot) (s : Memory) (n : Note) : Note :=
  { n with met := if (s.index x).node = none then some x.seg else none }

/-- The load of the mark of a slot. With an item the search is over. -/
def find (currentNode : Option ℤ) (x : Slot) (s : Memory) (n : Note) : Note :=
  if currentNode ≠ none ∧ (s.index x).deleted = false then { n with pending := false } else n

/-- The load of `head` after that. An empty slot counts if its segment is the first one. -/
def keep (s : Memory) (n : Note) : Note :=
  ⟨n.segment, n.pending || decide (n.met = some (s.chain.head 0)), none⟩

/-- The start in the present first segment. -/
def enter (s : Memory) (n : Note) : Note := { n with segment := s.chain.head 0 }

/-- The load of `tail`. In the last segment the search is over. -/
def leave (currentSegment : ℕ) (s : Memory) (n : Note) : Note :=
  if currentSegment = s.chain.tail 0 then { n with pending := false } else n

/-- Nothing is pending. -/
def Clean (n : Note) : Prop := n.pending = false ∧ n.met = none

end Note

/-! ### The code of the dequeue with notes -/

/-- The end of a round of `get_pop_slot`. -/
def look (c : Caller) (segmentSize : ℕ) (l : Pop) : Prog State (Pop ⊕ Pop) := do
  let popSlot := wrap segmentSize l.popSlot
  let x : Slot := ⟨l.currentSegment, popSlot⟩
  let currentNode ← watch c (fun s => (s.index x).node) (Note.meet x)
  let deletedNode ← watch c (fun s => (s.index x).deleted) (Note.find currentNode x)
  let l := { l with popSlot, currentNode, deletedNode }
  if currentNode ≠ none ∧ deletedNode = false then return .inr l
  else
    let head ← watch c (fun s => s.chain.head 0) Note.keep
    if l.currentSegment = head then
      return .inl { l with
        popSlot := popSlot + 1, pendingSlot := l.pendingSlot || decide (currentNode = none) }
    else
      let head ← watch c (fun s => s.chain.head 0) Note.enter
      return .inl { l with currentSegment := head, walkCount := 0 }

/-- The move of the head. -/
def moveHead (c : Caller) (segmentSize : ℕ) (l : Pop) : Prog State (Pop ⊕ Pop) := do
  let next ← watch c (fun s => (s.chain.cells.heap l.currentSegment).next) fun _ n => n
  (headCas l.currentSegment next).onFst
  let head ← watch c (fun s => s.chain.head 0) Note.enter
  look c segmentSize { l with currentSegment := head, walkCount := 0 }

/-- One round of the loop of `get_pop_slot`. -/
def getPopSlotRound (c : Caller) (segmentSize : ℕ) (l : Pop) : Prog State (Pop ⊕ Pop) := do
  if l.walkCount ≥ segmentSize then
    let tail ← watch c (fun s => s.chain.tail 0) (Note.leave l.currentSegment)
    if l.currentSegment = tail then return .inr l
    else if l.pendingSlot = false then moveHead c segmentSize l
    else look c segmentSize l
  else look c segmentSize { l with walkCount := l.walkCount + 1 }

/-- `get_pop_slot`. -/
def getPopSlot (c : Caller) (segmentSize : ℕ) : Prog State Pop := do
  let head ← watch c (fun s => s.chain.head 0) Note.start
  let popSlot ← (randomSlot segmentSize).onFst
  Prog.forever (getPopSlotRound c segmentSize) ⟨popSlot, head, 0, false, none, false⟩

/-- What `queue_relaxed_delete` does with the slot. -/
def take (c : Caller) (l : Pop) : Prog State (Unit ⊕ ℤ) :=
  match l.currentNode with
  | none => return .inr 0
  | some nodeVal =>
    if l.deletedNode = true then return .inr 0
    else do
      let done ← (deletedCas c ⟨l.currentSegment, l.popSlot⟩).onFst
      return if done then .inr nodeVal else .inl ()

/-- One round of the loop of `queue_relaxed_delete`. -/
def deleteRound (c : Caller) (segmentSize : ℕ) : Prog State (Unit ⊕ ℤ) := do
  let l ← getPopSlot c segmentSize
  take c l

/-- `queue_relaxed_delete`. -/
def queueRelaxedDelete (c : Caller) (segmentSize : ℕ) : Prog State ℤ :=
  Prog.forever (fun _ => deleteRound c segmentSize) ()

/-- The queue with notes of its dequeues. -/
abbrev notedQueue (segmentSize : ℕ) : Service State Unit where
  Call := Call
  Ret := ℤ
  code
    | c, .insert val, l => ((queueService segmentSize).code c (.insert val) l).onFst
    | c, .delete, l => do
      let r ← queueRelaxedDelete c segmentSize
      return (l, r)

/-- The notes at the start. -/
def unnoted : ℕ → Note := fun _ => ⟨0, false, none⟩

theorem watch_annotates {β : Type} (c : Caller) (f : Memory → β) (note : Memory → Note → Note) :
    (watch c f note).Annotates (Prog.read f) := .readWith f _

theorem look_annotates (c : Caller) (size : ℕ) (l : Pop) :
    (look c size l).Annotates (QueueKSegment.look size l) := by
  refine .bind (watch_annotates c _ _) fun currentNode => ?_
  refine .bind (watch_annotates c _ _) fun deletedNode => ?_
  dsimp only
  split
  next => exact .ret _
  next =>
    refine .bind (watch_annotates c _ _) fun head => ?_
    split
    next => exact .ret _
    next => exact .bind (watch_annotates c _ _) fun _ => .ret _

theorem round_annotates (c : Caller) (size : ℕ) (l : Pop) :
    (getPopSlotRound c size l).Annotates (QueueKSegment.getPopSlotRound size l) := by
  unfold getPopSlotRound QueueKSegment.getPopSlotRound
  split
  next =>
    refine .bind (watch_annotates c _ _) fun tail => ?_
    split
    next => exact .ret _
    next =>
      split
      next =>
        refine .bind (watch_annotates c _ _) fun next => .bind (.onFst _) fun _ => ?_
        exact .bind (watch_annotates c _ _) fun _ => look_annotates c size _
      next => exact look_annotates c size l
  next => exact look_annotates c size _

theorem delete_annotates (c : Caller) (size : ℕ) :
    (queueRelaxedDelete c size).Annotates (QueueKSegment.queueRelaxedDelete c size) := by
  refine .forever (fun _ => ?_) ()
  refine .bind (.bind (watch_annotates c _ _) fun head => .bind (.onFst _) fun popSlot => ?_)
    fun l => ?_
  · exact .forever (round_annotates c size) _
  · unfold take
    cases hnode : l.currentNode with
    | none => exact .ret _
    | some nodeVal =>
      dsimp only
      split
      next => exact .ret _
      next => exact .bind (.onFst _) fun _ => .ret _

/-- The code with notes does what the queue does. -/
theorem code_annotates (size : ℕ) (c : Caller) (call : Call) (l : Unit) :
    ((notedQueue size).code c call l).Annotates ((queueService size).code c call l) := by
  cases call with
  | insert val => exact .onFst _
  | delete => exact .bind (delete_annotates c size) fun _ => .ret _

/-- The invariant of the queue, in all reachable states. -/
theorem inv_shared {size : ℕ} (hsize : 0 < size) (P : Pool (notedQueue size))
    (hr : Reachable (initial, unnoted) () P) : Inv size P.world.shared.1 := by
  obtain ⟨P', hr', ha⟩ := Reach.of_annotated (code_annotates size) hr
  rw [ha.world.shared]
  exact (known hsize hr').inv

end Pending

end QueueKSegment
