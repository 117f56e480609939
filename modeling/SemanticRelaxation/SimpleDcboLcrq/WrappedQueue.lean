import SemanticRelaxation.DcboLcrq.Invariant
import SemanticRelaxation.Prog.Annotated
import SemanticRelaxation.Prog.Between
import SemanticRelaxation.Support.Words

/-!
# LCRQs with external counts (`src/simple-dcbo-lcrq/external-count-wrapper.c`)

The sub-queues of this d-CBO queue are LCRQs with two counters of their own, for the items that have
been enqueued and dequeued. The version of the tail is still that of the LCRQ, whose code (`lcrq.c`)
is that of `src/dcbo-lcrq`, but for the allocation of rings.

The counters are beside the memory of the LCRQs. Ghost state: `attempts` counts the fetch-and-adds
on tails, with which each attempt of an enqueue starts. `lcrq_put` is written again over both, and
does what it does to the LCRQs alone (`lcrqPut_annotates`).
-/

namespace SimpleDcboLcrq

open AtomicProg Linked Segments DcboLcrq

/-- The counters of `wrapped_queue_t`, and the number of all attempts to enqueue. -/
structure Counters where
  enqCount : ℕ → ℕ
  deqCount : ℕ → ℕ
  attempts : ℕ

/-- The queues, with the memory of all partial queues. -/
abbrev Wrapped : Type := Memory × Counters

/-- The memory that `init_wrapped_queue` leaves for `width` queues. -/
def initialWrapped (width : ℕ) : Wrapped := (initial width, ⟨fun _ => 0, fun _ => 0, 0⟩)

/-- `FAI_U64(&queue->enq_count)` and `FAI_U64(&queue->deq_count)`. -/
def addEnqCount (q : ℕ) : Prog Wrapped Unit :=
  Prog.update fun s =>
    ((), (s.1, { s.2 with enqCount := Function.update s.2.enqCount q (s.2.enqCount q + 1) }))

def addDeqCount (q : ℕ) : Prog Wrapped Unit :=
  Prog.update fun s =>
    ((), (s.1, { s.2 with deqCount := Function.update s.2.deqCount q (s.2.deqCount q + 1) }))

/-- `FAI_U64(&rq->tail)`: the start of an attempt. -/
def startAttempt (n : ℕ) : Prog Wrapped Word :=
  Prog.update fun s =>
    ((s.1.ring n).tail, (s.1.onRing n (·.addTail), { s.2 with attempts := s.2.attempts + 1 }))

/-- One round of the loop of `lcrq_put`, with `handle->next` and `try_close`. -/
def lcrqPutRound (size : ℕ) (c : Caller) (q : ℕ) (arg : ℤ) (x : Option ℕ × ℕ) :
    Prog Wrapped ((Option ℕ × ℕ) ⊕ Option ℕ) := do
  let rq ← (readTail q).onFst
  match ← (readNext rq).onFst with
  | some next =>
    (tailCae q rq next).onFst
    return .inl x
  | none =>
    let t ← startAttempt rq
    match ← (putCell size c rq t arg x.2).onFst with
    | .stored => return .inr x.1
    | .again tryClose => return .inl (x.1, tryClose)
    | .alloc tryClose =>
      match ← (appendRing c q rq t.index arg x.1).onFst with
      | .inl handle => return .inl (handle, tryClose)
      | .inr handle => return .inr handle

/-- `lcrq_put`; the result is `handle->next`. -/
def lcrqPut (size : ℕ) (c : Caller) (q : ℕ) (arg : ℤ) (handle : Option ℕ) :
    Prog Wrapped (Option ℕ) :=
  Prog.forever (lcrqPutRound size c q arg) (handle, 0)

/-- `wrapped_enqueue`, with the `enqueue_wrap` of `lcrq.c`. -/
def wrappedEnqueue (size : ℕ) (c : Caller) (q : ℕ) (val : ℤ) (handle : Option ℕ) :
    Prog Wrapped (Option ℕ × ℤ) := do
  let handle ← lcrqPut size c q val handle
  addEnqCount q
  return (handle, 1)

/-- `wrapped_dequeue`. -/
def wrappedDequeue (size : ℕ) (c : Caller) (q : ℕ) : Prog Wrapped ℤ := do
  let ret ← (dequeueWrap size c q).onFst
  if ret ≠ Dcbo.EMPTY then
    addDeqCount q
    return ret
  else return ret

/-- `wrapped_tail_version`, which returns an `int`. -/
def wrappedTailVersion (q : ℕ) : Prog Wrapped ℤ := do
  let version ← (lcrqTailVersion q).onFst
  return Words.toInt version

/-- The calls on the wrapped queues. -/
inductive Call
  | enqueue (q : ℕ) (val : ℤ)
  | dequeue (q : ℕ)
  deriving DecidableEq

/-- The queue that a call is made on. -/
def Call.queue : Call → ℕ
  | .enqueue q _ => q
  | .dequeue q => q

/-- The calls that are made: on `w` queues. -/
def Call.Valid (w : ℕ) (call : Call) : Prop := call.queue < w

instance (w : ℕ) (call : Call) : Decidable (call.Valid w) := inferInstanceAs (Decidable (_ < _))

/-- The wrapped queues. A thread keeps `lcrq_handle.next`. -/
abbrev service (size : ℕ) : Service Wrapped (Option ℕ) where
  Call := Call
  Ret := ℤ
  code
    | c, .enqueue q val, l => wrappedEnqueue size c q val l
    | c, .dequeue q, l => do
      let r ← wrappedDequeue size c q
      return (l, r)

/-! ### The code of `lcrq.c` -/

theorem lcrqPutRound_annotates (size : ℕ) (c : Caller) (q : ℕ) (arg : ℤ) (x : Option ℕ × ℕ) :
    (lcrqPutRound size c q arg x).Annotates (DcboLcrq.lcrqPutRound size c q arg x) := by
  refine (Prog.Annotates.onFst _).bind fun rq => (Prog.Annotates.onFst _).bind fun next => ?_
  cases next with
  | some next => exact (Prog.Annotates.onFst _).bind fun _ => .ret _
  | none =>
    have hstart : (startAttempt rq).Annotates (fetchAddTail rq) := .act (fun _ _ => ⟨rfl, rfl⟩) .ret
    refine hstart.bind fun t => (Prog.Annotates.onFst _).bind fun r => ?_
    cases r with
    | stored => exact .ret _
    | again tryClose => exact .ret _
    | alloc tryClose =>
      refine (Prog.Annotates.onFst _).bind fun r => ?_
      cases r with
      | inl handle => exact .ret _
      | inr handle => exact .ret _

/-- What `lcrq_put` does to the LCRQs. -/
theorem lcrqPut_annotates (size : ℕ) (c : Caller) (q : ℕ) (arg : ℤ) (handle : Option ℕ) :
    (lcrqPut size c q arg handle).Annotates (DcboLcrq.lcrqPut size c q arg handle) :=
  .forever (fun x => lcrqPutRound_annotates size c q arg x) _

end SimpleDcboLcrq
