import SemanticRelaxation.ElasticLaw.Queue
import SemanticRelaxation.Prog.Annotated

/-!
# The elastic LaW queue with notes of its runs

The code of the queue over its memory and a ghost state (`Watch`), which notes whether a dequeue has
taken an item off a sub-queue whose get count had reached the maximum of the get window it worked
in. Only the functions on the way to the exchange of the get descriptor are written again;
`object_annotates` says that nothing else is changed.
-/

namespace ElasticLaw

open AtomicProg Linked

namespace Watched

/-- What has been noted. -/
structure Watch where
  late : Bool := false
  deriving DecidableEq

/-- `deq_cae` on the get descriptor with index `idx`, by a thread with the get window's maximum
`max`. -/
def deqCae (max idx : ℕ) (old new : Descriptor) : Prog (State × Watch) Bool := do
  let (done, _) ← Prog.cae (fun x : State × Watch => x.1.getArray idx)
    (fun d x => ({ x.1 with
      getArray := Function.update x.1.getArray idx d
      nodes := x.1.nodes.remove d.node },
      { x.2 with late := x.2.late || decide (max ≤ old.count) })) old new
  return done

/-- The branch `safe_deq` of `dequeue`. -/
def safeDeq (deqDescriptor : Descriptor) (tl : Local) :
    Prog (State × Watch) ((Bool × Local) ⊕ (Local × Option ℤ)) := do
  let next ← (readNext deqDescriptor.node).onFst
  let w ← (readWindow tl.getWindow).onFst
  let done ← deqCae w.max tl.getIndex deqDescriptor ⟨next, nextRow w deqDescriptor.count⟩
  if done then
    let val ← (Prog.read fun s : State => (s.nodes.deref next).val).onFst
    return .inr (tl, some val)
  else
    return .inl (true, tl)

/-- One round of the loop of `dequeue`. -/
def dequeueRound (set : Params) (contention : Bool) (tl : Local) :
    Prog (State × Watch) ((Bool × Local) ⊕ (Local × Option ℤ)) := do
  let (deqDescriptor, tl) ← (getWindow set contention tl).onFst
  let head := deqDescriptor.node
  let p ← (readWindow tl.putWindow).onFst
  let g ← (readWindow tl.getWindow).onFst
  if g.max < p.max then
    safeDeq deqDescriptor tl
  else
    let enqDescriptor ← (readDescriptor State.putArray tl.getIndex).onFst
    let tail := enqDescriptor.node
    if head = tail then
      let next ← (readNext head).onFst
      if next = none then
        return .inr (tl, none)
      else
        let r ← (helpEnqueue enqDescriptor contention tl).onFst
        return .inl r
    else
      safeDeq deqDescriptor tl

/-- `dequeue`. -/
def dequeue (set : Params) (tl : Local) : Prog (State × Watch) (Local × Option ℤ) := do
  let latTail ← (Prog.read State.lateralTail).onFst
  Prog.forever (fun (contention, tl) => dequeueRound set contention tl)
    (false, { tl with putWindow := latTail, ltailPointer := latTail })

/-- The queue with its notes. -/
def object (set : Params) : Object (State × Watch) Local where
  Call := Call
  Ret := Option ℤ
  code
    | .dequeue, tl => dequeue set tl
    | call, tl => ((ElasticLaw.object set).code call tl).onFst

/-! ### The notes change nothing -/

theorem deqCae_annotates (max idx : ℕ) (old new : Descriptor) :
    (deqCae max idx old new).Annotates (ElasticLaw.deqCae idx old new) := by
  refine Prog.Annotates.act (fun _ x => ?_) fun _ => .ret _
  dsimp only
  by_cases h : x.1.getArray idx = old
  · rw [if_pos h, if_pos h]
    exact ⟨rfl, rfl⟩
  · rw [if_neg h, if_neg h]
    exact ⟨rfl, rfl⟩

theorem safeDeq_annotates (d : Descriptor) (tl : Local) :
    (safeDeq d tl).Annotates (ElasticLaw.safeDeq d tl) := by
  refine (Prog.Annotates.onFst _).bind fun _ => (Prog.Annotates.onFst _).bind fun w =>
    (deqCae_annotates _ _ _ _).bind fun done => ?_
  cases done with
  | true => exact (Prog.Annotates.onFst _).bind fun _ => .ret _
  | false => exact .ret _

theorem dequeueRound_annotates (set : Params) (contention : Bool) (tl : Local) :
    (dequeueRound set contention tl).Annotates (ElasticLaw.dequeueRound set contention tl) := by
  refine (Prog.Annotates.onFst _).bind fun a => ?_
  obtain ⟨d, tl⟩ := a
  refine (Prog.Annotates.onFst _).bind fun p => (Prog.Annotates.onFst _).bind fun g => ?_
  split
  · exact safeDeq_annotates d tl
  · refine (Prog.Annotates.onFst _).bind fun e => ?_
    dsimp only
    split
    · refine (Prog.Annotates.onFst _).bind fun next => ?_
      split
      · exact .ret _
      · exact (Prog.Annotates.onFst _).bind fun _ => .ret _
    · exact safeDeq_annotates d tl

/-- The code with notes does what the code does. -/
theorem object_annotates (set : Params) (call : Call) (tl : Local) :
    ((object set).code call tl).Annotates ((ElasticLaw.object set).code call tl) := by
  cases call with
  | dequeue =>
    refine (Prog.Annotates.onFst _).bind fun _ => ?_
    exact Prog.Annotates.forever (fun b => dequeueRound_annotates set b.1 b.2) _
  | register => exact Prog.Annotates.onFst _
  | enqueue v => exact Prog.Annotates.onFst _
  | updateWidth w => exact Prog.Annotates.onFst _
  | updateDepth d => exact Prog.Annotates.onFst _

end Watched

end ElasticLaw
