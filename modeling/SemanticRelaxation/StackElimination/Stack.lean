import SemanticRelaxation.Prog.Concurrent
import SemanticRelaxation.Support.Lifo

/-!
# The elimination stack (`src/stack-elimination/stack-elimination.c`)

A linked stack. A push that loses the exchange of the top puts its node into the slot of its thread
in `elimination_array`, waits, and withdraws the node if it is still there. A pop that loses the
exchange looks into random slots of other threads, and takes a node that it finds there.

The waiting loops touch nothing that others use: any number of steps of the others may lie between
two steps. Ghost state: `hist` lists the operations in the order in which they take effect, a pair
that is eliminated one after the other; `pusher` and `home` are the call that made a node and its
thread.
-/

namespace StackElimination

open AtomicProg Lifo

/-- The memory. -/
structure Memory where
  top : Option ℕ
  next : ℕ → Option ℕ
  val : ℕ → ℤ
  fresh : ℕ
  slot : ℕ → Option ℕ
  hist : List Event
  pusher : ℕ → ℕ
  home : ℕ → ℕ

/-- The empty stack. -/
def initial : Memory := ⟨none, fun _ => none, fun _ => 0, 0, fun _ => none, [], fun _ => 0,
      fun _ => 0⟩

namespace Memory

variable (s : Memory)

/-- The call `c` allocates its node. -/
def create (c : Caller) (val : ℤ) : Memory :=
  { s with
    val := Function.update s.val s.fresh val
    next := Function.update s.next s.fresh none
    pusher := Function.update s.pusher s.fresh c.op
    home := Function.update s.home s.fresh c.thread
    fresh := s.fresh + 1 }

/-- A store to `node->next`. -/
def setNext (n : ℕ) (next : Option ℕ) : Memory := { s with next := Function.update s.next n next }

/-- The call `op` makes the node `n` the top. -/
def push (op n : ℕ) : Memory := { s with top := some n, hist := s.hist ++ [.push op n] }

/-- The call `op` takes the top `n` off. -/
def pop (op n : ℕ) (next : Option ℕ) :
    Memory := { s with top := next, hist := s.hist ++ [.pop op n] }

/-- The call `op` finds the stack empty. -/
def miss (op : ℕ) : Memory := { s with hist := s.hist ++ [.empty op] }

/-- A store to a slot. -/
def setSlot (t : ℕ) (n : Option ℕ) : Memory := { s with slot := Function.update s.slot t n }

/-- The call `op` takes the node `n` out of the slot of a push: both take effect here. -/
def eliminate (op t n : ℕ) : Memory :=
  { s.setSlot t none with hist := s.hist ++ [.push (s.pusher n) n, .pop op n] }

end Memory

/-- `mstack_new_node`. -/
def newNode (c : Caller) (val : ℤ) : Prog Memory ℕ := Prog.update fun s => (s.fresh, s.create c val)

/-- `CAS_PTR(&qu->top, top, node)`. -/
def pushCas (c : Caller) (top : Option ℕ) (node : ℕ) : Prog Memory Bool := do
  let (done, _) ← Prog.cae (fun s : Memory => s.top) (fun _ s => s.push c.op node) top (some node)
  return done

/-- `CAS_PTR(&elimination_array[thread_id].node, NULL, node)`. -/
def parkCas (c : Caller) (node : ℕ) : Prog Memory Bool := do
  let (done, _) ← Prog.cae (fun s : Memory => s.slot c.thread)
    (fun n s => s.setSlot c.thread n) none (some node)
  return done

/-- `CAS_PTR(&elimination_array[thread_id].node, node, NULL)`. -/
def withdrawCas (c : Caller) (node : ℕ) : Prog Memory Bool := do
  let (done, _) ← Prog.cae (fun s : Memory => s.slot c.thread) (fun n s => s.setSlot c.thread n)
    (some node) none
  return done

/-- One round of the loop of `mstack_elimination_push_node`. -/
def pushRound (c : Caller) (node : ℕ) : Prog Memory (Unit ⊕ ℤ) := do
  let top ← Prog.read fun s : Memory => s.top
  let () ← Prog.update fun s : Memory => ((), s.setNext node top)
  let done ← pushCas c top node
  if done then return .inr 1
  else
    let parked ← parkCas c node
    if parked then
      let withdrawn ← withdrawCas c node
      return if withdrawn then .inl () else .inr 1
    else return .inl ()

/-- `mstack_elimination_insert`, with `mstack_elimination_push_node`. -/
def insert (c : Caller) (val : ℤ) : Prog Memory ℤ := do
  let node ← newNode c val
  Prog.forever (fun _ => pushRound c node) ()

/-- The load of `qu->top` by a pop. -/
def readTop (c : Caller) : Prog Memory (Option ℕ) :=
  Prog.update fun s : Memory => (s.top, if s.top = none then s.miss c.op else s)

/-- `CAS_PTR(&qu->top, top, top->next)`. -/
def popCas (c : Caller) (top : ℕ) (next : Option ℕ) : Prog Memory Bool := do
  let (done, _) ← Prog.cae (fun s : Memory => s.top) (fun _ s => s.pop c.op top next)
    (some top) next
  return done

/-- `random_slot`. -/
def randomSlot (numThreads : ℕ) : Prog Memory ℕ := do
  let r ← Prog.choose
  return r % numThreads

/-- `CAS_PTR(&elimination_array[pop_slot].node, node, NULL)`. -/
def takeCas (c : Caller) (popSlot node : ℕ) : Prog Memory Bool := do
  let (done, _) ← Prog.cae (fun s : Memory => s.slot popSlot)
    (fun _ s => s.eliminate c.op popSlot node)
    (some node) none
  return done

/-- One round of the loop over the slots: the node that was taken, or the count `i` of the looks at
the end. -/
def searchRound (c : Caller) (numThreads i : ℕ) : Prog Memory (ℕ ⊕ (Option ℕ × ℕ)) := do
  if i < numThreads then
    let popSlot ← randomSlot numThreads
    if popSlot ≠ c.thread then
      let node ← Prog.read fun s : Memory => s.slot popSlot
      match node with
      | none => return .inl (i + 1)
      | some node =>
        let done ← takeCas c popSlot node
        return if done then .inr (some node, i) else .inl (i + 1)
    else return .inl (i + 1)
  else return .inr (none, i)

/-- `mstack_elimination_delete_node`. -/
def deleteNode (node : ℕ) : Prog Memory ℤ := Prog.read fun s : Memory => s.val node

/-- One round of the loop of `mstack_elimination_delete`. The count of the looks is not reset. -/
def popRound (c : Caller) (numThreads i : ℕ) : Prog Memory (ℕ ⊕ ℤ) := do
  let top ← readTop c
  match top with
  | none => return .inr 0
  | some top =>
    let next ← Prog.read fun s : Memory => s.next top
    let done ← popCas c top next
    if done then
      let val ← deleteNode top
      return .inr val
    else
      let (node, i) ← Prog.forever (searchRound c numThreads) i
      match node with
      | none => return .inl i
      | some node =>
        let val ← deleteNode node
        return .inr val

/-- `mstack_elimination_delete`. -/
def delete (c : Caller) (numThreads : ℕ) : Prog Memory ℤ := Prog.forever (popRound c numThreads) 0

/-- The calls on the stack. -/
inductive Call
  | insert (val : ℤ)
  | delete
  deriving DecidableEq

/-- The stack as a service. -/
abbrev stackService (numThreads : ℕ) : Service Memory Unit where
  Call := Call
  Ret := ℤ
  code
    | c, .insert val, l => do
      let r ← StackElimination.insert c val
      return (l, r)
    | c, .delete, l => do
      let r ← StackElimination.delete c numThreads
      return (l, r)

end StackElimination
