import SemanticRelaxation.TwoDcOptimized.Window

/-!
# The optimized 2Dc stack (`src/2Dc-stack_optimized/2Dc-stack_optimized.c`)

An array of Treiber stacks, each with its count in the descriptor, below the coupled window.
-/

namespace TwoDcOptimized

open AtomicProg Treiber

/-- The fields that `create_stack` stores, for a width and a depth that it does not derive. -/
def params (width depth : ℕ) : Params where
  width
  depth
  shift := (depth + 1) / 2
  randomHops := 2

/-- The shared memory that `create_stack` leaves. -/
def initial (set : Params) : State := ({
  setArray := fun _ => ⟨none, 0⟩
  globalWindow := ⟨set.depth, 1⟩
  mem := {}
  shifts := 0
  failed := false }, {})

/-- `create_node(key, val, NULL)`. -/
def createNode (val : ℤ) : Prog Memory ℕ :=
  Prog.update fun s => (s.mem.fresh, { s with mem := s.mem.create val })

/-- `new_node->next = next`. -/
def setNext (node : ℕ) (next : Option ℕ) : Prog Memory Unit :=
  Prog.update fun s => ((), { s with mem := s.mem.setNext node next })

/-- `stack_cae` on the descriptor with index `idx`. -/
def stackCae (idx : ℕ) (old new : Descriptor) : Prog Memory Bool := do
  let (done, _) ← Prog.cae (fun s : Memory => s.setArray idx)
    (fun d s => { s with setArray := Function.update s.setArray idx d }) old new
  return done

/-- One round of the loop of `push`. -/
def pushRound (set : Params) (newNode : ℕ) : Bool × Local → Prog State (Bool × Local ⊕ Local × ℤ) :=
  fun (contention, tl) => do
    let (descriptor, tl) ← putWindow set contention tl
    (setNext newNode descriptor.node).onFst
    let done ← (stackCae tl.index descriptor ⟨some newNode, descriptor.count + 1⟩).onFst
    if done then return .inr (tl, 1) else return .inl (true, tl)

/-- `push`. -/
def push (set : Params) (val : ℤ) (tl : Local) : Prog State (Local × ℤ) := do
  let newNode ← (createNode val).onFst
  Prog.forever (pushRound set newNode) (false, tl)

/-- `pop`: `none` stands for the `return 0` of the empty stack. -/
def pop (set : Params) (tl : Local) : Prog State (Local × Option ℤ) :=
  Prog.forever (fun (contention, tl) => do
    let (descriptor, tl) ← getWindow set contention tl
    match descriptor.node with
    | some node =>
      let next ← Prog.read fun s : State => (s.1.mem.heap node).next
      let done ← (stackCae tl.index descriptor ⟨next, Words.usub 64 descriptor.count 1⟩).onFst
      if done then
        let nodeVal ← Prog.read fun s : State => (s.1.mem.heap node).val
        return .inr (tl, some nodeVal)
      else
        return .inl (true, tl)
    | none => return .inr (tl, none)) (false, tl)

/-- The calls of the interface. -/
inductive Call
  | push (val : ℤ)
  | pop

/-- The stack as a shared object; `push` answers 1 and `pop` the value or 0. -/
def object (set : Params) : Object State Local where
  Call := Call
  Ret := Option ℤ
  code
    | .push v, tl => do
      let (tl, res) ← push set v tl
      return (tl, some res)
    | .pop, tl => pop set tl

end TwoDcOptimized
