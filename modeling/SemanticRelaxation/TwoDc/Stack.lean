import SemanticRelaxation.Support.Treiber
import SemanticRelaxation.TwoDc.Window

/-!
# The 2Dc stack (`src/2Dc-stack/2Dc-stack.c`)

An array of Treiber stacks, each with a descriptor of its top node and its size, steered by the
coupled window.

`stackCae` keeps, next to the compare-and-exchange, the list of the items present (youngest first)
with its distances, as the build with `RELAXATION_ANALYSIS` does, and the logs of all pushes and
pops.
-/

namespace TwoDc

namespace Stack

open AtomicProg Treiber

/-- `descriptor_t`. -/
structure Descriptor where
  node : Option ℕ
  count : ℕ
  deriving DecidableEq

instance : HasCount Descriptor where
  count := Descriptor.count
  copy first second := ⟨first.node, second.count⟩
  copy_self _ := rfl
  copy_count _ _ := rfl

abbrev State := Shared Descriptor Mem

/-- `create_stack`: the fields that the window code reads, with words that do not wrap. -/
def params (width depth : ℕ) : Params where
  width
  depth
  shift := if 1 < depth / 2 then depth / 2 else 1
  randomHops := 2
  modulus := 0

/-- The same with the words of the code. -/
def wordParams (width depth : ℕ) : Params := { params width depth with modulus := 2 ^ 64 }

/-- The shared memory that `create_stack` leaves; `initialize_global_window` takes a `uint16_t`. -/
def initial (set : Params) : State where
  setArray _ := ⟨none, 0⟩
  globalWindow := ⟨set.depth % 2 ^ 16, 1⟩
  mem := {}

/-- `create_node(key, val, NULL)`. -/
def createNode (val : ℤ) : Prog State ℕ :=
  Prog.update fun s => (s.mem.fresh, { s with mem := s.mem.create val })

/-- `new_node->next = next`. -/
def setNext (node : ℕ) (next : Option ℕ) : Prog State Unit :=
  Prog.update fun s => ((), { s with mem := s.mem.setNext node next })

/-- `add_linear(val, 1)` or `remove_linear(val)` for a successful exchange. -/
def record (idx : ℕ) (old new : Descriptor) (push : Bool) (m : Mem) : Mem :=
  match push, new.node, old.node with
  | true, some n, _ => m.push idx n
  | false, _, some n => m.pop n
  | _, _, _ => m

@[simp] theorem record_push (idx : ℕ) (old : Descriptor) (n c : ℕ) (m : Mem) :
    record idx old ⟨some n, c⟩ true m = m.push idx n := rfl

@[simp] theorem record_pop {idx n : ℕ} {old new : Descriptor} (h : old.node = some n) (m : Mem) :
    record idx old new false m = m.pop n := by
  simp [record, h]

/-- `stack_cae` on the descriptor with index `idx`. -/
def stackCae (idx : ℕ) (old new : Descriptor) (push : Bool) : Prog State Bool := do
  let (done, _) ← Prog.cae (fun s : State => s.setArray idx)
    (fun d s => { s with
      setArray := Function.update s.setArray idx d
      mem := record idx old d push s.mem }) old new
  return done

/-- `push`. -/
def push (set : Params) (val : ℤ) (tl : Local) : Prog State (Local × ℤ) := do
  let newNode ← createNode val
  Prog.forever (fun (contention, tl) => do
    let (descriptor, tl) ← putWindow set contention tl
    setNext newNode descriptor.node
    let done ← stackCae tl.index descriptor ⟨some newNode, descriptor.count + 1⟩ true
    if done then return .inr (tl, 1) else return .inl (true, tl)) (false, tl)

/-- `pop`: `none` stands for the `return 0` of the empty stack. -/
def pop (set : Params) (tl : Local) : Prog State (Local × Option ℤ) :=
  Prog.forever (fun (contention, tl) => do
    let (descriptor, tl) ← getWindow set contention tl
    match descriptor.node with
    | some node =>
      let next ← Prog.read fun s : State => (s.mem.heap node).next
      let done ← stackCae tl.index descriptor ⟨next, Words.usub 64 descriptor.count 1⟩ false
      if done then
        let nodeVal ← Prog.read fun s : State => (s.mem.heap node).val
        return .inr (tl, some nodeVal)
      else
        return .inl (true, tl)
    | none => return .inr (tl, none)) (false, tl)

/-- The calls of the interface. -/
inductive Call
  | push (val : ℤ)
  | pop

/-- The stack as a shared object; `push` answers 1 and `pop` the value or 0. -/
def object (set : Params) : Object State Local where
  Call := Call
  Ret := Option ℤ
  code
    | .push v, tl => do
      let (tl, res) ← push set v tl
      return (tl, some res)
    | .pop, tl => pop set tl

end Stack

end TwoDc
