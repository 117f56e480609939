import SemanticRelaxation.Support.Treiber
import SemanticRelaxation.TwoDd.Window

/-!
# The 2Dd stack (`src/2Dd-stack/2Dd-stack.c`)

An array of Treiber stacks. A descriptor holds the top node and the numbers of pushes and pops, two
`uint32_t` that wrap; `get_array` and `put_array` are the same array. `create_stack` does not call
`initialize_global_window`, so both windows start at 0.
-/

namespace TwoDd

namespace Stack

open AtomicProg Treiber

/-- `descriptor_t`. -/
structure Descriptor where
  node : Option ℕ
  putCount : ℕ
  getCount : ℕ
  deriving DecidableEq

/-- The array of descriptors and the node memory. -/
structure Memory where
  array : ℕ → Descriptor
  nodes : Mem

/-- The two counts share a word. -/
instance : Arrays Memory Descriptor where
  put m := m.array
  get m := m.array
  putCount := Descriptor.putCount
  getCount := Descriptor.getCount
  copy first second := ⟨first.node, second.putCount, second.getCount⟩
  copy_self _ := rfl

abbrev State := Shared Memory

/-- `create_stack`: the fields that the window code reads. -/
def params (width depth : ℕ) : Params := ⟨width, depth, 2⟩

/-- The shared memory that `create_stack` leaves. -/
def initial : State where
  globalPWindow := 0
  globalGWindow := 0
  mem := ⟨fun _ => ⟨none, 0, 0⟩, {}⟩

/-- A step on the node memory. -/
def State.onNodes (s : State) (f : Mem → Mem) : State :=
  { s with mem := { s.mem with nodes := f s.mem.nodes } }

/-- `create_node(key, val, NULL)`. -/
def createNode (val : ℤ) : Prog State ℕ :=
  Prog.update fun s => (s.mem.nodes.fresh, s.onNodes (·.create val))

/-- `new_node->next = next`. -/
def setNext (node : ℕ) (next : Option ℕ) : Prog State Unit :=
  Prog.update fun s => ((), s.onNodes (·.setNext node next))

/-- `add_linear(val, 1)` or `remove_linear(val)` for a successful exchange. -/
def record (idx : ℕ) (old new : Descriptor) (push : Bool) (m : Mem) : Mem :=
  match push, new.node, old.node with
  | true, some n, _ => m.push idx n
  | false, _, some n => m.pop n
  | _, _, _ => m

@[simp] theorem record_push (idx : ℕ) (old : Descriptor) (n p g : ℕ) (m : Mem) :
    record idx old ⟨some n, p, g⟩ true m = m.push idx n := rfl

theorem record_pop {idx n : ℕ} {old new : Descriptor} (h : old.node = some n) (m : Mem) :
    record idx old new false m = m.pop n := by
  simp [record, h]

/-- `do_cae` on the descriptor with index `idx`. -/
def doCae (idx : ℕ) (old new : Descriptor) (push : Bool) : Prog State Bool := do
  let (done, _) ← Prog.cae (fun s : State => s.mem.array idx)
    (fun d s => { s with mem :=
      ⟨Function.update s.mem.array idx d, record idx old d push s.mem.nodes⟩ }) old new
  return done

/-- `push`. -/
def push (set : Params) (val : ℤ) (tl : Local) : Prog State (Local × ℤ) := do
  let newNode ← createNode val
  Prog.forever (fun (contention, tl) => do
    let (descriptor, tl) ← putWindow set contention tl
    setNext newNode descriptor.node
    let newDescriptor : Descriptor :=
      ⟨some newNode, (descriptor.putCount + 1) % 2 ^ 32, descriptor.getCount⟩
    let done ← doCae tl.index descriptor newDescriptor true
    if done then return .inr (tl, 1) else return .inl (true, tl)) (false, tl)

/-- `pop`: `none` stands for the `return 0` of the empty stack. -/
def pop (set : Params) (tl : Local) : Prog State (Local × Option ℤ) :=
  Prog.forever (fun (contention, tl) => do
    let (descriptor, tl) ← getWindow set contention tl
    match descriptor.node with
    | some node =>
      let next ← Prog.read fun s : State => (s.mem.nodes.heap node).next
      let newDescriptor : Descriptor :=
        ⟨next, descriptor.putCount, (descriptor.getCount + 1) % 2 ^ 32⟩
      let done ← doCae tl.index descriptor newDescriptor false
      if done then
        let nodeVal ← Prog.read fun s : State => (s.mem.nodes.heap node).val
        return .inr (tl, some nodeVal)
      else
        return .inl (true, tl)
    | none => return .inr (tl, none)) (false, tl)

/-- The calls of the interface. -/
inductive Call
  | push (val : ℤ)
  | pop

/-- The stack as a shared object; `push` answers 1 and `pop` the value or 0. -/
def object (set : Params) : Object State Local where
  Call := Call
  Ret := Option ℤ
  code
    | .push v, tl => do
      let (tl, res) ← push set v tl
      return (tl, some res)
    | .pop, tl => pop set tl

end Stack

end TwoDd
