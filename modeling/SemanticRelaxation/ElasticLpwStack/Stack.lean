import SemanticRelaxation.ElasticLpwStack.Window

/-!
# The elastic LpW stack (`src/2Dc-stack_elastic-lpw/2Dc-stack_elastic.c`)

An array of `max_width` Treiber stacks. The count of a sub-stack is the row of its top node: one
above the row below it, but not below the bottom of the window. So rows may be left out, and each
node holds the row below it as `next_count`.
-/

namespace ElasticLpwStack

open AtomicProg Treiber

/-- `create_stack`, with `depth <= 2^16 - 1` and `1 <= width <= max_width`. -/
def initial (set : Params) (width depth : ℕ) : State where
  setArray _ := ⟨none, 0⟩
  globalWindow := ⟨depth, depth, width, width, width, 1, 0⟩
  lateral := initialLateral set.maxWidth
  lateralFresh := 1
  depth
  width
  nextCount _ := 0
  mem := {}
  shifts := 0
  failed := false

/-- The parameters that `create_stack` stores. -/
def params (maxWidth : ℕ) : Params := ⟨maxWidth, 2⟩

/-- `create_node(key, val, NULL)`. -/
def createNode (val : ℤ) : Prog State ℕ :=
  Prog.update fun s => (s.mem.fresh, { s with mem := s.mem.create val })

/-- `new_node->next = descriptor.node` and `new_node->next_count = descriptor.count`, a `row_t`. -/
def setNext (node : ℕ) (descriptor : Descriptor) : Prog State Unit := do
  Prog.update fun s => ((), { s with mem := s.mem.setNext node descriptor.node })
  Prog.update fun s =>
    ((), { s with nextCount := Function.update s.nextCount node (descriptor.count % 2 ^ 32) })

/-- `add_linear(val, 1)` or `remove_linear(val)` for a successful exchange. -/
def record (idx : ℕ) (old new : Descriptor) (push : Bool) (m : Mem) : Mem :=
  match push, new.node, old.node with
  | true, some n, _ => m.push idx n
  | false, _, some n => m.pop n
  | _, _, _ => m

@[simp] theorem record_push (idx : ℕ) (old : Descriptor) (n c : ℕ) (m : Mem) :
    record idx old ⟨some n, c⟩ true m = m.push idx n := rfl

@[simp] theorem record_pop {idx n : ℕ} {old new : Descriptor} (h : old.node = some n) (m : Mem) :
    record idx old new false m = m.pop n := by
  simp [record, h]

/-- `stack_cae` on the descriptor with index `idx`. -/
def stackCae (idx : ℕ) (old new : Descriptor) (push : Bool) : Prog State Bool := do
  let (done, _) ← Prog.cae (fun s : State => s.setArray idx)
    (fun d s => { s with
      setArray := Function.update s.setArray idx d
      mem := record idx old d push s.mem }) old new
  return done

/-- The row of a new node on top of row `count`: not below the window. -/
def nextRow (w : Window) (count : ℕ) : ℕ :=
  if w.max ≤ count + w.depth then count + 1 else w.bottom

/-- `push`. -/
def push (set : Params) (val : ℤ) (tl : Local) : Prog State (Local × ℤ) := do
  let newNode ← createNode val
  Prog.forever (fun (contention, tl) => do
    let (descriptor, tl) ← putWindow set contention tl
    setNext newNode descriptor
    let done ← stackCae tl.putIndex descriptor
      ⟨some newNode, nextRow tl.window descriptor.count⟩ true
    if done then return .inr (tl, 1) else return .inl (true, tl)) (false, tl)

/-- `pop`: `none` stands for the `return 0` of the empty stack. -/
def pop (set : Params) (tl : Local) : Prog State (Local × Option ℤ) :=
  Prog.forever (fun (contention, tl) => do
    let (descriptor, tl) ← getWindow set contention tl
    match descriptor.node with
    | some node =>
      let next ← Prog.read fun s : State => (s.mem.heap node).next
      let nextCount ← Prog.read fun s : State => s.nextCount node
      let done ← stackCae tl.getIndex descriptor ⟨next, nextCount⟩ false
      if done then
        let nodeVal ← Prog.read fun s : State => (s.mem.heap node).val
        return .inr (tl, some nodeVal)
      else
        return .inl (true, tl)
    | none => return .inr (tl, none)) (false, tl)

/-- `update_depth`. -/
def updateDepth (depth : ℕ) : Prog State ℕ := do
  let oldDepth ← Prog.read State.depth
  Prog.forever (fun oldDepth => do
    let (done, found) ← Prog.cae State.depth (fun d s => { s with depth := d }) oldDepth depth
    if done then return .inr oldDepth else return .inl found) oldDepth

/-- `update_width`. -/
def updateWidth (set : Params) (width : ℕ) : Prog State ℕ := do
  let oldWidth ← Prog.read State.width
  assert (width ≤ set.maxWidth)
  Prog.forever (fun oldWidth => do
    let (done, found) ← Prog.cae State.width (fun w s => { s with width := w }) oldWidth width
    if done then return .inr oldWidth else return .inl found) oldWidth

/-- The calls of the interface. -/
inductive Call
  | push (val : ℤ)
  | pop
  | updateWidth (width : ℕ)
  | updateDepth (depth : ℕ)

/-- The arguments that the calls are made with: a width that is allocated, and a positive
`depth_t`. -/
def Call.Valid (set : Params) : Call → Prop
  | .updateWidth w => 1 ≤ w ∧ w ≤ set.maxWidth
  | .updateDepth d => 1 ≤ d ∧ d < 2 ^ 16
  | _ => True

/-- The stack as a shared object. -/
def object (set : Params) : Object State Local where
  Call := Call
  Ret := Option ℤ
  code
    | .push v, tl => do
      let (tl, res) ← push set v tl
      return (tl, some res)
    | .pop, tl => pop set tl
    | .updateWidth w, tl => do
      let old ← updateWidth set w
      return (tl, some old)
    | .updateDepth d, tl => do
      let old ← updateDepth d
      return (tl, some old)

end ElasticLpwStack
