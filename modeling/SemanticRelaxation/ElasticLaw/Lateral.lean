import SemanticRelaxation.Prog.Sequential
import SemanticRelaxation.Support.Linked
import SemanticRelaxation.Support.Words

/-!
# The elastic LaW queue: state and lateral queue (`src/2Dd-queue_elastic-law/lateral_queue.c`)

The windows of this queue are the nodes of a linked queue of their own, the lateral queue. Its tail
is the put window, and the node behind its head is the get window. Every window carries its width
and depth, and its rows are those above the maximum of the window before it.
-/

namespace ElasticLaw

open AtomicProg Linked

/-- The fields of `lateral_node_t` but the link. They do not change once the node is linked, so
that a thread may read them together. -/
structure Window where
  max : ℕ
  width : ℕ
  depth : ℕ
  deriving DecidableEq, Inhabited

/-- `max - depth` on `row_t`. -/
def Window.bottom (w : Window) : ℕ := Words.usub 64 w.max w.depth

/-- What the history attaches to an item: its row, and the put window of its enqueue. -/
structure Tag where
  row : ℕ
  window : Window
  deriving DecidableEq

/-- The shared memory: the arrays of descriptors, the lateral queue, the fields `depth` and `width`
of the next put window, and the item nodes. `failed` is set when an assertion fails. -/
structure State where
  putArray : ℕ → Descriptor
  getArray : ℕ → Descriptor
  lateral : Cells Window
  lateralHead : Option ℕ
  lateralTail : Option ℕ
  depth : ℕ
  width : ℕ
  nodes : Mem Tag
  failed : Bool

/-- The constant fields of `mqueue_t`. -/
structure Params where
  maxWidth : ℕ
  randomHops : ℕ

/-- The thread-local windows, pointers and indices. -/
structure Local where
  putWindow : Option ℕ
  getWindow : Option ℕ
  lheadPointer : Option ℕ
  ltailPointer : Option ℕ
  putIndex : ℕ
  getIndex : ℕ

/-- `assert`. -/
def assert (b : Bool) : Prog State Unit := Prog.assert (fun s => { s with failed := true }) b

/-- The load of the fields of a lateral node. -/
def readWindow (window : Option ℕ) : Prog State Window :=
  Prog.read fun s => (s.lateral.deref window).val

/-- The load of the link of a lateral node. -/
def readLateralNext (node : Option ℕ) : Prog State (Option ℕ) :=
  Prog.read fun s => (s.lateral.deref node).next

/-- `create_lateral_node(max, width, depth)`. -/
def createLateralNode (max width depth : ℕ) : Prog State ℕ :=
  Prog.update fun s =>
    (s.lateral.fresh, { s with lateral := s.lateral.create ⟨max, width, depth⟩ })

/-- The part of `shift_put` that links a new node behind `tail_pointer`, unless there is one. -/
def linkLateral (tailPointer : Option ℕ) (max depth width : ℕ) : Prog State Unit := do
  let next ← readLateralNext tailPointer
  if next = none then
    let node ← createLateralNode max width depth
    let _ ← Prog.cae (fun s : State => (s.lateral.deref tailPointer).next)
      (fun _ s => { s with lateral := s.lateral.append 0 tailPointer node }) none (some node)
    return ()
  else
    return ()

/-- `shift_put`. -/
def shiftPut (tailPointer : Option ℕ) (max depth width : ℕ) : Prog State Unit := do
  let tail ← Prog.read State.lateralTail
  if tail = tailPointer then
    linkLateral tailPointer max depth width
    let next ← readLateralNext tailPointer
    let _ ← Prog.cae State.lateralTail (fun p s => { s with lateralTail := p }) tailPointer next
    return ()
  else
    return ()

/-- `shift_get`. -/
def shiftGet (headPointer : Option ℕ) : Prog State Unit := do
  let next ← readLateralNext headPointer
  assert next.isSome
  let _ ← Prog.cae State.lateralHead (fun p s => { s with lateralHead := p }) headPointer next
  return ()

/-- `create_lateral_queue`: a dummy node, and the first window. -/
def initialLateral (width depth : ℕ) : Cells Window where
  heap := Function.update (Function.update (fun _ => default) 0 ⟨⟨0, width, 0⟩, some 1⟩)
    1 ⟨⟨depth, width, depth⟩, none⟩
  fresh := 2
  line := fun _ => [0, 1]

end ElasticLaw
