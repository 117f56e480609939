import SemanticRelaxation.Prog.Sequential
import SemanticRelaxation.Support.Linked
import SemanticRelaxation.Support.Words

/-!
# The elastic LpW queue: state and lateral queue (`src/2Dd-queue_elastic-lpw/lateral_queue.c`)

This queue has one put window and one get window, as the 2Dd queue has, and both carry their depth
and width. The lateral queue records where the width of the rows changes: a lateral node says that
the rows from its `count` on have its `width`, up to the next node. The get side looks its width up
there.
-/

namespace ElasticLpw

open AtomicProg Linked

/-- The fields of `lateral_node_t` but the link. They do not change once the node is linked, so
that a thread may read them together. -/
structure LateralNode where
  count : ℕ
  width : ℕ
  deriving DecidableEq, Inhabited

/-- `put_window_t`: `max` is its first word, the other fields are its second word. -/
structure PutWindow where
  max : ℕ
  depth : ℕ
  width : ℕ
  nextWidth : ℕ
  deriving DecidableEq

/-- `get_window_t`: `max` is its first word, the other fields are its second word. -/
structure GetWindow where
  max : ℕ
  depth : ℕ
  width : ℕ
  deriving DecidableEq

/-- `max - depth` on `row_t`. -/
def PutWindow.bottom (w : PutWindow) : ℕ := Words.usub 64 w.max w.depth

/-- `max - depth` on `row_t`. -/
def GetWindow.bottom (w : GetWindow) : ℕ := Words.usub 64 w.max w.depth

/-- The shared memory: the arrays of descriptors, the two windows, the lateral queue, the fields
`depth` and `width` of the next put window, and the item nodes, which the history tags with their
rows. `failed` is set when an assertion fails. -/
structure State where
  putArray : ℕ → Descriptor
  getArray : ℕ → Descriptor
  globalPWindow : PutWindow
  globalGWindow : GetWindow
  lateral : Cells LateralNode
  lateralHead : Option ℕ
  lateralTail : Option ℕ
  depth : ℕ
  width : ℕ
  nodes : Mem ℕ
  failed : Bool

/-- The constant fields of `mqueue_t`. -/
structure Params where
  maxWidth : ℕ
  randomHops : ℕ

/-- The thread-local windows and indices. -/
structure Local where
  pWindow : PutWindow
  gWindow : GetWindow
  putIndex : ℕ
  getIndex : ℕ

/-- The thread-local variables of a new thread. -/
def Local.zero : Local := ⟨⟨0, 0, 0, 0⟩, ⟨0, 0, 0⟩, 0, 0⟩

/-- `assert`. -/
def assert (b : Bool) : Prog State Unit := Prog.assert (fun s => { s with failed := true }) b

/-- The load of the fields of a lateral node. -/
def readLateral (node : Option ℕ) : Prog State LateralNode :=
  Prog.read fun s => (s.lateral.deref node).val

/-- The load of the link of a lateral node. -/
def readLateralNext (node : Option ℕ) : Prog State (Option ℕ) :=
  Prog.read fun s => (s.lateral.deref node).next

/-- `create_lateral_node(count, width)`. -/
def createLateralNode (count width : ℕ) : Prog State ℕ :=
  Prog.update fun s => (s.lateral.fresh, { s with lateral := s.lateral.create ⟨count, width⟩ })

/-- The part of `try_enq_lateral` that links a new node behind `tail`, unless there is one; the
result is `next_tail`. -/
def linkLateral (tail : Option ℕ) (count width : ℕ) : Prog State (Option ℕ) := do
  let next ← readLateralNext tail
  if next = none then
    let node ← createLateralNode count width
    let (done, found) ← Prog.cae (fun s : State => (s.lateral.deref tail).next)
      (fun _ s => { s with lateral := s.lateral.append 0 tail node }) none (some node)
    return if done then some node else found
  else
    return next

/-- `try_enq_lateral`. -/
def tryEnqLateral (count width : ℕ) : Prog State Unit := do
  let tail ← Prog.read State.lateralTail
  let node ← readLateral tail
  if node.count < count then
    let next ← linkLateral tail count width
    assert next.isSome
    let _ ← Prog.cae State.lateralTail (fun p s => { s with lateralTail := p }) tail next
    return ()
  else
    return ()

/-- `maybe_enq_lateral`. -/
def maybeEnqLateral (windowMax width nextWidth : ℕ) : Prog State Unit :=
  if width ≠ nextWidth then tryEnqLateral (windowMax + 1) nextWidth else return ()

/-- One step of the loops that look for the last lateral node with a count up to `count`, from the
node `current` with the successor `lookahead`. -/
def skipLateral (count : ℕ) : Option ℕ × Option ℕ →
    Prog State ((Option ℕ × Option ℕ) ⊕ (Option ℕ × Option ℕ))
  | (current, lookahead) => do
    if lookahead = none then
      return .inr (current, lookahead)
    else
      let node ← readLateral lookahead
      if node.count ≤ count then
        let next ← readLateralNext lookahead
        return .inl (lookahead, next)
      else
        return .inr (current, lookahead)

/-- The next maximum, cut below the row where the width changes. -/
def cutMax (lookahead : Option ℕ) (nextMax : ℕ) : Prog State ℕ := do
  if lookahead = none then
    return nextMax
  else
    let node ← readLateral lookahead
    return if node.count ≤ nextMax then Words.usub 64 node.count 1 else nextMax

/-- `get_next_window_lateral`: the width of the next get window, and its maximum. -/
def getNextWindowLateral (prevMax nextMax : ℕ) : Prog State (ℕ × ℕ) := do
  let head ← Prog.read State.lateralHead
  let lookahead ← readLateralNext head
  assert head.isSome
  let node ← readLateral head
  assert (node.count ≤ nextMax)
  let (current, lookahead) ← Prog.forever (skipLateral (prevMax + 1)) (head, lookahead)
  let nextMax ← cutMax lookahead nextMax
  let node ← readLateral current
  assert (node.width ≠ 0)
  return (node.width, nextMax)

/-- `deq_lateral`. -/
def deqLateral (max : ℕ) : Prog State Unit := do
  let head ← Prog.read State.lateralHead
  let probe ← readLateralNext head
  let (newHead, _) ← Prog.forever (skipLateral max) (head, probe)
  if head ≠ newHead then
    let _ ← Prog.cae State.lateralHead (fun p s => { s with lateralHead := p }) head newHead
    return ()
  else
    return ()

/-- `create_lateral_queue`: one node, for all rows. -/
def initialLateral (width : ℕ) : Cells LateralNode where
  heap _ := ⟨⟨0, width⟩, none⟩
  fresh := 1
  line := fun _ => [0]

end ElasticLpw
