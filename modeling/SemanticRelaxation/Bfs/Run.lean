import SemanticRelaxation.Prog.Regime
import SemanticRelaxation.Support.Walks
import SemanticRelaxation.Support.Words
import Mathlib.Order.Interval.Finset.Nat

/-!
# Parallel breadth-first search (`src/dcbo-ms/test-bfs.c`, `include/graph.h`)

Threads take vertices out of a shared queue and lower the distances of their neighbours. A vertex
whose distance has been lowered is put into the queue again. A thread leaves after some failures to
get a vertex, when no thread calls itself active.

The queue is a bag: `DS_REMOVE` returns any of its items, or 0 at an instant at which it is empty.
The clock gives any numbers. The vertices are `1, …, n_verticies`; entry `i` of an array is `a i`.
-/

namespace Bfs

open AtomicProg Words

/-- `graph_t`, less the distances. -/
structure Graph where
  nVerticies : ℕ
  nEdges : ℕ
  verticies : ℕ → ℕ
  neighbors : ℕ → ℕ

/-- `UINT64_MAX`. -/
def uint64Max : ℕ := 2 ^ 64 - 1

/-- `MAX_FAILURES`. -/
def maxFailures : ℕ := 100

/-- `get_neighbors`: their number, and the place of the first one in `neighbors`. -/
def getNeighbors (g : Graph) (index : ℕ) : ℕ × ℕ :=
  let loc := g.verticies index
  if index = g.nVerticies then (usub 64 g.nEdges loc, loc)
  else (usub 64 (g.verticies (index + 1)) loc, loc)

/-- The distances, the items of the queue and `active_threads`. -/
structure State where
  distances : ℕ → ℕ
  bag : List ℕ
  active : ℕ

/-- The start: the distance of the root is 0, and it is in the queue. -/
def initial (root numThreads : ℕ) : State :=
  ⟨fun v => if v = root then 0 else uint64Max, [root], numThreads⟩

/-- `DS_ADD`. -/
def dsAdd (v : ℕ) : Prog State Unit := Prog.update fun s => ((), { s with bag := v :: s.bag })

/-- The item of a bag at a number, modulo its size. -/
def pick (bag : List ℕ) (n : ℕ) : ℕ := bag.getD (n % bag.length) 0

/-- `DS_REMOVE`. -/
def dsRemove : Prog State ℕ :=
  .act (fun n s => if s.bag = [] then (0, s) else (pick s.bag n,
    { s with bag := s.bag.erase (pick s.bag n) })) .ret

/-- `get_time`. -/
def getTime : Prog State ℕ := Prog.choose

/-- `FAI_U64(&active_threads)` and `FAD_U64(&active_threads)`. -/
def incActive : Prog State Unit := Prog.update fun s =>
    ((), { s with active := (s.active + 1) % 2 ^ 64 })

def decActive : Prog State Unit := Prog.update fun s =>
    ((), { s with active := usub 64 s.active 1 })

/-- The variables of `run_bfs`, with the entry of the thread in `end_times`. -/
structure Local where
  isActive : Bool
  failures : ℕ
  endTime : ℕ

/-- The overflow of an `int` is undefined: the program never gets on. -/
def undefined {α : Type} : Prog State α := Prog.forever (fun _ : Unit => .ret (.inl ())) ()

/-- The loop on one neighbour: its distance is lowered, unless it is small enough. -/
def relax (neighbor incDistance distance : ℕ) : Prog State (ℕ ⊕ Unit) := do
  if incDistance < distance then
    let (done, found) ← Prog.cae (fun s : State => s.distances neighbor)
      (fun d s => { s with distances := Function.update s.distances neighbor d }) distance
      incDistance
    if done then
      dsAdd neighbor
      return .inr ()
    else return .inl found
  else return .inr ()

/-- One round of the loop over the neighbours. The index is an `int`. -/
def scanRound (g : Graph) (size loc currentDistance i : ℕ) : Prog State (ℕ ⊕ Unit) := do
  if i < size then
    let neighbor := g.neighbors (loc + i)
    let distance ← Prog.read fun s => s.distances neighbor
    Prog.forever (relax neighbor ((currentDistance + 1) % 2 ^ 64)) distance
    if i + 1 < 2 ^ 31 then return .inl (i + 1) else undefined
  else return .inr ()

/-- What `run_bfs` does with a vertex that it has got. -/
def process (g : Graph) (current : ℕ) : Prog State Unit := do
  let (size, loc) := getNeighbors g current
  let currentDistance ← Prog.read fun s => s.distances current
  Prog.forever (scanRound g size loc currentDistance) 0

/-- The thread calls itself active again. -/
def wake (l : Local) : Prog State Local :=
  if l.isActive then return l
  else do
    incActive
    return { l with isActive := true, failures := 0 }

/-- One round of the inner loop: as long as the queue has items. -/
def drainRound (g : Graph) (l : Local) : Prog State (Local ⊕ Local) := do
  let current ← dsRemove
  if current = 0 then return .inr l
  else
    let l ← wake l
    process g current
    return .inl l

/-- The condition of the outer loop. -/
def goesOn (l : Local) : Prog State Bool := do
  if l.failures < maxFailures then return true
  else
    let now ← getTime
    if usub 64 now l.endTime < 100000000 then return true
    else
      let active ← Prog.read fun s => s.active
      return active ≠ 0

/-- The end of a round of the outer loop. -/
def rest (l : Local) : Prog State Local := do
  if l.isActive then
    decActive
    let now ← getTime
    return ⟨false, (l.failures + 1) % 2 ^ 64, now⟩
  else return { l with failures := (l.failures + 1) % 2 ^ 64 }

/-- One round of the outer loop. -/
def bfsRound (g : Graph) (l : Local) : Prog State (Local ⊕ Unit) := do
  let go ← goesOn l
  if go then
    let l ← Prog.forever (drainRound g) l
    let l ← rest l
    return .inl l
  else return .inr ()

/-- `run_bfs`. -/
def runBfs (g : Graph) : Prog State Unit := Prog.forever (bfsRound g) ⟨true, 0, 0⟩

/-- The threads of the search. -/
abbrev bfsService (g : Graph) : Service State Unit where
  Call := Unit
  Ret := Unit
  code _ _ l := do
    runBfs g
    return (l, ())

/-! ### Graphs in CSR form -/

/-- The end of the neighbours of a vertex. -/
def Graph.rowEnd (g : Graph) (u : ℕ) :
    ℕ := if u = g.nVerticies then g.nEdges else g.verticies (u + 1)

/-- The edges. -/
def Graph.Edge (g : Graph) (u v : ℕ) :
    Prop := ∃ j, g.verticies u ≤ j ∧ j < g.rowEnd u ∧ g.neighbors j = v

/-- The vertices. -/
def Graph.vertexSet (g : Graph) : Finset ℕ := Finset.Icc 1 g.nVerticies

/-- A graph in CSR form: the rows follow each other, and the neighbours are vertices. The numbers
fit a `uint64_t`. -/
structure Graph.Csr (g : Graph) : Prop where
  count : g.nVerticies < 2 ^ 64
  rows : ∀ u ∈ g.vertexSet, g.verticies u ≤ g.rowEnd u
  edges : ∀ u ∈ g.vertexSet, g.rowEnd u ≤ g.nEdges
  neighbors : ∀ j < g.nEdges, g.neighbors j ∈ g.vertexSet

theorem getNeighbors_eq {g : Graph} (hg : g.Csr) {u : ℕ} (hu : u ∈ g.vertexSet) :
    getNeighbors g u = (g.rowEnd u - g.verticies u, g.verticies u) := by
  have hrow := hg.rows u hu
  unfold getNeighbors
  unfold Graph.rowEnd at hrow ⊢
  by_cases h : u = g.nVerticies
  · simp only [if_pos h] at hrow ⊢
    rw [usub_of_le hrow]
  · simp only [if_neg h] at hrow ⊢
    rw [usub_of_le hrow]

end Bfs
