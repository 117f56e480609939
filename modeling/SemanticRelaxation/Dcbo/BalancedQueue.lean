import SemanticRelaxation.Prog.Concurrent
import Mathlib.Algebra.Order.Ring.Int
import Mathlib.Tactic.Common

/-!
# The d-CBO queues (`d-balanced-queue.c`)

The file `d-balanced-queue.c` is the same in `src/dcbo-ms`, `src/dcbo-faaaq` and `src/dcbo-lcrq`;
the partial queue is bound by the macros of the included header, here by a `Partial`. An enqueue
goes to the least used of `d` sub-queues drawn at random, and so does a dequeue. A dequeue that
finds its sub-queue empty collects the versions of all tails and tries every sub-queue; it answers
`EMPTY` if no version has changed when it looks again.
-/

namespace Dcbo

open AtomicProg

/-- The macros `PARTIAL_ENQUEUE`, `PARTIAL_DEQUEUE`, `PARTIAL_TAIL_VERSION`, `PARTIAL_ENQ_COUNT` and
`PARTIAL_DEQ_COUNT`. A thread may keep a handle `H` between its calls. -/
structure Partial (σ H : Type) where
  enqueue : Caller → ℕ → ℤ → H → Prog σ (H × ℤ)
  dequeue : Caller → ℕ → Prog σ ℤ
  tailVersion : ℕ → Prog σ ℕ
  enqCount : ℕ → Prog σ ℕ
  deqCount : ℕ → Prog σ ℕ

/-- The fields of `mqueue_t`, both of type `uint32_t`. -/
structure Params where
  width : ℕ
  d : ℕ

/-- `EMPTY`. -/
def EMPTY : ℤ := 0

variable {σ H : Type}

/-- `random_index`. -/
def randomIndex (set : Params) : Prog σ ℕ := do
  let r ← Prog.choose
  return r % set.width

/-- The loop of both operations that draws `n` more sub-queues and keeps the one with the smallest
value of the heuristic. -/
def chooseIndex (set : Params) (heuristic : ℕ → Prog σ ℤ) : ℕ → ℕ → ℤ → Prog σ ℕ
  | 0, optIndex, _ => return optIndex
  | n + 1, optIndex, opt => do
    let index ← randomIndex set
    let indexVal ← heuristic index
    if indexVal < opt then chooseIndex set heuristic n index indexVal
    else chooseIndex set heuristic n optIndex opt

/-- `ENQ_HEURISTIC`, kept in a `uint64_t`. -/
def enqHeuristic (B : Partial σ H) (index : ℕ) : Prog σ ℤ := do
  let count ← B.enqCount index
  return (count : ℤ)

/-- `DEQ_HEURISTIC`, kept in an `int64_t`. -/
def deqHeuristic (B : Partial σ H) (index : ℕ) : Prog σ ℤ := do
  let count ← B.deqCount index
  return (count : ℤ).bmod (2 ^ 64)

/-- `enqueue`. -/
def enqueue (B : Partial σ H) (set : Params) (c : Caller) (val : ℤ) (handle : H) :
    Prog σ (H × ℤ) := do
  let optIndex ← randomIndex set
  let opt ← enqHeuristic B optIndex
  let optIndex ← chooseIndex set (enqHeuristic B) (set.d - 1) optIndex opt
  B.enqueue c optIndex val handle

/-- `(start_index + i) % set->width` in `uint32_t`. -/
def indexAt (set : Params) (startIndex i : ℕ) : ℕ := (startIndex + i) % 2 ^ 32 % set.width

/-- The version of the tail of one sub-queue, and an attempt to dequeue from it. -/
def collectOne (B : Partial σ H) (c : Caller) (index : ℕ) : Prog σ (ℕ × ℤ) := do
  let version ← B.tailVersion index
  let v ← B.dequeue c index
  return (version, v)

/-- The first loop of `double_collect` with `n` rounds left: the values of
`double_collect_counts`, or the value that was dequeued. -/
def collect (B : Partial σ H) (set : Params) (c : Caller) (startIndex : ℕ) :
    ℕ → ℕ → (ℕ → ℕ) → Prog σ ((ℕ → ℕ) ⊕ ℤ)
  | 0, _, counts => return .inl counts
  | n + 1, i, counts => do
    let index := indexAt set startIndex i
    let (version, v) ← collectOne B c index
    if v ≠ EMPTY then return .inr v
    else collect B set c startIndex n (i + 1) (Function.update counts index version)

/-- The second loop of `double_collect` with `n` rounds left: the first index whose version has
changed. -/
def recheck (B : Partial σ H) (set : Params) (startIndex : ℕ) (counts : ℕ → ℕ) :
    ℕ → ℕ → Prog σ (Option ℕ)
  | 0, _ => return none
  | n + 1, i => do
    let index := indexAt set startIndex i
    let version ← B.tailVersion index
    if counts index ≠ version then return some index
    else recheck B set startIndex counts n (i + 1)

/-- From the label `start` of `double_collect` to the next jump back to it. -/
def collectRound (B : Partial σ H) (set : Params) (c : Caller) (startIndex : ℕ) :
    Prog σ (ℕ ⊕ ℤ) := do
  match ← collect B set c startIndex set.width 0 fun _ => 0 with
  | .inr v => return .inr v
  | .inl counts =>
    match ← recheck B set startIndex counts set.width 0 with
    | some index => return .inl index
    | none => return .inr EMPTY

/-- `double_collect`. What `double_collect_counts` holds from earlier calls is never read. -/
def doubleCollect (B : Partial σ H) (set : Params) (c : Caller) (startIndex : ℕ) : Prog σ ℤ :=
  Prog.forever (collectRound B set c) startIndex

/-- `dequeue`. -/
def dequeue (B : Partial σ H) (set : Params) (c : Caller) : Prog σ ℤ := do
  let optIndex ← randomIndex set
  let opt ← deqHeuristic B optIndex
  let optIndex ← chooseIndex set (deqHeuristic B) (set.d - 1) optIndex opt
  let v ← B.dequeue c optIndex
  if v ≠ EMPTY then return v
  else doubleCollect B set c ((optIndex + 1) % 2 ^ 32)

/-- The calls of the interface. -/
inductive Call
  | enqueue (val : ℤ)
  | dequeue
  deriving DecidableEq

/-- The d-CBO queue as a service. -/
abbrev service (B : Partial σ H) (set : Params) : Service σ H where
  Call := Call
  Ret := ℤ
  code
    | c, .enqueue val, handle => enqueue B set c val handle
    | c, .dequeue, handle => do
      let v ← dequeue B set c
      return (handle, v)

end Dcbo
