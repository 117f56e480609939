import SemanticRelaxation.Prog.Concurrent
import SemanticRelaxation.Support.Deques
import SemanticRelaxation.Support.Words

/-!
# The windows of the 2Dd-deque (`src/2Dd-deque/2Dd-window_maged.c`)

An array of deques with two ends each. Puts and gets at each end have a window of their own: a call
may count up the counter of a deque, which is kept in its anchor, only below the maximum of the
window. What the source has once for `left` and once for `right` is written once, for an end `d`.

A thread keeps a map of the counters that it has found at the maximum, and skips these deques while
the window does not move. The maps are arrays of `int`, into which the 64-bit counters are cut off,
and an entry is compared with the 64-bit maximum, for which its sign is extended.
-/

namespace TwoDdDeque

open AtomicProg Deques Words

/-- `width`, `depth` and `num_threads`, as `create_deque` leaves them. -/
structure Params where
  width : ℕ
  depth : ℕ
  numThreads : ℕ
  width_pos : 0 < width
  depth_pos : 0 < depth

/-- The parameters that `create_deque` computes. The given `depth` is overwritten. -/
def createParams (relaxationBound width numThreads : ℕ) : Params where
  depth := max (max relaxationBound 1 / (3 * (max width 2 - 1))) 1
  width := max (max relaxationBound 1 / (3 * max
    (max relaxationBound 1 / (3 * (max width 2 - 1))) 1) + 1) 1
  numThreads
  width_pos := Nat.lt_of_lt_of_le Nat.one_pos (Nat.le_max_right _ _)
  depth_pos := Nat.lt_of_lt_of_le Nat.one_pos (Nat.le_max_right _ _)

/-- `state` of an anchor: `STATE_STABLE`, and `STATE_LPUSH` and `STATE_RPUSH`. -/
inductive AnchorState
  | stable
  | push (d : Side)
  deriving DecidableEq

/-- `anchor_t`: `left` and `right` are `ends`; `GL_count` and `GR_count` are `getCount`, `PL_count`
and `PR_count` are `putCount`. -/
structure Anchor where
  state : AnchorState
  ends : Side → Option ℕ
  getCount : Side → ℕ
  putCount : Side → ℕ

/-- The anchor of `create_anchor`. -/
def Anchor.zero : Anchor := ⟨.stable, fun _ => none, fun _ => 0, fun _ => 0⟩

/-- The memory. `link d` is the pointer of a node towards the end `d`. -/
structure Memory where
  putMax : Side → ℕ
  getMax : Side → ℕ
  anchor : ℕ → ℕ
  anchors : ℕ → Anchor
  freshAnchor : ℕ
  link : Side → ℕ → Option ℕ
  val : ℕ → ℤ
  fresh : ℕ
  /-- The anchors that have been passed to `ssmem_free`. -/
  freed : List ℕ
  /-- The pushes and pops, in the order of their exchanges of anchors. -/
  hist : List Event
  /-- A push has lost the exchange of a link while its anchor was in place. -/
  lost : Bool
  /-- The anchors that have been in place. -/
  used : ℕ → Bool
  /-- The call that has to free an anchor. -/
  duty : ℕ → Option ℕ
  /-- The call that allocated an anchor, and the call that allocated a node. -/
  maker : ℕ → ℕ
  pusher : ℕ → ℕ
  /-- The nodes that have been pushed are numbered. -/
  clock : ℕ
  rank : ℕ → ℕ
  /-- The deque that a node was pushed to, and the node that it was pushed next to. -/
  place : ℕ → ℕ
  base : ℕ → Option (Side × ℕ)

/-- The empty deques. The anchors below `width` are those of `create_deque`. -/
def initial (set : Params) : Memory where
  putMax _ := set.depth
  getMax _ := set.depth
  anchor i := i
  anchors _ := .zero
  freshAnchor := set.width
  link _ _ := none
  val _ := 0
  fresh := 0
  freed := []
  hist := []
  lost := false
  used a := decide (a < set.width)
  duty _ := none
  maker _ := 0
  pusher _ := 0
  clock := 0
  rank _ := 0
  place _ := 0
  base _ := none

/-- The thread-local variables, for the windows of both ends. `PLMap_array` and `PRMap_array` are
`putMap`, and `GLMap_array` and `GRMap_array` are `getMap`, with an `int` for each deque. -/
structure Local where
  threadIndex : ℕ
  notempty : Bool
  putWindow : Side → ℕ
  getWindow : Side → ℕ
  putMap : Side → ℕ → ℤ
  getMap : Side → ℕ → ℤ
  putFull : Side → ℕ
  getFull : Side → ℕ

/-- `register_deque`, by a thread with any id. -/
def registerDeque (set : Params) : Prog Memory Local := do
  let threadId ← Prog.choose
  return {
    threadIndex := threadId % set.numThreads * (set.width / set.numThreads)
    notempty := false
    putWindow _ := set.depth
    getWindow _ := set.depth
    putMap _ _ := 0
    getMap _ _ := 0
    putFull _ := 0
    getFull _ := 0 }

/-- The variables of the search loops. -/
structure Search where
  tl : Local
  hops : ℕ
  random : ℕ
  anchorPtr : Option ℕ

/-- `random_index`. -/
def randomIndex (set : Params) : Prog Memory ℕ := do
  let r ← Prog.choose
  return r % set.width

/-- A change of `thread_index`: at first to random indices, then to the next one. -/
def changeIndex (set : Params) (st : Search) : Prog Memory Search :=
  if st.random < 2 then do
    let threadIndex ← randomIndex set
    return { st with tl := { st.tl with threadIndex }, random := st.random + 1 }
  else
    return { st with
      tl := { st.tl with
        threadIndex := if st.tl.threadIndex = set.width - 1 then 0 else st.tl.threadIndex + 1 }
      hops := st.hops + 1 }

namespace Local

/-- The thread has a new put window. -/
def setPut (tl : Local) (d : Side) (max : ℕ) : Local :=
  { tl with
    putWindow := Function.update tl.putWindow d max
    putFull := Function.update tl.putFull d 0 }

/-- The thread has a new get window. -/
def setGet (tl : Local) (d : Side) (max : ℕ) : Local :=
  { tl with
    getWindow := Function.update tl.getWindow d max
    getFull := Function.update tl.getFull d 0
    notempty := false }

/-- The thread has found the deque of its index at the maximum. -/
def markPut (tl : Local) (d : Side) (count : ℕ) : Local :=
  { tl with
    putFull := Function.update tl.putFull d (tl.putFull d + 1)
    putMap := Function.update tl.putMap d (Function.update (tl.putMap d) tl.threadIndex
      (toInt count)) }

def markGet (tl : Local) (d : Side) (count : ℕ) : Local :=
  { tl with
    getFull := Function.update tl.getFull d (tl.getFull d + 1)
    getMap := Function.update tl.getMap d (Function.update (tl.getMap d) tl.threadIndex
      (toInt count)) }

end Local

/-- The attempt to shift a window by `depth`, if the thread's window is still the global one. -/
def tryShift (set : Params) (window : Memory → ℕ) (store : ℕ → Memory → Memory) (old : ℕ) :
    Prog Memory Unit := do
  let max ← Prog.read window
  if old = max then
    let _ ← Prog.cae window store old (old + set.depth)
    return ()
  else return ()

/-! ### `put_left_window` and `put_right_window` -/

/-- `if(thread_Window->max != global_Window->max)` at the start. -/
def putSync (d : Side) (tl : Local) : Prog Memory Local := do
  let max ← Prog.read fun s : Memory => s.putMax d
  if tl.putWindow d ≠ max then
    let max ← Prog.read fun s : Memory => s.putMax d
    return tl.setPut d max
  else return tl

/-- The shift of the window. -/
def putShift (set : Params) (d : Side) (st : Search) : Prog Memory Search :=
  if st.hops = set.width ∨ st.tl.putFull d = set.width then do
    let () ← tryShift set (fun s => s.putMax d)
      (fun m s => { s with putMax := Function.update s.putMax d m })
      (st.tl.putWindow d)
    let max ← Prog.read fun s : Memory => s.putMax d
    return { st with tl := st.tl.setPut d max, hops := 0 }
  else return st

/-- The look at one deque. -/
def putProbe (d : Side) (st : Search) : Prog Memory (Search ⊕ (Local × ℕ)) :=
  if extend (st.tl.putMap d st.tl.threadIndex) < st.tl.putWindow d then do
    let anchor ← Prog.read fun s : Memory => s.anchor st.tl.threadIndex
    let count ← Prog.read fun s : Memory => (s.anchors anchor).putCount d
    let max ← Prog.read fun s : Memory => s.putMax d
    if count < max then return .inr (st.tl, anchor)
    else return .inl { st with tl := st.tl.markPut d count, anchorPtr := some anchor }
  else return .inl st

/-- The hop, or the switch to the current window. -/
def putHop (set : Params) (d : Side) (st : Search) : Prog Memory Search := do
  let max ← Prog.read fun s : Memory => s.putMax d
  if st.tl.putWindow d = max then changeIndex set st
  else
    let max ← Prog.read fun s : Memory => s.putMax d
    return { st with tl := st.tl.setPut d max, hops := 0 }

/-- One round of the loop. -/
def putRound (set : Params) (d : Side) (st : Search) : Prog Memory (Search ⊕ (Local × ℕ)) := do
  let st ← putShift set d st
  let found ← putProbe d st
  match found with
  | .inr x => return .inr x
  | .inl st =>
    let st ← putHop set d st
    return .inl st

/-- `put_left_window` and `put_right_window`: the thread-local variables and `anchor_ptr`. -/
def putWindow (set : Params) (d : Side) (tl : Local) : Prog Memory (Local × ℕ) := do
  let tl ← putSync d tl
  Prog.forever (putRound set d) ⟨tl, 0, 0, none⟩

/-! ### `get_left_window` and `get_right_window` -/

def getSync (d : Side) (tl : Local) : Prog Memory Local := do
  let max ← Prog.read fun s : Memory => s.getMax d
  if tl.getWindow d ≠ max then
    let max ← Prog.read fun s : Memory => s.getMax d
    return tl.setGet d max
  else return tl

/-- The shift of the window, or `none` if the search has found no item. -/
def getShift (set : Params) (d : Side) (st : Search) : Prog Memory (Option Search) :=
  if st.hops = set.width ∨ st.tl.getFull d = set.width then
    if st.tl.notempty = false then return none
    else do
      let () ← tryShift set (fun s => s.getMax d)
        (fun m s => { s with getMax := Function.update s.getMax d m })
        (st.tl.getWindow d)
      let max ← Prog.read fun s : Memory => s.getMax d
      return some { st with tl := st.tl.setGet d max, hops := 0 }
  else return some st

def getProbe (d : Side) (st : Search) : Prog Memory (Search ⊕ (Local × ℕ)) :=
  if extend (st.tl.getMap d st.tl.threadIndex) < st.tl.getWindow d then do
    let anchor ← Prog.read fun s : Memory => s.anchor st.tl.threadIndex
    let count ← Prog.read fun s : Memory => (s.anchors anchor).getCount d
    let max ← Prog.read fun s : Memory => s.getMax d
    if count < max then
      let node ← Prog.read fun s : Memory => (s.anchors anchor).ends d
      if node ≠ none then return .inr (st.tl, anchor)
      else return .inl { st with anchorPtr := some anchor }
    else return .inl { st with tl := st.tl.markGet d count, anchorPtr := some anchor }
  else return .inl st

/-- `if(anchor_ptr!=NULL&&anchor_ptr->left!=NULL) notempty=1;`. -/
def noteItem (d : Side) (st : Search) : Prog Memory Search :=
  match st.anchorPtr with
  | none => return st
  | some anchor => do
    let node ← Prog.read fun s : Memory => (s.anchors anchor).ends d
    return if node ≠ none then { st with tl := { st.tl with notempty := true } } else st

def getHop (set : Params) (d : Side) (st : Search) : Prog Memory Search := do
  let max ← Prog.read fun s : Memory => s.getMax d
  if st.tl.getWindow d = max then
    let st ← changeIndex set st
    noteItem d st
  else
    let max ← Prog.read fun s : Memory => s.getMax d
    return { st with tl := st.tl.setGet d max, hops := 0 }

def getRound (set : Params) (d : Side) (st : Search) :
    Prog Memory (Search ⊕ (Local × Option ℕ)) := do
  let shifted ← getShift set d st
  match shifted with
  | none => return .inr (st.tl, none)
  | some st =>
    let found ← getProbe d st
    match found with
    | .inr (tl, anchor) => return .inr (tl, some anchor)
    | .inl st =>
      let st ← getHop set d st
      return .inl st

/-- `get_left_window` and `get_right_window`: the thread-local variables, and `anchor_ptr` or `none`
for `empty_check == 1`. -/
def getWindow (set : Params) (d : Side) (tl : Local) : Prog Memory (Local × Option ℕ) := do
  let tl ← getSync d tl
  Prog.forever (getRound set d) ⟨tl, 0, 0, none⟩

end TwoDdDeque
