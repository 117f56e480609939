import SemanticRelaxation.TwoDdDeque.Window

/-!
# The 2Dd-deque (`src/2Dd-deque/2Dd-deque.c`)

Each deque of the array is a list that is linked in both directions, and an anchor with the pointers
to its ends. A push at the end of a list leaves its anchor in an unstable state: the node that was
the last one does not yet point to the new one. Any thread may set this pointer and the stable
anchor after it.

The anchors are freed if the source is built with `GC == 1`; what is freed is not handed out again.
The anchors that are in place do not change, so that the loads of their fields are one load here.
-/

namespace TwoDdDeque

open AtomicProg Deques

namespace Memory

variable (s : Memory)

/-- The call `c` allocates a node. -/
def create (c : Caller) (val : ℤ) : Memory :=
  { s with
    val := Function.update s.val s.fresh val
    link := fun d => Function.update (s.link d) s.fresh none
    pusher := Function.update s.pusher s.fresh c.op
    rank := Function.update s.rank s.fresh 0
    base := Function.update s.base s.fresh none
    fresh := s.fresh + 1 }

/-- The call `c` allocates an anchor. -/
def createAnchor (c : Caller) : Memory :=
  { s with
    anchors := Function.update s.anchors s.freshAnchor .zero
    maker := Function.update s.maker s.freshAnchor c.op
    duty := Function.update s.duty s.freshAnchor (some c.op)
    used := Function.update s.used s.freshAnchor false
    freshAnchor := s.freshAnchor + 1 }

/-- The stores to a new anchor. -/
def writeAnchor (a : ℕ) (x : Anchor) : Memory := { s with anchors := Function.update s.anchors a x }

/-- A store to a link. -/
def setLink (d : Side) (n : ℕ) (m : Option ℕ) : Memory :=
  { s with link := Function.update s.link d (Function.update (s.link d) n m) }

/-- An anchor is put in place. -/
def putAnchor (i new : ℕ) : Memory :=
  { s with anchor := Function.update s.anchor i new, used := Function.update s.used new true }

/-- The exchange of anchors that pushes `node` to the end `d` of the deque `i`, next to `base`. -/
def push (c : Caller) (d : Side) (i new node : ℕ) (base : Option ℕ) : Memory :=
  { s.putAnchor i new with
    hist := s.hist ++ [.push d c.op i node]
    clock := s.clock + 1
    rank := Function.update s.rank node (s.clock + 1)
    place := Function.update s.place node i
    base := Function.update s.base node (base.map fun m => (d, m)) }

/-- The exchange that takes `node` off the end `d` of the deque `i`. -/
def pop (c : Caller) (d : Side) (i new node : ℕ) : Memory :=
  { s.putAnchor i new with hist := s.hist ++ [.pop d c.op i node] }

/-- The call `op` is done with the new anchor `new`, and has to free the old one. -/
def handOver (op old new : ℕ) : Memory :=
  { s with duty := Function.update (Function.update s.duty new none) old (some op) }

/-- The exchange for a stable anchor. -/
def swing (i new : ℕ) : Memory := { s.putAnchor i new with duty := Function.update s.duty new none }

/-- `ssmem_free(alloc2, anchor)`. -/
def freeAnchor (a : ℕ) :
    Memory := { s with freed := s.freed ++ [a], duty := Function.update s.duty a none }

end Memory

/-- `create_node`. -/
def createNode (c : Caller) (val : ℤ) :
    Prog Memory ℕ := Prog.update fun s => (s.fresh, s.create c val)

/-- `create_anchor`. -/
def createAnchor (c : Caller) :
    Prog Memory ℕ := Prog.update fun s => (s.freshAnchor, s.createAnchor c)

/-- `ssmem_free(alloc2, anchor)`. -/
def freeAnchor (a : ℕ) : Prog Memory Unit := Prog.update fun s => ((), s.freeAnchor a)

/-- `*nextAnchor=*anchor`, with the changes to the copy. -/
def writeAnchor (a : ℕ) (x : Anchor) :
    Prog Memory Unit := Prog.update fun s => ((), s.writeAnchor a x)

/-- What follows an access through a `NULL` pointer. -/
def undefined {α : Type} : Prog Memory α := Prog.forever (fun _ : Unit => return .inl ()) ()

/-- `deque->anchor!=anchor`, or not. -/
def inPlace (i anchor : ℕ) : Prog Memory Bool := do
  let now ← Prog.read fun s : Memory => s.anchor i
  return now = anchor

/-! ### `stabilize_left` and `stabilize_right` -/

/-- The exchange of the missing link. `own` marks that of the push itself. -/
def linkCas (own : Bool) (d : Side) (i anchor prev : ℕ) (prevnext : Option ℕ) (node : ℕ) :
    Prog Memory Bool :=
  Prog.update fun s =>
    if s.link d prev = prevnext then (true, s.setLink d prev (some node))
    else (false, if own ∧ s.anchor i = anchor then { s with lost := true } else s)

/-- The missing link: `false` if the source returns. -/
def repair (own : Bool) (d : Side) (i anchor prev node : ℕ) : Prog Memory Bool := do
  let prevnext ← Prog.read fun s : Memory => s.link d prev
  if prevnext ≠ some node then
    let same ← inPlace i anchor
    if same then linkCas own d i anchor prev prevnext node else return false
  else return true

/-- `CAS_BOOL(&deque->anchor,anchor,nextAnchor)` for the stable anchor. -/
def swingCas (i anchor nextAnchor : ℕ) : Prog Memory Bool := do
  let (done, _) ← Prog.cae (fun s : Memory => s.anchor i)
    (fun new s => s.swing i new) anchor nextAnchor
  return done

/-- The stable anchor. -/
def settle (c : Caller) (i anchor : ℕ) (a : Anchor) : Prog Memory Unit := do
  let nextAnchor ← createAnchor c
  let () ← writeAnchor nextAnchor { a with state := .stable }
  let done ← swingCas i anchor nextAnchor
  if done then return () else freeAnchor nextAnchor

/-- `stabilize_left` and `stabilize_right`. -/
def stabilizeAt (c : Caller) (own : Bool) (d : Side) (i anchor : ℕ) : Prog Memory Unit := do
  let same ← inPlace i anchor
  if same then
    let a ← Prog.read fun s : Memory => s.anchors anchor
    match a.ends d with
    | none => undefined
    | some node =>
      let prev ← Prog.read fun s : Memory => s.link d.other node
      let same ← inPlace i anchor
      if same then
        match prev with
        | none => undefined
        | some prev =>
          let linked ← repair own d i anchor prev node
          if linked then settle c i anchor a else return ()
      else return ()
  else return ()

/-- `stabilize`. -/
def stabilize (c : Caller) (i anchor : ℕ) : Prog Memory Unit := do
  let state ← Prog.read fun s : Memory => (s.anchors anchor).state
  if state = .push .right then stabilizeAt c false .right i anchor
    else stabilizeAt c false .left i anchor

/-! ### `push_left` and `push_right` -/

/-- `if(nextAnchor==NULL)nextAnchor=create_anchor();`. -/
def nextAnchorOf (c : Caller) : Option ℕ → Prog Memory ℕ
  | none => createAnchor c
  | some a => return a

/-- One round of the loop around the window: the index of the deque and its anchor. -/
def findPutRound (set : Params) (d : Side) (tl : Local) : Prog Memory (Local ⊕ (Local × ℕ)) := do
  let (tl, anchor) ← putWindow set d tl
  let same ← inPlace tl.threadIndex anchor
  return if same then .inr (tl, anchor) else .inl tl

/-- The exchange of anchors of a push to an empty deque. -/
def pushFirstCas (c : Caller) (d : Side) (i anchor nextAnchor node : ℕ) : Prog Memory Bool := do
  let (done, _) ← Prog.cae (fun s : Memory => s.anchor i)
    (fun new s => (s.push c d i new node none).handOver c.op anchor new) anchor nextAnchor
  return done

/-- The exchange of anchors of a push next to `base`. -/
def pushNextCas (c : Caller) (d : Side) (i anchor nextAnchor node : ℕ) (base : Option ℕ) :
    Prog Memory Bool := do
  let (done, _) ← Prog.cae (fun s : Memory => s.anchor i)
    (fun new s => s.push c d i new node base) anchor nextAnchor
  return done

/-- The anchor of a push to an empty deque. -/
def Anchor.first (a : Anchor) (d : Side) (node : ℕ) : Anchor :=
  { a with putCount := Function.update a.putCount d (a.putCount d + 1), ends := fun _ => some node }

/-- The anchor of a push next to others. -/
def Anchor.next (a : Anchor) (d : Side) (node : ℕ) : Anchor :=
  { a with
    putCount := Function.update a.putCount d (a.putCount d + 1)
    ends := Function.update a.ends d (some node)
    state := .push d }

/-- The part of a round of the loop of a push that follows the search: the anchor to be freed, if it
is done. -/
def pushAt (c : Caller) (d : Side) (node i anchor nextAnchor : ℕ) : Prog Memory (Option ℕ) := do
  let a ← Prog.read fun s : Memory => s.anchors anchor
  if a.ends d = none then
    let () ← writeAnchor nextAnchor (a.first d node)
    let done ← pushFirstCas c d i anchor nextAnchor node
    return if done then some anchor else none
  else if a.state = .stable then
    let () ← Prog.update fun s : Memory => ((), s.setLink d.other node (a.ends d))
    let () ← writeAnchor nextAnchor (a.next d node)
    let done ← pushNextCas c d i anchor nextAnchor node (a.ends d)
    if done then
      let () ← stabilizeAt c true d i nextAnchor
      return some nextAnchor
    else return none
  else
    let () ← stabilize c i anchor
    return none

/-- One round of the loop of a push. -/
def pushRound (set : Params) (c : Caller) (d : Side) (node : ℕ) (x : Local × Option ℕ) :
    Prog Memory ((Local × Option ℕ) ⊕ Local) := do
  let nextAnchor ← nextAnchorOf c x.2
  let (tl, anchor) ← Prog.forever (findPutRound set d) x.1
  let done ← pushAt c d node tl.threadIndex anchor nextAnchor
  match done with
  | none => return .inl (tl, some nextAnchor)
  | some old =>
    let () ← freeAnchor old
    return .inr tl

/-- `push_left` and `push_right`. -/
def push (set : Params) (c : Caller) (d : Side) (value : ℤ) (tl : Local) :
    Prog Memory (Local × Option ℤ) := do
  let node ← createNode c value
  let tl ← Prog.forever (pushRound set c d node) (tl, none)
  return (tl, some 1)

/-- `push_left`. -/
abbrev pushLeft (set : Params) (c : Caller) := push set c .left

/-- `push_right`. -/
abbrev pushRight (set : Params) (c : Caller) := push set c .right

/-! ### `pop_left` and `pop_right` -/

/-- One round of the loop around the window: the index of the deque and its anchor, or nothing if
the search has reported that there is no item. -/
def findGetRound (set : Params) (d : Side) (tl : Local) :
    Prog Memory (Local ⊕ (Local × Option ℕ)) := do
  let (tl, found) ← getWindow set d tl
  match found with
  | none => return .inr (tl, none)
  | some anchor =>
    let same ← inPlace tl.threadIndex anchor
    return if same then .inr (tl, some anchor) else .inl tl

/-- The exchange of anchors of a pop. -/
def popCas (c : Caller) (d : Side) (i anchor nextAnchor node : ℕ) : Prog Memory Bool := do
  let (done, _) ← Prog.cae (fun s : Memory => s.anchor i)
    (fun new s => (s.pop c d i new node).handOver c.op anchor new) anchor nextAnchor
  return done

/-- The anchor after the last node has been taken. -/
def Anchor.last (a : Anchor) (d : Side) : Anchor :=
  { a with getCount := Function.update a.getCount d (a.getCount d + 1), ends := fun _ => none }

/-- The anchor after one node of several has been taken. -/
def Anchor.less (a : Anchor) (d : Side) (prev : Option ℕ) : Anchor :=
  { a with
    getCount := Function.update a.getCount d (a.getCount d + 1)
    ends := Function.update a.ends d prev }

/-- The part of a round of the loop of a pop that follows the search: the node, if it has been
taken. -/
def popAt (c : Caller) (d : Side) (i anchor nextAnchor : ℕ) : Prog Memory (Option ℕ) := do
  let a ← Prog.read fun s : Memory => s.anchors anchor
  match a.ends d with
  | none => undefined
  | some node =>
    if a.ends .right = a.ends .left then
      let () ← writeAnchor nextAnchor (a.last d)
      let done ← popCas c d i anchor nextAnchor node
      return if done then some node else none
    else if a.state = .stable then
      let same ← inPlace i anchor
      if same then
        let prev ← Prog.read fun s : Memory => s.link d.other node
        let () ← writeAnchor nextAnchor (a.less d prev)
        let done ← popCas c d i anchor nextAnchor node
        return if done then some node else none
      else return none
    else
      let () ← stabilize c i anchor
      return none

/-- One round of the loop of a pop. -/
def popRound (set : Params) (c : Caller) (d : Side) (x : Local × Option ℕ) :
    Prog Memory ((Local × Option ℕ) ⊕ (Local × Option ℤ)) := do
  let nextAnchor ← nextAnchorOf c x.2
  let (tl, found) ← Prog.forever (findGetRound set d) x.1
  match found with
  | none => return .inr (tl, none)
  | some anchor =>
    let taken ← popAt c d tl.threadIndex anchor nextAnchor
    match taken with
    | none => return .inl (tl, some nextAnchor)
    | some node =>
      let value ← Prog.read fun s : Memory => s.val node
      let () ← freeAnchor anchor
      return .inr (tl, some value)

/-- `pop_left` and `pop_right`: the value, or `none` for the answer `NULL`. -/
def pop (set : Params) (c : Caller) (d : Side) (tl : Local) : Prog Memory (Local × Option ℤ) :=
  Prog.forever (popRound set c d) (tl, none)

/-- `pop_left`. -/
abbrev popLeft (set : Params) (c : Caller) := pop set c .left

/-- `pop_right`. -/
abbrev popRight (set : Params) (c : Caller) := pop set c .right

/-- The calls on the deque. -/
inductive Call
  | push (d : Side) (value : ℤ)
  | pop (d : Side)
  deriving DecidableEq

/-- `register_deque`, before the first call of a thread. -/
def registered (set : Params) : Option Local → Prog Memory Local
  | none => registerDeque set
  | some tl => return tl

/-- The code of a call. -/
def code (set : Params) (c : Caller) (call : Call) (tl : Option Local) :
    Prog Memory (Option Local × Option ℤ) := do
  let tl ← registered set tl
  match call with
  | .push .left value =>
    let (tl, r) ← pushLeft set c value tl
    return (some tl, r)
  | .push .right value =>
    let (tl, r) ← pushRight set c value tl
    return (some tl, r)
  | .pop .left =>
    let (tl, r) ← popLeft set c tl
    return (some tl, r)
  | .pop .right =>
    let (tl, r) ← popRight set c tl
    return (some tl, r)

/-- The deque as a service. -/
abbrev dequeService (set : Params) : Service Memory (Option Local) where
  Call := Call
  Ret := Option ℤ
  code := code set

end TwoDdDeque
