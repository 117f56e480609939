import SemanticRelaxation.TwoD.Hop

/-!
# The decoupled windows (`include/2Dd-window.c`)

Puts and gets of the 2Dd structures have a window each. `putWindow` looks for a sub-structure whose
put count is below the maximum of the put window, `getWindow` for a non-empty one whose get count is
below the maximum of the get window. A window moves up by `depth` once a whole round has found
nothing; `getWindow` reports empty instead if that round has met no item.

The code is generic in the shared memory `X` of the data structure, through its two arrays of
descriptors (`Arrays`). All counters of the window code are `uint64_t` that only grow.
-/

namespace TwoDd

open AtomicProg

/-- The constant fields of the data structure that the window code reads. -/
structure Params where
  width : ℕ
  depth : ℕ
  randomHops : ℕ

/-- `set->put_array` and `set->get_array`, which may be the same array. A descriptor has two words;
`copy` takes the first word of one value and the second word of another. -/
class Arrays (X : Type) (D : outParam Type) where
  put : X → ℕ → D
  get : X → ℕ → D
  putCount : D → ℕ
  getCount : D → ℕ
  copy : D → D → D
  copy_self : ∀ d, copy d d = d

/-- The shared memory: the maxima of `global_PWindow` and `global_GWindow`, and the rest. -/
structure Shared (X : Type) where
  globalPWindow : ℕ
  globalGWindow : ℕ
  mem : X

/-- `thread_PWindow.max`, `thread_GWindow.max` and `thread_index`. -/
structure Local where
  pWindow : ℕ
  gWindow : ℕ
  index : ℕ

/-- The thread-local variables before the first call of a thread: static storage, all zero. -/
def Local.zero : Local := ⟨0, 0, 0⟩

variable {X D : Type}

/-- `uint64_t` counters; `random_index` takes a `uint32_t`. -/
def types : TwoD.Types := ⟨32, 64, 64⟩

/-- `random_index`. -/
def randomIndex (width : ℕ) : Prog (Shared X) ℕ := TwoD.randomIndex types width

/-- `hop`. -/
def hop (set : Params) (index random hops : ℕ) : Prog (Shared X) (ℕ × ℕ × ℕ) :=
  TwoD.hop types set.randomHops set.width index random hops

/-- A copy of a descriptor, which is not atomic: two loads. -/
def readDescriptor [Arrays X D] (array : X → ℕ → D) (index : ℕ) : Prog (Shared X) D := do
  let first ← Prog.read fun s => array s.mem index
  let second ← Prog.read fun s => array s.mem index
  return Arrays.copy X first second

/-- `if(contention == 1) thread_index = random_index(set->width);`. -/
def startIndex (set : Params) (contention : Bool) (index : ℕ) : Prog (Shared X) ℕ :=
  if contention then randomIndex set.width else return index

/-- `if(thread_Window.max != global_Window.content.max) thread_Window = global_Window.content;`
for one of the two windows. -/
def syncWindow (window : Shared X → ℕ) (old : ℕ) : Prog (Shared X) ℕ := do
  let max ← Prog.read window
  if old ≠ max then Prog.read window else return old

/-- The attempt to shift one of the two windows by `depth`, if the thread's copy is still current.
-/
def tryShift (window : Shared X → ℕ) (store : ℕ → Shared X → Shared X) (old new : ℕ) :
    Prog (Shared X) Unit := do
  let max ← Prog.read window
  if old = max then
    let _ ← Prog.cae window store old new
    return ()
  else
    return ()

/-- The shift branch of both loops; the result is the window that the thread holds afterwards. -/
def shiftWindow (window : Shared X → ℕ) (store : ℕ → Shared X → Shared X) (old new : ℕ) :
    Prog (Shared X) ℕ := do
  tryShift window store old new
  Prog.read window

/-- The variables of the search loops. -/
structure Search where
  tl : Local
  hops : ℕ
  random : ℕ
  /-- `notempty` of `get_window`. -/
  notempty : Bool

variable [Arrays X D]

/-- One round of the loop of `put_window`. -/
def putRound (set : Params) (st : Search) : Prog (Shared X) (Search ⊕ (D × Local)) := do
  let descriptor ← readDescriptor Arrays.put st.tl.index
  let readGlobalPWindow ← Prog.read Shared.globalPWindow
  if readGlobalPWindow ≠ st.tl.pWindow then
    return .inl { st with hops := 0, tl := { st.tl with pWindow := readGlobalPWindow } }
  else if Arrays.putCount X descriptor < readGlobalPWindow then
    return .inr (descriptor, st.tl)
  else if st.hops ≠ set.width then
    let (index, random, hops) ← hop set st.tl.index st.random st.hops
    return .inl { st with hops, random, tl := { st.tl with index } }
  else
    let pWindow ← shiftWindow Shared.globalPWindow (fun m s => { s with globalPWindow := m })
      st.tl.pWindow (st.tl.pWindow + set.depth)
    return .inl { st with hops := 0, tl := { st.tl with pWindow } }

/-- `put_window`. -/
def putWindow (set : Params) (contention : Bool) (tl : Local) : Prog (Shared X) (D × Local) := do
  let index ← startIndex set contention tl.index
  let pWindow ← syncWindow Shared.globalPWindow tl.pWindow
  Prog.forever (putRound set) ⟨{ tl with index, pWindow }, 0, 0, false⟩

/-- One round of the loop of `get_window`. -/
def getRound (set : Params) (st : Search) : Prog (Shared X) (Search ⊕ (D × Local)) := do
  let descriptor ← readDescriptor Arrays.get st.tl.index
  let putCount ← Prog.read fun s => Arrays.putCount X (Arrays.put s.mem st.tl.index)
  let readGlobalGWindow ← Prog.read Shared.globalGWindow
  if readGlobalGWindow ≠ st.tl.gWindow then
    return .inl { st with
      hops := 0, notempty := false, tl := { st.tl with gWindow := readGlobalGWindow } }
  else if Arrays.getCount X descriptor < readGlobalGWindow ∧
      putCount ≠ Arrays.getCount X descriptor then
    return .inr (descriptor, st.tl)
  else if st.hops ≠ set.width then
    let notempty := st.notempty || putCount ≠ Arrays.getCount X descriptor
    let (index, random, hops) ← hop set st.tl.index st.random st.hops
    return .inl ⟨{ st.tl with index }, hops, random, notempty⟩
  else if st.notempty then
    let gWindow ← shiftWindow Shared.globalGWindow (fun m s => { s with globalGWindow := m })
      st.tl.gWindow (st.tl.gWindow + set.depth)
    return .inl { st with hops := 0, notempty := false, tl := { st.tl with gWindow } }
  else
    return .inr (descriptor, st.tl)

/-- `get_window`. -/
def getWindow (set : Params) (contention : Bool) (tl : Local) : Prog (Shared X) (D × Local) := do
  let gWindow ← Prog.read Shared.globalGWindow
  let index ← startIndex set contention tl.index
  let gWindow ← syncWindow Shared.globalGWindow gWindow
  Prog.forever (getRound set) ⟨{ tl with index, gWindow }, 0, 0, false⟩

end TwoDd
