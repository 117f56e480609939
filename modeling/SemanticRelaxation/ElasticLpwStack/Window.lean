import SemanticRelaxation.ElasticLpwStack.Lateral
import SemanticRelaxation.TwoD.Hop

/-!
# The elastic LpW stack: the window (`src/2Dc-stack_elastic-lpw/2Dc-window_elastic.c`)

`putWindow` finds a sub-stack below the top of the window, `getWindow` one above its bottom. When a
whole round has found none the window is shifted, by half the depth that `set->depth` asks for, and
takes over the current depth and width of the set. The pops keep the old width of the pushes and all
wider records of the lateral stack that reach above the new bottom (`shiftWidth`).

A window is copied in one atomic load, a descriptor in two. Rows are `uint32_t`, the other fields
`uint16_t`.
-/

namespace ElasticLpwStack

open AtomicProg

/-- `width_t` for the hops, `uint8_t` for the random hops. -/
def types : TwoD.Types := ⟨16, 8, 16⟩

/-- The thread-local window and indices. -/
structure Local where
  window : Window
  putIndex : ℕ
  getIndex : ℕ

/-- The thread-local variables before the first call of a thread: static storage, all zero. -/
def Local.zero : Local := ⟨⟨0, 0, 0, 0, 0, 0, 0⟩, 0, 0⟩

/-- `random_index`; a division by zero ends the program. -/
def randomIndex (width : ℕ) : Prog State ℕ := do
  assert (width ≠ 0)
  TwoD.randomIndex types width

/-- `hop`. -/
def hop (set : Params) (index random hops width : ℕ) : Prog State (ℕ × ℕ × ℕ) :=
  TwoD.hop types set.randomHops width index random hops

/-- `sync_index`, whose parameters are `width_t`. -/
def syncIndex (width index : ℕ) : ℕ := if index % 2 ^ 16 < width then index % 2 ^ 16 else 0

/-- `read_window`. -/
def readWindow : Prog State Window := Prog.read State.globalWindow

/-- `set->set_array[idx].descriptor`: two loads. -/
def readDescriptor (idx : ℕ) : Prog State Descriptor := do
  let node ← Prog.read fun s => (s.setArray idx).node
  let count ← Prog.read fun s => (s.setArray idx).count
  return ⟨node, count⟩

/-- The load of `global_Window.content.version`. -/
def readVersion : Prog State ℕ := Prog.read fun s => s.globalWindow.version

/-- `put_shift_max`. -/
def putShiftMax (oldMax newDepth : ℕ) : ℕ :=
  let newMax := (oldMax + (newDepth + 1) / 2) % 2 ^ 32
  if newMax < newDepth then newDepth else newMax

/-- `get_shift_max`. -/
def getShiftMax (oldMax newDepth oldDepth : ℕ) : ℕ :=
  let shift := (newDepth + 1) / 2
  if oldDepth = newDepth then
    if shift + newDepth ≤ oldMax then oldMax - shift else newDepth
  else
    if oldDepth + shift ≤ oldMax then oldMax - oldDepth - shift + newDepth else newDepth

/-- The shift of the thread's window `w` to the maximum `newMax depth`: the thread's window
afterwards. The field `last_shift` of the new window is not initialised. -/
def shiftWindow (w : Window) (newMax : ℕ → ℕ) : Prog State Window := do
  synchronizeLateral w
  let putWidth ← Prog.read State.width
  let depth ← Prog.read State.depth
  let lateral ← Prog.read State.lateral
  let lastShift ← Prog.choose
  let max := newMax depth
  let getWidth := shiftWidth lateral (Words.usub 32 max depth) w.putWidth putWidth
  let new : Window := ⟨max, depth, getWidth, putWidth, w.putWidth, (w.version + 1) % 2 ^ 16,
    lastShift % 2 ^ 16⟩
  assert (depth ≤ max)
  let version ← readVersion
  if w.version = version then
    let (done, _) ← Prog.cae State.globalWindow
      (fun w s => { s with globalWindow := w, shifts := s.shifts + 1 }) w new
    if done then return new else readWindow
  else
    return w

/-- The variables of the search loops; `put_window` has no `empty`. -/
structure Search where
  tl : Local
  hops : ℕ
  random : ℕ
  empty : Bool

/-! ### `put_window` -/

/-- The thread-local variables with a window that was just loaded. -/
def Local.syncPut (tl : Local) (window : Window) : Local :=
  { tl with window, putIndex := syncIndex window.putWidth tl.putIndex }

/-- The first synchronisation of `put_window`. -/
def syncPutWindow (tl : Local) : Prog State Local := do
  let version ← readVersion
  if tl.window.version ≠ version then
    let window ← readWindow
    return tl.syncPut window
  else
    return tl

/-- The lines before the loop of `put_window`. -/
def enterPut (contention : Bool) (tl : Local) : Prog State Local := do
  let tl ← syncPutWindow tl
  if contention ∨ tl.window.putWidth ≤ tl.putIndex then
    let putIndex ← randomIndex tl.window.putWidth
    return { tl with putIndex }
  else
    return tl

/-- One round of the loop of `put_window`. -/
def putRound (set : Params) (st : Search) : Prog State (Search ⊕ (Descriptor × Local)) := do
  let tl := st.tl
  let descriptor ← readDescriptor tl.putIndex
  let version ← readVersion
  if version ≠ tl.window.version then
    let window ← readWindow
    return .inl { st with hops := 0, tl := tl.syncPut window }
  else if descriptor.count < tl.window.max then
    -- only if the get index is not outside the put width
    return .inr (descriptor, { tl with
      getIndex := if tl.getIndex < tl.window.putWidth then tl.putIndex else tl.getIndex })
  else if st.hops ≠ tl.window.putWidth then
    let (putIndex, random, hops) ← hop set tl.putIndex st.random st.hops tl.window.putWidth
    return .inl { st with tl := { tl with putIndex }, hops, random }
  else
    let window ← shiftWindow tl.window (putShiftMax tl.window.max)
    return .inl { st with hops := 0, tl := tl.syncPut window }

/-- `put_window`. -/
def putWindow (set : Params) (contention : Bool) (tl : Local) :
    Prog State (Descriptor × Local) := do
  let tl ← enterPut contention tl
  Prog.forever (putRound set) ⟨tl, 0, 0, true⟩

/-! ### `get_window` -/

/-- The thread-local variables with a window that was just loaded. -/
def Local.syncGet (tl : Local) (window : Window) : Local :=
  { tl with window, getIndex := syncIndex window.getWidth tl.getIndex }

/-- The first synchronisation of `get_window`. -/
def syncGetWindow (tl : Local) : Prog State Local := do
  let version ← readVersion
  if tl.window.version ≠ version then
    let window ← readWindow
    return tl.syncGet window
  else
    return tl

/-- The lines before the loop of `get_window`. -/
def enterGet (contention : Bool) (tl : Local) : Prog State Local := do
  let tl ← syncGetWindow tl
  if contention ∨ tl.window.getWidth ≤ tl.getIndex then
    let getIndex ← randomIndex tl.window.getWidth
    return { tl with getIndex }
  else
    return tl

/-- One round of the loop of `get_window`. -/
def getRound (set : Params) (st : Search) : Prog State (Search ⊕ (Descriptor × Local)) := do
  let tl := st.tl
  let descriptor ← readDescriptor tl.getIndex
  let version ← readVersion
  if version ≠ tl.window.version then
    let window ← readWindow
    return .inl { st with hops := 0, empty := true, tl := tl.syncGet window }
  else if tl.window.bottom < descriptor.count then
    return .inr (descriptor, tl)
  else if st.hops ≠ tl.window.getWidth then
    let empty := if 0 < descriptor.count then false else st.empty
    let (getIndex, random, hops) ← hop set tl.getIndex st.random st.hops tl.window.getWidth
    return .inl ⟨{ tl with getIndex }, hops, random, empty⟩
  else if st.empty then
    return .inr (descriptor, tl)
  else
    let window ← shiftWindow tl.window
      (fun depth => getShiftMax tl.window.max depth tl.window.depth)
    return .inl { st with hops := 0, empty := true, tl := tl.syncGet window }

/-- `get_window`. -/
def getWindow (set : Params) (contention : Bool) (tl : Local) :
    Prog State (Descriptor × Local) := do
  let tl ← enterGet contention tl
  let (descriptor, tl) ← Prog.forever (getRound set) ⟨tl, 0, 0, true⟩
  -- only if the put index can be brought to the get index
  return (descriptor, { tl with
    putIndex := if tl.getIndex < tl.window.putWidth then tl.getIndex else tl.putIndex })

end ElasticLpwStack
