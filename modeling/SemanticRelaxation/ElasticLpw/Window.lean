import SemanticRelaxation.ElasticLpw.Lateral
import SemanticRelaxation.TwoD.Hop

/-!
# The elastic LpW queue: windows (`src/2Dd-queue_elastic-lpw/2Dd-window_elastic.c`)

`putWindow` finds a sub-queue whose put count is below the put window's maximum and shifts the
window up when a round found none. `getWindow` finds one whose get count is below the get window's
maximum and below its put count; where the get count does not exceed the bottom of the put window,
that bottom stands for the put count. It shifts the window up when a round found none but the queue
is not empty.

The two words of a window are loaded one after the other. The build without `DIFF_DEPTH` is
modelled, where both sides use `depth`.
-/

namespace ElasticLpw

open AtomicProg Linked

/-- `width_t` throughout. -/
def types : TwoD.Types := ⟨16, 16, 16⟩

/-- `random_index`. -/
def randomIndex (width : ℕ) : Prog State ℕ := TwoD.randomIndex types width

/-- `hop`. -/
def hop (set : Params) (index random hops width : ℕ) : Prog State (ℕ × ℕ × ℕ) :=
  TwoD.hop types set.randomHops width index random hops

/-- A copy of a descriptor, which is not atomic: two loads. -/
def readDescriptor (array : State → ℕ → Descriptor) (index : ℕ) : Prog State Descriptor := do
  let node ← Prog.read fun s => (array s index).node
  let count ← Prog.read fun s => (array s index).count
  return ⟨node, count⟩

/-- `if (unlikely(index >= width)) index = 0;`. -/
def syncIndex (width index : ℕ) : ℕ := if width ≤ index then 0 else index

/-- The load of `global_PWindow.content.word2` for a first word that was loaded before. -/
def loadPWindow (max : ℕ) : Prog State PutWindow :=
  Prog.read fun s => { s.globalPWindow with max }

/-- The load of `global_GWindow.content.word2` for a first word that was loaded before. -/
def loadGWindow (max : ℕ) : Prog State GetWindow :=
  Prog.read fun s => { s.globalGWindow with max }

/-- The loads of `global_PWindow.content.max` and `global_GWindow.content.max`, the first words. -/
def readPMax : Prog State ℕ := Prog.read fun s => s.globalPWindow.max

def readGMax : Prog State ℕ := Prog.read fun s => s.globalGWindow.max

/-- The variables of the search loops; `put_window` has no `notempty`. -/
structure Search where
  tl : Local
  hops : ℕ
  random : ℕ
  notempty : Bool

/-! ### `put_window` -/

/-- The first synchronisation of `put_window`. -/
def syncPWindow (w : PutWindow) : Prog State PutWindow := do
  let word1 ← readPMax
  if w.max ≠ word1 then
    let w ← loadPWindow word1
    assert (w.depth ≠ 0)
    return w
  else
    return w

/-- `if (contention == 1 || unlikely(index >= width)) index = random_index(width);`. -/
def startIndex (contention : Bool) (width index : ℕ) : Prog State ℕ :=
  if contention ∨ width ≤ index then randomIndex width else return index

/-- The attempt to shift, if the thread's put window is still current; the result is the thread's
window. -/
def tryShiftPut (w : PutWindow) : Prog State PutWindow := do
  let max ← readPMax
  if w.max = max then
    maybeEnqLateral w.max w.width w.nextWidth
    let depth ← Prog.read State.depth
    let nextWidth ← Prog.read State.width
    let new : PutWindow := ⟨w.max + depth, depth, w.nextWidth, nextWidth⟩
    let (done, found) ← Prog.cae State.globalPWindow
      (fun w s => { s with globalPWindow := w }) w new
    return if done then new else found
  else
    return w

/-- One round of the loop of `put_window`. -/
def putRound (set : Params) (st : Search) : Prog State (Search ⊕ (Descriptor × Local)) := do
  let tl := st.tl
  let descriptor ← readDescriptor State.putArray tl.putIndex
  let word1 ← readPMax
  if tl.pWindow.max ≠ word1 then
    let pWindow ← loadPWindow word1
    return .inl { st with
      hops := 0, tl := { tl with pWindow, putIndex := syncIndex pWindow.width tl.putIndex } }
  else if descriptor.count < tl.pWindow.max then
    assert (tl.putIndex < tl.pWindow.width)
    return .inr (descriptor, { tl with
      getIndex := if tl.gWindow.width = tl.pWindow.width then tl.putIndex else tl.getIndex })
  else if st.hops < tl.pWindow.width then
    let (putIndex, random, hops) ← hop set tl.putIndex st.random st.hops tl.pWindow.width
    return .inl { st with tl := { tl with putIndex }, hops, random }
  else
    let pWindow ← tryShiftPut tl.pWindow
    return .inl { st with
      hops := 0, tl := { tl with pWindow, putIndex := syncIndex pWindow.width tl.putIndex } }

/-- `put_window`. -/
def putWindow (set : Params) (contention : Bool) (tl : Local) :
    Prog State (Descriptor × Local) := do
  let pWindow ← syncPWindow tl.pWindow
  let putIndex ← startIndex contention pWindow.width tl.putIndex
  Prog.forever (putRound set) ⟨{ tl with pWindow, putIndex }, 0, 0, false⟩

/-! ### `get_window` -/

/-- The thread-local variables after a load of the get window with the first word `word1`. -/
def syncGWindow (tl : Local) (word1 : ℕ) : Prog State Local := do
  let gWindow ← loadGWindow word1
  return { tl with gWindow, getIndex := syncIndex gWindow.width tl.getIndex }

/-- The first synchronisation of `get_window`. -/
def enterGet (tl : Local) : Prog State Local := do
  let word1 ← readGMax
  if tl.gWindow.max ≠ word1 then syncGWindow tl word1 else return tl

/-- `get_shift_max`. -/
def getShiftMax (tl : Local) : Prog State ℕ := do
  let depth ← Prog.read State.depth
  let max := tl.gWindow.max + depth
  if tl.pWindow.max < max then
    readPMax
  else
    let pMax ← readPMax
    if pMax < max then readPMax else return max

/-- The exchange of the get window; the result is the thread's window. -/
def tryShiftGet (old new : GetWindow) : Prog State GetWindow := do
  let gMax ← readGMax
  if old.max = gMax then
    assert (old.max ≤ new.max)
    let (done, found) ← Prog.cae State.globalGWindow
      (fun w s => { s with globalGWindow := w }) old new
    if done then
      deqLateral new.max
      return new
    else
      return found
  else
    return old

/-- The shift branch of `get_window`. -/
def shiftGet (tl : Local) : Prog State Local := do
  let max ← getShiftMax tl
  let (width, max) ← getNextWindowLateral tl.gWindow.max max
  let gWindow ← tryShiftGet tl.gWindow ⟨max, Words.usub 64 max tl.gWindow.max % 2 ^ 16, width⟩
  return { tl with gWindow, getIndex := syncIndex gWindow.width tl.getIndex }

/-- The put count that `get_window` compares with. -/
def readPutCount (bound index count : ℕ) : Prog State ℕ :=
  if count ≤ bound then return bound
  else Prog.read fun s : State => (s.putArray index).count

/-- `notempty || thread_GWindow.max != global_PWindow.content.max`. -/
def canShift (notempty : Bool) (max : ℕ) : Prog State Bool := do
  if notempty then
    return true
  else
    let pMax ← readPMax
    return max ≠ pMax

/-- One round of the loop of `get_window`, with `put_count_lower_bound`. -/
def getRound (set : Params) (bound : ℕ) (st : Search) :
    Prog State (Search ⊕ (Descriptor × Local)) := do
  let tl := st.tl
  let descriptor ← readDescriptor State.getArray tl.getIndex
  let putCount ← readPutCount bound tl.getIndex descriptor.count
  let word1 ← readGMax
  if tl.gWindow.max ≠ word1 then
    let tl ← syncGWindow tl word1
    return .inl { st with hops := 0, notempty := false, tl }
  else if descriptor.count < tl.gWindow.max ∧ descriptor.count < putCount then
    return .inr (descriptor, tl)
  else if st.hops ≠ tl.gWindow.width then
    let notempty := st.notempty || decide (descriptor.count < putCount)
    let (getIndex, random, hops) ← hop set tl.getIndex st.random st.hops tl.gWindow.width
    return .inl ⟨{ tl with getIndex }, hops, random, notempty⟩
  else
    let shift ← canShift st.notempty tl.gWindow.max
    if shift then
      let tl ← shiftGet tl
      return .inl { st with hops := 0, notempty := false, tl }
    else
      return .inr (descriptor, tl)

/-- `if(contention == 1) thread_get_index = random_index(thread_GWindow.width);`. -/
def startGetIndex (contention : Bool) (tl : Local) : Prog State ℕ :=
  if contention then randomIndex tl.gWindow.width else return tl.getIndex

/-- `get_window`. -/
def getWindow (set : Params) (contention : Bool) (tl : Local) :
    Prog State (Descriptor × Local) := do
  let getIndex ← startGetIndex contention tl
  let tl ← enterGet { tl with getIndex }
  let (descriptor, tl) ← Prog.forever (getRound set tl.pWindow.bottom) ⟨tl, 0, 0, false⟩
  return (descriptor, { tl with
    putIndex := if tl.gWindow.width = tl.pWindow.width then tl.getIndex else tl.putIndex })

end ElasticLpw
