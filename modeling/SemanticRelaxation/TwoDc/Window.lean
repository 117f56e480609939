import SemanticRelaxation.Support.Words
import SemanticRelaxation.TwoD.Hop

/-!
# The coupled window (`include/2Dc-window.c`)

One window `(max - depth, max]` steers both kinds of operations of the 2Dc structures. `putWindow`
looks for a sub-structure whose count is below `max`, `getWindow` for one whose count is above
`max - depth`. Each first hops at random, then around the ring of sub-structures, and moves the
window by `shift` once a whole round has found nothing.

The code is generic in the descriptors `D` of the sub-structures and in the rest `X` of the shared
memory, as the C file is included by several data structures. Descriptors and windows are copied
word by word. The hop counters are `uint16_t` and wrap. What is counted up by one, the version and
the counts, is a natural number; the sums with `depth` and `shift`, which can be any `uint64_t`, are
taken modulo `Params.modulus`.
-/

namespace TwoDc

open AtomicProg

/-- `window_t`. -/
structure Window where
  max : ℕ
  version : ℕ
  deriving DecidableEq

/-- The constant fields of the data structure that the window code reads. The `modulus` is that of a
`uint64_t`, or 0 for words that do not wrap: `n % 0 = n`. -/
structure Params where
  width : ℕ
  depth : ℕ
  shift : ℕ
  randomHops : ℕ
  modulus : ℕ

/-- Descriptors that carry the count of their sub-structure. `copy` takes the words before the count
from one value and the count from another. -/
class HasCount (D : Type) where
  count : D → ℕ
  copy : D → D → D
  copy_self : ∀ d, copy d d = d
  copy_count : ∀ d d', count (copy d d') = count d'

/-- The shared memory: `set->set_array`, `global_Window.content`, and the rest. -/
structure Shared (D X : Type) where
  setArray : ℕ → D
  globalWindow : Window
  mem : X

/-- `thread_Window` and `thread_index`. -/
structure Local where
  window : Window
  index : ℕ

/-- The thread-local variables before the first call of a thread: static storage, all zero. -/
def Local.zero : Local := ⟨⟨0, 0⟩, 0⟩

variable {D X : Type} [HasCount D]

/-- The types of this file: `uint16_t` throughout. -/
def types : TwoD.Types := ⟨16, 16, 16⟩

/-- `random_index`. -/
def randomIndex (width : ℕ) : Prog (Shared D X) ℕ := TwoD.randomIndex types width

/-- `hop`: the next index, with the new values of `random` and `hops`. -/
def hop (set : Params) (index random hops : ℕ) : Prog (Shared D X) (ℕ × ℕ × ℕ) :=
  TwoD.hop types set.randomHops set.width index random hops

/-- `read_window`: two loads. -/
def readWindow : Prog (Shared D X) Window := do
  let max ← Prog.read fun s => s.globalWindow.max
  let version ← Prog.read fun s => s.globalWindow.version
  return ⟨max, version⟩

/-- `if(thread_Window.version != global_Window.content.version) read_window();`. -/
def syncWindow (window : Window) : Prog (Shared D X) Window := do
  let version ← Prog.read fun s => s.globalWindow.version
  if window.version ≠ version then readWindow else return window

/-- `if(contention == 1) thread_index = random_index(set->width);`. -/
def startIndex (set : Params) (contention : Bool) (index : ℕ) : Prog (Shared D X) ℕ :=
  if contention then randomIndex set.width else return index

/-- The first lines of both window functions. -/
def enter (set : Params) (contention : Bool) (tl : Local) : Prog (Shared D X) Local := do
  let window ← syncWindow tl.window
  let index ← startIndex set contention tl.index
  return ⟨window, index⟩

/-- `CAE(&global_Window.content, &thread_Window, &new_window)` and what follows it: the window that
the thread holds afterwards. -/
def caeWindow (old new : Window) : Prog (Shared D X) Window := do
  let (done, _) ← Prog.cae (fun s : Shared D X => s.globalWindow)
    (fun w s => { s with globalWindow := w }) old new
  if done then return new else readWindow

/-- The attempt to shift, if the thread's window is still current and the new one is `valid`. -/
def tryShift (valid : Bool) (old new : Window) : Prog (Shared D X) Window := do
  let version ← Prog.read fun s => s.globalWindow.version
  if old.version = version ∧ valid then caeWindow old new else return old

/-- `descriptor = set->set_array[thread_index].descriptor`: a load for each word. -/
def readDescriptor (index : ℕ) : Prog (Shared D X) D := do
  let first ← Prog.read fun s => s.setArray index
  let second ← Prog.read fun s => s.setArray index
  return HasCount.copy first second

/-- The variables of the search loops. -/
structure Search where
  tl : Local
  hops : ℕ
  random : ℕ
  /-- `empty` of `get_window`. -/
  empty : Bool

/-- One round of the loop of `put_window`. -/
def putRound (set : Params) (st : Search) : Prog (Shared D X) (Search ⊕ (D × Local)) := do
  let descriptor ← readDescriptor st.tl.index
  let version ← Prog.read fun s => s.globalWindow.version
  if version ≠ st.tl.window.version then
    let window ← readWindow
    return .inl { st with hops := 0, tl := { st.tl with window } }
  else if HasCount.count descriptor < st.tl.window.max then
    return .inr (descriptor, st.tl)
  else if st.hops ≠ set.width then
    let (index, random, hops) ← hop set st.tl.index st.random st.hops
    return .inl { st with hops, random, tl := { st.tl with index } }
  else
    let new : Window := ⟨(st.tl.window.max + set.shift) % set.modulus, st.tl.window.version + 1⟩
    let window ← tryShift true st.tl.window new
    return .inl { st with hops := 0, tl := { st.tl with window } }

/-- `put_window`. -/
def putWindow (set : Params) (contention : Bool) (tl : Local) :
    Prog (Shared D X) (D × Local) := do
  let tl ← enter set contention tl
  Prog.forever (putRound set) ⟨tl, 0, 0, true⟩

/-- One round of the loop of `get_window`. -/
def getRound (set : Params) (st : Search) : Prog (Shared D X) (Search ⊕ (D × Local)) := do
  let descriptor ← readDescriptor st.tl.index
  let version ← Prog.read fun s => s.globalWindow.version
  if version ≠ st.tl.window.version then
    let window ← readWindow
    return .inl { st with hops := 0, empty := true, tl := { st.tl with window } }
  else if st.tl.window.max < (HasCount.count descriptor + set.depth) % set.modulus then
    return .inr (descriptor, st.tl)
  else if st.hops ≠ set.width then
    let empty := if 0 < HasCount.count descriptor then false else st.empty
    let (index, random, hops) ← hop set st.tl.index st.random st.hops
    return .inl ⟨{ st.tl with index }, hops, random, empty⟩
  else if st.empty then
    return .inr (descriptor, st.tl)
  else
    let new : Window := ⟨Words.usub 64 st.tl.window.max set.shift, st.tl.window.version + 1⟩
    -- maintains `global_Window.content.max >= depth`
    let window ← tryShift (set.depth ≤ new.max) st.tl.window new
    return .inl { st with hops := 0, empty := true, tl := { st.tl with window } }

/-- `get_window`. -/
def getWindow (set : Params) (contention : Bool) (tl : Local) :
    Prog (Shared D X) (D × Local) := do
  let tl ← enter set contention tl
  Prog.forever (getRound set) ⟨tl, 0, 0, true⟩

end TwoDc
