import SemanticRelaxation.Prog.Versioned
import SemanticRelaxation.Support.Treiber
import SemanticRelaxation.Support.Words
import SemanticRelaxation.TwoD.Hop

/-!
# The optimized 2Dc stack: the window (`src/2Dc-stack_optimized/2Dc-window_optimized.c`)

The coupled window with its two fields packed into one word: the maximum is a `row_t` of 32 bits and
the version a `version_t` of 16 bits. It is loaded in one step. What the version checks of the two
window functions find is observed (`Versioned.check`).
-/

namespace TwoDcOptimized

open AtomicProg Treiber

/-- `window_t`. -/
structure Window where
  max : ℕ
  version : ℕ
  deriving DecidableEq

/-- `descriptor_t`. -/
structure Descriptor where
  node : Option ℕ
  count : ℕ
  deriving DecidableEq

/-- The constant fields of `mstack_t`. -/
structure Params where
  width : ℕ
  depth : ℕ
  shift : ℕ
  randomHops : ℕ

/-- The shared memory. `shifts` counts the shifts of the window, and `failed` is set by a failed
assertion. -/
structure Memory where
  setArray : ℕ → Descriptor
  globalWindow : Window
  mem : Mem
  shifts : ℕ
  failed : Bool

/-- The shared memory, and what the version checks have observed. -/
abbrev State := Memory × Observed

/-- The window counts its shifts, beginning with 1. -/
def window : Versioned Memory Window where
  get := Memory.globalWindow
  set w s := { s with globalWindow := w, shifts := s.shifts + 1 }
  version := Window.version
  writes s := s.shifts + 1
  modulus := 2 ^ 16

/-- `thread_Window` and `thread_index`. -/
structure Local where
  copy : Copied Window
  index : ℕ

/-- `thread_Window`. -/
abbrev Local.window (tl : Local) : Window := tl.copy.value

/-- The thread-local variables before the first call of a thread: static storage, all zero. -/
def Local.zero : Local := ⟨⟨⟨0, 0⟩, 0⟩, 0⟩

/-- `uint8_t` for the random hops, `width_t` for the others. -/
def types : TwoD.Types := ⟨16, 8, 16⟩

/-- `set->set_array[idx].descriptor`: two loads. -/
def readDescriptor (idx : ℕ) : Prog State Descriptor := do
  let node ← Prog.read fun s : State => (s.1.setArray idx).node
  let count ← Prog.read fun s : State => (s.1.setArray idx).count
  return ⟨node, count⟩

/-- `assert`. -/
def assert (b : Bool) : Prog State Unit :=
  (Prog.assert (fun s : Memory => { s with failed := true }) b).onFst

/-- `read_window`, as an assignment to the thread-local variables. -/
def readWindow (tl : Local) : Prog State Local := do
  let copy ← window.load
  return { tl with copy }

/-- `if(thread_Window.version != global_Window.content.version) read_window();`. -/
def syncWindow (tl : Local) : Prog State Local := do
  let version ← window.check tl.copy
  if tl.window.version ≠ version then readWindow tl else return tl

/-- The first lines of both window functions. -/
def enter (set : Params) (contention : Bool) (tl : Local) : Prog State Local := do
  let tl ← syncWindow tl
  if contention then
    let index ← TwoD.randomIndex types set.width
    return { tl with index }
  else
    return tl

/-- The attempt to shift, if the thread's window is still current. -/
def tryShift (tl : Local) (max : ℕ) : Prog State Local := do
  let version ← window.check tl.copy
  if tl.window.version = version then
    match ← window.exchange tl.window ⟨max, (tl.window.version + 1) % 2 ^ 16⟩ with
    | some copy => return { tl with copy }
    | none => readWindow tl
  else
    return tl

/-- The variables of the search loops; `put_window` has no `empty`. -/
structure Search where
  tl : Local
  hops : ℕ
  random : ℕ
  empty : Bool

/-- One round of the loop of `put_window`. -/
def putRound (set : Params) (st : Search) : Prog State (Search ⊕ (Descriptor × Local)) := do
  let tl := st.tl
  let descriptor ← readDescriptor tl.index
  let version ← window.check tl.copy
  if version ≠ tl.window.version then
    let tl ← readWindow tl
    return .inl { st with hops := 0, tl }
  else if descriptor.count < tl.window.max then
    return .inr (descriptor, tl)
  else if st.hops ≠ set.width then
    let (index, random, hops) ← TwoD.hop types set.randomHops set.width tl.index st.random st.hops
    return .inl { st with tl := { tl with index }, hops, random }
  else
    let tl ← tryShift tl ((tl.window.max + set.shift) % 2 ^ 32)
    return .inl { st with hops := 0, tl }

/-- `put_window`. -/
def putWindow (set : Params) (contention : Bool) (tl : Local) :
    Prog State (Descriptor × Local) := do
  let tl ← enter set contention tl
  Prog.forever (putRound set) ⟨tl, 0, 0, true⟩

/-- One round of the loop of `get_window`. -/
def getRound (set : Params) (st : Search) : Prog State (Search ⊕ (Descriptor × Local)) := do
  let tl := st.tl
  let descriptor ← readDescriptor tl.index
  let version ← window.check tl.copy
  if version ≠ tl.window.version then
    let tl ← readWindow tl
    return .inl { st with hops := 0, empty := true, tl }
  else if Words.usub 32 tl.window.max set.depth < descriptor.count then
    return .inr (descriptor, tl)
  else if st.hops ≠ set.width then
    let empty := if 0 < descriptor.count then false else st.empty
    let (index, random, hops) ← TwoD.hop types set.randomHops set.width tl.index st.random st.hops
    return .inl ⟨{ tl with index }, hops, random, empty⟩
  else if st.empty then
    return .inr (descriptor, tl)
  else
    let max := Words.usub 32 tl.window.max set.shift
    assert (set.depth ≤ max)
    let tl ← tryShift tl max
    return .inl { st with hops := 0, empty := true, tl }

/-- `get_window`. -/
def getWindow (set : Params) (contention : Bool) (tl : Local) :
    Prog State (Descriptor × Local) := do
  let tl ← enter set contention tl
  Prog.forever (getRound set) ⟨tl, 0, 0, true⟩

end TwoDcOptimized
