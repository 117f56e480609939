import SemanticRelaxation.Prog.Annotated
import SemanticRelaxation.TwoDcOptimized.Copies

/-!
# The arithmetic of the optimized 2Dc window

The code of the stack over its memory and notes of its runs: the thread-local windows that the two
searches have worked with (`held`), and whether one of the unsigned subtractions has gone below zero
(`wrapped`).

The window moves by `shift` only, so its maximum is `depth` plus a multiple of it (`InRows`).
`get_window` moves it down after it has met an item at the bottom of the window, so not from the
lowest row: this is known to the thread alone, whatever the others do in the meantime (`Downward`).
-/

namespace TwoDcOptimized

open AtomicProg

namespace Rows

/-- What has been noted. -/
structure Noted where
  held : List Window := []
  wrapped : Bool := false

/-- A note of the thread's window, and of a subtraction of `n` from its maximum. -/
def Noted.hold (window : Window) (n : ℕ) (x : Noted) : Noted :=
  ⟨window :: x.held, x.wrapped || decide (window.max < n)⟩

/-- The attempt of `get_window` to shift. -/
def tryShift (set : Params) (tl : Local) (max : ℕ) : Prog (State × Noted) Local := do
  let version ← (window.check tl.copy).noting (Noted.hold tl.window set.shift)
  if tl.window.version = version then
    match ← (window.exchange tl.window ⟨max, (tl.window.version + 1) % 2 ^ 16⟩).onFst with
    | some copy => return { tl with copy }
    | none => (readWindow tl).onFst
  else
    return tl

/-- One round of the loop of `put_window`. -/
def putRound (set : Params) (st : Search) :
    Prog (State × Noted) (Search ⊕ (Descriptor × Local)) := do
  let tl := st.tl
  let descriptor ← (readDescriptor tl.index).onFst
  let version ← (window.check tl.copy).noting (Noted.hold tl.window 0)
  if version ≠ tl.window.version then
    let tl ← (readWindow tl).onFst
    return .inl { st with hops := 0, tl }
  else if descriptor.count < tl.window.max then
    return .inr (descriptor, tl)
  else if st.hops ≠ set.width then
    let (index, random, hops) ←
      (TwoD.hop types set.randomHops set.width tl.index st.random st.hops : Prog State _).onFst
    return .inl { st with tl := { tl with index }, hops, random }
  else
    let tl ← (TwoDcOptimized.tryShift tl ((tl.window.max + set.shift) % 2 ^ 32)).onFst
    return .inl { st with hops := 0, tl }

/-- `put_window`. -/
def putWindow (set : Params) (contention : Bool) (tl : Local) :
    Prog (State × Noted) (Descriptor × Local) := do
  let tl ← (enter set contention tl).onFst
  Prog.forever (putRound set) ⟨tl, 0, 0, true⟩

/-- One round of the loop of `get_window`. -/
def getRound (set : Params) (st : Search) :
    Prog (State × Noted) (Search ⊕ (Descriptor × Local)) := do
  let tl := st.tl
  let descriptor ← (readDescriptor tl.index).onFst
  let version ← (window.check tl.copy).noting (Noted.hold tl.window set.depth)
  if version ≠ tl.window.version then
    let tl ← (readWindow tl).onFst
    return .inl { st with hops := 0, empty := true, tl }
  else if Words.usub 32 tl.window.max set.depth < descriptor.count then
    return .inr (descriptor, tl)
  else if st.hops ≠ set.width then
    let empty := if 0 < descriptor.count then false else st.empty
    let (index, random, hops) ←
      (TwoD.hop types set.randomHops set.width tl.index st.random st.hops : Prog State _).onFst
    return .inl ⟨{ tl with index }, hops, random, empty⟩
  else if st.empty then
    return .inr (descriptor, tl)
  else
    let max := Words.usub 32 tl.window.max set.shift
    (assert (set.depth ≤ max)).onFst
    let tl ← tryShift set tl max
    return .inl { st with hops := 0, empty := true, tl }

/-- `get_window`. -/
def getWindow (set : Params) (contention : Bool) (tl : Local) :
    Prog (State × Noted) (Descriptor × Local) := do
  let tl ← (enter set contention tl).onFst
  Prog.forever (getRound set) ⟨tl, 0, 0, true⟩

/-- One round of the loop of `push`. -/
def pushRound (set : Params) (newNode : ℕ) :
    Bool × Local → Prog (State × Noted) (Bool × Local ⊕ Local × ℤ) :=
  fun (contention, tl) => do
    let (descriptor, tl) ← putWindow set contention tl
    ((setNext newNode descriptor.node).onFst : Prog State Unit).onFst
    let done ← ((stackCae tl.index descriptor ⟨some newNode, descriptor.count + 1⟩).onFst : Prog
      State Bool).onFst
    if done then return .inr (tl, 1) else return .inl (true, tl)

/-- `push`. -/
def push (set : Params) (val : ℤ) (tl : Local) : Prog (State × Noted) (Local × ℤ) := do
  let newNode ← ((createNode val).onFst : Prog State ℕ).onFst
  Prog.forever (pushRound set newNode) (false, tl)

/-- One round of the loop of `pop`. -/
def popRound (set : Params) :
    Bool × Local → Prog (State × Noted) (Bool × Local ⊕ Local × Option ℤ) :=
  fun (contention, tl) => do
    let (descriptor, tl) ← getWindow set contention tl
    match descriptor.node with
    | some node =>
      let next ← (Prog.read fun s : State => (s.1.mem.heap node).next).onFst
      let done ←
        ((stackCae tl.index descriptor ⟨next, Words.usub 64 descriptor.count 1⟩).onFst : Prog State
          Bool).onFst
      if done then
        let nodeVal ← (Prog.read fun s : State => (s.1.mem.heap node).val).onFst
        return .inr (tl, some nodeVal)
      else
        return .inl (true, tl)
    | none => return .inr (tl, none)

/-- The stack with its notes. -/
def object (set : Params) : Object (State × Noted) Local where
  Call := Call
  Ret := Option ℤ
  code
    | .push v, tl => do
      let (tl, res) ← push set v tl
      return (tl, some res)
    | .pop, tl => Prog.forever (popRound set) (false, tl)

/-! ### The notes change nothing -/

open Prog.Annotates

theorem tryShift_annotates (set : Params) (tl : Local) (max : ℕ) :
    (tryShift set tl max).Annotates (TwoDcOptimized.tryShift tl max) := by
  refine (noting _ _).bind fun version => ?_
  split
  · refine (Prog.Annotates.onFst _).bind fun r => ?_
    cases r with
    | some copy => exact .ret _
    | none => exact .onFst _
  · exact .ret _

theorem putRound_annotates (set : Params) (st : Search) :
    (putRound set st).Annotates (TwoDcOptimized.putRound set st) := by
  refine (Prog.Annotates.onFst _).bind fun d => (noting _ _).bind fun version => ?_
  dsimp only
  split
  · exact (Prog.Annotates.onFst _).bind fun _ => .ret _
  · split
    · exact .ret _
    · split
      · exact (Prog.Annotates.onFst _).bind fun _ => .ret _
      · exact (Prog.Annotates.onFst _).bind fun _ => .ret _

theorem getRound_annotates (set : Params) (st : Search) :
    (getRound set st).Annotates (TwoDcOptimized.getRound set st) := by
  refine (Prog.Annotates.onFst _).bind fun d => (noting _ _).bind fun version => ?_
  dsimp only
  split
  · exact (Prog.Annotates.onFst _).bind fun _ => .ret _
  · split
    · exact .ret _
    · split
      · exact (Prog.Annotates.onFst _).bind fun _ => .ret _
      · split
        · exact .ret _
        · refine (Prog.Annotates.onFst _).bind fun _ => ?_
          exact (tryShift_annotates set _ _).bind fun _ => .ret _

theorem pushRound_annotates (set : Params) (newNode : ℕ) (b : Bool × Local) :
    (pushRound set newNode b).Annotates (TwoDcOptimized.pushRound set newNode b) := by
  obtain ⟨contention, tl⟩ := b
  refine ((Prog.Annotates.onFst _).bind fun _ => .forever (putRound_annotates set) _).bind
    fun r => ?_
  refine (Prog.Annotates.onFst _).bind fun _ => (Prog.Annotates.onFst _).bind fun done => ?_
  cases done with
  | true => exact .ret _
  | false => exact .ret _

/-- The code with notes does what the code does. -/
theorem object_annotates (set : Params) (call : Call) (tl : Local) :
    ((object set).code call tl).Annotates ((TwoDcOptimized.object set).code call tl) := by
  cases call with
  | push val =>
    refine ((Prog.Annotates.onFst _).bind fun node => ?_).bind fun _ => .ret _
    exact .forever (pushRound_annotates set node) _
  | pop =>
    refine .forever (fun b => ?_) _
    obtain ⟨contention, tl⟩ := b
    refine ((Prog.Annotates.onFst _).bind fun _ => .forever (getRound_annotates set) _).bind
      fun r => ?_
    dsimp only
    cases r.1.node with
    | some node =>
      refine (Prog.Annotates.onFst _).bind fun next => (Prog.Annotates.onFst _).bind fun done => ?_
      cases done with
      | true => exact (Prog.Annotates.onFst _).bind fun _ => .ret _
      | false => exact .ret _
    | none => exact .ret _

/-! ### The rules that all threads keep to -/

/-- What `create_stack` guarantees of the stored parameters; `depth_t` has 16 bits. -/
structure Params.WF (set : Params) : Prop where
  depth_pos : 0 < set.depth
  depth_lt : set.depth < 2 ^ 16
  shift_le : set.shift ≤ set.depth

/-- A window some shifts above the lowest one. -/
def InRows (set : Params) (w : Window) : Prop := ∃ n, w.max = set.depth + n * set.shift

/-- What holds in every state of a run with fewer than `2^16 - 1` shifts. -/
structure Inv (set : Params) (x : State × Noted) : Prop where
  rows : ∃ n ≤ x.1.1.shifts, x.1.1.globalWindow.max = set.depth + n * set.shift
  version : x.1.1.globalWindow.version = (x.1.1.shifts + 1) % 2 ^ 16
  few : x.1.1.shifts + 1 < 2 ^ 16
  held : ∀ w ∈ x.2.held, InRows set w
  above : x.2.wrapped = false
  asserted : x.1.1.failed = false

/-- The rules, as long as there are fewer than `2^16 - 1` shifts. -/
def regime (C : Type) (set : Params) : Regime C (State × Noted) Unit where
  inv _ x := Inv set x.1
  frame _ _ _ := True
  fresh _ _ := True
  assume _ s' := s'.1.1.shifts < 2 ^ 16 - 1
  refl _ _ := True.intro
  trans _ _ _ _ _ _ := True.intro
  inv_call _ _ _ h := h
  fresh_later _ _ _ _ _ := True.intro

variable {set : Params} {E : Results (object set).service (regime Call set)} {c : Caller}
  {v : View E.protocol c} {tl : Local}

theorem InRows.depth_le {w : Window} (h : InRows set w) : set.depth ≤ w.max := by
  obtain ⟨n, hn⟩ := h
  omega

/-- A window above the lowest one has room below. -/
theorem InRows.room {w : Window} (h : InRows set w) (hlt : set.depth < w.max) :
    ∃ m, w.max = set.depth + m * set.shift + set.shift := by
  obtain ⟨n, hn⟩ := h
  cases n with
  | zero => omega
  | succ m => exact ⟨m, by rw [hn]; ring⟩

theorem inv_of (v : View E.protocol c) : Inv set v.state := v.inv_pair

theorem Inv.inRows {x : State × Noted} (h : Inv set x) : InRows set x.1.1.globalWindow := by
  obtain ⟨n, -, hn⟩ := h.rows
  exact ⟨n, hn⟩

theorem Inv.version_ne {x : State × Noted} (h : Inv set x) : x.1.1.globalWindow.version ≠ 0 := by
  have := h.few
  rw [h.version, Nat.mod_eq_of_lt this]
  omega

theorem allows (v : View E.protocol c) {x : State × Noted} (hi : Inv set x) :
    E.protocol.Allows c v.now (v.after x v.now.2) :=
  Regime.allows v hi fun _ _ => True.intro

/-- Steps that leave the window and the assertions alone. -/
def Quiet (s s' : State) : Prop :=
  s'.1.globalWindow = s.1.globalWindow ∧ s'.1.shifts = s.1.shifts ∧ s'.1.failed = s.1.failed

theorem Inv.quiet {x : State × Noted} {s : State} (h : Inv set x) (hq : Quiet x.1 s) :
    Inv set (s, x.2) := by
  obtain ⟨hw, hs, hf⟩ := hq
  constructor
  · rw [hw, hs]
    exact h.rows
  · rw [hw, hs]
    exact h.version
  · rw [hs]
    exact h.few
  · exact h.held
  · exact h.above
  · exact hf.trans h.asserted

theorem quiet_spec {α : Type} {p : Prog State α} (h : p.Steps Quiet) :
    wp E.protocol c p.onFst (fun _ _ => True) v := by
  refine (wp.of_steps (Prog.Steps.onFst h) (fun _ x s hs hi => ?_) fun _ _ _ _ => True.intro).mono
    fun _ _ _ => True.intro
  obtain ⟨hq, hn⟩ := hs
  have hi : Inv set x.1 := hi
  have hquiet := hi.quiet hq
  rw [← hn] at hquiet
  exact hquiet

theorem quiet_refl (s : State) : Quiet s s := ⟨rfl, rfl, rfl⟩

theorem steps_readDescriptor (idx : ℕ) : (readDescriptor idx).Steps Quiet :=
  .bind (.read quiet_refl _) fun _ => .bind (.read quiet_refl _) fun _ => True.intro

theorem steps_randomIndex (width : ℕ) : (TwoD.randomIndex types width : Prog State ℕ).Steps Quiet :=
  .bind (.choose quiet_refl) fun _ => True.intro

theorem steps_hop (randomHops width index random hops : ℕ) :
    (TwoD.hop types randomHops width index random hops : Prog State _).Steps Quiet := by
  unfold TwoD.hop
  split
  · exact .bind (steps_randomIndex _) fun _ => True.intro
  · exact True.intro

theorem steps_createNode (val : ℤ) : ((createNode val).onFst : Prog State ℕ).Steps Quiet :=
  ⟨fun _ _ => ⟨rfl, rfl, rfl⟩, fun _ => True.intro⟩

theorem steps_setNext (node : ℕ) (next : Option ℕ) :
    ((setNext node next).onFst : Prog State Unit).Steps Quiet :=
  ⟨fun _ _ => ⟨rfl, rfl, rfl⟩, fun _ => True.intro⟩

theorem steps_stackCae (idx : ℕ) (old new : Descriptor) :
    ((stackCae idx old new).onFst : Prog State Bool).Steps Quiet := by
  refine ⟨fun _ s => ?_, fun _ => True.intro⟩
  dsimp only
  split
  · exact ⟨rfl, rfl, rfl⟩
  · exact quiet_refl s

/-! ### The window -/

theorem readWindow_spec :
    wp E.protocol c (readWindow tl).onFst (fun tl' _ => InRows set tl'.window) v :=
  wp.read_fst fun v₁ _ => (inv_of v₁).inRows

/-- The version of the window is not that of a copy which was never loaded. -/
theorem check_spec {x : Copied Window} :
    wp E.protocol c (window.check x).onFst (fun version _ => version ≠ 0) v := by
  intro v₁ h₁ _ _
  have hi := inv_of v₁
  exact ⟨_, allows v₁ (hi.quiet ⟨rfl, rfl, rfl⟩), hi.version_ne⟩

/-- A thread's variables between two calls. -/
def Ready (set : Params) (tl : Local) : Prop := tl.window.version = 0 ∨ InRows set tl.window

theorem enter_spec {contention : Bool} (h : Ready set tl) :
    wp E.protocol c (enter set contention tl).onFst (fun tl' _ => InRows set tl'.window) v := by
  refine wp.bind_fst (A := fun tl' _ => InRows set tl'.window) (wp.bind_fst check_spec ?_) ?_
  · intro version v₁ hv
    split
    · exact readWindow_spec
    next he =>
      have he : tl.window.version = version := not_not.1 he
      exact h.resolve_left fun h0 => hv (he.symm.trans h0)
  · intro tl' v₁ hin
    split
    · refine wp.bind_fst (quiet_spec (steps_randomIndex _)) ?_
      intro index v₂ _
      exact hin
    · exact hin

/-- A check in the searches, with the thread's window and a subtraction from its maximum. -/
theorem noting_spec {w : Window} {n : ℕ} {x : Copied Window} (hw : InRows set w) (hn : n ≤ w.max) :
    wp E.protocol c ((window.check x).noting (Noted.hold w n)) (fun _ _ => True) v := by
  intro v₁ h₁ _ _
  have hi := inv_of v₁
  have hi' : Inv set (v₁.state.1, Noted.hold w n v₁.state.2) := by
    refine ⟨hi.rows, hi.version, hi.few, ?_, ?_, hi.asserted⟩
    · intro w' hw'
      rcases List.mem_cons.1 hw' with rfl | hmem
      · exact hw
      · exact hi.held w' hmem
    · exact Bool.or_eq_false_iff.2 ⟨hi.above, decide_eq_false (Nat.not_lt.2 hn)⟩
  exact ⟨_, allows v₁ (hi'.quiet ⟨rfl, rfl, rfl⟩), True.intro⟩

/-- An exchange of the global window for one that is a shift away. -/
theorem exchange_spec {max : ℕ} (hnew : ∀ n, n + 1 < 2 ^ 16 →
      tl.window.max = set.depth + n * set.shift →
      ∃ m ≤ n + 1, max = set.depth + m * set.shift) :
    wp E.protocol c (window.exchange tl.window ⟨max, (tl.window.version + 1) % 2 ^ 16⟩).onFst
      (fun r _ => ∀ copy ∈ r, InRows set copy.value) v := by
  intro v₁ h₁ _ ha
  have hi := inv_of v₁
  obtain ⟨n, hle, hn⟩ := hi.rows
  by_cases he : v₁.state.1.1.globalWindow = tl.window
  · have he' : window.get v₁.state.1.1 = tl.window := he
    simp only [if_pos he'] at ha ⊢
    have ha : v₁.state.1.1.shifts + 1 < 2 ^ 16 - 1 := ha
    have hfew := hi.few
    obtain ⟨m, hm, hmax⟩ := hnew n (by omega) (by rw [← he]; exact hn)
    refine ⟨_, allows v₁ ⟨⟨m, hm.trans (Nat.succ_le_succ hle), hmax⟩, ?_, Nat.add_lt_of_lt_sub ha,
      hi.held,
      hi.above, hi.asserted⟩, ?_⟩
    · show (tl.window.version + 1) % 2 ^ 16 = (v₁.state.1.1.shifts + 1 + 1) % 2 ^ 16
      rw [← he, hi.version, Nat.mod_add_mod]
    · intro copy hc
      obtain rfl := Option.some.inj hc
      exact ⟨m, hmax⟩
  · have he' : ¬ window.get v₁.state.1.1 = tl.window := he
    simp only [if_neg he']
    exact wp.same (k := .ret) fun copy hc => by cases hc

/-- The window one shift up. -/
theorem shiftUp (hp : Params.WF set) {n : ℕ} (hn : n + 1 < 2 ^ 16) {w : Window}
    (hw : w.max = set.depth + n * set.shift) :
    ∃ m ≤ n + 1, (w.max + set.shift) % 2 ^ 32 = set.depth + m * set.shift := by
  have h₁ := hp.depth_lt
  have h₂ := hp.shift_le
  have hmul : n * set.shift ≤ n * set.depth := Nat.mul_le_mul_left n h₂
  have hmul' : n * set.depth ≤ n * (2 ^ 16 - 1) := Nat.mul_le_mul_left n (by omega)
  refine ⟨n + 1, le_rfl, ?_⟩
  rw [Nat.mod_eq_of_lt (by omega), hw]
  ring

/-- The attempt of `put_window` to shift. -/
theorem tryShiftUp_spec (hp : Params.WF set) (h : InRows set tl.window) :
    wp E.protocol c (TwoDcOptimized.tryShift tl ((tl.window.max + set.shift) % 2 ^ 32)).onFst
      (fun tl' _ => InRows set tl'.window) v := by
  refine wp.bind_fst check_spec ?_
  intro version v₁ _
  split
  · refine wp.bind_fst (exchange_spec fun n hn hw => shiftUp hp hn hw) ?_
    intro r v₂ hr
    cases r with
    | some copy => exact hr copy rfl
    | none => exact readWindow_spec
  · exact h

/-- The attempt of `get_window` to shift, from a window above the lowest one. -/
theorem tryShiftDown_spec (h : InRows set tl.window) (hlt : set.depth < tl.window.max) :
    wp E.protocol c (tryShift set tl (Words.usub 32 tl.window.max set.shift))
      (fun tl' _ => InRows set tl'.window) v := by
  obtain ⟨m, hm⟩ := h.room hlt
  have hle : set.shift ≤ tl.window.max := by omega
  refine wp.bind_of (noting_spec h hle) ?_
  intro version v₁ _
  split
  · refine wp.bind_of (exchange_spec fun n _ hw => ?_) ?_
    · rw [Words.usub_of_le hle]
      cases n with
      | zero => omega
      | succ k =>
        refine ⟨k, by omega, ?_⟩
        rw [Nat.succ_mul] at hw
        omega
    · intro r v₂ hr
      cases r with
      | some copy => exact hr copy rfl
      | none => exact readWindow_spec
  · exact h

theorem assert_spec {b : Bool} (hb : b = true) :
    wp E.protocol c (assert b).onFst (fun _ _ => True) v := by
  subst hb
  exact True.intro

/-! ### The two searches -/

theorem putRound_spec (hp : Params.WF set) {st : Search} (h : InRows set st.tl.window) :
    wp E.protocol c (putRound set st)
      (fun r _ => Sum.elim (fun st' => InRows set st'.tl.window)
        (fun a => InRows set a.2.window) r) v := by
  refine wp.bind_of (quiet_spec (steps_readDescriptor _)) ?_
  intro descriptor v₁ _
  refine wp.bind_of (noting_spec h (Nat.zero_le _)) ?_
  intro version v₂ _
  split
  · refine wp.bind_of readWindow_spec ?_
    intro tl v₃ hin
    exact hin
  · split
    · exact h
    · split
      · refine wp.bind_of (quiet_spec (steps_hop _ _ _ _ _)) ?_
        intro r v₃ _
        exact h
      · refine wp.bind_of (tryShiftUp_spec hp h) ?_
        intro tl v₃ hin
        exact hin

theorem putWindow_spec (hp : Params.WF set) {contention : Bool} (h : Ready set tl) :
    wp E.protocol c (putWindow set contention tl) (fun a _ => InRows set a.2.window) v := by
  refine wp.bind_of (enter_spec h) ?_
  intro tl' v₁ hin
  apply wp.forever (fun st _ => InRows set st.tl.window) hin
  intro st v₂ hst
  exact putRound_spec hp hst

/-- What a search of `get_window` knows of its window: an item that it met, and left, lies above the
lowest window. -/
structure Downward (set : Params) (st : Search) : Prop where
  inRows : InRows set st.tl.window
  above : st.empty = false → set.depth < st.tl.window.max

theorem Downward.start {tl : Local} {hops random : ℕ} (h : InRows set tl.window) :
    Downward set ⟨tl, hops, random, true⟩ := ⟨h, nofun⟩

theorem getRound_spec {st : Search} (h : Downward set st) :
    wp E.protocol c (getRound set st)
      (fun r _ => Sum.elim (fun st' => Downward set st') (fun a => InRows set a.2.window) r) v := by
  have hdepth := h.inRows.depth_le
  refine wp.bind_of (quiet_spec (steps_readDescriptor _)) ?_
  intro descriptor v₁ _
  refine wp.bind_of (noting_spec h.inRows hdepth) ?_
  intro version v₂ _
  split
  · refine wp.bind_of readWindow_spec ?_
    intro tl v₃ hin
    exact Downward.start hin
  · rw [Words.usub_of_le hdepth]
    split
    · exact h.inRows
    next hlow =>
      split
      · refine wp.bind_of (quiet_spec (steps_hop _ _ _ _ _)) ?_
        intro r v₃ _
        refine ⟨h.inRows, fun hempty => ?_⟩
        by_cases hpos : 0 < descriptor.count
        · show set.depth < st.tl.window.max
          omega
        · rw [if_neg hpos] at hempty
          exact h.above hempty
      · split
        · exact h.inRows
        next hempty =>
          have hlt := h.above (Bool.eq_false_of_not_eq_true hempty)
          obtain ⟨m, hm⟩ := h.inRows.room hlt
          have hok : set.depth ≤ Words.usub 32 st.tl.window.max set.shift := by
            rw [Words.usub_of_le (by omega)]
            omega
          refine wp.bind_of (assert_spec (decide_eq_true hok)) ?_
          intro _ v₃ _
          refine wp.bind_of (tryShiftDown_spec h.inRows hlt) ?_
          intro tl v₄ hin
          exact Downward.start hin

theorem getWindow_spec {contention : Bool} (h : Ready set tl) :
    wp E.protocol c (getWindow set contention tl) (fun a _ => InRows set a.2.window) v := by
  refine wp.bind_of (enter_spec h) ?_
  intro tl' v₁ hin
  apply wp.forever (fun st _ => Downward set st) (Downward.start hin)
  intro st v₂ hst
  exact getRound_spec hst

/-! ### The calls -/

theorem push_spec (hp : Params.WF set) (h : Ready set tl) (val : ℤ) :
    wp E.protocol c (push set val tl) (fun r _ => Ready set r.1) v := by
  refine wp.bind_of (quiet_spec (steps_createNode val)) ?_
  intro newNode v₁ _
  apply wp.forever (fun b _ => Ready set b.2) h
  rintro ⟨contention, tl'⟩ v₂ hr
  refine wp.bind_of (putWindow_spec hp hr) ?_
  intro r v₃ hin
  refine wp.bind_of (quiet_spec (steps_setNext _ _)) ?_
  intro _ v₄ _
  refine wp.bind_of (quiet_spec (steps_stackCae _ _ _)) ?_
  intro done v₅ _
  cases done with
  | true => exact .inr hin
  | false => exact .inr hin

theorem pop_spec (h : Ready set tl) :
    wp E.protocol c (Prog.forever (popRound set) (false, tl)) (fun r _ => Ready set r.1) v := by
  apply wp.forever (fun b _ => Ready set b.2) h
  rintro ⟨contention, tl'⟩ v₁ hr
  refine wp.bind_of (getWindow_spec hr) ?_
  rintro ⟨descriptor, tl''⟩ v₂ hin
  dsimp only
  split
  · refine wp.bind_of (quiet_spec (.read quiet_refl _)) ?_
    intro next v₃ _
    refine wp.bind_of (quiet_spec (steps_stackCae _ _ _)) ?_
    intro done v₄ _
    cases done with
    | true =>
      refine wp.bind_of (quiet_spec (.read quiet_refl _)) ?_
      intro nodeVal v₅ _
      exact .inr hin
    | false => exact .inr hin
  · exact .inr hin

theorem rows_obligations (hp : Params.WF set) :
    Obligations (.trivial (object set).service (regime Call set)) (fun _ => True)
      (fun _ l _ => Ready set l) (fun _ _ x _ => Ready set x.1) (initial set, {}) () .zero where
  init := ⟨⟨0, le_rfl, by simp [initial]⟩, rfl, (by decide : 0 + 1 < 2 ^ 16), nofun, rfl, rfl⟩
  init_fresh _ := True.intro
  init_loc _ := .inl rfl
  loc_later _ _ _ _ _ _ _ _ _ h := h
  post_stable _ _ _ _ _ _ h := h
  code t op call l v _ _ _ hl _ := by
    cases call with
    | push val => exact wp.bind_of (push_spec hp hl val) fun _ _ h => h
    | pop => exact pop_spec hl
  finish _ _ _ _ _ h := ⟨fun _ _ => True.intro, h⟩

end Rows

/-- In every run with fewer than `2^16 - 1` shifts, the global window and the windows that the
searches of all threads have worked with are some shifts above the lowest one, the assertion of
`get_window` has not failed, and no subtraction has gone below zero. -/
theorem optimizedStack_rows {width depth : ℕ} (hd : 1 ≤ depth ∧ depth < 2 ^ 16)
    {p : Pool (Rows.object (params width depth)).service}
    (hr : Reach (fun _ _ => True) (fun _ s' => s'.1.1.shifts < 2 ^ 16 - 1)
      (initial (params width depth), {})
      .zero p) :
    Rows.InRows (params width depth) p.world.shared.1.1.globalWindow ∧
      (∀ w ∈ p.world.shared.2.held, Rows.InRows (params width depth) w) ∧
      p.world.shared.1.1.failed = false ∧ p.world.shared.2.wrapped = false := by
  have hp : Rows.Params.WF (params width depth) := by
    refine ⟨hd.1, hd.2, ?_⟩
    show (depth + 1) / 2 ≤ depth
    omega
  obtain ⟨g, hi, -⟩ := (Rows.rows_obligations hp).implements.inv hr
  have hi : Rows.Inv (params width depth) p.world.shared := hi
  exact ⟨hi.inRows, hi.held, hi.asserted, hi.above⟩

/-- Two pushes and two pops: the window moves up and down again. -/
theorem optimizedStack_rows_two : ∃ p : Pool (Rows.object (params 1 1)).service,
    p.world.shared.1.1.shifts = 2 ∧ p.world.shared.2.held.length = 13 ∧
      (∀ w ∈ p.world.shared.2.held, Rows.InRows (params 1 1) w) ∧
      p.world.shared.1.1.failed = false := by
  have h : (((Pool.init (Rows.object (params 1 1)).service (initial (params 1 1), {}) .zero).execIf
      (fun _ s' => decide (s'.1.1.shifts < 2 ^ 16 - 1)) (List.flatten [
        Move.invoke 0 (Call.push 7) :: List.replicate 11 (Move.step 0 0),
        Move.invoke 0 (Call.push 8) :: List.replicate 30 (Move.step 0 0),
        Move.invoke 0 Call.pop :: List.replicate 10 (Move.step 0 0),
        Move.invoke 0 Call.pop :: List.replicate 30 (Move.step 0 0)])).any fun p =>
      decide (p.world.shared.1.1.shifts = 2 ∧ p.world.shared.2.held.length = 13)) = true := by
    decide +kernel
  obtain ⟨p, hp, hc⟩ := (Option.any_eq_true _ _).1 h
  obtain ⟨hshifts, hlen⟩ := of_decide_eq_true hc
  have hrows := optimizedStack_rows (by decide)
    (Pool.execIf_reach (fun _ _ => of_decide_eq_true) hp (fun _ _ _ _ => True.intro) .init)
  exact ⟨p, hshifts, hlen, hrows.2.1, hrows.2.2.1⟩

end TwoDcOptimized
