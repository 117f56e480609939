import SemanticRelaxation.TwoD.Counting
import SemanticRelaxation.TwoDc.Copies
import SemanticRelaxation.TwoDc.StackSeq

/-!
# The 2Dc counter, one call at a time (`src/2Dc-counter/2Dc-counter.c`)

The calls with the answers of the build without `VALIDATESIZE`: the new sub-counter times the width.

`create_counter` leaves the window with version 0, which is also the version of a `thread_Window`
that was never loaded (`Unread`). An increment of such a thread fails to shift the window and loads
it then; a decrement takes the first sub-counter it looks at, since that is above the bottom of the
window `(0, 0)`. So it can answer that the counter is empty when only that sub-counter is
(`Misled`), and in no other case (`decrement_spec`).
-/

namespace TwoDc

namespace Counter

open AtomicProg TwoD
open Copies (Count counterInitial counterCae)

abbrev State := Shared Count Unit

/-- `increment`. -/
def increment (set : Params) (tl : Local) : Prog State (Local × ℕ) :=
  Prog.forever (fun (contention, tl) => do
    let (descriptor, tl) ← putWindow set contention tl
    let newDescriptor : Count := ⟨descriptor.count + 1⟩
    let done ← counterCae tl.index descriptor newDescriptor
    if done then return .inr (tl, newDescriptor.count * set.width) else return .inl (true, tl))
      (false, tl)

/-- `decrement`. -/
def decrement (set : Params) (tl : Local) : Prog State (Local × ℕ) :=
  Prog.forever (fun (contention, tl) => do
    let (descriptor, tl) ← getWindow set contention tl
    if 0 < descriptor.count then
      let newDescriptor : Count := ⟨descriptor.count - 1⟩
      let done ← counterCae tl.index descriptor newDescriptor
      if done then return .inr (tl, newDescriptor.count * set.width) else return .inl (true, tl)
    else
      return .inr (tl, 0)) (false, tl)

/-- The code of the calls. -/
def code (set : Params) : CounterCall → Local → Prog State (Local × ℕ)
  | .increment, tl => increment set tl
  | .decrement, tl => decrement set tl

/-! ### Threads that have not loaded the window -/

/-- The thread has never loaded the window, and its version is the global one. -/
def Unread (tl : Local) (s : State) : Prop := tl.window = ⟨0, 0⟩ ∧ s.globalWindow.version = 0

/-- A thread's variables between two calls. -/
structure Known (set : Params) (tl : Local) (s : State) : Prop where
  index_lt : tl.index < set.width
  version_le : tl.window.version ≤ s.globalWindow.version
  current : tl.window.version = s.globalWindow.version → tl.window = s.globalWindow ∨ Unread tl s

variable {set : Params} {s s' : State} {tl : Local}

theorem Known.localOk (h : Known set tl s) (hu : ¬ Unread tl s) : LocalOk set tl s :=
  ⟨h.index_lt, h.version_le, fun he => (h.current he).resolve_right hu⟩

theorem Known.moved (hm : Moved s s') (h : Known set tl s) : Known set tl s' where
  index_lt := h.index_lt
  version_le := h.version_le.trans hm.version_le
  current he := by
    have h₁ := h.version_le
    have h₂ := hm.version_le
    have hsame := hm.same (by omega)
    rcases h.current (by omega) with hc | ⟨hz, hv⟩
    · exact .inl (hc.trans hsame.symm)
    · exact .inr ⟨hz, by rw [hsame]; exact hv⟩

theorem Known.written {a : ℕ → Count} (h : Known set tl s) :
    Known set tl { s with setArray := a } :=
  ⟨h.index_lt, h.version_le, h.current⟩

theorem Known.zero (hp : set.WF) : Known set .zero (counterInitial set) :=
  ⟨hp.width_pos, le_rfl, fun _ => .inr ⟨rfl, rfl⟩⟩

theorem depth_pos (hp : set.WF) : 0 < set.depth := hp.shift_pos.trans_le hp.shift_le

/-- Where `put_window` stands before it has loaded the window: it only hops. -/
structure Blind (set : Params) (s₀ : State) (st : Search) (s : State) : Prop where
  same : s = s₀
  inv : WindowInv set s
  unread : Unread st.tl s
  scan : Scan set.randomHops set.width (fun _ => True) st.tl.index st.random st.hops

/-- The rounds left, with those up to the load. -/
noncomputable def blindMeasure (set : Params) (st : Search) (s : State) : ℕ :=
  putMeasure set st s + if st.tl.window.max = 0 then set.width + 1 else 0

theorem blindRound_spec (hp : set.WF) {s₀ : State} {st : Search} (h : Blind set s₀ st s) :
    Total (.trivial _) (fun r s' => Sum.elim
      (fun st' => (Blind set s₀ st' s' ∨ PutLoop set s₀ st' s') ∧
        blindMeasure set st' s' < blindMeasure set st s)
      (fun a => PutPost set s₀ a s') r) (putRound set st) s := by
  obtain ⟨⟨window, index⟩, hops, random, empty⟩ := st
  obtain ⟨rfl, hi, ⟨hwin, hver⟩, hscan⟩ := h
  obtain rfl : window = ⟨0, 0⟩ := hwin
  have hversion : ¬ s.globalWindow.version ≠ 0 := not_not.2 hver
  refine readDescriptor_bind ?_
  simp only [Total.read_iff]
  rw [if_neg hversion, if_neg (Nat.not_lt_zero _)]
  by_cases hh : hops = set.width
  · -- the window is not the global one, so the exchange fails and the window is loaded
    have hd := depth_pos hp
    have htop := hi.depth_le
    rw [if_neg (not_not.2 hh)]
    have hne : s.globalWindow ≠ ⟨0, 0⟩ := fun he => by
      rw [he] at htop
      exact absurd htop (Nat.not_le.2 hd)
    simp only [tryShift, hver, and_self, if_true, caeWindow, Prog.cae, Prog.bind_assoc,
      Total.read_iff, Total.update_iff, if_neg hne, Bool.false_eq_true, if_false, readWindow]
    refine fun _ => ⟨True.intro, .ret ⟨.inr ⟨.refl s, hi, ?_, .start hscan.lt⟩, ?_⟩⟩
    · show (⟨_, _⟩ : Window) = s.globalWindow
      rw [← hver]
    · have hmax : s.globalWindow.max ≠ 0 := by omega
      simp only [blindMeasure, putMeasure, hopsLeft, if_true, if_neg hmax, hh]
      omega
  · rw [if_pos hh]
    refine Total.bind_of (hop_spec hp.fits hscan True.intro hh) ?_
    rintro ⟨i, random', hops'⟩ s' ⟨rfl, hs, hlt⟩
    refine .ret ⟨.inl ⟨rfl, hi, ⟨rfl, hver⟩, hs⟩, ?_⟩
    simp only [blindMeasure, putMeasure, if_true] at hlt ⊢
    omega

/-- `put_window` by a thread that may not have loaded the window. -/
theorem putWindow_spec (hp : set.WF) (hi : WindowInv set s) (hl : Known set tl s) :
    Total (.trivial _) (PutPost set s) (putWindow set false tl) s := by
  by_cases hu : Unread tl s
  · obtain ⟨hwin, hver⟩ := hu
    have hversion : tl.window.version = s.globalWindow.version := by rw [hwin, hver]
    simp only [putWindow, enter, syncWindow, startIndex, Prog.bind_assoc, Total.read_iff, hversion,
      ne_eq, not_true_eq_false, if_false, Bool.false_eq_true]
    apply Total.forever (fun st s' => Blind set s st s' ∨ PutLoop set s st s') (blindMeasure set)
    · rintro st s' (hb | hloop)
      · exact blindRound_spec hp hb
      · refine (putRound_spec hp hloop).mono ?_
        rintro (st' | a) s'' hr
        · obtain ⟨hloop', hlt⟩ := hr
          have hmax : st'.tl.window.max ≠ 0 := by
            have := hloop'.inv.depth_le
            have := depth_pos hp
            rw [hloop'.window]
            omega
          refine ⟨.inr hloop', ?_⟩
          unfold blindMeasure
          rw [if_neg hmax]
          omega
        · exact hr
    · exact .inl ⟨rfl, hi, ⟨hwin, hver⟩, .start hl.index_lt⟩
  · exact TwoDc.putWindow_spec hp hi (hl.localOk hu)

/-- `get_window` by a thread that has not loaded the window: the first sub-counter it looks at. -/
theorem getWindow_unread (hp : set.WF) (hu : Unread tl s) :
    Total (.trivial _) (fun r s' => s' = s ∧ r = (s.setArray tl.index, tl))
      (getWindow set false tl) s := by
  obtain ⟨window, index⟩ := tl
  obtain rfl : window = ⟨0, 0⟩ := hu.1
  have hver : s.globalWindow.version = 0 := hu.2
  have hlow : (0 : ℕ) < HasCount.count (s.setArray index) + set.depth :=
    (depth_pos hp).trans_le (Nat.le_add_left _ _)
  simp only [getWindow, enter, syncWindow, startIndex, Prog.bind_assoc, Total.read_iff, hver, ne_eq,
    not_true_eq_false, if_false, Bool.false_eq_true]
  apply Total.forever_once
  refine readDescriptor_bind ?_
  simp only [Total.read_iff, hver, ne_eq, not_true_eq_false, if_false, hp.modulus_eq, Nat.mod_zero,
    if_pos hlow]
  exact .ret ⟨_, rfl, rfl, rfl⟩

/-! ### The calls -/

/-- The invariant between two calls. -/
structure Inv (set : Params) (s : State) : Prop where
  window : WindowInv set s
  first : s.globalWindow.version = 0 → s.globalWindow.max = set.depth

theorem Inv.initial : Inv set (counterInitial set) where
  window := ⟨⟨0, by simp [counterInitial]⟩, fun _ _ => Nat.zero_le _,
    fun _ _ => Nat.le_add_left _ _⟩
  first _ := rfl

theorem Inv.moved (h : Inv set s) (hm : Moved s s') (hw : WindowInv set s') : Inv set s' where
  window := hw
  first hv := by
    have hle := hm.version_le
    rw [hm.same (by omega)]
    exact h.first (by omega)

/-- One sub-counter is set to a count in the window. -/
theorem Inv.set_count (h : Inv set s) {j n : ℕ} (hle : n ≤ s.globalWindow.max)
    (hlow : s.globalWindow.max ≤ n + set.depth) :
    Inv set { s with setArray := Function.update s.setArray j ⟨n⟩ } := by
  have hcases : ∀ i, (Function.update s.setArray j ⟨n⟩ i).count = n ∨
      (Function.update s.setArray j ⟨n⟩ i).count = s.count i := by
    intro i
    by_cases hi : i = j
    · subst hi
      simp
    · simp only [Function.update_of_ne hi]
      exact .inr rfl
  constructor
  · refine ⟨h.window.top, fun i hi => ?_, fun i hi => ?_⟩
    · show (Function.update s.setArray j ⟨n⟩ i).count ≤ s.globalWindow.max
      rcases hcases i with he | he
      · omega
      · exact he.trans_le (h.window.le_max i hi)
    · show s.globalWindow.max ≤ (Function.update s.setArray j ⟨n⟩ i).count + set.depth
      rcases hcases i with he | he
      · omega
      · rw [he]
        exact h.window.max_le i hi
  · exact h.first

theorem Inv.even (h : Inv set s) : Even set.width set.depth s.count := by
  intro i hi j hj
  exact (h.window.le_max i hi).trans (h.window.max_le j hj)

/-- A decrement that finds the sub-counter at its index at 0, in the window of no thread, while
another sub-counter is positive. -/
def Misled (set : Params) (tl : Local) (s : State) : Prop :=
  Unread tl s ∧ s.count tl.index = 0 ∧ ∃ j < set.width, 0 < s.count j

/-- What a call leaves. -/
structure Done (set : Params) (c : CounterCall) (s : State) (r : Local × ℕ) (s' : State) :
    Prop where
  inv : Inv set s'
  known : Known set r.1 s'
  kept : ∀ l, Known set l s → Known set l s'
  counts : Counts set.width s.count s'.count c
  answer : ∃ i < set.width, r.2 = s'.count i * set.width

theorem counterCae_spec {β : Type} {Q : β → State → Prop} {idx : ℕ} {old new : Count}
    {k : Bool → Prog State β} (he : s.setArray idx = old)
    (h : Total (.trivial _) Q (k true) { s with setArray := Function.update s.setArray idx new }) :
    Total (.trivial _) Q (counterCae idx old new >>= k) s := by
  unfold counterCae
  simp only [Prog.bind_assoc]
  exact Total.cae_of_eq he fun _ => ⟨True.intro, h⟩

/-- The counts after sub-counter `j` was set. -/
theorem count_update (j n i : ℕ) :
    Shared.count { s with setArray := Function.update s.setArray j ⟨n⟩ } i = if i = j then n
      else s.count i := by
  show (Function.update s.setArray j ⟨n⟩ i).count = _
  rw [Function.update_apply]
  split <;> rfl

theorem increment_spec (hp : set.WF) (hi : Inv set s) (hl : Known set tl s) :
    Total (.trivial _) (Done set .increment s) (increment set tl) s := by
  apply Total.forever_once
  refine Total.bind_of (putWindow_spec hp hi.window hl) ?_
  rintro ⟨d, tl'⟩ s₁ ⟨hm, hw, hwin, hidx, hd, hlt⟩
  obtain rfl : d = s₁.setArray tl'.index := hd
  have hidx : tl'.index < set.width := hidx
  have hlt : s₁.count tl'.index < s₁.globalWindow.max := hlt
  have hwin : tl'.window = s₁.globalWindow := hwin
  have hi₁ := hi.moved hm hw
  refine counterCae_spec rfl ?_
  have hlow : s₁.globalWindow.max ≤ s₁.count tl'.index + 1 + set.depth := by
    have := hw.max_le _ hidx
    omega
  refine .ret ⟨_, rfl, hi₁.set_count hlt hlow, ?_, fun l h => (h.moved hm).written,
    ⟨tl'.index, hidx, ?_⟩,
    tl'.index, hidx, ?_⟩
  · exact ⟨hidx, by rw [hwin], fun _ => .inl hwin⟩
  · intro i _
    rw [count_update, ← hm.count]
    split
    next he =>
      rw [he]
      rfl
    next => rfl
  · rw [count_update, if_pos rfl]

/-- A decrement of a positive sub-counter that stays in the window. -/
theorem decremented {tl' : Local} (hi : Inv set s) (hpos : 0 < s.count tl'.index)
    (hlow : s.globalWindow.max < s.count tl'.index + set.depth) (hidx : tl'.index < set.width)
    (hknown : Known set tl' s) : Done set .decrement s (tl', (s.count tl'.index - 1) * set.width)
      { s with setArray := Function.update s.setArray tl'.index ⟨s.count tl'.index - 1⟩ } := by
  have hle := hi.window.le_max _ hidx
  refine ⟨hi.set_count (by omega) (by omega), hknown.written, fun l h => h.written,
    .inr ⟨tl'.index, hidx, fun i _ => ?_⟩, tl'.index, hidx, ?_⟩
  · rw [count_update]
    split
    next he =>
      subst he
      omega
    next => rfl
  · rw [count_update, if_pos rfl]

theorem Done.of_moved {c : CounterCall} {s₁ : State} {r : Local × ℕ} (hm : Moved s s₁)
    (h : Done set c s₁ r s') : Done set c s r s' where
  inv := h.inv
  known := h.known
  kept l hl := h.kept l (hl.moved hm)
  counts := by
    have : s₁.count = s.count := funext hm.count
    rw [← this]
    exact h.counts
  answer := h.answer

/-- A decrement changes a sub-counter if there is one to change, unless it is misled. -/
theorem decrement_spec (hp : set.WF) (hi : Inv set s) (hl : Known set tl s) :
    Total (.trivial _) (fun r s' => Done set .decrement s r s' ∧
      (((∀ j < set.width, s'.count j = s.count j) → ∀ j < set.width, s.count j = 0) ↔
        ¬ Misled set tl s))
      (decrement set tl) s := by
  apply Total.forever_once
  by_cases hu : Unread tl s
  · refine Total.bind_of (getWindow_unread hp hu) ?_
    rintro _ s₁ ⟨rfl, rfl⟩
    dsimp only
    have hidx := hl.index_lt
    by_cases hpos : 0 < (s₁.setArray tl.index).count
    · rw [if_pos hpos]
      have hpos : 0 < s₁.count tl.index := hpos
      have hlow : s₁.globalWindow.max < s₁.count tl.index + set.depth := by
        rw [hi.first hu.2]
        omega
      have hdone := decremented hi hpos hlow hidx hl
      refine counterCae_spec rfl (.ret ⟨_, rfl, hdone, iff_of_true (fun hsame => ?_) fun hm => ?_⟩)
      · have := hsame _ hidx
        rw [count_update, if_pos rfl] at this
        have : s₁.count tl.index - 1 = s₁.count tl.index := this
        omega
      · exact absurd hm.2.1 hpos.ne'
    · have hzero : s₁.count tl.index = 0 := Nat.eq_zero_of_not_pos hpos
      rw [if_neg hpos]
      refine .ret ⟨_, rfl, ⟨hi, hl, fun _ h => h, .inl fun _ _ => rfl, tl.index, hidx, ?_⟩, ?_⟩
      · rw [hzero, Nat.zero_mul]
      · constructor
        · rintro h ⟨-, -, j, hj, hlt⟩
          exact absurd (h (fun _ _ => rfl) j hj) hlt.ne'
        · intro h _ j hj
          by_contra hne
          exact h ⟨hu, hzero, j, hj, Nat.pos_of_ne_zero hne⟩
  · have hmis : ¬ Misled set tl s := fun h => hu h.1
    refine Total.bind_of (getWindow_spec hp hi.window (hl.localOk hu)) ?_
    rintro ⟨d, tl'⟩ s₁ ⟨hm, hw, hwin, hidx, hd, hans⟩
    obtain rfl : d = s₁.setArray tl'.index := hd
    have hidx : tl'.index < set.width := hidx
    have hwin : tl'.window = s₁.globalWindow := hwin
    have hi₁ := hi.moved hm hw
    have hknown : Known set tl' s₁ := ⟨hidx, by rw [hwin], fun _ => .inl hwin⟩
    dsimp only
    by_cases hpos : 0 < (s₁.setArray tl'.index).count
    · have hlow := hans.resolve_right fun h => hpos.ne' (h _ hidx)
      rw [if_pos hpos]
      have hpos : 0 < s₁.count tl'.index := hpos
      have hdone := (decremented hi₁ hpos hlow hidx hknown).of_moved hm
      refine counterCae_spec rfl (.ret ⟨_, rfl, hdone, iff_of_true (fun hsame => ?_) hmis⟩)
      have := hsame _ hidx
      rw [count_update, if_pos rfl, ← hm.count] at this
      have : s₁.count tl'.index - 1 = s₁.count tl'.index := this
      omega
    · have hzero : s₁.count tl'.index = 0 := Nat.eq_zero_of_not_pos hpos
      have hall : ∀ j < set.width, s₁.count j = 0 := by
        rcases hans with hlow | hall
        · have hlow : s₁.globalWindow.max < s₁.count tl'.index + set.depth := hlow
          have := hw.depth_le
          omega
        · exact hall
      rw [if_neg hpos]
      refine .ret ⟨_, rfl, Done.of_moved hm ⟨hi₁, hknown, fun _ h => h, .inl fun _ _ => rfl,
        tl'.index, hidx, ?_⟩,
        iff_of_true (fun _ j hj => ?_) hmis⟩
      · rw [hzero, Nat.zero_mul]
      · rw [← hm.count]
        exact hall j hj

theorem code_spec (hp : set.WF) (c : CounterCall) (hi : Inv set s) (hl : Known set tl s) :
    Total (.trivial _) (Done set c s) (code set c tl) s := by
  cases c with
  | increment => exact increment_spec hp hi hl
  | decrement => exact (decrement_spec hp hi hl).mono fun _ _ h => h.1

theorem known {width depth : ℕ} (hw : 1 ≤ width ∧ width < 2 ^ 16) (hd : 1 ≤ depth)
    {es : List (Event State CounterCall ℕ)} {ls : ℕ → Local}
    (h : SeqCalls (code (Stack.params width depth))
      (counterInitial (Stack.params width depth)) .zero es s ls) :
    Inv (Stack.params width depth) s ∧ (∀ t, Known (Stack.params width depth) (ls t) s) ∧
      ∀ e ∈ es, Counts width e.before.count e.after.count e.call ∧
        Even width depth e.after.count ∧ ∃ i < width, e.ret = e.after.count i * width := by
  have hp := Stack.params_wf hw.1 hw.2 hd
  refine SeqCalls.invariant (Inv (Stack.params width depth))
    (Known (Stack.params width depth)) _ .initial
    (.zero hp) ?_ h
  intro c l s hi hl
  refine (code_spec hp c hi hl).mono ?_
  intro r s' hdone
  exact ⟨hdone.inv, hdone.known, hdone.kept, hdone.counts, hdone.inv.even, hdone.answer⟩

/-- A decrement that changes no sub-counter has found all of them 0, unless the thread has never
loaded the window, which is still the first one, and the sub-counter at its index alone is 0. -/
theorem coupledCounter_empty {width depth : ℕ} (hw : 1 ≤ width ∧ width < 2 ^ 16)
    (hd : 1 ≤ depth ∧ depth < 2 ^ 16) {es : List (Event State CounterCall ℕ)} {ls : ℕ → Local}
    (h : SeqCalls (code (Stack.params width depth))
      (counterInitial (Stack.params width depth)) .zero es s ls)
    (t : ℕ) {l : Local} {r : ℕ} {s' : State} {tr : List (State × State)}
    (hr : (decrement (Stack.params width depth) (ls t)).Runs s (l, r) s' tr) :
    ((∀ j < width, s'.count j = s.count j) → ∀ j < width, s.count j = 0) ↔
      ¬ Misled (Stack.params width depth) (ls t) s := by
  obtain ⟨hi, hl, -⟩ := known hw hd.1 h
  have hp := Stack.params_wf hw.1 hw.2 hd.1
  exact ((decrement_spec hp hi (hl t)).runs hr fun _ _ => True.intro).1.2

/-- The second thread decrements what the first one has incremented. -/
theorem coupledCounter_empty_one : ∃ s s' : State, s.count 0 = 1 ∧ s'.count 0 = 0 ∧
    (((∀ j < 2, s'.count j = s.count j) → ∀ j < 2, s.count j = 0) ↔ ¬ Misled
      (Stack.params 2 2) .zero s) :=
  ⟨_, _, rfl, rfl, coupledCounter_empty (by decide) (by decide)
    (.call 0 .increment .init ⟨60, fun _ => 0, rfl⟩) 1 ⟨20, fun _ => 0, rfl⟩⟩

/-- The first thread increments sub-counter 1 of two. The second one starts at sub-counter 0 with a
window that it has never loaded, and answers that the counter is empty. -/
theorem coupledCounter_misled :
    ∃ (es : List (Event State CounterCall ℕ)) (s s' : State) (ls : ℕ → Local)
    (l : Local) (r : ℕ) (tr : List (State × State)),
    SeqCalls (code (Stack.params 2 2)) (counterInitial (Stack.params 2 2)) .zero es s ls ∧
      (decrement (Stack.params 2 2) (ls 1)).Runs s (l, r) s' tr ∧
      (∀ j < 2, s'.count j = s.count j) ∧ ¬ ∀ j < 2, s.count j = 0 :=
  ⟨_, _, _, _, _, _, _, .call 0 .increment .init ⟨60, fun _ => 1, rfl⟩, ⟨20, fun _ => 0, rfl⟩,
    fun _ _ => rfl, fun h => absurd (h 1 (by decide)) (by decide)⟩

end Counter

end TwoDc
