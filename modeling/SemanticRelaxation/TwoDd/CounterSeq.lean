import SemanticRelaxation.TwoD.Counting
import SemanticRelaxation.TwoDd.Counter
import SemanticRelaxation.TwoDd.WindowSeq
import SemanticRelaxation.TwoDc.Counter

/-!
# The values that the 2D counters answer, one call at a time

The calls of the 2Dd counter with the answers of the build without `VALIDATESIZE`: what is left of
the sub-counter, times the width. The put counts lie in one window and the get counts in another,
each `depth` high, so no two sub-counters are more than `2 * depth` apart.

`counters_accurate` says for both 2D counters that the answers stay within the bound that the
structures report.
-/

namespace TwoDd

namespace Counter

open AtomicProg TwoD

namespace Estimate

/-- `increment`. -/
def increment (set : Params) (tl : Local) : Prog State (Local × ℕ) :=
  Prog.forever (fun (contention, tl) => do
    let (descriptor, tl) ← putWindow set contention tl
    let newDescriptor : Descriptor := ⟨descriptor.getCount, descriptor.putCount + 1⟩
    let done ← counterCae tl.index descriptor newDescriptor
    if done then
      return .inr (tl, (newDescriptor.putCount - newDescriptor.getCount) * set.width)
    else
      return .inl (true, tl)) (false, tl)

/-- `decrement`. The difference of the counts is unsigned, so it is positive if they differ. -/
def decrement (set : Params) (tl : Local) : Prog State (Local × ℕ) :=
  Prog.forever (fun (contention, tl) => do
    let (descriptor, tl) ← getWindow set contention tl
    if descriptor.putCount ≠ descriptor.getCount then
      let newDescriptor : Descriptor := ⟨descriptor.getCount + 1, descriptor.putCount⟩
      let done ← counterCae tl.index descriptor newDescriptor
      if done then
        return .inr (tl, (newDescriptor.putCount - newDescriptor.getCount) * set.width)
      else
        return .inl (true, tl)
    else
      return .inr (tl, 0)) (false, tl)

/-- The code of the calls. -/
def code (set : Params) : CounterCall → Local → Prog State (Local × ℕ)
  | .increment, tl => increment set tl
  | .decrement, tl => decrement set tl

variable {set : Params} {s s' : State} {tl : Local}

theorem params_wf {width depth : ℕ} (hm : 0 < width % 2 ^ 32) (hw : width < 2 ^ 64)
    (hd : 1 ≤ depth) : (params width depth).WF where
  fits := ⟨hm, (by decide : 2 < 2 ^ 64), hw⟩
  depth_pos := hd

theorem window_initial : WindowInv set initial where
  put_dvd := dvd_zero _
  get_dvd := dvd_zero _
  put_le _ _ := le_rfl
  le_put _ _ := Nat.zero_le _
  get_le _ _ := le_rfl
  le_get _ _ := Nat.zero_le _
  get_le_put _ _ := le_rfl

/-- What is left of sub-counter `j`. -/
def left (s : State) (j : ℕ) : ℕ := s.putCount j - s.getCount j

/-- The windows keep the sub-counters near each other. -/
theorem even_left (h : WindowInv set s) : Even set.width (2 * set.depth) (left s) := by
  intro i hi j hj
  have h₁ := h.put_le i hi
  have h₂ := h.le_put j hj
  have h₃ := h.le_get i hi
  have h₄ := h.get_le j hj
  have h₅ := h.get_le_put j hj
  unfold left
  omega

theorem counterCae_spec {β : Type} {Q : β → State → Prop} {idx : ℕ} {old new : Descriptor}
    {k : Bool → Prog State β} (he : s.mem.array idx = old)
    (h : Total (.trivial _) Q (k true) { s with mem := ⟨Function.update s.mem.array idx new⟩ }) :
    Total (.trivial _) Q (counterCae idx old new >>= k) s := by
  unfold counterCae
  simp only [Prog.bind_assoc]
  exact Total.cae_of_eq he fun _ => ⟨True.intro, h⟩

/-- What a call leaves. -/
structure Done (set : Params) (c : CounterCall) (s : State) (r : Local × ℕ) (s' : State) :
    Prop where
  window : WindowInv set s'
  index_lt : r.1.index < set.width
  counts : Counts set.width (left s) (left s') c
  answer : ∃ i < set.width, r.2 = left s' i * set.width

theorem Done.of_mem {c : CounterCall} {s₁ : State} {r : Local × ℕ} (hm : s₁.mem = s.mem)
    (h : Done set c s₁ r s') : Done set c s r s' where
  window := h.window
  index_lt := h.index_lt
  counts := by
    have he : left s₁ = left s := by
      funext j
      simp only [left, Shared.putCount, Shared.getCount, hm]
    rw [← he]
    exact h.counts
  answer := h.answer

/-- The counts after the descriptor with index `j` was set. -/
theorem put_update (j : ℕ) (d : Descriptor) (i : ℕ) :
    Shared.putCount ({ s with mem := ⟨Function.update s.mem.array j d⟩ } : State) i =
      if i = j then d.putCount else s.putCount i := by
  show (Function.update s.mem.array j d i).putCount = _
  rw [Function.update_apply]
  split <;> rfl

theorem get_update (j : ℕ) (d : Descriptor) (i : ℕ) :
    Shared.getCount ({ s with mem := ⟨Function.update s.mem.array j d⟩ } : State) i =
      if i = j then d.getCount else s.getCount i := by
  show (Function.update s.mem.array j d i).getCount = _
  rw [Function.update_apply]
  split <;> rfl

theorem increment_spec (hp : set.WF) (hi : WindowInv set s) (hl : tl.index < set.width) :
    Total (.trivial _) (Done set .increment s) (increment set tl) s := by
  apply Total.forever_once
  refine Total.bind_of (putWindow_spec hp hi hl) ?_
  rintro ⟨d, tl'⟩ s₁ ⟨hm, -, hw, -, hidx, hd, hlt⟩
  obtain rfl : d = s₁.mem.array tl'.index := hd
  have hidx : tl'.index < set.width := hidx
  have hlt : s₁.putCount tl'.index < s₁.globalPWindow := hlt
  have hle := hw.get_le_put _ hidx
  refine counterCae_spec rfl
    (.ret ⟨_, rfl, Done.of_mem hm ⟨?_, hidx, ⟨tl'.index, hidx, ?_⟩, tl'.index, hidx, ?_⟩⟩)
  · apply hw.put hlt
    · exact (put_update ..).trans (if_pos rfl)
    · intro i hne
      exact (put_update ..).trans (if_neg hne)
    · intro i
      refine (get_update ..).trans ?_
      split
      next he =>
        rw [he]
        rfl
      next => rfl
  · intro i _
    unfold left
    rw [put_update, get_update]
    split
    next he =>
      subst he
      show s₁.putCount tl'.index + 1 - s₁.getCount tl'.index = _
      omega
    next => rfl
  · unfold left
    rw [put_update, get_update, if_pos rfl, if_pos rfl]

theorem decrement_spec (hp : set.WF) (hi : WindowInv set s) (hl : tl.index < set.width) :
    Total (.trivial _) (Done set .decrement s) (decrement set tl) s := by
  apply Total.forever_once
  refine Total.bind_of (getWindow_spec hp hi hl) ?_
  rintro ⟨d, tl'⟩ s₁ ⟨hm, -, hw, -, hidx, hd, hans⟩
  obtain rfl : d = s₁.mem.array tl'.index := hd
  have hidx : tl'.index < set.width := hidx
  dsimp only
  by_cases hne : (s₁.mem.array tl'.index).putCount ≠ (s₁.mem.array tl'.index).getCount
  · have hne' : s₁.putCount tl'.index ≠ s₁.getCount tl'.index := hne
    obtain ⟨hlt, hpos⟩ := hans.resolve_right fun h => hne' (h _ hidx)
    have hlt : s₁.getCount tl'.index < s₁.globalGWindow := hlt
    have hpos : s₁.getCount tl'.index < s₁.putCount tl'.index := hpos
    rw [if_pos hne]
    refine counterCae_spec rfl
      (.ret ⟨_, rfl, Done.of_mem hm ⟨?_, hidx, .inr ⟨tl'.index, hidx, ?_⟩, tl'.index, hidx, ?_⟩⟩)
    · apply hw.get hlt hpos
      · exact (get_update ..).trans (if_pos rfl)
      · intro i hne
        exact (get_update ..).trans (if_neg hne)
      · intro i
        refine (put_update ..).trans ?_
        split
        next he =>
          rw [he]
          rfl
        next => rfl
    · intro i _
      unfold left
      rw [put_update, get_update]
      split
      next he =>
        subst he
        show _ = s₁.putCount tl'.index - (s₁.getCount tl'.index + 1) + 1
        omega
      next => rfl
    · unfold left
      rw [put_update, get_update, if_pos rfl, if_pos rfl]
  · rw [if_neg hne]
    have he : s₁.putCount tl'.index = s₁.getCount tl'.index := not_not.1 hne
    refine .ret ⟨_, rfl, Done.of_mem hm ⟨hw, hidx, .inl fun _ _ => rfl, tl'.index, hidx, ?_⟩⟩
    unfold left
    rw [he, Nat.sub_self, Nat.zero_mul]

theorem code_spec (hp : set.WF) (c : CounterCall) (hi : WindowInv set s)
    (hl : tl.index < set.width) :
    Total (.trivial _) (Done set c s) (code set c tl) s := by
  cases c with
  | increment => exact increment_spec hp hi hl
  | decrement => exact decrement_spec hp hi hl

theorem known {width depth : ℕ} (hm : 0 < width % 2 ^ 32) (hw : width < 2 ^ 64) (hd : 1 ≤ depth)
    {es : List (Event State CounterCall ℕ)} {ls : ℕ → Local}
    (h : SeqCalls (code (params width depth)) initial .zero es s ls) :
    ∀ e ∈ es, Counts width (left e.before) (left e.after) e.call ∧
      Even width (2 * depth) (left e.after) ∧ ∃ i < width, e.ret = left e.after i * width := by
  have hp := params_wf hm hw hd
  refine (SeqCalls.invariant (WindowInv (params width depth))
    (fun l _ => l.index < width) _ window_initial
    hp.fits.width_pos ?_ h).2.2
  intro c l s hi hl
  refine (code_spec hp c hi hl).mono ?_
  intro r s' hdone
  exact ⟨hdone.window, hdone.index_lt, fun _ h => h, hdone.counts, even_left hdone.window,
    hdone.answer⟩

end Estimate

/-- The answers of both 2D counters are accurate up to the bound on the relaxation. -/
theorem counters_accurate {width depth : ℕ} (hd : 1 ≤ depth) :
    (0 < width % 2 ^ 32 → width < 2 ^ 64 →
      ∀ (es : List (Event State CounterCall ℕ)) (s : State) (ls : ℕ → Local),
      SeqCalls (Estimate.code (params width depth)) initial .zero es s ls →
        Accurate width depth Estimate.left es) ∧
    (1 ≤ width → width < 2 ^ 16 → depth < 2 ^ 16 →
      ∀ (es : List (Event TwoDc.Counter.State CounterCall ℕ)) (s : TwoDc.Counter.State)
        (ls : ℕ → TwoDc.Local),
      SeqCalls (TwoDc.Counter.code (TwoDc.Stack.params width depth))
        (TwoDc.Copies.counterInitial (TwoDc.Stack.params width depth)) .zero es s ls →
        Accurate width depth TwoDc.Shared.count es) := by
  constructor
  · intro hm hw es s ls h
    exact h.accurate (fun _ _ => rfl) le_rfl (Estimate.known hm hw hd h)
  · intro hw hw' _ es s ls h
    exact h.accurate (fun _ _ => rfl) (by omega) (TwoDc.Counter.known ⟨hw, hw'⟩ hd h).2.2

/-- Two threads increment each of the counters five times, with two sub-counters and depth 1, and
decrement it once, with shifts of the windows. The last answers are 6 and 4, for a total of 4. -/
theorem counters_accurate_six :
    (∃ es : List (Event State CounterCall ℕ), es.map Event.ret = [6, 2, 4, 4, 2, 2] ∧
      Accurate 2 1 Estimate.left es) ∧
    ∃ es : List (Event TwoDc.Counter.State CounterCall ℕ), es.map Event.ret = [4, 2, 4, 4, 2, 2] ∧
      Accurate 2 1 TwoDc.Shared.count es :=
  ⟨⟨_, rfl, (counters_accurate (by decide)).1 (by decide) (by decide) _ _ _
      (.call 1 .increment (.call 0 .decrement (.call 0 .increment (.call 1 .increment
        (.call 1 .increment (.call 0 .increment .init
          ⟨60, fun _ => 0, rfl⟩) ⟨60, fun _ => 1, rfl⟩) ⟨60, fun _ => 0, rfl⟩) ⟨60,
          fun _ => 0, rfl⟩)
            ⟨60, fun _ => 1, rfl⟩) ⟨60, fun _ => 0, rfl⟩)⟩,
    _, rfl, (counters_accurate (by decide)).2 (by decide) (by decide) (by decide) _ _ _
      (.call 1 .increment (.call 0 .decrement (.call 0 .increment (.call 1 .increment
        (.call 1 .increment (.call 0 .increment .init
          ⟨60, fun _ => 0, rfl⟩) ⟨60, fun _ => 1, rfl⟩) ⟨60, fun _ => 0, rfl⟩) ⟨60,
          fun _ => 0, rfl⟩)
            ⟨60, fun _ => 1, rfl⟩) ⟨60, fun _ => 0, rfl⟩)⟩

end Counter

end TwoDd
