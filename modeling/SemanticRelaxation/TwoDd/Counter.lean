import SemanticRelaxation.TwoDd.EmptySearch

/-!
# The 2Dd counter (`src/2Dd-counter/2Dd-counter.c`)

An array of pairs of counts, of the increments and of the decrements of a sub-counter. `get_array`
and `put_array` are the same array, and `create_counter` leaves both windows at 0. The calls answer
1, as the build with `VALIDATESIZE` does, or 0 for the empty counter, here with the `return`
statement of `get_window`.
-/

namespace TwoDd

namespace Counter

open AtomicProg TwoD Interleaved

/-- `descriptor_t`, with the get count first. -/
structure Descriptor where
  getCount : ℕ
  putCount : ℕ
  deriving DecidableEq

/-- The array of descriptors. -/
structure Memory where
  array : ℕ → Descriptor

instance : Arrays Memory Descriptor where
  put m := m.array
  get m := m.array
  putCount := Descriptor.putCount
  getCount := Descriptor.getCount
  copy first second := ⟨first.getCount, second.putCount⟩
  copy_self _ := rfl

abbrev State := Shared Memory

/-- `create_counter`: the fields that the window code reads. -/
def params (width depth : ℕ) : Params := ⟨width, depth, 2⟩

/-- The shared memory that `create_counter` leaves. -/
def initial : State := ⟨0, 0, ⟨fun _ => ⟨0, 0⟩⟩⟩

/-- `counter_cae` on the descriptor with index `idx`. -/
def counterCae (idx : ℕ) (old new : Descriptor) : Prog State Bool := do
  let (done, _) ← Prog.cae (fun s : State => s.mem.array idx)
    (fun d s => { s with mem := ⟨Function.update s.mem.array idx d⟩ }) old new
  return done

/-- What the calls answer. -/
inductive Answer
  | one
  | empty (exit : Exit)

/-- `increment`. -/
def increment (set : Params) (tl : Local) : Prog State (Local × Answer) :=
  Prog.forever (fun (contention, tl) => do
    let (descriptor, tl) ← putWindow set contention tl
    let newDescriptor : Descriptor := ⟨descriptor.getCount, descriptor.putCount + 1⟩
    let done ← counterCae tl.index descriptor newDescriptor
    if done then return .inr (tl, .one) else return .inl (true, tl)) (false, tl)

/-- `decrement`. The difference of the counts is unsigned, so it is positive if they differ. -/
def decrement (set : Params) (tl : Local) : Prog State (Local × Answer) :=
  Prog.forever (fun (contention, tl) => do
    let (exit, descriptor, tl) ← getWindowExit set contention tl
    if descriptor.putCount ≠ descriptor.getCount then
      let newDescriptor : Descriptor := ⟨descriptor.getCount + 1, descriptor.putCount⟩
      let done ← counterCae tl.index descriptor newDescriptor
      if done then return .inr (tl, .one) else return .inl (true, tl)
    else
      return .inr (tl, .empty exit)) (false, tl)

/-- The calls of the interface. -/
inductive Call
  | increment
  | decrement

/-- The counter as a shared object. -/
def object (set : Params) : Object State Local where
  Call := Call
  Ret := Answer
  code
    | .increment, tl => increment set tl
    | .decrement, tl => decrement set tl

/-! ### The rules that all threads keep to -/

/-- Sub-counter `j` is zero. -/
def Clear (j : ℕ) (s : State) : Prop := (s.mem.array j).putCount = (s.mem.array j).getCount

/-- No sub-counter is negative, and no count of decrements goes back. -/
def regime (C : Type) (width : ℕ) : Regime C State Unit where
  inv _ x := ∀ j < width, (x.1.mem.array j).getCount ≤ (x.1.mem.array j).putCount
  frame _ x x' := ∀ j, (x.1.mem.array j).getCount ≤ (x'.1.mem.array j).getCount
  fresh _ _ := True
  assume _ _ := True
  refl _ _ _ := le_rfl
  trans _ _ _ _ h₁ h₂ j := (h₁ j).trans (h₂ j)
  inv_call _ _ _ h := h
  fresh_later _ _ _ _ _ := True.intro

theorem indifferent (C : Type) (width : ℕ) : Indifferent (regime C width) where
  inv _ x s hm h j hj := by
    show (s.mem.array j).getCount ≤ (s.mem.array j).putCount
    rw [hm]
    exact h j hj
  frame _ x s hm j := by
    show (x.1.mem.array j).getCount ≤ (s.mem.array j).getCount
    rw [hm]

section Specs

variable {set : Params} {E : Results (object set).service (regime Call set.width)} {c : Caller}
  {v : View E.protocol c} {j : ℕ} {d d' : Descriptor}

theorem le_put (v : View E.protocol c) (hj : j < set.width) :
    (v.state.mem.array j).getCount ≤ (v.state.mem.array j).putCount := v.inv_pair j hj

theorem shows : Shows set c E Clear := by
  intro j hj v₁ v₂ v₃ h₁ h₂ he
  have he : (v₃.state.mem.array j).putCount = (v₁.state.mem.array j).getCount := he
  have hget : (v₁.state.mem.array j).getCount ≤ (v₃.state.mem.array j).getCount :=
    v₁.frame_op (h₁.trans h₂) j
  exact le_antisymm (he.le.trans hget) (le_put v₃ hj)

/-- An exchange that keeps a sub-counter from being negative. -/
theorem counterCae_spec (hget : d.getCount ≤ d'.getCount)
    (hle : d.getCount ≤ d.putCount → d'.getCount ≤ d'.putCount) (hj : j < set.width) :
    wp E.protocol c (counterCae j d d') (fun _ _ => True) v := by
  refine wp.cae (fun v₁ h₁ he _ => ?_) fun v₁ h₁ _ => True.intro
  obtain rfl : v₁.state.mem.array j = d := he
  have hall := Regime.allows v₁
    (s := { v₁.state with mem := ⟨Function.update v₁.state.mem.array j d'⟩ })
    (g := ()) (fun i hi => ?_) fun o _ i => ?_
  · exact ⟨(), hall, True.intro⟩
  · show (Function.update v₁.state.mem.array j d' i).getCount ≤
      (Function.update v₁.state.mem.array j d' i).putCount
    by_cases hij : i = j
    · subst hij
      rw [Function.update_self]
      exact hle (le_put v₁ hj)
    · rw [Function.update_of_ne hij]
      exact le_put v₁ hi
  · show (v₁.state.mem.array i).getCount ≤ (Function.update v₁.state.mem.array j d' i).getCount
    by_cases hij : i = j
    · subst hij
      rw [Function.update_self]
      exact hget
    · rw [Function.update_of_ne hij]

theorem increment_spec (hf : Fits types set.randomHops set.width) {tl : Local}
    (hi : tl.index < set.width) : wp E.protocol c (increment set tl)
      (fun r _ => r.1.index < set.width ∧ r.2 = .one) v := by
  refine wp.forever (fun b _ => b.2.index < set.width) hi ?_
  rintro ⟨contention, tl'⟩ v₁ hidx
  refine wp.bind_of (putWindow_spec (indifferent _ _) hf hidx) ?_
  rintro ⟨d, tl''⟩ v₂ ⟨-, hidx₂, -⟩
  refine wp.bind_of (counterCae_spec le_rfl (fun h => h.trans (Nat.le_succ _)) hidx₂)
    fun done _ _ => ?_
  cases done with
  | true => exact ⟨hidx₂, rfl⟩
  | false => exact hidx₂

/-- A `decrement` that ends after an `Empty return` has seen all sub-counters at zero. -/
theorem decrement_spec (hf : Fits types set.randomHops set.width) {tl : Local}
    (hi : tl.index < set.width) : wp E.protocol c (decrement set tl) (fun r v' =>
      r.1.index < set.width ∧ (r.2 = .empty .empty → ∀ j < set.width, WasClear Clear j v')) v := by
  refine wp.forever (fun b _ => b.2.index < set.width) hi ?_
  rintro ⟨contention, tl'⟩ v₁ hidx
  refine wp.bind_of (getWindowExit_spec (indifferent _ _) hf shows hidx) ?_
  rintro ⟨exit, d, tl''⟩ v₂ ⟨-, hidx₂, -, hclear⟩
  dsimp only
  split
  next hne =>
    refine wp.bind_of (counterCae_spec (Nat.le_succ _) (fun h => ?_) hidx₂) fun done _ _ => ?_
    · exact lt_of_le_of_ne h (Ne.symm hne)
    · cases done with
      | true => exact ⟨hidx₂, nofun⟩
      | false => exact hidx₂
  next =>
    refine ⟨hidx₂, fun he => hclear ?_⟩
    injection he

end Specs

theorem counter_obligations {set : Params} (hf : Fits types set.randomHops set.width) :
    Obligations (.trivial (object set).service (regime Call set.width)) (fun _ => True)
      (fun _ l _ => l.index < set.width)
      (fun _ _ x v => x.1.index < set.width ∧
        (x.2 = .empty .empty → ∀ j < set.width, WasClear Clear j v))
      initial () .zero where
  init _ _ := le_rfl
  init_fresh _ := True.intro
  init_loc _ := hf.width_pos
  loc_later _ _ _ _ _ _ _ _ _ h := h
  post_stable _ _ _ _ _ h hp := ⟨hp.1, fun he j hj => (hp.2 he j hj).later h.1⟩
  code t op call l v _ _ _ hl _ := by
    cases call with
    | increment => exact (increment_spec hf hl).mono fun _ _ h =>
        ⟨h.1, fun he => by simp [h.2] at he⟩
    | decrement => exact decrement_spec hf hl
  finish _ _ _ _ _ h := ⟨fun _ _ => True.intro, h.1⟩

end Counter

end TwoDd
