import SemanticRelaxation.TwoDd.Window
import SemanticRelaxation.TwoD.Rely
import SemanticRelaxation.Prog.Regime

/-!
# When `get_window` reports empty

`get_window` has two `return` statements, and its caller does not learn which of them was taken.
`getRoundExit` is `getRound` with this additional result (`getRound_eq`).

The specifications here are for all regimes that do not speak about the windows (`Indifferent`): the
descriptor that a search returns was read word by word (`Copied`), and a search that leaves by the
`Empty return` has seen every sub-structure empty, if this is what the comparison of its counts
shows (`getWindowExit_spec`).
-/

namespace TwoDd

open AtomicProg TwoD

/-- The `return` statements of `get_window`. -/
inductive Exit
  | valid
  | empty
  deriving DecidableEq

variable {X D : Type} [Arrays X D]

/-- One round of the loop of `get_window`, with the `return` statement that ends it. -/
def getRoundExit (set : Params) (st : Search) : Prog (Shared X) (Search ⊕ (Exit × D × Local)) := do
  let descriptor ← readDescriptor Arrays.get st.tl.index
  let putCount ← Prog.read fun s => Arrays.putCount X (Arrays.put s.mem st.tl.index)
  let readGlobalGWindow ← Prog.read Shared.globalGWindow
  if readGlobalGWindow ≠ st.tl.gWindow then
    return .inl { st with
      hops := 0, notempty := false, tl := { st.tl with gWindow := readGlobalGWindow } }
  else if Arrays.getCount X descriptor < readGlobalGWindow ∧
      putCount ≠ Arrays.getCount X descriptor then
    return .inr (.valid, descriptor, st.tl)
  else if st.hops ≠ set.width then
    let notempty := st.notempty || putCount ≠ Arrays.getCount X descriptor
    let (index, random, hops) ← hop set st.tl.index st.random st.hops
    return .inl ⟨{ st.tl with index }, hops, random, notempty⟩
  else if st.notempty then
    let gWindow ← shiftWindow Shared.globalGWindow (fun m s => { s with globalGWindow := m })
      st.tl.gWindow (st.tl.gWindow + set.depth)
    return .inl { st with hops := 0, notempty := false, tl := { st.tl with gWindow } }
  else
    return .inr (.empty, descriptor, st.tl)

/-- It is the round of `getWindow`. -/
theorem getRound_eq (set : Params) (st : Search) :
    (getRound set st : Prog (Shared X) (Search ⊕ (D × Local))) =
      getRoundExit set st >>= fun r => Prog.ret (r.map id Prod.snd) := by
  unfold getRound getRoundExit
  simp only [Prog.bind_assoc]
  congr 1
  funext d
  congr 1
  funext putCount
  congr 1
  funext max
  split
  · rfl
  · split
    · rfl
    · split
      · simp only [Prog.bind_assoc]
        rfl
      · split
        · simp only [Prog.bind_assoc]
          rfl
        · rfl

/-- `get_window`. -/
def getWindowExit (set : Params) (contention : Bool) (tl : Local) :
    Prog (Shared X) (Exit × D × Local) := do
  let gWindow ← Prog.read Shared.globalGWindow
  let index ← startIndex set contention tl.index
  let gWindow ← syncWindow Shared.globalGWindow gWindow
  Prog.forever (getRoundExit set) ⟨{ tl with index, gWindow }, 0, 0, false⟩

namespace Interleaved

/-- A regime that does not speak about the windows. -/
structure Indifferent {C Γ : Type} (R : Regime C (Shared X) Γ) : Prop where
  inv : ∀ calls x s, s.mem = x.1.mem → R.inv calls x → R.inv calls (s, x.2)
  frame : ∀ o x s, s.mem = x.1.mem → R.frame o x (s, x.2)

section Specs

variable {L Γ : Type} {S : Service (Shared X) L} {R : Regime S.Call (Shared X) Γ} {E : Results S R}
  {c : Caller} {set : Params} {v v₁ : View E.protocol c} {j : ℕ} {d : D}

/-- The descriptor `d` was read word by word from the entry `j` of an array. -/
def Copied (array : X → ℕ → D) (j : ℕ) (d : D) (v : View E.protocol c) : Prop :=
  ∃ v₁ v₂ : View E.protocol c, Since v₁ v₂ ∧ Since v₂ v ∧
    d = Arrays.copy X (array v₁.state.mem j) (array v₂.state.mem j)

theorem Copied.later {array : X → ℕ → D} (h : Copied array j d v) (hv : Since v v₁) :
    Copied array j d v₁ := by
  obtain ⟨u₁, u₂, h₁, h₂, hd⟩ := h
  exact ⟨u₁, u₂, h₁, h₂.trans hv, hd⟩

/-- Sub-structure `j` was clear in a configuration that the call has seen. -/
def WasClear (Clear : ℕ → Shared X → Prop) (j : ℕ) (v : View E.protocol c) : Prop :=
  ∃ u ∈ v.seen, Clear j u.1.shared

theorem WasClear.later {Clear : ℕ → Shared X → Prop} (h : WasClear Clear j v)
    (hv : v.seen ⊆ v₁.seen) : WasClear Clear j v₁ := by
  obtain ⟨u, hu, hc⟩ := h
  exact ⟨u, hv hu, hc⟩

/-! ### Steps on the windows -/

theorem startIndex_spec (hf : Fits types set.randomHops set.width) {contention : Bool} {index : ℕ}
    (hi : index < set.width) : wp E.protocol c (startIndex set contention index)
      (fun i v' => v ≤ v' ∧ i < set.width) v := by
  unfold startIndex
  split
  · exact randomIndex_rely hf.modulus
  · exact ⟨le_rfl, hi⟩

theorem syncWindow_spec {window : Shared X → ℕ} {old : ℕ} :
    wp E.protocol c (syncWindow window old) (fun _ v' => v ≤ v') v := by
  refine wp.read fun v₁ h₁ => ?_
  split
  · intro v₂ h₂ _ _
    exact wp.same (k := .ret) (h₁.trans h₂)
  · exact h₁

theorem shiftWindow_spec (hi : Indifferent R) {window : Shared X → ℕ}
    {store : ℕ → Shared X → Shared X} {old new : ℕ} (hmem : ∀ s, (store new s).mem = s.mem) :
    wp E.protocol c (shiftWindow window store old new) (fun _ v' => Since v v') v := by
  simp only [shiftWindow, tryShift, Prog.bind_assoc]
  refine wp.read fun v₁ h₁ => ?_
  split
  · simp only [Prog.bind_assoc]
    refine wp.cae (fun v₂ h₂ _ _ => ?_) fun v₂ h₂ _ => ?_
    · have hk : ∀ o, R.frame o v₂.pair (store new v₂.state, v₂.now.2) := fun o =>
        hi.frame o v₂.pair _ (hmem _)
      have hall := Regime.allows v₂ (hi.inv _ v₂.pair _ (hmem _) v₂.inv_pair) fun o _ => hk o
      refine ⟨v₂.now.2, hall, fun v₃ h₃ _ _ => wp.same (k := .ret) ?_⟩
      exact ((Since.of_le (h₁.trans h₂)).trans (.step hk)).trans (.of_le h₃)
    · intro v₃ h₃ _ _
      exact wp.same (k := .ret) (.of_le ((h₁.trans h₂).trans h₃))
  · intro v₂ h₂ _ _
    exact wp.same (k := .ret) (.of_le (h₁.trans h₂))

/-! ### `put_window` -/

/-- What a search starts a round with. -/
structure PutSearch (set : Params) (v₀ : View E.protocol c) (st : Search) (v : View E.protocol c) :
    Prop where
  since : Since v₀ v
  scan : Scan set.randomHops set.width (fun _ => True) st.tl.index st.random st.hops

/-- What `put_window` returns. -/
structure PutFound (set : Params) (v₀ : View E.protocol c) (r : D × Local) (v : View E.protocol c) :
    Prop where
  since : Since v₀ v
  index : r.2.index < set.width
  copied : Copied Arrays.put r.2.index r.1 v

theorem putRound_spec (hi : Indifferent R) (hf : Fits types set.randomHops set.width)
    {v₀ : View E.protocol c} {st : Search} (h : PutSearch set v₀ st v) :
    wp E.protocol c (putRound set st) (fun r v' =>
      Sum.elim (fun st' => PutSearch set v₀ st' v') (fun a => PutFound set v₀ a v') r) v := by
  obtain ⟨hs, hscan⟩ := h
  unfold putRound readDescriptor
  simp only [Prog.bind_assoc, Prog.pure_eq_ret, Prog.ret_bind]
  refine wp.read fun v₁ h₁ => wp.read fun v₂ h₂ => wp.read fun v₃ h₃ => ?_
  have hs₃ := hs.trans (.of_le ((h₁.trans h₂).trans h₃))
  split
  · exact ⟨hs₃, .start hscan.lt⟩
  · split
    · exact ⟨hs₃, hscan.lt, v₁, v₂, .of_le h₂, .of_le h₃, rfl⟩
    · split
      next hh =>
        refine wp.bind_of (hop_rely hf hscan True.intro hh) ?_
        rintro ⟨index, random, hops⟩ v₄ ⟨h₄, hscan₄⟩
        exact ⟨hs₃.trans (.of_le h₄), hscan₄⟩
      next =>
        refine wp.bind_of (shiftWindow_spec hi fun _ => rfl) fun m v₄ h₄ => ?_
        exact ⟨hs₃.trans h₄, .start hscan.lt⟩

theorem putWindow_spec (hi : Indifferent R) (hf : Fits types set.randomHops set.width)
    {contention : Bool} {tl : Local} (hidx : tl.index < set.width) :
    wp E.protocol c (putWindow set contention tl) (fun a v' => PutFound set v a v') v := by
  refine wp.bind_of (startIndex_spec hf hidx) ?_
  rintro index v₁ ⟨h₁, hidx₁⟩
  refine wp.bind_of syncWindow_spec fun m v₂ h₂ => ?_
  refine wp.forever (fun st v' => PutSearch set v st v')
    ⟨.of_le (h₁.trans h₂), .start hidx₁⟩ fun st v' h => ?_
  exact putRound_spec hi hf h

/-! ### `get_window` -/

variable {Clear : ℕ → Shared X → Prop}

/-- Equal counts show that a sub-structure is clear: a get count of a descriptor that was read
before, and a put count. -/
def Shows (set : Params) (c : Caller) (E : Results S R) (Clear : ℕ → Shared X → Prop) : Prop :=
  ∀ j < set.width, ∀ v₁ v₂ v₃ : View E.protocol c, v₁ ≤ v₂ → v₂ ≤ v₃ →
    Arrays.putCount X (Arrays.put v₃.state.mem j) =
      Arrays.getCount X (Arrays.copy X (Arrays.get v₁.state.mem j) (Arrays.get v₂.state.mem j)) →
    Clear j v₃.state

/-- What a round starts with: the indices that it has left were clear if it has not met an item. -/
structure GetSearch (set : Params) (Clear : ℕ → Shared X → Prop) (v₀ : View E.protocol c)
    (st : Search) (v : View E.protocol c) : Prop where
  since : Since v₀ v
  scan : Scan set.randomHops set.width (fun j => st.notempty = true ∨ WasClear Clear j v)
    st.tl.index st.random st.hops

/-- What `get_window` returns: all sub-structures were clear after an `Empty return`. -/
structure GetFound (set : Params) (Clear : ℕ → Shared X → Prop) (v₀ : View E.protocol c)
    (r : Exit × D × Local) (v : View E.protocol c) : Prop where
  since : Since v₀ v
  index : r.2.2.index < set.width
  copied : Copied Arrays.get r.2.2.index r.2.1 v
  clear : r.1 = .empty → ∀ j < set.width, WasClear Clear j v

theorem getRoundExit_spec (hi : Indifferent R) (hf : Fits types set.randomHops set.width)
    (hshow : Shows set c E Clear) {v₀ : View E.protocol c} {st : Search}
    (h : GetSearch set Clear v₀ st v) : wp E.protocol c (getRoundExit set st) (fun r v' =>
      Sum.elim (fun st' => GetSearch set Clear v₀ st' v') (fun a => GetFound set Clear v₀ a v') r)
      v := by
  obtain ⟨hs, hscan⟩ := h
  have hidx : st.tl.index < set.width := hscan.lt
  unfold getRoundExit readDescriptor
  simp only [Prog.bind_assoc, Prog.pure_eq_ret, Prog.ret_bind]
  refine wp.read fun v₁ h₁ => wp.read fun v₂ h₂ => wp.read fun v₃ h₃ => wp.read fun v₄ h₄ => ?_
  have h₀₄ := ((h₁.trans h₂).trans h₃).trans h₄
  have hs₄ := hs.trans (.of_le h₀₄)
  have hcopied : Copied Arrays.get st.tl.index _ v₄ :=
    ⟨v₁, v₂, .of_le h₂, .of_le (h₃.trans h₄), rfl⟩
  have hscan₄ := hscan.mono fun j _ hj => hj.imp_right fun hc =>
    hc.later (show _ ⊆ v₄.seen from h₀₄.1)
  split
  · exact ⟨hs₄, .start hidx⟩
  · split
    · exact ⟨hs₄, hidx, hcopied, nofun⟩
    · split
      next hh =>
        -- the index is left with an item in it, or it was clear when its put count was read
        have hleft : (st.notempty || decide
          (Arrays.putCount X (Arrays.put v₃.state.mem st.tl.index) ≠
            Arrays.getCount X (Arrays.copy X (Arrays.get v₁.state.mem st.tl.index)
              (Arrays.get v₂.state.mem st.tl.index)))) = true ∨ WasClear Clear st.tl.index v₄ := by
          by_cases he : Arrays.putCount X (Arrays.put v₃.state.mem st.tl.index) =
            Arrays.getCount X (Arrays.copy X (Arrays.get v₁.state.mem st.tl.index)
              (Arrays.get v₂.state.mem st.tl.index))
          · exact .inr ⟨v₃.now, h₄.1 v₃.mem, hshow _ hidx v₁ v₂ v₃ h₂ h₃ he⟩
          · exact .inl (by simp [he])
        refine wp.bind_of (hop_rely hf (hscan₄.mono fun j _ hj => hj.imp_left fun hn => ?_) hleft
          hh) ?_
        · simp [hn]
        · rintro ⟨index, random, hops⟩ v₅ ⟨h₅, hscan₅⟩
          exact ⟨hs₄.trans (.of_le h₅), hscan₅.mono fun j _ hj => hj.imp_right
            fun hc => hc.later h₅.1⟩
      next hh =>
        have hall := hscan₄.all (not_not.1 hh)
        split
        next =>
          refine wp.bind_of (shiftWindow_spec hi fun _ => rfl) fun m v₅ h₅ => ?_
          exact ⟨hs₄.trans h₅, .start hidx⟩
        next hn => exact ⟨hs₄, hidx, hcopied, fun _ j hj => (hall j hj).resolve_left hn⟩

theorem getWindowExit_spec (hi : Indifferent R) (hf : Fits types set.randomHops set.width)
    (hshow : Shows set c E Clear) {contention : Bool} {tl : Local} (hidx : tl.index < set.width) :
    wp E.protocol c (getWindowExit set contention tl)
      (fun a v' => GetFound set Clear v a v') v := by
  refine wp.read fun v₁ h₁ => wp.bind_of (startIndex_spec hf hidx) ?_
  rintro index v₂ ⟨h₂, hidx₂⟩
  refine wp.bind_of syncWindow_spec fun m v₃ h₃ => ?_
  refine wp.forever (fun st v' => GetSearch set Clear v st v')
    ⟨.of_le ((h₁.trans h₂).trans h₃), .start hidx₂⟩ fun st v' h => ?_
  exact getRoundExit_spec hi hf hshow h

/-- What `get_window` returns, whichever statement it returns by. -/
theorem getWindow_spec (hi : Indifferent R) (hf : Fits types set.randomHops set.width)
    {contention : Bool} {tl : Local} (hidx : tl.index < set.width) :
    wp E.protocol c (getWindow set contention tl) (fun r v' =>
      Since v v' ∧ r.2.index < set.width ∧ Copied Arrays.get r.2.index r.1 v') v := by
  refine wp.read fun v₁ h₁ => wp.bind_of (startIndex_spec hf hidx) ?_
  rintro index v₂ ⟨h₂, hidx₂⟩
  refine wp.bind_of syncWindow_spec fun m v₃ h₃ => ?_
  refine wp.forever (fun st v' => GetSearch set (fun _ _ => True) v st v')
    ⟨.of_le ((h₁.trans h₂).trans h₃), .start hidx₂⟩ fun st v' h => ?_
  rw [getRound_eq]
  refine wp.bind_of (getRoundExit_spec hi hf (fun _ _ _ _ _ _ _ _ => True.intro) h)
    fun r v'' h'' => ?_
  cases r with
  | inl st' => exact h''
  | inr a => exact ⟨h''.since, h''.index, h''.copied⟩

end Specs

end Interleaved

end TwoDd
