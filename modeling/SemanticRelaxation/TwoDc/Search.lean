import SemanticRelaxation.Prog.Regime
import SemanticRelaxation.TwoD.Rely
import SemanticRelaxation.TwoDc.Window

/-!
# What the searches of the coupled window return

For all regimes that do not speak about the window (`Indifferent`): the descriptor that a search
returns was read from the entry that it returns, which is one of the array. The two loads of its
words need not be of one descriptor.
-/

namespace TwoDc

namespace Interleaved

open AtomicProg TwoD

variable {D X : Type}

/-- A regime that does not speak about the window. -/
structure Indifferent {C Γ : Type} (R : Regime C (Shared D X) Γ) : Prop where
  inv : ∀ calls x w, R.inv calls x → R.inv calls ({ x.1 with globalWindow := w }, x.2)
  frame : ∀ o x w, R.frame o x ({ x.1 with globalWindow := w }, x.2)

section Specs

variable {L Γ : Type} {S : Service (Shared D X) L} {R : Regime S.Call (Shared D X) Γ}
  {E : Results S R} {c : Caller}
  {set : Params} {v : View E.protocol c}

section Reads

variable [HasCount D]

/-- The descriptor was copied from the entry. -/
def ReadAt (index : ℕ) (d : D) (v : View E.protocol c) : Prop :=
  ∃ v₁ v₂ : View E.protocol c, Since v₁ v₂ ∧ Since v₂ v ∧
    HasCount.copy (v₁.state.setArray index) (v₂.state.setArray index) = d

theorem ReadAt.later {index : ℕ} {d : D} {v v' : View E.protocol c} (h : ReadAt index d v)
    (hv : Since v v') :
    ReadAt index d v' := by
  obtain ⟨v₁, v₂, h₁, h₂, hd⟩ := h
  exact ⟨v₁, v₂, h₁, h₂.trans hv, hd⟩

/-- What a search returns. -/
structure Found (set : Params) (v₀ : View E.protocol c) (r : D × Local) (v : View E.protocol c) :
    Prop where
  since : Since v₀ v
  index : r.2.index < set.width
  read : ReadAt r.2.index r.1 v

theorem readDescriptor_spec {index : ℕ} :
    wp E.protocol c (readDescriptor index) (fun d v' => Since v v' ∧ ReadAt index d v') v :=
  wp.read fun v₁ h₁ => wp.read fun v₂ h₂ => ⟨.of_le (h₁.trans h₂), v₁, v₂, .of_le h₂, .refl v₂, rfl⟩

end Reads

/-- What a search starts a round with. -/
structure Searching (set : Params) (v₀ : View E.protocol c) (st : Search) (v : View E.protocol c) :
    Prop where
  since : Since v₀ v
  scan : Scan set.randomHops set.width (fun _ => True) st.tl.index st.random st.hops

theorem readWindow_spec : wp E.protocol c readWindow (fun _ v' => Since v v') v :=
  wp.read fun _ h₁ => wp.read fun _ h₂ => .of_le (h₁.trans h₂)

theorem syncWindow_spec {window : Window} :
    wp E.protocol c (syncWindow window) (fun _ v' => Since v v') v := by
  refine wp.read fun v₁ h₁ => ?_
  split
  · exact readWindow_spec.mono fun _ _ h => (Since.of_le h₁).trans h
  · exact .of_le h₁

theorem startIndex_spec (hf : Fits types set.randomHops set.width) {contention : Bool} {index : ℕ}
    (hi : index < set.width) : wp E.protocol c (startIndex set contention index)
    (fun i v' => Since v v' ∧ i < set.width) v := by
  unfold startIndex
  split
  · exact (randomIndex_rely hf.modulus).mono fun _ _ h => ⟨.of_le h.1, h.2⟩
  · exact ⟨.refl v, hi⟩

theorem enter_spec (hf : Fits types set.randomHops set.width) {contention : Bool} {tl : Local}
    (hi : tl.index < set.width) :
    wp E.protocol c (enter set contention tl) (fun tl' v' => Since v v' ∧
      tl'.index < set.width) v := by
  refine wp.bind_of syncWindow_spec fun w v₁ h₁ => wp.bind_of (startIndex_spec hf hi) ?_
  rintro index v₂ ⟨h₂, hidx⟩
  exact ⟨h₁.trans h₂, hidx⟩

theorem caeWindow_spec (hi : Indifferent R) {old new : Window} :
    wp E.protocol c (caeWindow old new) (fun _ v' => Since v v') v := by
  refine wp.cae (fun v₁ h₁ _ _ => ?_) fun v₁ h₁ _ => readWindow_spec.mono fun _ _ h =>
    (Since.of_le h₁).trans h
  have hk : ∀ o, R.frame o v₁.pair ({ v₁.state with globalWindow := new }, v₁.now.2) := fun o =>
    hi.frame o v₁.pair new
  exact ⟨v₁.now.2, Regime.allows v₁ (hi.inv _ v₁.pair new v₁.inv_pair) fun o _ => hk o,
    (Since.of_le h₁).trans (.step hk)⟩

theorem tryShift_spec (hi : Indifferent R) {valid : Bool} {old new : Window} :
    wp E.protocol c (tryShift valid old new) (fun _ v' => Since v v') v := by
  refine wp.read fun v₁ h₁ => ?_
  split
  · exact (caeWindow_spec hi).mono fun _ _ h => (Since.of_le h₁).trans h
  · exact .of_le h₁

variable [HasCount D]

theorem putRound_spec (hi : Indifferent R) (hf : Fits types set.randomHops set.width)
    {v₀ : View E.protocol c} {st : Search} (h : Searching set v₀ st v) :
    wp E.protocol c (putRound set st) (fun r v' =>
      Sum.elim (fun st' => Searching set v₀ st' v') (fun a => Found set v₀ a v') r) v := by
  obtain ⟨hs, hscan⟩ := h
  refine wp.bind_of readDescriptor_spec fun d v₁ ⟨h₁, hd⟩ => wp.read fun v₂ h₂ => ?_
  have hs₂ := hs.trans (h₁.trans (.of_le h₂))
  have hd₂ := hd.later (.of_le h₂)
  split
  · exact wp.bind_of readWindow_spec fun w v₃ h₃ => ⟨hs₂.trans h₃, .start hscan.lt⟩
  · split
    · exact ⟨hs₂, hscan.lt, hd₂⟩
    · split
      next hh =>
        refine wp.bind_of (hop_rely hf hscan True.intro hh) ?_
        rintro ⟨index, random, hops⟩ v₃ ⟨h₃, hscan₃⟩
        exact ⟨hs₂.trans (.of_le h₃), hscan₃⟩
      next => exact wp.bind_of (tryShift_spec hi) fun w v₃ h₃ => ⟨hs₂.trans h₃, .start hscan.lt⟩

theorem putWindow_spec (hi : Indifferent R) (hf : Fits types set.randomHops set.width)
    {contention : Bool} {tl : Local} (hidx : tl.index < set.width) :
    wp E.protocol c (putWindow set contention tl) (fun r v' => Found set v r v') v := by
  refine wp.bind_of (enter_spec hf hidx) ?_
  rintro tl' v₁ ⟨h₁, hidx₁⟩
  exact wp.forever (fun st v' => Searching set v st v') ⟨h₁, .start hidx₁⟩ fun _ _ h =>
    putRound_spec hi hf h

theorem getRound_spec (hi : Indifferent R) (hf : Fits types set.randomHops set.width)
    {v₀ : View E.protocol c} {st : Search} (h : Searching set v₀ st v) :
    wp E.protocol c (getRound set st) (fun r v' =>
      Sum.elim (fun st' => Searching set v₀ st' v') (fun a => Found set v₀ a v') r) v := by
  obtain ⟨hs, hscan⟩ := h
  refine wp.bind_of readDescriptor_spec fun d v₁ ⟨h₁, hd⟩ => wp.read fun v₂ h₂ => ?_
  have hs₂ := hs.trans (h₁.trans (.of_le h₂))
  have hd₂ := hd.later (.of_le h₂)
  split
  · exact wp.bind_of readWindow_spec fun w v₃ h₃ => ⟨hs₂.trans h₃, .start hscan.lt⟩
  · split
    · exact ⟨hs₂, hscan.lt, hd₂⟩
    · split
      next hh =>
        refine wp.bind_of (hop_rely hf hscan True.intro hh) ?_
        rintro ⟨index, random, hops⟩ v₃ ⟨h₃, hscan₃⟩
        exact ⟨hs₂.trans (.of_le h₃), hscan₃⟩
      next =>
        split
        · exact ⟨hs₂, hscan.lt, hd₂⟩
        · exact wp.bind_of (tryShift_spec hi) fun w v₃ h₃ => ⟨hs₂.trans h₃, .start hscan.lt⟩

theorem getWindow_spec (hi : Indifferent R) (hf : Fits types set.randomHops set.width)
    {contention : Bool} {tl : Local} (hidx : tl.index < set.width) :
    wp E.protocol c (getWindow set contention tl) (fun r v' => Found set v r v') v := by
  refine wp.bind_of (enter_spec hf hidx) ?_
  rintro tl' v₁ ⟨h₁, hidx₁⟩
  exact wp.forever (fun st v' => Searching set v st v') ⟨h₁, .start hidx₁⟩ fun _ _ h =>
    getRound_spec hi hf h

end Specs

end Interleaved

end TwoDc
