import SemanticRelaxation.Prog.Ghost
import SemanticRelaxation.Support.Versions

/-!
# A shared variable with a version

A variable that is written by compare-and-exchange only, and holds as its version the number of its
writes modulo some `m`. Threads work with copies of it and compare versions to find out whether a
copy is still the present value.

* `Versioned.check`, `Versioned.load`, `Versioned.exchange`: the accesses. They run over the state
  with what has been observed: a check that was `late` by a multiple of `m` writes, and a check that
  found the versions equal and the values different (`clash`);
* `Versioned.regime`: as long as no check is late there is no clash. The accesses keep to it
  (`check_spec`, `load_spec`, `exchange_spec`), and so do all programs that leave the variable alone
  (`quiet_spec`).
-/

namespace AtomicProg

open Versions

/-- What checks have observed. -/
structure Observed where
  late : Bool := false
  clash : Bool := false

/-- A copy of a variable, and how often the variable had been written when it was taken. -/
structure Copied (W : Type) where
  value : W
  stamp : ℕ

/-- Where a variable lies, with its version and the number of its writes. -/
structure Versioned (σ W : Type) where
  get : σ → W
  set : W → σ → σ
  version : W → ℕ
  writes : σ → ℕ
  modulus : ℕ

namespace Versioned

variable {σ W : Type} (V : Versioned σ W)

/-- Each write is counted. -/
structure Lawful : Prop where
  get_set : ∀ w s, V.get (V.set w s) = w
  writes_set : ∀ w s, V.writes (V.set w s) = V.writes s + 1

/-- The copy has the present version because the versions have come round. -/
def Late (c : Copied W) (s : σ) : Prop := c.stamp < V.writes s ∧ V.modulus ∣ V.writes s - c.stamp

/-- The copy has the present version and is not the present value. -/
def Clash (c : Copied W) (s : σ) : Prop :=
  V.version c.value = V.version (V.get s) ∧ c.value ≠ V.get s

instance (c : Copied W) (s : σ) : Decidable (V.Late c s) :=
  inferInstanceAs (Decidable (_ ∧ _))

/-- One load of the whole variable. -/
def load : Prog (σ × Observed) (Copied W) := Prog.read fun s => ⟨V.get s.1, V.writes s.1⟩

/-! ### The regime -/

/-- The variable as a register. -/
def register (s : σ) : Register W := ⟨V.get s, V.writes s⟩

/-- A copy and its number of writes belong together. -/
def Holds (c : Copied W) (s : σ) : Prop :=
  V.version c.value = c.stamp % V.modulus ∧ Copy (V.register s) c.stamp c.value

/-- The version is the number of the writes, and no check has gone wrong. The assumption is that no
check is late. -/
def regime (C : Type) : Regime C (σ × Observed) Unit where
  inv _ x := V.version (V.get x.1.1) = V.writes x.1.1 % V.modulus ∧ x.1.2.clash = false
  frame _ x x' := (V.register x.1.1).Later (V.register x'.1.1)
  fresh _ _ := True
  assume _ s' := s'.2.late = false
  refl _ x := .refl (V.register x.1.1)
  trans _ _ _ _ h h' := h.trans h'
  inv_call _ _ _ h := h
  fresh_later _ _ _ _ _ := True.intro

/-- A step that leaves the variable alone. -/
def Same (s s' : σ) : Prop := V.get s' = V.get s ∧ V.writes s' = V.writes s

variable {V}

theorem Same.refl (s : σ) : V.Same s s := ⟨rfl, rfl⟩

theorem Holds.later {c : Copied W} {s s' : σ} (h : V.Holds c s)
    (hl : (V.register s).Later (V.register s')) : V.Holds c s' := ⟨h.1, h.2.later hl⟩

/-- A copy that was taken before the first write that is counted. -/
theorem Holds.zero {w : W} {s : σ} (hw : V.version w = 0) (hs : 0 < V.writes s) :
    V.Holds ⟨w, 0⟩ s := ⟨hw.trans (Nat.zero_mod _).symm, .old hs⟩

/-- A check that is not late does not clash. -/
theorem Holds.not_clash {c : Copied W} {s : σ} (h : V.Holds c s)
    (hs : V.version (V.get s) = V.writes s % V.modulus) (hl : ¬ V.Late c s) : ¬ V.Clash c s := by
  rintro ⟨hv, hne⟩
  rw [h.1, hs] at hv
  exact hne (h.2.current_of_mod hv hl)

variable {L : Type} {S : Service (σ × Observed) L} {E : Results S (V.regime S.Call)} {c : Caller}
  {v : View E.protocol c} {x : Copied W}

/-- A part of a call that ends with the copy `x`. -/
structure Kept (v : View E.protocol c) (x : Copied W) (v' : View E.protocol c) : Prop where
  since : Since v v'
  holds : V.Holds x v'.state.1

namespace Kept

variable {v' v₁ : View E.protocol c}

theorem refl (h : V.Holds x v.state.1) : Kept v x v := ⟨.refl v, h⟩

theorem after (h : Since v v₁) (h' : Kept v₁ x v') : Kept v x v' := ⟨h.trans h'.since, h'.holds⟩

theorem of_since (h : V.Holds x v.state.1) (hv : Since v v') : Kept v x v' := ⟨hv, h.later hv.frame⟩

theorem trans {y : Copied W} (h : Kept v y v₁) (h' : Kept v₁ x v') : Kept v x v' := h'.after h.since

end Kept

theorem load_spec : wp E.protocol c V.load (fun x v' => Kept v x v') v := by
  intro v₁ h₁ _ _
  have hversion : V.version (V.get v₁.state.1) = V.writes v₁.state.1 % V.modulus := v₁.inv_pair.1
  exact wp.same (k := .ret) ⟨.of_le h₁, hversion, .self (V.register v₁.state.1)⟩

/-- A loop whose rounds each begin and end with a copy. -/
theorem kept_forever {β γ : Type} {body : β → Prog (σ × Observed) (β ⊕ γ)} (x : β → Copied W)
    (y : γ → Copied W) {b : β} (h : V.Holds (x b) v.state.1)
    (hbody : ∀ b (v : View E.protocol c), V.Holds (x b) v.state.1 →
      wp E.protocol c (body b) (fun r v' => Kept v (Sum.elim x y r) v') v) :
    wp E.protocol c (Prog.forever body b) (fun a v' => Kept v (y a) v') v := by
  refine wp.forever (fun b v' => Kept v (x b) v') (.refl h) ?_
  intro b v₁ h₁
  refine (hbody b v₁ h₁.holds).mono ?_
  rintro (b' | a) v₂ h₂
  · exact h₁.trans h₂
  · exact h₁.trans h₂

/-- A program on the other parts of the state. -/
theorem quiet_spec {α : Type} {p : Prog σ α} (h : p.Steps V.Same) :
    wp E.protocol c p.onFst (fun _ v' => Since v v') v := by
  refine wp.of_steps (Prog.Steps.onFst h) (fun calls x s hs hi => ?_) fun o x s hs => ?_
  · obtain ⟨⟨hget, hwrites⟩, hobs⟩ := hs
    obtain ⟨hversion, hclash⟩ := hi
    refine ⟨?_, ?_⟩
    · show V.version (V.get s.1) = V.writes s.1 % V.modulus
      rw [hget, hwrites]
      exact hversion
    · show s.2.clash = false
      rw [hobs]
      exact hclash
  · obtain ⟨⟨hget, hwrites⟩, -⟩ := hs
    refine .inl ?_
    unfold register
    rw [hget, hwrites]

/-! ### The accesses that compare -/

variable [DecidableEq W]

instance (c : Copied W) (s : σ) : Decidable (V.Clash c s) :=
  inferInstanceAs (Decidable (_ ∧ _))

/-- The load of the version for a comparison with that of the copy `c`. -/
def check (V : Versioned σ W) (c : Copied W) : Prog (σ × Observed) ℕ :=
  Prog.update fun s => (V.version (V.get s.1), s.1,
    { late := s.2.late || decide (V.Late c s.1), clash := s.2.clash || decide (V.Clash c s.1) })

/-- The exchange of `old` for `new`, with the thread's copy afterwards if it succeeds. -/
def exchange (V : Versioned σ W) (old new : W) : Prog (σ × Observed) (Option (Copied W)) :=
  Prog.update fun s =>
    if V.get s.1 = old then (some ⟨new, V.writes s.1 + 1⟩, V.set new s.1, s.2) else (none, s)

theorem check_spec (h : V.Holds x v.state.1) :
    wp E.protocol c (V.check x) (fun _ v' => Since v v') v := by
  intro v₁ h₁ _ ha
  obtain ⟨hversion, hclash⟩ := v₁.inv_pair
  have ha : (v₁.state.2.late || decide (V.Late x v₁.state.1)) = false := ha
  have hl : ¬ V.Late x v₁.state.1 := of_decide_eq_false (Bool.or_eq_false_iff.1 ha).2
  have hx : V.Holds x v₁.state.1 := h.later (Since.of_le h₁).frame
  have hno : (v₁.state.2.clash || decide (V.Clash x v₁.state.1)) = false :=
    Bool.or_eq_false_iff.2 ⟨hclash, decide_eq_false (hx.not_clash hversion hl)⟩
  have hk : ∀ o, (V.regime S.Call).frame o v₁.pair ((v₁.state.1,
      { late := v₁.state.2.late || decide (V.Late x v₁.state.1)
        clash := v₁.state.2.clash || decide (V.Clash x v₁.state.1) }),
          v₁.now.2) := fun _ => .inl rfl
  exact ⟨v₁.now.2, Regime.allows v₁ ⟨hversion, hno⟩ fun o _ => hk o,
    (Since.of_le h₁).trans (.step hk)⟩

/-- The new value has the next version. -/
theorem exchange_spec (hV : V.Lawful) {old new : W}
    (hnew : V.version new = (V.version old + 1) % V.modulus) :
    wp E.protocol c (V.exchange old new)
      (fun r v' => Since v v' ∧ ∀ x ∈ r, x.value = new ∧ V.Holds x v'.state.1) v := by
  intro v₁ h₁ _ _
  by_cases he : V.get v₁.state.1 = old
  · have hversion : V.version new = (V.writes v₁.state.1 + 1) % V.modulus := by
      rw [hnew, ← he, v₁.inv_pair.1, Nat.mod_add_mod]
    have hinv : V.version (V.get (V.set new v₁.state.1)) = V.writes (V.set new v₁.state.1) %
      V.modulus := by
      rw [hV.get_set, hV.writes_set, hversion]
    have hk : ∀ o, (V.regime S.Call).frame o v₁.pair ((V.set new v₁.state.1, v₁.state.2),
      v₁.now.2) := by
      refine fun _ => .inr ?_
      show V.writes v₁.state.1 < V.writes (V.set new v₁.state.1)
      rw [hV.writes_set]
      exact Nat.lt_succ_self _
    have hcopy : V.Holds ⟨new, V.writes v₁.state.1 + 1⟩ (V.set new v₁.state.1) := by
      have hreg : V.register (V.set new v₁.state.1) = ⟨new, V.writes v₁.state.1 + 1⟩ := by
        rw [register, hV.get_set, hV.writes_set]
      refine ⟨hversion, ?_⟩
      rw [hreg]
      exact .self _
    simp only [if_pos he]
    refine ⟨v₁.now.2, Regime.allows v₁ ⟨hinv, v₁.inv_pair.2⟩ fun o _ => hk o,
      (Since.of_le h₁).trans (.step hk), fun x hx => ?_⟩
    obtain rfl := Option.some.inj hx
    exact ⟨rfl, hcopy⟩
  · simp only [if_neg he]
    exact wp.same (k := .ret) ⟨.of_le h₁, by intros; contradiction⟩

end Versioned

end AtomicProg
