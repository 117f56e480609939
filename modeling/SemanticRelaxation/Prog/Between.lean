import SemanticRelaxation.Prog.Regime
import SemanticRelaxation.Prog.Solo

/-!
# Two times of a run

`Between ok assume P P'`: the pool `P'` is reached from `P`, with calls that `ok` allows and changes
of the shared state that satisfy `assume`.

* `Reach.strengthen`: what every move of a reachable pool satisfies may be assumed;
* `Pool.exec_between`: a list of moves that was computed;
* `Implements.between`: a protocol holds at both times, with the ghost state of one run, and the
  frames of the calls that have not been made at the second time hold from one to the other;
* `Total.between`: an idle thread makes a call, runs alone, and returns.
-/

namespace AtomicProg

variable {σ L Γ α : Type} {S : Service σ L} {ok : S.Call → World S → Prop} {A B : σ → σ → Prop}
  {s₀ : σ} {l₀ : L}
  {P P' : Pool S}

/-- The pools that moves in any order reach from `P`. -/
inductive Between (ok : S.Call → World S → Prop) (assume : σ → σ → Prop) (P : Pool S) :
    Pool S → Prop
  | refl : Between ok assume P P
  | invoke {P₁ P₂ : Pool S} (t : ℕ) (c : S.Call) (h : Between ok assume P P₁) (hc : ok c P₁.world)
      (hm : P₁.move (.invoke t c) = some P₂) : Between ok assume P P₂
  | step {P₁ P₂ : Pool S} (t n : ℕ) (h : Between ok assume P P₁)
    (hm : P₁.move (.step t n) = some P₂)
      (ha : assume P₁.world.shared P₂.world.shared) : Between ok assume P P₂

theorem Between.reach (h : Between ok A P P') (hr : Reach ok A s₀ l₀ P) : Reach ok A s₀ l₀ P' := by
  induction h with
  | refl => exact hr
  | invoke t c _ hc hm ih => exact .invoke t c ih hc hm
  | step t n _ hm ha ih => exact .step t n ih hm ha

/-- What is reached from the first pool is between it and the present one. -/
theorem Reach.between (h : Reach ok A s₀ l₀ P) : Between ok A (.init S s₀ l₀) P := by
  induction h with
  | init => exact .refl
  | invoke t c _ hc hm ih => exact .invoke t c ih hc hm
  | step t n _ hm ha ih => exact .step t n ih hm ha

theorem Between.trans {P₁ P₂ : Pool S} (h : Between ok A P P₁) (h' : Between ok A P₁ P₂) :
    Between ok A P P₂ := by
  induction h' with
  | refl => exact h
  | invoke t c _ hc hm ih => exact .invoke t c ih hc hm
  | step t n _ hm ha ih => exact .step t n ih hm ha

/-- The steps of reachable pools satisfy `B` as well. -/
def Keeps (ok : S.Call → World S → Prop) (A B : σ → σ → Prop) (s₀ : σ) (l₀ : L) : Prop :=
  ∀ (P P' : Pool S) (t n : ℕ), Reach ok A s₀ l₀ P → P.move (.step t n) = some P' →
    A P.world.shared P'.world.shared → B P.world.shared P'.world.shared

theorem Reach.strengthen (hB : Keeps ok A B s₀ l₀) (h : Reach ok A s₀ l₀ P) :
    Reach ok B s₀ l₀ P := by
  induction h with
  | init => exact .init
  | invoke t c _ hc hm ih => exact .invoke t c ih hc hm
  | step t n hr hm ha ih => exact .step t n ih hm (hB _ _ t n hr hm ha)

/-- A list of moves that was computed. -/
theorem Pool.exec_between {ms : List (Move S)} (h : P.exec ms = some P')
    (hok : ∀ t c, Move.invoke t c ∈ ms → ∀ w, ok c w) : Between ok (fun _ _ => True) P P' := by
  induction ms generalizing P with
  | nil =>
    obtain rfl := Option.some.inj h
    exact .refl
  | cons m ms ih =>
    obtain ⟨P₁, h₁, h₂⟩ := Option.bind_eq_some_iff.1 h
    refine Between.trans ?_ (ih h₂ fun t c hm => hok t c (List.mem_cons_of_mem _ hm))
    cases m with
    | invoke t c => exact .invoke t c .refl (hok t c (List.mem_cons_self ..) _) h₁
    | step t n => exact .step t n .refl h₁ True.intro

theorem Between.calls (h : Between ok A P P') : P.world.calls.length ≤ P'.world.calls.length := by
  induction h with
  | refl => exact le_rfl
  | invoke t c _ _ hm ih => exact ih.trans (Pool.move_calls hm).length_le
  | step t n _ hm _ ih => exact ih.trans (Pool.move_calls hm).length_le

/-- The protocol holds at both times, and nothing has been taken from the calls that have not been
made. -/
theorem Implements.between {Q : Protocol S Γ} {loc : ℕ → L → World S × Γ → Prop}
    {post : ∀ c : Caller, S.Call → L × S.Ret → View Q c → Prop} (h : Implements Q ok loc post s₀ l₀)
    (hr : Reach ok Q.assume s₀ l₀ P) (hb : Between ok Q.assume P P') :
    ∃ g g', Q.inv (P.world, g) ∧ Q.inv (P'.world, g') ∧
      ∀ o, P'.world.calls.length < o → Q.frame (.op o) (P.world, g) (P'.world, g') := by
  obtain ⟨g, hg⟩ := h.good hr
  have hall : ∃ g', P'.Good Q loc post g' ∧
      ∀ o, P'.world.calls.length < o → Q.frame (.op o) (P.world, g) (P'.world, g') := by
    induction hb with
    | refl => exact ⟨g, hg, fun o _ => Q.refl _ _⟩
    | invoke t c hb hc hm ih =>
      obtain ⟨g₁, hg₁, hf₁⟩ := ih
      obtain ⟨g₂, hg₂, hf₂⟩ := h.good_call hg₁ hc hm
      have hlen := (Pool.move_calls hm).length_le
      exact ⟨g₂, hg₂, fun o ho =>
        Q.trans _ _ _ _ (hf₁ o (hlen.trans_lt ho)) (hf₂ o (hlen.trans_lt ho))⟩
    | step t n hb hm ha ih =>
      obtain ⟨g₁, hg₁, hf₁⟩ := ih
      obtain ⟨g₂, hg₂, hf₂⟩ := h.good_step hg₁ hm ha
      have hlen := (Pool.move_calls hm).length_le
      exact ⟨g₂, hg₂, fun o ho =>
        Q.trans _ _ _ _ (hf₁ o (hlen.trans_lt ho)) (hf₂ o (hlen.trans_lt ho))⟩
  obtain ⟨g', hg', hf⟩ := hall
  exact ⟨g, g', hg.inv, hg'.inv, hf⟩

/-- An idle thread makes a call, runs alone, and returns. -/
theorem Total.between {C : Contract σ} (hC : ∀ s s', C.assume s s') {Q : L × S.Ret → σ → Prop}
    {P₀ P : Pool S} (hb : Between ok (fun _ _ => True) P₀ P) {t : ℕ} {l : L}
    (ht : P.thread t = .idle l) {call : S.Call} (hok : ok call P.world)
    (h : Total C Q (S.code ⟨t, P.world.calls.length⟩ call l) P.world.shared) :
    ∃ P' l' r, Between ok (fun _ _ => True) P₀ P' ∧ P'.thread t = .idle l' ∧
      Q (l', r) P'.world.shared ∧
      P'.world.calls = P.world.calls ++ [call] ∧
      P'.world.returned P.world.calls.length = some (r, P.world.calls.length + 1) := by
  have hm : P.move (.invoke t call) = some (P.publish t (P.world.invoke call,
      .running P.world.calls.length call [] (S.code ⟨t, P.world.calls.length⟩ call l))) := by
    simp only [Pool.move, ht, Thread.call, Option.map_some]
  obtain ⟨P₁, seen, ⟨l', r⟩, hb₁, ht₁, hq, hsame, -⟩ :=
    h.solo_of (R := Between ok (fun _ _ => True) P₀) hC
    (fun _ _ _ _ => True.intro) (fun _ _ n hb hm => .step t n hb hm True.intro)
    (.invoke t call hb hok hm)
    Pool.publish_self rfl True.intro
  have hm₁ : P₁.move (.step t 0) = some (P₁.publish t (P₁.world.finish P.world.calls.length r,
    .idle l')) := by
    simp only [Pool.move, ht₁, Thread.step, Option.map_some]
  have hcalls : P₁.world.calls = P.world.calls ++ [call] := by
    rw [hsame.world]
    rfl
  refine ⟨_, l', r, .step t 0 hb₁ hm₁ True.intro, Pool.publish_self, hq, hcalls, ?_⟩
  refine (World.finish_returned_self ..).trans ?_
  rw [hcalls, List.length_append, List.length_singleton]

end AtomicProg
