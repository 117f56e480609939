import SemanticRelaxation.Prog.Concurrent

/-!
# What every single step does

`Prog.Steps R p`: each atomic step of `p` takes every shared state to one that is related to it by
`R`, whatever has happened before. If that holds of the code of all calls, every move of a reachable
pool leaves the shared state alone or changes it by `R` (`Reach.move_steps`).
-/

namespace AtomicProg

variable {σ L α β γ δ : Type} {R : σ → σ → Prop}

/-- All atomic steps of the program satisfy `R`. -/
def Prog.Steps (R : σ → σ → Prop) {α : Type} : Prog σ α → Prop
  | .ret _ => True
  | .act f k => (∀ n s, R s (f n s).2) ∧ ∀ b, (k b).Steps R
  | .loop body _ k => (∀ b, (body b).Steps R) ∧ ∀ x, (k x).Steps R

namespace Prog.Steps

theorem bind {p : Prog σ β} {f : β → Prog σ α} (hp : p.Steps R) (hf : ∀ b, (f b).Steps R) :
    (p >>= f).Steps R := by
  induction p with
  | ret b => exact hf b
  | act g k ih => exact ⟨hp.1, fun b => ih b (hp.2 b) hf⟩
  | loop body b k _ ih => exact ⟨hp.1, fun x => ih x (hp.2 x) hf⟩

theorem mono {R' : σ → σ → Prop} (h : ∀ s s', R s s' → R' s s') {p : Prog σ α} (hp : p.Steps R) :
    p.Steps R' := by
  induction p with
  | ret _ => exact True.intro
  | act f k ih => exact ⟨fun n s => h _ _ (hp.1 n s), fun b => ih b (hp.2 b)⟩
  | loop body b k ihb ihk => exact ⟨fun b => ihb b (hp.1 b), fun x => ihk x (hp.2 x)⟩

theorem next {body : β → Prog σ (β ⊕ γ)} {k : γ → Prog σ α} (hb : ∀ b, (body b).Steps R)
    (hk : ∀ x, (k x).Steps R) (r : β ⊕ γ) : (Prog.next body k r).Steps R := by
  cases r with
  | inl b => exact ⟨hb, hk⟩
  | inr x => exact hk x

theorem forever {body : β → Prog σ (β ⊕ γ)} (hb : ∀ b, (body b).Steps R) (b : β) :
    (Prog.forever body b).Steps R := ⟨hb, fun _ => True.intro⟩

variable (hr : ∀ s, R s s)
include hr

theorem read (f : σ → β) : (Prog.read f).Steps R := ⟨fun _ s => hr s, fun _ => True.intro⟩

theorem choose : (Prog.choose (σ := σ)).Steps R := ⟨fun _ s => hr s, fun _ => True.intro⟩

theorem cae [DecidableEq β] {get : σ → β} {set : β → σ → σ} {e d : β}
    (h : ∀ s, get s = e → R s (set d s)) : (Prog.cae get set e d).Steps R := by
  refine ⟨fun _ s => ?_, fun _ => True.intro⟩
  show R s (if get s = e then ((true, e), set d s) else ((false, get s), s)).2
  split
  next he => exact h s he
  next => exact hr s

end Prog.Steps

theorem Prog.Steps.update {f : σ → β × σ} (h : ∀ s, R s (f s).2) : (Prog.update f).Steps R :=
  ⟨fun _ s => h s, fun _ => True.intro⟩

variable {S : Service σ L} {ok : S.Call → World S → Prop} {assume : σ → σ → Prop} {s₀ : σ} {l₀ : L}
  {P P' : Pool S}

/-- All running threads have steps that satisfy `R` only. -/
def Pool.Steps (R : σ → σ → Prop) (P : Pool S) : Prop :=
  ∀ t op c seen q, P.thread t = .running op c seen q → q.Steps R

theorem Pool.Steps.publish {t : ℕ} {w : World S} {th : Thread S} (h : P.Steps R)
    (hth : ∀ op c seen q, th = .running op c seen q → q.Steps R) :
    (P.publish t (w, th)).Steps R := by
  intro u op c seen q hu
  by_cases hut : u = t
  · subst hut
    rw [Pool.publish_self] at hu
    obtain ⟨seen', he, -⟩ := Thread.of_observe hu
    exact hth op c seen' q he
  · rw [Pool.publish_of_ne hut] at hu
    obtain ⟨seen', he, -⟩ := Thread.of_observe hu
    exact h u op c seen' q he

/-- One move. -/
theorem Pool.Steps.move (hcode : ∀ c call l, (S.code c call l).Steps R) (hr : ∀ s, R s s)
    (h : P.Steps R) {m : Move S} (hm : P.move m = some P') :
    P'.Steps R ∧ R P.world.shared P'.world.shared := by
  cases m with
  | invoke t call =>
    obtain ⟨l, -, rfl⟩ := Pool.invoke_cases hm
    refine ⟨h.publish fun op c seen q he => ?_, hr _⟩
    cases he
    exact hcode _ _ _
  | step t n =>
    cases Pool.step_cases hm with
    | ret => exact ⟨h.publish nofun, hr _⟩
    | act ht =>
      have hq := h t _ _ _ _ ht
      refine ⟨h.publish fun op c seen q he => ?_, hq.1 n _⟩
      cases he
      exact hq.2 _
    | loop ht =>
      have hq := h t _ _ _ _ ht
      refine ⟨h.publish fun op c seen q he => ?_, hr _⟩
      cases he
      exact Prog.Steps.bind (hq.1 _) (Prog.Steps.next hq.1 hq.2)

theorem Reach.steps (hcode : ∀ c call l, (S.code c call l).Steps R) (hr : ∀ s, R s s)
    (h : Reach ok assume s₀ l₀ P) : P.Steps R := by
  induction h with
  | init => exact fun _ _ _ _ _ ht => by cases ht
  | invoke t c _ _ hm ih => exact (ih.move hcode hr hm).1
  | step t n _ hm _ ih => exact (ih.move hcode hr hm).1

/-- A move of a reachable pool changes the shared state by `R` only. -/
theorem Reach.move_steps (hcode : ∀ c call l, (S.code c call l).Steps R) (hr : ∀ s, R s s)
    (h : Reach ok assume s₀ l₀ P) {m : Move S} (hm : P.move m = some P') :
    R P.world.shared P'.world.shared := ((h.steps hcode hr).move hcode hr hm).2

end AtomicProg
