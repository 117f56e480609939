import SemanticRelaxation.Prog.Sequential
import SemanticRelaxation.Prog.Steps
import SemanticRelaxation.Prog.Regime

/-!
# Programs over a state with ghost state

`Prog.onFst` runs a program on the first component of a state. What follows from its single steps
carries over (`Prog.Steps.onFst`, `Total.onFst`), and a program whose steps a regime allows in every
state keeps to the regime (`wp.of_steps`).
-/

namespace AtomicProg

variable {σ τ L Γ α : Type} {R : σ → σ → Prop}

/-- The program on the first component. -/
def Prog.onFst {α : Type} : Prog σ α → Prog (σ × τ) α
  | .ret a => .ret a
  | .act f k => .act (fun n s => ((f n s.1).1, ((f n s.1).2, s.2))) fun b => (k b).onFst
  | .loop body b k => .loop (fun b => (body b).onFst) b fun x => (k x).onFst

/-- Its steps leave the second component alone. -/
theorem Prog.Steps.onFst {p : Prog σ α} (h : p.Steps R) :
    (p.onFst : Prog (σ × τ) α).Steps fun x x' => R x.1 x'.1 ∧ x'.2 = x.2 := by
  induction p with
  | ret a => exact True.intro
  | act f k ih => exact ⟨fun n s => ⟨h.1 n s.1, rfl⟩, fun b => ih b (h.2 b)⟩
  | loop body b k ihb ihk => exact ⟨fun b => ihb b (h.1 b), fun x => ihk x (h.2 x)⟩

theorem Prog.onFst_bind {β : Type} (p : Prog σ β) (f : β → Prog σ α) :
    ((p >>= f).onFst : Prog (σ × τ) α) = p.onFst >>= fun b => (f b).onFst := by
  induction p with
  | ret b => rfl
  | act g k ih =>
    show Prog.act _ _ = Prog.act _ _
    congr 1
    funext b
    exact ih b f
  | loop body b k _ ih =>
    show Prog.loop _ _ _ = Prog.loop _ _ _
    congr 1
    funext x
    exact ih x f

/-- A program that returns when it runs alone returns on the first component. -/
theorem Total.onFst {Q : α → σ → Prop} {p : Prog σ α} {s : σ} (h : Total (.trivial σ) Q p s)
    (g : τ) :
    Total (.trivial (σ × τ)) (fun a x => Q a x.1 ∧ x.2 = g) p.onFst (s, g) := by
  induction h with
  | ret h => exact .ret ⟨h, rfl⟩
  | act _ _ ih => exact .act (fun _ _ => True.intro) fun n _ => ih n True.intro
  | @loop β γ body b k s _ ih =>
    refine .loop ?_
    have hnext : ∀ x, (Prog.next body k x).onFst =
        Prog.next (fun b => (body b).onFst) (fun x => (k x).onFst : γ → Prog (σ × τ) _) x := by
      rintro (b | x) <;> rfl
    simp only [Prog.bind_eq, Prog.onFst_bind, hnext] at ih
    exact ih

variable {S : Service σ L} {G : Regime S.Call σ Γ} {E : Results S G} {c : Caller}

/-- A program whose steps are allowed whatever the state is. -/
theorem wp.of_steps {p : Prog σ α} (h : p.Steps R)
    (hinv : ∀ calls x s, R x.1 s → G.inv calls x → G.inv calls (s, x.2))
    (hframe : ∀ o x s, R x.1 s → G.frame o x (s, x.2)) {v : View E.protocol c} :
    wp E.protocol c p (fun _ v' => Since v v') v := by
  have hgen : ∀ v₁, Since v v₁ → wp E.protocol c p (fun _ v' => Since v v') v₁ := by
    induction p with
    | ret a => exact fun _ h₁ => h₁
    | act f k ih =>
      intro v₁ h₁ v₂ h₂ n _
      have hstep := h.1 n v₂.state
      have hk : ∀ o, G.frame o v₂.pair ((f n v₂.state).2, v₂.now.2) := fun o =>
        hframe o v₂.pair _ hstep
      have hall := Regime.allows v₂ (hinv _ v₂.pair _ hstep v₂.inv_pair) fun o _ => hk o
      exact ⟨v₂.now.2, hall, ih _ (h.2 _) _ ((h₁.trans (.of_le h₂)).trans (.step hk))⟩
    | loop body b k ihb ihk =>
      intro v₁ h₁
      refine ⟨fun _ v' => Since v v', h₁, fun b v₂ h₂ => (ihb b (h.1 b) v₂ h₂).mono ?_⟩
      rintro (b' | x) v₃ h₃
      · exact h₃
      · exact ihk x (h.2 x) v₃ h₃
  exact hgen v (.refl v)

end AtomicProg
