import Mathlib.Data.Nat.Basic
import Mathlib.Data.List.Nodup
import Mathlib.Tactic.Common

/-!
# Sequential objects and their histories

* `Spec`: a sequential object, possibly nondeterministic, and `Spec.Run`: its histories;
* `Entry`: an event with the state that it leads to, `Spec.Legal`: histories of such entries;
* `weave`: a history into which events are put that change nothing. `run_weave` and `pairwise_weave`
  say when it is legal and in which order its events are.
-/

namespace AtomicProg

/-- A sequential object. -/
structure Spec (C R : Type) where
  State : Type
  init : State
  step : State → C → R → State → Prop

/-- A call takes effect. -/
structure Occurrence (C R : Type) where
  op : ℕ
  call : C
  ret : R

/-- A call takes effect and leaves the object in `state`. -/
structure Entry {C R : Type} (A : Spec C R) extends Occurrence C R where
  state : A.State

namespace Spec

variable {C R : Type} {A : Spec C R}

/-- The legal histories and the states that they lead to. -/
inductive Run (A : Spec C R) : List (Occurrence C R) → A.State → Prop
  | nil : Run A [] A.init
  | snoc {log : List (Occurrence C R)} {x x' : A.State} {e : Occurrence C R} (h : Run A log x)
      (he : A.step x e.call e.ret x') : Run A (log ++ [e]) x'

/-- Events that change nothing. -/
theorem Run.stutter {log es : List (Occurrence C R)} {x : A.State} (h : A.Run log x)
    (hes : ∀ e ∈ es, A.step x e.call e.ret x) : A.Run (log ++ es) x := by
  induction es generalizing log with
  | nil => rwa [List.append_nil]
  | cons e es ih =>
    rw [List.append_cons]
    exact ih (h.snoc (hes e (List.mem_cons_self ..))) fun e' he' =>
      hes e' (List.mem_cons_of_mem _ he')

/-- The state after a history. -/
def after (A : Spec C R) (log : List (Entry A)) : A.State := log.getLast?.elim A.init Entry.state

@[simp] theorem after_nil : A.after [] = A.init := rfl

@[simp] theorem after_concat (log : List (Entry A)) (e : Entry A) :
    A.after (log ++ [e]) = e.state := by
  simp [after]

/-- Each entry is a step from the state before it. -/
def Legal (A : Spec C R) (log : List (Entry A)) : Prop :=
  ∀ h₁ e h₂, log = h₁ ++ e :: h₂ → A.step (A.after h₁) e.call e.ret e.state

theorem Legal.nil : A.Legal [] := by
  intro h₁ e h₂ h
  simp at h

theorem Legal.snoc {log : List (Entry A)} {e : Entry A} (h : A.Legal log)
    (he : A.step (A.after log) e.call e.ret e.state) : A.Legal (log ++ [e]) := by
  intro h₁ e' h₂ heq
  rcases List.eq_nil_or_concat' h₂ with rfl | ⟨h₃, e₃, rfl⟩
  · obtain ⟨rfl, he'⟩ := List.append_inj' heq rfl
    obtain rfl : e = e' := by simpa using he'
    exact he
  · rw [← List.cons_append, ← List.append_assoc] at heq
    obtain ⟨hlog, -⟩ := List.append_inj' heq rfl
    exact h h₁ e' h₃ hlog

end Spec

/-! ### Events between the entries of a history -/

variable {C R : Type} {A : Spec C R} {p : ℕ → List (Occurrence C R)} {log : List (Entry A)}

/-- The history with the events `p i` before its `i`-th entry. -/
def weave (p : ℕ → List (Occurrence C R)) : ℕ → List (Entry A) → List (Occurrence C R)
  | i, [] => p i
  | i, e :: l => p i ++ e.toOccurrence :: weave p (i + 1) l

theorem mem_weave {i : ℕ} {l : List (Entry A)} {x : Occurrence C R} :
    x ∈ weave p i l ↔ (∃ j, i ≤ j ∧ j ≤ i + l.length ∧ x ∈ p j) ∨ ∃ e ∈ l, e.toOccurrence = x := by
  induction l generalizing i with
  | nil =>
    simp only [weave, List.length_nil, Nat.add_zero, List.not_mem_nil, false_and, exists_false,
      or_false]
    constructor
    · exact fun h => ⟨i, le_rfl, le_rfl, h⟩
    · rintro ⟨j, h₁, h₂, h⟩
      obtain rfl := le_antisymm h₁ h₂
      exact h
  | cons e l ih =>
    simp only [weave, List.mem_append, List.mem_cons, ih, List.length_cons]
    constructor
    · rintro (h | rfl | ⟨j, h₁, h₂, h⟩ | ⟨e', he', h⟩)
      · exact .inl ⟨i, le_rfl, Nat.le_add_right _ _, h⟩
      · exact .inr ⟨e, .inl rfl, rfl⟩
      · exact .inl ⟨j, by omega, by omega, h⟩
      · exact .inr ⟨e', .inr he', h⟩
    · rintro (⟨j, h₁, h₂, h⟩ | ⟨e', rfl | he', h⟩)
      · rcases Nat.eq_or_lt_of_le h₁ with rfl | hlt
        · exact .inl h
        · exact .inr (.inr (.inl ⟨j, hlt, by omega, h⟩))
      · exact .inr (.inl h.symm)
      · exact .inr (.inr (.inr ⟨e', he', h⟩))

/-- A history stays legal if the events between its entries are steps that change nothing there. -/
theorem run_weave (hl : A.Legal log) (hp : ∀ h₁ h₂, log = h₁ ++ h₂ → ∀ x ∈ p h₁.length,
    A.step (A.after h₁) x.call x.ret (A.after h₁)) {h₁ h₂ : List (Entry A)} (heq : log = h₁ ++ h₂)
    {pre : List (Occurrence C R)} (hr : A.Run pre (A.after h₁)) :
    A.Run (pre ++ weave p h₁.length h₂) (A.after log) := by
  induction h₂ generalizing h₁ pre with
  | nil =>
    obtain rfl : log = h₁ := by rw [heq, List.append_nil]
    exact hr.stutter (hp log [] heq)
  | cons e h₂ ih =>
    have hrun : A.Run (pre ++ p h₁.length ++ [e.toOccurrence]) (A.after (h₁ ++ [e])) := by
      rw [Spec.after_concat]
      exact (hr.stutter (hp h₁ _ heq)).snoc (hl h₁ e h₂ heq)
    have h := ih (heq.trans (List.append_cons ..)) hrun
    rwa [List.length_append, List.length_singleton, List.append_assoc, List.append_assoc] at h

/-- What relates all events of a woven history to the later ones. -/
theorem pairwise_weave {T : Occurrence C R → Occurrence C R → Prop} (own : ∀ i, (p i).Pairwise T)
    (others : ∀ i j, i < j → ∀ x ∈ p i, ∀ y ∈ p j, T x y)
    (entries : ∀ h₁ (e : Entry A) h₂, log = h₁ ++ e :: h₂ → ∀ e' ∈ h₂,
      T e.toOccurrence e'.toOccurrence)
    (before : ∀ h₁ h₂, log = h₁ ++ h₂ → ∀ x ∈ p h₁.length, ∀ e ∈ h₂, T x e.toOccurrence)
    (behind : ∀ h₁ h₂, log = h₁ ++ h₂ → ∀ e ∈ h₁, ∀ j, h₁.length ≤ j → j ≤ log.length → ∀ x ∈ p j,
      T e.toOccurrence x)
    {h₁ h₂ : List (Entry A)} (heq : log = h₁ ++ h₂) : (weave p h₁.length h₂).Pairwise T := by
  induction h₂ generalizing h₁ with
  | nil => exact own _
  | cons e h₂ ih =>
    have heq' : log = (h₁ ++ [e]) ++ h₂ := heq.trans (List.append_cons ..)
    have hlen : log.length = h₁.length + 1 + h₂.length := by
      rw [heq, List.length_append, List.length_cons, Nat.add_assoc, Nat.add_comm 1]
    have ih := ih heq'
    rw [List.length_append, List.length_singleton] at ih
    refine List.pairwise_append.2 ⟨own _, List.pairwise_cons.2 ⟨fun y hy => ?_, ih⟩,
      fun x hx y hy => ?_⟩
    · rcases mem_weave.1 hy with ⟨j, hj, hj', h⟩ | ⟨e', he', rfl⟩
      · refine behind _ _ heq' e (List.mem_append_right _ (List.mem_singleton_self e)) j ?_
          (hlen ▸ hj') y h
        rwa [List.length_append, List.length_singleton]
      · exact entries h₁ e h₂ heq e' he'
    · rcases List.mem_cons.1 hy with rfl | hy
      · exact before h₁ _ heq x hx e (List.mem_cons_self ..)
      · rcases mem_weave.1 hy with ⟨j, hj, -, h⟩ | ⟨e', he', rfl⟩
        · exact others _ _ hj x hx y h
        · exact before h₁ _ heq x hx e' (List.mem_cons_of_mem _ he')

end AtomicProg
