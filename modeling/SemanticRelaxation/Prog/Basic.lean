import Mathlib.Logic.Function.Basic
import Mathlib.Data.Nat.Notation

/-!
# Programs made of atomic steps

A small language for sequential code that several threads run over one shared state `σ`.

* `Prog σ α`: a program over the shared state `σ` that returns an `α`. It is a free monad with one
  kind of operation, an atomic step `act f k`: `f` reads and changes the shared state at once, and
  may use one natural number that the environment chooses (the random numbers of the code). What
  lies between two atomic steps is ordinary Lean and touches nothing shared;
* `loop body b k`: the unbounded loop `while (1)`. The body returns `inl` to go on with a new loop
  state and `inr` to leave;
* `Prog.bind` with the `Monad` instance, so that code is written in `do` notation;
* `Prog.run`: one thread alone, with fuel, for a given stream of chosen numbers; `Prog.trace`: the
  transitions of a run that may be unfinished.
-/

namespace AtomicProg

/-- A program over the shared state `σ` with results in the index type. -/
inductive Prog (σ : Type) : Type → Type 1 where
  | ret {α : Type} (a : α) : Prog σ α
  | act {α β : Type} (f : ℕ → σ → β × σ) (k : β → Prog σ α) : Prog σ α
  | loop {α β γ : Type} (body : β → Prog σ (β ⊕ γ)) (b : β) (k : γ → Prog σ α) : Prog σ α

variable {σ α β γ δ : Type}

namespace Prog

/-- Sequential composition. -/
def bind {α : Type} : Prog σ α → (α → Prog σ β) → Prog σ β
  | .ret a, f => f a
  | .act g k, f => .act g fun b => (k b).bind f
  | .loop body b k, f => .loop body b fun c => (k c).bind f

instance : Monad (Prog σ) where
  pure := .ret
  bind := Prog.bind

/-- What a loop does with the result of its body. -/
def next (body : β → Prog σ (β ⊕ γ)) (k : γ → Prog σ α) : β ⊕ γ → Prog σ α
  | .inl b => .loop body b k
  | .inr c => k c

@[simp] theorem next_inl (body : β → Prog σ (β ⊕ γ)) (k : γ → Prog σ α) (b : β) :
    next body k (.inl b) = .loop body b k := rfl

@[simp] theorem next_inr (body : β → Prog σ (β ⊕ γ)) (k : γ → Prog σ α) (c : γ) :
    next body k (.inr c) = k c := rfl

/-! ### The primitive programs -/

/-- One atomic load. -/
def read (f : σ → β) : Prog σ β := .act (fun _ s => (f s, s)) .ret

/-- One atomic step that reads and changes the state. -/
def update (f : σ → β × σ) : Prog σ β := .act (fun _ s => f s) .ret

/-- Compare-and-exchange on one location: on success `desired` is stored, on failure the value found
is returned in the place of `expected`. -/
def cae [DecidableEq β] (get : σ → β) (set : β → σ → σ) (expected desired : β) :
    Prog σ (Bool × β) :=
  update fun s => if get s = expected then ((true, expected), set desired s)
    else ((false, get s), s)

/-- A number chosen by the environment. -/
def choose : Prog σ ℕ := .act (fun c s => (c, s)) .ret

/-- `assert(b)`, where `fail` marks the state in which the assertion failed. -/
def assert (fail : σ → σ) (b : Bool) : Prog σ Unit :=
  if b then .ret () else update fun s => ((), fail s)

/-- The loop `while (1)` with loop state `β`. -/
def forever (body : β → Prog σ (β ⊕ γ)) (b : β) : Prog σ γ := .loop body b .ret

/-! ### Normal forms of compositions -/

@[simp] theorem pure_eq_ret (a : α) : (pure a : Prog σ α) = .ret a := rfl

@[simp] theorem ret_bind (a : α) (f : α → Prog σ β) : (Prog.ret a >>= f) = f a := rfl

@[simp] theorem bind_eq (p : Prog σ α) (f : α → Prog σ β) : p.bind f = p >>= f := rfl

@[simp] theorem act_bind (g : ℕ → σ → γ × σ) (k : γ → Prog σ α) (f : α → Prog σ β) :
    (Prog.act g k >>= f) = .act g fun c => k c >>= f := rfl

@[simp] theorem loop_bind (body : γ → Prog σ (γ ⊕ δ)) (c : γ) (k : δ → Prog σ α)
    (f : α → Prog σ β) : (Prog.loop body c k >>= f) = .loop body c fun d => k d >>= f := rfl

theorem bind_assoc {α : Type} (p : Prog σ α) (f : α → Prog σ β) (g : β → Prog σ γ) :
    ((p >>= f) >>= g) = p >>= fun a => f a >>= g := by
  induction p with
  | ret a => rfl
  | act h k ih =>
    simp only [act_bind]
    congr 1
    funext b
    exact ih b f
  | loop body b k _ ih =>
    simp only [loop_bind]
    congr 1
    funext c
    exact ih c f

/-! ### One thread alone -/

/-- Run a program alone with `n` units of fuel. The stream `ch` supplies the chosen numbers, one
for each atomic step. The result comes with the list of the transitions of the shared state. -/
def run : ℕ → (ℕ → ℕ) → Prog σ α → σ → Option (α × σ × List (σ × σ))
  | 0, _, _, _ => none
  | _ + 1, _, .ret a, s => some (a, s, [])
  | n + 1, ch, .act f k, s =>
      (run n (fun i => ch (i + 1)) (k (f (ch 0) s).1) (f (ch 0) s).2).map fun r =>
        (r.1, r.2.1, (s, (f (ch 0) s).2) :: r.2.2)
  | n + 1, ch, .loop body b k, s => run n ch ((body b).bind (next body k)) s

/-- The transitions of the shared state in the first `n` steps of a run, which need not be over. -/
def trace : ℕ → (ℕ → ℕ) → Prog σ α → σ → List (σ × σ)
  | 0, _, _, _ => []
  | _ + 1, _, .ret _, _ => []
  | n + 1, ch, .act f k, s =>
      (s, (f (ch 0) s).2) :: trace n (fun i => ch (i + 1)) (k (f (ch 0) s).1) (f (ch 0) s).2
  | n + 1, ch, .loop body b k, s => trace n ch ((body b).bind (next body k)) s

/-- `p`, run alone from `s`, can return `a` in the state `s'` by the transitions `tr`. -/
def Runs (p : Prog σ α) (s : σ) (a : α) (s' : σ) (tr : List (σ × σ)) : Prop :=
  ∃ n ch, run n ch p s = some (a, s', tr)

/-- `p`, run alone from `s`, returns whatever numbers are chosen. -/
def Terminates (p : Prog σ α) (s : σ) : Prop := ∀ ch, ∃ n, (run n ch p s).isSome

/-- What every transition keeps holds in all states of a run. -/
theorem trace_invariant {I : σ → Prop} {p : Prog σ α} {s : σ} {n : ℕ} {ch : ℕ → ℕ} (hs : I s)
    (h : ∀ t ∈ p.trace n ch s, I t.1 → I t.2) : ∀ t ∈ p.trace n ch s, I t.1 ∧ I t.2 := by
  induction n generalizing ch p s with
  | zero => exact fun _ ht => absurd ht List.not_mem_nil
  | succ n ih =>
    cases p with
    | ret a => exact fun _ ht => absurd ht List.not_mem_nil
    | act f k =>
      have hs' := h _ (List.mem_cons_self ..) hs
      intro t ht
      rcases List.mem_cons.1 ht with rfl | ht
      · exact ⟨hs, hs'⟩
      · exact ih hs' (fun t ht => h t (List.mem_cons_of_mem _ ht)) t ht
    | loop body b k => exact ih hs h

end Prog

end AtomicProg
