import Mathlib.Data.List.Basic
import Mathlib.Data.List.Induction
import Mathlib.Data.List.Pairwise
import Mathlib.Data.List.Perm.Basic

/-!
# Histories of a stack

A history lists the operations of a stack in the order in which they took effect, each with the call
that made it. It is legal if it can be run: each pop takes the node on top, and the pops that find
nothing find the stack empty.

* `run`: the stack after a legal history, and `run_concat`: the history with one more operation;
* `run_perm`: what has been pushed is in the stack or has been popped.
* `Path`: the nodes of a linked list.
-/

namespace Lifo

/-- The path from a pointer to `NULL`. -/
def Path (next : ℕ → Option ℕ) : Option ℕ → List ℕ → Prop
  | p, [] => p = none
  | p, n :: line => p = some n ∧ Path next (next n) line

theorem Path.congr {next next' : ℕ → Option ℕ} {p : Option ℕ} {line : List ℕ} (h : Path next p line)
    (he : ∀ n ∈ line, next' n = next n) : Path next' p line := by
  induction line generalizing p with
  | nil => exact h
  | cons n line ih =>
    refine ⟨h.1, ?_⟩
    rw [he n (List.mem_cons_self ..)]
    exact ih h.2 fun m hm => he m (List.mem_cons_of_mem _ hm)

/-- An operation of a call: a push or a pop of a node, or a pop that finds nothing. -/
inductive Event
  | push (op node : ℕ)
  | pop (op node : ℕ)
  | empty (op : ℕ)
  deriving DecidableEq

/-- The call of an operation. -/
def Event.op : Event → ℕ
  | push op _ | pop op _ | empty op => op

/-- The node that is pushed. -/
def Event.pushed : Event → Option ℕ
  | push _ n => some n
  | _ => none

/-- The node that is popped. -/
def Event.popped : Event → Option ℕ
  | pop _ n => some n
  | _ => none

/-- One operation on a stack. -/
def step : List ℕ → Event → Option (List ℕ)
  | st, .push _ n => some (n :: st)
  | m :: st, .pop _ n => if m = n then some st else none
  | [], .pop .. => none
  | [], .empty _ => some []
  | _ :: _, .empty _ => none

/-- The stack after a history, if it is legal. -/
def run (hist : List Event) : Option (List ℕ) := hist.foldlM step []

variable {hist : List Event} {st st' : List ℕ} {e : Event}

theorem run_concat (h : run hist = some st) (he : step st e = some st') :
    run (hist ++ [e]) = some st' := by
  unfold run at h ⊢
  rw [List.foldlM_append, h]
  show ([e].foldlM step st) = some st'
  rw [List.foldlM_cons, he]
  rfl

theorem run_of_concat (h : run (hist ++ [e]) = some st') :
    ∃ st, run hist = some st ∧ step st e = some st' := by
  unfold run at h
  rw [List.foldlM_append] at h
  obtain ⟨st, h₁, h₂⟩ := Option.bind_eq_some_iff.1 h
  refine ⟨st, h₁, ?_⟩
  rw [List.foldlM_cons] at h₂
  obtain ⟨st₁, h₃, h₄⟩ := Option.bind_eq_some_iff.1 h₂
  obtain rfl : st₁ = st' := Option.some.inj h₄
  exact h₃

/-- The nodes that have been pushed, and those that have been popped. -/
def pushed (hist : List Event) : List ℕ := hist.filterMap Event.pushed

def popped (hist : List Event) : List ℕ := hist.filterMap Event.popped

theorem mem_pushed {n : ℕ} : n ∈ pushed hist ↔ ∃ op, .push op n ∈ hist := by
  unfold pushed
  rw [List.mem_filterMap]
  constructor
  · rintro ⟨e, he, hn⟩
    cases e with
    | push op m => exact ⟨op, Option.some.inj hn ▸ he⟩
    | pop op m => cases hn
    | empty op => cases hn
  · rintro ⟨op, he⟩
    exact ⟨_, he, rfl⟩

theorem mem_popped {n : ℕ} : n ∈ popped hist ↔ ∃ op, .pop op n ∈ hist := by
  unfold popped
  rw [List.mem_filterMap]
  constructor
  · rintro ⟨e, he, hn⟩
    cases e with
    | push op m => cases hn
    | pop op m => exact ⟨op, Option.some.inj hn ▸ he⟩
    | empty op => cases hn
  · rintro ⟨op, he⟩
    exact ⟨_, he, rfl⟩

/-- Each call has one operation, and each node is pushed by one call: no node is pushed twice. -/
theorem pushed_nodup (hops : (hist.map Event.op).Nodup)
    (hown : ∀ a b n, .push a n ∈ hist → .push b n ∈ hist → a = b) : (pushed hist).Nodup := by
  have hne : hist.Pairwise fun e e' => e.op ≠ e'.op := List.pairwise_map.1 hops
  unfold pushed
  refine List.pairwise_filterMap.2 (hne.imp_of_mem fun {e e'} he he' hop n hn m hm hnm => ?_)
  subst hnm
  cases e with
  | push a k =>
    obtain rfl : k = n := Option.some.inj hn
    cases e' with
    | push b l =>
      obtain rfl : l = k := Option.some.inj hm
      exact hop (hown a b l he he')
    | pop b l => cases hm
    | empty b => cases hm
  | pop a k => cases hn
  | empty a => cases hn

/-- A node that is popped once is popped by one call. -/
theorem pop_unique (h : (popped hist).Nodup) {a b n : ℕ} (ha : .pop a n ∈ hist)
    (hb : .pop b n ∈ hist) : a = b := by
  unfold popped at h
  by_contra hne
  have : Std.Symm fun e e' : Event => ∀ n, e.popped = some n → ∀ m, e'.popped = some m → n ≠ m :=
    ⟨fun _ _ he m hm n hn hmn => he n hn m hm hmn.symm⟩
  have hevents : (Event.pop a n) ≠ .pop b n := fun he => hne (Event.pop.inj he).1
  exact (List.pairwise_filterMap.1 h).forall ha hb hevents n rfl n rfl rfl

/-- What has been pushed is in the stack or has been popped. -/
theorem run_perm (h : run hist = some st) : (pushed hist).Perm (st ++ popped hist) := by
  induction hist using List.reverseRecOn generalizing st with
  | nil =>
    obtain rfl : [] = st := Option.some.inj h
    exact .refl _
  | append_singleton hist e ih =>
    obtain ⟨st₀, h₀, hstep⟩ := run_of_concat h
    have hperm := ih h₀
    unfold pushed popped at hperm ⊢
    rw [List.filterMap_append, List.filterMap_append]
    cases e with
    | push op n =>
      obtain rfl : n :: st₀ = st := Option.some.inj hstep
      show (hist.filterMap Event.pushed ++ [n]).Perm
        (n :: st₀ ++ (hist.filterMap Event.popped ++ []))
      rw [List.append_nil]
      exact (List.perm_append_singleton n _).trans (hperm.cons n)
    | pop op n =>
      cases st₀ with
      | nil => cases hstep
      | cons m st₀ =>
        have hstep : (if m = n then some st₀ else none) = some st := hstep
        by_cases hm : m = n
        · rw [if_pos hm] at hstep
          obtain rfl := Option.some.inj hstep
          subst hm
          show (hist.filterMap Event.pushed ++ []).Perm
            (st₀ ++ (hist.filterMap Event.popped ++ [m]))
          rw [List.append_nil, ← List.append_assoc]
          exact hperm.trans (List.perm_append_singleton m _).symm
        · rw [if_neg hm] at hstep
          cases hstep
    | empty op =>
      cases st₀ with
      | nil =>
        obtain rfl : [] = st := Option.some.inj hstep
        show (hist.filterMap Event.pushed ++ []).Perm ([] ++ (hist.filterMap Event.popped ++ []))
        rw [List.append_nil, List.append_nil]
        exact hperm
      | cons m st₀ => cases hstep

end Lifo
