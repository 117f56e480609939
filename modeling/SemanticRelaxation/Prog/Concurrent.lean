import SemanticRelaxation.Prog.Sequential
import SemanticRelaxation.Support.Prefixes
import Mathlib.Logic.Relation

/-!
# Many threads over one shared state

The interleaving semantics of `Prog`. A `Service` is what threads may call; every call that is made
gets a number, in the order of invocation. A `World` is the shared state with the record of the
calls made and of the answers returned, a `Pool` adds to it what each thread is doing.

* `Pool.move`: one thread makes a call, does one step of the call it runs, or returns from it. A
  running thread keeps the list of the worlds since its invocation (`seen`);
* `Pool.invoke_cases`, `Pool.step_cases`: what a move can do;
* `Reach`: the pools that moves in any order reach;
* `Pool.exec`, `Pool.execIf`: a given list of moves, for runs that are to be computed.
-/

namespace AtomicProg

variable {σ L : Type}

/-- Who runs a piece of code: the thread and the number of its call. -/
structure Caller where
  thread : ℕ
  op : ℕ

/-- The calls on a shared object, with the code of each. `L` is what a thread keeps from one call to
its next. The code may use the number of its call in ghost state only. -/
structure Service (σ L : Type) where
  Call : Type
  Ret : Type
  code : Caller → Call → L → Prog σ (L × Ret)

/-- An object whose code has no ghost state. -/
def Object.service (O : Object σ L) : Service σ L := ⟨O.Call, O.Ret, fun _ => O.code⟩

/-- The shared state, the calls made so far, and for each call that has returned its answer and how
many calls had been made by then. -/
structure World (S : Service σ L) where
  shared : σ
  calls : List S.Call
  returned : ℕ → Option (S.Ret × ℕ)

variable {S : Service σ L}

namespace World

/-- Before the first call. -/
def init (S : Service σ L) (s : σ) : World S := ⟨s, [], fun _ => none⟩

variable (w : World S)

/-- A call is made. -/
def invoke (c : S.Call) : World S := { w with calls := w.calls ++ [c] }

/-- The call `op` returns `r`. -/
def finish (op : ℕ) (r : S.Ret) : World S :=
  { w with returned := Function.update w.returned op (some (r, w.calls.length)) }

/-- The shared state is changed. -/
def set (s : σ) : World S := { w with shared := s }

/-- The call `op` is running. -/
def Live (op : ℕ) : Prop := op < w.calls.length ∧ w.returned op = none

/-- The call `a` returned before the call `b` was made. -/
def Before (a b : ℕ) : Prop := ∃ r k, w.returned a = some (r, k) ∧ k ≤ b

@[simp] theorem invoke_shared (c : S.Call) : (w.invoke c).shared = w.shared := rfl

@[simp] theorem invoke_calls (c : S.Call) : (w.invoke c).calls = w.calls ++ [c] := rfl

@[simp] theorem invoke_returned (c : S.Call) : (w.invoke c).returned = w.returned := rfl

@[simp] theorem finish_shared (op : ℕ) (r : S.Ret) : (w.finish op r).shared = w.shared := rfl

@[simp] theorem finish_calls (op : ℕ) (r : S.Ret) : (w.finish op r).calls = w.calls := rfl

@[simp] theorem set_shared (s : σ) : (w.set s).shared = s := rfl

@[simp] theorem set_calls (s : σ) : (w.set s).calls = w.calls := rfl

@[simp] theorem set_returned (s : σ) : (w.set s).returned = w.returned := rfl

@[simp] theorem set_self : w.set w.shared = w := rfl

theorem finish_returned_self (op : ℕ) (r : S.Ret) :
    (w.finish op r).returned op = some (r, w.calls.length) := Function.update_self ..

theorem finish_returned_of_ne {op o : ℕ} (r : S.Ret) (h : o ≠ op) :
    (w.finish op r).returned o = w.returned o := Function.update_of_ne h _ _

/-- How the record of the calls grows: what it holds it keeps, and an answer that is added is
stamped with a number of calls that is not smaller. -/
structure Evolves (w w' : World S) : Prop where
  calls : w.calls <+: w'.calls
  returned : ∀ o x, w.returned o = some x → w'.returned o = some x
  stamp : ∀ o r k, w'.returned o = some (r, k) → w.returned o = some (r, k) ∨ w.calls.length ≤ k

namespace Evolves

variable {w w₁ w₂ w₃ : World S}

theorem refl (w : World S) : w.Evolves w :=
  ⟨List.prefix_refl _, fun _ _ h => h, fun _ _ _ h => .inl h⟩

theorem trans (h₁ : w₁.Evolves w₂) (h₂ : w₂.Evolves w₃) : w₁.Evolves w₃ where
  calls := h₁.calls.trans h₂.calls
  returned o x h := h₂.returned o x (h₁.returned o x h)
  stamp o r k h := by
    rcases h₂.stamp o r k h with h | h
    · exact h₁.stamp o r k h
    · exact .inr (h₁.calls.length_le.trans h)

theorem set (w : World S) (s : σ) : w.Evolves (w.set s) :=
  ⟨List.prefix_refl _, fun _ _ h => h, fun _ _ _ h => .inl h⟩

theorem invoke (w : World S) (c : S.Call) : w.Evolves (w.invoke c) :=
  ⟨List.prefix_append _ _, fun _ _ h => h, fun _ _ _ h => .inl h⟩

theorem finish {op : ℕ} (h : w.Live op) (r : S.Ret) : w.Evolves (w.finish op r) where
  calls := List.prefix_refl _
  returned o x ho := by
    have hne : o ≠ op := fun e => by simp [e, h.2] at ho
    rwa [finish_returned_of_ne w r hne]
  stamp o r' k ho := by
    by_cases hne : o = op
    · subst hne
      rw [finish_returned_self] at ho
      obtain ⟨-, rfl⟩ := Prod.mk.inj (Option.some.inj ho)
      exact .inr le_rfl
    · rw [finish_returned_of_ne w r hne] at ho
      exact .inl ho

end Evolves

end World

/-- What a thread is doing: nothing, or what is left of a call. -/
inductive Thread (S : Service σ L) where
  | idle (l : L)
  | running (op : ℕ) (c : S.Call) (seen : List (World S)) (p : Prog σ (L × S.Ret))

namespace Thread

/-- The world changes under a thread. -/
def observe (w : World S) : Thread S → Thread S
  | .idle l => .idle l
  | .running op c seen p => .running op c (w :: seen) p

/-- One step of a running thread; the environment chooses the number `n`. -/
def step (n : ℕ) (w : World S) : Thread S → Option (World S × Thread S)
  | .idle _ => none
  | .running op _ _ (.ret (l, r)) => some (w.finish op r, .idle l)
  | .running op c seen (.act f k) =>
      some (w.set (f n w.shared).2, .running op c seen (k (f n w.shared).1))
  | .running op c seen (.loop body b k) =>
      some (w, .running op c seen ((body b).bind (Prog.next body k)))

/-- Thread `t` makes the call `c`. -/
def call (t : ℕ) (c : S.Call) (w : World S) : Thread S → Option (World S × Thread S)
  | .idle l => some (w.invoke c, .running w.calls.length c [] (S.code ⟨t, w.calls.length⟩ c l))
  | .running .. => none

/-- A thread that is about to return: its call, what it has seen, and what it returns. -/
def result : Thread S → Option (ℕ × S.Call × List (World S) × L × S.Ret)
  | .running op c seen (.ret (l, r)) => some (op, c, seen, l, r)
  | _ => none

theorem eq_of_result {th : Thread S} {op : ℕ} {c : S.Call} {seen : List (World S)} {l : L}
    {r : S.Ret} (h : th.result = some (op, c, seen, l, r)) :
    th = .running op c seen (.ret (l, r)) := by
  cases th with
  | idle => cases h
  | running op c seen p =>
    cases p with
    | ret a => cases h; rfl
    | act => cases h
    | loop => cases h

/-- Only the list of what it has seen changes in a thread. -/
theorem of_observe {w : World S} {th : Thread S} {op : ℕ} {c : S.Call} {seen : List (World S)}
    {p : Prog σ (L × S.Ret)} (h : th.observe w = .running op c seen p) :
    ∃ seen₀, th = .running op c seen₀ p ∧ seen = w :: seen₀ := by
  cases th with
  | idle => cases h
  | running op' c' seen₀ p' =>
    simp only [observe, running.injEq] at h
    obtain ⟨rfl, rfl, rfl, rfl⟩ := h
    exact ⟨seen₀, rfl, rfl⟩

theorem idle_of_observe {w : World S} {th : Thread S} {l : L} (h : th.observe w = .idle l) :
    th = .idle l := by
  cases th with
  | idle l' => exact h
  | running => cases h

end Thread

/-- The world, and all threads. -/
structure Pool (S : Service σ L) where
  world : World S
  thread : ℕ → Thread S

/-- A move of the thread `t`. -/
inductive Move (S : Service σ L) where
  | invoke (t : ℕ) (c : S.Call)
  | step (t n : ℕ)

/-- A call of the thread `t`, and `n` of its steps with the random number `ch`. -/
def Move.start {S : Service σ L} (t : ℕ) (c : S.Call) (n ch : ℕ) : List (Move S) :=
  .invoke t c :: List.replicate n (.step t ch)

namespace Pool

/-- No thread has made a call yet. -/
def init (S : Service σ L) (s : σ) (l : L) : Pool S := ⟨.init S s, fun _ => .idle l⟩

/-- Thread `t` has moved on, and all threads see the new world. -/
def publish (P : Pool S) (t : ℕ) (x : World S × Thread S) : Pool S :=
  ⟨x.1, fun u => (Function.update P.thread t x.2 u).observe x.1⟩

/-- One move. -/
def move (P : Pool S) : Move S → Option (Pool S)
  | .invoke t c => ((P.thread t).call t c P.world).map (P.publish t)
  | .step t n => ((P.thread t).step n P.world).map (P.publish t)

/-- The pools that moves in any order reach from a given one. -/
def Later : Pool S → Pool S → Prop := Relation.ReflTransGen fun P P' => ∃ m, P.move m = some P'

/-- The moves of a list, in order. -/
def exec : List (Move S) → Pool S → Option (Pool S)
  | [], P => some P
  | m :: ms, P => (P.move m).bind (exec ms)

/-- The moves of a list, in order, if all changes of the shared state pass a check. -/
def execIf (check : σ → σ → Bool) : List (Move S) → Pool S → Option (Pool S)
  | [], P => some P
  | m :: ms, P => (P.move m).bind fun P' =>
      if check P.world.shared P'.world.shared then execIf check ms P' else none

variable {P P' : Pool S} {t n : ℕ}

theorem publish_self {x : World S × Thread S} : (P.publish t x).thread t = x.2.observe x.1 := by
  show (Function.update P.thread t x.2 t).observe x.1 = _
  rw [Function.update_self]

theorem publish_of_ne {x : World S × Thread S} {u : ℕ} (hu : u ≠ t) :
    (P.publish t x).thread u = (P.thread u).observe x.1 := by
  show (Function.update P.thread t x.2 u).observe x.1 = _
  rw [Function.update_of_ne hu]

/-- A call is made by an idle thread. -/
theorem invoke_cases {c : S.Call} (hm : P.move (.invoke t c) = some P') :
    ∃ l, P.thread t = .idle l ∧
    P' = P.publish t (P.world.invoke c, .running P.world.calls.length c []
      (S.code ⟨t, P.world.calls.length⟩ c l)) := by
  obtain ⟨⟨w, th⟩, hx, rfl⟩ := Option.map_eq_some_iff.1 hm
  cases ht : P.thread t with
  | running => simp [ht, Thread.call] at hx
  | idle l =>
    rw [ht] at hx
    obtain ⟨rfl, rfl⟩ := Prod.mk.inj (Option.some.inj hx)
    exact ⟨l, rfl, rfl⟩

/-- What becomes of a pool in which the running thread `t` does a step: it returns, it does an
atomic step, or it comes to a loop. -/
inductive Stepped (P : Pool S) (t n : ℕ) : Pool S → Prop
  | ret {op : ℕ} {c : S.Call} {seen : List (World S)} {l : L} {r : S.Ret}
      (ht : P.thread t = .running op c seen (.ret (l, r))) :
      Stepped P t n (P.publish t (P.world.finish op r, .idle l))
  | act {op : ℕ} {c : S.Call} {seen : List (World S)} {β : Type} {f : ℕ → σ → β × σ}
      {k : β → Prog σ (L × S.Ret)} (ht : P.thread t = .running op c seen (.act f k)) :
      Stepped P t n (P.publish t
        (P.world.set (f n P.world.shared).2, .running op c seen (k (f n P.world.shared).1)))
  | loop {op : ℕ} {c : S.Call} {seen : List (World S)} {β γ : Type} {body : β → Prog σ (β ⊕ γ)}
    {b : β}
      {k : γ → Prog σ (L × S.Ret)} (ht : P.thread t = .running op c seen (.loop body b k)) :
      Stepped P t n (P.publish t (P.world, .running op c seen ((body b).bind (Prog.next body k))))

theorem step_cases (hm : P.move (.step t n) = some P') : P.Stepped t n P' := by
  obtain ⟨⟨w, th⟩, hx, rfl⟩ := Option.map_eq_some_iff.1 hm
  cases ht : P.thread t with
  | idle => simp [ht, Thread.step] at hx
  | running op c seen p =>
    rw [ht] at hx
    cases p with
    | ret a =>
      obtain ⟨rfl, rfl⟩ := Prod.mk.inj (Option.some.inj hx)
      exact .ret ht
    | act f k =>
      obtain ⟨rfl, rfl⟩ := Prod.mk.inj (Option.some.inj hx)
      exact .act ht
    | loop body b k =>
      obtain ⟨rfl, rfl⟩ := Prod.mk.inj (Option.some.inj hx)
      exact .loop ht

end Pool

/-- The pools that moves in any order reach. A call is made where `ok` allows it, and the changes of
the shared state satisfy `assume`. -/
inductive Reach (ok : S.Call → World S → Prop) (assume : σ → σ → Prop) (s₀ : σ) (l₀ : L) :
    Pool S → Prop
  | init : Reach ok assume s₀ l₀ (.init S s₀ l₀)
  | invoke {P P' : Pool S} (t : ℕ) (c : S.Call) (h : Reach ok assume s₀ l₀ P)
      (hc : ok c P.world) (hm : P.move (.invoke t c) = some P') : Reach ok assume s₀ l₀ P'
  | step {P P' : Pool S} (t n : ℕ) (h : Reach ok assume s₀ l₀ P)
      (hm : P.move (.step t n) = some P') (ha : assume P.world.shared P'.world.shared) :
      Reach ok assume s₀ l₀ P'

/-- The pools that moves in any order reach, without any assumption. -/
abbrev Reachable (s₀ : σ) (l₀ : L) : Pool S → Prop :=
  Reach (fun _ _ => True) (fun _ _ => True) s₀ l₀

/-- What moves reach from a reachable pool is reachable. -/
theorem Reachable.later {s₀ : σ} {l₀ : L} {P P' : Pool S} (h : Reachable s₀ l₀ P)
    (hl : P.Later P') : Reachable s₀ l₀ P' := by
  induction hl with
  | refl => exact h
  | tail _ hm ih =>
    obtain ⟨m, hm⟩ := hm
    cases m with
    | invoke t c => exact .invoke t c ih True.intro hm
    | step t n => exact .step t n ih hm True.intro

/-- A running thread has seen the world of its invocation at least. -/
theorem Reach.seen_ne_nil {ok : S.Call → World S → Prop} {assume : σ → σ → Prop} {s₀ : σ} {l₀ : L}
    {P : Pool S} (h : Reach ok assume s₀ l₀ P) {t op : ℕ} {c : S.Call} {seen : List (World S)}
    {p : Prog σ (L × S.Ret)} (ht : P.thread t = .running op c seen p) : seen ≠ [] := by
  have hpub : ∀ (P₀ : Pool S) t₀ x, P = P₀.publish t₀ x → seen ≠ [] := by
    rintro P₀ t₀ x rfl
    obtain ⟨seen₀, -, rfl⟩ := Thread.of_observe ht
    exact List.cons_ne_nil _ _
  cases h with
  | init => cases ht
  | invoke t₀ c₀ _ _ hm =>
    obtain ⟨x, -, rfl⟩ := Option.map_eq_some_iff.1 hm
    exact hpub _ t₀ x rfl
  | step t₀ n _ hm _ =>
    obtain ⟨x, -, rfl⟩ := Option.map_eq_some_iff.1 hm
    exact hpub _ t₀ x rfl

/-- A run that was computed, with what it was checked for. -/
theorem Pool.exec_of_check {P : Pool S} {ms : List (Move S)} {check : Pool S → Bool}
    (h : ((P.exec ms).any check) = true) : ∃ P', P.exec ms = some P' ∧ check P' = true :=
  (Option.any_eq_true _ _).1 h

theorem Pool.exec_later {P P' : Pool S} {ms : List (Move S)} (h : P.exec ms = some P') :
    P.Later P' := by
  induction ms generalizing P with
  | nil =>
    obtain rfl := Option.some.inj h
    exact .refl
  | cons m ms ih =>
    obtain ⟨P₁, h₁, h₂⟩ := Option.bind_eq_some_iff.1 h
    exact .head ⟨m, h₁⟩ (ih h₂)

theorem Pool.execIf_reach {ok : S.Call → World S → Prop} {assume : σ → σ → Prop}
    {check : σ → σ → Bool} (hcheck : ∀ s s', check s s' = true → assume s s') {s₀ : σ} {l₀ : L}
    {P P' : Pool S} {ms : List (Move S)} (h : P.execIf check ms = some P')
    (hok : ∀ t c, Move.invoke t c ∈ ms → ∀ w, ok c w)
    (hr : Reach ok assume s₀ l₀ P) : Reach ok assume s₀ l₀ P' := by
  induction ms generalizing P with
  | nil =>
    obtain rfl := Option.some.inj h
    exact hr
  | cons m ms ih =>
    obtain ⟨P₁, h₁, h₂⟩ := Option.bind_eq_some_iff.1 h
    split at h₂
    next hc =>
      refine ih h₂ (fun t c hm => hok t c (List.mem_cons_of_mem _ hm)) ?_
      cases m with
      | invoke t c => exact .invoke t c hr (hok t c (List.mem_cons_self ..) _) h₁
      | step t n => exact .step t n hr h₁ (hcheck _ _ hc)
    next => cases h₂

theorem Pool.execIf_true {P : Pool S} (ms : List (Move S)) :
    P.execIf (fun _ _ => true) ms = P.exec ms := by
  induction ms generalizing P with
  | nil => rfl
  | cons m ms ih =>
    show (P.move m).bind (fun P' => P'.execIf (fun _ _ => true) ms) = (P.move m).bind (Pool.exec ms)
    simp only [ih]

theorem Pool.exec_reach {ok : S.Call → World S → Prop} {s₀ : σ} {l₀ : L} {P P' : Pool S}
    {ms : List (Move S)} (h : P.exec ms = some P')
    (hok : ∀ t c, Move.invoke t c ∈ ms → ∀ w, ok c w)
    (hr : Reach ok (fun _ _ => True) s₀ l₀ P) : Reach ok (fun _ _ => True) s₀ l₀ P' :=
  Pool.execIf_reach (fun _ _ _ => True.intro) ((Pool.execIf_true ms).trans h) hok hr

/-- A move takes no call back. -/
theorem Pool.move_calls {P P' : Pool S} {m : Move S} (h : P.move m = some P') :
    P.world.calls <+: P'.world.calls := by
  cases m with
  | invoke t c =>
    obtain ⟨l, -, rfl⟩ := Pool.invoke_cases h
    exact List.prefix_append _ _
  | step t n =>
    cases Pool.step_cases h with
    | ret => exact List.prefix_refl _
    | act => exact List.prefix_refl _
    | loop => exact List.prefix_refl _

theorem Pool.exec_calls {P P' : Pool S} {ms : List (Move S)} (h : P.exec ms = some P') :
    P.world.calls <+: P'.world.calls := by
  induction ms generalizing P with
  | nil =>
    obtain rfl := Option.some.inj h
    exact List.prefix_refl _
  | cons m ms ih =>
    obtain ⟨P₁, h₁, h₂⟩ := Option.bind_eq_some_iff.1 h
    exact (Pool.move_calls h₁).trans (ih h₂)

/-- A computed run of different calls. -/
theorem Pool.exec_reach_nodup {s₀ : σ} {l₀ : L} {P P' : Pool S} {ms : List (Move S)}
    (h : P.exec ms = some P') (hd : P'.world.calls.Nodup) (hr : Reach (fun c w => c ∉ w.calls)
      (fun _ _ => True) s₀ l₀ P) :
    Reach (fun c w => c ∉ w.calls) (fun _ _ => True) s₀ l₀ P' := by
  induction ms generalizing P with
  | nil =>
    obtain rfl := Option.some.inj h
    exact hr
  | cons m ms ih =>
    obtain ⟨P₁, h₁, h₂⟩ := Option.bind_eq_some_iff.1 h
    refine ih h₂ ?_
    cases m with
    | invoke t c =>
      have hnodup : P₁.world.calls.Nodup := hd.sublist (Pool.exec_calls h₂).sublist
      have hm := h₁
      obtain ⟨l, -, rfl⟩ := Pool.invoke_cases hm
      have hc : c ∉ P.world.calls := fun hin => (List.nodup_append.1 hnodup).2.2 c hin c
        (List.mem_singleton_self c) rfl
      exact .invoke t c hr hc h₁
    | step t n => exact .step t n hr h₁ True.intro

end AtomicProg
