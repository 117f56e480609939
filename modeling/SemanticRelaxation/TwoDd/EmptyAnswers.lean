import SemanticRelaxation.TwoDd.StackEmpty
import SemanticRelaxation.TwoDd.Counter

/-!
# Empty answers of the 2Dd stack and the 2Dd counter

A pop (decrement) that answers 0 after the `Empty return` of `get_window` has seen every
sub-structure empty (`empty_return`). After the other `return` statement this need not be so: the
descriptor that it hands out may be that of an empty sub-structure, in which only the put count that
is read once more has changed (`valid_return`).
-/

namespace TwoDd

open AtomicProg TwoD Stack.Interleaved

theorem stack_fits (depth : ℕ) {width : ℕ} (hw : 0 < width % 2 ^ 32) (hw' : width < 2 ^ 64) :
    Fits types (Stack.params width depth).randomHops (Stack.params width depth).width :=
  ⟨hw, (by decide : 2 < 2 ^ 64), hw'⟩

theorem counter_fits (depth : ℕ) {width : ℕ} (hw : 0 < width % 2 ^ 32) (hw' : width < 2 ^ 64) :
    Fits types (Counter.params width depth).randomHops (Counter.params width depth).width :=
  stack_fits depth hw hw'

instance (width : ℕ) (s : Stack.State) : Decidable (FewPushes width s) :=
  inferInstanceAs (Decidable (∀ j < width, pushes j s < 2 ^ 32))

/-- After an `Empty return` no sub-structure was non-empty all the time. -/
theorem empty_return (depth : ℕ) {width : ℕ} (hw : 0 < width % 2 ^ 32) (hw' : width < 2 ^ 64) :
    (∀ p : Pool (exitObject (Stack.params width depth)).service,
      Reach (fun _ _ => True) (fun _ s' => FewPushes width s') Stack.initial .zero p →
      ∀ t op seen tl, p.thread t = .running op Stack.Call.pop seen (.ret (tl, .empty .empty)) →
        ¬ ∃ j < width, ∀ u ∈ seen, (u.shared.mem.array j).node ≠ none) ∧
    ∀ p : Pool (Counter.object (Counter.params width depth)).service,
      Reachable Counter.initial .zero p →
      ∀ t op seen tl, p.thread t = .running op Counter.Call.decrement seen
        (.ret (tl, .empty .empty)) →
        ¬ ∃ j < width, ∀ u ∈ seen,
          (u.shared.mem.array j).putCount ≠ (u.shared.mem.array j).getCount := by
  constructor
  · rintro p hr t op seen tl ht ⟨j, hj, hall⟩
    obtain ⟨v, -, hsub, -, hclear⟩ :=
      (exit_obligations (stack_fits depth hw hw')).implements.returns hr ht
    obtain ⟨u, hu, he⟩ := hclear rfl j hj
    exact hall u.1 (hsub u hu) he
  · rintro p hr t op seen tl ht ⟨j, hj, hall⟩
    obtain ⟨v, -, hsub, -, hclear⟩ :=
      (Counter.counter_obligations (counter_fits depth hw hw')).implements.returns hr ht
    obtain ⟨u, hu, he⟩ := hclear rfl j hj
    exact hall u.1 (hsub u hu) he

/-- A pop is about to answer that all sub-structures are empty. -/
def popAnswersEmpty (th : Thread (exitObject (Stack.params 2 2)).service) : Bool :=
  match th.result with
  | some (_, .pop, _, _, .empty .empty) => true
  | _ => false

/-- A decrement is about to answer that all sub-structures are empty. -/
def decrementAnswersEmpty (th : Thread (Counter.object (Counter.params 2 2)).service) : Bool :=
  match th.result with
  | some (_, .decrement, _, _, .empty .empty) => true
  | _ => false

/-- A pop and a decrement after all items have been taken. -/
theorem empty_return_two :
    (∃ p : Pool (exitObject (Stack.params 2 2)).service, ∃ op seen tl,
      p.thread 0 = .running op Stack.Call.pop seen (.ret (tl, .empty .empty)) ∧
        ¬ ∃ j < 2, ∀ u ∈ seen, (u.shared.mem.array j).node ≠ none) ∧
    ∃ p : Pool (Counter.object (Counter.params 2 2)).service, ∃ op seen tl,
      p.thread 0 = .running op Counter.Call.decrement seen (.ret (tl, .empty .empty)) ∧
        ¬ ∃ j < 2, ∀ u ∈ seen,
          (u.shared.mem.array j).putCount ≠ (u.shared.mem.array j).getCount := by
  constructor
  · have h : (((Pool.init (exitObject (Stack.params 2 2)).service Stack.initial .zero).execIf
        (fun _ s' => decide (FewPushes 2 s'))
        (Move.invoke 0 (Stack.Call.push 7) :: List.replicate 35 (Move.step 0 1) ++
          Move.invoke 0 Stack.Call.pop :: List.replicate 42 (Move.step 0 1) ++
          Move.invoke 0 Stack.Call.pop :: List.replicate 30 (Move.step 0 0))).any fun p =>
        popAnswersEmpty (p.thread 0)) = true := by
      decide +kernel
    obtain ⟨p, hp, hc⟩ := (Option.any_eq_true _ _).1 h
    unfold popAnswersEmpty at hc
    split at hc
    next op seen tl hres =>
      have ht := Thread.eq_of_result hres
      exact ⟨p, op, seen, tl, ht, (empty_return 2 (by decide) (by decide)).1 p
        (Pool.execIf_reach (fun _ _ => of_decide_eq_true) hp (fun _ _ _ _ => True.intro) .init)
        0 op seen tl ht⟩
    next => cases hc
  · have h : (((Pool.init (Counter.object (Counter.params 2 2)).service Counter.initial .zero).exec
        (Move.invoke 0 Counter.Call.increment :: List.replicate 33 (Move.step 0 1) ++
          Move.invoke 0 Counter.Call.decrement :: List.replicate 40 (Move.step 0 1) ++
          Move.invoke 0 Counter.Call.decrement :: List.replicate 30 (Move.step 0 0))).any fun p =>
        decrementAnswersEmpty (p.thread 0)) = true := by
      decide +kernel
    obtain ⟨p, hp, hc⟩ := Pool.exec_of_check h
    unfold decrementAnswersEmpty at hc
    split at hc
    next op seen tl hres =>
      have ht := Thread.eq_of_result hres
      exact ⟨p, op, seen, tl, ht, (empty_return 2 (by decide) (by decide)).2 p
        (Pool.exec_reach hp (fun _ _ _ _ => True.intro) .init) 0 op seen tl ht⟩
    next => cases hc

/-- A pop is about to answer that there is no item, although sub-structure 1 has had one all the
time. -/
def popMissesItem (th : Thread (exitObject (Stack.params 2 2)).service) : Bool :=
  match th.result with
  | some (_, .pop, seen, _, .empty _) => seen.all fun u =>
      decide ((u.shared.mem.array 1).node ≠ none)
  | _ => false

/-- The same of a decrement. -/
def decrementMissesItem (th : Thread (Counter.object (Counter.params 2 2)).service) : Bool :=
  match th.result with
  | some (_, .decrement, seen, _, .empty _) =>
    seen.all fun u => decide ((u.shared.mem.array 1).putCount ≠ (u.shared.mem.array 1).getCount)
  | _ => false

/-- Thread 1 has found sub-structure 0 empty and not read its put count again yet. After an
operation of thread 2 on it the count is another one, and thread 1 answers 0. Sub-structure 1 has
had an item all the time. -/
theorem valid_return :
    (∃ p : Pool (exitObject (Stack.params 2 2)).service, Reachable Stack.initial .zero p ∧
      ∃ op seen tl exit, p.thread 1 = .running op Stack.Call.pop seen (.ret (tl, .empty exit)) ∧
        ∀ u ∈ seen, (u.shared.mem.array 1).node ≠ none) ∧
    ∃ p : Pool (Counter.object (Counter.params 2 2)).service, Reachable Counter.initial .zero p ∧
      ∃ op seen tl exit,
        p.thread 1 = .running op Counter.Call.decrement seen (.ret (tl, .empty exit)) ∧
        ∀ u ∈ seen, (u.shared.mem.array 1).putCount ≠ (u.shared.mem.array 1).getCount := by
  constructor
  · have h : (((Pool.init (exitObject (Stack.params 2 2)).service Stack.initial .zero).exec
        (Move.invoke 0 (Stack.Call.push 7) :: List.replicate 35 (Move.step 0 1) ++
          Move.invoke 0 Stack.Call.pop :: List.replicate 42 (Move.step 0 1) ++
          Move.invoke 0 (Stack.Call.push 8) :: List.replicate 10 (Move.step 0 1) ++
          Move.invoke 1 Stack.Call.pop :: List.replicate 6 (Move.step 1 0) ++
          Move.invoke 2 (Stack.Call.push 9) :: List.replicate 11 (Move.step 2 0) ++
          List.replicate 2 (Move.step 1 0))).any fun p =>
        popMissesItem (p.thread 1)) = true := by
      decide +kernel
    obtain ⟨p, hp, hc⟩ := Pool.exec_of_check h
    unfold popMissesItem at hc
    split at hc
    next op seen tl exit hres =>
      exact ⟨p, Pool.exec_reach hp (fun _ _ _ _ => True.intro) .init, op, seen, tl, exit,
        Thread.eq_of_result hres, fun u hu => of_decide_eq_true (List.all_eq_true.1 hc u hu)⟩
    next => cases hc
  · have h : (((Pool.init (Counter.object (Counter.params 2 2)).service Counter.initial .zero).exec
        (Move.invoke 0 Counter.Call.increment :: List.replicate 33 (Move.step 0 1) ++
          Move.invoke 0 Counter.Call.decrement :: List.replicate 40 (Move.step 0 1) ++
          Move.invoke 0 Counter.Call.increment :: List.replicate 8 (Move.step 0 1) ++
          Move.invoke 1 Counter.Call.decrement :: List.replicate 6 (Move.step 1 0) ++
          Move.invoke 2 Counter.Call.increment :: List.replicate 9 (Move.step 2 0) ++
          List.replicate 2 (Move.step 1 0))).any fun p =>
        decrementMissesItem (p.thread 1)) = true := by
      decide +kernel
    obtain ⟨p, hp, hc⟩ := Pool.exec_of_check h
    unfold decrementMissesItem at hc
    split at hc
    next op seen tl exit hres =>
      exact ⟨p, Pool.exec_reach hp (fun _ _ _ _ => True.intro) .init, op, seen, tl, exit,
        Thread.eq_of_result hres, fun u hu => of_decide_eq_true (List.all_eq_true.1 hc u hu)⟩
    next => cases hc

end TwoDd
