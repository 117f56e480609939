import SemanticRelaxation.Dcbo.BalancedQueue
import SemanticRelaxation.Prog.Sequential

/-!
# A dequeue that runs alone and finds nothing

If all sub-queues that a dequeue visits give it nothing, and their versions stay, then it answers
`EMPTY`. This is how the counterexamples come to an untrue `EMPTY`.
-/

namespace Dcbo

open AtomicProg

variable {σ H : Type} {C : Contract σ} {I : σ → Prop} {B : Partial σ H} {c : Caller}
  {visited : ℕ → Prop} {version : ℕ → ℕ} {set : Params} {s : σ}

/-- The visited sub-queues give nothing to the call `c`, and their versions stay, as long as `I`
holds, which these operations keep. -/
structure Dry (C : Contract σ) (I : σ → Prop) (B : Partial σ H) (c : Caller) (visited : ℕ → Prop)
    (version : ℕ → ℕ) : Prop where
  tailVersion : ∀ j, visited j → ∀ s, I s →
    Total C (fun y s' => version j = y ∧ I s') (B.tailVersion j) s
  deqCount : ∀ j, visited j → ∀ s, I s → Total C (fun _ s' => I s') (B.deqCount j) s
  dequeue : ∀ j, visited j → ∀ s, I s → Total C (fun r s' => EMPTY = r ∧ I s') (B.dequeue c j) s

namespace Dry

variable (h : Dry C I B c visited version)
include h

theorem collect {start : ℕ} (n i : ℕ) {counts : ℕ → ℕ}
    (hvisit : ∀ k < i + n, visited (indexAt set start k))
    (hc : ∀ k < i, counts (indexAt set start k) = version (indexAt set start k)) (hs : I s) :
    Total C (fun r s' => (∃ counts, .inl counts = r ∧ ∀ k < i + n,
        counts (indexAt set start k) = version (indexAt set start k)) ∧ I s')
      (Dcbo.collect B set c start n i counts) s := by
  induction n generalizing i counts s with
  | zero => exact .ret ⟨⟨counts, rfl, hc⟩, hs⟩
  | succ n ih =>
    have hi := hvisit i (by omega)
    refine Total.bind_of (P := fun y s' => (version (indexAt set start i), EMPTY) = y ∧ I s') ?_ ?_
    · refine Total.bind_of (h.tailVersion _ hi s hs) ?_
      rintro _ s₁ ⟨rfl, hs₁⟩
      refine Total.bind_of (h.dequeue _ hi s₁ hs₁) ?_
      rintro _ s₂ ⟨rfl, hs₂⟩
      exact .ret ⟨rfl, hs₂⟩
    · rintro _ s₁ ⟨rfl, hs₁⟩
      refine (ih (i + 1) (fun k hk => hvisit k (by omega)) (fun k hk => ?_) hs₁).mono
        fun r s' hr => ?_
      · by_cases hidx : indexAt set start k = indexAt set start i
        · rw [hidx, Function.update_self]
        · rw [Function.update_of_ne hidx]
          refine hc k (lt_of_le_of_ne (Nat.lt_succ_iff.1 hk) fun e => hidx ?_)
          rw [e]
      · rwa [show i + 1 + n = i + (n + 1) by omega] at hr

theorem recheck {start : ℕ} (n i : ℕ) {counts : ℕ → ℕ}
    (hvisit : ∀ k < i + n, visited (indexAt set start k))
    (hc : ∀ k < i + n, counts (indexAt set start k) = version (indexAt set start k)) (hs : I s) :
    Total C (fun r s' => none = r ∧ I s') (Dcbo.recheck B set start counts n i) s := by
  induction n generalizing i s with
  | zero => exact .ret ⟨rfl, hs⟩
  | succ n ih =>
    refine Total.bind_of (h.tailVersion _ (hvisit i (by omega)) s hs) ?_
    rintro _ s₁ ⟨rfl, hs₁⟩
    rw [if_neg (not_not.2 (hc i (by omega)))]
    exact ih (i + 1) (fun k hk => hvisit k (by omega)) (fun k hk => hc k (by omega)) hs₁

theorem doubleCollect {start : ℕ} (hvisit : ∀ k < set.width, visited (indexAt set start k))
    (hs : I s) :
    Total C (fun r s' => EMPTY = r ∧ I s') (Dcbo.doubleCollect B set c start) s := by
  refine Total.forever_once (Total.bind_of (h.collect set.width 0 ?_ nofun hs) ?_)
  · exact fun k hk => hvisit k (by omega)
  · rintro _ s₁ ⟨⟨counts, rfl, hc⟩, hs₁⟩
    refine Total.bind_of (h.recheck set.width 0 (fun k hk => hvisit k (by omega)) hc hs₁) ?_
    rintro _ s₂ ⟨rfl, hs₂⟩
    exact .ret ⟨_, rfl, rfl, hs₂⟩

end Dry

/-- `enqueue` once its first number is drawn. -/
def enqueueFrom (B : Partial σ H) (set : Params) (c : Caller) (val : ℤ) (handle : H) (n : ℕ) :
    Prog σ (H × ℤ) := do
  let optIndex ← (do
    let opt ← enqHeuristic B (n % set.width)
    chooseIndex set (enqHeuristic B) (set.d - 1) (n % set.width) opt)
  B.enqueue c optIndex val handle

theorem code_enqueue (B : Partial σ H) (set : Params) (c : Caller) (val : ℤ) (handle : H) :
    (service B set).code c (.enqueue val) handle =
      Prog.choose >>= enqueueFrom B set c val handle := by
  show _ = Prog.choose >>= fun n => enqueueFrom B set c val handle n
  simp only [enqueue, randomIndex, enqueueFrom, Prog.bind_assoc, Prog.pure_eq_ret,
    Prog.ret_bind]

/-- A single draw. -/
theorem chooseIndex_one (hd : set.d = 1) (heuristic : ℕ → Prog σ ℤ) (i : ℕ) (opt : ℤ) :
    chooseIndex set heuristic (set.d - 1) i opt = .ret i := by
  rw [hd]
  rfl

/-- `dequeue` once its first number is drawn. -/
def dequeueFrom (B : Partial σ H) (set : Params) (c : Caller) (n : ℕ) : Prog σ ℤ := do
  let optIndex := n % set.width
  let opt ← deqHeuristic B optIndex
  let optIndex ← chooseIndex set (deqHeuristic B) (set.d - 1) optIndex opt
  let v ← B.dequeue c optIndex
  if v ≠ EMPTY then return v
  else doubleCollect B set c ((optIndex + 1) % 2 ^ 32)

theorem code_dequeue (B : Partial σ H) (set : Params) (c : Caller) (handle : H) :
    (service B set).code c .dequeue handle =
      Prog.choose >>= fun n => dequeueFrom B set c n >>= fun v => .ret (handle, v) := by
  simp only [service, dequeue, randomIndex, dequeueFrom, Prog.bind_assoc, Prog.pure_eq_ret,
    Prog.ret_bind]

/-- A dequeue that draws one visited sub-queue answers `EMPTY` if its round visits such ones only.
-/
theorem Dry.dequeueFrom (h : Dry C I B c visited version) (hd : set.d = 1) {n : ℕ}
    (hn : visited (n % set.width))
    (hvisit : ∀ k < set.width, visited (indexAt set ((n % set.width + 1) % 2 ^ 32) k)) (hs : I s) :
    Total C (fun r s' => EMPTY = r ∧ I s') (Dcbo.dequeueFrom B set c n) s := by
  unfold Dcbo.dequeueFrom
  refine Total.bind_of (P := fun _ s' => I s') ?_ fun opt s₁ hs₁ => ?_
  · exact Total.bind_of (h.deqCount _ hn s hs) fun _ _ h => .ret h
  · rw [chooseIndex_one hd, Prog.ret_bind]
    refine Total.bind_of (h.dequeue _ hn s₁ hs₁) ?_
    rintro _ s₂ ⟨rfl, hs₂⟩
    rw [if_neg (not_not.2 rfl)]
    exact h.doubleCollect hvisit hs₂

end Dcbo
