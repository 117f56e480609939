import SemanticRelaxation.Prog.Basic
import Mathlib.Order.RelClasses
import Mathlib.Order.WellFounded

/-!
# Total correctness of a program that runs alone

`Total C Q p s` says that `p`, run alone from the state `s`, returns whatever numbers the
environment chooses, and that every result satisfies `Q`. It is an inductive predicate, so that
every derivation is a finite tree and termination needs no separate argument.

The contract `C` speaks about single transitions of the shared state: only runs whose transitions
all satisfy `C.assume` are considered, and each of their transitions must satisfy `C.guarantee`.

* `Total.bind`, `Total.mono` and the `iff` lemmas of the primitive programs run code symbolically;
* `Total.forever` is the loop rule: an invariant and a measure that every further round decreases;
* `Total.runs` and `Total.terminates` read the result off for `Prog.run`.
-/

namespace AtomicProg

variable {σ α β γ δ : Type}

/-- What a run may assume of each transition and what it must guarantee of it. A step that leaves
the state alone is always allowed and always good. -/
structure Contract (σ : Type) where
  assume : σ → σ → Prop
  guarantee : σ → σ → Prop
  assume_refl : ∀ s, assume s s
  guarantee_refl : ∀ s, guarantee s s

/-- The contract that asks for nothing. -/
def Contract.trivial (σ : Type) : Contract σ :=
  ⟨fun _ _ => True, fun _ _ => True, fun _ => True.intro, fun _ => True.intro⟩

/-- All runs of the program from the state return, with results in `Q`. -/
inductive Total (C : Contract σ) (Q : α → σ → Prop) : Prog σ α → σ → Prop
  | ret {a : α} {s : σ} (h : Q a s) : Total C Q (.ret a) s
  | act {β : Type} {f : ℕ → σ → β × σ} {k : β → Prog σ α} {s : σ}
      (hg : ∀ c, C.assume s (f c s).2 → C.guarantee s (f c s).2)
      (hk : ∀ c, C.assume s (f c s).2 → Total C Q (k (f c s).1) (f c s).2) :
      Total C Q (.act f k) s
  | loop {β γ : Type} {body : β → Prog σ (β ⊕ γ)} {b : β} {k : γ → Prog σ α} {s : σ}
      (h : Total C Q ((body b).bind (Prog.next body k)) s) : Total C Q (.loop body b k) s

namespace Total

variable {C : Contract σ} {Q R : α → σ → Prop} {s : σ}

theorem mono {p : Prog σ α} (h : Total C Q p s) (hQ : ∀ a s, Q a s → R a s) :
    Total C R p s := by
  induction h with
  | ret h => exact .ret (hQ _ _ h)
  | act hg _ ih => exact .act hg ih
  | loop _ ih => exact .loop ih

theorem bind_next {body : γ → Prog σ (γ ⊕ β)} {k : β → Prog σ α} {f : α → Prog σ δ}
    (x : γ ⊕ β) :
    (Prog.next body k x >>= f) = Prog.next body (fun c => k c >>= f) x := by
  cases x <;> rfl

/-- The rule of sequential composition. -/
theorem bind {p : Prog σ β} {f : β → Prog σ α}
    (h : Total C (fun b s => Total C Q (f b) s) p s) : Total C Q (p >>= f) s := by
  induction h with
  | ret h => exact h
  | act hg _ ih => exact .act hg ih
  | @loop γ δ body c k s _ ih =>
    refine .loop ?_
    simp only [Prog.bind_eq, Prog.bind_assoc, bind_next] at ih ⊢
    exact ih

/-- A program is run with the specification of its first part. -/
theorem bind_of {P : β → σ → Prop} {p : Prog σ β} {f : β → Prog σ α} (hp : Total C P p s)
    (hf : ∀ b s', P b s' → Total C Q (f b) s') : Total C Q (p >>= f) s :=
  bind (hp.mono hf)

@[simp] theorem ret_iff {a : α} : Total C Q (.ret a) s ↔ Q a s :=
  ⟨fun h => by cases h; assumption, .ret⟩

@[simp] theorem read_iff {f : σ → β} {k : β → Prog σ α} :
    Total C Q (Prog.read f >>= k) s ↔ Total C Q (k (f s)) s := by
  constructor
  · intro h
    cases h with
    | act _ hk => exact hk 0 (C.assume_refl s)
  · intro h
    exact .act (fun _ _ => C.guarantee_refl s) fun _ _ => h

@[simp] theorem choose_iff {k : ℕ → Prog σ α} :
    Total C Q (Prog.choose >>= k) s ↔ ∀ c, Total C Q (k c) s := by
  constructor
  · intro h c
    cases h with
    | act _ hk => exact hk c (C.assume_refl s)
  · intro h
    exact .act (fun _ _ => C.guarantee_refl s) fun c _ => h c

@[simp] theorem update_iff {f : σ → β × σ} {k : β → Prog σ α} :
    Total C Q (Prog.update f >>= k) s ↔
      (C.assume s (f s).2 → C.guarantee s (f s).2 ∧ Total C Q (k (f s).1) (f s).2) := by
  constructor
  · intro h ha
    cases h with
    | act hg hk => exact ⟨hg 0 ha, hk 0 ha⟩
  · intro h
    exact .act (fun _ ha => (h ha).1) fun _ ha => (h ha).2

/-- A compare-and-exchange that finds what it expects. -/
theorem cae_of_eq [DecidableEq β] {get : σ → β} {set : β → σ → σ} {e d : β}
    {k : Bool × β → Prog σ α} (he : get s = e)
    (h : C.assume s (set d s) → C.guarantee s (set d s) ∧ Total C Q (k (true, e)) (set d s)) :
    Total C Q (Prog.cae get set e d >>= k) s := by
  unfold Prog.cae
  rw [update_iff, if_pos he]
  exact h

/-- The loop rule: `I m` holds at the head of every round, for an `m` that gets smaller from one
head to the next, so the loop is left, with `Q`. -/
theorem forever_ghost {ι : Type} [Preorder ι] [WellFoundedLT ι] {body : β → Prog σ (β ⊕ α)}
    (I : ι → β → σ → Prop)
    (step : ∀ m b s, I m b s → Total C
      (fun r s' => Sum.elim (fun b' => ∃ m' < m, I m' b' s') (fun a => Q a s') r) (body b) s)
    {m : ι} {b : β} (hI : I m b s) : Total C Q (Prog.forever body b) s := by
  induction m using WellFoundedLT.induction generalizing b s with
  | _ m ih =>
    refine .loop ?_
    refine bind ((step m b s hI).mono ?_)
    rintro (b' | a) s' hr
    · obtain ⟨m', hlt, hI'⟩ := hr
      exact ih m' hlt hI'
    · exact .ret hr

/-- The loop rule with a measure of the loop state and the shared state. -/
theorem forever {ι : Type} [Preorder ι] [WellFoundedLT ι] {body : β → Prog σ (β ⊕ α)}
    (I : β → σ → Prop) (μ : β → σ → ι)
    (step : ∀ b s, I b s → Total C
      (fun r s' => Sum.elim (fun b' => I b' s' ∧ μ b' s' < μ b s) (fun a => Q a s') r) (body b) s)
    {b : β} (hI : I b s) : Total C Q (Prog.forever body b) s := by
  refine forever_ghost (fun m b s => I b s ∧ μ b s = m) ?_ ⟨hI, rfl⟩
  rintro _ b s ⟨hI, rfl⟩
  refine (step b s hI).mono ?_
  rintro (b' | a) s' hr
  · exact ⟨_, hr.2, hr.1, rfl⟩
  · exact hr

/-- A loop whose body is left in the first round. -/
theorem forever_once {body : β → Prog σ (β ⊕ α)} {b : β}
    (h : Total C (fun r s' => ∃ a, r = .inr a ∧ Q a s') (body b) s) :
    Total C Q (Prog.forever body b) s := by
  refine .loop (bind (h.mono ?_))
  rintro r s' ⟨a, rfl, ha⟩
  exact .ret ha

/-! ### What a derivation says about runs -/

/-- Every run that meets the assumption meets the guarantee and ends in `Q`. -/
theorem run_spec {p : Prog σ α} (h : Total C Q p s) {n : ℕ} {ch : ℕ → ℕ} {a : α} {s' : σ}
    {tr : List (σ × σ)} (hr : p.run n ch s = some (a, s', tr))
    (ha : ∀ t ∈ tr, C.assume t.1 t.2) : Q a s' ∧ ∀ t ∈ tr, C.guarantee t.1 t.2 := by
  induction h generalizing n ch tr with
  | ret h =>
    cases n with
    | zero => cases hr
    | succ n =>
      obtain ⟨rfl, rfl, rfl⟩ : _ = a ∧ _ = s' ∧ [] = tr := by simpa [Prog.run] using hr
      exact ⟨h, by simp⟩
  | @act β f k s hg _ ih =>
    cases n with
    | zero => cases hr
    | succ n =>
      simp only [Prog.run, Option.map_eq_some_iff, Prod.exists, Prod.mk.injEq] at hr
      obtain ⟨a₁, s₁, tr₁, h₁, rfl, rfl, rfl⟩ := hr
      have ha₀ : C.assume s (f (ch 0) s).2 := ha _ (List.mem_cons_self ..)
      obtain ⟨hq, ht⟩ := ih _ ha₀ h₁ fun t ht => ha t (List.mem_cons_of_mem _ ht)
      refine ⟨hq, fun t ht' => ?_⟩
      rcases List.mem_cons.1 ht' with rfl | ht'
      · exact hg _ ha₀
      · exact ht t ht'
  | loop _ ih =>
    cases n with
    | zero => cases hr
    | succ n => exact ih hr ha

theorem runs {p : Prog σ α} (h : Total C Q p s) {a : α} {s' : σ} {tr : List (σ × σ)}
    (hr : p.Runs s a s' tr) (ha : ∀ t ∈ tr, C.assume t.1 t.2) :
    Q a s' ∧ ∀ t ∈ tr, C.guarantee t.1 t.2 := by
  obtain ⟨n, ch, hr⟩ := hr
  exact h.run_spec hr ha

/-- Every transition of a run that meets the assumption so far meets the guarantee. -/
theorem trace_spec {p : Prog σ α} (h : Total C Q p s) {n : ℕ} {ch : ℕ → ℕ}
    (ha : ∀ t ∈ p.trace n ch s, C.assume t.1 t.2) : ∀ t ∈ p.trace n ch s, C.guarantee t.1 t.2 := by
  induction h generalizing n ch with
  | ret =>
    cases n with
    | zero => exact fun _ ht => absurd ht List.not_mem_nil
    | succ n => exact fun _ ht => absurd ht List.not_mem_nil
  | @act β f k s hg _ ih =>
    cases n with
    | zero => exact fun _ ht => absurd ht List.not_mem_nil
    | succ n =>
      have ha₀ : C.assume s (f (ch 0) s).2 := ha _ (List.mem_cons_self ..)
      intro t ht
      rcases List.mem_cons.1 ht with rfl | ht
      · exact hg _ ha₀
      · exact ih _ ha₀ (fun t ht => ha t (List.mem_cons_of_mem _ ht)) t ht
  | loop _ ih =>
    cases n with
    | zero => exact fun _ ht => absurd ht List.not_mem_nil
    | succ n => exact ih ha

/-- Without an assumption on the transitions the program returns. -/
theorem terminates {p : Prog σ α} (h : Total C Q p s) (hC : ∀ s s', C.assume s s') :
    p.Terminates s := by
  induction h with
  | ret h => exact fun ch => ⟨1, rfl⟩
  | @act β f k s _ _ ih =>
    intro ch
    obtain ⟨n, hn⟩ := ih (ch 0) (hC _ _) fun i => ch (i + 1)
    exact ⟨n + 1, by simpa [Prog.run] using hn⟩
  | loop _ ih =>
    intro ch
    obtain ⟨n, hn⟩ := ih ch
    exact ⟨n + 1, hn⟩

end Total

/-! ### Calls executed one at a time -/

/-- A shared object: the calls that threads make on it, the code of each call, and the thread-local
state `L` that a thread keeps from one call to its next. -/
structure Object (σ L : Type) where
  Call : Type
  Ret : Type
  code : Call → L → Prog σ (L × Ret)

/-- The states that calls executed one at a time reach, with the thread-local states of all
threads. A call starts in a state that satisfies `ok`, and its transitions satisfy `assume`. -/
inductive SeqReach {L : Type} (O : Object σ L) (ok : O.Call → σ → Prop) (assume : σ → σ → Prop)
    (s₀ : σ) (l₀ : L) : σ → (ℕ → L) → Prop
  | init : SeqReach O ok assume s₀ l₀ s₀ fun _ => l₀
  | call {s s' : σ} {ls : ℕ → L} {l : L} {r : O.Ret} {tr : List (σ × σ)} (t : ℕ) (c : O.Call)
      (hs : SeqReach O ok assume s₀ l₀ s ls) (hc : ok c s)
      (hr : (O.code c (ls t)).Runs s (l, r) s' tr) (ha : ∀ x ∈ tr, assume x.1 x.2) :
      SeqReach O ok assume s₀ l₀ s' (Function.update ls t l)

/-- Every call keeps `Inv` of the shared state, re-establishes `Loc` for its own thread and keeps
it for the others: then both hold in every state reached. -/
theorem SeqReach.invariant {L : Type} {O : Object σ L} {ok : O.Call → σ → Prop} {C : Contract σ}
    {s₀ : σ} {l₀ : L} (Inv : σ → Prop) (Loc : L → σ → Prop) (h₀ : Inv s₀) (hl₀ : Loc l₀ s₀)
    (step : ∀ c l s, ok c s → Inv s → Loc l s → Total C
      (fun r s' => Inv s' ∧ Loc r.1 s' ∧ ∀ l', Loc l' s → Loc l' s') (O.code c l) s)
    {s : σ} {ls : ℕ → L} (h : SeqReach O ok C.assume s₀ l₀ s ls) : Inv s ∧ ∀ t, Loc (ls t) s := by
  induction h with
  | init => exact ⟨h₀, fun _ => hl₀⟩
  | @call s s' ls l r tr t c _ hc hr ha ih =>
    obtain ⟨⟨hI, hl, hk⟩, -⟩ := (step c (ls t) s hc ih.1 (ih.2 t)).runs hr ha
    refine ⟨hI, fun u => ?_⟩
    by_cases hu : u = t
    · subst hu
      rwa [Function.update_self]
    · rw [Function.update_of_ne hu]
      exact hk _ (ih.2 u)

/-- Calls executed one after the other with `n` units of fuel each: the thread, the call and the
chosen numbers. The result comes with the transitions of the shared state. -/
def Object.exec {L : Type} (O : Object σ L) (n : ℕ) :
    List (ℕ × O.Call × (ℕ → ℕ)) → σ → (ℕ → L) → Option (σ × (ℕ → L) × List (σ × σ))
  | [], s, ls => some (s, ls, [])
  | (t, c, ch) :: script, s, ls =>
    ((O.code c (ls t)).run n ch s).bind fun r =>
      (O.exec n script r.2.1 (Function.update ls t r.1.1)).map fun x => (x.1, x.2.1, r.2.2 ++ x.2.2)

/-- What holds of the first state and of all that transitions lead to holds of the last one. -/
theorem Prog.run_last {P : σ → Prop} {p : Prog σ α} {n : ℕ} {ch : ℕ → ℕ} {s s' : σ} {a : α}
    {tr : List (σ × σ)} (h : p.run n ch s = some (a, s', tr)) (hs : P s) (htr : ∀ x ∈ tr, P x.2) :
    P s' := by
  induction n generalizing p ch s tr with
  | zero => cases p <;> cases h
  | succ n ih =>
    cases p with
    | ret b =>
      obtain ⟨-, rfl, -⟩ : b = a ∧ s = s' ∧ [] = tr := by simpa [Prog.run] using h
      exact hs
    | act f k =>
      obtain ⟨⟨b, s₁, tr₁⟩, hr, he⟩ := Option.map_eq_some_iff.1 h
      obtain ⟨rfl, rfl, rfl⟩ : b = a ∧ s₁ = s' ∧ (s, (f (ch 0) s).2) :: tr₁ = tr :=
        by simpa using he
      exact ih hr (htr _ (List.mem_cons_self ..)) fun x hx => htr x (List.mem_cons_of_mem _ hx)
    | loop body b k => exact ih (p := (body b).bind (Prog.next body k)) h hs htr

/-- Calls that are allowed in all states with `P` that the run goes through. -/
theorem Object.exec_reach_of {L : Type} {O : Object σ L} {ok : O.Call → σ → Prop}
    {assume : σ → σ → Prop} {P : σ → Prop} {s₀ s s' : σ} {l₀ : L} {ls ls' : ℕ → L} {n : ℕ}
    {script : List (ℕ × O.Call × (ℕ → ℕ))} {tr : List (σ × σ)}
    (h : O.exec n script s ls = some (s', ls', tr)) (hP : P s) (htr : ∀ x ∈ tr, P x.2)
    (hok : ∀ x ∈ script, ∀ s, P s → ok x.2.1 s) (ha : ∀ x ∈ tr, assume x.1 x.2)
    (hs : SeqReach O ok assume s₀ l₀ s ls) : SeqReach O ok assume s₀ l₀ s' ls' := by
  induction script generalizing s ls tr with
  | nil =>
    obtain ⟨rfl, rfl, -⟩ : s = s' ∧ ls = ls' ∧ [] = tr := by simpa [Object.exec] using h
    exact hs
  | cons x script ih =>
    obtain ⟨t, c, ch⟩ := x
    obtain ⟨⟨⟨l, r⟩, s₁, tr₁⟩, hr, h⟩ := Option.bind_eq_some_iff.1 h
    obtain ⟨⟨s₂, ls₂, tr₂⟩, h₂, he⟩ := Option.map_eq_some_iff.1 h
    obtain ⟨rfl, rfl, rfl⟩ : s₂ = s' ∧ ls₂ = ls' ∧ tr₁ ++ tr₂ = tr := by simpa using he
    have hP₁ : P s₁ := Prog.run_last hr hP fun x hx => htr x (List.mem_append_left _ hx)
    refine ih h₂ hP₁ (fun x hx => htr x (List.mem_append_right _ hx))
      (fun x hx => hok x (List.mem_cons_of_mem _ hx))
      (fun x hx => ha x (List.mem_append_right _ hx)) ?_
    exact .call t c hs (hok _ (List.mem_cons_self ..) s hP) ⟨n, ch, hr⟩
      fun x hx => ha x (List.mem_append_left _ hx)

theorem Object.exec_reach {L : Type} {O : Object σ L} {ok : O.Call → σ → Prop}
    {assume : σ → σ → Prop} {s₀ s s' : σ} {l₀ : L} {ls ls' : ℕ → L} {n : ℕ}
    {script : List (ℕ × O.Call × (ℕ → ℕ))} {tr : List (σ × σ)}
    (h : O.exec n script s ls = some (s', ls', tr)) (hok : ∀ x ∈ script, ∀ s, ok x.2.1 s)
    (ha : ∀ x ∈ tr, assume x.1 x.2) (hs : SeqReach O ok assume s₀ l₀ s ls) :
    SeqReach O ok assume s₀ l₀ s' ls' :=
  Object.exec_reach_of (P := fun _ => True) h True.intro (fun _ _ => True.intro)
    (fun x hx s _ => hok x hx s) ha hs

/-- A state that was computed. -/
theorem SeqReach.of_check {L : Type} (O : Object σ L) (ok : O.Call → σ → Prop) (s₀ : σ) (l₀ : L)
    (n : ℕ) (script : List (ℕ × O.Call × (ℕ → ℕ))) (P C : σ → Bool)
    (h : ((O.exec n script s₀ fun _ => l₀).any fun x => x.2.2.all (fun y => P y.2) && C x.1) = true)
    (hP : P s₀ = true) (hok : ∀ x ∈ script, ∀ s, P s = true → ok x.2.1 s) :
    ∃ s ls, SeqReach O ok (fun _ _ => True) s₀ l₀ s ls ∧ C s = true := by
  obtain ⟨⟨s, ls, tr⟩, he, hc⟩ := (Option.any_eq_true _ _).1 h
  obtain ⟨htr, hc⟩ := Bool.and_eq_true_iff.1 hc
  exact ⟨s, ls, Object.exec_reach_of (P := fun s => P s = true) he hP
    (List.all_eq_true.1 htr) hok (fun _ _ => True.intro) .init, hc⟩

/-- The states that calls executed one at a time reach, without any assumption. -/
abbrev Object.Reach {L : Type} (O : Object σ L) (s₀ : σ) (l₀ : L) : σ → (ℕ → L) → Prop :=
  SeqReach O (fun _ _ => True) (fun _ _ => True) s₀ l₀

/-- Every call that a thread makes next returns, whatever numbers are chosen, and every answer it
can give satisfies `post`. -/
def Object.Meets {L : Type} (O : Object σ L) (post : O.Call → σ → O.Ret → σ → Prop) (s : σ)
    (ls : ℕ → L) : Prop :=
  ∀ t c, (O.code c (ls t)).Terminates s ∧
    ∀ l r s' tr, (O.code c (ls t)).Runs s (l, r) s' tr → post c s r s'

theorem Object.meets {L : Type} {O : Object σ L} {post : O.Call → σ → O.Ret → σ → Prop} {s : σ}
    {ls : ℕ → L} (h : ∀ t c, Total (.trivial σ) (fun r s' => post c s r.2 s') (O.code c (ls t)) s) :
    O.Meets post s ls := by
  refine fun t c => ⟨(h t c).terminates fun _ _ => True.intro, fun l r s' tr hr => ?_⟩
  exact ((h t c).runs hr fun _ _ => True.intro).1

end AtomicProg
