import SemanticRelaxation.Prog.Sequential
import SemanticRelaxation.Prog.Steps

/-!
# Calls that run alone after interference

A call that is under way, after whatever other threads have done, runs alone from some point on.
`Lively p n` says of a program and of what is noted of its thread that, whatever is left of it at
any time, it returns if it runs alone from a state that is `free` for its note, and that it does not
get out of the `stuck` states alone.

* `Lively.act`, `Lively.bind`, `Lively.forever`: the proof rules. For a step it is enough that it
  leads from free states to free ones and from stuck states to stuck ones; a loop needs a proof that
  it returns alone (`Total.forever`), and that its body is lively;
* `Reach.threads`: what holds of all threads of a pool if the steps of each thread keep it of itself
  and of the others;
* `Total.alone` and `Lively.stuck_alone`: what follows for the threads of a pool.
-/

namespace AtomicProg

variable {σ ν L α β γ : Type}

theorem within_refl (V : σ → Prop) (s : σ) : V s → V s := id

/-- Only states that satisfy `V` are met. -/
def Contract.within (V : σ → Prop) : Contract σ :=
  ⟨fun s s' => V s → V s', fun _ _ => True, within_refl V, fun _ => True.intro⟩

/-- What is left of a program after one step of it is in `X`, or it has returned something in `Q`. A
stuck state is left for stuck ones only. -/
def Prog.Follows (V : σ → Prop) (note : σ → ν) (stuck : ν → σ → Prop) (X : Prog σ α → ν → Prop)
    (Q : α → ν → Prop) : Prog σ α → ν → Prop
  | .ret a, n => Q a n
  | .act f k, n => ∀ c s, V s → note s = n → V (f c s).2 →
      (stuck n s → stuck (note (f c s).2) (f c s).2) ∧ X (k (f c s).1) (note (f c s).2)
  | .loop body b k, n => X (body b >>= Prog.next body k) n

section Logic

variable (V : σ → Prop) (note : σ → ν) (free stuck : ν → σ → Prop)

/-- The program returns alone from all states that are free for the note. -/
def Returns (R : α → σ → Prop) (p : Prog σ α) (n : ν) : Prop :=
  ∀ s, V s → note s = n → free n s → Total (.within V) R p s

/-- Whatever is left of the program returns alone, with `R`. When it returns, `Q` holds of its note.
-/
def Lively (R : α → σ → Prop) (Q : α → ν → Prop) (p : Prog σ α) (n : ν) : Prop :=
  ∃ X : Prog σ α → ν → Prop, X p n ∧
    ∀ q m, X q m → Returns V note free R q m ∧ q.Follows V note stuck X Q m

end Logic

variable {V : σ → Prop} {note : σ → ν} {free stuck : ν → σ → Prop} {R : α → σ → Prop} {Q : α → ν →
  Prop} {n : ν}

theorem Prog.Follows.mono {X Y : Prog σ α → ν → Prop} (hX : ∀ q m, X q m → Y q m) {q : Prog σ α}
    (h : q.Follows V note stuck X Q n) : q.Follows V note stuck Y Q n := by
  cases q with
  | ret a => exact h
  | act f k => exact fun c s hs hn hs' => (h c s hs hn hs').imp_right (hX _ _)
  | loop body b k => exact hX _ _ h

namespace Lively

theorem returns {p : Prog σ α} (h : Lively V note free stuck R Q p n) :
    Returns V note free R p n := by
  obtain ⟨X, hp, hX⟩ := h
  exact (hX p n hp).1

theorem follows {p : Prog σ α} (h : Lively V note free stuck R Q p n) :
    p.Follows V note stuck (Lively V note free stuck R Q) Q n := by
  obtain ⟨X, hp, hX⟩ := h
  exact (hX p n hp).2.mono fun q m hq => ⟨X, hq, hX⟩

theorem mono {R' : α → σ → Prop} {p : Prog σ α} (h : Lively V note free stuck R Q p n)
    (hR : ∀ a s, R a s → R' a s) : Lively V note free stuck R' Q p n := by
  obtain ⟨X, hp, hX⟩ := h
  refine ⟨X, hp, fun q m hq => ⟨fun s hs hn hf => ?_, (hX q m hq).2⟩⟩
  exact ((hX q m hq).1 s hs hn hf).mono hR

/-- A set of programs that contains what is left of its members, up to lively programs. -/
theorem of_set (X : Prog σ α → ν → Prop) {p : Prog σ α} (hp : X p n)
    (hX : ∀ q m, X q m → Returns V note free R q m ∧
      q.Follows V note stuck (fun q m => X q m ∨ Lively V note free stuck R Q q m) Q m) :
    Lively V note free stuck R Q p n := by
  refine ⟨fun q m => X q m ∨ Lively V note free stuck R Q q m, .inl hp, ?_⟩
  rintro q m (hq | hq)
  · exact hX q m hq
  · exact ⟨hq.returns, hq.follows.mono fun _ _ => .inr⟩

theorem ret {a : α} (hR : ∀ s, V s → note s = n → free n s → R a s) (hQ : Q a n) :
    Lively V note free stuck R Q (.ret a) n := by
  apply of_set (fun q m => q = .ret a ∧ m = n) ⟨rfl, rfl⟩
  rintro q m ⟨rfl, rfl⟩
  exact ⟨fun s hs hn hf => .ret (hR s hs hn hf), hQ⟩

/-- A step, from free states to free ones, and from stuck states to stuck ones. -/
theorem act {f : ℕ → σ → β × σ} {k : β → Prog σ α}
    (hk : ∀ c s, V s → note s = n → V (f c s).2 →
      Lively V note free stuck R Q (k (f c s).1) (note (f c s).2))
    (hfree : ∀ c s, V s → note s = n → V (f c s).2 → free n s → free (note (f c s).2) (f c s).2)
    (hstuck : ∀ c s, V s → note s = n → V (f c s).2 → stuck n s → stuck (note (f c s).2)
      (f c s).2) :
    Lively V note free stuck R Q (.act f k) n := by
  apply of_set (fun q m => q = .act f k ∧ m = n) ⟨rfl, rfl⟩
  rintro q m ⟨rfl, rfl⟩
  constructor
  · intro s hs hn hf
    refine .act (fun _ _ => True.intro) fun c ha => ?_
    exact (hk c s hs hn (ha hs)).returns _ (ha hs) rfl (hfree c s hs hn (ha hs) hf)
  · exact fun c s hs hn hs' => ⟨hstuck c s hs hn hs', .inr (hk c s hs hn hs')⟩

theorem bind {Q₁ : β → ν → Prop} {p : Prog σ β} {f : β → Prog σ α}
    (h : Lively V note free stuck (fun b s => Total (.within V) R (f b) s) Q₁ p n)
    (hf : ∀ b m, Q₁ b m → Lively V note free stuck R Q (f b) m) :
    Lively V note free stuck R Q (p >>= f) n := by
  apply of_set (fun q m => ∃ p',
    Lively V note free stuck (fun b s => Total (.within V) R (f b) s) Q₁ p' m ∧
    q = p' >>= f) ⟨p, h, rfl⟩
  rintro q m ⟨p', h', rfl⟩
  refine ⟨fun s hs hn hfr => .bind (h'.returns s hs hn hfr), ?_⟩
  have hnext := h'.follows
  cases p' with
  | ret a => exact (hf a m hnext).follows.mono fun _ _ => .inr
  | act g k => exact fun c s hs hn hs' => (hnext c s hs hn hs').imp_right fun h => .inl ⟨_, h, rfl⟩
  | loop body b k =>
    refine .inl ⟨_, hnext, ?_⟩
    rw [Prog.bind_assoc]
    congr 1
    funext x
    exact (Total.bind_next x).symm

/-- A loop that returns alone, whose body is lively. -/
theorem forever {body : β → Prog σ (β ⊕ α)} (I : β → ν → Prop)
    (htotal : ∀ b m, I b m → Returns V note free R (Prog.forever body b) m)
    (hbody : ∀ b m, I b m → Lively V note free stuck
      (fun r s => Sum.elim (fun b' => Total (.within V) R (Prog.forever body b') s)
        (fun a => R a s) r)
      (fun r m' => Sum.elim (fun b' => I b' m') (fun a => Q a m') r) (body b) m)
    {b : β} (hI : I b n) : Lively V note free stuck R Q (Prog.forever body b) n := by
  apply of_set (fun q m => (∃ b, I b m ∧ q = Prog.forever body b) ∨ ∃ r, Lively V note free stuck
      (fun r s => Sum.elim (fun b' => Total (.within V) R (Prog.forever body b') s)
        (fun a => R a s) r)
      (fun r m' => Sum.elim (fun b' => I b' m') (fun a => Q a m') r) r m ∧
      q = r >>= Prog.next body .ret) (.inl ⟨b, hI, rfl⟩)
  rintro q m (⟨b, hb, rfl⟩ | ⟨r, hr, rfl⟩)
  · exact ⟨htotal b m hb, .inl (.inr ⟨_, hbody b m hb, rfl⟩)⟩
  · constructor
    · intro s hs hn hf
      refine .bind ((hr.returns s hs hn hf).mono ?_)
      rintro (b' | a) s' h
      · exact h
      · exact .ret h
    · have hnext := hr.follows
      cases r with
      | ret a =>
        rcases a with b' | a
        · exact .inl (.inr ⟨_, hbody b' m hnext, rfl⟩)
        · exact hnext
      | act g k =>
        exact fun c s hs hn hs' => (hnext c s hs hn hs').imp_right fun h => .inl (.inr ⟨_, h, rfl⟩)
      | loop body' b' k =>
        refine .inl (.inr ⟨_, hnext, ?_⟩)
        rw [Prog.bind_assoc]
        congr 1
        funext x
        exact (Total.bind_next x).symm

end Lively

/-! ### Threads of a pool -/

section Pools

variable {S : Service σ L} {ok : S.Call → World S → Prop} {s₀ : σ} {l₀ : L} {P : Pool S}

/-- `n` steps of the thread `t` with the numbers `ch`. -/
def Move.alone (t : ℕ) (ch : ℕ → ℕ) (n : ℕ) : List (Move S) :=
  (List.range n).map fun i => .step t (ch i)

theorem Move.alone_succ (t : ℕ) (ch : ℕ → ℕ) (n : ℕ) :
    (Move.alone t ch (n + 1) : List (Move S)) = .step t (ch 0) :: Move.alone t
    (fun i => ch (i + 1)) n := by
  unfold Move.alone
  rw [List.range_succ_eq_map, List.map_cons, List.map_map]
  rfl

/-- `Idle` holds of a thread between two calls, and `Run` of what is left of a call of its. -/
def Thread.Holds (Idle : Prop) (Run : S.Call → Prog σ (L × S.Ret) → Prop) : Thread S → Prop
  | .idle _ => Idle
  | .running _ call _ q => Run call q

/-- A rule for the threads of a pool: `Idle` holds of the threads between two calls, and `Run` of
those in a call. -/
theorem Reach.threads (V : σ → Prop) (hV : ∀ P, Reach ok (fun _ _ => True) s₀ l₀ P →
      V P.world.shared) (Idle : ℕ → σ → Prop)
    (Run : ℕ → S.Call → Prog σ (L × S.Ret) → σ → Prop) (init : ∀ u, Idle u s₀)
    (start : ∀ c call l s, V s → Idle c.thread s → Run c.thread call (S.code c call l) s)
    (finish : ∀ u call a s, V s → Run u call (.ret a) s → Idle u s)
    (act : ∀ u call {β : Type} (f : ℕ → σ → β × σ) k n s, V s → V (f n s).2 → Run u call
      (.act f k) s →
      Run u call (k (f n s).1) (f n s).2 ∧ ∀ v, v ≠ u → (Idle v s → Idle v (f n s).2) ∧
        ∀ call' q, Run v call' q s → Run v call' q (f n s).2)
    (loop : ∀ u call {β γ : Type} (body : β → Prog σ (β ⊕ γ)) b k s, V s → Run u call
      (.loop body b k) s →
      Run u call (body b >>= Prog.next body k) s) (hr : Reach ok (fun _ _ => True) s₀ l₀ P) :
    ∀ u, (P.thread u).Holds (Idle u P.world.shared) fun call q => Run u call q P.world.shared := by
  -- the property does not depend on what a thread has observed
  have hpublish : ∀ (P : Pool S) t w th,
    (∀ u, (Function.update P.thread t th u).Holds (Idle u w.shared)
      fun call q => Run u call q w.shared) → ∀ u, ((P.publish t (w, th)).thread u).Holds
        (Idle u w.shared)
        fun call q => Run u call q w.shared := by
    intro P t w th h u
    have hu := h u
    show ((Function.update P.thread t th u).observe w).Holds _ _
    cases hth : Function.update P.thread t th u <;> simpa [hth, Thread.observe,
      Thread.Holds] using hu
  induction hr with
  | init => exact init
  | @invoke P P' t call hr hok hm ih =>
    obtain ⟨l, ht, rfl⟩ := Pool.invoke_cases hm
    refine hpublish P t _ _ fun u => ?_
    by_cases hu : u = t
    · subst hu
      have hidle := ih u
      rw [ht] at hidle
      rw [Function.update_self]
      exact start ⟨u, P.world.calls.length⟩ call l _ (hV P hr) hidle
    · rw [Function.update_of_ne hu]
      exact ih u
  | @step P P' t n hr hm _ ih =>
    have hV' : V P'.world.shared := hV P' (.step t n hr hm True.intro)
    have hrun := ih t
    cases Pool.step_cases hm with
    | @ret op call seen l r ht =>
      rw [ht] at hrun
      refine hpublish P t _ _ fun u => ?_
      by_cases hu : u = t
      · subst hu
        rw [Function.update_self]
        exact finish u call _ _ (hV P hr) hrun
      · rw [Function.update_of_ne hu]
        exact ih u
    | @act op call seen β f k ht =>
      rw [ht] at hrun
      obtain ⟨hown, hother⟩ := act t call f k n _ (hV P hr) hV' hrun
      refine hpublish P t _ _ fun u => ?_
      by_cases hu : u = t
      · subst hu
        rw [Function.update_self]
        exact hown
      · rw [Function.update_of_ne hu]
        have hu' := ih u
        cases hth : P.thread u with
        | idle l =>
          rw [hth] at hu'
          exact (hother u hu).1 hu'
        | running op' call' seen' q' =>
          rw [hth] at hu'
          exact (hother u hu).2 call' q' hu'
    | @loop op call seen β γ body b k ht =>
      rw [ht] at hrun
      refine hpublish P t _ _ fun u => ?_
      by_cases hu : u = t
      · subst hu
        rw [Function.update_self]
        exact loop u call body b k _ (hV P hr) hrun
      · rw [Function.update_of_ne hu]
        exact ih u

/-- A thread whose program returns alone gets to the end of its call. -/
theorem Total.alone (hV : ∀ P, Reach ok (fun _ _ => True) s₀ l₀ P → V P.world.shared)
    {Q : L × S.Ret → σ → Prop} {q : Prog σ (L × S.Ret)} {s : σ} (h : Total (.within V) Q q s)
    (hr : Reach ok (fun _ _ => True) s₀ l₀ P) {t op : ℕ} {c : S.Call} {seen : List (World S)}
    (ht : P.thread t = .running op c seen q) (hs : P.world.shared = s) (ch : ℕ → ℕ) :
    ∃ n P' l, P.exec (Move.alone t ch n) = some P' ∧ P'.thread t = .idle l := by
  induction h generalizing P seen ch with
  | @ret x s h =>
    obtain ⟨l, r⟩ := x
    have hm : P.move (.step t (ch 0)) = some (P.publish t (P.world.finish op r, .idle l)) := by
      simp only [Pool.move, ht, Thread.step, Option.map_some]
    refine ⟨1, P.publish t (P.world.finish op r, .idle l), l, ?_, Pool.publish_self⟩
    rw [Move.alone_succ, Pool.exec, hm]
    rfl
  | @act β f k s _ _ ih =>
    subst hs
    have hm : P.move (.step t (ch 0)) = some (P.publish t (P.world.set (f (ch 0) P.world.shared).2,
        .running op c seen (k (f (ch 0) P.world.shared).1))) := by
      simp only [Pool.move, ht, Thread.step, Option.map_some]
    have hr' := Reach.step t (ch 0) hr hm True.intro
    obtain ⟨n, P', l, he, hl⟩ := ih (ch 0) (fun _ => hV _ hr') hr' Pool.publish_self rfl fun i =>
      ch (i + 1)
    exact ⟨n + 1, P', l, by rw [Move.alone_succ, Pool.exec, hm]; exact he, hl⟩
  | @loop β γ body b k s _ ih =>
    have hm : P.move (.step t (ch 0)) = some (P.publish t (P.world,
        .running op c seen ((body b).bind (Prog.next body k)))) := by
      simp only [Pool.move, ht, Thread.step, Option.map_some]
    have hr' := Reach.step t (ch 0) hr hm True.intro
    obtain ⟨n, P', l, he, hl⟩ := ih hr' Pool.publish_self hs fun i => ch (i + 1)
    exact ⟨n + 1, P', l, by rw [Move.alone_succ, Pool.exec, hm]; exact he, hl⟩

/-- A thread that is stuck does not get to the end of its call alone. -/
theorem Lively.stuck_alone (hV : ∀ P, Reach ok (fun _ _ => True) s₀ l₀ P → V P.world.shared)
    {R : L × S.Ret → σ → Prop} {Q : L × S.Ret → ν → Prop} (hQ : ∀ a m s, Q a m → ¬ stuck m s)
    {t m : ℕ} {ch : ℕ → ℕ} {P' : Pool S} (hr : Reach ok (fun _ _ => True) s₀ l₀ P) {op : ℕ}
    {c : S.Call} {seen : List (World S)} {q : Prog σ (L × S.Ret)}
    (ht : P.thread t = .running op c seen q) (hq : Lively V note free stuck R Q q
      (note P.world.shared))
    (hstuck : stuck (note P.world.shared) P.world.shared)
    (he : P.exec (Move.alone t ch m) = some P') (l : L) : P'.thread t ≠ .idle l := by
  induction m generalizing P ch seen q with
  | zero =>
    obtain rfl : P = P' := Option.some.inj he
    rw [ht]
    exact nofun
  | succ m ih =>
    rw [Move.alone_succ, Pool.exec] at he
    have hnext := hq.follows
    cases q with
    | ret a => exact absurd hstuck (hQ a _ _ hnext)
    | act f k =>
      have hm : P.move (.step t (ch 0)) = some
        (P.publish t (P.world.set (f (ch 0) P.world.shared).2,
          .running op c seen (k (f (ch 0) P.world.shared).1))) := by
        simp only [Pool.move, ht, Thread.step, Option.map_some]
      have hr' := Reach.step t (ch 0) hr hm True.intro
      rw [hm] at he
      obtain ⟨hstuck', hq'⟩ := hnext (ch 0) _ (hV P hr) rfl (hV _ hr')
      exact ih hr' Pool.publish_self hq' (hstuck' hstuck) he
    | loop body b k =>
      have hm : P.move (.step t (ch 0)) = some (P.publish t (P.world,
          .running op c seen ((body b).bind (Prog.next body k)))) := by
        simp only [Pool.move, ht, Thread.step, Option.map_some]
      rw [hm] at he
      exact ih (.step t (ch 0) hr hm True.intro) Pool.publish_self hnext hstuck he

end Pools

end AtomicProg
