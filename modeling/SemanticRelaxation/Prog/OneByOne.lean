import SemanticRelaxation.Prog.Solo
import SemanticRelaxation.Prog.Steps

/-!
# Calls one at a time

The runs of a service in which a call is only made when no other is running.

* `Serial`: the states between the calls, with what the threads keep;
* `Serial.pool`, `Serial.during`: these runs are runs of the pool, so that what holds of all pools
  holds before, in and after every call;
* `slp J p Q`: if `p`, run alone through states in `J`, ends, then in `Q`. It is defined by
  recursion on the program, with an invariant for every loop, and says nothing of a run that does
  not end;
* `Serial.loc`: what every call leaves for its thread holds for all threads.
-/

namespace AtomicProg

variable {σ L α β γ : Type} {S : Service σ L} {s₀ s s' : σ} {l₀ l : L} {ls : ℕ → L} {n : ℕ}

/-- The number of calls made, the shared state and what the threads keep, after calls that were
executed one at a time. -/
inductive Serial (S : Service σ L) (s₀ : σ) (l₀ : L) : ℕ → σ → (ℕ → L) → Prop
  | init : Serial S s₀ l₀ 0 s₀ fun _ => l₀
  | call {n : ℕ} {s s' : σ} {ls : ℕ → L} {l : L} {r : S.Ret} {tr : List (σ × σ)} (t : ℕ)
    (c : S.Call)
      (h : Serial S s₀ l₀ n s ls) (hr : (S.code ⟨t, n⟩ c (ls t)).Runs s (l, r) s' tr) :
      Serial S s₀ l₀ (n + 1) s' (Function.update ls t l)

/-- What is left of a call, run alone, is run in a pool. -/
theorem Pool.run_later {q : Prog σ (L × S.Ret)} {m : ℕ} {ch : ℕ → ℕ} {x : L × S.Ret}
    {tr : List (σ × σ)} (h : q.run m ch s = some (x, s', tr)) {P : Pool S} {t op : ℕ} {c : S.Call}
    {seen : List (World S)} (ht : P.thread t = .running op c seen q) (hs : P.world.shared = s) :
    (∃ P' seen', P.Later P' ∧ P'.thread t = .running op c seen' (.ret x) ∧ P'.world.shared = s' ∧
      P.SameBut t P') ∧
      ∀ e ∈ tr, ∃ P', P.Later P' ∧ P'.world.shared = e.2 := by
  induction m generalizing ch q s tr P seen with
  | zero => cases h
  | succ m ih =>
    subst hs
    cases q with
    | ret y =>
      obtain ⟨rfl, rfl, rfl⟩ : y = x ∧ P.world.shared = s' ∧ [] = tr := by simpa [Prog.run] using h
      exact ⟨⟨P, seen, .refl, ht, rfl, .refl t P⟩, by intros; contradiction⟩
    | act f k =>
      obtain ⟨⟨y, s₂, tr₂⟩, hrun, he⟩ := Option.map_eq_some_iff.1 h
      obtain ⟨rfl, rfl, rfl⟩ : y = x ∧ s₂ = s' ∧ (P.world.shared, (f (ch 0) P.world.shared).2) ::
        tr₂ = tr := by
        simpa using he
      have hm : P.move (.step t (ch 0)) = some
        (P.publish t (P.world.set (f (ch 0) P.world.shared).2,
          .running op c seen (k (f (ch 0) P.world.shared).1))) := by
        simp only [Pool.move, ht, Thread.step, Option.map_some]
      have hhead : P.Later _ := .single ⟨_, hm⟩
      obtain ⟨⟨P', seen', hl, ht', hs', hsame⟩, hmid⟩ :=
        ih hrun (P := P.publish t (P.world.set (f (ch 0) P.world.shared).2,
        .running op c seen (k (f (ch 0) P.world.shared).1))) Pool.publish_self rfl
      refine ⟨⟨P', seen', hhead.trans hl, ht', hs', hsame.step⟩, fun e he => ?_⟩
      rcases List.mem_cons.1 he with rfl | he
      · exact ⟨_, hhead, rfl⟩
      · obtain ⟨P'', hl'', hs''⟩ := hmid e he
        exact ⟨P'', hhead.trans hl'', hs''⟩
    | loop body b k =>
      have hm : P.move (.step t 0) = some (P.publish t (P.world,
          .running op c seen ((body b).bind (Prog.next body k)))) := by
        simp only [Pool.move, ht, Thread.step, Option.map_some]
      have hhead : P.Later _ := .single ⟨_, hm⟩
      obtain ⟨⟨P', seen', hl, ht', hs', hsame⟩, hmid⟩ := ih h (P := P.publish t (P.world,
        .running op c seen ((body b).bind (Prog.next body k)))) Pool.publish_self rfl
      refine ⟨⟨P', seen', hhead.trans hl, ht', hs', .step (s := P.world.shared) hsame⟩,
        fun e he => ?_⟩
      obtain ⟨P'', hl'', hs''⟩ := hmid e he
      exact ⟨P'', hhead.trans hl'', hs''⟩

/-- A call that an idle thread makes, and that runs alone. -/
theorem Pool.whole_later {P : Pool S} {t : ℕ} {c : S.Call} {r : S.Ret} {tr : List (σ × σ)}
    (ht : P.thread t = .idle (ls t)) (hidle : ∀ u, P.thread u = .idle (ls u))
    (h : (S.code ⟨t, P.world.calls.length⟩ c (ls t)).Runs P.world.shared (l, r) s' tr) :
    (∃ P', P.Later P' ∧ P'.world.shared = s' ∧ P'.world.calls.length = P.world.calls.length + 1 ∧
      ∀ u, P'.thread u = .idle (Function.update ls t l u)) ∧ ∀ e ∈ tr, ∃ P', P.Later P' ∧
        P'.world.shared = e.2 := by
  obtain ⟨m, ch, hrun⟩ := h
  have hm : P.move (.invoke t c) = some (P.publish t (P.world.invoke c,
      .running P.world.calls.length c [] (S.code ⟨t, P.world.calls.length⟩ c (ls t)))) := by
    simp only [Pool.move, ht, Thread.call, Option.map_some]
  have hhead : P.Later _ := .single ⟨_, hm⟩
  obtain ⟨⟨P₁, seen, hl, ht₁, hs₁, hsame⟩, hmid⟩ :=
    Pool.run_later hrun (P := P.publish t (P.world.invoke c,
    .running P.world.calls.length c [] (S.code ⟨t, P.world.calls.length⟩ c
      (ls t)))) Pool.publish_self rfl
  have hm₁ : P₁.move (.step t 0) = some (P₁.publish t (P₁.world.finish P.world.calls.length r,
    .idle l)) := by
    simp only [Pool.move, ht₁, Thread.step, Option.map_some]
  refine ⟨⟨_, (hhead.trans hl).tail ⟨_, hm₁⟩, hs₁, ?_, fun u => ?_⟩, fun e he => ?_⟩
  · show P₁.world.calls.length = _
    rw [hsame.world]
    exact List.length_append
  · by_cases hu : u = t
    · subst hu
      rw [Function.update_self]
      exact Pool.publish_self
    · rw [Function.update_of_ne hu]
      exact Pool.publish_idle hu (hsame.idle u _ hu (Pool.publish_idle hu (hidle u)))
  · obtain ⟨P', hl', hs'⟩ := hmid e he
    exact ⟨P', hhead.trans hl', hs'⟩

namespace Serial

/-- Between the calls all threads of the pool are idle. -/
theorem pool (h : Serial S s₀ l₀ n s ls) : ∃ P : Pool S, Reachable s₀ l₀ P ∧ P.world.shared = s ∧
    P.world.calls.length = n ∧ ∀ t, P.thread t = .idle (ls t) := by
  induction h with
  | init => exact ⟨_, .init, rfl, rfl, fun _ => rfl⟩
  | call t c _ hr ih =>
    obtain ⟨P, hP, rfl, rfl, hidle⟩ := ih
    obtain ⟨⟨P', hl, hs, hn, hidle'⟩, -⟩ := Pool.whole_later (hidle t) hidle hr
    exact ⟨P', hP.later hl, hs, hn, hidle'⟩

/-- The states of a call are states of a pool, and the last one comes later than the first one. -/
theorem during (h : Serial S s₀ l₀ n s ls) {t : ℕ} {c : S.Call} {r : S.Ret} {tr : List (σ × σ)}
    (hr : (S.code ⟨t, n⟩ c (ls t)).Runs s (l, r) s' tr) :
    (∃ P P' : Pool S, Reachable s₀ l₀ P ∧ P.Later P' ∧ P.world.shared = s ∧ P'.world.shared = s') ∧
      ∀ e ∈ tr, ∃ P : Pool S, Reachable s₀ l₀ P ∧ P.world.shared = e.2 := by
  obtain ⟨P, hP, rfl, rfl, hidle⟩ := h.pool
  obtain ⟨⟨P', hl, hs, -, -⟩, hmid⟩ := Pool.whole_later (hidle t) hidle hr
  refine ⟨⟨P, P', hP, hl, rfl, hs⟩, fun e he => ?_⟩
  obtain ⟨P'', hl'', hs''⟩ := hmid e he
  exact ⟨P'', hP.later hl'', hs''⟩

end Serial

/-! ### What a run that ends has done -/

/-- If the program, run alone from the state through states in `J`, ends, then in `Q`. -/
def slp (J : σ → Prop) {α : Type} : Prog σ α → (α → σ → Prop) → σ → Prop
  | .ret a, Q, s => Q a s
  | .act f k, Q, s => ∀ n, J (f n s).2 → slp J (k (f n s).1) Q (f n s).2
  | .loop (β := β) body b k, Q, s => ∃ I : β → σ → Prop, I b s ∧
      ∀ b s, I b s → slp J (body b) (fun r s => Sum.elim (fun b => I b s)
        (fun x => slp J (k x) Q s) r) s

namespace slp

variable {J : σ → Prop} {Q R : α → σ → Prop}

theorem mono {p : Prog σ α} (h : slp J p Q s) (hQ : ∀ a s, Q a s → R a s) : slp J p R s := by
  induction p generalizing s with
  | ret a => exact hQ a s h
  | act f k ih => exact fun n hJ => ih _ (h n hJ) hQ
  | loop body b k ihb ihk =>
    obtain ⟨I, hI, hb⟩ := h
    refine ⟨I, hI, fun b s hI => ihb b (hb b s hI) ?_⟩
    rintro (b' | x) s h
    · exact h
    · exact ihk x h hQ

/-- The rule of sequential composition. -/
theorem bind {p : Prog σ β} {f : β → Prog σ α} (h : slp J p (fun b s => slp J (f b) Q s) s) :
    slp J (p >>= f) Q s := by
  induction p generalizing s with
  | ret b => exact h
  | act g k ih => exact fun n hJ => ih _ (h n hJ)
  | loop body b k ihb ihk =>
    obtain ⟨I, hI, hb⟩ := h
    refine ⟨I, hI, fun b s hI => (hb b s hI).mono ?_⟩
    rintro (b' | x) s h
    · exact h
    · exact ihk x h

/-- A program is run with the specification of its first part. -/
theorem bind_of {A : β → σ → Prop} {p : Prog σ β} {f : β → Prog σ α} (hp : slp J p A s)
    (hf : ∀ b s', A b s' → slp J (f b) Q s') : slp J (p >>= f) Q s :=
  bind (hp.mono hf)

/-- What every step keeps. -/
theorem of_steps {R : σ → σ → Prop} (hrefl : ∀ s, R s s) (htrans : ∀ s₁ s₂ s₃, R s₁ s₂ → R s₂ s₃ →
      R s₁ s₃)
    {p : Prog σ α} (h : p.Steps R) : slp J p (fun _ s' => R s s') s := by
  induction p generalizing s with
  | ret a => exact hrefl s
  | act f k ih => exact fun n _ => (ih _ (h.2 _)).mono fun _ _ => htrans _ _ _ (h.1 n s)
  | loop body b k ihb ihk =>
    refine ⟨fun _ s' => R s s', hrefl s, fun b s' hs => (ihb b (h.1 b)).mono ?_⟩
    rintro (b' | x) s'' hs'
    · exact htrans _ _ _ hs hs'
    · exact (ihk x (h.2 x)).mono fun _ _ => htrans _ _ _ (htrans _ _ _ hs hs')

/-- Any program, if nothing is to be known of it. -/
theorem any (p : Prog σ α) : slp J p (fun _ _ => True) s := by
  induction p generalizing s with
  | ret a => exact True.intro
  | act f k ih => exact fun n _ => ih _
  | loop body b k ihb ihk =>
    refine ⟨fun _ _ => True, True.intro, fun b s _ => (ihb b).mono ?_⟩
    rintro (b' | x) s _
    · exact True.intro
    · exact ihk x

theorem read {f : σ → β} {k : β → Prog σ α} (h : J s → slp J (k (f s)) Q s) :
    slp J (Prog.read f >>= k) Q s :=
  fun _ hJ => h hJ

theorem choose {k : ℕ → Prog σ α} (h : ∀ n, slp J (k n) Q s) : slp J (Prog.choose >>= k) Q s :=
  fun n _ => h n

theorem update {f : σ → β × σ} {k : β → Prog σ α} (h : J (f s).2 → slp J (k (f s).1) Q (f s).2) :
    slp J (Prog.update f >>= k) Q s := fun _ hJ => h hJ

/-- A compare-and-exchange: it finds what it expects or it changes nothing. -/
theorem cae [DecidableEq β] {get : σ → β} {set : β → σ → σ} {e d : β} {k : Bool × β → Prog σ α}
    (hs : get s = e → J (set d s) → slp J (k (true, e)) Q (set d s))
    (hf : get s ≠ e → slp J (k (false, get s)) Q s) : slp J (Prog.cae get set e d >>= k) Q s := by
  refine update ?_
  by_cases he : get s = e
  · simp only [if_pos he]
    exact hs he
  · simp only [if_neg he]
    exact fun _ => hf he

/-- The loop rule. -/
theorem forever {body : β → Prog σ (β ⊕ α)} (I : β → σ → Prop) {b : β} (hI : I b s)
    (h : ∀ b s, I b s → slp J (body b) (fun r s => Sum.elim (fun b => I b s)
      (fun a => Q a s) r) s) :
    slp J (Prog.forever body b) Q s :=
  ⟨I, hI, h⟩

/-- One round of a loop. -/
theorem unfold {body : β → Prog σ (β ⊕ γ)} {b : β} {k : γ → Prog σ α}
    (h : slp J (.loop body b k) Q s) :
    slp J ((body b).bind (Prog.next body k)) Q s := by
  obtain ⟨I, hI, hb⟩ := h
  refine bind ((hb b s hI).mono ?_)
  rintro (b' | x) s h
  · exact ⟨I, h, hb⟩
  · exact h

theorem run_spec {p : Prog σ α} (h : slp J p Q s) {n : ℕ} {ch : ℕ → ℕ} {a : α} {tr : List (σ × σ)}
    (hr : p.run n ch s = some (a, s', tr)) (hJ : ∀ e ∈ tr, J e.2) : Q a s' := by
  induction n generalizing p ch s tr with
  | zero => cases hr
  | succ n ih =>
    cases p with
    | ret b =>
      obtain ⟨rfl, rfl, -⟩ : b = a ∧ s = s' ∧ [] = tr := by simpa [Prog.run] using hr
      exact h
    | act f k =>
      obtain ⟨⟨b, s₁, tr₁⟩, hrun, he⟩ := Option.map_eq_some_iff.1 hr
      obtain ⟨rfl, rfl, rfl⟩ : b = a ∧ s₁ = s' ∧ (s, (f (ch 0) s).2) :: tr₁ = tr :=
        by simpa using he
      exact ih (h _ (hJ _ (List.mem_cons_self ..))) hrun fun e he =>
        hJ e (List.mem_cons_of_mem _ he)
    | loop body b k => exact ih h.unfold hr hJ

/-- A program that can return with nothing does not return. -/
theorem not_terminates {p : Prog σ α} (h : slp (fun _ => True) p (fun _ _ => False) s) :
    ¬p.Terminates s := by
  intro hreturns
  obtain ⟨n, hn⟩ := hreturns fun _ => 0
  obtain ⟨⟨x, s', tr⟩, hrun⟩ := Option.isSome_iff_exists.1 hn
  exact h.run_spec hrun fun _ _ => True.intro

end slp

/-- What a program can be shown to return with. -/
theorem Total.of_bind {C : Contract σ} {Q : α → σ → Prop} {p : Prog σ β} {f : β → Prog σ α}
    (h : Total C Q (p.bind f) s) : Total C (fun b s => Total C Q (f b) s) p s := by
  generalize hq : p.bind f = q at h
  induction h generalizing p with
  | @ret a s h =>
    cases p with
    | ret b => exact .ret ((show f b = .ret a from hq) ▸ .ret h)
    | act g k => cases hq
    | loop body c k => cases hq
  | @act _ g k s hg hk ih =>
    cases p with
    | ret b => exact .ret ((show f b = .act g k from hq) ▸ .act hg hk)
    | act g' k' =>
      cases hq
      exact .act hg fun n ha => ih n ha rfl
    | loop body c k' => cases hq
  | @loop _ _ body c k s h ih =>
    cases p with
    | ret b => exact .ret ((show f b = .loop body c k from hq) ▸ .loop h)
    | act g' k' => cases hq
    | loop body' c' k' =>
      cases hq
      refine .loop (ih ?_)
      show ((body c).bind (Prog.next body k')).bind f = (body c).bind
        (Prog.next body fun x => (k' x).bind f)
      simp only [Prog.bind_eq, Prog.bind_assoc, Total.bind_next]

/-- All runs end, and in `Q`. -/
theorem slp.of_total {C : Contract σ} (hC : ∀ s s', C.assume s s') {J : σ → Prop} {Q : α → σ → Prop}
    {p : Prog σ α} (h : Total C Q p s) : slp J p Q s := by
  induction p generalizing s with
  | ret a =>
    show Q a s
    exact Total.ret_iff.1 h
  | act f k ih =>
    cases h with
    | act _ hk => exact fun n _ => ih _ (hk n (hC _ _))
  | loop body b k ihb ihk =>
    refine ⟨fun b s => Total C Q (.loop body b k) s, h, fun b s h => ?_⟩
    cases h with
    | loop h =>
      refine (ihb b h.of_bind).mono ?_
      rintro (b' | x) s' h'
      · exact h'
      · exact ihk x h'

/-! ### What some run does -/

/-- Some run of the program, alone from the state and by transitions that the contract allows, ends
in `Q`. -/
inductive May (C : Contract σ) (Q : α → σ → Prop) : Prog σ α → σ → Prop
  | ret {a : α} {s : σ} (h : Q a s) : May C Q (.ret a) s
  | act {β : Type} {f : ℕ → σ → β × σ} {k : β → Prog σ α} {s : σ} (n : ℕ)
    (ha : C.assume s (f n s).2) (h : May C Q (k (f n s).1) (f n s).2) : May C Q (.act f k) s
  | loop {β γ : Type} {body : β → Prog σ (β ⊕ γ)} {b : β} {k : γ → Prog σ α} {s : σ}
      (h : May C Q ((body b).bind (Prog.next body k)) s) : May C Q (.loop body b k) s

namespace May

variable {C : Contract σ} {Q : α → σ → Prop}

/-- The rule of sequential composition. -/
theorem bind {p : Prog σ β} {f : β → Prog σ α} (h : May C (fun b s => May C Q (f b) s) p s) :
    May C Q (p >>= f) s := by
  induction h with
  | ret h => exact h
  | act n ha _ ih => exact .act n ha ih
  | loop _ ih =>
    refine .loop ?_
    simp only [Prog.bind_eq, Prog.bind_assoc, Total.bind_next] at ih ⊢
    exact ih

/-- If all runs end in `Q`, then some run does. -/
theorem of_total {C' : Contract σ} (hC : ∀ s s', C'.assume s s') (hg : ∀ s s', C'.guarantee s s' →
    C.assume s s') {p : Prog σ α} (h : Total C' Q p s) : May C Q p s := by
  induction h with
  | ret h => exact .ret h
  | act h _ ih => exact .act 0 (hg _ _ (h 0 (hC _ _))) (ih 0 (hC _ _))
  | loop _ ih => exact .loop ih

theorem mono {R : α → σ → Prop} {p : Prog σ α} (h : May C Q p s) (hQ : ∀ a s, Q a s → R a s) :
    May C R p s := by
  induction h with
  | ret h => exact .ret (hQ _ _ h)
  | act n ha _ ih => exact .act n ha ih
  | loop _ ih => exact .loop ih

theorem bind_of {A : β → σ → Prop} {p : Prog σ β} {f : β → Prog σ α} (hp : May C A p s)
    (hf : ∀ b s', A b s' → May C Q (f b) s') : May C Q (p >>= f) s :=
  bind (hp.mono hf)

theorem read {f : σ → β} {k : β → Prog σ α} (h : May C Q (k (f s)) s) :
    May C Q (Prog.read f >>= k) s := .act 0 (C.assume_refl s) h

theorem choose {k : ℕ → Prog σ α} (n : ℕ) (h : May C Q (k n) s) :
    May C Q (Prog.choose >>= k) s := .act n (C.assume_refl s) h

theorem update {f : σ → β × σ} {k : β → Prog σ α} (ha : C.assume s (f s).2)
    (h : May C Q (k (f s).1) (f s).2) : May C Q (Prog.update f >>= k) s := .act 0 ha h

/-- A compare-and-exchange that finds what it expects. -/
theorem cae [DecidableEq β] {get : σ → β} {set : β → σ → σ} {e d : β} {k : Bool × β → Prog σ α}
    (he : get s = e) (ha : C.assume s (set d s)) (h : May C Q (k (true, e)) (set d s)) :
    May C Q (Prog.cae get set e d >>= k) s := by
  unfold Prog.cae
  refine update ?_ ?_
  · rwa [if_pos he]
  · rwa [if_pos he]

/-- A loop does one round, and goes on. -/
theorem forever {body : β → Prog σ (β ⊕ α)} {b : β}
    (h : May C (fun r s => Sum.elim (fun b => May C Q (Prog.forever body b) s) (fun a => Q a s) r)
      (body b) s) :
    May C Q (Prog.forever body b) s := by
  refine .loop (bind_of h ?_)
  rintro (b' | a) s' h
  · exact h
  · exact .ret h

theorem runs {p : Prog σ α} (h : May C Q p s) : ∃ a s' tr, p.Runs s a s' tr ∧ Q a s' := by
  induction h with
  | @ret a s h => exact ⟨a, s, [], ⟨1, fun _ => 0, rfl⟩, h⟩
  | @act β f k s n _ _ ih =>
    obtain ⟨a, s', tr, ⟨m, ch, hrun⟩, hq⟩ := ih
    refine ⟨a, s', (s, (f n s).2) :: tr, ⟨m + 1, fun | 0 => n | i + 1 => ch i, ?_⟩, hq⟩
    show (Prog.run m ch (k (f n s).1) (f n s).2).map _ = _
    rw [hrun]
    rfl
  | loop _ ih =>
    obtain ⟨a, s', tr, ⟨m, ch, hrun⟩, hq⟩ := ih
    exact ⟨a, s', tr, ⟨m + 1, ch, hrun⟩, hq⟩

/-- A running thread can do so in a pool, and return. -/
theorem returns {ok : S.Call → World S → Prop} {Q : L × S.Ret → σ → Prop} {q : Prog σ (L × S.Ret)}
    (h : May C Q q s) {P : Pool S} (hr : Reach ok C.assume s₀ l₀ P) {t op : ℕ} {c : S.Call}
    {seen : List (World S)} (ht : P.thread t = .running op c seen q) (hs : P.world.shared = s) :
    ∃ P' l r, Reach ok C.assume s₀ l₀ P' ∧ P'.thread t = .idle l ∧ Q (l, r) P'.world.shared := by
  induction h generalizing P seen with
  | @ret x s h =>
    subst hs
    have hm : P.move (.step t 0) = some (P.publish t (P.world.finish op x.2, .idle x.1)) := by
      simp only [Pool.move, ht, Thread.step, Option.map_some]
    exact ⟨_, x.1, x.2, .step t 0 hr hm (C.assume_refl _), Pool.publish_self, h⟩
  | @act β f k s n ha _ ih =>
    subst hs
    have hm : P.move (.step t n) = some (P.publish t (P.world.set (f n P.world.shared).2,
        .running op c seen (k (f n P.world.shared).1))) := by
      simp only [Pool.move, ht, Thread.step, Option.map_some]
    exact ih (.step t n hr hm ha) Pool.publish_self rfl
  | @loop β γ body b k s _ ih =>
    subst hs
    have hm : P.move (.step t 0) = some (P.publish t (P.world,
        .running op c seen ((body b).bind (Prog.next body k)))) := by
      simp only [Pool.move, ht, Thread.step, Option.map_some]
    exact ih (.step t 0 hr hm (C.assume_refl _)) Pool.publish_self rfl

/-- An idle thread makes a call. -/
theorem call {ok : S.Call → World S → Prop} {Q : L × S.Ret → σ → Prop} {P : Pool S}
    (hr : Reach ok C.assume s₀ l₀ P) {t : ℕ} {l : L} (ht : P.thread t = .idle l) {c : S.Call}
    (hok : ok c P.world) (h : May C Q (S.code ⟨t, P.world.calls.length⟩ c l) P.world.shared) :
    ∃ P' l' r, Reach ok C.assume s₀ l₀ P' ∧ P'.thread t = .idle l' ∧
      Q (l', r) P'.world.shared := by
  have hm : P.move (.invoke t c) = some (P.publish t (P.world.invoke c,
      .running P.world.calls.length c [] (S.code ⟨t, P.world.calls.length⟩ c l))) := by
    simp only [Pool.move, ht, Thread.call, Option.map_some]
  exact h.returns (.invoke t c hr hok hm) Pool.publish_self rfl

end May

/-- What `slp` says of a call in a run. `J` holds of all states that are reached. -/
theorem Serial.runs_spec {J : σ → Prop} (hJ : ∀ P : Pool S, Reachable s₀ l₀ P → J P.world.shared)
    (h : Serial S s₀ l₀ n s ls) {t : ℕ} {c : S.Call} {r : S.Ret} {tr : List (σ × σ)}
    {Q : L × S.Ret → σ → Prop} (hp : J s → slp J (S.code ⟨t, n⟩ c (ls t)) Q s)
    (hr : (S.code ⟨t, n⟩ c (ls t)).Runs s (l, r) s' tr) :
    Q (l, r) s' := by
  obtain ⟨⟨P, -, hP, -, rfl, -⟩, hmid⟩ := h.during hr
  obtain ⟨m, ch, hrun⟩ := hr
  refine (hp (hJ P hP)).run_spec hrun fun e he => ?_
  obtain ⟨P', hP', hs⟩ := hmid e he
  exact hs ▸ hJ P' hP'

/-- Every call re-establishes `Loc` for its own thread, and what the calls do to the shared state
keeps it for the others: then it holds for all threads. -/
theorem Serial.loc {J : σ → Prop} (hJ : ∀ P : Pool S, Reachable s₀ l₀ P → J P.world.shared)
    {D : σ → σ → Prop} (hD : ∀ P P' : Pool S, Reachable s₀ l₀ P → P.Later P' →
      D P.world.shared P'.world.shared) (Loc : L → σ → Prop)
    (h₀ : Loc l₀ s₀) (later : ∀ l s s', D s s' → Loc l s → Loc l s')
    (step : ∀ c call l s, J s → Loc l s → slp J (S.code c call l)
      (fun x s' => D s s' → Loc x.1 s') s)
    (h : Serial S s₀ l₀ n s ls) (t : ℕ) : Loc (ls t) s := by
  induction h generalizing t with
  | init => exact h₀
  | @call n s s' ls l r tr u c h hr ih =>
    obtain ⟨⟨P, P', hP, hl, rfl, rfl⟩, -⟩ := h.during hr
    have hd := hD P P' hP hl
    have hown := h.runs_spec hJ (fun hs => step ⟨u, _⟩ c _ _ hs (ih u)) hr hd
    by_cases ht : t = u
    · subst ht
      rwa [Function.update_self]
    · rw [Function.update_of_ne ht]
      exact later _ _ _ hd (ih t)

end AtomicProg
