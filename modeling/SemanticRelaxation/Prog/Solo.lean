import SemanticRelaxation.Prog.Concurrent

/-!
# A thread that runs alone in a pool

What `Total` shows of a program that runs alone, for a running thread of a reachable pool while all
other threads stand still.

* `Total.solo`: the thread gets to its return;
* `Passes` and `Passes.reach`: it gets to a state in the middle of a program;
* `Reach.call`, `Reach.finish`: the moves around it; `Total.whole`: the whole call.
-/

namespace AtomicProg

variable {σ L : Type} {S : Service σ L} {ok : S.Call → World S → Prop} {s₀ : σ} {l₀ : L}

/-- The contract that each transition keeps `I`. -/
def Contract.keeping (I : σ → Prop) : Contract σ :=
  ⟨fun _ _ => True, fun s s' => I s → I s', fun _ => True.intro, fun _ => id⟩

/-- The pools that a thread reaches alone. -/
abbrev Alone (S : Service σ L) (ok : S.Call → World S → Prop) (s₀ : σ) (l₀ : L) : Pool S → Prop :=
  Reach ok (fun _ _ => True) s₀ l₀

/-- What a pool has in common with a later one, when only the thread `t` has moved, and only the
shared state has changed. -/
structure Pool.SameBut (t : ℕ) (P P' : Pool S) : Prop where
  world : P'.world = P.world.set P'.world.shared
  idle : ∀ u l, u ≠ t → P.thread u = .idle l → P'.thread u = .idle l

theorem Pool.publish_idle {P : Pool S} {t u : ℕ} {l : L} {x : World S × Thread S} (hu : u ≠ t)
    (h : P.thread u = .idle l) : (P.publish t x).thread u = .idle l := by
  show (Function.update P.thread t x.2 u).observe x.1 = _
  rw [Function.update_of_ne hu, h]
  rfl

theorem Pool.SameBut.refl (t : ℕ) (P : Pool S) : P.SameBut t P :=
  ⟨(World.set_self _).symm, fun _ _ _ h => h⟩

/-- One step of the running thread `t`. -/
theorem Pool.SameBut.step {t : ℕ} {P P' : Pool S} {s : σ} {th : Thread S}
    (h : (P.publish t (P.world.set s, th)).SameBut t P') : P.SameBut t P' :=
  ⟨h.world, fun u l hu hl => h.idle u l hu (Pool.publish_idle hu hl)⟩

/-- The thread `t`, which runs a program that is `Total`, gets to its return. What its steps keep
holds in all worlds it sees, and what its moves keep of the pools holds in the end. -/
theorem Total.solo_of {C : Contract σ} (hC : ∀ s s', C.assume s s') {Q : L × S.Ret → σ → Prop}
    {I : σ → Prop} (hI : ∀ s s', C.guarantee s s' → I s → I s') {R : Pool S → Prop} {t : ℕ}
    (hR : ∀ P₁ P₂ n, R P₁ → P₁.move (.step t n) = some P₂ → R P₂) {q : Prog σ (L × S.Ret)} {s : σ}
    (h : Total C Q q s) {P : Pool S} (hr : R P) {op : ℕ} {c : S.Call}
    {seen : List (World S)} (ht : P.thread t = .running op c seen q) (hs : P.world.shared = s)
    (hi : I s) : ∃ P' seen' x, R P' ∧ P'.thread t = .running op c seen' (.ret x) ∧
      Q x P'.world.shared ∧ P.SameBut t P' ∧
      ∀ u ∈ seen', u ∈ seen ∨ u = P.world.set u.shared ∧ I u.shared := by
  induction h generalizing P seen with
  | @ret x s h =>
    subst hs
    exact ⟨P, seen, x, hr, ht, h, .refl t P, fun u hu => .inl hu⟩
  | @act β f k s hg _ ih =>
    subst hs
    have hm : P.move (.step t 0) = some (P.publish t (P.world.set (f 0 P.world.shared).2,
        .running op c seen (k (f 0 P.world.shared).1))) := by
      simp only [Pool.move, ht, Thread.step, Option.map_some]
    have hi' := hI _ _ (hg 0 (hC _ _)) hi
    obtain ⟨P', seen', x, hr', ht', hq, hsame, hseen⟩ := ih 0 (hC _ _) (hR _ _ 0 hr hm)
      Pool.publish_self rfl hi'
    refine ⟨P', seen', x, hr', ht', hq, hsame.step, fun u hu => ?_⟩
    rcases hseen u hu with hu | hu
    · rcases List.mem_cons.1 hu with rfl | hu
      · exact .inr ⟨rfl, hi'⟩
      · exact .inl hu
    · exact .inr hu
  | @loop β γ body b k s _ ih =>
    subst hs
    have hm : P.move (.step t 0) = some (P.publish t (P.world,
        .running op c seen ((body b).bind (Prog.next body k)))) := by
      simp only [Pool.move, ht, Thread.step, Option.map_some]
    obtain ⟨P', seen', x, hr', ht', hq, hsame, hseen⟩ := ih (hR _ _ 0 hr hm)
      Pool.publish_self rfl hi
    refine ⟨P', seen', x, hr', ht', hq, .step (s := P.world.shared) hsame, fun u hu => ?_⟩
    rcases hseen u hu with hu | hu
    · rcases List.mem_cons.1 hu with rfl | hu
      · exact .inr ⟨(World.set_self _).symm, hi⟩
      · exact .inl hu
    · exact .inr hu

/-- The pools stay reachable. -/
theorem Total.solo {C : Contract σ} (hC : ∀ s s', C.assume s s') {Q : L × S.Ret → σ → Prop}
    {I : σ → Prop} (hI : ∀ s s', C.guarantee s s' → I s → I s') {q : Prog σ (L × S.Ret)} {s : σ}
    (h : Total C Q q s) {P : Pool S} (hr : Alone S ok s₀ l₀ P) {t op : ℕ} {c : S.Call}
    {seen : List (World S)} (ht : P.thread t = .running op c seen q) (hs : P.world.shared = s)
    (hi : I s) : ∃ P' seen' x, Alone S ok s₀ l₀ P' ∧ P'.thread t = .running op c seen' (.ret x) ∧
      Q x P'.world.shared ∧ P.SameBut t P' ∧
      ∀ u ∈ seen', u ∈ seen ∨ u = P.world.set u.shared ∧ I u.shared :=
  h.solo_of hC hI (fun _ _ n hr hm => .step t n hr hm True.intro) hr ht hs hi

/-- Some run of the program, alone from the state, comes through a state in `A`. -/
inductive Passes (A : σ → Prop) {α : Type} : Prog σ α → σ → Prop
  | here {p : Prog σ α} {s : σ} (h : A s) : Passes A p s
  | act {β : Type} {f : ℕ → σ → β × σ} {k : β → Prog σ α} {s : σ} (n : ℕ)
      (h : Passes A (k (f n s).1) (f n s).2) : Passes A (.act f k) s
  | loop {β γ : Type} {body : β → Prog σ (β ⊕ γ)} {b : β} {k : γ → Prog σ α} {s : σ}
      (h : Passes A (body b >>= Prog.next body k) s) : Passes A (.loop body b k) s

namespace Passes

variable {A : σ → Prop} {α β : Type} {s : σ}

theorem read {f : σ → β} {k : β → Prog σ α} (h : Passes A (k (f s)) s) :
    Passes A (Prog.read f >>= k) s := .act 0 h

theorem update {f : σ → β × σ} {k : β → Prog σ α} (h : Passes A (k (f s).1) (f s).2) :
    Passes A (Prog.update f >>= k) s := .act 0 h

theorem bind {p : Prog σ β} {f : β → Prog σ α} (h : Passes A p s) : Passes A (p >>= f) s := by
  induction h with
  | here h => exact .here h
  | act n _ ih => exact .act n ih
  | loop _ ih =>
    refine .loop ?_
    simp only [Prog.bind_assoc, Total.bind_next] at ih ⊢
    exact ih

/-- The program begins with a part that is `Total`. -/
theorem of_total {C : Contract σ} (hC : ∀ s s', C.assume s s') {Q : β → σ → Prop} {p : Prog σ β}
    {f : β → Prog σ α} (h : Total C Q p s) (hf : ∀ b s', Q b s' → Passes A (f b) s') :
    Passes A (p >>= f) s := by
  induction h with
  | ret h => exact hf _ _ h
  | act _ _ ih => exact .act 0 (ih 0 (hC _ _))
  | loop _ ih =>
    refine .loop ?_
    simp only [Prog.bind_eq, Prog.bind_assoc, Total.bind_next] at ih ⊢
    exact ih

/-- The thread `t` comes through such a state. -/
theorem reach {q : Prog σ (L × S.Ret)} (h : Passes A q s) {P : Pool S} (hr : Alone S ok s₀ l₀ P)
    {t op : ℕ} {c : S.Call} {seen : List (World S)} (ht : P.thread t = .running op c seen q)
    (hs : P.world.shared = s) : ∃ P', Alone S ok s₀ l₀ P' ∧ A P'.world.shared ∧ P.SameBut t P' := by
  induction h generalizing P seen with
  | here h =>
    subst hs
    exact ⟨P, hr, h, .refl t P⟩
  | @act β f k s n _ ih =>
    subst hs
    have hm : P.move (.step t n) = some (P.publish t (P.world.set (f n P.world.shared).2,
        .running op c seen (k (f n P.world.shared).1))) := by
      simp only [Pool.move, ht, Thread.step, Option.map_some]
    obtain ⟨P', hr', ha, hsame⟩ := ih (.step t n hr hm True.intro) Pool.publish_self rfl
    exact ⟨P', hr', ha, hsame.step⟩
  | @loop β γ body b k s _ ih =>
    subst hs
    have hm : P.move (.step t 0) = some (P.publish t (P.world,
        .running op c seen (body b >>= Prog.next body k))) := by
      simp only [Pool.move, ht, Thread.step, Option.map_some, Prog.bind_eq]
    obtain ⟨P', hr', ha, hsame⟩ := ih (.step t 0 hr hm True.intro) Pool.publish_self rfl
    exact ⟨P', hr', ha, .step (s := P.world.shared) hsame⟩

end Passes

/-- An idle thread makes a call whose code begins with the choice of a number. -/
theorem Reach.call {P : Pool S} (hr : Alone S ok s₀ l₀ P) {t : ℕ} {l : L}
    (ht : P.thread t = .idle l) {c : S.Call} (hok : ok c P.world) {k : ℕ → Prog σ (L × S.Ret)}
    (n : ℕ) (hcode : S.code ⟨t, P.world.calls.length⟩ c l = Prog.choose >>= k) :
    ∃ P' seen, Alone S ok s₀ l₀ P' ∧ P'.thread t = .running P.world.calls.length c seen (k n) ∧
      (P'.world = P.world.invoke c ∧ ∀ u l, u ≠ t → P.thread u = .idle l → P'.thread u = .idle l) ∧
      ∀ u ∈ seen, u = P.world.invoke c := by
  have hm : P.move (.invoke t c) = some (P.publish t (P.world.invoke c,
      .running P.world.calls.length c [] (Prog.choose >>= k))) := by
    simp only [Pool.move, ht, Thread.call, Option.map_some, hcode]
  have h₁ : Alone S ok s₀ l₀ _ := .invoke t c hr hok hm
  have hm' : (P.publish t (P.world.invoke c,
      .running P.world.calls.length c [] (Prog.choose >>= k))).move (.step t n) =
      some (Pool.publish (P.publish t (P.world.invoke c,
        .running P.world.calls.length c [] (Prog.choose >>= k))) t
        (P.world.invoke c, .running P.world.calls.length c [P.world.invoke c] (k n))) := by
    simp only [Pool.move, Pool.publish_self, Thread.observe, Prog.choose, Prog.act_bind,
      Thread.step,
      Option.map_some, Prog.ret_bind]
    rfl
  refine ⟨_, _, .step t n h₁ hm' True.intro, Pool.publish_self, ⟨rfl, fun u l hu hl =>
    Pool.publish_idle hu (Pool.publish_idle hu hl)⟩, fun u hu => ?_⟩
  simpa using hu

/-- An idle thread makes a call whose code begins with the choice of a number, runs alone, and gets
to its return. -/
theorem Total.call {C : Contract σ} (hC : ∀ s s', C.assume s s') {Q : L × S.Ret → σ → Prop}
    {I : σ → Prop} (hI : ∀ s s', C.guarantee s s' → I s → I s') {P : Pool S}
    (hr : Alone S ok s₀ l₀ P) {t : ℕ} {l : L} (ht : P.thread t = .idle l) {c : S.Call}
    (hok : ok c P.world) {k : ℕ → Prog σ (L × S.Ret)} (n : ℕ)
    (hcode : S.code ⟨t, P.world.calls.length⟩ c l = Prog.choose >>= k)
    (h : Total C Q (k n) P.world.shared) (hi : I P.world.shared) :
    ∃ P' seen x, Alone S ok s₀ l₀ P' ∧
      P'.thread t = .running P.world.calls.length c seen (.ret x) ∧ Q x P'.world.shared ∧
      (P'.world = (P.world.invoke c).set P'.world.shared ∧
        ∀ u l, u ≠ t → P.thread u = .idle l → P'.thread u = .idle l) ∧
      ∀ u ∈ seen, u = (P.world.invoke c).set u.shared ∧ I u.shared := by
  obtain ⟨P₁, seen₁, hr₁, ht₁, ⟨hw₁, hi₁⟩, hs₁⟩ := Reach.call hr ht hok n hcode
  obtain ⟨P', seen, x, hr', ht', hq, hsame, hseen⟩ := h.solo hC hI hr₁ ht₁ (by rw [hw₁]; rfl) hi
  rw [hw₁] at hseen
  refine ⟨P', seen, x, hr', ht', hq, ⟨hw₁ ▸ hsame.world, fun u l hu hl =>
    hsame.idle u l hu (hi₁ u l hu hl)⟩, fun u hu => ?_⟩
  rcases hseen u hu with hu | hu
  · have hu : u = P.world.invoke c := hs₁ u hu
    exact ⟨by rw [hu, World.set_self], by rw [hu]; exact hi⟩
  · exact hu

/-- A thread that is about to return does so. -/
theorem Reach.finish {P : Pool S} (hr : Alone S ok s₀ l₀ P) {t op : ℕ} {c : S.Call}
    {seen : List (World S)} {l : L} {r : S.Ret} (ht : P.thread t = .running op c seen
      (.ret (l, r))) :
    ∃ P', Alone S ok s₀ l₀ P' ∧ P'.thread t = .idle l ∧ P'.world = P.world.finish op r ∧
      ∀ u l', u ≠ t → P.thread u = .idle l' → P'.thread u = .idle l' := by
  have hm : P.move (.step t 0) = some (P.publish t (P.world.finish op r, .idle l)) := by
    simp only [Pool.move, ht, Thread.step, Option.map_some]
  exact ⟨_, .step t 0 hr hm True.intro, Pool.publish_self, rfl, fun u l' hu hl =>
    Pool.publish_idle hu hl⟩

/-- An idle thread makes a call, runs alone, and returns. -/
theorem Total.whole {C : Contract σ} (hC : ∀ s s', C.assume s s') {Q : L × S.Ret → σ → Prop}
    {P : Pool S} (hr : Alone S ok s₀ l₀ P) {t : ℕ} {l : L} (ht : P.thread t = .idle l) {c : S.Call}
    (hok : ok c P.world) (h : Total C Q (S.code ⟨t, P.world.calls.length⟩ c l) P.world.shared) :
    ∃ P' l' r, Alone S ok s₀ l₀ P' ∧ P'.thread t = .idle l' ∧ Q (l', r) P'.world.shared ∧
      ∀ u l₁, u ≠ t → P.thread u = .idle l₁ → P'.thread u = .idle l₁ := by
  have hm : P.move (.invoke t c) = some (P.publish t (P.world.invoke c,
      .running P.world.calls.length c [] (S.code ⟨t, P.world.calls.length⟩ c l))) := by
    simp only [Pool.move, ht, Thread.call, Option.map_some]
  obtain ⟨P₁, seen, ⟨l', r⟩, hr₁, ht₁, hq, hsame, -⟩ := h.solo hC (fun _ _ _ _ => True.intro)
    (.invoke t c hr hok hm) Pool.publish_self rfl True.intro
  obtain ⟨P₂, hr₂, ht₂, hw₂, hi₂⟩ := Reach.finish hr₁ ht₁
  refine ⟨P₂, l', r, hr₂, ht₂, by rwa [hw₂], fun u l₁ hu hl => hi₂ u l₁ hu (hsame.idle u l₁ hu ?_)⟩
  exact Pool.publish_idle hu hl

/-- A call of an idle thread comes through a state. -/
theorem Passes.call {A : σ → Prop} {P : Pool S} (hr : Alone S ok s₀ l₀ P) {t : ℕ} {l : L}
    (ht : P.thread t = .idle l) {c : S.Call} (hok : ok c P.world)
    (h : Passes A (S.code ⟨t, P.world.calls.length⟩ c l) P.world.shared) :
    ∃ P', Alone S ok s₀ l₀ P' ∧ A P'.world.shared := by
  have hm : P.move (.invoke t c) = some (P.publish t (P.world.invoke c,
      .running P.world.calls.length c [] (S.code ⟨t, P.world.calls.length⟩ c l))) := by
    simp only [Pool.move, ht, Thread.call, Option.map_some]
  obtain ⟨P', hr', ha, -⟩ := h.reach (.invoke t c hr hok hm) Pool.publish_self rfl
  exact ⟨P', hr', ha⟩

end AtomicProg
