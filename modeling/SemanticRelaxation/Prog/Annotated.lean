import SemanticRelaxation.Prog.Ghost

/-!
# Programs with annotations

A program over `σ × τ` annotates a program over `σ` if it does the same on the first component: what
it keeps in the second one is a record of the run.

* `Prog.readWith`, `Prog.noting`: steps that leave a note, and `Prog.Annotates`, the relation of the
  two programs;
* `Pool.Annotates.move`, `Reach.of_annotated`: threads that run annotated code do what threads that
  run the code do;
* `wp.read_fst` and the like: the rules for the parts that are run on the first component.
-/

namespace AtomicProg

variable {σ τ L Γ α β γ δ : Type}

namespace Prog

/-- A load, with a note in the second component. -/
def readWith (f : σ → β) (note : σ → τ → τ) : Prog (σ × τ) β :=
  update fun x => (f x.1, (x.1, note x.1 x.2))

/-- The program on the first component, whose first step leaves a note. -/
def noting {α : Type} (note : τ → τ) : Prog σ α → Prog (σ × τ) α
  | .ret a => .ret a
  | .act f k => .act (fun n x => ((f n x.1).1, ((f n x.1).2, note x.2))) fun b => (k b).onFst
  | .loop body b k => (loop body b k).onFst

/-- The first program does what the second one does, and changes the second component besides. The
second one knows less of its result: `φ` forgets the rest. -/
inductive AnnotatesBy : {α α' : Type} → (α → α') → Prog (σ × τ) α → Prog σ α' → Prop
  | ret {α α' : Type} {φ : α → α'} {a : α} {a' : α'} (h : φ a = a') :
    AnnotatesBy φ (.ret a) (.ret a')
  | rel {α α' β β' : Type} {φ : α → α'} (R : β → β' → Prop) (htotal : ∀ b, ∃ b', R b b')
      {f : ℕ → σ × τ → β × (σ × τ)} {g : ℕ → σ → β' × σ} {k : β → Prog (σ × τ) α}
      {l : β' → Prog σ α'} (h : ∀ n x, R (f n x).1 (g n x.1).1 ∧ (f n x).2.1 = (g n x.1).2)
      (hk : ∀ b b', R b b' → AnnotatesBy φ (k b) (l b')) : AnnotatesBy φ (.act f k) (.act g l)
  | loop {α α' β β' γ γ' : Type} {φ : α → α'} (ψ : β → β') (χ : γ → γ')
      {body : β → Prog (σ × τ) (β ⊕ γ)} {body' : β' → Prog σ (β' ⊕ γ')} {b : β} {b' : β'}
      {k : γ → Prog (σ × τ) α} {l : γ' → Prog σ α'} (h : ψ b = b')
      (hb : ∀ b, AnnotatesBy (Sum.map ψ χ) (body b) (body' (ψ b)))
      (hk : ∀ x, AnnotatesBy φ (k x) (l (χ x))) : AnnotatesBy φ (.loop body b k) (.loop body' b' l)

/-- The same, with the same results. -/
abbrev Annotates (p : Prog (σ × τ) α) (q : Prog σ α) : Prop := p.AnnotatesBy id q

namespace AnnotatesBy

variable {α' β' γ' : Type} {φ : α → α'} {ψ : β → β'} {χ : γ → γ'}

/-- A step whose result in the code is a function of the one with annotations. -/
theorem act (ψ : β → β') {f : ℕ → σ × τ → β × (σ × τ)} {g : ℕ → σ → β' × σ}
    {k : β → Prog (σ × τ) α} {l : β' → Prog σ α'}
    (h : ∀ n x, ψ (f n x).1 = (g n x.1).1 ∧ (f n x).2.1 = (g n x.1).2)
    (hk : ∀ b, (k b).AnnotatesBy φ (l (ψ b))) : (Prog.act f k).AnnotatesBy φ (.act g l) := by
  refine .rel (fun b b' => ψ b = b') (fun b => ⟨_, rfl⟩) h ?_
  rintro b _ rfl
  exact hk b

theorem bind {p : Prog (σ × τ) β} {q : Prog σ β'} {f : β → Prog (σ × τ) α} {g : β' → Prog σ α'}
    (hp : p.AnnotatesBy ψ q) (hf : ∀ b, (f b).AnnotatesBy φ (g (ψ b))) :
    (p >>= f).AnnotatesBy φ (q >>= g) := by
  induction hp with
  | ret h =>
    subst h
    exact hf _
  | rel R ht h _ ih => exact .rel R ht h fun b b' hb => ih b b' hb hf
  | loop χ ω h hb _ _ ihk => exact .loop χ ω h hb fun x => ihk x hf

theorem forever {body : β → Prog (σ × τ) (β ⊕ γ)} {body' : β' → Prog σ (β' ⊕ γ')}
    (hb : ∀ b, (body b).AnnotatesBy (Sum.map ψ χ) (body' (ψ b))) (b : β) :
    (Prog.forever body b).AnnotatesBy χ (Prog.forever body' (ψ b)) :=
  .loop ψ χ rfl hb fun _ => .ret rfl

theorem next {body : β → Prog (σ × τ) (β ⊕ γ)} {body' : β' → Prog σ (β' ⊕ γ')}
    {k : γ → Prog (σ × τ) α} {l : γ' → Prog σ α'} (hb : ∀ b, (body b).AnnotatesBy (Sum.map ψ χ)
      (body' (ψ b)))
    (hk : ∀ x, (k x).AnnotatesBy φ (l (χ x))) (r : β ⊕ γ) :
    (Prog.next body k r).AnnotatesBy φ (Prog.next body' l (Sum.map ψ χ r)) := by
  cases r with
  | inl b => exact .loop ψ χ rfl hb hk
  | inr x => exact hk x

/-- The steps of a program that annotates are those of the code. -/
theorem steps {R : σ → σ → Prop} {p : Prog (σ × τ) α} {q : Prog σ α'} (h : p.AnnotatesBy φ q)
    (hq : q.Steps R) : p.Steps fun x x' => R x.1 x'.1 := by
  induction h with
  | ret h => exact True.intro
  | @rel _ _ _ _ _ R' ht f g k l hf _ ih =>
    refine ⟨fun n x => ?_, fun b => ?_⟩
    · show R x.1 (f n x).2.1
      rw [(hf n x).2]
      exact hq.1 n x.1
    · obtain ⟨b', hb⟩ := ht b
      exact ih b b' hb (hq.2 b')
  | loop ψ χ _ _ _ ihb ihk => exact ⟨fun b => ihb b (hq.1 (ψ b)), fun x => ihk x (hq.2 (χ x))⟩

end AnnotatesBy

namespace Annotates

theorem ret (a : α) : (Prog.ret a : Prog (σ × τ) α).Annotates (.ret a) := AnnotatesBy.ret rfl

theorem act {f : ℕ → σ × τ → β × (σ × τ)} {g : ℕ → σ → β × σ} {k : β → Prog (σ × τ) α}
    {l : β → Prog σ α} (h : ∀ n x, (f n x).1 = (g n x.1).1 ∧ (f n x).2.1 = (g n x.1).2)
    (hk : ∀ b, (k b).Annotates (l b)) : (Prog.act f k).Annotates (.act g l) :=
  AnnotatesBy.act id h hk

theorem onFst (p : Prog σ α) : (p.onFst : Prog (σ × τ) α).Annotates p := by
  induction p with
  | ret a => exact ret a
  | act f k ih => exact act (fun _ _ => ⟨rfl, rfl⟩) ih
  | loop body b k ihb ihk =>
    refine AnnotatesBy.loop id id rfl (fun b => ?_) ihk
    rw [Sum.map_id_id]
    exact ihb b

theorem bind {p : Prog (σ × τ) β} {q : Prog σ β} {f : β → Prog (σ × τ) α} {g : β → Prog σ α}
    (hp : p.Annotates q) (hf : ∀ b, (f b).Annotates (g b)) : (p >>= f).Annotates (q >>= g) :=
  AnnotatesBy.bind hp hf

/-- A part with the same results, in a program that only annotates up to `φ`. -/
theorem bind_by {α' : Type} {φ : α → α'} {p : Prog (σ × τ) β} {q : Prog σ β}
    {f : β → Prog (σ × τ) α} {g : β → Prog σ α'} (hp : p.Annotates q)
    (hf : ∀ b, (f b).AnnotatesBy φ (g b)) : (p >>= f).AnnotatesBy φ (q >>= g) :=
  AnnotatesBy.bind hp hf

theorem readWith (f : σ → β) (note : σ → τ → τ) : (readWith f note).Annotates (read f) :=
  act (fun _ _ => ⟨rfl, rfl⟩) ret

theorem noting (note : τ → τ) (p : Prog σ α) : (p.noting note).Annotates p := by
  cases p with
  | ret a => exact ret a
  | act f k => exact act (fun _ _ => ⟨rfl, rfl⟩) fun b => onFst (k b)
  | loop body b k => exact onFst _

theorem forever {body : β → Prog (σ × τ) (β ⊕ γ)} {body' : β → Prog σ (β ⊕ γ)}
    (hb : ∀ b, (body b).Annotates (body' b)) (b : β) :
    (Prog.forever body b).Annotates (Prog.forever body' b) :=
  AnnotatesBy.forever (ψ := id) (fun b => by rw [Sum.map_id_id]; exact hb b) b

end Annotates

end Prog

/-! ### Threads that run annotated code -/

section Pools

variable {L' Call Ret : Type} {code : Caller → Call → L → Prog (σ × τ) (L × Ret)}
  {code' : Caller → Call → L' → Prog σ (L' × Ret)} {φ : L → L'}

/-- The same calls with the same answers over the same first component. -/
structure World.Annotates (w : World ⟨Call, Ret, code⟩) (w' : World ⟨Call, Ret, code'⟩) : Prop where
  shared : w.shared.1 = w'.shared
  calls : w.calls = w'.calls
  returned : w.returned = w'.returned

/-- A thread that runs an annotated program instead, and may know more. -/
inductive Thread.Annotates (φ : L → L') :
    Thread ⟨Call, Ret, code⟩ → Thread ⟨Call, Ret, code'⟩ → Prop
  | idle (l : L) : Annotates φ (.idle l) (.idle (φ l))
  | running (op : ℕ) (c : Call) (seen : List (World ⟨Call, Ret, code⟩))
      (seen' : List (World ⟨Call, Ret, code'⟩)) {p : Prog (σ × τ) (L × Ret)} {q : Prog σ (L' × Ret)}
      (h : p.AnnotatesBy (Prod.map φ id) q) :
      Annotates φ (.running op c seen p) (.running op c seen' q)

/-- The same with all threads. -/
structure Pool.Annotates (φ : L → L') (P : Pool ⟨Call, Ret, code⟩) (P' : Pool ⟨Call, Ret, code'⟩) :
    Prop where
  world : P.world.Annotates P'.world
  thread : ∀ t, (P.thread t).Annotates φ (P'.thread t)

/-- The same move. -/
def Move.annotated : Move ⟨Call, Ret, code'⟩ → Move ⟨Call, Ret, code⟩
  | .invoke t c => .invoke t c
  | .step t n => .step t n

theorem Thread.Annotates.observe {th : Thread ⟨Call, Ret, code⟩} {th' : Thread ⟨Call, Ret, code'⟩}
    (h : th.Annotates φ th') (w : World ⟨Call, Ret, code⟩) (w' : World ⟨Call, Ret, code'⟩) :
    (th.observe w).Annotates φ (th'.observe w') := by
  cases h with
  | idle l => exact .idle l
  | running op c seen seen' h => exact .running op c (w :: seen) (w' :: seen') h

theorem Pool.Annotates.init (φ : L → L') (s : σ) (t : τ) (l : L) :
    (Pool.init ⟨Call, Ret, code⟩ (s, t) l).Annotates φ (Pool.init ⟨Call, Ret, code'⟩ s (φ l)) :=
  ⟨⟨rfl, rfl, rfl⟩, fun _ => .idle l⟩

theorem Pool.Annotates.publish {P : Pool ⟨Call, Ret, code⟩} {P' : Pool ⟨Call, Ret, code'⟩} {t : ℕ}
    {w : World ⟨Call, Ret, code⟩} {w' : World ⟨Call, Ret, code'⟩} {th : Thread ⟨Call, Ret, code⟩}
    {th' : Thread ⟨Call, Ret, code'⟩} (h : P.Annotates φ P') (hw : w.Annotates w')
    (ht : th.Annotates φ th') : (P.publish t (w, th)).Annotates φ (P'.publish t (w', th')) := by
  refine ⟨hw, fun u => Thread.Annotates.observe ?_ w w'⟩
  by_cases hu : u = t
  · subst hu
    simpa only [Function.update_self] using ht
  · simpa only [Function.update_of_ne hu] using h.thread u

/-- A move of the threads that run the code is one of the threads that run the annotated code. -/
theorem Pool.Annotates.move (hcode : ∀ c call l, (code c call l).AnnotatesBy (Prod.map φ id)
      (code' c call (φ l)))
    {P : Pool ⟨Call, Ret, code⟩} {P' Q' : Pool ⟨Call, Ret, code'⟩} (h : P.Annotates φ P')
    {m : Move ⟨Call, Ret, code'⟩} (hm : P'.move m = some Q') :
    ∃ Q, P.move m.annotated = some Q ∧ Q.Annotates φ Q' := by
  obtain ⟨hs, hc, hr⟩ := h.world
  cases m with
  | invoke t call =>
    obtain ⟨l', hth', rfl⟩ := Pool.invoke_cases hm
    have ht := h.thread t
    rw [hth'] at ht
    generalize hth : P.thread t = th at ht
    cases ht with
    | idle l =>
      refine ⟨P.publish t (P.world.invoke call, .running P.world.calls.length call []
        (code ⟨t, P.world.calls.length⟩ call l)), by
          simp [Pool.move, Move.annotated, hth, Thread.call], h.publish ⟨hs, ?_, hr⟩ ?_⟩
      · show P.world.calls ++ [call] = P'.world.calls ++ [call]
        rw [hc]
      · rw [hc]
        exact .running _ call [] [] (hcode _ call l)
  | step t n =>
    have ht := h.thread t
    cases Pool.step_cases hm with
    | @ret op call seen' l' r hth' =>
      rw [hth'] at ht
      generalize hth : P.thread t = th at ht
      cases ht with
      | running _ _ seen _ hp =>
        cases hp with
        | @ret _ _ _ a _ ha =>
          obtain ⟨l, r₀⟩ := a
          obtain ⟨rfl, rfl⟩ := Prod.mk.inj ha
          refine ⟨P.publish t (P.world.finish op r₀, .idle l), by
            simp [Pool.move, Move.annotated, hth, Thread.step], h.publish ⟨hs, hc, ?_⟩ (.idle l)⟩
          show Function.update P.world.returned op _ = Function.update P'.world.returned op _
          rw [hr, hc]
          rfl
    | @act op call seen' β g l hth' =>
      rw [hth'] at ht
      generalize hth : P.thread t = th at ht
      cases ht with
      | running _ _ seen _ hp =>
        cases hp with
        | @rel _ _ _ _ _ R _ f _ k _ hf hk =>
          obtain ⟨h₁, h₂⟩ := hf n P.world.shared
          rw [hs] at h₁ h₂
          refine ⟨P.publish t (P.world.set (f n P.world.shared).2, .running op call seen
            (k (f n P.world.shared).1)), by simp [Pool.move, Move.annotated, hth, Thread.step],
            h.publish ⟨h₂, hc, hr⟩ (.running op call seen seen' (hk _ _ h₁))⟩
    | @loop op call seen' β γ body' b' l hth' =>
      rw [hth'] at ht
      generalize hth : P.thread t = th at ht
      cases ht with
      | running _ _ seen _ hp =>
        cases hp with
        | @loop _ _ _ _ _ _ _ ψ χ body _ b _ k _ hstart hb hk =>
          subst hstart
          exact ⟨P.publish t (P.world, .running op call seen ((body b).bind (Prog.next body k))), by
            simp [Pool.move, Move.annotated, hth, Thread.step],
            h.publish h.world (.running op call seen seen' ((hb b).bind (.next hb hk)))⟩

/-- A move of the threads that run the annotated code is one of the threads that run the code. -/
theorem Pool.Annotates.move_back (hcode : ∀ c call l, (code c call l).AnnotatesBy (Prod.map φ id)
      (code' c call (φ l)))
    {P Q : Pool ⟨Call, Ret, code⟩} {P' : Pool ⟨Call, Ret, code'⟩} (h : P.Annotates φ P')
    {m : Move ⟨Call, Ret, code'⟩} (hm : P.move m.annotated = some Q) :
    ∃ Q', P'.move m = some Q' ∧ Q.Annotates φ Q' := by
  -- the threads are idle or running alike, so that the code can make the move
  have hsome : ∃ Q', P'.move m = some Q' := by
    apply Option.isSome_iff_exists.1
    cases m with
    | invoke t call =>
      have ht := h.thread t
      cases hth : P.thread t with
      | running => simp [Pool.move, Move.annotated, hth, Thread.call] at hm
      | idle l =>
        rw [hth] at ht
        generalize hth' : P'.thread t = th' at ht
        cases ht
        simp [Pool.move, hth', Thread.call]
    | step t n =>
      have ht := h.thread t
      cases hth : P.thread t with
      | idle => simp [Pool.move, Move.annotated, hth, Thread.step] at hm
      | running op call seen p =>
        rw [hth] at ht
        generalize hth' : P'.thread t = th' at ht
        cases ht with
        | running _ _ _ seen' hp => cases hp <;> simp [Pool.move, hth', Thread.step]
  obtain ⟨Q', hm'⟩ := hsome
  obtain ⟨Q₁, hm₁, hQ⟩ := h.move hcode hm'
  obtain rfl : Q = Q₁ := Option.some.inj (hm.symm.trans hm₁)
  exact ⟨Q', hm', hQ⟩

/-- Whatever the annotated code reaches with calls that are allowed and steps that satisfy `A`, the
code reaches. -/
theorem Reach.of_annotated_by (ok : Call → Prop)
    (hcode : ∀ c call l, (code c call l).AnnotatesBy (Prod.map φ id) (code' c call (φ l)))
    {A : σ × τ → σ × τ → Prop} {s₀ : σ} {t₀ : τ} {l₀ : L} {P : Pool ⟨Call, Ret, code⟩}
    (h : Reach (fun (call : Call) _ => ok call) A (s₀, t₀) l₀ P) :
    ∃ P' : Pool ⟨Call, Ret, code'⟩, Reach (fun (call : Call) _ => ok call) (fun _ _ => True) s₀
      (φ l₀) P' ∧
      P.Annotates φ P' := by
  induction h with
  | init => exact ⟨_, .init, .init φ _ _ _⟩
  | invoke t c _ hc hm ih =>
    obtain ⟨P', hr, ha⟩ := ih
    obtain ⟨Q', hm', hQ⟩ := ha.move_back hcode (m := .invoke t c) hm
    exact ⟨Q', .invoke t c hr hc hm', hQ⟩
  | step t n _ hm _ ih =>
    obtain ⟨P', hr, ha⟩ := ih
    obtain ⟨Q', hm', hQ⟩ := ha.move_back hcode (m := .step t n) hm
    exact ⟨Q', .step t n hr hm' True.intro, hQ⟩

end Pools

section Same

variable {Call Ret : Type} {code : Caller → Call → L → Prog (σ × τ) (L × Ret)}
  {code' : Caller → Call → L → Prog σ (L × Ret)}

/-- Code with the same thread-local variables. -/
theorem Prog.Annotates.by_id {p : Prog (σ × τ) (L × Ret)} {q : Prog σ (L × Ret)}
    (h : p.Annotates q) :
    p.AnnotatesBy (Prod.map (id : L → L) id) q := by
  rw [Prod.map_id]
  exact h

/-- Whatever the annotated code reaches with calls that are allowed, the code reaches. -/
theorem Reach.of_annotated_ok (ok : Call → Prop) (hcode : ∀ c call l, (code c call l).Annotates
      (code' c call l))
    {s₀ : σ} {t₀ : τ} {l₀ : L} {P : Pool ⟨Call, Ret, code⟩}
    (h : Reach (fun (call : Call) _ => ok call) (fun _ _ => True) (s₀, t₀) l₀ P) :
    ∃ P' : Pool ⟨Call, Ret, code'⟩, Reach (fun (call : Call) _ => ok call)
      (fun _ _ => True) s₀ l₀ P' ∧
      P.Annotates id P' :=
  h.of_annotated_by ok fun c call l => (hcode c call l).by_id

/-- The same for all calls. -/
theorem Reach.of_annotated (hcode : ∀ c call l, (code c call l).Annotates (code' c call l)) {s₀ : σ}
    {t₀ : τ} {l₀ : L} {P : Pool ⟨Call, Ret, code⟩} (h : Reachable (s₀, t₀) l₀ P) :
    ∃ P' : Pool ⟨Call, Ret, code'⟩, Reachable s₀ l₀ P' ∧ P.Annotates id P' :=
  Reach.of_annotated_ok (fun _ => True) hcode h

/-- Whatever the code reaches with calls that are allowed and steps that satisfy `A`, the annotated
code reaches. -/
theorem Reach.annotated (ok : Call → Prop) (hcode : ∀ c call l, (code c call l).Annotates
      (code' c call l))
    {A : σ → σ → Prop} {s₀ : σ} (t₀ : τ) {l₀ : L} {P' : Pool ⟨Call, Ret, code'⟩}
    (h : Reach (fun (call : Call) _ => ok call) A s₀ l₀ P') :
    ∃ P : Pool ⟨Call, Ret, code⟩,
      Reach (fun (call : Call) _ => ok call) (fun x x' => A x.1 x'.1) (s₀, t₀) l₀ P ∧
        P.Annotates id P' := by
  have hby : ∀ c call l, (code c call l).AnnotatesBy (Prod.map (id : L → L) id)
    (code' c call (id l)) :=
    fun c call l => (hcode c call l).by_id
  induction h with
  | init => exact ⟨_, .init, .init id s₀ t₀ l₀⟩
  | invoke t c _ hc hm ih =>
    obtain ⟨P, hr, ha⟩ := ih
    obtain ⟨Q, hq, hQ⟩ := ha.move hby hm
    exact ⟨Q, .invoke t c hr hc hq, hQ⟩
  | step t n _ hm hA ih =>
    obtain ⟨P, hr, ha⟩ := ih
    obtain ⟨Q, hq, hQ⟩ := ha.move hby hm
    refine ⟨Q, .step t n hr hq ?_, hQ⟩
    show A P.world.shared.1 Q.world.shared.1
    rw [ha.world.shared, hQ.world.shared]
    exact hA

end Same

/-! ### Proof rules for the parts that leave the second component alone -/

namespace wp

variable {S : Service (σ × τ) L} {P : Protocol S Γ} {c : Caller} {v : View P c}
  {Q : α → View P c → Prop}

theorem bind_fst {A : β → View P c → Prop} {p : Prog σ β} {f : β → Prog σ α}
    (hp : wp P c p.onFst A v) (hf : ∀ b v', A b v' → wp P c (f b).onFst Q v') :
    wp P c (p >>= f).onFst Q v := by
  rw [Prog.onFst_bind]
  exact wp.bind_of hp hf

theorem read_fst {f : σ → β} {k : β → Prog σ α}
    (h : ∀ v₁, v ≤ v₁ → wp P c (k (f v₁.state.1)).onFst Q v₁) :
    wp P c (Prog.read f >>= k).onFst Q v :=
  fun v₁ h₁ _ _ => wp.same (a := f v₁.state.1) (k := fun b => (k b).onFst) (h v₁ h₁)

theorem update_fst {f : σ → β × σ} {k : β → Prog σ α}
    (h : ∀ v₁, v ≤ v₁ → P.assume v₁.state ((f v₁.state.1).2, v₁.state.2) →
      ∃ g, ∃ h : P.Allows c v₁.now (v₁.after ((f v₁.state.1).2, v₁.state.2) g),
        wp P c (k (f v₁.state.1).1).onFst Q (v₁.step _ g h.inv)) :
    wp P c (Prog.update f >>= k).onFst Q v :=
  fun v₁ h₁ _ ha => h v₁ h₁ ha

theorem cae_fst [DecidableEq β] {get : σ → β} {set : β → σ → σ} {e d : β}
    {k : Bool × β → Prog σ α}
    (hs : ∀ v₁, v ≤ v₁ → get v₁.state.1 = e → P.assume v₁.state (set d v₁.state.1, v₁.state.2) →
      ∃ g, ∃ h : P.Allows c v₁.now (v₁.after (set d v₁.state.1, v₁.state.2) g),
        wp P c (k (true, e)).onFst Q (v₁.step _ g h.inv))
    (hf : ∀ v₁, v ≤ v₁ → get v₁.state.1 ≠ e → wp P c (k (false, get v₁.state.1)).onFst Q v₁) :
    wp P c (Prog.cae get set e d >>= k).onFst Q v := by
  refine update_fst fun v₁ h₁ => ?_
  by_cases he : get v₁.state.1 = e
  · simp only [if_pos he]
    exact hs v₁ h₁ he
  · simp only [if_neg he]
    exact fun _ => wp.same (a := (false, get v₁.state.1)) (k := fun b => (k b).onFst) (hf v₁ h₁ he)

theorem forever_fst {body : β → Prog σ (β ⊕ α)} (I : β → View P c → Prop) {b : β} (hI : I b v)
    (h : ∀ b v, I b v →
      wp P c (body b).onFst (fun r v => Sum.elim (fun b => I b v) (fun a => Q a v) r) v) :
    wp P c (Prog.forever body b).onFst Q v :=
  ⟨I, hI, h⟩

end wp

end AtomicProg
