import SemanticRelaxation.Prog.Concurrent
import Mathlib.Order.Basic
import Mathlib.Data.Set.Insert

/-!
# Proofs about threads that interfere

A `Protocol` says what holds of every world of a run (`inv`) and what the steps of the others keep
for an owner (`frame`). Owners are threads, for what they keep between two calls, and single calls.
A proof may attach ghost state `Γ` to the worlds, which the program does not have: every step may
change it too.

* `View`: what a running call may rely on, the worlds it has seen and the present one. Views are
  ordered by what the others may do in between;
* `wp P c p Q v`: from the view `v` on, `p` run by `c` keeps the protocol with every step, whatever
  the others do, and if it ends then in `Q`. It is defined by recursion on the program, with an
  invariant for every loop;
* `Implements`: the proof obligations of a service. `Implements.inv` and `Implements.returns` say
  what they give for all reachable pools, `Implements.move_frame` what for their moves.
-/

namespace AtomicProg

/-- What a part of the state may belong to. -/
inductive Owner
  | thread (t : ℕ)
  | op (n : ℕ)

/-- The owners that a running call stands for. -/
def Caller.Is (c : Caller) : Owner → Prop
  | .thread t => t = c.thread
  | .op n => n = c.op

/-- What a call does not stand for is another call or another thread. -/
theorem op_ne {c : Caller} {o : Owner} (ho : ¬ c.Is o) {a : ℕ} (ha : o = .op a) : a ≠ c.op := by
  subst ha
  exact ho

theorem thread_ne {c : Caller} {o : Owner} (ho : ¬ c.Is o) {t : ℕ} (ht : o = .thread t) :
    t ≠ c.thread := by
  subst ht
  exact ho

variable {σ L Γ : Type} {S : Service σ L} {α β γ : Type}

/-- The rules that all threads keep to. A step of a call satisfies `frame o` for every owner `o`
that the call does not stand for. -/
structure Protocol (S : Service σ L) (Γ : Type) where
  inv : World S × Γ → Prop
  frame : Owner → World S × Γ → World S × Γ → Prop
  assume : σ → σ → Prop
  refl : ∀ o w, frame o w w
  trans : ∀ o w₁ w₂ w₃, frame o w₁ w₂ → frame o w₂ w₃ → frame o w₁ w₃

/-- What the running call `c` knows of the world: the worlds since its invocation. -/
structure View (P : Protocol S Γ) (c : Caller) where
  seen : Set (World S × Γ)
  now : World S × Γ
  mem : now ∈ seen
  inv : ∀ w ∈ seen, P.inv w
  live : now.1.Live c.op

/-- What others may have done meanwhile. -/
structure Protocol.Rely (P : Protocol S Γ) (c : Caller) (w w' : World S × Γ) : Prop where
  evolves : w.1.Evolves w'.1
  frame : ∀ o, c.Is o → P.frame o w w'

/-- What a call has to show of its step from `w` to `w'`. -/
structure Protocol.Allows (P : Protocol S Γ) (c : Caller) (w w' : World S × Γ) : Prop where
  inv : P.inv w'
  frame : ∀ o, ¬ c.Is o → P.frame o w w'

variable {P : Protocol S Γ} {c : Caller}

namespace Protocol

theorem Rely.refl (w : World S × Γ) : P.Rely c w w := ⟨.refl w.1, fun o _ => P.refl o w⟩

theorem Rely.trans {w₁ w₂ w₃ : World S × Γ} (h₁ : P.Rely c w₁ w₂) (h₂ : P.Rely c w₂ w₃) :
    P.Rely c w₁ w₃ :=
  ⟨h₁.evolves.trans h₂.evolves, fun o ho => P.trans o _ _ _ (h₁.frame o ho) (h₂.frame o ho)⟩

theorem Rely.thread {w w' : World S × Γ} (h : P.Rely c w w') : P.frame (.thread c.thread) w w' :=
  h.frame _ rfl

theorem Rely.op {w w' : World S × Γ} (h : P.Rely c w w') : P.frame (.op c.op) w w' := h.frame _ rfl

end Protocol

namespace View

instance : Preorder (View P c) where
  le v v' := v.seen ⊆ v'.seen ∧ P.Rely c v.now v'.now
  le_refl v := ⟨subset_rfl, .refl _⟩
  le_trans _ _ _ h₁ h₂ := ⟨h₁.1.trans h₂.1, h₁.2.trans h₂.2⟩

variable (v : View P c)

/-- The present shared state. -/
abbrev state : σ := v.now.1.shared

theorem inv_now : P.inv v.now := v.inv _ v.mem

/-- The present after a step of the call itself. -/
abbrev after (s : σ) (g : Γ) : World S × Γ := (v.now.1.set s, g)

/-- The view after a step of the call itself. -/
def step (s : σ) (g : Γ) (h : P.inv (v.after s g)) : View P c where
  seen := insert (v.after s g) v.seen
  now := v.after s g
  mem := Set.mem_insert _ _
  inv w hw := by
    rcases Set.mem_insert_iff.1 hw with rfl | hw
    · exact h
    · exact v.inv w hw
  live := v.live

@[simp] theorem step_now (s : σ) (g : Γ) (h : P.inv (v.after s g)) :
    (v.step s g h).now = v.after s g := rfl

theorem subset_step (s : σ) (g : Γ) (h : P.inv (v.after s g)) : v.seen ⊆ (v.step s g h).seen :=
  Set.subset_insert _ _

theorem step_self (h : P.inv (v.after v.state v.now.2)) : v.step v.state v.now.2 h = v := by
  obtain ⟨seen, now, mem, inv, live⟩ := v
  simp only [step, after, World.set_self, Set.insert_eq_of_mem mem]

end View

/-- From the view `v` on the program keeps the protocol, and if it ends then in `Q`. -/
def wp {α : Type} (P : Protocol S Γ) (c : Caller) :
    Prog σ α → (α → View P c → Prop) → View P c → Prop
  | .ret a, Q, v => Q a v
  | .act f k, Q, v => ∀ v₁, v ≤ v₁ → ∀ n, P.assume v₁.state (f n v₁.state).2 →
      ∃ g, ∃ h : P.Allows c v₁.now (v₁.after (f n v₁.state).2 g),
        wp P c (k (f n v₁.state).1) Q (v₁.step _ g h.inv)
  | .loop (β := β) body b k, Q, v => ∃ I : β → View P c → Prop, I b v ∧
      ∀ b v, I b v → wp P c (body b) (fun r v => Sum.elim (fun b => I b v)
        (fun x => wp P c (k x) Q v) r) v

/-- What is not lost when others take steps. -/
def Stable (A : View P c → Prop) : Prop := ∀ v v', v ≤ v' → A v → A v'

namespace wp

variable {Q R : α → View P c → Prop} {v : View P c}

theorem mono {p : Prog σ α} (h : wp P c p Q v) (hQ : ∀ a v, Q a v → R a v) : wp P c p R v := by
  induction p generalizing v with
  | ret a => exact hQ a v h
  | act f k ih =>
    intro v₁ h₁ n ha
    obtain ⟨g, hs, hk⟩ := h v₁ h₁ n ha
    exact ⟨g, hs, ih _ hk hQ⟩
  | loop body b k ihb ihk =>
    obtain ⟨I, hI, hb⟩ := h
    refine ⟨I, hI, fun b v hI => ihb b (hb b v hI) ?_⟩
    rintro (b' | x) v h
    · exact h
    · exact ihk x h hQ

/-- The rule of sequential composition. -/
theorem bind {p : Prog σ β} {f : β → Prog σ α} (h : wp P c p (fun b v => wp P c (f b) Q v) v) :
    wp P c (p >>= f) Q v := by
  induction p generalizing v with
  | ret b => exact h
  | act g k ih =>
    intro v₁ h₁ n ha
    obtain ⟨g, hs, hk⟩ := h v₁ h₁ n ha
    exact ⟨g, hs, ih _ hk⟩
  | loop body b k ihb ihk =>
    obtain ⟨I, hI, hb⟩ := h
    refine ⟨I, hI, fun b v hI => (hb b v hI).mono ?_⟩
    rintro (b' | x) v h
    · exact h
    · exact ihk x h

/-- A program is run with the specification of its first part. -/
theorem bind_of {A : β → View P c → Prop} {p : Prog σ β} {f : β → Prog σ α} (hp : wp P c p A v)
    (hf : ∀ b v', A b v' → wp P c (f b) Q v') : wp P c (p >>= f) Q v :=
  bind (hp.mono hf)

/-- A stable result is not lost while the program waits. -/
theorem later {p : Prog σ α} {v' : View P c} (hQ : ∀ a, Stable (Q a)) (h : wp P c p Q v)
    (hv : v ≤ v') : wp P c p Q v' := by
  induction p generalizing v v' with
  | ret a => exact hQ a v v' hv h
  | act f k ih => exact fun v₁ h₁ => h v₁ (hv.trans h₁)
  | loop body b k ihb ihk =>
    obtain ⟨I, hI, hb⟩ := h
    -- the invariant may be used a while after it was established
    refine ⟨fun b v => ∃ v₀, v₀ ≤ v ∧ I b v₀, ⟨v, hv, hI⟩, ?_⟩
    rintro b v₁ ⟨v₀, h₀, hI⟩
    refine ihb b ?_ ((hb b v₀ hI).mono ?_) h₀
    · rintro (b' | x) u u' hu h
      · obtain ⟨u₀, hu₀, hI⟩ := h
        exact ⟨u₀, hu₀.trans hu, hI⟩
      · exact ihk x hQ h hu
    · rintro (b' | x) u h
      · exact ⟨u, le_rfl, h⟩
      · exact h

/-- One round of a loop. -/
theorem unfold {body : β → Prog σ (β ⊕ γ)} {b : β} {k : γ → Prog σ α}
    (h : wp P c (.loop body b k) Q v) : wp P c ((body b).bind (Prog.next body k)) Q v := by
  obtain ⟨I, hI, hb⟩ := h
  refine bind ((hb b v hI).mono ?_)
  rintro (b' | x) v h
  · exact ⟨I, h, hb⟩
  · exact h

@[simp] theorem ret_iff {a : α} : wp P c (.ret a) Q v ↔ Q a v := Iff.rfl

/-- A step that changes nothing is always allowed. -/
theorem allows_self (v : View P c) : P.Allows c v.now (v.after v.state v.now.2) :=
  ⟨v.inv_now, fun o _ => P.refl o _⟩

/-- A step that changes nothing. -/
theorem same {a : β} {k : β → Prog σ α} (h : wp P c (k a) Q v) :
    ∃ g, ∃ h : P.Allows c v.now (v.after v.state g), wp P c (k a) Q (v.step _ g h.inv) := by
  refine ⟨v.now.2, allows_self v, ?_⟩
  rwa [View.step_self]

theorem read {f : σ → β} {k : β → Prog σ α}
    (h : ∀ v₁, v ≤ v₁ → wp P c (k (f v₁.state)) Q v₁) : wp P c (Prog.read f >>= k) Q v :=
  fun v₁ h₁ _ _ => same (a := f v₁.state) (k := k) (h v₁ h₁)

theorem choose {k : ℕ → Prog σ α} (h : ∀ n v₁, v ≤ v₁ → wp P c (k n) Q v₁) :
    wp P c (Prog.choose >>= k) Q v :=
  fun v₁ h₁ n _ => same (a := n) (k := k) (h n v₁ h₁)

theorem update {f : σ → β × σ} {k : β → Prog σ α}
    (h : ∀ v₁, v ≤ v₁ → P.assume v₁.state (f v₁.state).2 →
      ∃ g, ∃ h : P.Allows c v₁.now (v₁.after (f v₁.state).2 g),
        wp P c (k (f v₁.state).1) Q (v₁.step _ g h.inv)) :
    wp P c (Prog.update f >>= k) Q v :=
  fun v₁ h₁ _ ha => h v₁ h₁ ha

/-- A step with cases: what it does from the state it finds is said for each of them. -/
theorem update_cases {f : σ → β × σ} {k : β → Prog σ α}
    (h : ∀ v₁, v ≤ v₁ → ∃ b s', f v₁.state = (b, s') ∧ (P.assume v₁.state s' →
      ∃ g, ∃ h : P.Allows c v₁.now (v₁.after s' g), wp P c (k b) Q (v₁.step _ g h.inv))) :
    wp P c (Prog.update f >>= k) Q v := by
  refine update fun v₁ h₁ => ?_
  obtain ⟨b, s', hf, hstep⟩ := h v₁ h₁
  rw [hf]
  exact hstep

/-- A compare-and-exchange: it finds what it expects or it changes nothing. -/
theorem cae [DecidableEq β] {get : σ → β} {set : β → σ → σ} {e d : β} {k : Bool × β → Prog σ α}
    (hs : ∀ v₁, v ≤ v₁ → get v₁.state = e → P.assume v₁.state (set d v₁.state) →
      ∃ g, ∃ h : P.Allows c v₁.now (v₁.after (set d v₁.state) g),
        wp P c (k (true, e)) Q (v₁.step _ g h.inv))
    (hf : ∀ v₁, v ≤ v₁ → get v₁.state ≠ e → wp P c (k (false, get v₁.state)) Q v₁) :
    wp P c (Prog.cae get set e d >>= k) Q v := by
  refine update fun v₁ h₁ => ?_
  by_cases he : get v₁.state = e
  · simp only [if_pos he]
    exact hs v₁ h₁ he
  · simp only [if_neg he]
    exact fun _ => same (a := (false, get v₁.state)) (k := k) (hf v₁ h₁ he)

/-- The loop rule. -/
theorem forever {body : β → Prog σ (β ⊕ α)} (I : β → View P c → Prop) {b : β} (hI : I b v)
    (h : ∀ b v, I b v →
      wp P c (body b) (fun r v => Sum.elim (fun b => I b v) (fun a => Q a v) r) v) :
    wp P c (Prog.forever body b) Q v :=
  ⟨I, hI, h⟩

end wp

/-! ### A service that keeps to a protocol -/

/-- The view of a call that has just been made. -/
def View.start (P : Protocol S Γ) (t : ℕ) (call : S.Call) (w : World S) (g : Γ)
    (h : P.inv (w.invoke call, g)) (hf : w.returned w.calls.length = none) :
    View P ⟨t, w.calls.length⟩ where
  seen := {(w.invoke call, g)}
  now := (w.invoke call, g)
  mem := Set.mem_singleton _
  inv _ hw := Set.mem_singleton_iff.1 hw ▸ h
  live := ⟨by simp, hf⟩

/-- The service keeps to the protocol: `loc` is what a thread knows between two calls, and `post`
what a call knows when it is about to return. -/
structure Implements (P : Protocol S Γ) (ok : S.Call → World S → Prop)
    (loc : ℕ → L → World S × Γ → Prop)
    (post : ∀ c : Caller, S.Call → L × S.Ret → View P c → Prop) (s₀ : σ) (l₀ : L) : Prop where
  init : ∃ g, P.inv (.init S s₀, g) ∧ ∀ t, loc t l₀ (.init S s₀, g)
  loc_later : ∀ t l w w', P.inv w → P.inv w' → P.frame (.thread t) w w' → loc t l w → loc t l w'
  post_stable : ∀ c call x, Stable (post c call x)
  invoke : ∀ t call l w g, P.inv (w, g) → ok call w → loc t l (w, g) →
    ∃ g', P.Allows ⟨t, w.calls.length⟩ (w, g) (w.invoke call, g') ∧
      ∀ (h : P.inv (w.invoke call, g')) (hf : w.returned w.calls.length = none),
        wp P ⟨t, w.calls.length⟩ (S.code ⟨t, w.calls.length⟩ call l) (post _ call)
          (.start P t call w g' h hf)
  finish : ∀ (c : Caller) call l r (v : View P c), v.now.1.calls[c.op]? = some call →
    post c call (l, r) v → ∃ g, P.Allows c v.now (v.now.1.finish c.op r, g) ∧
      loc c.thread l (v.now.1.finish c.op r, g)

/-- What holds of every pool that a service reaches. -/
structure Pool.Good (P : Protocol S Γ) (loc : ℕ → L → World S × Γ → Prop)
    (post : ∀ c : Caller, S.Call → L × S.Ret → View P c → Prop) (p : Pool S) (g : Γ) : Prop where
  inv : P.inv (p.world, g)
  known : ∀ o x, p.world.returned o = some x → o < p.world.calls.length
  idle : ∀ t l, p.thread t = .idle l → loc t l (p.world, g)
  called : ∀ t op call seen q, p.thread t = .running op call seen q →
    p.world.calls[op]? = some call
  running : ∀ t op call seen q, p.thread t = .running op call seen q →
    ∃ v : View P ⟨t, op⟩, v.now = (p.world, g) ∧ (∀ w ∈ v.seen, w.1 ∈ seen) ∧
      wp P ⟨t, op⟩ q (post _ call) v
  distinct : ∀ t t' op call seen q call' seen' q', p.thread t = .running op call seen q →
    p.thread t' = .running op call' seen' q' → t = t'

section Good

variable {loc : ℕ → L → World S × Γ → Prop} {post : ∀ c : Caller, S.Call → L × S.Ret →
  View P c → Prop}
  {p : Pool S} {g : Γ} {t op : ℕ} {call : S.Call} {seen : List (World S)} {q : Prog σ (L × S.Ret)}

/-- The call that a thread runs has been made and has not returned. -/
theorem Pool.Good.live (hp : p.Good P loc post g) (ht : p.thread t = .running op call seen q) :
    p.world.Live op := by
  obtain ⟨v, hv, -⟩ := hp.running t op call seen q ht
  have hl := v.live
  rwa [hv] at hl

/-- The other threads run other calls. -/
theorem Pool.Good.others (hp : p.Good P loc post g) (ht : p.thread t = .running op call seen q)
    {u o : ℕ} {call' : S.Call} {seen' : List (World S)} {q' : Prog σ (L × S.Ret)} (hu : u ≠ t)
    (hr : p.thread u = .running o call' seen' q') : o ≠ op ∧ p.world.Live o :=
  ⟨fun e => hu (hp.distinct u t o call' seen' q' call seen q hr (e ▸ ht)), hp.live hr⟩

end Good

/-- From `p` to `p'` nothing has been taken from the calls that have not been made. -/
def Pool.Framed (P : Protocol S Γ) (p : Pool S) (g : Γ) (p' : Pool S) (g' : Γ) : Prop :=
  ∀ o, p.world.calls.length < o → P.frame (.op o) (p.world, g) (p'.world, g')

namespace Implements

variable {ok : S.Call → World S → Prop} {loc : ℕ → L → World S × Γ → Prop}
  {post : ∀ c : Caller, S.Call → L × S.Ret → View P c → Prop} {s₀ : σ} {l₀ : L} {p p' : Pool S}
  {g : Γ}

theorem good_init (h : Implements P ok loc post s₀ l₀) :
    ∃ g, (Pool.init S s₀ l₀).Good P loc post g := by
  obtain ⟨g, hg, hl⟩ := h.init
  refine ⟨g, hg, nofun, fun t l hl' => ?_, nofun, nofun, nofun⟩
  obtain rfl : l₀ = l := by simpa [Pool.init] using hl'
  exact hl t

/-- A thread other than the one that moves sees the new world. -/
theorem later_view {t op : ℕ} (v : View P ⟨t, op⟩) {w w' : World S × Γ} (hv : v.now = w)
    (hw : P.inv w') (he : w.1.Evolves w'.1) (hl : w'.1.Live op)
    (hf : ∀ o, Caller.Is ⟨t, op⟩ o → P.frame o w w') :
    ∃ v' : View P ⟨t, op⟩, v ≤ v' ∧ v'.now = w' ∧ ∀ u ∈ v'.seen, u = w' ∨ u ∈ v.seen := by
  subst hv
  refine ⟨⟨insert w' v.seen, w', Set.mem_insert _ _, ?_, hl⟩, ⟨Set.subset_insert _ _, he, hf⟩, rfl,
    fun u hu => Set.mem_insert_iff.1 hu⟩
  intro u hu
  rcases Set.mem_insert_iff.1 hu with rfl | hu
  · exact hw
  · exact v.inv u hu

/-- A move of the thread `t`, run as the call `op`, that keeps to the protocol: all that is left to
show is what `t` itself knows afterwards. -/
theorem good_publish (h : Implements P ok loc post s₀ l₀) (hp : p.Good P loc post g) {t op : ℕ}
    {w : World S} {g' : Γ} {th : Thread S} (ha : P.Allows ⟨t, op⟩ (p.world, g) (w, g'))
    (he : p.world.Evolves w)
    (hop : ∀ u o call seen q, u ≠ t → p.thread u = .running o call seen q → o ≠ op ∧ w.Live o)
    (hknown : ∀ o x, w.returned o = some x → o < w.calls.length)
    (hidle : ∀ l, th = .idle l → loc t l (w, g'))
    (hrun : ∀ o call seen q, th = .running o call seen q → o = op ∧ w.calls[o]? = some call ∧
      ∃ v : View P ⟨t, o⟩, v.now = (w, g') ∧ (∀ u ∈ v.seen, u = (w, g') ∨ u.1 ∈ seen) ∧
        wp P ⟨t, o⟩ q (post _ call) v) :
    (p.publish t (w, th)).Good P loc post g' := by
  -- a running thread of the new pool comes from one that ran the same call
  have hback : ∀ u o call seen q, u ≠ t →
      (p.publish t (w, th)).thread u = .running o call seen q →
      ∃ seen₀, p.thread u = .running o call seen₀ q ∧ seen = w :: seen₀ :=
        fun u o call seen q hu hr =>
    Thread.of_observe ((Pool.publish_of_ne hu).symm.trans hr)
  have hback_self : ∀ o call seen q, (p.publish t (w, th)).thread t = .running o call seen q →
      ∃ seen₀, th = .running o call seen₀ q ∧ seen = w :: seen₀ := fun o call seen q hr =>
    Thread.of_observe (Pool.publish_self.symm.trans hr)
  refine ⟨ha.inv, hknown, fun u l hl => ?_, fun u o call seen q hr => ?_,
    fun u o call seen q hr => ?_, ?_⟩
  · by_cases hu : u = t
    · subst hu
      rw [Pool.publish_self] at hl
      exact hidle l (Thread.idle_of_observe hl)
    · rw [Pool.publish_of_ne hu] at hl
      exact h.loc_later u l _ _ hp.inv ha.inv (ha.frame _ fun e => hu e)
        (hp.idle u l (Thread.idle_of_observe hl))
  · by_cases hu : u = t
    · subst hu
      obtain ⟨seen₀, hth, rfl⟩ := hback_self o call seen q hr
      exact (hrun o call seen₀ q hth).2.1
    · obtain ⟨seen₀, hth, rfl⟩ := hback u o call seen q hu hr
      exact he.calls.getElem?_of_some (hp.called u o call seen₀ q hth)
  · by_cases hu : u = t
    · subst hu
      obtain ⟨seen₀, hth, rfl⟩ := hback_self o call seen q hr
      obtain ⟨-, -, v, hv, hsub, hwp⟩ := hrun o call seen₀ q hth
      refine ⟨v, hv, fun x hx => ?_, hwp⟩
      rcases hsub x hx with rfl | hx
      · exact List.mem_cons_self ..
      · exact List.mem_cons_of_mem _ hx
    · obtain ⟨seen₀, hth, rfl⟩ := hback u o call seen q hu hr
      obtain ⟨v, hv, hsub, hwp⟩ := hp.running u o call seen₀ q hth
      obtain ⟨hne, hl⟩ := hop u o call seen₀ q hu hth
      obtain ⟨v', hle, hv', hsub'⟩ := later_view v hv ha.inv he hl fun x hx =>
        ha.frame x fun hx' => by
        cases x with
        | thread u' => exact hu ((show u' = u from hx) ▸ hx')
        | op o' => exact hne ((show o' = o from hx) ▸ hx')
      refine ⟨v', hv', fun x hx => ?_, hwp.later (h.post_stable _ _) hle⟩
      rcases hsub' x hx with rfl | hx
      · exact List.mem_cons_self ..
      · exact List.mem_cons_of_mem _ (hsub x hx)
  · intro u u' o call seen q call' seen' q' hr hr'
    by_cases hu : u = t
    · by_cases hu' : u' = t
      · exact hu.trans hu'.symm
      · subst hu
        obtain ⟨s₁, h₁, -⟩ := hback_self o call seen q hr
        obtain ⟨s₂, h₂, -⟩ := hback u' o call' seen' q' hu' hr'
        exact absurd (hrun o call s₁ q h₁).1 (hop u' o call' s₂ q' hu' h₂).1
    · by_cases hu' : u' = t
      · subst hu'
        obtain ⟨s₁, h₁, -⟩ := hback_self o call' seen' q' hr'
        obtain ⟨s₂, h₂, -⟩ := hback u o call seen q hu hr
        exact absurd (hrun o call' s₁ q' h₁).1 (hop u o call s₂ q hu h₂).1
      · obtain ⟨s₁, h₁, -⟩ := hback u o call seen q hu hr
        obtain ⟨s₂, h₂, -⟩ := hback u' o call' seen' q' hu' hr'
        exact hp.distinct u u' o call s₁ q call' s₂ q' h₁ h₂

theorem good_call (h : Implements P ok loc post s₀ l₀) (hp : p.Good P loc post g) {t : ℕ}
    {call : S.Call} (hc : ok call p.world) (hm : p.move (.invoke t call) = some p') :
    ∃ g', p'.Good P loc post g' ∧ p.Framed P g p' g' := by
  obtain ⟨l, ht, rfl⟩ := Pool.invoke_cases hm
  have hnone : p.world.returned p.world.calls.length = none := by
    cases hx : p.world.returned p.world.calls.length with
    | none => rfl
    | some x => exact absurd (hp.known _ x hx) (lt_irrefl _)
  obtain ⟨g', ha, hcode⟩ := h.invoke t call l p.world g hp.inv hc (hp.idle t l ht)
  refine ⟨g', h.good_publish hp ha (.invoke _ _) ?_ ?_ nofun ?_,
    fun o ho => ha.frame _ fun e => ho.ne' e⟩
  · intro u o call' seen q hu hr
    have hl := hp.live hr
    refine ⟨hl.1.ne, ?_, hl.2⟩
    simp only [World.invoke_calls, List.length_append, List.length_singleton]
    exact Nat.lt_succ_of_lt hl.1
  · intro o x hx
    simp only [World.invoke_calls, List.length_append, List.length_singleton]
    exact Nat.lt_succ_of_lt (hp.known o x hx)
  · intro o call' seen q hr
    simp only [Thread.running.injEq] at hr
    obtain ⟨rfl, rfl, rfl, rfl⟩ := hr
    exact ⟨rfl, List.getElem?_concat_length, .start P t call p.world g' ha.inv hnone, rfl,
      fun u hu => .inl (Set.mem_singleton_iff.1 hu), hcode ha.inv hnone⟩

theorem good_step (h : Implements P ok loc post s₀ l₀) (hp : p.Good P loc post g) {t n : ℕ}
    (hm : p.move (.step t n) = some p') (ha : P.assume p.world.shared p'.world.shared) :
    ∃ g', p'.Good P loc post g' ∧ p.Framed P g p' g' := by
  cases Pool.step_cases hm with
  | @ret op call seen l r ht =>
    obtain ⟨v, hv, hsub, hwp⟩ := hp.running t op call seen _ ht
    have hcall := hp.called t op call seen _ ht
    have hlive := hp.live ht
    obtain ⟨g', hall, hl⟩ := h.finish ⟨t, op⟩ call l r v (by rwa [hv]) hwp
    rw [hv] at hall hl
    refine ⟨g', h.good_publish hp hall (.finish hlive r) ?_ ?_ ?_ nofun,
      fun o ho => hall.frame _ fun e => (hlive.1.trans ho).ne' e⟩
    · intro u o call' seen' q' hu hr
      obtain ⟨hop, hlo⟩ := hp.others ht hu hr
      exact ⟨hop, hlo.1, (World.finish_returned_of_ne _ r hop).trans hlo.2⟩
    · intro o x hx
      by_cases ho : o = op
      · subst ho
        exact hlive.1
      · rw [World.finish_returned_of_ne _ r ho] at hx
        exact hp.known o x hx
    · intro l' hl'
      obtain rfl := Thread.idle.inj hl'
      exact hl
  | @act op call seen β f k ht =>
    obtain ⟨v, hv, hsub, hwp⟩ := hp.running t op call seen _ ht
    have hcall := hp.called t op call seen _ ht
    have hlive := hp.live ht
    have hstate : v.state = p.world.shared := by rw [View.state, hv]
    obtain ⟨g', hall, hk⟩ := hwp v le_rfl n (by rw [hstate]; exact ha)
    have hafter : v.after (f n v.state).2 g' = (p.world.set (f n p.world.shared).2, g') := by
      rw [View.after, hstate, hv]
    have hall' := hall
    rw [hafter, hv] at hall'
    refine ⟨g', h.good_publish hp hall' (.set _ _) ?_ hp.known nofun ?_,
      fun o ho => hall'.frame _ fun e => (hlive.1.trans ho).ne' e⟩
    · exact fun u o call' seen' q' hu hr => hp.others ht hu hr
    · intro o call' seen' q' hr
      simp only [Thread.running.injEq] at hr
      obtain ⟨rfl, rfl, rfl, rfl⟩ := hr
      refine ⟨rfl, hcall, v.step _ g' hall.inv, hafter, fun u hu => ?_, hstate ▸ hk⟩
      rcases Set.mem_insert_iff.1 hu with rfl | hu
      · exact .inl hafter
      · exact .inr (hsub u hu)
  | @loop op call seen β γ body b k ht =>
    obtain ⟨v, hv, hsub, hwp⟩ := hp.running t op call seen _ ht
    have hcall := hp.called t op call seen _ ht
    have hall : P.Allows ⟨t, op⟩ (p.world, g) (p.world, g) := ⟨hp.inv, fun o _ => P.refl o _⟩
    refine ⟨g, h.good_publish hp hall (.refl _) ?_ hp.known nofun ?_, fun o _ => P.refl _ _⟩
    · exact fun u o call' seen' q' hu hr => hp.others ht hu hr
    · intro o call' seen' q' hr
      simp only [Thread.running.injEq] at hr
      obtain ⟨rfl, rfl, rfl, rfl⟩ := hr
      exact ⟨rfl, hcall, v, hv, fun u hu => .inr (hsub u hu), hwp.unfold⟩

/-- Every reachable pool is good. -/
theorem good (h : Implements P ok loc post s₀ l₀) (hr : Reach ok P.assume s₀ l₀ p) :
    ∃ g, p.Good P loc post g := by
  induction hr with
  | init => exact h.good_init
  | invoke t call _ hc hm ih =>
    obtain ⟨g, hg⟩ := ih
    obtain ⟨g', hg', -⟩ := h.good_call hg hc hm
    exact ⟨g', hg'⟩
  | step t n _ hm ha ih =>
    obtain ⟨g, hg⟩ := ih
    obtain ⟨g', hg', -⟩ := h.good_step hg hm ha
    exact ⟨g', hg'⟩

/-- The invariant holds in every reachable world. -/
theorem inv (h : Implements P ok loc post s₀ l₀) (hr : Reach ok P.assume s₀ l₀ p) :
    ∃ g, P.inv (p.world, g) := by
  obtain ⟨g, hg⟩ := h.good hr
  exact ⟨g, hg.inv⟩

/-- What a move from a reachable pool keeps for the calls that have not been made. -/
theorem move_frame (h : Implements P ok loc post s₀ l₀) (hr : Reach ok P.assume s₀ l₀ p)
    {m : Move S} (hm : p.move m = some p') (hok : ∀ t c, m = .invoke t c → ok c p.world)
    (ha : P.assume p.world.shared p'.world.shared) :
    ∃ g g', P.inv (p.world, g) ∧ P.inv (p'.world, g') ∧ p.Framed P g p' g' := by
  obtain ⟨g, hg⟩ := h.good hr
  cases m with
  | invoke t c =>
    obtain ⟨g', hg', hf⟩ := h.good_call hg (hok t c rfl) hm
    exact ⟨g, g', hg.inv, hg'.inv, hf⟩
  | step t n =>
    obtain ⟨g', hg', hf⟩ := h.good_step hg hm ha
    exact ⟨g, g', hg.inv, hg'.inv, hf⟩

/-- What the frames of such calls say of the worlds holds of any two pools of a run. -/
theorem later_frame (h : Implements P ok loc post s₀ l₀) (hok : ∀ call w, ok call w)
    (ha : ∀ s s', P.assume s s') {D : World S → World S → Prop} (refl : ∀ w, D w w)
    (trans : ∀ w₁ w₂ w₃, D w₁ w₂ → D w₂ w₃ → D w₁ w₃)
    (hD : ∀ o w w', P.inv w → P.inv w' → P.frame (.op o) w w' → D w.1 w'.1)
    (hr : Reach ok P.assume s₀ l₀ p) (hl : p.Later p') : D p.world p'.world := by
  have hall : Reach ok P.assume s₀ l₀ p' ∧ D p.world p'.world := by
    induction hl with
    | refl => exact ⟨hr, refl _⟩
    | tail _ hm ih =>
      obtain ⟨m, hm⟩ := hm
      obtain ⟨g, g', hg, hg', hf⟩ := h.move_frame ih.1 hm (fun _ _ _ => hok _ _) (ha _ _)
      refine ⟨?_, trans _ _ _ ih.2 (hD _ _ _ hg hg' (hf _ (Nat.lt_succ_self _)))⟩
      cases m with
      | invoke t c => exact .invoke t c ih.1 (hok _ _) hm
      | step t n => exact .step t n ih.1 hm (ha _ _)
  exact hall.2

/-- What a call knows that is about to return. -/
theorem returns (h : Implements P ok loc post s₀ l₀) (hr : Reach ok P.assume s₀ l₀ p)
    {t op : ℕ} {call : S.Call} {seen : List (World S)} {x : L × S.Ret}
    (ht : p.thread t = .running op call seen (.ret x)) :
    ∃ v : View P ⟨t, op⟩, v.now.1 = p.world ∧ (∀ w ∈ v.seen, w.1 ∈ seen) ∧ post _ call x v := by
  obtain ⟨g, hg⟩ := h.good hr
  obtain ⟨v, hv, hs, hp⟩ := hg.running t op call seen _ ht
  exact ⟨v, congrArg Prod.fst hv, hs, hp⟩

end Implements

end AtomicProg
