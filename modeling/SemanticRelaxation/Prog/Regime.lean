import SemanticRelaxation.Prog.Rely

/-!
# Protocols over the shared state

Most protocols speak about the shared state, the ghost state and the calls that have been made. A
`Regime` is such a protocol without the service, with what is true of a call that has not been made
yet (`fresh`); `Results` adds what remains true of the answer of a call that has returned.

* `Regime.allows`: a step of a call has to keep the invariant and the frames of the others;
* `Obligations` and `Obligations.implements`: what is left to show of a service.
-/

namespace AtomicProg

variable {σ L Γ : Type} {S : Service σ L}

/-- The rules that all threads keep to, over the shared state with its ghost state. The invariant
may speak about the calls made so far. -/
structure Regime (C σ Γ : Type) where
  inv : List C → σ × Γ → Prop
  frame : Owner → σ × Γ → σ × Γ → Prop
  fresh : ℕ → σ × Γ → Prop
  assume : σ → σ → Prop
  refl : ∀ o s, frame o s s
  trans : ∀ o s₁ s₂ s₃, frame o s₁ s₂ → frame o s₂ s₃ → frame o s₁ s₃
  inv_call : ∀ calls call s, inv calls s → inv (calls ++ [call]) s
  fresh_later : ∀ n s s', frame (.op n) s s' → fresh n s → fresh n s'

/-- What remains true of the answer of a call that returned when `k` calls had been made. -/
structure Results (S : Service σ L) (R : Regime S.Call σ Γ) where
  holds : ℕ → S.Call → S.Ret → ℕ → σ × Γ → Prop
  later : ∀ o call r k l l' s s', R.inv l s → R.inv l' s' → R.frame (.op o) s s' →
    holds o call r k s → holds o call r k s'

variable {R : Regime S.Call σ Γ}

/-- Nothing is recorded of the answers. -/
def Results.trivial (S : Service σ L) (R : Regime S.Call σ Γ) : Results S R :=
  ⟨fun _ _ _ _ _ => True, fun _ _ _ _ _ _ _ _ _ _ _ _ => True.intro⟩

/-- The shared state of a world, with the ghost state. -/
def World.pair (w : World S × Γ) : σ × Γ := (w.1.shared, w.2)

/-- The protocol of a regime. -/
def Results.protocol (E : Results S R) : Protocol S Γ where
  inv w := R.inv w.1.calls (World.pair w) ∧ (∀ o r k, w.1.returned o = some (r, k) →
    ∃ call, w.1.calls[o]? = some call ∧ E.holds o call r k (World.pair w)) ∧
    ∀ o, w.1.calls.length ≤ o → R.fresh o (World.pair w)
  frame o w w' := R.frame o (World.pair w) (World.pair w')
  assume := R.assume
  refl o w := R.refl o (World.pair w)
  trans o w₁ w₂ w₃ := R.trans o (World.pair w₁) (World.pair w₂) (World.pair w₃)

variable {E : Results S R} {c : Caller}

namespace View

variable (v : View E.protocol c)

/-- The present shared state with its ghost state. -/
abbrev pair : σ × Γ := (v.state, v.now.2)

theorem inv_pair : R.inv v.now.1.calls v.pair := v.inv_now.1

variable {v} {v' : View E.protocol c}

theorem frame_thread (h : v ≤ v') : R.frame (.thread c.thread) v.pair v'.pair := h.2.thread

theorem frame_op (h : v ≤ v') : R.frame (.op c.op) v.pair v'.pair := h.2.op

end View

/-- From `v` to `v'` only others have taken steps, and the call itself such steps as others might.
-/
structure Since (v v' : View E.protocol c) : Prop where
  seen : v.seen ⊆ v'.seen
  frames : ∀ o, c.Is o → R.frame o v.pair v'.pair
  calls : v.now.1.calls <+: v'.now.1.calls

namespace Since

variable {v v₁ v₂ : View E.protocol c}

theorem frame (h : Since v v₁) : R.frame (.op c.op) v.pair v₁.pair := h.frames _ rfl

theorem thread (h : Since v v₁) : R.frame (.thread c.thread) v.pair v₁.pair := h.frames _ rfl

theorem of_le (h : v ≤ v₁) : Since v v₁ := ⟨h.1, h.2.frame, h.2.evolves.calls⟩

theorem refl (v : View E.protocol c) : Since v v := .of_le le_rfl

theorem trans (h₁ : Since v v₁) (h₂ : Since v₁ v₂) : Since v v₂ :=
  ⟨h₁.seen.trans h₂.seen, fun o ho => R.trans _ _ _ _ (h₁.frames o ho) (h₂.frames o ho),
    h₁.calls.trans h₂.calls⟩

theorem step {s : σ} {g : Γ} {h : E.protocol.inv (v.after s g)}
    (hf : ∀ o, R.frame o v.pair (s, g)) : Since v (v.step s g h) :=
  ⟨v.subset_step s g h, fun o _ => hf o, List.prefix_refl _⟩

/-- A call that has been made stays in the list. -/
theorem call (h : Since v v₁) {o : ℕ} {call : S.Call} (hc : v.now.1.calls[o]? = some call) :
    v₁.now.1.calls[o]? = some call := h.calls.getElem?_of_some hc

end Since

/-- A step of a call has to keep the invariant and what belongs to others. -/
theorem Regime.allows (v : View E.protocol c) {s : σ} {g : Γ} (hi : R.inv v.now.1.calls (s, g))
    (hf : ∀ o, ¬ c.Is o → R.frame o v.pair (s, g)) : E.protocol.Allows c v.now (v.after s g) := by
  refine ⟨⟨hi, fun o r k ho => ?_, fun o ho => ?_⟩, hf⟩
  · obtain ⟨call, hc, hr⟩ := v.inv_now.2.1 o r k ho
    refine ⟨call, hc, E.later o call r k _ _ _ _ v.inv_pair hi (hf _ fun hx => ?_) hr⟩
    -- the call that takes the step has not returned
    have hx : o = c.op := hx
    have ho : v.now.1.returned o = some (r, k) := ho
    rw [hx, v.live.2] at ho
    cases ho
  · refine R.fresh_later o _ _ (hf _ fun hx => ?_) (v.inv_now.2.2 o ho)
    have hx : o = c.op := hx
    exact absurd v.live.1 (not_lt.2 (hx ▸ ho))

/-- What is to be shown of a service over a regime. -/
structure Obligations (E : Results S R) (ok : S.Call → Prop)
    (loc : ℕ → L → σ × Γ → Prop)
    (post : ∀ c : Caller, S.Call → L × S.Ret → View E.protocol c → Prop)
    (s₀ : σ) (g₀ : Γ) (l₀ : L) : Prop where
  init : R.inv [] (s₀, g₀)
  init_fresh : ∀ n, R.fresh n (s₀, g₀)
  init_loc : ∀ t, loc t l₀ (s₀, g₀)
  loc_later : ∀ t l calls calls' s s', R.inv calls s → R.inv calls' s' → R.frame (.thread t) s s' →
    loc t l s → loc t l s'
  post_stable : ∀ c call x, Stable (post c call x)
  code : ∀ t op call l (v : View E.protocol ⟨t, op⟩), v.now.1.calls.length = op + 1 →
    v.now.1.calls[op]? = some call → ok call → loc t l v.pair → R.fresh op v.pair →
      wp E.protocol ⟨t, op⟩ (S.code ⟨t, op⟩ call l) (post _ call) v
  finish : ∀ (c : Caller) call l r (v : View E.protocol c), post c call (l, r) v →
    (∀ k, (∀ o, k ≤ o → R.fresh o v.pair) → E.holds c.op call r k v.pair) ∧ loc c.thread l v.pair

theorem Obligations.implements {ok : S.Call → Prop} {loc : ℕ → L → σ × Γ → Prop}
    {post : ∀ c : Caller, S.Call → L × S.Ret → View E.protocol c → Prop} {s₀ : σ} {g₀ : Γ} {l₀ : L}
    (h : Obligations E ok loc post s₀ g₀ l₀) :
    Implements E.protocol (fun call _ => ok call) (fun t l w => loc t l (World.pair w)) post
      s₀ l₀ where
  init := ⟨g₀, ⟨h.init, nofun, fun n _ => h.init_fresh n⟩, h.init_loc⟩
  loc_later t l w w' hw hw' hf := h.loc_later t l _ _ _ _ hw.1 hw'.1 hf
  post_stable := h.post_stable
  invoke t call l w g hw hok hl := by
    refine ⟨g, ⟨⟨R.inv_call _ call _ hw.1, fun o r k ho => ?_, fun o ho => hw.2.2 o ?_⟩,
      fun o _ => R.refl o _⟩,
      fun hinv hf => h.code t w.calls.length call l (.start E.protocol t call w g hinv hf)
        (by simp [View.start]) List.getElem?_concat_length hok hl (hw.2.2 _ le_rfl)⟩
    · obtain ⟨call', hc, hr⟩ := hw.2.1 o r k ho
      have hlt := (List.getElem?_eq_some_iff.1 hc).1
      exact ⟨call', by rwa [World.invoke_calls, List.getElem?_append_left hlt], hr⟩
    · simp only [World.invoke_calls, List.length_append] at ho
      exact le_trans (Nat.le_add_right _ _) ho
  finish c call l r v hc hp := by
    obtain ⟨hres, hloc⟩ := h.finish c call l r v hp
    refine ⟨v.now.2, ⟨⟨v.inv_pair, fun o r' k ho => ?_, v.inv_now.2.2⟩, fun o _ => R.refl o _⟩,
      hloc⟩
    by_cases hne : o = c.op
    · subst hne
      rw [World.finish_returned_self] at ho
      obtain ⟨rfl, rfl⟩ := Prod.mk.inj (Option.some.inj ho)
      exact ⟨call, hc, hres _ v.inv_now.2.2⟩
    · rw [World.finish_returned_of_ne _ _ hne] at ho
      exact v.inv_now.2.1 o r' k ho

end AtomicProg
