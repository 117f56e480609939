import SemanticRelaxation.Prog.Regime
import SemanticRelaxation.Prog.Legal

/-!
# Linearizability

An object with several threads is explained by a sequential one: there is a history in which each
call takes effect at most once, with the answer that it gives, and which respects the order of calls
that do not overlap.

* `Linearizes`: a history explains a world;
* `Model`: a regime whose invariant says which abstract state the shared state stands for.
  `Model.regime` keeps the history as ghost state; `Model.allows` is the rule for a step that
  changes nothing abstractly, `Model.commits` the one for the step in which a call takes effect;
* `Model.Recalls`: a call that changes nothing may also find out later when its answer was right;
* `Linear` and `Linear.linearizes`: what is left to show of a service, and what follows for all
  runs.
-/

namespace AtomicProg

variable {σ L Γ : Type} {S : Service σ L}

/-- The history `log` is legal and explains the world: each call takes effect at most once, as it
was called; each answer is the one of the call's operation; a call that returned before another was
made takes effect before it. -/
structure Linearizes (A : Spec S.Call S.Ret) (w : World S) (log : List (Occurrence S.Call S.Ret)) :
    Prop where
  legal : ∃ x, A.Run log x
  once : (log.map Occurrence.op).Nodup
  called : ∀ e ∈ log, w.calls[e.op]? = some e.call
  answered : ∀ op r k, w.returned op = some (r, k) → ∃ e ∈ log, e.op = op ∧ e.ret = r
  order : ∀ a b, w.Before a b → ∃ h₁ e h₂, log = h₁ ++ e :: h₂ ∧ e.op = a ∧ ∀ e' ∈ h₁, e'.op ≠ b

/-- The rules that all threads keep to, where the shared state stands for a state of the object `A`.
-/
structure Model {C R : Type} (A : Spec C R) (σ Γ : Type) where
  inv : List C → A.State → σ × Γ → Prop
  frame : Owner → σ × Γ → σ × Γ → Prop
  fresh : ℕ → σ × Γ → Prop
  assume : σ → σ → Prop
  refl : ∀ o s, frame o s s
  trans : ∀ o s₁ s₂ s₃, frame o s₁ s₂ → frame o s₂ s₃ → frame o s₁ s₃
  inv_call : ∀ calls call x s, inv calls x s → inv (calls ++ [call]) x s
  fresh_later : ∀ n s s', frame (.op n) s s' → fresh n s → fresh n s'

/-- The history so far, and how long it was when each call was made. -/
structure Account {C R : Type} (A : Spec C R) where
  log : List (Entry A)
  since : ℕ → Option ℕ

namespace Account

variable {C R : Type} {A : Spec C R}

/-- A call takes effect. -/
def append (H : Account A) (e : Entry A) : Account A := { H with log := H.log ++ [e] }

/-- A call is made. -/
def mark (H : Account A) (op : ℕ) : Account A :=
  { H with since := Function.update H.since op (some H.log.length) }

@[simp] theorem mark_self (H : Account A) (op : ℕ) : (H.mark op).since op = some H.log.length :=
  Function.update_self ..

theorem mark_of_ne (H : Account A) {op n : ℕ} (h : n ≠ op) : (H.mark op).since n = H.since n :=
  Function.update_of_ne h _ _

/-- The part `h₁` of the history explains the answer: it ends with the call, or the call, which
changes nothing and was made in it, would have had this answer at its end. -/
def Explains (H : Account A) (op : ℕ) (call : C) (r : R) (h₁ : List (Entry A)) : Prop :=
  (∃ h e, h₁ = h ++ [e] ∧ e.op = op ∧ e.ret = r) ∨
    (∀ e ∈ H.log, e.op ≠ op) ∧ A.step (A.after h₁) call r (A.after h₁) ∧ ∃ ℓ, H.since op = some ℓ ∧
    ℓ ≤ h₁.length

/-- What the history says of a call that returned when `k` calls had been made. -/
structure Tells (H : Account A) (op : ℕ) (call : C) (r : R) (k : ℕ) (h₁ h₂ : List (Entry A)) :
    Prop where
  split : H.log = h₁ ++ h₂
  explains : H.Explains op call r h₁
  early : ∀ e ∈ h₁, e.op < k
  later : ∀ b, k ≤ b → ∀ ℓ, H.since b = some ℓ → h₁.length ≤ ℓ

end Account

namespace Model

variable {C R : Type} {A : Spec C R}

/-- A state without the history that belongs to it. -/
def base (s : σ × Γ × Account A) : σ × Γ := (s.1, s.2.1)

/-- The invariant, with the history. -/
structure Inv (M : Model A σ Γ) (calls : List C) (s : σ × Γ × Account A) : Prop where
  legal : A.Legal s.2.2.log
  stands : M.inv calls (A.after s.2.2.log) (base s)
  once : (s.2.2.log.map fun e => e.op).Nodup
  called : ∀ e ∈ s.2.2.log, calls[e.op]? = some e.call
  marked : ∀ n ℓ, s.2.2.since n = some ℓ → ℓ ≤ s.2.2.log.length

/-- What others keep, with the history. -/
structure Frame (M : Model A σ Γ) (o : Owner) (s s' : σ × Γ × Account A) : Prop where
  base : M.frame o (base s) (base s')
  log : s.2.2.log <+: s'.2.2.log
  own : ∀ n, o = .op n → ∀ e ∈ s'.2.2.log, e.op = n → e ∈ s.2.2.log
  since : ∀ n ℓ, s'.2.2.since n = some ℓ → s.2.2.since n = some ℓ ∨ s.2.2.log.length ≤ ℓ
  mark : ∀ n, o = .op n → s'.2.2.since n = s.2.2.since n

variable {M : Model A σ Γ} {o : Owner} {s₁ s₂ s₃ : σ × Γ × Account A}

theorem Frame.same {s s' : σ × Γ × Account A} (h : M.frame o (Model.base s) (Model.base s'))
    (hh : s'.2.2 = s.2.2) :
    M.Frame o s s' := by
  refine ⟨h, hh ▸ List.prefix_refl _, fun _ _ e he _ => hh ▸ he, fun n ℓ hn => .inl (hh ▸ hn),
    fun n _ => ?_⟩
  rw [hh]

theorem Frame.trans (h₁ : M.Frame o s₁ s₂) (h₂ : M.Frame o s₂ s₃) : M.Frame o s₁ s₃ where
  base := M.trans o _ _ _ h₁.base h₂.base
  log := h₁.log.trans h₂.log
  own n ho e he hn := h₁.own n ho e (h₂.own n ho e he hn) hn
  since n ℓ h := by
    rcases h₂.since n ℓ h with h | h
    · exact h₁.since n ℓ h
    · exact .inr (h₁.log.length_le.trans h)
  mark n ho := (h₂.mark n ho).trans (h₁.mark n ho)

theorem Frame.append {s : σ × Γ × Account A} {s' : σ × Γ} {e : Entry A}
    (h : M.frame o (Model.base s) s') (he : ∀ n, o = .op n → e.op ≠ n) :
    M.Frame o s (s'.1, s'.2, s.2.2.append e) where
  base := h
  log := List.prefix_append _ _
  own n ho e' he' hop := by
    rcases List.mem_append.1 he' with he' | he'
    · exact he'
    · obtain rfl := List.mem_singleton.1 he'
      exact absurd hop (he n ho)
  since _ _ hn := .inl hn
  mark _ _ := rfl

theorem Frame.marked {s : σ × Γ × Account A} {op : ℕ} (hop : ∀ n, o = .op n → n ≠ op) :
    M.Frame o s (s.1, s.2.1, s.2.2.mark op) where
  base := M.refl o _
  log := List.prefix_refl _
  own _ _ _ he _ := he
  since n ℓ hn := by
    by_cases hne : n = op
    · subst hne
      have hn : (s.2.2.mark n).since n = some ℓ := hn
      rw [Account.mark_self] at hn
      exact .inr (Option.some.inj hn).le
    · exact .inl ((s.2.2.mark_of_ne hne).symm.trans hn)
  mark n ho := s.2.2.mark_of_ne (hop n ho)

/-- The regime that keeps the history. -/
def regime (M : Model A σ Γ) : Regime C σ (Γ × Account A) where
  inv := M.Inv
  frame := M.Frame
  fresh n s := M.fresh n (base s) ∧ (∀ e ∈ s.2.2.log, e.op ≠ n) ∧ s.2.2.since n = none
  assume := M.assume
  refl o s := .same (M.refl o _) rfl
  trans _ _ _ _ h₁ h₂ := h₁.trans h₂
  inv_call calls call s h := ⟨h.legal, M.inv_call _ _ _ _ h.stands, h.once,
    fun e he => (List.prefix_append _ _).getElem?_of_some (h.called e he), h.marked⟩
  fresh_later n s s' hf h := by
    refine ⟨M.fresh_later n _ _ hf.base h.1, fun e he hn => h.2.1 e (hf.own n rfl e he hn) hn, ?_⟩
    rw [hf.mark n rfl]
    exact h.2.2

/-- What remains true of the answer of a call that has returned. -/
def results {A : Spec S.Call S.Ret} (M : Model A σ Γ) : Results S M.regime where
  holds op call r k s := op < k ∧ ∃ h₁ h₂, s.2.2.Tells op call r k h₁ h₂
  later op call r k l l' s s' _ _ hf h := by
    obtain ⟨hk, h₁, h₂, hsplit, hexp, hearly, hlater⟩ := h
    obtain ⟨more, hmore⟩ := hf.log
    refine ⟨hk, h₁, h₂ ++ more, ?_, hexp.imp_right fun h => ?_, hearly, fun b hb ℓ hℓ => ?_⟩
    · rw [← hmore, hsplit, List.append_assoc]
    · obtain ⟨hnone, hstep, ℓ, hℓ⟩ := h
      refine ⟨fun e he hop => hnone e (hf.own op rfl e he hop) hop, hstep, ℓ, ?_⟩
      rwa [hf.mark op rfl]
    · rcases hf.since b ℓ hℓ with h | h
      · exact hlater b hb ℓ h
      · rw [hsplit, List.length_append] at h
        exact (Nat.le_add_right _ _).trans h

variable {A : Spec S.Call S.Ret} {M : Model A σ Γ} {c : Caller}

section Views

variable (v : View M.results.protocol c)

/-- The present state without the history. -/
abbrev now : σ × Γ := (v.state, v.now.2.1)

/-- The history with the marks. -/
abbrev hist : Account A := v.now.2.2

/-- The history. -/
abbrev log : List (Entry A) := v.now.2.2.log

/-- The call has taken effect and is going to answer `r`. -/
def Done (r : S.Ret) : Prop := ∃ e ∈ log v, e.op = c.op ∧ e.ret = r

/-- The call has not taken effect. -/
def Undone : Prop := ∀ e ∈ log v, e.op ≠ c.op

/-- The call does not take effect, but the answer `r` was right at some moment since it was made. -/
def Recalls (call : S.Call) (r : S.Ret) : Prop :=
  Undone v ∧ ∃ h₁ h₂, log v = h₁ ++ h₂ ∧ A.step (A.after h₁) call r (A.after h₁) ∧
    ∃ ℓ, (hist v).since c.op = some ℓ ∧ ℓ ≤ h₁.length

/-- The call may answer `r`. -/
def Answered (call : S.Call) (r : S.Ret) : Prop := Done v r ∨ Recalls v call r

variable {v} {v₁ : View M.results.protocol c} {call : S.Call} {r : S.Ret}

theorem Done.since (h : Done v r) (h₁ : Since v v₁) : Done v₁ r := by
  obtain ⟨e, he, hop, hr⟩ := h
  exact ⟨e, h₁.frame.log.mem he, hop, hr⟩

theorem Undone.since (h : Undone v) (h₁ : Since v v₁) : Undone v₁ :=
  fun e he hop => h e (h₁.frame.own c.op rfl e he hop) hop

theorem Recalls.since (h : Recalls v call r) (h₁ : Since v v₁) : Recalls v₁ call r := by
  obtain ⟨hu, l₁, l₂, hlog, hstep, ℓ, hℓ, hle⟩ := h
  obtain ⟨more, hmore⟩ := h₁.frame.log
  refine ⟨hu.since h₁, l₁, l₂ ++ more, ?_, hstep, ℓ, (h₁.frame.mark c.op rfl).trans hℓ, hle⟩
  have hmore : log v ++ more = log v₁ := hmore
  rw [← hmore, hlog, List.append_assoc]

theorem Answered.since (h : Answered v call r) (h₁ : Since v v₁) : Answered v₁ call r :=
  h.imp (fun h => h.since h₁) fun h => h.since h₁

/-- An answer that was right in an earlier view. -/
theorem Recalls.of_since (h₁ : Since v v₁) (hu : Undone v₁)
    (hm : ∃ ℓ, (hist v₁).since c.op = some ℓ) (hstep : A.step (A.after (log v)) call r
      (A.after (log v))) : Recalls v₁ call r := by
  obtain ⟨ℓ, hℓ⟩ := hm
  obtain ⟨more, hmore⟩ := h₁.frame.log
  exact ⟨hu, log v, more, hmore.symm, hstep, ℓ, hℓ,
    v.inv_pair.marked _ _ ((h₁.frame.mark c.op rfl).symm.trans hℓ)⟩

/-- The shared state stands for the state after the history. -/
theorem stands (v : View M.results.protocol c) {w : World S × Γ × Account A} (hw : w ∈ v.seen) :
    M.inv w.1.calls (A.after w.2.2.log) (w.1.shared, w.2.1) := (v.inv w hw).1.stands

/-- A step that changes nothing abstractly. -/
theorem allows (v : View M.results.protocol c) {s : σ} {g : Γ}
    (hi : ∀ x, M.inv v.now.1.calls x (now v) → M.inv v.now.1.calls x (s, g))
    (hf : ∀ o, ¬ c.Is o → M.frame o (now v) (s, g)) :
    M.results.protocol.Allows c v.now (v.after s (g, hist v)) := by
  obtain ⟨hlegal, hst, honce, hcalled, hmarked⟩ := v.inv_pair
  exact Regime.allows v ⟨hlegal, hi _ hst, honce, hcalled, hmarked⟩ fun o ho => .same (hf o ho) rfl

/-- The step in which the call takes effect. -/
theorem commits (v : View M.results.protocol c) {s : σ} {g : Γ} (hu : Undone v)
    (hcall : v.now.1.calls[c.op]? = some call)
    (hi : ∀ x, M.inv v.now.1.calls x (now v) → ∃ x', A.step x call r x' ∧ M.inv v.now.1.calls x'
      (s, g))
    (hf : ∀ o, ¬ c.Is o → M.frame o (now v) (s, g)) :
    ∃ x', M.results.protocol.Allows c v.now
      (v.after s (g, (hist v).append ⟨⟨c.op, call, r⟩, x'⟩)) := by
  obtain ⟨hlegal, hst, honce, hcalled, hmarked⟩ := v.inv_pair
  obtain ⟨x', hstep, hst'⟩ := hi _ hst
  refine ⟨x', Regime.allows v ⟨hlegal.snoc hstep, ?_, ?_, fun e he => ?_, fun n ℓ hn => ?_⟩
    fun o ho =>
    Frame.append (show M.frame o (Model.base v.pair) (s, g) from hf o ho) fun n hn =>
      (op_ne ho hn).symm⟩
  · show M.inv _ (A.after (log v ++ [_])) _
    rw [Spec.after_concat]
    exact hst'
  · show ((log v ++ [_]).map _).Nodup
    rw [List.map_append, List.nodup_append]
    refine ⟨honce, List.nodup_singleton _, fun a ha b hb => ?_⟩
    obtain ⟨e, he, rfl⟩ := List.mem_map.1 ha
    obtain rfl := List.mem_singleton.1 hb
    exact hu e he
  · rcases List.mem_append.1 he with he | he
    · exact hcalled e he
    · obtain rfl := List.mem_singleton.1 he
      exact hcall
  · exact (hmarked n ℓ hn).trans (List.prefix_append _ _).length_le

theorem done_append {s : σ} {g : Γ} {x : A.State}
    (h : M.results.protocol.Allows c v.now (v.after s (g, (hist v).append ⟨⟨c.op, call, r⟩, x⟩))) :
    Done (v.step s (g, (hist v).append ⟨⟨c.op, call, r⟩, x⟩) h.inv) r :=
  ⟨_, List.mem_append_right _ (List.mem_singleton_self _), rfl, rfl⟩

/-- A load, in which the call may take effect. -/
theorem read_cases {α β : Type} {f : σ → β} {k : β → Prog σ α}
    {Q : α → View M.results.protocol c → Prop} (h : ∀ v₁, v ≤ v₁ → wp M.results.protocol c
      (k (f v₁.state)) Q v₁ ∨
      ∃ g, ∃ h : M.results.protocol.Allows c v₁.now (v₁.after v₁.state g),
        wp M.results.protocol c (k (f v₁.state)) Q (v₁.step _ g h.inv)) :
    wp M.results.protocol c (Prog.read f >>= k) Q v := by
  intro v₁ h₁ _ _
  rcases h v₁ h₁ with hk | hk
  · exact wp.same (a := f v₁.state) (k := k) hk
  · exact hk

end Views

/-- A regime, with what the shared state stands for. -/
def ofRegime {C R : Type} (A : Spec C R) (Q : Regime C σ Γ) (stands : A.State → σ × Γ → Prop) :
    Model A σ Γ where
  inv calls x s := Q.inv calls s ∧ stands x s
  frame := Q.frame
  fresh := Q.fresh
  assume := Q.assume
  refl := Q.refl
  trans := Q.trans
  inv_call calls call _ s h := ⟨Q.inv_call calls call s h.1, h.2⟩
  fresh_later := Q.fresh_later

section Forget

variable {Q : Regime S.Call σ Γ} {stands : A.State → σ × Γ → Prop}

/-- A view without the history. -/
def forget (v : View (ofRegime A Q stands).results.protocol c) :
    View (Results.trivial S Q).protocol c where
  seen := Set.image (fun w => (w.1, w.2.1)) v.seen
  now := (v.now.1, v.now.2.1)
  mem := Set.mem_image_of_mem _ v.mem
  inv := by
    rintro _ ⟨w, hw, rfl⟩
    obtain ⟨hi, hres, hfresh⟩ := v.inv w hw
    refine ⟨hi.stands.1, fun o r k ho => ?_, fun o ho => (hfresh o ho).1⟩
    obtain ⟨call, hcall, -⟩ := hres o r k ho
    exact ⟨call, hcall, True.intro⟩
  live := v.live

variable {v v₁ : View (ofRegime A Q stands).results.protocol c}

theorem forget_le (h : v ≤ v₁) : forget v ≤ forget v₁ :=
  ⟨Set.image_mono h.1, h.2.evolves, fun o ho => (h.2.frame o ho).base⟩

theorem forget_since (h : Since v v₁) : Since (forget v) (forget v₁) :=
  ⟨Set.image_mono h.seen, fun o ho => (h.frames o ho).base, h.calls⟩

/-- A step of the call that takes nothing from anybody and changes no history. -/
theorem since_step {s : σ} {g : Γ} {h : (ofRegime A Q stands).results.protocol.inv
      (v.after s (g, hist v))}
    (hf : ∀ o, Q.frame o (now v) (s, g)) : Since v (v.step s (g, hist v) h) :=
  .step fun o => .same (hf o) rfl

/-- A step that the regime allows is allowed, if it changes nothing abstractly. -/
theorem allows_of (v : View (ofRegime A Q stands).results.protocol c) {s : σ} {g : Γ}
    (h : (Results.trivial S Q).protocol.Allows c (forget v).now ((forget v).after s g))
    (hs : ∀ x, stands x (now v) → stands x (s, g)) :
    (ofRegime A Q stands).results.protocol.Allows c v.now (v.after s (g, hist v)) :=
  allows v (fun x hx => ⟨h.inv.1, hs x hx.2⟩) fun o ho => h.frame o ho

/-- A step that the regime allows and in which the call takes effect. -/
theorem commits_of (v : View (ofRegime A Q stands).results.protocol c) {s : σ} {g : Γ}
    {call : S.Call} {r : S.Ret} (h : (Results.trivial S Q).protocol.Allows c (forget v).now
      ((forget v).after s g)) (hu : Undone v)
    (hcall : v.now.1.calls[c.op]? = some call)
    (hs : ∀ x, stands x (now v) → ∃ x', A.step x call r x' ∧ stands x' (s, g)) : ∃ x',
      (ofRegime A Q stands).results.protocol.Allows c v.now
      (v.after s (g, (hist v).append ⟨⟨c.op, call, r⟩, x'⟩)) := by
  refine commits v hu hcall (fun x hx => ?_) fun o ho => h.frame o ho
  obtain ⟨x', hx', hst⟩ := hs x hx.2
  exact ⟨x', hx', h.inv.1, hst⟩

end Forget

end Model

/-! ### The history of a run -/

section Weave

variable {A : Spec S.Call S.Ret} {w : World S} {H : Account A}

/-- The world's answers are told by the history. -/
def Told (w : World S) (H : Account A) : Prop :=
  ∀ op r k, w.returned op = some (r, k) → ∃ call, w.calls[op]? = some call ∧ op < k ∧ ∃ h₁ h₂,
    H.Tells op call r k h₁ h₂

/-- The call `a` has no entry in the history and belongs behind its first `n` ones. -/
structure Past (w : World S) (H : Account A) (a n : ℕ) (e : Occurrence S.Call S.Ret) : Prop where
  op : e.op = a
  called : w.calls[a]? = some e.call
  undone : ∀ e' ∈ H.log, e'.op ≠ a
  tells : ∃ k h₁ h₂, w.returned a = some (e.ret, k) ∧ a < k ∧ H.Tells a e.call e.ret k h₁ h₂ ∧
    h₁.length = n

/-- The answers that have no entry, with their places. -/
structure Places (w : World S) (H : Account A) (past : ℕ → Option (ℕ × Occurrence S.Call S.Ret)) :
    Prop where
  some : ∀ op n e, past op = some (n, e) → Past w H op n e
  none : ∀ op r k, w.returned op = .some (r, k) → past op = .none → ∃ e ∈ H.log, e.op = op ∧
    e.ret = r

theorem exists_places (h : Told w H) : ∃ past, Places w H past := by
  have hone : ∀ op, ∃ y : Option (ℕ × Occurrence S.Call S.Ret), (∀ n e, y = some (n, e) →
    Past w H op n e) ∧
      ∀ r k, w.returned op = some (r, k) → y = none → ∃ e ∈ H.log, e.op = op ∧ e.ret = r := by
    intro op
    rcases hret : w.returned op with _ | ⟨r, k⟩
    · refine ⟨none, ⟨fun _ _ h => ?_, fun _ _ h => ?_⟩⟩ <;> cases h
    obtain ⟨call, hcall, hk, h₁, h₂, ht⟩ := h op r k hret
    rcases ht.explains with ⟨h₀, e, rfl, hop, hr⟩ | hpast
    · refine ⟨none, ⟨fun _ _ h => ?_, fun r' k' h' _ => ⟨e, ?_, hop, ?_⟩⟩⟩
      · cases h
      · rw [ht.split]
        exact List.mem_append_left _ (List.mem_append_right _ (List.mem_singleton_self e))
      · rw [hr]
        exact congrArg Prod.fst (Option.some.inj h')
    · refine ⟨some (h₁.length, ⟨op, call, r⟩), ⟨fun n e he => ?_, fun _ _ _ h => ?_⟩⟩
      · cases he
        exact ⟨rfl, hcall, hpast.1, k, h₁, h₂, hret, hk, ht, rfl⟩
      · cases h
  choose past hpast using hone
  exact ⟨past, fun op => (hpast op).1, fun op => (hpast op).2⟩

/-- The answers that belong before the `i`-th entry, in the order in which the calls were made. -/
def placed (w : World S) (past : ℕ → Option (ℕ × Occurrence S.Call S.Ret)) (i : ℕ) :
    List (Occurrence S.Call S.Ret) :=
  (List.range w.calls.length).filterMap fun op => (past op).bind fun y => if y.1 = i then some y.2
    else none

variable {past : ℕ → Option (ℕ × Occurrence S.Call S.Ret)} {i : ℕ} {e : Occurrence S.Call S.Ret}

theorem bind_place {y : Option (ℕ × Occurrence S.Call S.Ret)} :
    (y.bind fun y => if y.1 = i then some y.2 else none) = some e ↔ y = some (i, e) := by
  cases y with
  | none => simp
  | some y =>
    obtain ⟨n, e'⟩ := y
    by_cases hn : n = i
    · simp [hn]
    · simp [hn]

theorem mem_placed (hp : Places w H past) : e ∈ placed w past i ↔ ∃ op, past op = some (i, e) := by
  simp only [placed, List.mem_filterMap, List.mem_range, bind_place]
  constructor
  · rintro ⟨op, -, h⟩
    exact ⟨op, h⟩
  · rintro ⟨op, h⟩
    exact ⟨op, (List.getElem?_eq_some_iff.1 (hp.some op i e h).called).1, h⟩

/-- The call `b` was made after the call `a` had returned, which belongs behind the first `n`
entries. -/
theorem Past.before {a n b : ℕ} (h : Past w H a n e) (hab : w.Before a b) :
    ∃ h₁ h₂, H.log = h₁ ++ h₂ ∧ h₁.length = n ∧ (∀ e' ∈ h₁, e'.op < b) ∧ a < b ∧
      ∀ ℓ, H.since b = some ℓ → n ≤ ℓ := by
  obtain ⟨k, h₁, h₂, hret, hak, ht, rfl⟩ := h.tells
  obtain ⟨r', k', hret', hk⟩ := hab
  obtain rfl : k = k' := congrArg Prod.snd (Option.some.inj (hret.symm.trans hret'))
  exact ⟨h₁, h₂, ht.split, rfl, fun e' he' => (ht.early e' he').trans_le hk, hak.trans_le hk,
    ht.later b hk⟩

/-- Where it belongs, its answer was right, and its call had begun. -/
theorem Past.looked {a n : ℕ} (h : Past w H a n e) : ∃ h₁ h₂, H.log = h₁ ++ h₂ ∧ h₁.length = n ∧
    A.step (A.after h₁) e.call e.ret (A.after h₁) ∧ ∃ ℓ, H.since a = some ℓ ∧ ℓ ≤ n := by
  obtain ⟨k, h₁, h₂, -, -, ht, rfl⟩ := h.tells
  rcases ht.explains with ⟨h₀, e', rfl, hop, -⟩ | ⟨-, hstep, hsince⟩
  · refine absurd hop (h.undone e' ?_)
    rw [ht.split]
    exact List.mem_append_left _ (List.mem_append_right _ (List.mem_singleton_self e'))
  · exact ⟨h₁, h₂, ht.split, rfl, hstep, hsince⟩

/-- The call of the entry `e` had returned when the call `b` was made. -/
theorem Told.before (hT : Told w H) (honce : (H.log.map fun e => e.op).Nodup)
    {h₁ h₂ : List (Entry A)} {e : Entry A} {b : ℕ} (hlog : H.log = h₁ ++ e :: h₂)
    (hab : w.Before e.op b) : (∀ e' ∈ h₁, e'.op < b) ∧ ∀ ℓ, H.since b = some ℓ → h₁.length < ℓ := by
  obtain ⟨r, k, hret, hk⟩ := hab
  obtain ⟨call, -, -, g₁, g₂, ht⟩ := hT e.op r k hret
  have hmem : e ∈ H.log := by rw [hlog]; exact List.mem_append_right _ (List.mem_cons_self ..)
  rcases ht.explains with ⟨g, e', rfl, hop, -⟩ | hpast
  · have hlog' : h₁ ++ e :: h₂ = g ++ e' :: g₂ := by
      rw [← hlog, ht.split, List.append_assoc, List.singleton_append]
    have hnd := honce
    rw [hlog, List.map_append, List.map_cons, List.nodup_middle,
      List.nodup_cons, ← List.map_append] at hnd
    have hmem' : e' ∈ H.log :=
      by rw [hlog, hlog']; exact List.mem_append_right _ (List.mem_cons_self ..)
    obtain rfl : e' = e := List.inj_on_of_nodup_map honce hmem' hmem hop
    have hnot : e' ∉ h₁ ∧ e' ∉ h₂ := by
      constructor
      · exact fun h => hnd.1 (List.mem_map_of_mem (List.mem_append_left _ h))
      · exact fun h => hnd.1 (List.mem_map_of_mem (List.mem_append_right _ h))
    obtain ⟨rfl, -, -⟩ := (List.append_cons_inj_of_notMem hnot.1 hnot.2).1 hlog'
    refine ⟨fun e'' he => (ht.early e'' (List.mem_append_left _ he)).trans_le hk, fun ℓ hℓ => ?_⟩
    have hle := ht.later b hk ℓ hℓ
    rwa [List.length_append, List.length_singleton] at hle
  · exact absurd rfl (hpast.1 e hmem)

/-- Among the events of the woven history no call comes twice, and none before one that had returned
when it was made. -/
theorem pairwise_placed (hT : Told w H) (honce : (H.log.map fun e => e.op).Nodup)
    (hp : Places w H past) :
    (weave (placed w past) 0 H.log).Pairwise fun e e' => e.op ≠ e'.op ∧ ¬ w.Before e'.op e.op := by
  refine pairwise_weave ?_ ?_ ?_ ?_ ?_ (List.nil_append _).symm
  · intro i
    refine List.Pairwise.filterMap _ (fun a b hab x hx y hy => ?_) List.pairwise_lt_range
    have hx := hp.some a i x (bind_place.1 hx)
    have hy := hp.some b i y (bind_place.1 hy)
    refine ⟨by rw [hx.op, hy.op]; exact hab.ne, fun h => ?_⟩
    rw [hx.op, hy.op] at h
    obtain ⟨-, -, -, -, -, hlt, -⟩ := hy.before h
    exact absurd hab hlt.le.not_gt
  · intro i j hij x hx y hy
    obtain ⟨a, ha⟩ := (mem_placed hp).1 hx
    obtain ⟨b, hb⟩ := (mem_placed hp).1 hy
    have hx := hp.some a i x ha
    have hy := hp.some b j y hb
    rw [hx.op, hy.op]
    refine ⟨?_, fun h => ?_⟩
    · rintro rfl
      rw [ha] at hb
      exact hij.ne (congrArg Prod.fst (Option.some.inj hb))
    · obtain ⟨-, -, -, -, -, -, hsince⟩ := hy.before h
      obtain ⟨-, -, -, -, -, ℓ, hℓ, hle⟩ := hx.looked
      exact absurd ((hsince ℓ hℓ).trans hle) hij.not_ge
  · intro h₁ e h₂ hlog e' he'
    have hnd := honce
    rw [hlog, List.map_append, List.map_cons, List.nodup_middle,
      List.nodup_cons, ← List.map_append] at hnd
    refine ⟨fun heq => ?_, fun h => ?_⟩
    · rw [heq] at hnd
      exact hnd.1 (List.mem_map_of_mem (f := fun e : Entry A => e.op) (List.mem_append_right _ he'))
    · obtain ⟨l₁, l₂, rfl⟩ := List.append_of_mem he'
      have hlog' : H.log = (h₁ ++ e :: l₁) ++ e' :: l₂ :=
        by rw [hlog, List.append_assoc, List.cons_append]
      exact absurd ((hT.before honce hlog' h).1 e (List.mem_append_right _ (List.mem_cons_self ..)))
        (lt_irrefl _)
  · intro h₁ h₂ hlog x hx e he
    obtain ⟨a, ha⟩ := (mem_placed hp).1 hx
    have hx := hp.some a _ x ha
    have hmem : e ∈ H.log := by rw [hlog]; exact List.mem_append_right _ he
    rw [hx.op]
    refine ⟨(hx.undone e hmem).symm, fun h => ?_⟩
    obtain ⟨l₁, l₂, rfl⟩ := List.append_of_mem he
    obtain ⟨-, -, -, -, -, ℓ, hℓ, hle⟩ := hx.looked
    have hlt := (hT.before honce (hlog.trans (List.append_assoc ..).symm) h).2 ℓ hℓ
    rw [List.length_append] at hlt
    omega
  · intro h₁ h₂ hlog e he j hj _ x hx
    obtain ⟨a, ha⟩ := (mem_placed hp).1 hx
    have hx := hp.some a j x ha
    rw [hx.op]
    refine ⟨hx.undone e ?_, fun h => ?_⟩
    · rw [hlog]
      exact List.mem_append_left _ he
    · obtain ⟨g₁, g₂, hlog', rfl, hearly, -⟩ := hx.before h
      have hpre : h₁ <+: g₁ := List.prefix_of_prefix_length_le ⟨h₂, hlog.symm⟩ ⟨g₂, hlog'.symm⟩ hj
      exact absurd (hearly e (hpre.mem he)) (lt_irrefl _)

/-- The woven history explains the world. -/
theorem Told.linearizes (hT : Told w H) (hlegal : A.Legal H.log)
    (honce : (H.log.map fun e => e.op).Nodup)
    (hcalled : ∀ e ∈ H.log, w.calls[e.op]? = some e.call) :
    ∃ log, Linearizes A w log ∧ A.Run log (A.after H.log) := by
  obtain ⟨past, hp⟩ := exists_places hT
  have hpair := pairwise_placed hT honce hp
  have hrun : A.Run (weave (placed w past) 0 H.log) (A.after H.log) := by
    refine run_weave hlegal (fun h₁ h₂ hlog x hx => ?_) (List.nil_append _).symm .nil
    obtain ⟨a, ha⟩ := (mem_placed hp).1 hx
    have hx := hp.some a _ x ha
    obtain ⟨g₁, g₂, hsplit, hlen, hstep, -⟩ := hx.looked
    obtain ⟨rfl, -⟩ := List.append_inj (hsplit.symm.trans hlog) hlen
    exact hstep
  have hans : ∀ op r k, w.returned op = some (r, k) → ∃ e ∈ weave (placed w past) 0 H.log,
    e.op = op ∧ e.ret = r := by
    intro op r k hret
    rcases hpast : past op with _ | ⟨n, e⟩
    · obtain ⟨e, he, hop, hr⟩ := hp.none op r k hret hpast
      exact ⟨e.toOccurrence, mem_weave.2 (.inr ⟨e, he, rfl⟩), hop, hr⟩
    · have hpa := hp.some op n e hpast
      obtain ⟨k', h₁, h₂, hret', -, ht, rfl⟩ := hpa.tells
      refine ⟨e, mem_weave.2 (.inl ⟨_, Nat.zero_le _, ?_, (mem_placed hp).2 ⟨op, hpast⟩⟩),
        hpa.op, ?_⟩
      · rw [ht.split, List.length_append, Nat.zero_add]
        exact Nat.le_add_right _ _
      · exact congrArg Prod.fst (Option.some.inj (hret'.symm.trans hret))
  refine ⟨_, ⟨⟨_, hrun⟩, ?_, fun e he => ?_, hans, fun a b hab => ?_⟩, hrun⟩
  · exact List.pairwise_map.2 (hpair.imp And.left)
  · rcases mem_weave.1 he with ⟨j, -, -, hj⟩ | ⟨e', he', rfl⟩
    · obtain ⟨op, hop⟩ := (mem_placed hp).1 hj
      have h := hp.some op j e hop
      rw [h.op]
      exact h.called
    · exact hcalled e' he'
  · obtain ⟨r, k, hret, hk⟩ := hab
    obtain ⟨e, he, hop, -⟩ := hans a r k hret
    obtain ⟨h₁, h₂, hfull⟩ := List.append_of_mem he
    refine ⟨h₁, e, h₂, hfull, hop, fun e' he' heb => ?_⟩
    rw [hfull, List.pairwise_append] at hpair
    refine (hpair.2.2 e' he' e (List.mem_cons_self ..)).2 ?_
    rw [hop, heb]
    exact ⟨r, k, hret, hk⟩

end Weave

/-- What is to be shown of a service. -/
structure Linear {A : Spec S.Call S.Ret} (M : Model A σ Γ) (ok : S.Call → Prop)
    (loc : ℕ → L → σ × Γ → Prop) (s₀ : σ) (g₀ : Γ) (l₀ : L) : Prop where
  init : M.inv [] A.init (s₀, g₀)
  init_fresh : ∀ n, M.fresh n (s₀, g₀)
  init_loc : ∀ t, loc t l₀ (s₀, g₀)
  loc_later : ∀ t l calls calls' x x' s s', M.inv calls x s → M.inv calls' x' s' → M.frame
    (.thread t) s s' →
    loc t l s → loc t l s'
  code : ∀ t op call l (v : View M.results.protocol ⟨t, op⟩), v.now.1.calls[op]? = some call →
    ok call →
    loc t l (Model.now v) → M.fresh op (Model.now v) → Model.Undone v →
    (Model.hist v).since op = some (Model.log v).length →
      wp M.results.protocol ⟨t, op⟩ (S.code ⟨t, op⟩ call l)
        (fun x v' => Model.Answered v' call x.2 ∧ loc t x.1 (Model.now v')) v

namespace Linear

variable {A : Spec S.Call S.Ret} {M : Model A σ Γ} {ok : S.Call → Prop} {loc : ℕ → L → σ × Γ → Prop}
  {s₀ : σ} {g₀ : Γ}
  {l₀ : L}

/-- What is known of a call that returns: nothing is known of those that have not been made. -/
theorem tells {c : Caller} {v : View M.results.protocol c} {call : S.Call} {r : S.Ret} {k : ℕ}
    (h : Model.Answered v call r) (hk : ∀ o, k ≤ o → M.regime.fresh o v.pair) :
    c.op < k ∧ ∃ h₁ h₂, (Model.hist v).Tells c.op call r k h₁ h₂ := by
  have hearly : ∀ e ∈ Model.log v, e.op < k := fun e he => by
    by_contra hge
    exact (hk e.op (not_lt.1 hge)).2.1 e he rfl
  have hlater : ∀ b, k ≤ b → ∀ ℓ, (Model.hist v).since b = some ℓ → False := fun b hb ℓ hℓ => by
    have hnone : (Model.hist v).since b = none := (hk b hb).2.2
    rw [hnone] at hℓ
    cases hℓ
  rcases h with ⟨e, he, hop, hr⟩ | ⟨hu, h₁, h₂, hlog, hstep, ℓ, hℓ, hle⟩
  · obtain ⟨h₁, h₂, hlog⟩ := List.append_of_mem he
    have hsplit : Model.log v = (h₁ ++ [e]) ++ h₂ := hlog.trans (List.append_cons ..)
    refine ⟨hop ▸ hearly e he, h₁ ++ [e], h₂, hsplit, .inl ⟨h₁, e, rfl, hop, hr⟩, fun e' he' => ?_,
      fun b hb ℓ hℓ => (hlater b hb ℓ hℓ).elim⟩
    exact hearly e' (hsplit ▸ List.mem_append_left _ he')
  · refine ⟨?_, h₁, h₂, hlog, .inr ⟨hu, hstep, ℓ, hℓ, hle⟩, fun e' he' => ?_,
      fun b hb ℓ hℓ => (hlater b hb ℓ hℓ).elim⟩
    · by_contra hge
      exact hlater c.op (not_lt.1 hge) ℓ hℓ
    · exact hearly e' (hlog ▸ List.mem_append_left _ he')

theorem implements (h : Linear M ok loc s₀ g₀ l₀) :
    Implements M.results.protocol (fun call _ => ok call)
    (fun t l w => loc t l (Model.base (World.pair w)))
    (fun c call x v => Model.Answered v call x.2 ∧ loc c.thread x.1 (Model.now v)) s₀ l₀ where
  init := by
    refine ⟨(g₀, ⟨[], fun _ => none⟩),
      ⟨⟨.nil, h.init, List.nodup_nil, fun _ he => absurd he List.not_mem_nil,
      fun _ _ he => ?_⟩, fun _ _ _ he => ?_, fun n _ => ⟨h.init_fresh n, fun _ he =>
        absurd he List.not_mem_nil, rfl⟩⟩,
      h.init_loc⟩ <;> cases he
  loc_later t l w w' hw hw' hf := h.loc_later t l _ _ _ _ _ _ hw.1.stands hw'.1.stands hf.base
  post_stable _ _ _ v v' hv hp :=
    ⟨hp.1.since (.of_le hv), h.loc_later _ _ _ _ _ _ _ _ v.inv_pair.stands
    v'.inv_pair.stands (View.frame_thread hv).base hp.2⟩
  invoke t call l w g hw hok hl := by
    obtain ⟨hi, hres, hfresh⟩ := hw
    have hi' := M.regime.inv_call _ call _ hi
    have hi' : M.Inv (w.calls ++ [call]) (w.shared, g.1, g.2.mark w.calls.length) := by
      refine ⟨hi'.legal, hi'.stands, hi'.once, hi'.called, fun n ℓ hn => ?_⟩
      by_cases hne : n = w.calls.length
      · subst hne
        exact (Option.some.inj ((g.2.mark_self _).symm.trans hn)).ge
      · exact hi'.marked n ℓ ((g.2.mark_of_ne hne).symm.trans hn)
    have hmark : ∀ o, o ≠ w.calls.length → M.regime.frame (.op o) (w.shared, g)
        (w.shared, g.1, g.2.mark w.calls.length) := by
      intro o ho
      exact .marked fun n hn => by
        obtain rfl : o = n := Owner.op.inj hn
        exact ho
    refine ⟨(g.1, g.2.mark w.calls.length), ⟨⟨hi', fun o r k ho => ?_, fun o ho => ?_⟩, fun o ho =>
      .marked fun n hn => op_ne ho hn⟩, fun hinv hf => ?_⟩
    · obtain ⟨call', hc, hr⟩ := hres o r k ho
      have hlt := (List.getElem?_eq_some_iff.1 hc).1
      refine ⟨call', ?_, M.results.later o call' r k _ _ _ _ hi hi' (hmark o hlt.ne) hr⟩
      rwa [World.invoke_calls, List.getElem?_append_left hlt]
    · have hlt : w.calls.length < o := by
        simpa only [World.invoke_calls, List.length_append, List.length_singleton,
          Nat.succ_le_iff] using ho
      exact M.regime.fresh_later o _ _ (hmark o hlt.ne') (hfresh o hlt.le)
    · obtain ⟨hfr, hun, -⟩ := hfresh _ le_rfl
      exact h.code t _ call l
        (.start M.results.protocol t call w _ hinv hf) List.getElem?_concat_length hok hl hfr hun
        (g.2.mark_self _)
  finish c call l r v hc hp := by
    refine ⟨v.now.2, ⟨⟨v.inv_pair, fun o r' k ho => ?_, v.inv_now.2.2⟩,
      fun o _ => M.regime.refl o _⟩, hp.2⟩
    by_cases hne : o = c.op
    · subst hne
      rw [World.finish_returned_self] at ho
      obtain ⟨rfl, rfl⟩ := Prod.mk.inj (Option.some.inj ho)
      exact ⟨call, hc, tells hp.1 v.inv_now.2.2⟩
    · rw [World.finish_returned_of_ne _ _ hne] at ho
      exact v.inv_now.2.1 o r' k ho

/-- In every run a legal history explains the answers, and its last state is the one that the shared
state stands for. -/
theorem linearizes (h : Linear M ok loc s₀ g₀ l₀) {p : Pool S}
    (hr : Reach (fun call _ => ok call) M.assume s₀ l₀ p) :
    ∃ log x g, Linearizes A p.world log ∧ A.Run log x ∧
      M.inv p.world.calls x (p.world.shared, g) := by
  obtain ⟨⟨g, H⟩, ⟨hlegal, hst, honce, hcalled, -⟩, hres, -⟩ := h.implements.inv hr
  obtain ⟨log, hlog, hrun⟩ := Told.linearizes hres hlegal honce hcalled
  exact ⟨log, _, g, hlog, hrun, hst⟩

end Linear

end AtomicProg
