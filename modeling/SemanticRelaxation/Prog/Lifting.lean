import SemanticRelaxation.Prog.Linearizable
import SemanticRelaxation.Prog.Steps

/-!
# Specifications without the history

The specifications of a program under a regime do not speak about the history of an object. Where no
step of the program changes what the shared state stands for, they hold with the history as well.

* `Model.Tracks v v'`: from `v` to `v'` the call has changed no history;
* `Model.lift`: such a program keeps its specification;
* `Model.Waiting`: what a call knows until it takes effect;
* `Regime.within`: the runs that stay in a part of the states. The specifications hold in them
  (`View.within`).
-/

namespace AtomicProg

namespace Model

variable {σ L Γ α : Type} {S : Service σ L} {A : Spec S.Call S.Ret} {c : Caller}

section Tracks

variable {M : Model A σ Γ} {v v₁ v₂ : View M.results.protocol c}

/-- From `v` to `v₁` the call has not taken effect, whatever other steps it has taken. -/
structure Tracks (v v₁ : View M.results.protocol c) : Prop where
  seen : v.seen ⊆ v₁.seen
  grows : log v <+: log v₁
  own : ∀ e ∈ log v₁, e.op = c.op → e ∈ log v
  mark : (hist v₁).since c.op = (hist v).since c.op
  calls : v.now.1.calls <+: v₁.now.1.calls

namespace Tracks

theorem of_since (h : Since v v₁) : Tracks v v₁ :=
  ⟨h.seen, h.frame.log, h.frame.own c.op rfl, h.frame.mark c.op rfl, h.calls⟩

theorem of_le (h : v ≤ v₁) : Tracks v v₁ := .of_since (.of_le h)

theorem refl (v : View M.results.protocol c) : Tracks v v := .of_le le_rfl

theorem trans (h₁ : Tracks v v₁) (h₂ : Tracks v₁ v₂) : Tracks v v₂ where
  seen := h₁.seen.trans h₂.seen
  grows := h₁.grows.trans h₂.grows
  own e he hop := h₁.own e (h₂.own e he hop) hop
  mark := h₂.mark.trans h₁.mark
  calls := h₁.calls.trans h₂.calls

/-- A step of the call that leaves the history alone. -/
theorem step {s : σ} {g : Γ} {h : M.results.protocol.inv (v.after s (g, hist v))} :
    Tracks v (v.step s (g, hist v) h) :=
  ⟨v.subset_step _ _ h, List.prefix_refl _, fun _ he _ => he, rfl, List.prefix_refl _⟩

/-- A call that has been made stays in the list. -/
theorem call (h : Tracks v v₁) {o : ℕ} {call : S.Call} (hc : v.now.1.calls[o]? = some call) :
    v₁.now.1.calls[o]? = some call := h.calls.getElem?_of_some hc

end Tracks

theorem Done.tracks {r : S.Ret} (h : Done v r) (h₁ : Tracks v v₁) : Done v₁ r := by
  obtain ⟨e, he, hop, hr⟩ := h
  exact ⟨e, h₁.grows.mem he, hop, hr⟩

theorem Undone.tracks (h : Undone v) (h₁ : Tracks v v₁) : Undone v₁ :=
  fun e he hop => h e (h₁.own e he hop) hop

end Tracks

section Lift

variable {Q : Regime S.Call σ Γ} {stands : A.State → σ × Γ → Prop}
  {v : View (ofRegime A Q stands).results.protocol c}

/-- A step that leaves the history alone is a step without the history. -/
theorem forget_step {s : σ} {g : Γ} (h : (ofRegime A Q stands).results.protocol.inv
      (v.after s (g, hist v)))
    (h' : (Results.trivial S Q).protocol.inv ((forget v).after s g)) :
    forget (v.step s (g, hist v) h) = (forget v).step s g h' := by
  simp only [forget, View.step, Set.image_insert_eq]

/-- A program whose steps do not change what the shared state stands for keeps its specification. -/
theorem lift {R : σ → σ → Prop} (hR : ∀ x calls o s s' g g', R s s' → Q.inv calls (s, g) → Q.frame o
      (s, g) (s', g') →
    stands x (s, g) → stands x (s', g')) {p : Prog σ α} (hp : p.Steps R)
    {B : α → View (Results.trivial S Q).protocol c → Prop}
    (h : wp (Results.trivial S Q).protocol c p B (forget v)) :
    wp (ofRegime A Q stands).results.protocol c p (fun a v' => B a (forget v') ∧
      Tracks v v') v := by
  have hother : ¬ c.Is (.op (c.op + 1)) := Nat.succ_ne_self c.op
  have hgen : ∀ v₁, Tracks v v₁ → wp (Results.trivial S Q).protocol c p B (forget v₁) →
      wp (ofRegime A Q stands).results.protocol c p (fun a v' => B a (forget v') ∧
        Tracks v v') v₁ := by
    clear h
    induction p with
    | ret a => exact fun v₁ ht h => ⟨h, ht⟩
    | act f k ih =>
      intro v₁ ht h v₂ h₂ n ha
      obtain ⟨g, hall, hk⟩ := h (forget v₂) (forget_le h₂) n ha
      have hall' := allows_of v₂ hall fun x hx =>
        hR x _ _ _ _ _ _ (hp.1 n v₂.state) (forget v₂).inv_pair (hall.frame _ hother) hx
      have he : forget (v₂.step _ _ hall'.inv) = (forget v₂).step _ _ hall.inv :=
        forget_step hall'.inv hall.inv
      exact ⟨(g, hist v₂), hall', ih _ (hp.2 _) _ ((ht.trans (.of_le h₂)).trans .step) (he ▸ hk)⟩
    | loop body b k ihb ihk =>
      intro v₁ ht h
      obtain ⟨I, hI, hb⟩ := h
      refine ⟨fun b u => I b (forget u) ∧ Tracks v u, ⟨hI, ht⟩, fun b u hu => ?_⟩
      refine (ihb b (hp.1 b) u hu.2 (hb b _ hu.1)).mono ?_
      rintro (b' | x) u' ⟨hr, hu'⟩
      · exact ⟨hr, hu'⟩
      · exact ihk x (hp.2 x) u' hu' hr
  exact hgen v (.refl v) h

/-! ### A call that has not taken effect -/

/-- The running call has not taken effect. -/
structure Waiting (call : S.Call) (v : View (ofRegime A Q stands).results.protocol c) : Prop where
  call : v.now.1.calls[c.op]? = some call
  undone : Undone v
  marked : ∃ ℓ, (hist v).since c.op = some ℓ

namespace Waiting

variable {v₁ : View (ofRegime A Q stands).results.protocol c} {call : S.Call} {r : S.Ret}

theorem tracks (h : Waiting call v) (h₁ : Tracks v v₁) : Waiting call v₁ := by
  obtain ⟨ℓ, hℓ⟩ := h.marked
  exact ⟨h₁.call h.call, h.undone.tracks h₁, ℓ, h₁.mark.trans hℓ⟩

theorem later (h : Waiting call v) (h₁ : v ≤ v₁) : Waiting call v₁ := h.tracks (.of_le h₁)

/-- A call that changes nothing, whatever the state is. -/
theorem recalls (h : Waiting call v) (hs : ∀ x, A.step x call r x) : Recalls v call r :=
  .of_since (.refl v) h.undone h.marked (hs _)

/-- The load in which the call takes effect and changes nothing. -/
theorem reads (h : Waiting call v) (hs : ∀ x, stands x (now v) → A.step x call r x) : ∃ g,
    ∃ hall : (ofRegime A Q stands).results.protocol.Allows c v.now (v.after v.state g),
      Done (v.step _ g hall.inv) r := by
  obtain ⟨x, hall⟩ := commits_of v (g := (now v).2) (wp.allows_self _) h.undone h.call fun x hx =>
    ⟨x, hs x hx, hx⟩
  exact ⟨_, hall, done_append hall⟩

end Waiting

end Lift

end Model

/-! ### Runs that stay in a part of the states -/

/-- The regime of the runs in which all states are in `I`. -/
def Regime.within {C σ Γ : Type} (Q : Regime C σ Γ) (I : σ → Prop) : Regime C σ Γ where
  inv calls s := Q.inv calls s ∧ I s.1
  frame := Q.frame
  fresh := Q.fresh
  assume s s' := Q.assume s s' ∧ I s'
  refl := Q.refl
  trans := Q.trans
  inv_call calls call s h := ⟨Q.inv_call calls call s h.1, h.2⟩
  fresh_later := Q.fresh_later

namespace View

variable {σ L Γ α : Type} {S : Service σ L} {Q : Regime S.Call σ Γ} {I : σ → Prop} {c : Caller}

/-- What is known in such a run is known in any. -/
def widen (v : View (Results.trivial S (Q.within I)).protocol c) :
    View (Results.trivial S Q).protocol c where
  seen := v.seen
  now := v.now
  mem := v.mem
  inv w hw := ⟨(v.inv w hw).1.1, (v.inv w hw).2⟩
  live := v.live

variable {v v₁ : View (Results.trivial S (Q.within I)).protocol c}

theorem widen_le (h : v ≤ v₁) : widen v ≤ widen v₁ := ⟨h.1, h.2.evolves, h.2.frame⟩

/-- A step that is allowed in any run is allowed if it leads to `I`. -/
theorem allows_within (v : View (Results.trivial S (Q.within I)).protocol c) {s : σ} {g : Γ}
    (h : (Results.trivial S Q).protocol.Allows c (widen v).now ((widen v).after s g)) (hs : I s) :
    (Results.trivial S (Q.within I)).protocol.Allows c v.now (v.after s g) :=
  ⟨⟨⟨h.inv.1, hs⟩, h.inv.2⟩, h.frame⟩

/-- A program keeps its specification. -/
theorem within {p : Prog σ α} {B : α → View (Results.trivial S Q).protocol c → Prop}
    (h : wp (Results.trivial S Q).protocol c p B (widen v)) :
    wp (Results.trivial S (Q.within I)).protocol c p (fun a v' => B a (widen v')) v := by
  have hgen : ∀ v₁, wp (Results.trivial S Q).protocol c p B (widen v₁) →
      wp (Results.trivial S (Q.within I)).protocol c p (fun a v' => B a (widen v')) v₁ := by
    clear h
    induction p with
    | ret a => exact fun v₁ h => h
    | act f k ih =>
      intro v₁ h v₂ h₂ n ha
      obtain ⟨g, hall, hk⟩ := h (widen v₂) (widen_le h₂) n ha.1
      exact ⟨g, allows_within v₂ hall ha.2, ih _ _ hk⟩
    | loop body b k ihb ihk =>
      intro v₁ h
      obtain ⟨J, hJ, hb⟩ := h
      refine ⟨fun b u => J b (widen u), hJ, fun b u hu => ?_⟩
      refine (ihb b u (hb b _ hu)).mono ?_
      rintro (b' | x) u' hr
      · exact hr
      · exact ihk x u' hr
  exact hgen v h

end View

end AtomicProg
