import SemanticRelaxation.Prog.Annotated

/-!
# The values that a part of the shared state takes

`Visits ok f s₀ l₀ bs P`: moves lead to the pool `P`, and `bs` lists the values that `f` had in the
shared states on the way, the latest one first, with one entry for each change.

* `Visits.annotated`: threads that run annotated code visit the same values;
* `Implements.visits`: a list in the ghost state that follows the values is the list of the values.
-/

namespace AtomicProg

variable {σ τ L Γ β : Type} [DecidableEq β]

/-- All calls of the moves pass a check. -/
def Move.allow {S : Service σ L} (valid : S.Call → Bool) (ms : List (Move S)) : Bool :=
  ms.all fun m => match m with
    | .invoke _ c => valid c
    | .step _ _ => true

theorem Move.valid_of_allow {S : Service σ L} {valid : S.Call → Bool} {ms : List (Move S)}
    (h : allow valid ms = true) {t : ℕ} {c : S.Call} (hm : .invoke t c ∈ ms) : valid c = true :=
  List.all_eq_true.1 h _ hm

/-- The list of the values after the value `b` was seen. -/
def visit (bs : List β) (b : β) : List β := if bs.head? = some b then bs else b :: bs

/-- The pools that moves in any order reach, with the values that `f` has taken. -/
inductive Visits {S : Service σ L} (ok : S.Call → World S → Prop) (f : σ → β) (s₀ : σ) (l₀ : L) :
    List β → Pool S → Prop
  | init : Visits ok f s₀ l₀ [f s₀] (.init S s₀ l₀)
  | move {bs : List β} {P P' : Pool S} {m : Move S} (h : Visits ok f s₀ l₀ bs P)
      (hok : ∀ t c, m = .invoke t c → ok c P.world) (hm : P.move m = some P') :
      Visits ok f s₀ l₀ (visit bs (f P'.world.shared)) P'

namespace Visits

variable {S : Service σ L} {ok : S.Call → World S → Prop} {f : σ → β} {s₀ : σ} {l₀ : L}
  {bs : List β} {P : Pool S}

theorem reach (h : Visits ok f s₀ l₀ bs P) : Reach ok (fun _ _ => True) s₀ l₀ P := by
  induction h with
  | init => exact .init
  | @move _ _ _ m _ hok hm ih =>
    cases m with
    | invoke t c => exact .invoke t c ih (hok t c rfl) hm
    | step t n => exact .step t n ih hm True.intro

/-- The list of the values of a run that was computed. -/
def record (f : σ → β) : List (Move S) → List β → Pool S → Option (List β × Pool S)
  | [], bs, P => some (bs, P)
  | m :: ms, bs, P => (P.move m).bind fun P' => record f ms (visit bs (f P'.world.shared)) P'

theorem of_record {ms : List (Move S)} {bs' : List β} {P' : Pool S}
    (h : record f ms bs P = some (bs', P')) (hok : ∀ t c, Move.invoke t c ∈ ms → ∀ w, ok c w)
    (hv : Visits ok f s₀ l₀ bs P) : Visits ok f s₀ l₀ bs' P' := by
  induction ms generalizing bs P with
  | nil =>
    obtain ⟨rfl, rfl⟩ := Prod.mk.inj (Option.some.inj h)
    exact hv
  | cons m ms ih =>
    obtain ⟨P₁, h₁, h₂⟩ := Option.bind_eq_some_iff.1 h
    refine ih h₂ (fun t c hm => hok t c (List.mem_cons_of_mem _ hm)) (hv.move ?_ h₁)
    rintro t c rfl
    exact hok t c (List.mem_cons_self ..) _

end Visits

/-- Threads that run annotated code visit the same values. -/
theorem Visits.annotated {Call Ret : Type} {code : Caller → Call → L → Prog (σ × τ) (L × Ret)}
    {code' : Caller → Call → L → Prog σ (L × Ret)}
    (hcode : ∀ c call l, (code c call l).Annotates (code' c call l)) {ok : Call → Prop} {f : σ → β}
    {s₀ : σ} (t₀ : τ) {l₀ : L} {bs : List β} {P' : Pool ⟨Call, Ret, code'⟩}
    (h : Visits (S := ⟨Call, Ret, code'⟩) (fun call _ => ok call) f s₀ l₀ bs P') :
    ∃ P : Pool ⟨Call, Ret, code⟩, P.Annotates id P' ∧
      Visits (fun call _ => ok call) (fun x : σ × τ => f x.1) (s₀, t₀) l₀ bs P := by
  induction h with
  | init => exact ⟨_, .init id s₀ t₀ l₀, .init⟩
  | @move bs P Q m _ hok hm ih =>
    obtain ⟨P₁, ha, hv⟩ := ih
    obtain ⟨Q₁, hq, ha'⟩ := ha.move (fun c call l => (hcode c call l).by_id) hm
    refine ⟨Q₁, ha', ?_⟩
    rw [← ha'.world.shared]
    refine hv.move (fun t c hc => ?_) hq
    cases m with
    | invoke t' c' =>
      obtain ⟨rfl, rfl⟩ := Move.invoke.inj hc
      exact hok _ _ rfl
    | step => cases hc

variable {S : Service σ L} {G : Protocol S Γ} {ok : S.Call → World S → Prop}
  {loc : ℕ → L → World S × Γ → Prop} {post : ∀ c : Caller, S.Call → L × S.Ret → View G c → Prop}
  {f : σ → β} {s₀ : σ} {l₀ : L} {bs : List β} {P : Pool S}

/-- A list that is read off the states and is extended with each new value of `f` lists the values
of `f`. -/
theorem Implements.visits (h : Implements G ok loc post s₀ l₀) (log : World S × Γ → List β)
    (ha : ∀ s s', G.assume s s')
    {R : σ → σ → Prop} (hcode : ∀ c call l, (S.code c call l).Steps R) (hr : ∀ s, R s s)
    (hinit : ∀ g, G.inv (.init S s₀, g) → log (.init S s₀, g) = [f s₀])
    (hlog : ∀ o w w', G.inv w → G.inv w' → G.frame (.op o) w w' → R w.1.shared w'.1.shared →
      log w' = visit (log w) (f w'.1.shared))
    (hv : Visits ok f s₀ l₀ bs P) : ∃ g, P.Good G loc post g ∧ log (P.world, g) = bs := by
  induction hv with
  | init =>
    obtain ⟨g, hg⟩ := h.good_init
    exact ⟨g, hg, hinit g hg.inv⟩
  | @move bs P P' m hv hok hm ih =>
    obtain ⟨g, hg, rfl⟩ := ih
    have hstep := hv.reach.move_steps hcode hr hm
    have hgood : ∃ g', P'.Good G loc post g' ∧ P.Framed G g P' g' := by
      cases m with
      | invoke t c => exact h.good_call hg (hok t c rfl) hm
      | step t n => exact h.good_step hg hm (ha _ _)
    obtain ⟨g', hg', hf⟩ := hgood
    exact ⟨g', hg', hlog _ _ _ hg.inv hg'.inv (hf _ (Nat.lt_succ_self _)) hstep⟩

end AtomicProg
