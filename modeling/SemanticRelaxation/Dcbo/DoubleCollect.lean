import SemanticRelaxation.Dcbo.BalancedQueue
import SemanticRelaxation.Prog.Regime

/-!
# The double collect

Why an `EMPTY` of `double_collect` is right. The version of the tail of a sub-queue only grows, and
a dequeue that gets nothing knows that the sub-queue is clear unless its version has changed
meanwhile. So at the end of a first loop that has found nothing, every sub-queue is clear or has a
new version; if the second loop finds no version changed, they were all clear at that moment.

* `Emptiness`: what a partial queue has to provide;
* `Emptiness.doubleCollect_spec`, `Emptiness.dequeue_found`: what follows for all interleavings,
  `Emptiness.dequeue_spec`: the same without the moment.

The index arithmetic is in `uint32_t`, so all sub-queues are visited if `width ≤ 2 ^ 31`.
-/

namespace Dcbo

open AtomicProg

variable {σ H L Γ : Type} {S : Service σ L}

/-! ### The indices of a round -/

theorem indexAt_lt {set : Params} (hw : 0 < set.width) (start i : ℕ) :
    indexAt set start i < set.width := Nat.mod_lt _ hw

/-- A round that starts at most at `width` visits all sub-queues. -/
theorem exists_indexAt {set : Params} (hw : set.width ≤ 2 ^ 31) {start j : ℕ}
    (hs : start ≤ set.width) (hj : j < set.width) : ∃ i < set.width, indexAt set start i = j := by
  rcases lt_or_ge j start with h | h
  · refine ⟨j + (set.width - start), by omega, ?_⟩
    have he : (start + (j + (set.width - start))) % 2 ^ 32 = j + set.width := by omega
    rw [indexAt, he, Nat.add_mod_right, Nat.mod_eq_of_lt hj]
  · refine ⟨j - start, by omega, ?_⟩
    have he : (start + (j - start)) % 2 ^ 32 = j := by omega
    rw [indexAt, he, Nat.mod_eq_of_lt hj]

/-! ### Code that only reads -/

variable {P : Protocol S Γ} {c : Caller}

/-- The program changes nothing, and its result does not matter. -/
def ReadOnly (P : Protocol S Γ) (c : Caller) {α : Type} (p : Prog σ α) : Prop :=
  ∀ (v : View P c) (Q : α → View P c → Prop), (∀ a v', v ≤ v' → Q a v') → wp P c p Q v

theorem ReadOnly.bind {α β : Type} {p : Prog σ α} {f : α → Prog σ β} (hp : ReadOnly P c p)
    (hf : ∀ a, ReadOnly P c (f a)) : ReadOnly P c (p >>= f) :=
  fun v _ hQ => wp.bind (hp v _ fun a v₁ h₁ => hf a v₁ _ fun b v₂ h₂ => hQ b v₂ (h₁.trans h₂))

theorem ReadOnly.ret {α : Type} (a : α) : ReadOnly P c (.ret a : Prog σ α) :=
  fun v _ hQ => hQ a v le_rfl

theorem ReadOnly.read {α : Type} (f : σ → α) : ReadOnly P c (Prog.read f) :=
  fun _ Q hQ v₁ h₁ _ _ => wp.same (k := .ret) (show wp P c (.ret (f v₁.state)) Q v₁ from hQ _ v₁ h₁)

/-- An index below the width is drawn. -/
theorem randomIndex_spec {set : Params} (hw : 0 < set.width) {v : View P c}
    {Q : ℕ → View P c → Prop} (hQ : ∀ i v', v ≤ v' → i < set.width → Q i v') :
    wp P c (randomIndex set) Q v :=
  wp.choose fun n v₁ h₁ => hQ _ v₁ h₁ (Nat.mod_lt n hw)

theorem chooseIndex_spec {set : Params} (hw : 0 < set.width) {heuristic : ℕ → Prog σ ℤ}
    (hh : ∀ j < set.width, ReadOnly P c (heuristic j)) (n : ℕ) {i : ℕ} {opt : ℤ} {v : View P c}
    {Q : ℕ → View P c → Prop} (hi : i < set.width)
    (hQ : ∀ i v', v ≤ v' → i < set.width → Q i v') :
    wp P c (chooseIndex set heuristic n i opt) Q v := by
  induction n generalizing i opt v with
  | zero => exact hQ i v le_rfl hi
  | succ n ih =>
    refine wp.bind (randomIndex_spec hw fun k v₁ h₁ hk => ?_)
    refine wp.bind (hh k hk v₁ _ fun x v₂ h₂ => ?_)
    have h₁₂ := h₁.trans h₂
    split
    · exact ih hk fun i v' h' hi' => hQ i v' (h₁₂.trans h') hi'
    · exact ih hi fun i v' h' hi' => hQ i v' (h₁₂.trans h') hi'

/-! ### The argument -/

/-- What the steps of the call itself and of the others may have done. -/
structure Continues (mono : World S × Γ → World S × Γ → Prop) (v v' : View P c) : Prop where
  seen : v.seen ⊆ v'.seen
  mono : mono v.now v'.now

/-- What the double collect needs of a partial queue. `version j` is the version of the tail of the
sub-queue `j`; reading it may take several steps. `answer r` is what a dequeue knows that has got
`r`, where `answer EMPTY` holds as long as it has got nothing. -/
structure Emptiness (P : Protocol S Γ) (c : Caller) (B : Partial σ H) (width : ℕ) where
  mono : World S × Γ → World S × Γ → Prop
  refl : ∀ w, mono w w
  trans : ∀ {w₁ w₂ w₃}, mono w₁ w₂ → mono w₂ w₃ → mono w₁ w₃
  of_le : ∀ {v v' : View P c}, v ≤ v' → mono v.now v'.now
  answer : ℤ → View P c → Prop
  stable : ∀ r, Stable (answer r)
  version : ℕ → World S × Γ → ℕ
  clear : ℕ → World S × Γ → Prop
  version_mono : ∀ j < width, ∀ {w w'}, P.inv w → P.inv w' → mono w w' → version j w ≤ version j w'
  clear_mono : ∀ j < width, ∀ {w w'}, P.inv w → P.inv w' → mono w w' →
    version j w = version j w' → clear j w → clear j w'
  deqCount : ∀ j < width, ReadOnly P c (B.deqCount j)
  tailVersion : ∀ j < width, ∀ v, answer EMPTY v →
    wp P c (B.tailVersion j) (fun y v' => Continues mono v v' ∧ answer EMPTY v' ∧
      version j v.now ≤ y ∧ y ≤ version j v'.now) v
  dequeue : ∀ j < width, ∀ v, answer EMPTY v →
    wp P c (B.dequeue c j) (fun r v' => Continues mono v v' ∧ answer r v' ∧
      (r = EMPTY → version j v.now = version j v'.now → clear j v'.now)) v

namespace Emptiness

variable {B : Partial σ H} {set : Params} (E : Emptiness P c B set.width) {v v₁ v₂ : View P c}

theorem continues_refl : Continues E.mono v v := ⟨subset_rfl, E.refl _⟩

theorem continues_of_le (h : v ≤ v₁) : Continues E.mono v v₁ := ⟨h.1, E.of_le h⟩

theorem continues_trans (h₁ : Continues E.mono v v₁) (h₂ : Continues E.mono v₁ v₂) :
    Continues E.mono v v₂ :=
  ⟨h₁.seen.trans h₂.seen, E.trans h₁.mono h₂.mono⟩

/-- The sub-queue `j` was found empty after its tail had the version `x`. -/
def Emptied (j x : ℕ) (w : World S × Γ) : Prop :=
  x ≤ E.version j w ∧ (E.version j w = x → E.clear j w)

theorem Emptied.later {j x : ℕ} {w w' : World S × Γ} (hj : j < set.width) (hw : P.inv w)
    (hw' : P.inv w') (hm : E.mono w w') (h : E.Emptied j x w) : E.Emptied j x w' := by
  have hle := E.version_mono j hj hw hw' hm
  refine ⟨h.1.trans hle, fun he => ?_⟩
  have hx : E.version j w = x := le_antisymm (hle.trans he.le) h.1
  exact E.clear_mono j hj hw hw' hm (hx.trans he.symm) (h.2 hx)

theorem collectOne_spec {j : ℕ} (hj : j < set.width) (ha : E.answer EMPTY v) :
    wp P c (collectOne B c j) (fun y v' => Continues E.mono v v' ∧ E.answer y.2 v' ∧
      (y.2 = EMPTY → E.Emptied j y.1 v'.now)) v := by
  refine wp.bind_of (E.tailVersion j hj v ha) ?_
  rintro x v₁ ⟨h₁, ha₁, -, hx⟩
  refine wp.bind_of (E.dequeue j hj v₁ ha₁) ?_
  rintro r v₂ ⟨h₂, ha₂, he⟩
  refine ⟨E.continues_trans h₁ h₂, ha₂, fun hr => ?_⟩
  have hle := E.version_mono j hj v₁.inv_now v₂.inv_now h₂.mono
  exact ⟨hx.trans hle, fun hv => he hr (le_antisymm hle (hv.le.trans hx))⟩

/-- The first loop: if it dequeues nothing, every sub-queue it has visited is `Emptied`. -/
theorem collect_spec (hw : 0 < set.width) (start n i : ℕ) {counts : ℕ → ℕ} (ha : E.answer EMPTY v)
    (hc : ∀ k < i, E.Emptied (indexAt set start k) (counts (indexAt set start k)) v.now) :
    wp P c (Dcbo.collect B set c start n i counts) (fun r v' => Continues E.mono v v' ∧
      Sum.elim (fun counts => E.answer EMPTY v' ∧ ∀ k < i + n,
        E.Emptied (indexAt set start k) (counts (indexAt set start k)) v'.now)
        (fun x => x ≠ EMPTY ∧ E.answer x v') r) v := by
  induction n generalizing i counts v with
  | zero => exact ⟨E.continues_refl, ha, hc⟩
  | succ n ih =>
    refine wp.bind_of (E.collectOne_spec (indexAt_lt hw start i) ha) ?_
    rintro ⟨version, r⟩ v₁ ⟨h₁, hr, he⟩
    simp only at hr he ⊢
    split
    next hne => exact ⟨h₁, hne, hr⟩
    next heq =>
      obtain rfl : r = EMPTY := not_not.1 heq
      refine (ih (i + 1) hr fun k hk => ?_).mono ?_
      · by_cases hidx : indexAt set start k = indexAt set start i
        · rw [hidx, Function.update_self]
          exact he rfl
        · rw [Function.update_of_ne hidx]
          have hlt : k < i := by
            refine lt_of_le_of_ne (Nat.lt_succ_iff.1 hk) fun e => hidx ?_
            rw [e]
          exact (hc k hlt).later E (indexAt_lt hw start k) v.inv_now v₁.inv_now h₁.mono
      · rintro r v₂ ⟨h₂, hr⟩
        rw [show i + 1 + n = i + (n + 1) by omega] at hr
        exact ⟨E.continues_trans h₁ h₂, hr⟩

/-- The second loop: if it finds no version changed, every sub-queue it has visited was empty in the
world `w`, where all were `Emptied`. -/
theorem recheck_spec (hw : 0 < set.width) (start n i : ℕ) {counts : ℕ → ℕ} {w : World S × Γ}
    (ha : E.answer EMPTY v) (hm : w ∈ v.seen) (hle : E.mono w v.now)
    (hc : ∀ k < i + n, E.Emptied (indexAt set start k) (counts (indexAt set start k)) w)
    (hd : ∀ k < i, E.clear (indexAt set start k) w) :
    wp P c (recheck B set start counts n i) (fun r v' => Continues E.mono v v' ∧ E.answer EMPTY v' ∧
      r.elim (∀ k < i + n, E.clear (indexAt set start k) w) (· < set.width)) v := by
  induction n generalizing i v with
  | zero => exact ⟨E.continues_refl, ha, hd⟩
  | succ n ih =>
    refine wp.bind_of (E.tailVersion _ (indexAt_lt hw start i) v ha) ?_
    rintro y v₁ ⟨h₁, hr, hy, -⟩
    split
    next => exact ⟨h₁, hr, indexAt_lt hw start i⟩
    next heq =>
      obtain rfl : counts (indexAt set start i) = y := not_not.1 heq
      rw [show i + (n + 1) = i + 1 + n by omega] at hc ⊢
      refine (ih (i + 1) hr (h₁.seen hm) (E.trans hle h₁.mono) hc fun k hk => ?_).mono ?_
      · rcases Nat.lt_succ_iff_lt_or_eq.1 hk with hk | rfl
        · exact hd k hk
        · obtain ⟨hx, hclear⟩ := hc k (by omega)
          have hv := E.version_mono _ (indexAt_lt hw start k) (v.inv w hm) v.inv_now hle
          exact hclear (le_antisymm (hv.trans hy) hx)
      · rintro r v₂ ⟨h₂, hr⟩
        exact ⟨E.continues_trans h₁ h₂, hr⟩

/-- What a dequeue knows at its end: with `EMPTY` it has seen a world in which all sub-queues were
empty. -/
def Answered (r : ℤ) (v : View P c) : Prop :=
  E.answer r v ∧ (r = EMPTY → ∃ w ∈ v.seen, ∀ j < set.width, E.clear j w)

/-- The same, and when the dequeue saw that world: since `v₀`. -/
def Found (v₀ : View P c) (r : ℤ) (v : View P c) : Prop :=
  E.answer r v ∧ (r = EMPTY → ∃ w ∈ v.seen, E.mono v₀.now w ∧ E.mono w v.now ∧ ∀ j < set.width,
    E.clear j w)

theorem Found.of_mono {v₀ : View P c} {r : ℤ} (h₀ : E.mono v₀.now v₁.now) (h : E.Found v₁ r v₂) :
    E.Found v₀ r v₂ := by
  refine ⟨h.1, fun hr => ?_⟩
  obtain ⟨w, hw, h₁, h₂, hc⟩ := h.2 hr
  exact ⟨w, hw, E.trans h₀ h₁, h₂, hc⟩

theorem Found.answered {v₀ : View P c} {r : ℤ} (h : E.Found v₀ r v₁) : E.Answered r v₁ := by
  refine ⟨h.1, fun hr => ?_⟩
  obtain ⟨w, hw, -, -, hc⟩ := h.2 hr
  exact ⟨w, hw, hc⟩

theorem collectRound_spec (hw : 0 < set.width) (hmax : set.width ≤ 2 ^ 31) {start : ℕ}
    (hs : start ≤ set.width) (ha : E.answer EMPTY v) :
    wp P c (collectRound B set c start) (fun r v' => Continues E.mono v v' ∧
      Sum.elim (fun i => i ≤ set.width ∧ E.answer EMPTY v') (fun x => E.Found v x v') r) v := by
  refine wp.bind_of (E.collect_spec hw start set.width 0 ha nofun) ?_
  rintro (counts | x) v₁ ⟨h₁, hr⟩
  · obtain ⟨ha₁, hc⟩ := hr
    refine wp.bind_of (E.recheck_spec hw start set.width 0 ha₁ v₁.mem (E.refl _) hc nofun) ?_
    rintro (_ | i) v₂ ⟨h₂, ha₂, hr⟩
    · refine ⟨E.continues_trans h₁ h₂, ha₂, fun _ => ⟨v₁.now, h₂.seen v₁.mem, h₁.mono, h₂.mono,
        fun j hj => ?_⟩⟩
      obtain ⟨k, hk, rfl⟩ := exists_indexAt hmax hs hj
      exact hr k (by omega)
    · exact ⟨E.continues_trans h₁ h₂, le_of_lt hr, ha₂⟩
  · exact ⟨h₁, hr.2, fun he => absurd he hr.1⟩

theorem doubleCollect_spec (hw : 0 < set.width) (hmax : set.width ≤ 2 ^ 31) {start : ℕ}
    (hs : start ≤ set.width) (ha : E.answer EMPTY v) :
    wp P c (doubleCollect B set c start) (fun r v' => Continues E.mono v v' ∧
      E.Found v r v') v := by
  refine wp.forever (fun i v' => Continues E.mono v v' ∧ i ≤ set.width ∧ E.answer EMPTY v')
    ⟨E.continues_refl, hs, ha⟩ ?_
  rintro i v₁ ⟨h₁, hi, ha₁⟩
  refine (E.collectRound_spec hw hmax hi ha₁).mono ?_
  rintro (i' | x) v₂ ⟨h₂, hr⟩
  · exact ⟨E.continues_trans h₁ h₂, hr⟩
  · exact ⟨E.continues_trans h₁ h₂, hr.of_mono E h₁.mono⟩

/-- A dequeue that answers `EMPTY` has seen all sub-queues empty at once since it began. -/
theorem dequeue_found (hw : 0 < set.width) (hmax : set.width ≤ 2 ^ 31) (ha : E.answer EMPTY v) :
    wp P c (Dcbo.dequeue B set c) (fun r v' => Continues E.mono v v' ∧ E.Found v r v') v := by
  have hread : ∀ j < set.width, ReadOnly P c (deqHeuristic B j) := fun j hj =>
    (E.deqCount j hj).bind fun _ => .ret _
  refine wp.bind (randomIndex_spec hw fun i v₁ h₁ hi => ?_)
  refine wp.bind (hread i hi v₁ _ fun x v₂ h₂ => ?_)
  refine wp.bind (chooseIndex_spec hw hread _ hi fun k v₃ h₃ hk => ?_)
  have h := h₁.trans (h₂.trans h₃)
  refine wp.bind_of (E.dequeue k hk v₃ (E.stable EMPTY _ _ h ha)) ?_
  rintro r v₄ ⟨h₄, hr, -⟩
  replace h₄ := E.continues_trans (E.continues_of_le h) h₄
  split
  next hne => exact ⟨h₄, hr, fun he => absurd he hne⟩
  next heq =>
    obtain rfl : r = EMPTY := not_not.1 heq
    have hk' : (k + 1) % 2 ^ 32 ≤ set.width := (Nat.mod_le _ _).trans hk
    refine (E.doubleCollect_spec hw hmax hk' hr).mono ?_
    rintro x v₅ ⟨h₅, hx⟩
    exact ⟨E.continues_trans h₄ h₅, hx.of_mono E h₄.mono⟩

/-- A dequeue that answers `EMPTY` has seen all sub-queues empty at once. -/
theorem dequeue_spec (hw : 0 < set.width) (hmax : set.width ≤ 2 ^ 31) (ha : E.answer EMPTY v) :
    wp P c (Dcbo.dequeue B set c) (fun r v' => Continues E.mono v v' ∧ E.Answered r v') v :=
  (E.dequeue_found hw hmax ha).mono fun _ _ h => ⟨h.1, h.2.answered E⟩

end Emptiness

end Dcbo
