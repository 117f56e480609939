import SemanticRelaxation.Dcbo.DoubleCollect

/-!
# What a dequeue returns

The answer of a d-CBO dequeue is the answer of the last partial dequeue it has made: nothing is lost
on the way through the double collect. This holds without regard to versions, and for any number of
sub-queues.
-/

namespace Dcbo

open AtomicProg

variable {σ H L Γ : Type} {S : Service σ L}

/-- What is asked of a partial queue: `answer r` is what a dequeue knows that has got `r`, where
`answer EMPTY` holds as long as it has got nothing. -/
structure Answers (P : Protocol S Γ) (c : Caller) (B : Partial σ H) (width : ℕ) where
  answer : ℤ → View P c → Prop
  stable : ∀ r, Stable (answer r)
  deqCount : ∀ j < width, ReadOnly P c (B.deqCount j)
  tailVersion : ∀ j < width, ReadOnly P c (B.tailVersion j)
  dequeue : ∀ j < width, ∀ v, answer EMPTY v → wp P c (B.dequeue c j) answer v

namespace Answers

variable {P : Protocol S Γ} {c : Caller} {B : Partial σ H} {set : Params}
  (A : Answers P c B set.width) {v : View P c}

theorem collect_spec (hw : 0 < set.width) (start n i : ℕ) {counts : ℕ → ℕ} (ha : A.answer EMPTY v) :
    wp P c (Dcbo.collect B set c start n i counts) (fun r v' => Sum.elim
      (fun _ => A.answer EMPTY v') (fun x => A.answer x v') r) v := by
  induction n generalizing i counts v with
  | zero => exact ha
  | succ n ih =>
    have hi := indexAt_lt hw start i
    refine wp.bind_of (A := fun y v' => A.answer y.2 v') ?_ ?_
    · refine wp.bind (A.tailVersion _ hi v _ fun x v₁ h₁ => ?_)
      exact wp.bind_of (A.dequeue _ hi v₁ (A.stable _ _ _ h₁ ha)) fun r v₂ h₂ => h₂
    · rintro ⟨version, r⟩ v₁ hr
      dsimp only
      split
      next => exact hr
      next heq =>
        obtain rfl : r = EMPTY := not_not.1 heq
        exact ih (i + 1) hr

theorem recheck_readOnly (hw : 0 < set.width) (start n i : ℕ) (counts : ℕ → ℕ)
    (ht : ∀ j < set.width, ReadOnly P c (B.tailVersion j)) :
    ReadOnly P c (recheck B set start counts n i) := by
  induction n generalizing i with
  | zero => exact .ret _
  | succ n ih =>
    refine (ht _ (indexAt_lt hw start i)).bind fun version => ?_
    split
    next => exact .ret _
    next => exact ih (i + 1)

theorem doubleCollect_spec (hw : 0 < set.width) (start : ℕ) (ha : A.answer EMPTY v) :
    wp P c (doubleCollect B set c start) A.answer v := by
  refine wp.forever (fun _ v' => A.answer EMPTY v') ha fun i v₁ ha₁ => ?_
  refine wp.bind_of (A.collect_spec hw i set.width 0 ha₁) ?_
  rintro (counts | x) v₂ h₂
  · refine wp.bind (recheck_readOnly hw i set.width 0 counts A.tailVersion v₂ _ fun r v₃ h₃ => ?_)
    have h₃ := A.stable EMPTY _ _ h₃ h₂
    cases r with
    | none => exact h₃
    | some k => exact h₃
  · exact h₂

/-- A dequeue answers what its partial dequeue has got. -/
theorem dequeue_spec (hw : 0 < set.width) (ha : A.answer EMPTY v) :
    wp P c (Dcbo.dequeue B set c) A.answer v := by
  have hread : ∀ j < set.width, ReadOnly P c (deqHeuristic B j) := fun j hj =>
    (A.deqCount j hj).bind fun _ => .ret _
  refine wp.bind (randomIndex_spec hw fun i v₁ h₁ hi => ?_)
  refine wp.bind (hread i hi v₁ _ fun x v₂ h₂ => ?_)
  refine wp.bind (chooseIndex_spec hw hread _ hi fun k v₃ h₃ hk => ?_)
  have h := h₁.trans (h₂.trans h₃)
  refine wp.bind_of (A.dequeue k hk v₃ (A.stable EMPTY _ _ h ha)) fun r v₄ hr => ?_
  split
  next => exact hr
  next heq =>
    obtain rfl : r = EMPTY := not_not.1 heq
    exact A.doubleCollect_spec hw _ hr

end Answers

end Dcbo
