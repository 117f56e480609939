import SemanticRelaxation.StackKSegment.Stack
import SemanticRelaxation.Prog.Rely

/-!
# The segments of the k-segment stack

* `Linked s n`: the segment is reached from the head; `Published s n`: it has been reached from it;
* `SegInv s`: the counter of a linked segment is the number of the pops that have incremented it,
  less the number of those that have left it as the last segment; a segment that has been removed
  keeps one increment for ever;
* `SegKept o s s'`: what the steps of the others keep for the owner `o`;
* `SegInv.create`, `SegInv.push`, `SegInv.pop`, `SegInv.mark`, `SegInv.unmark`, `SegInv.leave`: the
  steps.
-/

namespace StackKSegment

open AtomicProg Relation

variable {s s' s'' : Segments} {n m k op : ℕ} {o : Owner} {head : Head}

/-- The link from one segment to the next. -/
def Link (s : Segments) (a b : ℕ) : Prop := (s.heap a).next = some b

/-- The segment is reached from the head. -/
def Linked (s : Segments) (n : ℕ) : Prop := ReflTransGen (Link s) s.head.segment n

/-- The segment is reached from the head, or has been removed. -/
def Published (s : Segments) (n : ℕ) : Prop := Linked s n ∨ n ∈ s.retired

/-- The invariant of the segments. -/
structure SegInv (s : Segments) : Prop where
  notNull : s.null = false
  order : ∀ n m, Link s n m → m < n
  head_lt : s.head.segment < s.fresh
  linked : ∀ n, Linked s n → (s.heap n).remove = (s.marks n).length - s.leaves n
  retired : ∀ n ∈ s.retired, ¬ Linked s n ∧ n < s.fresh ∧ (s.heap n).next ≠ none ∧
    (s.heap n).remove = (s.marks n).length + 1
  marked : ∀ n, s.marks n ≠ [] → (s.heap n).next ≠ none ∧ Published s n
  nodup : ∀ n, (s.marks n).Nodup
  leaves : ∀ n, s.leaves n ≠ 0 → (s.heap n).next = none ∧ Linked s n

/-- The segment is allocated and has never been linked. -/
structure Private (s : Segments) (n : ℕ) : Prop where
  lt_fresh : n < s.fresh
  notPublished : ¬ Published s n
  remove : (s.heap n).remove = 0

/-! ### Reachability -/

/-- Links of reached segments that stay make the same segments reached. -/
theorem linked_of_links (hhead : s'.head.segment = s.head.segment)
    (hnext : ∀ n, Linked s n → (s'.heap n).next = (s.heap n).next) (h : Linked s n) :
    Linked s' n := by
  induction h with
  | refl =>
    unfold Linked
    rw [hhead]
  | tail hab hbc ih => exact ih.tail ((hnext _ hab).trans hbc)

theorem linked_iff (hhead : s'.head.segment = s.head.segment)
    (hnext : ∀ n, (s'.heap n).next = (s.heap n).next) : Linked s' n ↔ Linked s n :=
  ⟨linked_of_links hhead.symm fun n _ => (hnext n).symm, linked_of_links hhead fun n _ => hnext n⟩

namespace SegInv

variable (h : SegInv s)
include h

theorem linked_le (hn : Linked s n) : n ≤ s.head.segment := by
  induction hn with
  | refl => exact le_rfl
  | tail _ hbc ih => exact (h.order _ _ hbc).le.trans ih

theorem lt_fresh (hn : Published s n) : n < s.fresh := by
  rcases hn with hn | hn
  · exact (h.linked_le hn).trans_lt h.head_lt
  · exact (h.retired n hn).2.1

/-- A private segment has no announcements. -/
theorem marks_private (hn : Private s n) : s.marks n = [] ∧ s.leaves n = 0 := by
  constructor
  · by_contra hne
    exact hn.notPublished (h.marked n hne).2
  · by_contra hne
    exact hn.notPublished (.inl (h.leaves n hne).2)

/-- While a removal is announced the counter is positive. -/
theorem remove_pos (hop : op ∈ s.marks n) : 0 < (s.heap n).remove := by
  obtain ⟨hnext, hpub⟩ := h.marked n (List.ne_nil_of_mem hop)
  have hlen := List.length_pos_of_mem hop
  rcases hpub with hl | hr
  · have hleave : s.leaves n = 0 := by
      by_contra hne
      exact hnext (h.leaves n hne).1
    rw [h.linked n hl, hleave]
    omega
  · rw [(h.retired n hr).2.2.2]
    omega

/-- A segment without announcements is linked, or has not been published. -/
theorem linked_of_remove (hpub : Published s n) (hzero : (s.heap n).remove = 0) : Linked s n := by
  refine hpub.resolve_right fun hr => ?_
  have := (h.retired n hr).2.2.2
  omega

end SegInv

theorem SegInv.init : SegInv initial.segs where
  notNull := rfl
  order _ _ h := by cases h
  head_lt := Nat.one_pos
  linked _ _ := rfl
  retired _ h := absurd h List.not_mem_nil
  marked _ h := absurd rfl h
  nodup _ := List.nodup_nil
  leaves _ h := absurd rfl h

/-! ### What the steps of the others keep -/

/-- What the steps of the others keep for the owner `o`. -/
structure SegKept (o : Owner) (s s' : Segments) : Prop where
  fresh : s.fresh ≤ s'.fresh
  next : ∀ n < s.fresh, (s'.heap n).next = (s.heap n).next
  maker : ∀ n < s.fresh, s'.maker n = s.maker n
  published : ∀ n, Published s n → Published s' n
  own : ∀ a, o = .op a → ∀ n, s.maker n = a → Private s n → Private s' n
  marks : ∀ a, o = .op a → ∀ n, a ∈ s'.marks n ↔ a ∈ s.marks n

theorem SegKept.refl (o : Owner) (s : Segments) : SegKept o s s where
  fresh := le_rfl
  next _ _ := rfl
  maker _ _ := rfl
  published _ h := h
  own _ _ _ _ h := h
  marks _ _ _ := Iff.rfl

theorem SegKept.trans (h : SegKept o s s') (h' : SegKept o s' s'') : SegKept o s s'' where
  fresh := h.fresh.trans h'.fresh
  next n hn := (h'.next n (hn.trans_le h.fresh)).trans (h.next n hn)
  maker n hn := (h'.maker n (hn.trans_le h.fresh)).trans (h.maker n hn)
  published n hn := h'.published n (h.published n hn)
  own a ho n hm hn := h'.own a ho n ((h.maker n hn.lt_fresh).trans hm) (h.own a ho n hm hn)
  marks a ho n := (h'.marks a ho n).trans (h.marks a ho n)

/-! ### Steps on the list of segments -/

section Create

theorem Segments.create_self : (s.create op n).heap s.fresh = ⟨some n, 0⟩ := Function.update_self ..

theorem Segments.create_of_ne (hk : k ≠ s.fresh) : (s.create op n).heap k = s.heap k :=
  Function.update_of_ne hk _ _

variable (h : SegInv s)
include h

theorem linked_create : Linked (s.create op n) k ↔ Linked s k := by
  have hle : ∀ j, Linked s j → j ≠ s.fresh := fun j hj => (h.lt_fresh (.inl hj)).ne
  constructor
  · intro hk
    induction hk with
    | refl => exact .refl
    | @tail a b hab hbc ih =>
      refine ih.tail ?_
      have hbc : ((s.create op n).heap a).next = some b := hbc
      rwa [Segments.create_of_ne (hle _ ih)] at hbc
  · exact linked_of_links rfl fun j hj => by rw [Segments.create_of_ne (hle j hj)]

theorem published_create : Published (s.create op n) k ↔ Published s k :=
  or_congr (linked_create h) Iff.rfl

theorem SegInv.create (hn : n < s.fresh) : SegInv (s.create op n) := by
  have hheap : ∀ k, Published s k → (s.create op n).heap k = s.heap k := fun k hk =>
    Segments.create_of_ne (h.lt_fresh hk).ne
  refine ⟨h.notNull, fun a b hab => ?_, h.head_lt.trans (Nat.lt_succ_self _), fun k hk => ?_,
    fun k hk => ?_, fun k hk => ?_, h.nodup, fun k hk => ?_⟩
  · have hab : ((s.create op n).heap a).next = some b := hab
    by_cases ha : a = s.fresh
    · subst ha
      rw [Segments.create_self] at hab
      exact Option.some.inj hab ▸ hn
    · rw [Segments.create_of_ne ha] at hab
      exact h.order a b hab
  · have hk := (linked_create h).1 hk
    rw [hheap k (.inl hk)]
    exact h.linked k hk
  · obtain ⟨h₁, h₂, h₃⟩ := h.retired k hk
    rw [hheap k (.inr hk)]
    exact ⟨fun hl => h₁ ((linked_create h).1 hl), h₂.trans (Nat.lt_succ_self _), h₃⟩
  · obtain ⟨h₁, h₂⟩ := h.marked k hk
    rw [hheap k h₂]
    exact ⟨h₁, (published_create h).2 h₂⟩
  · obtain ⟨h₁, h₂⟩ := h.leaves k hk
    rw [hheap k (.inl h₂)]
    exact ⟨h₁, (linked_create h).2 h₂⟩

theorem SegKept.create : SegKept o s (s.create op n) where
  fresh := Nat.le_succ _
  next k hk := by rw [Segments.create_of_ne hk.ne]
  maker k hk := Function.update_of_ne hk.ne _ _
  published k hk := (published_create h).2 hk
  own _ _ k _ hk := by
    refine ⟨hk.lt_fresh.trans (Nat.lt_succ_self _),
      fun hp => hk.notPublished ((published_create h).1 hp), ?_⟩
    rw [Segments.create_of_ne hk.lt_fresh.ne]
    exact hk.remove
  marks _ _ _ := Iff.rfl

/-- The new segment belongs to the call. -/
theorem private_create : Private (s.create op n) s.fresh ∧ (s.create op n).maker s.fresh = op ∧
    ((s.create op n).heap s.fresh).next = some n := by
  rw [Segments.create_self]
  refine ⟨⟨Nat.lt_succ_self _, fun hp => ?_, ?_⟩, Function.update_self .., rfl⟩
  · exact lt_irrefl _ (h.lt_fresh ((published_create h).1 hp))
  · rw [Segments.create_self]

end Create

section Push

variable (hn : Private s head.segment) (hnext : (s.heap head.segment).next = some s.head.segment)
include hnext

theorem linked_push : Linked (s.push head) k ↔ k = head.segment ∨ Linked s k := by
  constructor
  · intro hk
    rcases ReflTransGen.cases_head hk with rfl | ⟨c, hc, hck⟩
    · exact .inl rfl
    · have hc : (s.heap head.segment).next = some c := hc
      obtain rfl : s.head.segment = c := Option.some.inj (hnext.symm.trans hc)
      exact .inr hck
  · rintro (rfl | hk)
    · exact .refl
    · exact .head hnext hk

theorem SegInv.push (h : SegInv s) (hn : Private s head.segment) : SegInv (s.push head) := by
  obtain ⟨hmarks, hleaves⟩ := h.marks_private hn
  refine ⟨h.notNull, h.order, hn.lt_fresh, fun k hk => ?_, fun k hk => ?_, fun k hk => ?_, h.nodup,
    fun k hk => ?_⟩
  · rcases (linked_push hnext).1 hk with rfl | hk
    · show (s.heap head.segment).remove = (s.marks head.segment).length - s.leaves head.segment
      rw [hn.remove, hmarks, hleaves]
      rfl
    · exact h.linked k hk
  · obtain ⟨h₁, h₂⟩ := h.retired k hk
    refine ⟨fun hl => ?_, h₂⟩
    rcases (linked_push hnext).1 hl with rfl | hl
    · exact hn.notPublished (.inr hk)
    · exact h₁ hl
  · obtain ⟨h₁, h₂⟩ := h.marked k hk
    exact ⟨h₁, h₂.imp_left fun hl => (linked_push hnext).2 (.inr hl)⟩
  · obtain ⟨h₁, h₂⟩ := h.leaves k hk
    exact ⟨h₁, (linked_push hnext).2 (.inr h₂)⟩

theorem SegKept.push (ho : o ≠ .op (s.maker head.segment)) : SegKept o s (s.push head) where
  fresh := le_rfl
  next _ _ := rfl
  maker _ _ := rfl
  published k hk := hk.imp_left fun hl => (linked_push hnext).2 (.inr hl)
  own a ha k hm hk := by
    refine ⟨hk.lt_fresh, fun hp => ?_, hk.remove⟩
    rcases hp with hl | hr
    · rcases (linked_push hnext).1 hl with rfl | hl
      · exact ho (hm ▸ ha)
      · exact hk.notPublished (.inl hl)
    · exact hk.notPublished (.inr hr)
  marks _ _ _ := Iff.rfl

end Push

section Pop

variable (hnext : (s.heap s.head.segment).next = some head.segment)
include hnext

theorem linked_pop (h : SegInv s) :
    Linked (s.pop op head) k ↔ Linked s k ∧ k ≠ s.head.segment := by
  have hlt := h.order _ _ hnext
  constructor
  · intro hk
    have hk' : Linked s k := .head hnext hk
    refine ⟨hk', fun e => ?_⟩
    have hle : k ≤ head.segment := by
      clear e hk'
      induction hk with
      | refl => exact le_rfl
      | tail _ hbc ih => exact (h.order _ _ hbc).le.trans ih
    omega
  · rintro ⟨hk, hne⟩
    rcases ReflTransGen.cases_head hk with rfl | ⟨c, hc, hck⟩
    · exact absurd rfl hne
    · have hc : (s.heap s.head.segment).next = some c := hc
      obtain rfl : head.segment = c := Option.some.inj (hnext.symm.trans hc)
      exact hck

theorem published_pop (h : SegInv s) : Published (s.pop op head) k ↔ Published s k := by
  have hr : k ∈ (s.pop op head).retired ↔ k = s.head.segment ∨ k ∈ s.retired := List.mem_cons
  unfold Published
  rw [linked_pop hnext h, hr]
  by_cases hk : k = s.head.segment
  · subst hk
    exact ⟨fun _ => .inl .refl, fun _ => .inr (.inl rfl)⟩
  · tauto

omit hnext in
theorem Segments.pop_marks (hk : k ≠ s.head.segment) : (s.pop op head).marks k = s.marks k :=
  Function.update_of_ne hk _ _

omit hnext in
theorem Segments.pop_marks_self :
    (s.pop op head).marks s.head.segment = (s.marks s.head.segment).erase op :=
  Function.update_self ..

theorem SegInv.pop (h : SegInv s) (hop : op ∈ s.marks s.head.segment) : SegInv (s.pop op head) := by
  refine ⟨h.notNull, h.order, (h.order _ _ hnext).trans h.head_lt, fun k hk => ?_, fun k hk => ?_,
    fun k hk => ?_, fun k => ?_, fun k hk => ?_⟩
  · obtain ⟨hk, hne⟩ := (linked_pop hnext h).1 hk
    rw [Segments.pop_marks hne]
    exact h.linked k hk
  · have hnl : ¬ Linked (s.pop op head) k := fun hl => by
      obtain ⟨hl, hne⟩ := (linked_pop hnext h).1 hl
      rcases List.mem_cons.1 hk with rfl | hk
      · exact hne rfl
      · exact (h.retired k hk).1 hl
    refine ⟨hnl, ?_⟩
    by_cases hne : k = s.head.segment
    · subst hne
      have hlen := List.length_pos_of_mem hop
      have hleave : s.leaves s.head.segment = 0 := by
        by_contra hs
        exact absurd (hnext.symm.trans (h.leaves _ hs).1) nofun
      refine ⟨h.head_lt, fun e => absurd (hnext.symm.trans e) nofun, ?_⟩
      have hlinked := h.linked s.head.segment .refl
      rw [hleave] at hlinked
      show (s.heap s.head.segment).remove = _
      rw [Segments.pop_marks_self, List.length_erase_of_mem hop, hlinked]
      omega
    · rw [Segments.pop_marks hne]
      exact (h.retired k ((List.mem_cons.1 hk).resolve_left hne)).2
  · by_cases hne : k = s.head.segment
    · subst hne
      exact ⟨fun e => absurd (hnext.symm.trans e) nofun, (published_pop hnext h).2 (.inl .refl)⟩
    · rw [Segments.pop_marks hne] at hk
      exact ⟨(h.marked k hk).1, (published_pop hnext h).2 (h.marked k hk).2⟩
  · by_cases hne : k = s.head.segment
    · subst hne
      rw [Segments.pop_marks_self]
      exact (h.nodup _).erase op
    · rw [Segments.pop_marks hne]
      exact h.nodup k
  · obtain ⟨h₁, h₂⟩ := h.leaves k hk
    refine ⟨h₁, (linked_pop hnext h).2 ⟨h₂, ?_⟩⟩
    rintro rfl
    exact absurd (hnext.symm.trans h₁) nofun

theorem SegKept.pop (h : SegInv s) (ho : o ≠ .op op) : SegKept o s (s.pop op head) where
  fresh := le_rfl
  next _ _ := rfl
  maker _ _ := rfl
  published k hk := (published_pop hnext h).2 hk
  own _ _ k _ hk := ⟨hk.lt_fresh, fun hp => hk.notPublished ((published_pop hnext h).1 hp),
    hk.remove⟩
  marks a ha k := by
    by_cases hne : k = s.head.segment
    · subst hne
      rw [Segments.pop_marks_self]
      exact List.mem_erase_of_ne fun e => ho (e ▸ ha)
    · rw [Segments.pop_marks hne]

end Pop

/-! ### Steps on a counter -/

section Counter

variable {r : ℤ}

theorem Segments.setRemove_next : ((s.setRemove n r).heap k).next = (s.heap k).next := by
  show (Function.update s.heap n _ k).next = _
  by_cases hk : k = n
  · subst hk
    rw [Function.update_self]
  · rw [Function.update_of_ne hk]

theorem Segments.setRemove_self : ((s.setRemove n r).heap n).remove = r := by
  show (Function.update s.heap n _ n).remove = _
  rw [Function.update_self]

theorem Segments.setRemove_of_ne (hk : k ≠ n) : (s.setRemove n r).heap k = s.heap k :=
  Function.update_of_ne hk _ _

/-- The counter of `n` is changed, with its announcements or the number of those that have left it.
-/
def Segments.count (s : Segments) (n : ℕ) (r : ℤ) (l : List ℕ) (e : ℕ) : Segments :=
  { s.setRemove n r with
    marks := Function.update s.marks n l
    leaves := Function.update s.leaves n e }

variable {l : List ℕ} {e : ℕ}

theorem Segments.mark_eq :
    s.mark op n = s.count n ((s.heap n).remove + 1) (op :: s.marks n) (s.leaves n) := by
  simp only [Segments.mark, Segments.count, Segments.setRemove, Function.update_eq_self]

theorem Segments.unmark_eq :
    s.unmark op n = s.count n ((s.heap n).remove - 1) ((s.marks n).erase op) (s.leaves n) := by
  simp only [Segments.unmark, Segments.count, Segments.setRemove, Function.update_eq_self]

theorem Segments.leave_eq (hop : op ∉ s.marks n) :
    s.leave op n = s.count n ((s.heap n).remove - 1) (s.marks n) (s.leaves n + 1) := by
  simp only [Segments.leave, Segments.unmark, Segments.count, Segments.setRemove,
    List.erase_of_not_mem hop]

theorem Segments.count_marks : (s.count n r (s.marks n) e).marks = s.marks :=
  Function.update_eq_self n s.marks

theorem linked_count : Linked (s.count n r l e) k ↔ Linked s k :=
  linked_iff rfl fun _ => Segments.setRemove_next

theorem published_count : Published (s.count n r l e) k ↔ Published s k :=
  or_congr linked_count Iff.rfl

theorem SegInv.count (h : SegInv s) (hpub : Published s n)
    (hr : r - (l.length - e) = (s.heap n).remove - ((s.marks n).length - s.leaves n))
    (hl : l ≠ [] → (s.heap n).next ≠ none) (hnodup : l.Nodup)
    (he : e ≠ s.leaves n → (s.heap n).next = none) : SegInv (s.count n r l e) := by
  have hnext : ∀ k, ((s.count n r l e).heap k).next = (s.heap k).next := fun k =>
    Segments.setRemove_next
  have hleave : (s.heap n).next ≠ none → s.leaves n = 0 := fun hne => by
    by_contra hs
    exact hne (h.leaves n hs).1
  refine ⟨h.notNull, fun a b hab => h.order a b ((hnext a).symm.trans hab), h.head_lt,
    fun k hk => ?_,
    fun k hk => ?_, fun k hk => ?_, fun k => ?_, fun k hk => ?_⟩
  · have hlk := h.linked k (linked_count.1 hk)
    by_cases hkn : k = n
    · subst hkn
      show ((s.setRemove k r).heap k).remove =
        (Function.update s.marks k l k).length - Function.update s.leaves k e k
      rw [Segments.setRemove_self, Function.update_self, Function.update_self]
      omega
    · show ((s.setRemove n r).heap k).remove =
        (Function.update s.marks n l k).length - Function.update s.leaves n e k
      rw [Segments.setRemove_of_ne hkn, Function.update_of_ne hkn, Function.update_of_ne hkn]
      exact hlk
  · obtain ⟨h₁, h₂, h₃, h₄⟩ := h.retired k hk
    refine ⟨fun hl => h₁ (linked_count.1 hl), h₂, (hnext k).trans_ne h₃, ?_⟩
    by_cases hkn : k = n
    · subst hkn
      show ((s.setRemove k r).heap k).remove = (Function.update s.marks k l k).length + 1
      rw [Segments.setRemove_self, Function.update_self]
      have hs := hleave h₃
      have he' : e = s.leaves k := by
        by_contra hne
        exact h₃ (he hne)
      rw [he', hs, h₄] at hr
      omega
    · show ((s.setRemove n r).heap k).remove = (Function.update s.marks n l k).length + 1
      rw [Segments.setRemove_of_ne hkn, Function.update_of_ne hkn]
      exact h₄
  · rw [hnext, published_count]
    have hk : Function.update s.marks n l k ≠ [] := hk
    by_cases hkn : k = n
    · subst hkn
      rw [Function.update_self] at hk
      exact ⟨hl hk, hpub⟩
    · rw [Function.update_of_ne hkn] at hk
      exact h.marked k hk
  · show (Function.update s.marks n l k).Nodup
    by_cases hkn : k = n
    · subst hkn
      rwa [Function.update_self]
    · rw [Function.update_of_ne hkn]
      exact h.nodup k
  · rw [hnext, linked_count]
    have hk : Function.update s.leaves n e k ≠ 0 := hk
    by_cases hkn : k = n
    · subst hkn
      rw [Function.update_self] at hk
      by_cases hes : e = s.leaves k
      · exact h.leaves k (hes ▸ hk)
      · have hnone := he hes
        refine ⟨hnone, hpub.resolve_right fun hr => ?_⟩
        exact (h.retired k hr).2.2.1 hnone
    · rw [Function.update_of_ne hkn] at hk
      exact h.leaves k hk

/-- A pop announces the removal of a segment that is not the last one. -/
theorem SegInv.mark (h : SegInv s) (hpub : Published s n) (hnext : (s.heap n).next ≠ none)
    (hop : op ∉ s.marks n) : SegInv (s.mark op n) := by
  rw [Segments.mark_eq]
  refine h.count hpub ?_ (fun _ => hnext) (List.nodup_cons.2 ⟨hop, h.nodup n⟩) fun e => absurd rfl e
  rw [List.length_cons]
  push_cast
  omega

/-- A pop withdraws its announcement. -/
theorem SegInv.unmark (h : SegInv s) (hop : op ∈ s.marks n) : SegInv (s.unmark op n) := by
  rw [Segments.unmark_eq]
  obtain ⟨hnext, hpub⟩ := h.marked n (List.ne_nil_of_mem hop)
  refine h.count hpub ?_ (fun _ => hnext) ((h.nodup n).erase op) fun e => absurd rfl e
  have := List.length_pos_of_mem hop
  rw [List.length_erase_of_mem hop]
  omega

/-- A pop goes on from the last segment, which it has not announced for removal. -/
theorem SegInv.leave (h : SegInv s) (hpub : Published s n) (hnext : (s.heap n).next = none)
    (hop : op ∉ s.marks n) : SegInv (s.leave op n) := by
  rw [Segments.leave_eq hop]
  refine h.count hpub ?_ (fun hne => (h.marked n hne).1) (h.nodup n) fun _ => hnext
  push_cast
  omega

theorem SegKept.count (h : Published s n) (hl : ∀ a, o = .op a → (a ∈ l ↔ a ∈ s.marks n)) :
    SegKept o s (s.count n r l e) where
  fresh := le_rfl
  next _ _ := Segments.setRemove_next
  maker _ _ := rfl
  published _ hk := published_count.2 hk
  own _ _ k _ hk := by
    refine ⟨hk.lt_fresh, fun hp => hk.notPublished (published_count.1 hp), ?_⟩
    have hkn : k ≠ n := by
      rintro rfl
      exact hk.notPublished h
    show ((s.setRemove n r).heap k).remove = 0
    rw [Segments.setRemove_of_ne hkn]
    exact hk.remove
  marks a ha k := by
    show a ∈ Function.update s.marks n l k ↔ _
    by_cases hkn : k = n
    · subst hkn
      rw [Function.update_self]
      exact hl a ha
    · rw [Function.update_of_ne hkn]

end Counter

end StackKSegment
