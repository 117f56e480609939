import SemanticRelaxation.QueueKSegment.Specs
import Mathlib.Data.Finset.Card
import Mathlib.Data.Finset.Range

/-!
# The k-segment queue is k-relaxed and loses nothing

For any interleaving of enqueues and dequeues:

* `HeadPassed`: the head is behind segments only whose slots are full and whose items are deleted;
* `Conserved`: what becomes of the items of the enqueues that have returned;
* `overtaken_le`: of the items that were inserted before a deleted one, those that are still there
  fill at most the other slots of its segment.
-/

namespace QueueKSegment

open AtomicProg Linked Segments

variable {size : ℕ}

/-- The segments in front of the head are full, and their items are deleted. -/
def HeadPassed (size : ℕ) (s : Memory) : Prop :=
  ∀ p n : ℕ, s.line[p]? = some n → p < s.headPos → ∀ i < size, Gone s ⟨n, i⟩

/-- A segment that is reached from the head. -/
def FromHead (s : Memory) (n : ℕ) : Prop := ∃ p, s.headPos ≤ p ∧ s.line[p]? = some n

/-- The item of an enqueue that has returned is in one slot. There it can be reached from the head,
or one dequeue has deleted it. A dequeue that has returned has deleted one such item and returns its
value, or none, and returns 0. -/
structure Conserved (u : World (queueService size)) : Prop where
  kept : ∀ a val r k, u.calls[a]? = some (.insert val) → u.returned a = some (r, k) →
    r = 1 ∧ ∃ y, (∀ z, (z, a) ∈ u.shared.inserts ↔ z = y) ∧ (u.shared.index y).node = some val ∧
      ((u.shared.index y).deleted = false ∧ FromHead u.shared y.seg ∨
        ∃ d, ∀ d', (y, d') ∈ u.shared.deletes ↔ d' = d)
  source : ∀ d r k, u.calls[d]? = some .delete → u.returned d = some (r, k) →
    r = 0 ∧ (∀ y, (y, d) ∉ u.shared.deletes) ∨ ∃ y a, (∀ z, (z, d) ∈ u.shared.deletes ↔ z = y) ∧
      (y, a) ∈ u.shared.inserts ∧ u.calls[a]? = some (.insert r)

/-- The items that completed enqueues of `u₀` have inserted and that are still there in `u`. -/
def overtaken (u₀ u : World (queueService size)) : List (Slot × ℕ) :=
  u₀.shared.inserts.filter fun y =>
    (u₀.returned y.2).isSome && !(u.shared.index y.1).deleted

/-! ### The obligations -/

/-- What remains true of an answer. -/
def Answer (op : ℕ) (call : Call) (r : ℤ) (s : Memory) : Prop :=
  match call with
  | .insert _ => r = 1 ∧ Inserted op s
  | .delete => Deleted op r s

theorem Answer.kept {op : ℕ} {call : Call} {r : ℤ} {x x' : Memory × Ghost} (hi : Inv size x.1)
    (hk : Kept (.op op) x x') (h : Answer op call r x.1) : Answer op call r x'.1 := by
  have huntaken : Untaken op x.1 → Untaken op x'.1 := fun h y hy => h y (hk.ownDeletes op rfl y hy)
  cases call with
  | insert val =>
    obtain ⟨hr, ⟨y, hy⟩, hu⟩ := h
    exact ⟨hr, ⟨y, hk.inserts.mem hy⟩, huntaken hu⟩
  | delete =>
    refine ⟨fun y hy => h.1 y (hk.ownInserts op rfl y hy), ?_⟩
    rcases h.2 with ⟨hr, hu⟩ | ⟨y, hy, hn⟩
    · exact .inl ⟨hr, huntaken hu⟩
    · obtain ⟨⟨e, he⟩, -⟩ := hi.taken y op hy
      exact .inr ⟨y, hk.deletes.mem hy, hk.node (hi.lt_fresh (hi.placed y e he).1) hn⟩

/-- The answers of the queue. -/
def results (size : ℕ) : Results (queueService size) (regime size) where
  holds op call r _ x := Answer op call r x.1
  later _ _ _ _ _ _ _ _ hi _ hk h := h.kept hi.1 hk

theorem queue_obligations (hsize : 0 < size) : Obligations (results size) (fun _ => True)
    (fun _ _ _ => True) (fun c call x v => Answer c.op call x.2 v.state) initial (fun _ => .op 0)
    () where
  init := ⟨.init size, nofun⟩
  init_fresh _ := ⟨nofun, nofun⟩
  init_loc _ := True.intro
  loc_later _ _ _ _ _ _ _ _ _ h := h
  post_stable _ _ _ v _ hle h := h.kept (inv_of v) hle.2.op
  code t op call l v _ hcall _ _ hf := by
    cases call with
    | insert val => exact wp.bind_of (queueRelaxedInsert_spec hsize ⟨hf, hcall⟩) fun _ _ h => h
    | delete => exact wp.bind_of (queueRelaxedDelete_spec hsize hf) fun _ _ h => h
  finish _ _ _ _ _ h := ⟨fun _ _ => h, True.intro⟩

/-! ### The theorem -/

/-- What is known of a reachable world. -/
structure Known (u : World (queueService size)) : Prop where
  inv : Inv size u.shared
  made : Made u.calls u.shared
  answer : ∀ o r k, u.returned o = some (r, k) →
    ∃ call, u.calls[o]? = some call ∧ Answer o call r u.shared

theorem known (hsize : 0 < size) {p : Pool (queueService size)} (hr : Reachable initial () p) :
    Known p.world := by
  obtain ⟨g, hi, hres, -⟩ := (queue_obligations hsize).implements.inv hr
  exact ⟨hi.1, hi.2, hres⟩

/-- The history only grows. -/
theorem inserts_later (hsize : 0 < size) {p p' : Pool (queueService size)}
    (hr : Reachable initial () p) (hl : p.Later p') :
    p.world.shared.inserts <+: p'.world.shared.inserts :=
  (queue_obligations hsize).implements.later_frame
    (D := fun w w' => w.shared.inserts <+: w'.shared.inserts)
    (fun _ _ => True.intro) (fun _ _ => True.intro) (fun _ => List.prefix_refl _)
    (fun _ _ _ => List.IsPrefix.trans) (fun _ _ _ _ _ h => Kept.inserts h) hr hl

namespace Known

variable {u : World (queueService size)} (h : Known u)
include h

theorem headPassed : HeadPassed size u.shared := by
  intro p n hn hp i hi
  refine ⟨h.inv.full p n hn ?_ i hi, h.inv.passed p n hn hp i hi⟩
  exact Nat.lt_of_le_of_lt (hp.trans_le h.inv.headTail) (h.inv.valid.tailPos_lt Nat.one_pos)

/-- An item that is still there is not in front of the head. -/
theorem fromHead {y : Slot} {a : ℕ} (hy : (y, a) ∈ u.shared.inserts)
    (hd : (u.shared.index y).deleted = false) : u.shared.headPos ≤ u.shared.pos y := by
  obtain ⟨hseg, hidx⟩ := h.inv.placed y a hy
  by_contra hlt
  have := (h.headPassed _ y.seg (getElem?_pos hseg) (not_le.1 hlt) y.idx hidx).2
  rw [hd] at this
  cases this

theorem conserved : Conserved u where
  kept a val r k hc hr := by
    obtain ⟨call, hc', hans⟩ := h.answer a r k hr
    obtain rfl : Call.insert val = call := Option.some.inj (hc.symm.trans hc')
    obtain ⟨hone, ⟨y, hy⟩, -⟩ := hans
    obtain ⟨hseg, -⟩ := h.inv.placed y a hy
    obtain ⟨val', hc'', hn⟩ := h.made y a hy
    obtain rfl : val = val' := by simpa using hc.symm.trans hc''
    refine ⟨hone, y, fun z => ⟨fun hz => ?_, fun e => e ▸ hy⟩, hn, ?_⟩
    · exact (Prod.mk.inj (List.inj_on_of_nodup_map h.inv.calls hz hy rfl)).1
    · cases hd : (u.shared.index y).deleted with
      | false => exact .inl ⟨rfl, _, h.fromHead hy hd, getElem?_pos hseg⟩
      | true =>
        obtain ⟨d, hd⟩ := (h.inv.deleted y (h.inv.lt_fresh hseg)).1 hd
        refine .inr ⟨d, fun d' => ⟨fun hd' => ?_, fun e => e ▸ hd⟩⟩
        exact (Prod.mk.inj (List.inj_on_of_nodup_map h.inv.takenSlots hd' hd rfl)).2
  source d r k hc hr := by
    obtain ⟨call, hc', hans⟩ := h.answer d r k hr
    obtain rfl : Call.delete = call := Option.some.inj (hc.symm.trans hc')
    rcases hans.2 with hnone | ⟨y, hy, hn⟩
    · exact .inl hnone
    · obtain ⟨⟨a, ha⟩, -⟩ := h.inv.taken y d hy
      obtain ⟨val, hca, hval⟩ := h.made y a ha
      have hval : r = val := Option.some.inj (hn.symm.trans hval)
      refine .inr ⟨y, a, fun z => ⟨fun hz => ?_, fun e => e ▸ hy⟩, ha, hval ▸ hca⟩
      exact (Prod.mk.inj (List.inj_on_of_nodup_map h.inv.takenCalls hz hy rfl)).1

end Known

/-- Items in the slots of one segment, other than `x`. -/
theorem length_le_of_segment {l : List (Slot × ℕ)} {x : Slot} (hx : x.idx < size)
    (hl : (l.map Prod.fst).Nodup) (hseg : ∀ y ∈ l, y.1.seg = x.seg ∧ y.1.idx < size ∧ y.1 ≠ x) :
    l.length ≤ size - 1 := by
  have hnodup : (l.map fun y => y.1.idx).Nodup := by
    rw [show (l.map fun y => y.1.idx) = (l.map Prod.fst).map Slot.idx by rw [List.map_map]; rfl]
    refine hl.map_on fun y hy z hz he => ?_
    obtain ⟨y', hy', rfl⟩ := List.mem_map.1 hy
    obtain ⟨z', hz', rfl⟩ := List.mem_map.1 hz
    have hs : y'.1.seg = z'.1.seg := (hseg y' hy').1.trans (hseg z' hz').1.symm
    cases hy₁ : y'.1
    cases hz₁ : z'.1
    simp_all
  have hsub : (l.map fun y => y.1.idx).toFinset ⊆ (Finset.range size).erase x.idx := by
    intro i hi
    obtain ⟨y, hy, rfl⟩ := List.mem_map.1 (List.mem_toFinset.1 hi)
    obtain ⟨hs, hlt, hne⟩ := hseg y hy
    refine Finset.mem_erase.2 ⟨fun he => hne ?_, Finset.mem_range.2 hlt⟩
    cases hy₁ : y.1
    cases x
    simp_all
  have hcard := Finset.card_le_card hsub
  rwa [List.toFinset_card_of_nodup hnodup, List.length_map,
    Finset.card_erase_of_mem (Finset.mem_range.2 hx), Finset.card_range] at hcard

/-- When `x` is deleted, the items inserted before it that are still there are in its segment. -/
theorem overtaken_le {p₀ p p' : Pool (queueService size)} (h : Known p.world) (h' : Known p'.world)
    (hins : p₀.world.shared.inserts <+: p.world.shared.inserts)
    (hins' : p₀.world.shared.inserts <+: p'.world.shared.inserts) {x : Slot} {d : ℕ}
    (hdel : p'.world.shared.deletes = p.world.shared.deletes ++ [(x, d)])
    (hnew : ∀ a, (x, a) ∉ p₀.world.shared.inserts) :
    (overtaken p₀.world p.world).length ≤ size - 1 := by
  have hd : (x, d) ∈ p'.world.shared.deletes := by
    rw [hdel]
    exact List.mem_append_right _ (List.mem_singleton_self _)
  obtain ⟨⟨e, he⟩, hxle⟩ := h'.inv.taken x d hd
  obtain ⟨hxseg, hxidx⟩ := h'.inv.placed x e he
  obtain ⟨l, hl⟩ := hins'
  have hxl : (x, e) ∈ l := by
    rw [← hl] at he
    exact (List.mem_append.1 he).resolve_left (hnew e)
  have horder := h'.inv.order
  rw [← hl] at horder
  refine length_le_of_segment hxidx ?_ fun y hy => ?_
  · have hslots := h'.inv.slots
    rw [← hl, List.map_append] at hslots
    exact (List.nodup_append.1 hslots).1.sublist (List.filter_sublist.map _)
  · obtain ⟨hy₀, hyf⟩ := List.mem_filter.1 hy
    have hfree : (p.world.shared.index y.1).deleted = false := by
      simpa using (Bool.and_eq_true_iff.1 hyf).2
    have hne : y.1 ≠ x := fun e => hnew y.2 (e ▸ hy₀)
    have hy' : (y.1, y.2) ∈ p'.world.shared.inserts := hl ▸ List.mem_append_left _ hy₀
    obtain ⟨hseg', hidx⟩ := h'.inv.placed y.1 y.2 hy'
    -- the item is still there after the deletion of `x`
    have hfree' : (p'.world.shared.index y.1).deleted = false := by
      by_contra hdel'
      obtain ⟨o, ho⟩ := (h'.inv.deleted y.1 (h'.inv.lt_fresh hseg')).1 (Bool.not_eq_false _ ▸ hdel')
      rw [hdel] at ho
      rcases List.mem_append.1 ho with ho | ho
      · have hseg := (h.inv.placed y.1 y.2 (hins.mem hy₀)).1
        have := (h.inv.deleted y.1 (h.inv.lt_fresh hseg)).2 ⟨o, ho⟩
        rw [hfree] at this
        cases this
      · exact hne (Prod.mk.inj (List.mem_singleton.1 ho)).1
    have hle := h'.fromHead hy' hfree'
    have hle' : p'.world.shared.pos y.1 ≤ p'.world.shared.pos x :=
      (List.pairwise_append.1 horder).2.2 y hy₀ (x, e) hxl
    exact ⟨Inv.eq_of_pos hseg' hxseg (le_antisymm hle' (hxle.trans hle)), hidx, hne⟩

/-- For any run: the head passes used segments only, no item is lost or returned twice, and a
dequeue leaves at most `size - 1` items behind whose enqueues had returned when its item was
inserted. -/
theorem kSegmentQueue_relaxed {size : ℕ} (hsize : 0 < size) {p₀ p p' : Pool (queueService size)}
    (h₀ : Reachable initial () p₀) (hl : p₀.Later p) {m : Move (queueService size)}
    (hm : p.move m = some p') :
    HeadPassed size p.world.shared ∧ Conserved p.world ∧
      ∀ x d, p'.world.shared.deletes = p.world.shared.deletes ++ [(x, d)] →
        (∀ a, (x, a) ∉ p₀.world.shared.inserts) →
        (overtaken p₀.world p.world).length ≤ size - 1 := by
  have hl' : p₀.Later p' := hl.tail ⟨m, hm⟩
  have hk := known hsize (h₀.later hl)
  refine ⟨hk.headPassed, hk.conserved, fun x d hdel hnew => ?_⟩
  exact overtaken_le hk (known hsize (h₀.later hl')) (inserts_later hsize h₀ hl)
    (inserts_later hsize h₀ hl') hdel hnew

/-- With two slots in a segment, the second of two items goes out first. -/
theorem kSegmentQueue_relaxed_two : ∃ p₀ p : Pool (queueService 2),
    (overtaken p₀.world p.world = [(⟨0, 0⟩, 0)] ∧ p.world.shared.inserts =
      [(⟨0, 0⟩, 0), (⟨0, 1⟩, 1)]) ∧
      HeadPassed 2 p.world.shared ∧ Conserved p.world ∧
        (overtaken p₀.world p.world).length ≤ 1 := by
  have h : (((Pool.init (queueService 2) initial ()).exec
      (Move.invoke 0 (Call.insert 7) :: List.replicate 7 (Move.step 0 0))).any fun p₀ =>
        (p₀.exec (Move.invoke 0 (Call.insert 8) :: List.replicate 7 (Move.step 0 1) ++
          Move.invoke 1 Call.delete :: List.replicate 6 (Move.step 1 1))).any fun p =>
        (p.move (.step 1 1)).any fun p' =>
          decide ((overtaken p₀.world p.world = [(⟨0, 0⟩, 0)] ∧
              p.world.shared.inserts = [(⟨0, 0⟩, 0), (⟨0, 1⟩, 1)]) ∧
            p'.world.shared.deletes = p.world.shared.deletes ++ [(⟨0, 1⟩, 2)] ∧
            p₀.world.shared.inserts = [(⟨0, 0⟩, 0)])) = true := by
    decide +kernel
  obtain ⟨p₀, hp₀, h⟩ := (Option.any_eq_true _ _).1 h
  obtain ⟨p, hp, h⟩ := (Option.any_eq_true _ _).1 h
  obtain ⟨p', hp', h⟩ := (Option.any_eq_true _ _).1 h
  obtain ⟨hover, hdel, hins⟩ := of_decide_eq_true h
  obtain ⟨h₁, h₂, h₃⟩ := kSegmentQueue_relaxed Nat.two_pos
    (Pool.exec_reach hp₀ (fun _ _ _ _ => True.intro) .init) (Pool.exec_later hp) hp'
  refine ⟨p₀, p, hover, h₁, h₂, h₃ ⟨0, 1⟩ 2 hdel fun a ha => ?_⟩
  rw [hins] at ha
  simp at ha

end QueueKSegment
