import SemanticRelaxation.QueueKSegment.Queue

/-!
# The invariant of the k-segment queue

* `Inv size s`: the invariant, with `size` slots in a segment. A segment that has a successor is
  full, and all items of a segment in front of the head are deleted;
* `Inv.create`, `Inv.link`, `Inv.setTail`, `Inv.setHead`, `Inv.insert`, `Inv.delete`: the steps keep
  it.
-/

namespace QueueKSegment

open AtomicProg Linked Segments

namespace Memory

variable (s : Memory)

/-- The position of the segment of a slot. -/
abbrev pos (x : Slot) : ℕ := s.chain.pos 0 x.seg

/-- The position of the first segment. -/
abbrev headPos : ℕ := s.chain.headPos 0

/-- All slots of a segment have been filled. -/
def Full (size n : ℕ) : Prop := ∀ i < size, (s.index ⟨n, i⟩).node ≠ none

/-- All items of a segment have been deleted. -/
def Used (size n : ℕ) : Prop := ∀ i < size, (s.index ⟨n, i⟩).deleted = true

theorem seg_modify (n k : ℕ) (f : Segment → Segment) :
    (s.chain.modify n f).seg k = if k = n then f (s.chain.seg k) else s.chain.seg k := by
  by_cases h : k = n
  · subst h
    rw [if_pos rfl, s.chain.modify_self]
  · rw [if_neg h, s.chain.modify_of_ne h]

theorem index_setIndex (x z : Slot) (y : Index) :
    (s.setIndex x y).index z = if z = x then y else s.index z := by
  show ((s.chain.modify x.seg _).seg z.seg).indices z.idx = _
  rw [s.seg_modify]
  by_cases hseg : z.seg = x.seg
  · rw [if_pos hseg]
    by_cases hidx : z.idx = x.idx
    · have hz : z = x := by
        cases x
        cases z
        simp_all
      rw [if_pos hz, hidx]
      exact Function.update_self ..
    · rw [if_neg fun e => hidx (congrArg Slot.idx e)]
      exact Function.update_of_ne hidx _ _
  · rw [if_neg hseg, if_neg fun e => hseg (congrArg Slot.seg e)]
    rfl

theorem index_insert (op : ℕ) (x z : Slot) (val : ℤ) :
    (s.insert op x val).index z = if z = x then { s.index x with node := some val }
    else s.index z :=
  s.index_setIndex x z _

theorem index_delete (op : ℕ) (x z : Slot) :
    (s.delete op x).index z = if z = x then { s.index x with deleted := true } else s.index z :=
  s.index_setIndex x z _

end Memory

/-- The invariant. -/
structure Inv (size : ℕ) (s : Memory) : Prop where
  valid : Valid 1 s.chain
  notNull : s.null = false
  headTail : s.headPos ≤ s.chain.tailPos 0
  full : ∀ p n : ℕ, s.line[p]? = some n → p + 1 < s.line.length → s.Full size n
  passed : ∀ p n : ℕ, s.line[p]? = some n → p < s.headPos → s.Used size n
  placed : ∀ x op, (x, op) ∈ s.inserts → x.seg ∈ s.line ∧ x.idx < size
  filled : ∀ x : Slot, x.seg < s.chain.cells.fresh →
    ((s.index x).node ≠ none ↔ ∃ op, (x, op) ∈ s.inserts)
  slots : (s.inserts.map Prod.fst).Nodup
  calls : (s.inserts.map Prod.snd).Nodup
  order : s.inserts.Pairwise fun x y => s.pos x.1 ≤ s.pos y.1
  taken : ∀ x op, (x, op) ∈ s.deletes → (∃ e, (x, e) ∈ s.inserts) ∧ s.pos x ≤ s.headPos
  deleted : ∀ x : Slot, x.seg < s.chain.cells.fresh →
    ((s.index x).deleted = true ↔ ∃ op, (x, op) ∈ s.deletes)
  takenSlots : (s.deletes.map Prod.fst).Nodup
  takenCalls : (s.deletes.map Prod.snd).Nodup

variable {size op n t p : ℕ} {s s' : Memory} {x : Slot}

theorem Inv.init (size : ℕ) : Inv size initial where
  valid := .init
  notNull := rfl
  headTail := le_rfl
  full p n _ hp := by
    have hp : p + 1 < 1 := hp
    omega
  passed p n _ hp := by
    have hp : p < [0].idxOf 0 := hp
    simp at hp
  placed := nofun
  filled _ _ := ⟨fun h => absurd rfl h, nofun⟩
  slots := List.nodup_nil
  calls := List.nodup_nil
  order := .nil
  taken := nofun
  deleted _ _ := ⟨nofun, nofun⟩
  takenSlots := List.nodup_nil
  takenCalls := List.nodup_nil

namespace Inv

variable (h : Inv size s)
include h

theorem lt_fresh (hn : n ∈ s.line) : n < s.chain.cells.fresh :=
  h.valid.lines.lt_fresh 0 Nat.one_pos n hn

omit h in
/-- Segments that stand at one position are the same. -/
theorem eq_of_pos {m : ℕ} (hn : n ∈ s.line) (hm : m ∈ s.line)
    (he : s.chain.pos 0 n = s.chain.pos 0 m) :
    n = m := by
  have h₁ := getElem?_pos hn
  have h₂ := getElem?_pos hm
  rw [he, h₂] at h₁
  exact (Option.some.inj h₁).symm

/-- The segment of an empty slot is the last one. -/
theorem pos_le_of_empty {m : ℕ} (hx : x.seg ∈ s.line) (hidx : x.idx < size)
    (he : (s.index x).node = none) (hm : m ∈ s.line) : s.chain.pos 0 m ≤ s.pos x := by
  by_contra hlt
  have hpos := (List.getElem?_eq_some_iff.1 (getElem?_pos hm)).1
  exact h.full _ x.seg (getElem?_pos hx) (Nat.lt_of_le_of_lt (not_le.1 hlt) hpos) x.idx hidx he

/-! ### Steps on the list of segments -/

/-- A step that leaves the slots alone. -/
theorem of_grows (hv : Valid 1 s'.chain) (hg : Grows (fun _ _ => True) 1 s.chain s'.chain)
    (hnull : s'.null = false) (hins : s'.inserts = s.inserts) (hdel : s'.deletes = s.deletes)
    (hindex : ∀ y : Slot, y.seg < s.chain.cells.fresh → s'.index y = s.index y)
    (hnew : ∀ y : Slot, s.chain.cells.fresh ≤ y.seg → y.seg < s'.chain.cells.fresh →
      s'.index y = ⟨none, false⟩) (hht : s'.headPos ≤ s'.chain.tailPos 0)
    (hfull : ∀ p n : ℕ, s'.line[p]? = some n → p + 1 < s'.line.length → s'.Full size n)
    (hpassed : ∀ p n : ℕ, s'.line[p]? = some n → p < s'.headPos → s'.Used size n) :
    Inv size s' := by
  have hpos : ∀ y op, (y, op) ∈ s.inserts → s'.pos y = s.pos y := fun y op hy =>
    pos_of_grown (hg.line 0) (h.placed y op hy).1
  refine ⟨hv, hnull, hht, hfull, hpassed, ?_, ?_, hins ▸ h.slots, hins ▸ h.calls, ?_, ?_, ?_,
    hdel ▸ h.takenSlots, hdel ▸ h.takenCalls⟩
  · intro y op hy
    rw [hins] at hy
    exact ⟨(hg.line 0).mem (h.placed y op hy).1, (h.placed y op hy).2⟩
  · intro y hy
    rw [hins]
    rcases lt_or_ge y.seg s.chain.cells.fresh with hlt | hge
    · rw [hindex y hlt]
      exact h.filled y hlt
    · rw [hnew y hge hy]
      refine ⟨fun he => absurd rfl he, ?_⟩
      rintro ⟨op, hop⟩
      exact absurd (h.lt_fresh (h.placed y op hop).1) (not_lt.2 hge)
  · rw [hins]
    refine h.order.imp_of_mem fun {y z} hy hz hle => ?_
    rw [hpos y.1 y.2 hy, hpos z.1 z.2 hz]
    exact hle
  · intro y op hy
    rw [hdel] at hy
    obtain ⟨⟨e, he⟩, hle⟩ := h.taken y op hy
    refine ⟨⟨e, hins ▸ he⟩, ?_⟩
    rw [hpos y e he]
    exact hle.trans (hg.head 0 Nat.one_pos)
  · intro y hy
    rw [hdel]
    rcases lt_or_ge y.seg s.chain.cells.fresh with hlt | hge
    · rw [hindex y hlt]
      exact h.deleted y hlt
    · rw [hnew y hge hy]
      refine ⟨nofun, ?_⟩
      rintro ⟨op, hop⟩
      obtain ⟨⟨e, he⟩, -⟩ := h.taken y op hop
      exact absurd (h.lt_fresh (h.placed y e he).1) (not_lt.2 hge)

theorem create : Inv size (s.onChain (·.create default)) := by
  have hold : ∀ y : Slot, y.seg < s.chain.cells.fresh →
      (s.onChain (·.create default)).index y = s.index y := fun y hy =>
    congrArg (fun a : Segment => a.indices y.idx) (s.chain.create_seg_of_ne hy.ne default)
  refine h.of_grows (h.valid.create default) (Valid.create_grows (fun _ => True.intro) default)
    h.notNull rfl rfl hold ?_ h.headTail ?_ ?_
  · intro y hge hlt
    have hlt : y.seg < s.chain.cells.fresh + 1 := hlt
    have hy : y.seg = s.chain.cells.fresh := by omega
    show ((s.chain.create default).seg y.seg).indices y.idx = _
    rw [hy, s.chain.create_seg_self]
    rfl
  · intro p n hn hp i hi
    rw [hold ⟨n, i⟩ (h.lt_fresh (List.mem_of_getElem? hn))]
    exact h.full p n hn hp i hi
  · intro p n hn hp i hi
    rw [hold ⟨n, i⟩ (h.lt_fresh (List.mem_of_getElem? hn))]
    exact h.passed p n hn hp i hi

theorem setTail (hn : s.line[s.chain.tailPos 0 + 1]? = some n) :
    Inv size (s.onChain (·.setTail 0 n)) := by
  refine h.of_grows (h.valid.setTail Nat.one_pos hn)
    (h.valid.setTail_grows (fun _ => True.intro) Nat.one_pos hn) h.notNull rfl rfl (fun _ _ => rfl)
    (fun y hge hlt => absurd hlt (not_lt.2 hge)) ?_ h.full h.passed
  show s.headPos ≤ (s.chain.setTail 0 n).tailPos 0
  rw [h.valid.setTail_pos Nat.one_pos hn, if_pos rfl]
  exact h.headTail.trans (Nat.le_succ _)

/-- The head moves on from a segment whose items have all been deleted. -/
theorem setHead (hn : s.line[s.headPos + 1]? = some n) (hlt : s.headPos < s.chain.tailPos 0)
    (hused : s.Used size (s.chain.head 0)) : Inv size (s.onChain (·.setHead 0 n)) := by
  have hpos : (s.onChain (·.setHead 0 n)).headPos = s.headPos + 1 := by
    show (s.chain.setHead 0 n).headPos 0 = _
    rw [h.valid.setHead_pos Nat.one_pos hn, if_pos rfl]
  refine h.of_grows (h.valid.setHead (List.mem_of_getElem? hn))
    (h.valid.setHead_grows (fun _ => True.intro) Nat.one_pos hn (Nat.le_succ _)) h.notNull rfl rfl
    (fun _ _ => rfl) (fun y hge hlt => absurd hlt (not_lt.2 hge)) ?_ h.full fun p m hm hp => ?_
  · rw [hpos]
    exact hlt
  · rw [hpos] at hp
    rcases Nat.lt_succ_iff_lt_or_eq.1 hp with hp | rfl
    · exact h.passed p m hm hp
    · have hhead := h.valid.getElem?_head Nat.one_pos
      obtain rfl : m = s.chain.head 0 := Option.some.inj (hm.symm.trans hhead)
      exact hused

/-- A segment is linked behind the last one, which is full. -/
theorem link (ht : s.line[p]? = some t) (hle : p ≤ s.chain.tailPos 0)
    (hnone : (s.chain.cells.heap t).next = none) (hfull : s.Full size t)
    (hn : Unlinked 1 s.chain.cells n) : Inv size (s.onChain (·.link 0 t n)) := by
  obtain ⟨htail, hlast⟩ := h.valid.tail_of_last Nat.one_pos ht hle hnone
  have hg : Grows (fun _ _ => True) 1 s.chain (s.chain.link 0 t n) :=
    h.valid.link_grows (fun _ => True.intro) 0 t n
  have hindex : ∀ y, (s.onChain (·.link 0 t n)).index y = s.index y := fun y =>
    congrArg (fun a : Segment => a.indices y.idx) (s.chain.link_seg 0 t n y.seg)
  have hline : (s.onChain (·.link 0 t n)).line = s.line ++ [n] := by
    show (s.chain.cells.append 0 (some t) n).line 0 = _
    rw [Cells.append_line, Function.update_self]
  have hhead : (s.onChain (·.link 0 t n)).headPos = s.headPos :=
    pos_of_grown (hg.line 0) (h.valid.head 0 Nat.one_pos)
  refine h.of_grows (h.valid.link Nat.one_pos ht hle hnone hn) hg h.notNull rfl rfl
    (fun y _ => hindex y) (fun y hge hlt => ?_) ?_ (fun q m hm hq i hi => ?_)
    fun q m hm hq i hi => ?_
  · exact absurd ((s.chain.cells.append_fresh 0 (some t) n) ▸ hlt) (not_lt.2 hge)
  · rw [hhead]
    exact h.headTail.trans (hg.tail 0 Nat.one_pos)
  · rw [hindex]
    rw [hline] at hm hq
    rw [List.length_append, List.length_singleton] at hq
    have hq : q < s.line.length := by omega
    rw [List.getElem?_append_left hq] at hm
    rcases Nat.lt_or_ge (q + 1) s.line.length with hlt | hge
    · exact h.full q m hm hlt i hi
    · have hlen : p + 1 = s.line.length := hlast
      obtain rfl : q = p := by omega
      obtain rfl : m = t := Option.some.inj (hm.symm.trans ht)
      exact hfull i hi
  · rw [hindex]
    rw [hhead] at hq
    rw [hline, List.getElem?_append_left (hq.trans (h.valid.headPos_lt Nat.one_pos))] at hm
    exact h.passed q m hm hq i hi

/-! ### Steps on a slot -/

theorem valid_setIndex (x : Slot) (y : Index) : Valid 1 (s.setIndex x y).chain :=
  h.valid.modify x.seg fun seg => { seg with indices := Function.update seg.indices x.idx y }

/-- A call puts its node into an empty slot. -/
theorem insert {val : ℤ} (hx : x.seg ∈ s.line) (hidx : x.idx < size) (he : (s.index x).node = none)
    (hop : ∀ y, (y, op) ∉ s.inserts) : Inv size (s.insert op x val) := by
  have hempty : ∀ e, (x, e) ∉ s.inserts := fun e hm => (h.filled x (h.lt_fresh hx)).2 ⟨e, hm⟩ he
  have hnode : ∀ y, (s.index y).node ≠ none → ((s.insert op x val).index y).node ≠ none := by
    intro y hy
    rw [s.index_insert]
    split
    next => exact Option.some_ne_none val
    next => exact hy
  have hdel : ∀ y, ((s.insert op x val).index y).deleted = (s.index y).deleted := by
    intro y
    rw [s.index_insert]
    split
    next e => rw [e]
    next => rfl
  refine ⟨h.valid_setIndex _ _, h.notNull, h.headTail, fun p n hn hp i hi => hnode _
    (h.full p n hn hp i hi),
    fun p n hn hp i hi => (hdel _).trans (h.passed p n hn hp i hi), ?_, ?_, ?_, ?_, ?_, ?_, ?_,
    h.takenSlots, h.takenCalls⟩
  · intro y o hy
    rcases List.mem_append.1 hy with hy | hy
    · exact h.placed y o hy
    · obtain ⟨rfl, -⟩ := Prod.mk.inj (List.mem_singleton.1 hy)
      exact ⟨hx, hidx⟩
  · intro y hy
    by_cases hyx : y = x
    · subst hyx
      rw [s.index_insert, if_pos rfl]
      exact ⟨fun _ => ⟨op, List.mem_append_right _ (List.mem_singleton_self _)⟩,
        fun _ => Option.some_ne_none val⟩
    · rw [s.index_insert, if_neg hyx]
      refine (h.filled y hy).trans (exists_congr fun o => ⟨List.mem_append_left _, fun hm => ?_⟩)
      rcases List.mem_append.1 hm with hm | hm
      · exact hm
      · exact absurd (Prod.mk.inj (List.mem_singleton.1 hm)).1 hyx
  · exact nodup_map_snoc h.slots fun y hy (e : y.1 = x) => hempty y.2 (e ▸ hy)
  · exact nodup_map_snoc h.calls fun y hy (e : y.2 = op) => hop y.1 (e ▸ hy)
  · show (s.inserts ++ [(x, op)]).Pairwise _
    refine List.pairwise_append.2 ⟨h.order, List.pairwise_singleton _ _, fun y hy z hz => ?_⟩
    obtain rfl := List.mem_singleton.1 hz
    exact h.pos_le_of_empty hx hidx he (h.placed y.1 y.2 hy).1
  · intro y o hy
    obtain ⟨⟨e, he⟩, hle⟩ := h.taken y o hy
    exact ⟨⟨e, List.mem_append_left _ he⟩, hle⟩
  · intro y hy
    rw [hdel]
    exact h.deleted y hy

/-- A call deletes the item of a slot of the first segment, or of one in front of it. -/
theorem delete (hx : x.seg ∈ s.line) (hnode : (s.index x).node ≠ none)
    (he : (s.index x).deleted = false) (hle : s.pos x ≤ s.headPos)
    (hop : ∀ y, (y, op) ∉ s.deletes) :
    Inv size (s.delete op x) := by
  have hfree : ∀ e, (x, e) ∉ s.deletes := fun e hm => by
    have := (h.deleted x (h.lt_fresh hx)).2 ⟨e, hm⟩
    rw [he] at this
    cases this
  have hsame : ∀ y, ((s.delete op x).index y).node = (s.index y).node := by
    intro y
    rw [s.index_delete]
    split
    next e => rw [e]
    next => rfl
  have hdel : ∀ y, (s.index y).deleted = true → ((s.delete op x).index y).deleted = true := by
    intro y hy
    rw [s.index_delete]
    split
    next => rfl
    next => exact hy
  refine ⟨h.valid_setIndex _ _, h.notNull, h.headTail, fun p n hn hp i hi => ?_,
    fun p n hn hp i hi => hdel _ (h.passed p n hn hp i hi), h.placed, fun y hy => ?_, h.slots,
      h.calls,
    h.order, ?_, ?_, ?_, ?_⟩
  · rw [hsame]
    exact h.full p n hn hp i hi
  · rw [hsame]
    exact h.filled y hy
  · intro y o hy
    rcases List.mem_append.1 hy with hy | hy
    · exact h.taken y o hy
    · obtain ⟨rfl, -⟩ := Prod.mk.inj (List.mem_singleton.1 hy)
      exact ⟨(h.filled y (h.lt_fresh hx)).1 hnode, hle⟩
  · intro y hy
    by_cases hyx : y = x
    · subst hyx
      rw [s.index_delete, if_pos rfl]
      exact ⟨fun _ => ⟨op, List.mem_append_right _ (List.mem_singleton_self _)⟩, fun _ => rfl⟩
    · rw [s.index_delete, if_neg hyx]
      refine (h.deleted y hy).trans (exists_congr fun o => ⟨List.mem_append_left _, fun hm => ?_⟩)
      rcases List.mem_append.1 hm with hm | hm
      · exact hm
      · exact absurd (Prod.mk.inj (List.mem_singleton.1 hm)).1 hyx
  · exact nodup_map_snoc h.takenSlots fun y hy (e : y.1 = x) => hfree y.2 (e ▸ hy)
  · exact nodup_map_snoc h.takenCalls fun y hy (e : y.2 = op) => hop y.1 (e ▸ hy)

end Inv

end QueueKSegment
