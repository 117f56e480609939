import SemanticRelaxation.StackKSegment.Segments
import SemanticRelaxation.Support.History

/-!
# The slots of the k-segment stack

* `SlotInv size Pub Lnk s`: a node is in one slot at most, and in none once it has been taken; a
  node that its push has committed is in a slot of a segment in `Lnk`, or has been taken;
* `SlotKept o s s'`: what the steps of the others keep for the owner `o`;
* `SlotInv.create`, `SlotInv.put`, `SlotInv.retract`, `SlotInv.take`, `SlotInv.commit`: the steps.
-/

namespace StackKSegment

open AtomicProg

variable {s s' s'' : Slots} {n m op size : ℕ} {x y : Slot} {o : Owner}
  {Pub Pub' Lnk Lnk' : ℕ → Prop}

/-- A pop has taken the node. -/
def Taken (s : Slots) (n : ℕ) : Prop := ∃ d, (n, d) ∈ s.takes

/-- The node is in no slot, and no pop has taken it. -/
def Loose (s : Slots) (n : ℕ) : Prop := ¬ Taken s n ∧ ∀ x, s.slot x ≠ some n

/-- The slot holds no committed node. -/
def Free (s : Slots) (x : Slot) : Prop := ∀ n, s.slot x = some n → s.committed n = false

/-- The invariant of the slots, where `Pub` are the segments that have been published, and `Lnk`
those that are linked. -/
structure SlotInv (size : ℕ) (Pub Lnk : ℕ → Prop) (s : Slots) : Prop where
  placed : ∀ x n, s.slot x = some n → n < s.fresh ∧ x.idx < size ∧ Pub x.seg
  inj : ∀ x y n, s.slot x = some n → s.slot y = some n → x = y
  taken : ∀ n, Taken s n → n < s.fresh ∧ ∀ x, s.slot x ≠ some n
  nodes : (s.takes.map Prod.fst).Nodup
  calls : (s.takes.map Prod.snd).Nodup
  committed : ∀ n, s.committed n = true →
    n < s.fresh ∧ ((∃ x, s.slot x = some n ∧ Lnk x.seg) ∨ Taken s n)

/-- What the steps of the others keep for the owner `o`. -/
structure SlotKept (o : Owner) (s s' : Slots) : Prop where
  fresh : s.fresh ≤ s'.fresh
  val : ∀ n < s.fresh, s'.val n = s.val n
  pusher : ∀ n < s.fresh, s'.pusher n = s.pusher n
  takes : s.takes <+: s'.takes
  committed : ∀ n, s.committed n = true → s'.committed n = true
  stays : ∀ n, s.committed n = true → ∀ x, s.slot x = some n → s'.slot x = some n ∨ Taken s' n
  own : ∀ a, o = .op a → ∀ n < s.fresh, s.pusher n = a → s'.committed n = s.committed n ∧
    (∀ x, s.slot x = some n → s'.slot x = some n ∨ Taken s' n) ∧ (Loose s n → Loose s' n)
  ownTakes : ∀ a, o = .op a → ∀ n, (n, a) ∈ s'.takes → (n, a) ∈ s.takes
  ownNodes : ∀ a, o = .op a → ∀ n < s'.fresh, s'.pusher n = a → n < s.fresh

theorem Taken.kept (h : SlotKept o s s') (hn : Taken s n) : Taken s' n := by
  obtain ⟨d, hd⟩ := hn
  exact ⟨d, h.takes.mem hd⟩

theorem SlotKept.refl (o : Owner) (s : Slots) : SlotKept o s s where
  fresh := le_rfl
  val _ _ := rfl
  pusher _ _ := rfl
  takes := List.prefix_refl _
  committed _ h := h
  stays _ _ _ h := .inl h
  own _ _ _ _ _ := ⟨rfl, fun _ h => .inl h, fun h => h⟩
  ownTakes _ _ _ h := h
  ownNodes _ _ _ h _ := h

theorem SlotKept.trans (h : SlotKept o s s') (h' : SlotKept o s' s'') : SlotKept o s s'' where
  fresh := h.fresh.trans h'.fresh
  val n hn := (h'.val n (hn.trans_le h.fresh)).trans (h.val n hn)
  pusher n hn := (h'.pusher n (hn.trans_le h.fresh)).trans (h.pusher n hn)
  takes := h.takes.trans h'.takes
  committed n hn := h'.committed n (h.committed n hn)
  stays n hn x hx := by
    rcases h.stays n hn x hx with hx | ht
    · exact h'.stays n (h.committed n hn) x hx
    · exact .inr (ht.kept h')
  own a ho n hn hp := by
    obtain ⟨h₁, h₂, h₃⟩ := h.own a ho n hn hp
    obtain ⟨h₁', h₂', h₃'⟩ := h'.own a ho n (hn.trans_le h.fresh) ((h.pusher n hn).trans hp)
    refine ⟨h₁'.trans h₁, fun x hx => ?_, fun hl => h₃' (h₃ hl)⟩
    rcases h₂ x hx with hx | ht
    · exact h₂' x hx
    · exact .inr (ht.kept h')
  ownTakes a ho n hn := h.ownTakes a ho n (h'.ownTakes a ho n hn)
  ownNodes a ho n hn hp := by
    have hn' := h'.ownNodes a ho n hn hp
    exact h.ownNodes a ho n hn' ((h'.pusher n hn').symm.trans hp)

theorem SlotInv.init : SlotInv size Pub Lnk initial.slots where
  placed _ _ h := by cases h
  inj _ _ _ h := by cases h
  taken _ h := by
    obtain ⟨d, hd⟩ := h
    exact absurd hd List.not_mem_nil
  nodes := List.nodup_nil
  calls := List.nodup_nil
  committed _ h := by cases h

namespace SlotInv

variable (h : SlotInv size Pub Lnk s)
include h

/-- The segments change. -/
theorem mono (hpub : ∀ k, Pub k → Pub' k)
    (hlnk : ∀ n x, s.committed n = true → s.slot x = some n → Lnk x.seg → Lnk' x.seg) :
    SlotInv size Pub' Lnk' s where
  placed x n hx := by
    obtain ⟨h₁, h₂, h₃⟩ := h.placed x n hx
    exact ⟨h₁, h₂, hpub _ h₃⟩
  inj := h.inj
  taken := h.taken
  nodes := h.nodes
  calls := h.calls
  committed n hn := by
    obtain ⟨h₁, h₂⟩ := h.committed n hn
    exact ⟨h₁, h₂.imp_left fun ⟨x, hx, hl⟩ => ⟨x, hx, hlnk n x hn hx hl⟩⟩

/-! ### Allocation and commitment -/

theorem create (val : ℤ) : SlotInv size Pub Lnk (s.create op val) where
  placed x n hx := by
    obtain ⟨h₁, h₂⟩ := h.placed x n hx
    exact ⟨h₁.trans (Nat.lt_succ_self _), h₂⟩
  inj := h.inj
  taken n hn := by
    obtain ⟨h₁, h₂⟩ := h.taken n hn
    exact ⟨h₁.trans (Nat.lt_succ_self _), h₂⟩
  nodes := h.nodes
  calls := h.calls
  committed n hn := by
    obtain ⟨h₁, h₂⟩ := h.committed n hn
    exact ⟨h₁.trans (Nat.lt_succ_self _), h₂⟩

omit h in
theorem create_kept (val : ℤ) (ho : o ≠ .op op) : SlotKept o s (s.create op val) where
  fresh := Nat.le_succ _
  val n hn := Function.update_of_ne hn.ne _ _
  pusher n hn := Function.update_of_ne hn.ne _ _
  takes := List.prefix_refl _
  committed _ hn := hn
  stays _ _ _ hx := .inl hx
  own _ _ _ _ _ := ⟨rfl, fun _ hx => .inl hx, fun hl => hl⟩
  ownTakes _ _ _ hn := hn
  ownNodes a ha n hn hp := by
    refine lt_of_le_of_ne (Nat.lt_succ_iff.1 hn) ?_
    rintro rfl
    have hp : Function.update s.pusher s.fresh op s.fresh = a := hp
    rw [Function.update_self] at hp
    exact ho (hp ▸ ha)

/-- The new node belongs to the call. -/
theorem loose_create (val : ℤ) : Loose (s.create op val) s.fresh := by
  refine ⟨fun ht => ?_, fun x hx => ?_⟩
  · exact lt_irrefl _ (h.taken _ ht).1
  · exact lt_irrefl _ (h.placed x _ hx).1

theorem commit (hn : n < s.fresh) (hin : (∃ x, s.slot x = some n ∧ Lnk x.seg) ∨ Taken s n) :
    SlotInv size Pub Lnk (s.commit n) where
  placed := h.placed
  inj := h.inj
  taken := h.taken
  nodes := h.nodes
  calls := h.calls
  committed m hm := by
    have hm : Function.update s.committed n true m = true := hm
    by_cases hmn : m = n
    · subst hmn
      exact ⟨hn, hin⟩
    · rw [Function.update_of_ne hmn] at hm
      exact h.committed m hm

omit h in
theorem commit_kept (ho : o ≠ .op (s.pusher n)) : SlotKept o s (s.commit n) where
  fresh := le_rfl
  val _ _ := rfl
  pusher _ _ := rfl
  takes := List.prefix_refl _
  committed m hm := by
    show Function.update s.committed n true m = true
    by_cases hmn : m = n
    · subst hmn
      rw [Function.update_self]
    · rwa [Function.update_of_ne hmn]
  stays _ _ _ hx := .inl hx
  own a ha m _ hp := by
    have hmn : m ≠ n := by
      rintro rfl
      exact ho (hp ▸ ha)
    exact ⟨Function.update_of_ne hmn _ _, fun _ hx => .inl hx, fun hl => hl⟩
  ownTakes _ _ _ hn := hn
  ownNodes _ _ _ hn _ := hn

/-! ### Steps on a slot -/

omit h in
/-- What is in the slots after a store. -/
theorem slot_set {v : Option ℕ} (hy : (s.set x v).slot y = some m) :
    y = x ∧ v = some m ∨ y ≠ x ∧ s.slot y = some m := by
  have hy : Function.update s.slot x v y = some m := hy
  by_cases hyx : y = x
  · subst hyx
    rw [Function.update_self] at hy
    exact .inl ⟨rfl, hy⟩
  · rw [Function.update_of_ne hyx] at hy
    exact .inr ⟨hyx, hy⟩

/-- A loose node is put into an empty slot. -/
theorem put (hn : n < s.fresh) (hx : x.idx < size) (hp : Pub x.seg) (he : s.slot x = none)
    (hl : Loose s n) : SlotInv size Pub Lnk (s.set x (some n)) where
  placed y m hy := by
    rcases slot_set hy with ⟨rfl, e⟩ | ⟨-, hy⟩
    · exact Option.some.inj e ▸ ⟨hn, hx, hp⟩
    · exact h.placed y m hy
  inj y z m hy hz := by
    rcases slot_set hy with ⟨rfl, e⟩ | ⟨-, hy'⟩
    · rcases slot_set hz with ⟨rfl, -⟩ | ⟨-, hz'⟩
      · rfl
      · obtain rfl := Option.some.inj e
        exact absurd hz' (hl.2 z)
    · rcases slot_set hz with ⟨rfl, e⟩ | ⟨-, hz'⟩
      · obtain rfl := Option.some.inj e
        exact absurd hy' (hl.2 y)
      · exact h.inj y z m hy' hz'
  taken m hm := by
    obtain ⟨h₁, h₂⟩ := h.taken m hm
    refine ⟨h₁, fun y hy => ?_⟩
    rcases slot_set hy with ⟨-, e⟩ | ⟨-, hy⟩
    · exact hl.1 (Option.some.inj e ▸ hm)
    · exact h₂ y hy
  nodes := h.nodes
  calls := h.calls
  committed m hm := by
    obtain ⟨h₁, h₂⟩ := h.committed m hm
    refine ⟨h₁, h₂.imp_left fun ⟨y, hy, hl⟩ => ⟨y, ?_, hl⟩⟩
    have hyx : y ≠ x := by
      rintro rfl
      exact absurd (he.symm.trans hy) nofun
    exact (Function.update_of_ne hyx _ _).trans hy

omit h in
theorem put_kept (he : s.slot x = none) (ho : o ≠ .op (s.pusher n)) :
    SlotKept o s (s.set x (some n)) := by
  have hstay : ∀ m y, s.slot y = some m → (s.set x (some n)).slot y = some m := fun m y hy => by
    have hyx : y ≠ x := by
      rintro rfl
      exact absurd (he.symm.trans hy) nofun
    exact (Function.update_of_ne hyx _ _).trans hy
  refine ⟨le_rfl, fun _ _ => rfl, fun _ _ => rfl, List.prefix_refl _, fun _ hm => hm,
    fun m _ y hy => .inl (hstay m y hy), fun a ha m _ hp => ⟨rfl, fun y hy => .inl (hstay m y hy),
      fun hl => ⟨hl.1, fun y hy => ?_⟩⟩, fun _ _ _ hm => hm, fun _ _ _ hm _ => hm⟩
  rcases slot_set hy with ⟨-, e⟩ | ⟨-, hy⟩
  · exact ho (Option.some.inj e ▸ hp ▸ ha)
  · exact hl.2 y hy

omit h in
/-- A node leaves its slot. -/
theorem slot_clear (hx : s.slot x = some n) (hy : s.slot y = some m) (hm : m ≠ n) :
    (s.set x none).slot y = some m := by
  have hyx : y ≠ x := by
    rintro rfl
    exact hm (Option.some.inj (hy.symm.trans hx))
  exact (Function.update_of_ne hyx _ _).trans hy

theorem slot_cleared (hx : s.slot x = some n) (hy : (s.set x none).slot y = some m) :
    s.slot y = some m ∧ m ≠ n := by
  rcases slot_set hy with ⟨-, e⟩ | ⟨hyx, hy⟩
  · cases e
  · refine ⟨hy, ?_⟩
    rintro rfl
    exact hyx (h.inj y x m hy hx)

/-- A node that is not committed is taken back. -/
theorem retract (hx : s.slot x = some n) (hc : s.committed n = false) :
    SlotInv size Pub Lnk (s.set x none) ∧ Loose (s.set x none) n := by
  have hloose : Loose (s.set x none) n := by
    refine ⟨fun ht => (h.taken n ht).2 x hx, fun y hy => ?_⟩
    exact (h.slot_cleared hx hy).2 rfl
  refine ⟨⟨fun y m hy => h.placed y m (h.slot_cleared hx hy).1,
    fun y z m hy hz => h.inj y z m (h.slot_cleared hx hy).1 (h.slot_cleared hx hz).1,
    fun m hm => ⟨(h.taken m hm).1, fun y hy => (h.taken m hm).2 y (h.slot_cleared hx hy).1⟩,
    h.nodes, h.calls, fun m hm => ?_⟩, hloose⟩
  obtain ⟨h₁, h₂⟩ := h.committed m hm
  have hmn : m ≠ n := by
    rintro rfl
    exact absurd (hc.symm.trans hm) nofun
  exact ⟨h₁, h₂.imp_left fun ⟨y, hy, hl⟩ => ⟨y, slot_clear hx hy hmn, hl⟩⟩

theorem retract_kept (hx : s.slot x = some n) (hc : s.committed n = false)
    (ho : o ≠ .op (s.pusher n)) : SlotKept o s (s.set x none) := by
  refine ⟨le_rfl, fun _ _ => rfl, fun _ _ => rfl, List.prefix_refl _, fun _ hm => hm,
    fun m hm y hy => .inl (slot_clear hx hy ?_), fun a ha m _ hp => ⟨rfl, fun y hy =>
      .inl (slot_clear hx hy ?_), fun hl => ⟨hl.1, fun y hy => hl.2 y (h.slot_cleared hx hy).1⟩⟩,
    fun _ _ _ hm => hm, fun _ _ _ hm _ => hm⟩
  · rintro rfl
    exact absurd (hc.symm.trans hm) nofun
  · rintro rfl
    exact ho (hp ▸ ha)

/-- A pop takes a node. -/
theorem take (hx : s.slot x = some n) (hop : ∀ m, (m, op) ∉ s.takes) :
    SlotInv size Pub Lnk (s.take op x n) := by
  have hnot : ∀ d, (n, d) ∉ s.takes := fun d hd => (h.taken n ⟨d, hd⟩).2 x hx
  have hmem : ∀ {m}, Taken (s.take op x n) m → m = n ∨ Taken s m := by
    rintro m ⟨d, hd⟩
    rcases List.mem_append.1 hd with hd | hd
    · exact .inr ⟨d, hd⟩
    · exact .inl (Prod.mk.inj (List.mem_singleton.1 hd)).1
  refine ⟨fun y m hy => h.placed y m (h.slot_cleared hx hy).1,
    fun y z m hy hz => h.inj y z m (h.slot_cleared hx hy).1 (h.slot_cleared hx hz).1,
    fun m hm => ?_, ?_, ?_, fun m hm => ?_⟩
  · rcases hmem hm with rfl | hm
    · exact ⟨(h.placed x m hx).1, fun y hy => (h.slot_cleared hx hy).2 rfl⟩
    · exact ⟨(h.taken m hm).1, fun y hy => (h.taken m hm).2 y (h.slot_cleared hx hy).1⟩
  · exact nodup_map_snoc h.nodes fun y hy (e : y.1 = n) => hnot y.2 (e ▸ hy)
  · exact nodup_map_snoc h.calls fun y hy (e : y.2 = op) => hop y.1 (e ▸ hy)
  · obtain ⟨h₁, h₂⟩ := h.committed m hm
    refine ⟨h₁, ?_⟩
    by_cases hmn : m = n
    · subst hmn
      exact .inr ⟨op, List.mem_append_right _ (List.mem_singleton_self _)⟩
    · rcases h₂ with ⟨y, hy, hl⟩ | ⟨d, hd⟩
      · exact .inl ⟨y, slot_clear hx hy hmn, hl⟩
      · exact .inr ⟨d, List.mem_append_left _ hd⟩

theorem take_kept (hx : s.slot x = some n) (ho : o ≠ .op op) : SlotKept o s (s.take op x n) := by
  have hstay : ∀ m y, s.slot y = some m → (s.take op x n).slot y = some m ∨
    Taken (s.take op x n) m := by
    intro m y hy
    by_cases hmn : m = n
    · subst hmn
      exact .inr ⟨op, List.mem_append_right _ (List.mem_singleton_self _)⟩
    · exact .inl (slot_clear hx hy hmn)
  refine ⟨le_rfl, fun _ _ => rfl, fun _ _ => rfl, List.prefix_append _ _, fun _ hm => hm,
    fun m _ y hy => hstay m y hy, fun a ha m _ hp => ⟨rfl, fun y hy => hstay m y hy, fun hl => ?_⟩,
    fun a ha m hm => ?_, fun _ _ _ hm _ => hm⟩
  · refine ⟨fun ⟨d, hd⟩ => ?_, fun y hy => hl.2 y (h.slot_cleared hx hy).1⟩
    rcases List.mem_append.1 hd with hd | hd
    · exact hl.1 ⟨d, hd⟩
    · exact hl.2 x ((Prod.mk.inj (List.mem_singleton.1 hd)).1 ▸ hx)
  · rcases List.mem_append.1 hm with hm | hm
    · exact hm
    · exact absurd ((Prod.mk.inj (List.mem_singleton.1 hm)).2 ▸ ha) ho

/-! ### Slots without a committed node -/

omit h in
/-- A free slot stays free: the node that is put there is not committed. -/
theorem free_put (hc : s.committed n = false) (hy : Free s y) : Free (s.set x (some n)) y :=
  fun m hm => by
  rcases slot_set hm with ⟨-, e⟩ | ⟨-, hm⟩
  · exact Option.some.inj e ▸ hc
  · exact hy m hm

theorem free_clear (hx : s.slot x = some n) (hy : Free s y) : Free (s.set x none) y :=
  fun m hm => hy m (h.slot_cleared hx hm).1

omit h in
/-- A node in another slot is committed. -/
theorem free_commit (hy : Free s y) (hn : s.slot y ≠ some n) : Free (s.commit n) y := fun m hm => by
  have hmn : m ≠ n := by
    rintro rfl
    exact hn hm
  exact (Function.update_of_ne hmn _ _).trans (hy m hm)

end SlotInv

end StackKSegment
