import SemanticRelaxation.DcboLcrq.PartialQueue

/-!
# One ring of the LCRQ

An index of a ring belongs to one cell, and a cell serves the indices `i`, `i + size`, … one after
the other. A dequeue that has got an index and finds no item there makes sure that none will ever be
put in: it moves the cell on, or marks it while it still holds an older item.

* `RingInv size a`: the invariant of a ring;
* `Refused size a h`: no item can be put in at index `h` any more;
* `Evolves size a b`: what every step on a ring keeps;
* for each step, that it keeps the invariant and is allowed by `Evolves`.
-/

namespace DcboLcrq

namespace RingQueue

/-- The cell of an index. -/
def cell (a : RingQueue) (size h : ℕ) : RingNode := a.array (h % size)

theorem setCell_cell (a : RingQueue) (size h h' : ℕ) (x : RingNode) :
    (a.setCell (h % size) x).cell size h' = if h' % size = h % size then x else a.cell size h' := by
  show Function.update a.array (h % size) x (h' % size) = _
  unfold cell
  split
  next e => rw [e, Function.update_self]
  next e => rw [Function.update_of_ne e]

end RingQueue

open RingQueue

/-- The invariant of a ring. -/
structure RingInv (size : ℕ) (a : RingQueue) : Prop where
  cell : ∀ i < size, (a.array i).idx.index % size = i
  full : ∀ h, (a.cell size h).val ≠ -1 →
    (∃ op, a.stored (a.cell size h).idx.index = some (op, (a.cell size h).val)) ∧
      a.taken (a.cell size h).idx.index = none
  held : ∀ h op val, a.stored h = some (op, val) → a.taken h = none →
    (a.cell size h).val = val ∧ (a.cell size h).idx.index = h
  stored : ∀ h op val, a.stored h = some (op, val) → h < a.issued ∧ val ≠ -1
  claimed : ∀ h, (a.claims h).isSome ↔ h < a.head
  taken : ∀ h d, a.taken h = some d → a.claims h = some d ∧ (a.stored h).isSome ∧
    h < (a.cell size h).idx.index
  passed : ∀ h, a.passed h = true → h < a.head ∧
    ((a.cell size h).idx.index ≤ h → (a.cell size h).idx.mark = true)
  issued : a.issued ≤ a.tail.index ∧ (a.tail.mark = false → a.issued = a.tail.index)
  closed : a.tail.mark = true → 1 ≤ a.tail.index

/-- No item can be put in at index `h` any more. -/
def Refused (size : ℕ) (a : RingQueue) (h : ℕ) : Prop :=
  h < (a.cell size h).idx.index ∨ a.passed h = true

/-- How a ring changes. -/
structure Evolves (size : ℕ) (a b : RingQueue) : Prop where
  head : a.head ≤ b.head
  tail : a.tail.index ≤ b.tail.index
  closed : a.tail.mark = true → b.tail.mark = true
  items : b.itemsEnqueued = a.itemsEnqueued
  issued : a.issued ≤ b.issued
  frozen : a.tail.mark = true → b.issued = a.issued
  stored : ∀ h x, a.stored h = some x → b.stored h = some x
  claims : ∀ h d, a.claims h = some d → b.claims h = some d
  taken : ∀ h d, a.taken h = some d → b.taken h = some d
  refused : ∀ h, a.stored h = none → Refused size a h → b.stored h = none
  passed : ∀ h, a.passed h = true → b.passed h = true
  idx : ∀ h, (a.cell size h).idx.index ≤ (b.cell size h).idx.index
  val : ∀ h, (a.cell size h).val ≠ -1 → (b.cell size h).idx.index = (a.cell size h).idx.index →
    (b.cell size h).val = (a.cell size h).val
  newPassed : ∀ h, b.passed h = true → a.passed h = true ∨
    ((b.cell size h).idx.index = (a.cell size h).idx.index → (b.cell size h).val ≠ -1)

namespace Evolves

variable {size : ℕ} {a b c : RingQueue}

theorem refl (size : ℕ) (a : RingQueue) : Evolves size a a where
  head := le_rfl
  tail := le_rfl
  closed h := h
  items := rfl
  issued := le_rfl
  frozen _ := rfl
  stored _ _ h := h
  claims _ _ h := h
  taken _ _ h := h
  refused _ h _ := h
  passed _ h := h
  idx _ := le_rfl
  val _ _ _ := rfl
  newPassed _ h := .inl h

theorem keeps_refused {h : ℕ} (he : Evolves size a b) (hr : Refused size a h) : Refused size b h :=
  hr.imp (fun hlt => hlt.trans_le (he.idx h)) (he.passed h)

theorem trans (h : Evolves size a b) (h' : Evolves size b c) : Evolves size a c where
  head := h.head.trans h'.head
  tail := h.tail.trans h'.tail
  closed hm := h'.closed (h.closed hm)
  items := h'.items.trans h.items
  issued := h.issued.trans h'.issued
  frozen hm := (h'.frozen (h.closed hm)).trans (h.frozen hm)
  stored i x hx := h'.stored i x (h.stored i x hx)
  claims i d hd := h'.claims i d (h.claims i d hd)
  taken i d hd := h'.taken i d (h.taken i d hd)
  refused i hs hr := h'.refused i (h.refused i hs hr) (h.keeps_refused hr)
  passed i hp := h'.passed i (h.passed i hp)
  idx i := (h.idx i).trans (h'.idx i)
  val i hv hi := by
    have h₁ := h.idx i
    have h₂ := h'.idx i
    have hb := h.val i hv (by omega)
    rw [h'.val i (hb ▸ hv) (by omega), hb]
  newPassed i hp := by
    have h₁ := h.idx i
    have h₂ := h'.idx i
    rcases h'.newPassed i hp with hb | hc
    · rcases h.newPassed i hb with ha | hb
      · exact .inl ha
      · refine .inr fun he => ?_
        have hne := hb (by omega)
        rwa [h'.val i hne (by omega)]
    · exact .inr fun he => hc (by omega)

end Evolves

/-! ### The steps -/

variable {size : ℕ} {a : RingQueue} {op t h : ℕ}

theorem RingInv.init (size : ℕ) : RingInv size initRing where
  cell _ hi := Nat.mod_eq_of_lt hi
  full _ h := absurd rfl h
  held _ _ _ h := by cases h
  stored _ _ _ h := by cases h
  claimed h := ⟨nofun, fun h => absurd h (Nat.not_lt_zero _)⟩
  taken _ _ h := by cases h
  passed _ h := by cases h
  issued := ⟨le_rfl, fun _ => rfl⟩
  closed := nofun

namespace RingInv

variable (hi : RingInv size a)
include hi

theorem index_mod (hs : 0 < size) (h : ℕ) : (a.cell size h).idx.index % size = h % size :=
  hi.cell (h % size) (Nat.mod_lt _ hs)

/-- In an empty cell no item is left. -/
theorem taken_of_empty {h i : ℕ} (he : (a.cell size h).val = -1) (hm : i % size = h % size)
    {x : ℕ × ℤ} (hx : a.stored i = some x) : a.taken i ≠ none := by
  intro hnone
  obtain ⟨op, val⟩ := x
  have hv := (hi.held i op val hx hnone).1
  rw [RingQueue.cell, hm] at hv
  exact (hi.stored i op val hx).2 (hv.symm.trans he)

/-- An empty cell has no item at its index or later. -/
theorem unstored_of_empty {h i : ℕ} (he : (a.cell size h).val = -1) (hm : i % size = h % size)
    (hle : (a.cell size h).idx.index ≤ i) : a.stored i = none := by
  by_contra hne
  obtain ⟨x, hx⟩ := Option.ne_none_iff_exists'.1 hne
  obtain ⟨d, hd⟩ := Option.ne_none_iff_exists'.1 (hi.taken_of_empty he hm hx)
  have hlt := (hi.taken i d hd).2.2
  rw [RingQueue.cell, hm] at hlt
  exact absurd hle (not_le.2 hlt)

theorem addTail : RingInv size a.addTail ∧ Evolves size a a.addTail := by
  have hiss := hi.issued
  refine ⟨⟨hi.cell, hi.full, hi.held, fun h op val hs => ?_, hi.claimed, hi.taken, hi.passed, ?_,
    fun hm => Nat.le_add_left _ _⟩, ⟨le_rfl, Nat.le_succ _, fun h => h, rfl, ?_, fun hm => ?_,
    fun _ _ h => h, fun _ _ h => h, fun _ _ h => h, fun _ h _ => h, fun _ h => h, fun _ => le_rfl,
    fun _ _ _ => rfl, fun _ h => .inl h⟩⟩
  · obtain ⟨hlt, hne⟩ := hi.stored h op val hs
    refine ⟨?_, hne⟩
    show h < if a.tail.mark then a.issued else a.tail.index + 1
    split
    next => exact hlt
    next => omega
  · show (if a.tail.mark then a.issued else a.tail.index + 1) ≤ a.tail.index + 1 ∧
      (a.tail.mark = false → (if a.tail.mark then a.issued else a.tail.index + 1) =
        a.tail.index + 1)
    cases hm : a.tail.mark with
    | true => exact ⟨by simp only [if_true]; omega, nofun⟩
    | false => exact ⟨le_rfl, fun _ => rfl⟩
  · show a.issued ≤ if a.tail.mark then a.issued else a.tail.index + 1
    split
    next => exact le_rfl
    next => omega
  · show (if a.tail.mark then a.issued else a.tail.index + 1) = a.issued
    rw [if_pos hm]

theorem close (hpos : 1 ≤ a.tail.index) : RingInv size a.close ∧ Evolves size a a.close :=
  ⟨⟨hi.cell, hi.full, hi.held, hi.stored, hi.claimed, hi.taken, hi.passed, ⟨hi.issued.1, nofun⟩,
    fun _ => hpos⟩, ⟨le_rfl, le_rfl, fun _ => rfl, rfl, le_rfl, fun _ => rfl, fun _ _ h => h,
    fun _ _ h => h, fun _ _ h => h, fun _ h _ => h, fun _ h => h, fun _ => le_rfl, fun _ _ _ => rfl,
    fun _ h => .inl h⟩⟩

/-- The next index of the head has not been claimed yet. -/
theorem claims_head : a.claims a.head = none := by
  by_contra hne
  exact lt_irrefl _ ((hi.claimed a.head).1 (Option.isSome_iff_ne_none.2 hne))

theorem addHead (op : ℕ) : RingInv size (a.addHead op) ∧ Evolves size a (a.addHead op) := by
  have hnone := hi.claims_head
  have hclaims : ∀ h d, a.claims h = some d → (a.addHead op).claims h = some d := by
    intro h d hd
    show Function.update a.claims a.head (some op) h = some d
    have hne : h ≠ a.head := by
      rintro rfl
      rw [hnone] at hd
      cases hd
    rwa [Function.update_of_ne hne]
  refine ⟨⟨hi.cell, hi.full, hi.held, hi.stored, fun h => ?_, fun h d hd => ?_, fun h hp => ?_,
    hi.issued, hi.closed⟩, ⟨Nat.le_succ _, le_rfl, fun h => h, rfl, le_rfl, fun _ => rfl,
    fun _ _ h => h, hclaims, fun _ _ h => h, fun _ h _ => h, fun _ h => h, fun _ => le_rfl,
    fun _ _ _ => rfl, fun _ h => .inl h⟩⟩
  · show (Function.update a.claims a.head (some op) h).isSome ↔ h < a.head + 1
    by_cases he : h = a.head
    · subst he
      simp
    · rw [Function.update_of_ne he, hi.claimed]
      omega
  · obtain ⟨h₁, h₂, h₃⟩ := hi.taken h d hd
    exact ⟨hclaims h d h₁, h₂, h₃⟩
  · obtain ⟨h₁, h₂⟩ := hi.passed h hp
    exact ⟨h₁.trans (Nat.lt_succ_self _), h₂⟩

/-- The indexes of the cells still belong to them when a cell gets another one of its own. -/
theorem setCell_index {x : RingNode} (hx : x.idx.index % size = t % size) {i : ℕ} (hlt : i < size) :
    ((a.setCell (t % size) x).array i).idx.index % size = i := by
  show (Function.update a.array (t % size) x i).idx.index % size = i
  by_cases hit : i = t % size
  · subst hit
    rwa [Function.update_self]
  · rw [Function.update_of_ne hit]
    exact hi.cell i hlt

/-- An item is put into an empty cell at the index `t`, which no dequeue has given up. -/
theorem put (op : ℕ) {val : ℤ} (he : (a.cell size t).val = -1)
    (hle : (a.cell size t).idx.index ≤ t) (hlt : t < a.issued) (hval : val ≠ -1)
    (hfree : ∀ h, t ≤ h → h % size = t % size → a.passed h = false) :
    RingInv size (a.put size op t val) ∧ Evolves size a (a.put size op t val) := by
  have hnone : ∀ h, h % size = t % size → t ≤ h → a.stored h = none := fun h hm hge =>
    hi.unstored_of_empty he hm (hle.trans hge)
  have hcell : ∀ h, (a.put size op t val).cell size h =
      if h % size = t % size then ⟨val, ⟨t, false⟩⟩ else a.cell size h :=
    fun h => a.setCell_cell size t h ⟨val, ⟨t, false⟩⟩
  have hother : ∀ h, h ≠ t → (a.put size op t val).stored h = a.stored h :=
    fun h hne => Function.update_of_ne hne _ _
  have hself : (a.put size op t val).stored t = some (op, val) := Function.update_self ..
  have huntaken : a.taken t = none := by
    by_contra hne
    obtain ⟨d, hd⟩ := Option.ne_none_iff_exists'.1 hne
    have hsome := (hi.taken t d hd).2.1
    rw [hnone t rfl le_rfl] at hsome
    cases hsome
  have hkeep : ∀ h x, a.stored h = some x → (a.put size op t val).stored h = some x := by
    intro h x hx
    rw [hother h ?_, hx]
    rintro rfl
    rw [hnone h rfl le_rfl] at hx
    cases hx
  refine ⟨⟨fun i hlt => ?_, fun h hv => ?_, fun h o v hst hta => ?_, fun h o v hst => ?_,
    hi.claimed,
    fun h d hd => ?_, fun h hp => ?_, hi.issued, hi.closed⟩, ⟨le_rfl, le_rfl, fun h => h, rfl,
      le_rfl,
    fun _ => rfl, hkeep, fun _ _ h => h, fun _ _ h => h, fun h hst hr => ?_, fun _ h =>
      h, fun h => ?_,
    fun h hv _ => ?_, fun _ h => .inl h⟩⟩
  · exact hi.setCell_index (x := ⟨val, ⟨t, false⟩⟩) rfl hlt
  · rw [hcell] at hv ⊢
    split
    next => exact ⟨⟨op, hself⟩, huntaken⟩
    next hm =>
      rw [if_neg hm] at hv
      obtain ⟨⟨o, ho⟩, hta⟩ := hi.full h hv
      exact ⟨⟨o, hkeep _ _ ho⟩, hta⟩
  · rw [hcell]
    by_cases hht : h = t
    · subst hht
      rw [hself] at hst
      cases hst
      rw [if_pos rfl]
      exact ⟨rfl, rfl⟩
    · rw [hother h hht] at hst
      split
      next hm => exact absurd hta (hi.taken_of_empty he hm hst)
      next => exact hi.held h o v hst hta
  · by_cases hht : h = t
    · subst hht
      rw [hself] at hst
      cases hst
      exact ⟨hlt, hval⟩
    · rw [hother h hht] at hst
      exact hi.stored h o v hst
  · obtain ⟨h₁, h₂, h₃⟩ := hi.taken h d hd
    obtain ⟨x, hx⟩ := Option.isSome_iff_exists.1 h₂
    refine ⟨h₁, Option.isSome_iff_exists.2 ⟨x, hkeep h x hx⟩, ?_⟩
    rw [hcell]
    split
    next hm =>
      rw [RingQueue.cell, hm] at h₃
      exact h₃.trans_le hle
    next => exact h₃
  · obtain ⟨h₁, h₂⟩ := hi.passed h hp
    refine ⟨h₁, fun hge => ?_⟩
    rw [hcell] at hge ⊢
    split at hge
    next hm =>
      have hfalse := hfree h hge hm
      rw [show a.passed h = true from hp] at hfalse
      cases hfalse
    next hm =>
      rw [if_neg hm]
      exact h₂ hge
  · -- the index `t` is not refused
    refine (hother h ?_).trans hst
    rintro rfl
    rcases hr with hr | hr
    · exact absurd hle (not_le.2 hr)
    · rw [hfree h le_rfl rfl] at hr
      cases hr
  · rw [hcell]
    split
    next hm =>
      rw [RingQueue.cell, hm]
      exact hle
    next => exact le_rfl
  · rw [hcell]
    split
    next hm =>
      rw [RingQueue.cell, hm] at hv
      exact absurd he hv
    next => rfl

/-- The item of the index `h` is removed by the call that has got this index. -/
theorem take (hs : 0 < size) {u : Bool} (hv : (a.cell size h).val ≠ -1)
    (hidx : (a.cell size h).idx = ⟨h, u⟩) (hc : a.claims h = some op) :
    RingInv size (a.take size op h ⟨-1, ⟨h + size, u⟩⟩) ∧
      Evolves size a (a.take size op h ⟨-1, ⟨h + size, u⟩⟩) := by
  obtain ⟨⟨o, ho⟩, hta⟩ := hi.full h hv
  rw [hidx] at ho hta
  have hcell : ∀ j, (a.take size op h ⟨-1, ⟨h + size, u⟩⟩).cell size j =
      if j % size = h % size then ⟨-1, ⟨h + size, u⟩⟩ else a.cell size j :=
    fun j => a.setCell_cell size h j _
  have hold : ∀ j, j % size = h % size → (a.cell size j).idx = ⟨h, u⟩ := by
    intro j hm
    rw [RingQueue.cell, hm]
    exact hidx
  have hother : ∀ j, j ≠ h → (a.take size op h ⟨-1, ⟨h + size, u⟩⟩).taken j = a.taken j :=
    fun j hne => Function.update_of_ne hne _ _
  have hself : (a.take size op h ⟨-1, ⟨h + size, u⟩⟩).taken h = some op := Function.update_self ..
  refine ⟨⟨fun i hlt => ?_, fun j hne => ?_, fun j o' v hst hnone => ?_, hi.stored, hi.claimed,
    fun j d hd => ?_, fun j hp => ?_, hi.issued, hi.closed⟩, ⟨le_rfl, le_rfl, fun h => h, rfl,
      le_rfl,
    fun _ => rfl, fun _ _ h => h, fun _ _ h => h, fun j d hd => ?_, fun _ h _ => h, fun _ h => h,
    fun j => ?_, fun j _ he => ?_, fun _ h => .inl h⟩⟩
  · exact hi.setCell_index (Nat.add_mod_right h size) hlt
  · rw [hcell] at hne ⊢
    split at hne
    next => exact absurd rfl hne
    next hm =>
      rw [if_neg hm]
      obtain ⟨hst, hnone⟩ := hi.full j hne
      refine ⟨hst, (hother _ fun e => hm ?_).trans hnone⟩
      rw [← hi.index_mod hs j, e]
  · have hjh : j ≠ h := by
      rintro rfl
      rw [hself] at hnone
      cases hnone
    rw [hother j hjh] at hnone
    obtain ⟨h₁, h₂⟩ := hi.held j o' v hst hnone
    rw [hcell, if_neg fun hm => hjh ?_]
    · exact ⟨h₁, h₂⟩
    · rw [← h₂, hold j hm]
  · by_cases hjh : j = h
    · subst hjh
      rw [hself] at hd
      cases hd
      refine ⟨hc, Option.isSome_iff_exists.2 ⟨_, ho⟩, ?_⟩
      rw [hcell, if_pos rfl]
      exact Nat.lt_add_of_pos_right hs
    · rw [hother j hjh] at hd
      obtain ⟨h₁, h₂, h₃⟩ := hi.taken j d hd
      refine ⟨h₁, h₂, ?_⟩
      rw [hcell]
      split
      next hm =>
        rw [hold j hm] at h₃
        exact Nat.lt_add_right size h₃
      next => exact h₃
  · obtain ⟨h₁, h₂⟩ := hi.passed j hp
    refine ⟨h₁, fun hle => ?_⟩
    rw [hcell] at hle ⊢
    split at hle
    next hm =>
      rw [if_pos hm]
      rw [hold j hm] at h₂
      exact h₂ ((Nat.le_add_right h size).trans hle)
    next hm =>
      rw [if_neg hm]
      exact h₂ hle
  · refine (hother j ?_).trans hd
    rintro rfl
    rw [hta] at hd
    cases hd
  · rw [hcell]
    split
    next hm =>
      rw [hold j hm]
      exact Nat.le_add_right h size
    next => exact le_rfl
  · rw [hcell] at he ⊢
    split at he
    next hm =>
      rw [hold j hm] at he
      have he : h + size = h := he
      omega
    next hm => rw [if_neg hm]

/-- The index `h`, which a dequeue has got, is given up: the cell holds an older item. -/
theorem pass {cell : RingNode} (he : a.cell size h = cell) (hv : cell.val ≠ -1)
    (hh : h < a.head) :
    RingInv size (a.pass size h ⟨cell.val, ⟨cell.idx.index, true⟩⟩) ∧
      Evolves size a (a.pass size h ⟨cell.val, ⟨cell.idx.index, true⟩⟩) := by
  have hcell : ∀ j, (a.pass size h ⟨cell.val, ⟨cell.idx.index, true⟩⟩).cell size j =
      if j % size = h % size then ⟨cell.val, ⟨cell.idx.index, true⟩⟩ else a.cell size j :=
    fun j => a.setCell_cell size h j _
  have hold : ∀ j, j % size = h % size → a.cell size j = cell := by
    intro j hm
    rw [RingQueue.cell, hm]
    exact he
  -- only the mark of the cell changes
  have hval : ∀ j, ((a.pass size h ⟨cell.val, ⟨cell.idx.index, true⟩⟩).cell size j).val =
      (a.cell size j).val := by
    intro j
    rw [hcell]
    split
    next hm => rw [hold j hm]
    next => rfl
  have hidx : ∀ j, ((a.pass size h ⟨cell.val, ⟨cell.idx.index, true⟩⟩).cell size j).idx.index =
      (a.cell size j).idx.index := by
    intro j
    rw [hcell]
    split
    next hm => rw [hold j hm]
    next => rfl
  refine ⟨⟨fun i hlt => ?_, fun j hne => ?_, fun j o' v hst hnone => ?_, hi.stored, hi.claimed,
    fun j d hd => ?_, fun j hp => ?_, hi.issued, hi.closed⟩, ⟨le_rfl, le_rfl, fun h => h, rfl,
      le_rfl,
    fun _ => rfl, fun _ _ h => h, fun _ _ h => h, fun _ _ h => h, fun _ h _ => h, fun j hp => ?_,
    fun j => (hidx j).ge, fun j _ _ => hval j, fun j hp => ?_⟩⟩
  · have h₁ := hidx i
    rw [RingQueue.cell, Nat.mod_eq_of_lt hlt] at h₁
    rw [h₁, RingQueue.cell, Nat.mod_eq_of_lt hlt]
    exact hi.cell i hlt
  · rw [hval] at hne ⊢
    rw [hidx]
    exact hi.full j hne
  · rw [hval, hidx]
    exact hi.held j o' v hst hnone
  · rw [hidx]
    exact hi.taken j d hd
  · by_cases hjh : j = h
    · subst hjh
      refine ⟨hh, fun _ => ?_⟩
      rw [hcell, if_pos rfl]
    · have hp : a.passed j = true := by
        rw [← hp]
        exact (Function.update_of_ne hjh _ _).symm
      obtain ⟨h₁, h₂⟩ := hi.passed j hp
      refine ⟨h₁, fun hle => ?_⟩
      rw [hidx] at hle
      rw [hcell]
      split
      next => rfl
      next => exact h₂ hle
  · show Function.update a.passed h true j = true
    by_cases hjh : j = h
    · subst hjh
      rw [Function.update_self]
    · rwa [Function.update_of_ne hjh]
  · by_cases hjh : j = h
    · subst hjh
      refine .inr fun _ => ?_
      rwa [hval, he]
    · refine .inl ?_
      rw [← hp]
      exact (Function.update_of_ne hjh _ _).symm

/-- An empty cell is moved on from the index `h`. -/
theorem skip {cell : RingNode} (he : a.cell size h = cell) (hv : cell.val = -1)
    (hle : cell.idx.index ≤ h) :
    RingInv size (a.setCell (h % size) ⟨cell.val, ⟨h + size, cell.idx.mark⟩⟩) ∧
      Evolves size a (a.setCell (h % size) ⟨cell.val, ⟨h + size, cell.idx.mark⟩⟩) := by
  have hcell : ∀ j, (a.setCell (h % size) ⟨cell.val, ⟨h + size, cell.idx.mark⟩⟩).cell size j =
      if j % size = h % size then ⟨cell.val, ⟨h + size, cell.idx.mark⟩⟩ else a.cell size j :=
    fun j => a.setCell_cell size h j _
  have hold : ∀ j, j % size = h % size → a.cell size j = cell := by
    intro j hm
    rw [RingQueue.cell, hm]
    exact he
  refine ⟨⟨fun i hlt => ?_, fun j hne => ?_, fun j o' v hst hnone => ?_, hi.stored, hi.claimed,
    fun j d hd => ?_, fun j hp => ?_, hi.issued, hi.closed⟩, ⟨le_rfl, le_rfl, fun h => h, rfl,
      le_rfl,
    fun _ => rfl, fun _ _ h => h, fun _ _ h => h, fun _ _ h => h, fun _ h _ => h, fun _ hp => hp,
    fun j => ?_, fun j hne _ => ?_, fun _ hp => .inl hp⟩⟩
  · exact hi.setCell_index (Nat.add_mod_right h size) hlt
  · rw [hcell] at hne ⊢
    split at hne
    next => exact absurd hv hne
    next hm =>
      rw [if_neg hm]
      exact hi.full j hne
  · rw [hcell, if_neg fun hm => ?_]
    · exact hi.held j o' v hst hnone
    · exact hi.taken_of_empty ((congrArg RingNode.val he).trans hv) hm hst hnone
  · obtain ⟨h₁, h₂, h₃⟩ := hi.taken j d hd
    refine ⟨h₁, h₂, ?_⟩
    rw [hcell]
    split
    next hm =>
      rw [hold j hm] at h₃
      exact (h₃.trans_le hle).trans_le (Nat.le_add_right h size)
    next => exact h₃
  · obtain ⟨h₁, h₂⟩ := hi.passed j hp
    refine ⟨h₁, fun hge => ?_⟩
    rw [hcell] at hge ⊢
    split at hge
    next hm =>
      rw [if_pos hm]
      rw [hold j hm] at h₂
      exact h₂ ((hle.trans (Nat.le_add_right h size)).trans hge)
    next hm =>
      rw [if_neg hm]
      exact h₂ hge
  · rw [hcell]
    split
    next hm =>
      rw [hold j hm]
      exact hle.trans (Nat.le_add_right h size)
    next => exact le_rfl
  · rw [hcell]
    split
    next hm =>
      rw [hold j hm] at hne
      exact absurd hv hne
    next => rfl

end RingInv

/-! ### Rings that are not linked yet -/

/-- A ring that a thread has made, and perhaps prepared. -/
def Clean (a : RingQueue) : Prop := a = initRing ∨ ∃ op val items, a = initRing.prepare op val items

/-- A ring may be prepared again. -/
theorem Clean.prepare (h : Clean a) (op : ℕ) (val : ℤ) (items : ℕ) :
    a.prepare op val items = initRing.prepare op val items := by
  rcases h with rfl | ⟨op', val', items', rfl⟩
  · rfl
  · simp [RingQueue.prepare, setCell]

/-- A ring that has been prepared for its item. -/
theorem RingInv.prepare (size op : ℕ) {val : ℤ} (hval : val ≠ -1) (items : ℕ) :
    RingInv size (initRing.prepare op val items) := by
  obtain ⟨hinv, -⟩ := (RingInv.init size).addTail
  have h := (hinv.put (t := 0) op rfl (Nat.le_of_eq (Nat.zero_mod size))
    Nat.zero_lt_one hval fun _ _ _ => rfl).1
  have he : initRing.prepare op val items =
      { initRing.addTail.put size op 0 val with itemsEnqueued := items } := by
    unfold RingQueue.prepare RingQueue.put
    rw [Nat.zero_mod]
    rfl
  rw [he]
  exact ⟨h.cell, h.full, h.held, h.stored, h.claimed, h.taken, h.passed, h.issued, h.closed⟩

end DcboLcrq
