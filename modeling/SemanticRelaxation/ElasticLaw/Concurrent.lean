import SemanticRelaxation.ElasticLaw.GetSpecs
import SemanticRelaxation.Prog.History
import SemanticRelaxation.Prog.Between

/-!
# The elastic LaW queue under every interleaving

* `Still`: the steps that leave the windows, the nodes, the heads and the settings alone, and
  `Quiet`, where the windows may change;
* `lawQueue_rows`: whoever swings a put descriptor stores the row that the put window of the item
  gives it;
* `lawQueue_dequeues`: the get window is never missing and not above the put window, no assertion
  fails, and no head becomes `NULL` as long as no item is taken above the get window;
  `lawQueue_late` is a run where one does;
* `lawQueue_leaves`: the lateral head leaves no row behind, as long as it moves off windows only
  whose sub-queues all fail the test of `get_window`; `lawQueue_stale` is a run where it does not.
-/

namespace ElasticLaw

open AtomicProg Linked

namespace Watched

/-! ### The code keeps to its rules -/

variable {set : Params} {assume : State → State → Prop}
  {E : Results (object set).service (regime Call set assume)} {c : Caller} {v : View E.protocol c}

theorem updateWidth_spec {width : ℕ} (hw : Allocated set width) :
    wp E.protocol c (updateWidth width).onFst (fun _ v' => Along v v') v := by
  intro v₁ h₁ _ _
  have hi := inv_of v₁
  have hk := fun o => Kept.onSettings (s := v₁.state.1) (w := v₁.state.2) (g := v₁.now.2)
    (n := set.maxWidth)
    (o := o) width v₁.state.1.depth
  exact ⟨_, allows_step v₁ (hi.onSettings hw hi.depth) (fun h => (emptied_of v₁ h).onSettings _ _)
    fun o _ => hk o,
    (Along.of_le h₁).trans (.step (hk _))⟩

theorem updateDepth_spec {depth : ℕ} (hd : 0 < depth) :
    wp E.protocol c (updateDepth depth).onFst (fun _ v' => Along v v') v := by
  intro v₁ h₁ _ _
  have hi := inv_of v₁
  have hk := fun o => Kept.onSettings (s := v₁.state.1) (w := v₁.state.2) (g := v₁.now.2)
    (n := set.maxWidth)
    (o := o) v₁.state.1.width depth
  exact ⟨_, allows_step v₁ (hi.onSettings hi.width hd) (fun h => (emptied_of v₁ h).onSettings _ _)
    fun o _ => hk o,
    (Along.of_le h₁).trans (.step (hk _))⟩

theorem law_obligations (hp : set.WF) {width depth : ℕ} (hw : Allocated set width) (hd : 0 < depth)
    (assume : State → State → Prop) :
    Obligations (.trivial (object set).service (regime Call set assume)) (Call.Valid set)
      (fun _ l x => Known l x) (fun _ _ r v => Known r.1 v.pair)
      (initial set width depth, {}) .init .zero where
  init := ⟨inv_initial hw.1 hw.2 hd, fun _ => emptied_initial set width depth⟩
  init_fresh _ := True.intro
  init_loc _ := .zero
  loc_later _ _ _ _ _ _ hi _ hk h := h.later hi.1 hk.toLater
  post_stable _ _ _ _ _ h hkn := hkn.later (inv_of _) (later_of_le h)
  code t op call l v _ _ hok hkn _ := by
    cases call with
    | register => exact wp.bind_fst initThreadWindows_spec fun _ _ h => h
    | enqueue val => exact wp.bind_fst (enqueue_spec hp hkn val) fun _ _ h => h
    | dequeue => exact dequeue_spec hp hkn
    | updateWidth w =>
      exact wp.bind_fst (updateWidth_spec hok) fun _ _ h => hkn.later (inv_of v) h.later
    | updateDepth d =>
      exact wp.bind_fst (updateDepth_spec hok.1) fun _ _ h => hkn.later (inv_of v) h.later
  finish _ _ _ _ _ h := ⟨fun _ _ => True.intro, h⟩

end Watched

/-! ### Steps of the window functions -/

/-- A step that leaves the windows, the nodes, the heads and the settings alone. -/
structure Still (s s' : State) : Prop where
  lateral : s'.lateral = s.lateral
  nodes : s'.nodes = s.nodes
  get : s'.getArray = s.getArray
  width : s'.width = s.width
  depth : s'.depth = s.depth

theorem Still.refl (s : State) : Still s s := ⟨rfl, rfl, rfl, rfl, rfl⟩

section Still

variable {set : Params}

theorem still_read {α : Type} (f : State → α) : (Prog.read f).Steps Still := .read Still.refl f

theorem still_assert (b : Bool) : (assert b).Steps Still := by
  cases b with
  | true => exact True.intro
  | false => exact .update fun _ => ⟨rfl, rfl, rfl, rfl, rfl⟩

theorem still_readDescriptor (array : State → ℕ → Descriptor) (index : ℕ) :
    (readDescriptor array index).Steps Still :=
  .bind (still_read _) fun _ => .bind (still_read _) fun _ => True.intro

theorem still_randomIndex (width : ℕ) : (randomIndex width).Steps Still :=
  .bind (.choose Still.refl) fun _ => True.intro

theorem still_hop (index random hops width : ℕ) :
    (hop set index random hops width).Steps Still := by
  unfold hop TwoD.hop
  split
  · exact .bind (still_randomIndex _) fun _ => True.intro
  · exact True.intro

theorem still_followIndex (a b : Option ℕ) (i j : ℕ) : (followIndex a b i j).Steps Still :=
  .bind (still_read _) fun _ => .bind (still_read _) fun _ => True.intro

theorem still_loadPutWindow (tl : Local) (latTail : Option ℕ) :
    (loadPutWindow tl latTail).Steps Still :=
  .bind (still_read _) fun _ => True.intro

theorem still_loadGetWindow (tl : Local) (latHead : Option ℕ) :
    (loadGetWindow tl latHead).Steps Still :=
  .bind (still_read _) fun _ => .bind (still_read _) fun _ => True.intro

theorem still_moveGetWindow (tl : Local) : (moveGetWindow tl).Steps Still := by
  refine .bind (still_read _) fun next => .bind (still_assert _) fun _ => .bind ?_ fun _ =>
    .bind (still_read _) fun latHead => .bind (still_loadGetWindow _ _) fun _ =>
      .bind (still_assert _) fun _ => True.intro
  refine .bind (still_read _) fun next => .bind (still_assert _) fun _ => ?_
  exact .bind (.cae Still.refl fun _ _ => ⟨rfl, rfl, rfl, rfl, rfl⟩) fun _ => True.intro

theorem still_readPutCount (tl : Local) : (readPutCount tl).Steps Still := by
  refine .bind (still_read _) fun p => .bind (still_read _) fun g => ?_
  split
  · exact True.intro
  · exact still_read _

theorem still_getRound (st : Search) : (getRound set st).Steps Still := by
  refine .bind (still_readDescriptor _ _) fun d => .bind (still_readPutCount _) fun m =>
    .bind (still_read _) fun latHead => .bind (still_read _) fun w => ?_
  split
  · refine .bind (still_read _) fun next => ?_
    split
    · exact True.intro
    · exact .bind (still_loadGetWindow _ _) fun _ => True.intro
  · split
    · exact True.intro
    · split
      · exact .bind (still_hop _ _ _ _) fun _ => True.intro
      · refine .bind (still_read _) fun latTail => ?_
        split
        · exact .bind (still_moveGetWindow _) fun _ => True.intro
        · exact True.intro

theorem still_enterGet (tl : Local) : (enterGet tl).Steps Still := by
  refine .bind (still_read _) fun latHead => .bind (still_read _) fun next => ?_
  split
  · exact still_loadGetWindow _ _
  · exact True.intro

theorem still_getWindow (contention : Bool) (tl : Local) :
    (getWindow set contention tl).Steps Still := by
  refine .bind (.bind (still_read _) fun w => ?_) fun _ => .bind (still_enterGet _) fun _ =>
    .bind (.forever still_getRound _) fun _ => .bind (still_followIndex _ _ _ _) fun _ => True.intro
  split
  · exact still_randomIndex _
  · exact True.intro

theorem still_putCae (idx : ℕ) (old new : Descriptor) : (putCae idx old new).Steps Still :=
  .bind (.cae Still.refl fun _ _ => ⟨rfl, rfl, rfl, rfl, rfl⟩) fun _ => True.intro

theorem still_helpEnqueue (d : Descriptor) (contention : Bool) (tl : Local) :
    (helpEnqueue d contention tl).Steps Still :=
  .bind (still_read _) fun _ => .bind (still_read _) fun _ => .bind (still_read _) fun _ =>
    .bind (still_putCae _ _ _) fun _ => True.intro

theorem still_initThreadWindows : (initThreadWindows .zero).Steps Still :=
  .bind (still_read _) fun _ => .bind (still_read _) fun _ => .bind (still_read _) fun _ =>
    True.intro

end Still

/-- A step that leaves the nodes, the heads and the settings alone. -/
structure Quiet (s s' : State) : Prop where
  nodes : s'.nodes = s.nodes
  get : s'.getArray = s.getArray
  width : s'.width = s.width
  depth : s'.depth = s.depth

theorem Quiet.refl (s : State) : Quiet s s := ⟨rfl, rfl, rfl, rfl⟩

section Quiet

variable {set : Params}

theorem Still.quiet {s s' : State} (h : Still s s') : Quiet s s' :=
  ⟨h.nodes, h.get, h.width, h.depth⟩

/-- A program that leaves the windows alone. -/
theorem quiet_of_still {α : Type} {p : Prog State α} (hp : p.Steps Still) : p.Steps Quiet :=
  hp.mono fun _ _ h => h.quiet

theorem quiet_linkLateral (tail : Option ℕ) (max depth width : ℕ) :
    (linkLateral tail max depth width).Steps Quiet := by
  refine .bind (.read Quiet.refl _) fun next => ?_
  split
  · refine .bind (.update fun _ => ⟨rfl, rfl, rfl, rfl⟩) fun node => ?_
    exact .bind (.cae Quiet.refl fun _ _ => ⟨rfl, rfl, rfl, rfl⟩) fun _ => True.intro
  · exact True.intro

theorem quiet_tryShiftPut (tl : Local) (max : ℕ) : (tryShiftPut tl max).Steps Quiet := by
  refine .bind (.read Quiet.refl _) fun latTail => ?_
  split
  · refine .bind (.read Quiet.refl _) fun depth => .bind (.read Quiet.refl _) fun width =>
      .bind (.read Quiet.refl _) fun tail => ?_
    split
    · refine .bind (quiet_linkLateral _ _ _ _) fun _ => .bind (.read Quiet.refl _) fun next => ?_
      exact .bind (.cae Quiet.refl fun _ _ => ⟨rfl, rfl, rfl, rfl⟩) fun _ => True.intro
    · exact True.intro
  · exact True.intro

theorem quiet_putRound (st : Search) : (putRound set st).Steps Quiet := by
  refine .bind (quiet_of_still (still_readDescriptor _ _)) fun d =>
    .bind (.read Quiet.refl _) fun latTail =>
    .bind (.read Quiet.refl _) fun w => ?_
  split
  · exact .bind (quiet_of_still (still_loadPutWindow _ _)) fun _ => True.intro
  · split
    · exact quiet_of_still (.bind (still_assert _) fun _ => .bind (still_followIndex _ _ _ _)
        fun _ => True.intro)
    · split
      · exact .bind (quiet_of_still (still_hop _ _ _ _)) fun _ => True.intro
      · exact .bind (quiet_tryShiftPut _ _) fun _ =>
          quiet_of_still (.bind (still_read _) fun _ => .bind (still_loadPutWindow _ _)
            fun _ => True.intro)

theorem quiet_putWindow (contention : Bool) (tl : Local) :
    (putWindow set contention tl).Steps Quiet := by
  refine .bind (.read Quiet.refl _) fun latTail => .bind (.read Quiet.refl _) fun w =>
    .bind (quiet_of_still ?_) fun index => .forever quiet_putRound _
  unfold startIndex
  split
  · exact still_randomIndex _
  · exact True.intro

end Quiet

/-! ### One thing at a time -/

/-- A step leaves the put descriptors or the nodes alone. -/
def Apart (s s' : State) : Prop := s'.putArray = s.putArray ∨ s'.nodes = s.nodes

theorem Apart.refl (s : State) : Apart s s := .inl rfl

section Steps

variable {set : Params}

theorem apart_of_quiet {α : Type} {p : Prog State α} (hp : p.Steps Quiet) : p.Steps Apart :=
  hp.mono fun _ _ h => .inr h.nodes

theorem apart_of_still {α : Type} {p : Prog State α} (hp : p.Steps Still) : p.Steps Apart :=
  hp.mono fun _ _ h => .inr h.nodes

theorem steps_enqueue (val : ℤ) (tl : Local) : (enqueue set val tl).Steps Apart := by
  have hput : ∀ idx old new, (putCae idx old new).Steps Apart := fun _ _ _ =>
    apart_of_still (still_putCae _ _ _)
  have hassert : ∀ b, (assert b).Steps Apart := fun _ => apart_of_still (still_assert _)
  have hlink : ∀ n contention tl d w, (tryLink n contention tl d w).Steps Apart := by
    intro n contention tl d w
    refine .bind (.read Apart.refl _) fun next => ?_
    split
    · refine .bind (.bind (.cae Apart.refl fun _ _ => .inl rfl) fun _ => True.intro) fun done => ?_
      split
      · exact .bind (hassert _) fun _ => True.intro
      · exact True.intro
    · refine .bind (.read Apart.refl _) fun next => .bind (hput _ _ _) fun done => ?_
      split
      · exact .bind (hassert _) fun _ => True.intro
      · exact True.intro
  have hround : ∀ n contention tl, (enqueueRound set n contention tl).Steps Apart := by
    intro n contention tl
    refine .bind (apart_of_quiet (quiet_putWindow _ _)) fun r => .bind (hassert _) fun _ =>
      .bind (.read Apart.refl _) fun w => .bind (hassert _) fun _ =>
        .bind (.read Apart.refl _) fun count => ?_
    split
    · exact True.intro
    · exact hlink _ _ _ _ _
  refine .bind (.update fun _ => .inl rfl) fun n => .bind (.forever (fun b => hround n b.1 b.2) _)
    fun r => ?_
  exact .bind (hassert _) fun _ => .bind (hput _ _ _) fun _ => True.intro

theorem steps_dequeue (tl : Local) : (dequeue set tl).Steps Apart := by
  have hsafe : ∀ d tl, (safeDeq d tl).Steps Apart := by
    intro d tl
    refine .bind (.read Apart.refl _) fun next => .bind (.read Apart.refl _) fun w =>
      .bind (.bind (.cae Apart.refl fun _ _ => .inl rfl) fun _ => True.intro) fun done => ?_
    split
    · exact .bind (.read Apart.refl _) fun _ => True.intro
    · exact True.intro
  have hround : ∀ contention tl, (dequeueRound set contention tl).Steps Apart := by
    intro contention tl
    refine .bind (apart_of_still (still_getWindow _ _)) fun r => .bind (.read Apart.refl _) fun p =>
      .bind (.read Apart.refl _) fun g => ?_
    split
    · exact hsafe _ _
    · refine .bind (apart_of_still (still_readDescriptor _ _)) fun e => ?_
      dsimp only
      split
      · refine .bind (.read Apart.refl _) fun next => ?_
        split
        · exact True.intro
        · exact .bind (apart_of_still (still_helpEnqueue _ _ _)) fun _ => True.intro
      · exact hsafe _ _
  exact .bind (.read Apart.refl _) fun _ => .forever (fun b => hround b.1 b.2) _

theorem steps_code (call : Call) (tl : Local) : ((object set).code call tl).Steps Apart := by
  cases call with
  | register => exact .bind (apart_of_still still_initThreadWindows) fun _ => True.intro
  | enqueue val => exact .bind (steps_enqueue val tl) fun _ => True.intro
  | dequeue => exact steps_dequeue tl
  | updateWidth w => exact .bind (.update fun _ => .inl rfl) fun _ => True.intro
  | updateDepth d => exact .bind (.update fun _ => .inl rfl) fun _ => True.intro

end Steps

namespace Watched

open Windowed MichaelScott

section Rows

variable {set : Params} {s : State} {w : Watch} {g : Ghost} {x x' : (State × Watch) × Ghost}
  {i k : ℕ}

/-- The bottom of a window as a difference of numbers. -/
theorem Tiled.bottom_eq_sub (h : Tiled set s.lateral) (hk : k + 1 < s.line.length) :
    (s.win (k + 1)).bottom = (s.win (k + 1)).max - (s.win (k + 1)).depth := by
  have h₁ : (s.win (k + 1)).max = (s.win k).max + (s.win (k + 1)).depth := h.tile k hk
  exact Words.usub_of_le (by omega)

/-- The link of a put descriptor leads to the next node of the sub-queue. -/
theorem Inv.put_next (h : Inv set s w g) (hi : i < set.maxWidth) :
    (s.nodes.deref (s.putArray i).node).next = (s.nodes.line i)[g.places.putPos i + 1]? := by
  obtain ⟨t, ht⟩ : ∃ t, (s.putArray i).node = some t := h.filled.valid.tail_some hi
  have hline : (s.nodes.line i)[g.places.putPos i]? = (s.putArray i).node :=
    h.filled.valid.tail i hi
  rw [ht] at hline ⊢
  exact h.filled.valid.lines.next i hi _ t hline

/-- An item is in the rows of its window. -/
theorem Inv.item_rows (h : Inv set s w g) {y : Item Tag} (hy : y ∈ s.nodes.hist.added) :
    y.tag.window.max - y.tag.window.depth < y.tag.row ∧ y.tag.row ≤ y.tag.window.max := by
  obtain ⟨k, hk, hwin, -, hb, hm⟩ := h.items.window y hy
  have hlt := h.tail_lt
  rw [h.tiled.bottom_eq_sub (by omega)] at hb
  rw [hwin]
  exact ⟨hb, hm⟩

/-- The rows of a sub-queue increase. -/
theorem Inv.item_lt (h : Inv set s w g) {y z : Item Tag} (hy : y ∈ s.nodes.hist.added)
    (hz : z ∈ s.nodes.hist.added) (hidx : y.idx = z.idx) (hpos : y.pos < z.pos) :
    y.tag.row < z.tag.row := by
  obtain ⟨hi, -, hry⟩ := h.items.placed y hy
  obtain ⟨-, -, hrz⟩ := h.items.placed z hz
  rw [← hidx] at hrz
  exact lt_of_getElem? (h.filled.sorted _ hi) hry hrz hpos

/-- The item behind a put descriptor was linked in the present put window, with the row that
follows. -/
theorem Inv.pending_item (h : Inv set s w g) (hi : i < set.maxWidth) {y : Item Tag}
    (hy : y ∈ s.nodes.hist.added) (hidx : y.idx = i) (hpos : y.pos = g.places.putPos i + 1) :
    y.tag.window = s.win (g.tail + 1) ∧
      y.tag.row = max (s.putArray i).count (y.tag.window.max - y.tag.window.depth) + 1 := by
  subst hidx
  obtain ⟨-, -, hrow⟩ := h.items.placed y hy
  obtain ⟨k, hk, hwin, -, hb, hm⟩ := h.items.window y hy
  have hlt := h.tail_lt
  rw [hpos] at hrow
  obtain ⟨hr, hcount, -⟩ := h.filled.pending y.idx hi _ hrow
  have hr : y.tag.row = Windowed.nextRow (s.win (g.tail + 1)).bottom (s.putArray y.idx).count := hr
  have hcount : (s.putArray y.idx).count < (s.win (g.tail + 1)).max := hcount
  have hgt := nextRow_gt (s.win (g.tail + 1)).bottom (s.putArray y.idx).count
  have hle := Windowed.nextRow_le hcount (h.tiled.bottom_lt hlt)
  obtain rfl : k = g.tail := h.tiled.eq_of_row (show k + 1 < s.line.length by omega) hlt hb hm
    (hr ▸ hgt.2) (hr ▸ hle)
  refine ⟨hwin, ?_⟩
  rw [hr, hwin, ← h.tiled.bottom_eq_sub hlt]
  unfold Windowed.nextRow
  split <;> omega

/-- A put descriptor that changes while the nodes stay is swung onto the item behind it. -/
theorem Inv.swung (h : Inv set x.1.1 x.1.2 x.2) (h' : Inv set x'.1.1 x'.1.2 x'.2) (hl : Later x x')
    (hi : i < set.maxWidth) (hnodes : x'.1.1.nodes = x.1.1.nodes)
    (hne : x'.1.1.putArray i ≠ x.1.1.putArray i) : ∃ y ∈ x.1.1.nodes.hist.added, y.idx = i ∧
      y.pos = x.2.places.putPos i + 1 ∧ x'.1.1.putArray i = ⟨some y.node, y.tag.row⟩ := by
  have hlen : (x.2.places.rows i).length = (x.1.1.nodes.line i).length := h.filled.length i hi
  have hlen' : (x'.2.places.rows i).length = (x'.1.1.nodes.line i).length := h'.filled.length i hi
  rw [hnodes] at hlen'
  have hrows : x'.2.places.rows i = x.2.places.rows i :=
    ((hl.queues.rows i).eq_of_length (hlen.trans hlen'.symm)).symm
  have htail : (x.1.1.nodes.line i)[x.2.places.putPos i]? = (x.1.1.putArray i).node :=
    h.filled.valid.tail i hi
  have htail' : (x'.1.1.nodes.line i)[x'.2.places.putPos i]? = (x'.1.1.putArray i).node :=
    h'.filled.valid.tail i hi
  have hcount : (x.2.places.rows i)[x.2.places.putPos i]? = some (x.1.1.putArray i).count :=
    h.filled.count i hi
  have hcount' : (x'.2.places.rows i)[x'.2.places.putPos i]? = some (x'.1.1.putArray i).count :=
    h'.filled.count i hi
  rw [hnodes] at htail'
  rw [hrows] at hcount'
  have hpos : x.2.places.putPos i < x'.2.places.putPos i := by
    refine lt_of_le_of_ne (hl.queues.putPos i) fun he => hne ?_
    rw [← he] at htail' hcount'
    have hnode := htail'.symm.trans htail
    have hsame := Option.some.inj (hcount'.symm.trans hcount)
    exact congrArg₂ Descriptor.mk hnode hsame
  have hnear : x.2.places.putPos i + 1 = (x.1.1.nodes.line i).length ∨
    x.2.places.putPos i + 2 = (x.1.1.nodes.line i).length := h.filled.valid.near i hi
  have hlt' := (List.getElem?_eq_some_iff.1 hcount').1
  have hnext : x'.2.places.putPos i = x.2.places.putPos i + 1 := by omega
  obtain ⟨y, hy, hidx, hypos⟩ := h.items.all i hi (x.2.places.putPos i + 1) (Nat.succ_pos _)
    (by omega)
  obtain ⟨-, hline, hrow⟩ := h.items.placed y hy
  rw [hidx, hypos] at hline hrow
  rw [hnext] at htail' hcount'
  refine ⟨y, hy, hidx, hypos, congrArg₂ Descriptor.mk ?_ ?_⟩
  · exact htail'.symm.trans hline
  · exact Option.some.inj (hcount'.symm.trans hrow)

end Rows

end Watched

/-! ### The results -/

instance (set : Params) : DecidablePred (Call.Valid set) := fun call =>
  match call with
  | .register => inferInstanceAs (Decidable True)
  | .enqueue _ => inferInstanceAs (Decidable True)
  | .dequeue => inferInstanceAs (Decidable True)
  | .updateWidth _ => inferInstanceAs (Decidable (_ ∧ _))
  | .updateDepth _ => inferInstanceAs (Decidable (_ ∧ _))

/-- The check of the arguments. -/
def Call.valid (set : Params) (call : Call) : Bool := decide (Call.Valid set call)

theorem Call.of_valid {set : Params} {call : Call} (h : call.valid set = true) : call.Valid set :=
  of_decide_eq_true h

/-- As long as an item is linked behind the put descriptor of its sub-queue, the put window is the
one it was enqueued in. Whoever swings the descriptor onto the item stores the row above the put
count and above the bottom of that window; the rows of a sub-queue increase, and each is in its
window. -/
theorem lawQueue_rows {maxWidth width depth : ℕ} (hm : maxWidth < 2 ^ 16)
    (hw : 1 ≤ width ∧ width ≤ maxWidth) (hd : 1 ≤ depth)
    {p : Pool (object (params maxWidth)).service}
    (hr : AtomicProg.Reach (fun call _ => Call.Valid (params maxWidth) call) (fun _ _ => True)
      (initial (params maxWidth) width depth) .zero p) :
    (∀ x ∈ p.world.shared.nodes.hist.added,
      (p.world.shared.nodes.deref (p.world.shared.putArray x.idx).node).next =
      some x.node → x.tag.window = (p.world.shared.lateral.deref p.world.shared.lateralTail).val) ∧
    (∀ (p' : Pool (object (params maxWidth)).service) (t n : ℕ), p.move (.step t n) = some p' →
      ∀ i < maxWidth, p'.world.shared.putArray i ≠ p.world.shared.putArray i →
        ∃ x ∈ p.world.shared.nodes.hist.added, x.idx = i ∧
          (p.world.shared.nodes.deref (p.world.shared.putArray i).node).next = some x.node ∧
          p'.world.shared.putArray i = ⟨some x.node, max (p.world.shared.putArray i).count
            (x.tag.window.max - x.tag.window.depth) + 1⟩ ∧
          (p'.world.shared.putArray i).count = x.tag.row) ∧
    (∀ x ∈ p.world.shared.nodes.hist.added,
      x.tag.window.max - x.tag.window.depth < x.tag.row ∧ x.tag.row ≤ x.tag.window.max) ∧
    ∀ x ∈ p.world.shared.nodes.hist.added, ∀ y ∈ p.world.shared.nodes.hist.added,
      x.idx = y.idx → x.pos < y.pos → x.tag.row < y.tag.row := by
  have hp : (params maxWidth).WF := ⟨hm, (by decide : 2 < 2 ^ 16)⟩
  have hcode := fun (_ : Caller) => Watched.object_annotates (params maxWidth)
  obtain ⟨P, hP, ha⟩ := Reach.annotated (Call.Valid (params maxWidth)) hcode {} hr
  have himp := (Watched.law_obligations hp hw hd fun _ _ => True).implements
  obtain ⟨g, hinv⟩ := himp.inv hP
  have hi : Watched.Inv (params maxWidth) P.world.shared.1 P.world.shared.2 g := hinv.1.1
  have hshared := ha.world.shared
  rw [← hshared]
  refine ⟨fun x hx hnext => ?_, fun p' t n hmove i hlt hne => ?_, fun x hx => hi.item_rows hx,
    fun x hx y hy hidx hpos => hi.item_lt hx hy hidx hpos⟩
  · obtain ⟨hidx, hline, -⟩ := hi.items.placed x hx
    have hpos : x.pos = g.places.putPos x.idx + 1 :=
      hi.filled.pos_eq hidx hline ((hi.put_next hidx).symm.trans hnext)
    rw [(hi.pending_item hidx hx rfl hpos).1]
    exact hi.tail_stands.val.symm
  · obtain ⟨P', hmove', ha'⟩ := ha.move hcode hmove
    have hsteps := hr.move_steps (fun _ call tl => steps_code call tl) Apart.refl hmove
    rw [← hshared, ← ha'.world.shared] at hsteps
    rw [← ha'.world.shared] at hne ⊢
    have hnodes : P'.world.shared.1.nodes = P.world.shared.1.nodes :=
      hsteps.resolve_left fun h => hne (congrFun h i)
    obtain ⟨g₁, g₂, hinv₁, hinv₂, hf⟩ := himp.move_frame hP hmove' nofun True.intro
    have hk : Watched.Kept maxWidth (.op (P.world.calls.length + 1)) (World.pair (P.world, g₁))
        (World.pair (P'.world, g₂)) := hf _ (Nat.lt_succ_self _)
    have hi₁ : Watched.Inv (params maxWidth) P.world.shared.1 P.world.shared.2 g₁ := hinv₁.1.1
    obtain ⟨x, hx, rfl, hpos, hput⟩ := hi₁.swung hinv₂.1.1 hk.toLater hlt hnodes hne
    have hput : P'.world.shared.1.putArray x.idx = ⟨some x.node, x.tag.row⟩ := hput
    obtain ⟨-, hline, -⟩ := hi₁.items.placed x hx
    rw [hpos] at hline
    refine ⟨x, hx, rfl, (hi₁.put_next hlt).trans hline, ?_, congrArg Descriptor.count hput⟩
    rw [hput, ← (hi₁.pending_item hlt hx rfl hpos).2]

/-- An item is linked, and its put descriptor not swung yet. -/
def pendingOne : List (Move (object (params 2)).service) :=
  List.flatten [
    Move.start 0 Call.register 4 0,
    Move.start 0 (Call.enqueue 7) 15 0]

/-- The descriptor is swung to row 1. -/
theorem lawQueue_rows_one :
    ∃ p p' : Pool (object (params 2)).service, p.move (.step 0 0) = some p' ∧
    (p'.world.shared.putArray 0).count = 1 ∧ ∃ x ∈ p.world.shared.nodes.hist.added, x.idx = 0 ∧
      p'.world.shared.putArray 0 = ⟨some x.node, max (p.world.shared.putArray 0).count
        (x.tag.window.max - x.tag.window.depth) + 1⟩ := by
  have h : (((Pool.init (object (params 2)).service (initial (params 2) 1 1) .zero).exec
    pendingOne).any fun p =>
      (p.move (.step 0 0)).any fun p' => decide ((p'.world.shared.putArray 0).count = 1 ∧
        p'.world.shared.putArray 0 ≠ p.world.shared.putArray 0)) = true := by
    decide +kernel
  have hok : Move.allow (Call.valid (params 2)) pendingOne = true := by decide +kernel
  obtain ⟨p, hp, hc⟩ := Pool.exec_of_check h
  obtain ⟨p', hmove, hc'⟩ := (Option.any_eq_true _ _).1 hc
  obtain ⟨hcount, hne⟩ := of_decide_eq_true hc'
  obtain ⟨x, hx, hidx, -, hput, -⟩ := (lawQueue_rows (by decide) (by decide) le_rfl
    (Pool.exec_reach hp (fun _ _ hm _ => Call.of_valid (Move.valid_of_allow hok hm)) .init)).2.1 p'
    0 0 hmove 0
    (by decide) hne
  exact ⟨p, p', hmove, hcount, x, hx, hidx, hput⟩

namespace Watched

section Heads

variable {set : Params} {s : State} {w : Watch} {g : Ghost}

/-- In a run without a late dequeue no head is `NULL`. -/
theorem Inv.head_ne_none (h : Inv set s w g) (hlate : w.late = false) {i : ℕ}
    (hi : i < set.maxWidth) : (s.getArray i).node ≠ none := by
  obtain ⟨t, ht⟩ := h.filled.valid.head_some hi
  have hnode : (s.getArray i).node = _ := (h.headed hlate).node i hi
  rw [hnode]
  exact ne_of_eq_of_ne ht (Option.some_ne_none t)

instance (s : State) (j : ℕ) : Decidable (Passes s j) := inferInstanceAs (Decidable (_ ∧ _))

/-- A step that does not take an item off a sub-queue whose get count has reached the maximum of the
get window, and that moves the lateral head off a get window only if no sub-queue of it passes the
test of `get_window`. -/
structure Timely (x x' : State × Watch) : Prop where
  late : x'.2.late = false
  shift : x'.1.lateralHead ≠ x.1.lateralHead → ∀ j < (getWin x.1).width, ¬ Passes x.1 j

instance (x x' : State × Watch) : Decidable (Timely x x') :=
  decidable_of_iff (x'.2.late = false ∧
    (x'.1.lateralHead ≠ x.1.lateralHead → ∀ j < (getWin x.1).width, ¬ Passes x.1 j))
    ⟨fun h => ⟨h.1, h.2⟩, fun h => ⟨h.1, h.2⟩⟩

/-- Runs of such steps are orderly. -/
theorem keeps_orderly (hp : set.WF) {width depth : ℕ} (hw : Allocated set width) (hd : 0 < depth) :
    Keeps (S := (object set).service) (fun call _ => Call.Valid set call) Timely
      (fun x x' => Orderly set x.1 x'.1)
      (initial set width depth, {}) .zero := by
  intro P P' t n hr hm ht
  have hany : AtomicProg.Reach (fun call _ => Call.Valid set call) (fun _ _ => True)
    (initial set width depth, {}) .zero P :=
    hr.strengthen fun _ _ _ _ _ _ _ => True.intro
  obtain ⟨g, hinv⟩ := (law_obligations hp hw hd fun _ _ => True).implements.inv
    (.step t n hany hm True.intro)
  have hi : Inv set P'.world.shared.1 P'.world.shared.2 g := hinv.1.1
  exact ⟨ht.shift, fun j hj => hi.head_ne_none ht.late hj⟩

/-- The items that are present once the lateral head has moved off a window. -/
theorem Emptied.lt_row {x : Item Tag} {k : ℕ} (he : Emptied set s g) (hi : Inv set s w g)
    (hk : k < g.head) (hx : x ∈ s.nodes.hist.present) (hidx : x.idx < (s.win (k + 1)).width) :
    (s.win (k + 1)).max < x.tag.row := by
  obtain ⟨hpos, -⟩ := he.lists.behind x hx
  obtain ⟨hlt, hline, hrow⟩ := hi.items.placed x (he.lists.conserved.mem_added hx)
  have hlen := (List.getElem?_eq_some_iff.1 hrow).1
  have hfront := List.getElem?_eq_getElem
    (show g.front x.idx < (g.places.rows x.idx).length from hpos.trans hlen)
  have h₁ := he.passed k hk x.idx hidx
  have h₂ := he.le x.idx hlt _ hfront
  have h₃ := Windowed.lt_of_getElem? (hi.filled.sorted _ hlt) hfront hrow hpos
  omega

end Heads

end Watched

/-- The node behind the lateral head is never missing and not behind the lateral tail, and no
assertion fails. In a run in which no dequeue takes an item off a sub-queue whose get count has
reached the maximum of its get window, no head becomes `NULL`. -/
theorem lawQueue_dequeues {maxWidth width depth : ℕ} (hm : maxWidth < 2 ^ 16)
    (hw : 1 ≤ width ∧ width ≤ maxWidth) (hd : 1 ≤ depth)
    {p : Pool (Watched.object (params maxWidth)).service}
    (hr : AtomicProg.Reach (fun call _ => Call.Valid (params maxWidth) call) (fun _ _ => True)
      (initial (params maxWidth) width depth, {}) .zero p) :
    (∃ k l : ℕ, k ≤ l ∧ (∃ a, (p.world.shared.1.lateral.deref p.world.shared.1.lateralHead).next =
      some a ∧
      p.world.shared.1.line[k]? = some a) ∧
        p.world.shared.1.line[l]? = p.world.shared.1.lateralTail) ∧
    p.world.shared.1.failed = false ∧
    (p.world.shared.2.late = false → ∀ i < maxWidth, (p.world.shared.1.getArray i).node ≠
      none) := by
  have hp : (params maxWidth).WF := ⟨hm, (by decide : 2 < 2 ^ 16)⟩
  obtain ⟨g, hinv⟩ := (Watched.law_obligations hp hw hd fun _ _ => True).implements.inv hr
  have hi : Watched.Inv (params maxWidth) p.world.shared.1 p.world.shared.2 g := hinv.1.1
  obtain ⟨a, ha⟩ := hi.head_next le_rfl hi.head_node
  refine ⟨⟨g.head + 1, g.tail + 1, Nat.succ_le_succ hi.order, ⟨a, ha, ?_⟩, hi.tail_node.symm⟩,
    hi.asserted,
    fun hlate i hlt => hi.head_ne_none hlate hlt⟩
  exact hi.head_stands.node.symm.trans ha

/-- Two rows, and a dequeue that does not look at a tail. -/
def oneDequeue : List (Move (Watched.object (params 2)).service) :=
  List.flatten [
    Move.start 0 Call.register 4 0,
    Move.start 0 (Call.enqueue 7) 17 0,
    Move.start 0 (Call.enqueue 7) 50 0,
    Move.start 0 Call.dequeue 21 0]

/-- A dequeue in the get window below the put window. -/
theorem lawQueue_dequeues_two : ∃ p : Pool (Watched.object (params 2)).service,
    (p.world.shared.1.getArray 0).count = 1 ∧ p.world.shared.1.failed = false ∧
      ∀ i < 2, (p.world.shared.1.getArray i).node ≠ none := by
  have h : (((Pool.init (Watched.object (params 2)).service (initial (params 2) 1 1, {}) .zero).exec
      oneDequeue).any fun p =>
      decide ((p.world.shared.1.getArray 0).count = 1 ∧ p.world.shared.2.late = false)) = true := by
    decide +kernel
  have hok : Move.allow (Call.valid (params 2)) oneDequeue = true := by decide +kernel
  obtain ⟨p, hp, hc⟩ := Pool.exec_of_check h
  obtain ⟨hcount, hlate⟩ := of_decide_eq_true hc
  have hsafe := (lawQueue_dequeues (by decide) (by decide) le_rfl
    (Pool.exec_reach hp (fun _ _ hm _ => Call.of_valid (Move.valid_of_allow hok hm)) .init)).2
  exact ⟨p, hcount, hsafe.1, hsafe.2 hlate⟩

/-- The width goes from 2 to 1 and back. -/
def narrowing : List (Move (object (params 2)).service) :=
  List.flatten [
    Move.start 0 Call.register 4 0,
    Move.start 1 Call.register 4 0,
    Move.start 0 (Call.enqueue 7) 17 0,
    Move.start 0 (Call.enqueue 7) 23 1,
    Move.start 0 Call.dequeue 24 0,
    Move.start 0 Call.dequeue 50 1,
    Move.start 1 Call.dequeue 48 1,
    Move.start 0 (Call.updateWidth 1) 2 0,
    Move.start 0 (Call.enqueue 7) 55 0,
    Move.start 0 (Call.updateWidth 2) 2 0,
    Move.start 0 (Call.enqueue 7) 50 0,
    Move.start 0 (Call.enqueue 7) 23 1,
    List.replicate 11 (.step 1 1),
    Move.start 0 (Call.updateWidth 1) 2 0,
    Move.start 0 (Call.enqueue 7) 55 0,
    Move.start 0 Call.dequeue 65 0,
    Move.start 0 Call.dequeue 58 0,
    Move.start 0 Call.dequeue 26 1]

/-- A dequeue has found nothing in row 1 and stops before it looks at the tail. It then takes the
item of row 3 for one of row 2, as the width has been 1 for row 2. The next dequeue of this
sub-queue relies on the bottom 3 of the put window: its exchange of the get descriptor succeeds, and
there is no node behind the head. -/
theorem lawQueue_late : ∃ p p' : Pool (object (params 2)).service,
    AtomicProg.Reach (fun call _ => Call.Valid (params 2) call) (fun _ _ => True)
      (initial (params 2) 2 1) .zero p ∧
      p.move (.step 0 1) = some p' ∧ p'.world.shared.getArray 1 ≠ p.world.shared.getArray 1 ∧
      (p.world.shared.getArray 1).node = (p.world.shared.putArray 1).node ∧
      (p.world.shared.nodes.deref (p.world.shared.getArray 1).node).next = none ∧
      (p'.world.shared.getArray 1).node = none := by
  have h : (((Pool.init (object (params 2)).service (initial (params 2) 2 1) .zero).exec
    narrowing).any fun p =>
      (p.move (.step 0 1)).any fun p' =>
        decide (p'.world.shared.getArray 1 ≠ p.world.shared.getArray 1 ∧
        (p.world.shared.getArray 1).node = (p.world.shared.putArray 1).node ∧
        (p.world.shared.nodes.deref (p.world.shared.getArray 1).node).next = none ∧
        (p'.world.shared.getArray 1).node = none)) = true := by
    decide +kernel
  have hok : Move.allow (Call.valid (params 2)) narrowing = true := by decide +kernel
  obtain ⟨p, hp, hc⟩ := Pool.exec_of_check h
  obtain ⟨p', hmove, hc'⟩ := (Option.any_eq_true _ _).1 hc
  exact ⟨p, p', Pool.exec_reach hp (fun _ _ hm _ => Call.of_valid (Move.valid_of_allow hok hm))
    .init, hmove,
    of_decide_eq_true hc'⟩

/-- In a run in which no dequeue takes an item off a sub-queue whose get count has reached the
maximum of its get window, and in which the lateral head moves off get windows only whose sub-queues
all fail the test of `get_window`, the window that it moves off leaves no item behind: each
sub-queue below its width has items above it only. -/
theorem lawQueue_leaves {maxWidth width depth : ℕ} (hm : maxWidth < 2 ^ 16)
    (hw : 1 ≤ width ∧ width ≤ maxWidth) (hd : 1 ≤ depth)
    {p p' : Pool (Watched.object (params maxWidth)).service} {t n : ℕ}
    (hr : AtomicProg.Reach (fun call _ => Call.Valid (params maxWidth) call) Watched.Timely
      (initial (params maxWidth) width depth, {}) .zero p) (hmove : p.move (.step t n) = some p')
    (htimely : Watched.Timely p.world.shared p'.world.shared)
    (hne : p'.world.shared.1.lateralHead ≠ p.world.shared.1.lateralHead) :
    ∀ x ∈ p'.world.shared.1.nodes.hist.present, x.idx < (Watched.getWin p.world.shared.1).width →
      (Watched.getWin p.world.shared.1).max < x.tag.row := by
  intro x hx hidx
  have hp : (params maxWidth).WF := ⟨hm, (by decide : 2 < 2 ^ 16)⟩
  have hkeeps := Watched.keeps_orderly hp hw hd
  have himp := (Watched.law_obligations hp hw hd (Watched.Orderly (params maxWidth))).implements
  obtain ⟨g, g', hinv, hinv', hf⟩ := himp.move_frame (hr.strengthen hkeeps) hmove nofun
    (hkeeps p p' t n hr hmove htimely)
  have hk : Watched.Kept maxWidth (.op (p.world.calls.length + 1)) (World.pair (p.world, g))
    (World.pair (p'.world, g')) :=
    hf _ (Nat.lt_succ_self _)
  have hi : Watched.Inv (params maxWidth) p.world.shared.1 p.world.shared.2 g := hinv.1.1
  have hi' : Watched.Inv (params maxWidth) p'.world.shared.1 p'.world.shared.2 g' := hinv'.1.1
  have he' : Watched.Emptied (params maxWidth) p'.world.shared.1 g' := hinv'.1.2 fun _ _ h => h
  have htail := hi.tail_lt
  have horder := hi.order
  have hlt : g.head < p.world.shared.1.line.length := by omega
  -- the lateral head has moved on
  have hhead : g.head < g'.head := by
    refine lt_of_le_of_ne hk.toLater.head_le fun heq => hne ?_
    rw [hi'.head_node, hi.head_node, ← heq]
    exact hk.toLater.line hlt
  have hwin : p'.world.shared.1.win (g.head + 1) = Watched.getWin p.world.shared.1 := by
    rw [hi.getWin_eq]
    exact hk.toLater.win hi (show g.head + 1 < p.world.shared.1.line.length by omega)
  rw [← hwin] at hidx ⊢
  exact he'.lt_row hi' hhead hx hidx

/-- Two rows, and two dequeues, the second one before it moves the lateral head. -/
def oneShift : List (Move (Watched.object (params 2)).service) :=
  List.flatten [
    Move.start 0 Call.register 4 0,
    Move.start 0 (Call.enqueue 7) 17 0,
    Move.start 0 (Call.enqueue 7) 50 0,
    Move.start 0 Call.dequeue 21 0,
    Move.start 0 Call.dequeue 38 0]

/-- The lateral head moves off the first row, and the item of the second row stays. -/
theorem lawQueue_leaves_one :
    ∃ p p' : Pool (Watched.object (params 2)).service, p.move (.step 0 0) = some p' ∧
    p'.world.shared.1.nodes.hist.present.length = 1 ∧ ∀ x ∈ p'.world.shared.1.nodes.hist.present,
      x.idx < (Watched.getWin p.world.shared.1).width →
        (Watched.getWin p.world.shared.1).max < x.tag.row := by
  have h : (((Pool.init (Watched.object (params 2)).service (initial (params 2) 1 1,
    {}) .zero).execIf
      (fun x x' => decide (Watched.Timely x x')) oneShift).any fun p => (p.move (.step 0 0)).any
      fun p' =>
        decide (p'.world.shared.1.nodes.hist.present.length = 1 ∧
          Watched.Timely p.world.shared p'.world.shared ∧
          p'.world.shared.1.lateralHead ≠ p.world.shared.1.lateralHead)) = true := by
    decide +kernel
  have hok : Move.allow (Call.valid (params 2)) oneShift = true := by decide +kernel
  obtain ⟨p, hp, hc⟩ := (Option.any_eq_true _ _).1 h
  obtain ⟨p', hmove, hc'⟩ := (Option.any_eq_true _ _).1 hc
  obtain ⟨hlen, htimely, hne⟩ := of_decide_eq_true hc'
  exact ⟨p, p', hmove, hlen, lawQueue_leaves (by decide) (by decide) le_rfl
    (Pool.execIf_reach (fun _ _ h => of_decide_eq_true h) hp
      (fun _ _ hm _ => Call.of_valid (Move.valid_of_allow hok hm)) .init) hmove htimely hne⟩

/-- A dequeue hops over both sub-queues of an empty window, and others move on to the next window.
-/
def staleHops : List (Move (object (params 2)).service) :=
  List.flatten [
    Move.start 0 Call.register 4 0,
    Move.start 1 Call.register 4 0,
    Move.start 0 (Call.enqueue 7) 17 0,
    Move.start 0 (Call.enqueue 7) 23 1,
    Move.start 0 (Call.enqueue 7) 55 0,
    Move.start 0 (Call.enqueue 7) 23 1,
    Move.start 0 (Call.enqueue 7) 55 0,
    Move.start 0 Call.dequeue 21 0,
    Move.start 0 Call.dequeue 29 1,
    Move.start 1 Call.dequeue 34 0,
    Move.start 0 Call.dequeue 65 0,
    List.replicate 21 (.step 1 0)]

/-- A dequeue has hopped over the two sub-queues of row 1 when others move the get window on to row
2. It loads the new window, but keeps its count of hops: with one look at sub-queue 0 it moves the
lateral head off row 2, while there is an item in sub-queue 1. -/
theorem lawQueue_stale : ∃ p p' : Pool (object (params 2)).service,
    AtomicProg.Reach (fun call _ => Call.Valid (params 2) call) (fun _ _ => True)
      (initial (params 2) 2 1) .zero p ∧
      p.move (.step 1 0) = some p' ∧ p'.world.shared.lateralHead ≠ p.world.shared.lateralHead ∧
      ∃ x ∈ p'.world.shared.nodes.hist.present, x.idx < (Watched.getWin p.world.shared).width ∧
        x.tag.row ≤ (Watched.getWin p.world.shared).max := by
  have h : (((Pool.init (object (params 2)).service (initial (params 2) 2 1) .zero).exec
    staleHops).any fun p =>
      (p.move (.step 1 0)).any fun p' =>
        decide (p'.world.shared.lateralHead ≠ p.world.shared.lateralHead ∧
        ∃ x ∈ p'.world.shared.nodes.hist.present, x.idx < (Watched.getWin p.world.shared).width ∧
          x.tag.row ≤ (Watched.getWin p.world.shared).max)) = true := by
    decide +kernel
  have hok : Move.allow (Call.valid (params 2)) staleHops = true := by decide +kernel
  obtain ⟨p, hp, hc⟩ := Pool.exec_of_check h
  obtain ⟨p', hmove, hc'⟩ := (Option.any_eq_true _ _).1 hc
  exact ⟨p, p', Pool.exec_reach hp (fun _ _ hm _ => Call.of_valid (Move.valid_of_allow hok hm))
    .init, hmove,
    of_decide_eq_true hc'⟩

end ElasticLaw
