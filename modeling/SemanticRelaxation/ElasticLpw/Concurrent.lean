import SemanticRelaxation.ElasticLpw.GetSpecs

/-!
# The elastic LpW queue under every interleaving

* `Quiet`: the steps that leave the nodes, the heads and the settings alone;
* `lpwQueue_records`: the lateral queue records each change of the width once, so that it knows the
  width of every row;
* `lpwQueue_asserts`: no assertion fails as long as no thread is overtaken in
  `get_next_window_lateral`; `lpwQueue_overtaken` is a run where one does;
* `lpwQueue_nonOverlap`: no dequeue removes the node behind a tail as long as no depth is loaded
  above its maximum and no item is taken above the get window; `lpwQueue_wrapped` is a run where one
  does.
-/

namespace ElasticLpw

open AtomicProg Linked

namespace Watched

/-! ### The code keeps to its rules -/

variable {set : Params} {E : Results (object set).service (regime Call set)} {c : Caller}
  {v : View E.protocol c}

theorem updateWidth_spec {width : ℕ} (hw : Allocated set width) :
    wp E.protocol c (updateWidth width).onFst (fun _ v' => Along v v') v := by
  intro v₁ h₁ _ _
  have hi := inv_of v₁
  have hk := fun o => Kept.onSettings (s := v₁.state.1) (g := v₁.now.2) (n := set.maxWidth) (o := o)
    width v₁.state.1.depth v₁.state.1.failed (.refl v₁.state.2)
  exact ⟨_, allows_step v₁ (hi.onSettings (.refl _) hw hi.depth hi.asserted hi.noted)
    fun o _ => hk o,
    (Along.of_le h₁).trans (.step (hk _))⟩

theorem updateDepth_spec {depth : ℕ} (hd : 0 < depth) :
    wp E.protocol c (updateDepth depth).onFst (fun _ v' => Along v v') v := by
  intro v₁ h₁ _ _
  have hi := inv_of v₁
  have hk := fun o => Kept.onSettings (s := v₁.state.1) (g := v₁.now.2) (n := set.maxWidth) (o := o)
    v₁.state.1.width depth v₁.state.1.failed (.refl v₁.state.2)
  exact ⟨_, allows_step v₁ (hi.onSettings (.refl _) hi.width hd hi.asserted hi.noted)
    fun o _ => hk o,
    (Along.of_le h₁).trans (.step (hk _))⟩

theorem lpw_obligations (hp : set.WF) {width depth : ℕ} (hw : Allocated set width)
    (hd : 0 < depth) :
    Obligations (.trivial (object set).service (regime Call set)) (Call.Valid set)
      (fun _ l x => Known set l x) (fun _ _ r v => Known set r.1 v.pair)
      (initial set width depth, {})
      ⟨[], .init, fun _ => 0, 0⟩ .zero where
  init := inv_initial hw.1 hw.2 hd
  init_fresh _ := True.intro
  init_loc _ := .zero (inv_initial hw.1 hw.2 hd)
  loc_later _ _ _ _ _ _ _ _ hk h := h.later hk.toLater
  post_stable _ _ _ _ _ h hkn := hkn.later (later_of_le h)
  code t op call l v _ _ hok hkn _ := by
    cases call with
    | enqueue val => exact wp.bind_fst (enqueue_spec hp hkn val) fun _ _ h => h
    | dequeue => exact dequeue_spec hp hkn
    | updateWidth w => exact wp.bind_fst (updateWidth_spec hok) fun _ _ h => hkn.later h.later
    | updateDepth d => exact wp.bind_fst (updateDepth_spec hok.1) fun _ _ h => hkn.later h.later
  finish _ _ _ _ _ h := ⟨fun _ _ => True.intro, h⟩

end Watched

/-! ### One shift at a time -/

/-- A step leaves the put window alone or moves it on by the depth of the new one. -/
def Advances (s s' : State) : Prop :=
  s'.globalPWindow = s.globalPWindow ∨
    s'.globalPWindow.max = s.globalPWindow.max + s'.globalPWindow.depth

/-- A step that leaves the nodes, the heads and the settings alone, and the put window or moves it
on. -/
structure Quiet (s s' : State) : Prop where
  nodes : s'.nodes = s.nodes
  get : s'.getArray = s.getArray
  width : s'.width = s.width
  depth : s'.depth = s.depth
  advances : Advances s s'

theorem Quiet.refl (s : State) : Quiet s s := ⟨rfl, rfl, rfl, rfl, .inl rfl⟩

theorem Advances.refl (s : State) : Advances s s := .inl rfl

theorem advances_of_quiet {α : Type} {p : Prog State α} (hp : p.Steps Quiet) : p.Steps Advances :=
  hp.mono fun _ _ h => h.advances

section Steps

variable {set : Params}

theorem quiet_read {α : Type} (f : State → α) : (Prog.read f).Steps Quiet := .read Quiet.refl f

theorem quiet_assert (b : Bool) : (assert b).Steps Quiet := by
  cases b with
  | true => exact True.intro
  | false => exact .update fun _ => ⟨rfl, rfl, rfl, rfl, .inl rfl⟩

theorem quiet_readDescriptor (array : State → ℕ → Descriptor) (index : ℕ) :
    (readDescriptor array index).Steps Quiet :=
  .bind (quiet_read _) fun _ => .bind (quiet_read _) fun _ => True.intro

theorem quiet_randomIndex (width : ℕ) : (randomIndex width).Steps Quiet :=
  .bind (.choose Quiet.refl) fun _ => True.intro

theorem quiet_hop (index random hops width : ℕ) :
    (hop set index random hops width).Steps Quiet := by
  unfold hop TwoD.hop
  split
  · exact .bind (quiet_randomIndex _) fun _ => True.intro
  · exact True.intro

theorem quiet_linkLateral (tail : Option ℕ) (count width : ℕ) :
    (linkLateral tail count width).Steps Quiet := by
  refine .bind (quiet_read _) fun next => ?_
  split
  · refine .bind (.update fun _ => ⟨rfl, rfl, rfl, rfl, .inl rfl⟩) fun node => ?_
    exact .bind (.cae Quiet.refl fun _ _ => ⟨rfl, rfl, rfl, rfl, .inl rfl⟩) fun _ => True.intro
  · exact True.intro

theorem quiet_maybeEnqLateral (max width nextWidth : ℕ) :
    (maybeEnqLateral max width nextWidth).Steps Quiet := by
  unfold maybeEnqLateral
  split
  · refine .bind (quiet_read _) fun tail => .bind (quiet_read _) fun node => ?_
    split
    · refine .bind (quiet_linkLateral _ _ _) fun next => .bind (quiet_assert _) fun _ => ?_
      exact .bind (.cae Quiet.refl fun _ _ => ⟨rfl, rfl, rfl, rfl, .inl rfl⟩) fun _ => True.intro
    · exact True.intro
  · exact True.intro

/-- The exchange of the put window. -/
theorem quiet_tryShiftPut (w : PutWindow) : (tryShiftPut w).Steps Quiet := by
  refine .bind (quiet_read _) fun max => ?_
  split
  · refine .bind (quiet_maybeEnqLateral _ _ _) fun _ => .bind (quiet_read _) fun depth =>
      .bind (quiet_read _) fun nextWidth =>
        .bind (.cae Quiet.refl fun s he => ⟨rfl, rfl, rfl, rfl, .inr ?_⟩) fun _ => True.intro
    show w.max + depth = s.globalPWindow.max + depth
    rw [← congrArg PutWindow.max he]
  · exact True.intro

theorem quiet_putRound (st : Search) : (putRound set st).Steps Quiet := by
  refine .bind (quiet_readDescriptor _ _) fun d => .bind (quiet_read _) fun word1 => ?_
  dsimp only
  split
  · exact .bind (quiet_read _) fun _ => True.intro
  · split
    · exact .bind (quiet_assert _) fun _ => True.intro
    · split
      · exact .bind (quiet_hop _ _ _ _) fun _ => True.intro
      · exact .bind (quiet_tryShiftPut _) fun _ => True.intro

theorem quiet_putWindow (contention : Bool) (tl : Local) :
    (putWindow set contention tl).Steps Quiet := by
  have hsync : (syncPWindow tl.pWindow).Steps Quiet := by
    refine .bind (quiet_read _) fun word1 => ?_
    split
    · exact .bind (quiet_read _) fun _ => .bind (quiet_assert _) fun _ => True.intro
    · exact True.intro
  refine .bind hsync fun w => .bind ?_ fun index => .forever quiet_putRound _
  unfold startIndex
  split
  · exact quiet_randomIndex _
  · exact True.intro

theorem quiet_skipLateral (count : ℕ) (st : Option ℕ × Option ℕ) :
    (skipLateral count st).Steps Quiet := by
  unfold skipLateral
  dsimp only
  split
  · exact True.intro
  · refine .bind (quiet_read _) fun node => ?_
    split
    · exact .bind (quiet_read _) fun _ => True.intro
    · exact True.intro

theorem quiet_getNextWindowLateral (prev n : ℕ) : (getNextWindowLateral prev n).Steps Quiet := by
  have hcut : ∀ lookahead n, (cutMax lookahead n).Steps Quiet := by
    intro lookahead n
    unfold cutMax
    split
    · exact True.intro
    · exact .bind (quiet_read _) fun _ => True.intro
  refine .bind (quiet_read _) fun head => .bind (quiet_read _) fun lookahead =>
    .bind (quiet_assert _) fun _ => .bind (quiet_read _) fun node =>
      .bind (quiet_assert _) fun _ => ?_
  refine .bind (.forever (quiet_skipLateral _) _) fun st => .bind (hcut _ _) fun m => ?_
  exact .bind (quiet_read _) fun node => .bind (quiet_assert _) fun _ => True.intro

theorem quiet_deqLateral (max : ℕ) : (deqLateral max).Steps Quiet := by
  refine .bind (quiet_read _) fun head => .bind (quiet_read _) fun probe =>
    .bind (.forever (quiet_skipLateral _) _) fun st => ?_
  dsimp only
  split
  · exact .bind (.cae Quiet.refl fun _ _ => ⟨rfl, rfl, rfl, rfl, .inl rfl⟩) fun _ => True.intro
  · exact True.intro

theorem quiet_tryShiftGet (old new : GetWindow) : (tryShiftGet old new).Steps Quiet := by
  refine .bind (quiet_read _) fun max => ?_
  split
  · refine .bind (quiet_assert _) fun _ =>
      .bind (.cae Quiet.refl fun _ _ => ⟨rfl, rfl, rfl, rfl, .inl rfl⟩) fun r => ?_
    dsimp only
    split
    · exact .bind (quiet_deqLateral _) fun _ => True.intro
    · exact True.intro
  · exact True.intro

theorem quiet_getShiftMax (tl : Local) : (getShiftMax tl).Steps Quiet := by
  refine .bind (quiet_read _) fun depth => ?_
  dsimp only
  split
  · exact quiet_read _
  · refine .bind (quiet_read _) fun pMax => ?_
    split
    · exact quiet_read _
    · exact True.intro

theorem quiet_getRound (bound : ℕ) (st : Search) : (getRound set bound st).Steps Quiet := by
  have hcount : ∀ index count, (readPutCount bound index count).Steps Quiet := by
    intro index count
    unfold readPutCount
    split
    · exact True.intro
    · exact quiet_read _
  have hshift : ∀ notempty max, (canShift notempty max).Steps Quiet := by
    intro notempty max
    unfold canShift
    split
    · exact True.intro
    · exact .bind (quiet_read _) fun _ => True.intro
  refine .bind (quiet_readDescriptor _ _) fun d => .bind (hcount _ _) fun m =>
    .bind (quiet_read _) fun word1 => ?_
  dsimp only
  split
  · exact .bind (.bind (quiet_read _) fun _ => True.intro) fun _ => True.intro
  · split
    · exact True.intro
    · split
      · exact .bind (quiet_hop _ _ _ _) fun _ => True.intro
      · refine .bind (hshift _ _) fun shift => ?_
        split
        · refine .bind ?_ fun _ => True.intro
          exact .bind (quiet_getShiftMax _) fun _ => .bind (quiet_getNextWindowLateral _ _) fun _ =>
            .bind (quiet_tryShiftGet _ _) fun _ => True.intro
        · exact True.intro

theorem quiet_getWindow (contention : Bool) (tl : Local) :
    (getWindow set contention tl).Steps Quiet := by
  have hstart : (startGetIndex contention tl).Steps Quiet := by
    unfold startGetIndex
    split
    · exact quiet_randomIndex _
    · exact True.intro
  have henter : ∀ tl, (enterGet tl).Steps Quiet := by
    intro tl
    refine .bind (quiet_read _) fun word1 => ?_
    split
    · exact .bind (quiet_read _) fun _ => True.intro
    · exact True.intro
  exact .bind hstart fun _ => .bind (henter _) fun _ => .bind (.forever (quiet_getRound _) _)
    fun _ => True.intro

theorem quiet_putCae (idx : ℕ) (old new : Descriptor) : (putCae idx old new).Steps Quiet :=
  .bind (.cae Quiet.refl fun _ _ => ⟨rfl, rfl, rfl, rfl, .inl rfl⟩) fun _ => True.intro

theorem quiet_helpEnqueue (d : Descriptor) (contention : Bool) (tl : Local) :
    (helpEnqueue d contention tl).Steps Quiet :=
  .bind (quiet_read _) fun _ => .bind (quiet_read _) fun _ => .bind (quiet_read _) fun _ =>
    .bind (quiet_putCae _ _ _) fun _ => True.intro

theorem steps_enqueue (val : ℤ) (tl : Local) : (enqueue set val tl).Steps Advances := by
  have hput : ∀ idx old new, (putCae idx old new).Steps Advances := fun _ _ _ =>
    advances_of_quiet (quiet_putCae _ _ _)
  have hassert : ∀ b, (assert b).Steps Advances := fun _ => advances_of_quiet (quiet_assert _)
  have hlink : ∀ n contention tl d, (tryLink n contention tl d).Steps Advances := by
    intro n contention tl d
    refine .bind (.read Advances.refl _) fun next => ?_
    split
    · refine .bind (.bind (.cae Advances.refl fun _ _ => .inl rfl) fun _ => True.intro)
        fun done => ?_
      split
      · exact .bind (hassert _) fun _ => True.intro
      · exact True.intro
    · refine .bind (.read Advances.refl _) fun next => .bind (hput _ _ _) fun done => ?_
      split
      · exact .bind (hassert _) fun _ => True.intro
      · exact True.intro
  have hround : ∀ n contention tl, (enqueueRound set n contention tl).Steps Advances := by
    intro n contention tl
    refine .bind (advances_of_quiet (quiet_putWindow _ _)) fun r => .bind (hassert _) fun _ =>
      .bind (hassert _) fun _ => .bind (.read Advances.refl _) fun count => ?_
    split
    · exact True.intro
    · exact hlink _ _ _ _
  refine .bind (.update fun _ => .inl rfl) fun n => .bind (.forever (fun b => hround n b.1 b.2) _)
    fun r => ?_
  exact .bind (hput _ _ _) fun _ => True.intro

theorem steps_dequeue (tl : Local) : (dequeue set tl).Steps Advances := by
  have hover : ∀ d tl, (nonOverlap d tl).Steps Advances := by
    intro d tl
    refine .bind (.read Advances.refl _) fun next =>
      .bind (.bind (.cae Advances.refl fun _ _ => .inl rfl) fun _ => True.intro) fun done => ?_
    split
    · exact .bind (.read Advances.refl _) fun _ => True.intro
    · exact True.intro
  have hround : ∀ contention tl, (dequeueRound set contention tl).Steps Advances := by
    intro contention tl
    refine .bind (advances_of_quiet (quiet_getWindow _ _)) fun r => ?_
    dsimp only
    split
    · refine .bind (advances_of_quiet (quiet_readDescriptor _ _)) fun e => ?_
      split
      · refine .bind (.read Advances.refl _) fun next => ?_
        split
        · exact True.intro
        · exact .bind (advances_of_quiet (quiet_helpEnqueue _ _ _)) fun _ => True.intro
      · exact hover _ _
    · exact hover _ _
  exact .bind (.read Advances.refl _) fun _ => .bind (.read Advances.refl _) fun _ =>
    .forever (fun b => hround b.1 b.2) _

theorem steps_code (call : Call) (tl : Local) : ((object set).code call tl).Steps Advances := by
  cases call with
  | enqueue val => exact .bind (steps_enqueue val tl) fun _ => True.intro
  | dequeue => exact steps_dequeue tl
  | updateWidth w => exact .bind (.update fun _ => .inl rfl) fun _ => True.intro
  | updateDepth d => exact .bind (.update fun _ => .inl rfl) fun _ => True.intro

end Steps

namespace Watched

open Windowed

/-- The put windows of the ghost state are those that there have been. -/
theorem windows_visit {set : Params} {x x' : (State × Watch) × Ghost}
    (hi' : Inv set x'.1.1 x'.1.2 x'.2) (hl : Later x x') (ha : Advances x.1.1 x'.1.1) :
    windows x'.1.1 x'.2 = visit (windows x.1.1 x.2) x'.1.1.globalPWindow := by
  have hhist := hi'.history
  rcases List.suffix_cons_iff.1 hl.history with he | hs
  · rw [visit, if_pos (by rw [he]; rfl), he]
    rfl
  · have hmem : x.1.1.globalPWindow ∈ x'.2.past := hs.mem (List.mem_cons_self ..)
    have hlt := hhist.max_lt hmem
    have hne : x'.1.1.globalPWindow ≠ x.1.1.globalPWindow := fun he =>
      by rw [he] at hlt; exact hlt.ne rfl
    have hmax := ha.resolve_left hne
    have hhead : (windows x.1.1 x.2).head? ≠ some x'.1.1.globalPWindow := fun h =>
      hne (Option.some.inj h).symm
    rw [visit, if_neg hhead]
    -- the window before the new one has the maximum of the old one
    unfold windows at hhist ⊢
    congr 1
    cases hpast : x'.2.past with
    | nil =>
      rw [hpast] at hmem
      cases hmem
    | cons q l =>
      rw [hpast] at hhist hmem hs
      have hq := hhist.2.1.max
      have he := hhist.tail.eq_of_max hmem (by omega)
      rcases List.suffix_cons_iff.1 hs with heq | hs'
      · exact heq.symm
      · have hmem' : x.1.1.globalPWindow ∈ l := hs'.mem (List.mem_cons_self ..)
        have := hhist.tail.max_lt hmem'
        rw [he] at this
        exact absurd this (lt_irrefl _)

theorem windows_initial {set : Params} {width depth : ℕ} {w : Watch} {g : Ghost}
    (hi : Inv set (initial set width depth) w g) :
    windows (initial set width depth) g = [(initial set width depth).globalPWindow] := by
  have hhist := hi.history
  unfold windows at hhist ⊢
  cases hpast : g.past with
  | nil => rfl
  | cons q l =>
    -- the first window ends at its own depth
    rw [hpast] at hhist
    have hmax : depth = q.max + depth := hhist.2.1.max
    have := hhist.tail.max_pos
    omega

end Watched

/-! ### The results -/

instance (set : Params) : DecidablePred (Call.Valid set) := fun call =>
  match call with
  | .enqueue _ => inferInstanceAs (Decidable True)
  | .dequeue => inferInstanceAs (Decidable True)
  | .updateWidth _ => inferInstanceAs (Decidable (_ ∧ _))
  | .updateDepth _ => inferInstanceAs (Decidable (_ ∧ _))

/-- The check of the arguments. -/
def Call.valid (set : Params) (call : Call) : Bool := decide (Call.Valid set call)

theorem Call.of_valid {set : Params} {call : Call} (h : call.valid set = true) : call.Valid set :=
  of_decide_eq_true h

/-- The lateral queue records each change of the width in one node, that of the present window
perhaps before it takes place, and the last node with a count up to a row has the width of the put
window of the row. -/
theorem lpwQueue_records {maxWidth width depth : ℕ} (hm : maxWidth < 2 ^ 16)
    (hw : 1 ≤ width ∧ width ≤ maxWidth) (hd : 1 ≤ depth) {ws : List PutWindow}
    {p : Pool (object (params maxWidth)).service}
    (hv : Visits (fun call _ => Call.Valid (params maxWidth) call) State.globalPWindow
      (initial (params maxWidth) width depth) .zero ws p) :
    p.world.shared.lateralNodes.Pairwise (fun a b => a.count < b.count) ∧
      (∃ pend, Pending p.world.shared.globalPWindow pend ∧
        p.world.shared.lateralNodes = recorded ws ++ pend) ∧
      ∀ w ∈ ws, ∀ row, w.bottom < row → row ≤ w.max →
        widthAt p.world.shared.lateralNodes row = w.width := by
  have hp : (params maxWidth).WF := ⟨hm, (by decide : 2 < 2 ^ 16)⟩
  obtain ⟨p₁, ha, hv₁⟩ := Visits.annotated
    (fun _ => Watched.object_annotates (params maxWidth)) {} hv
  have himp := (Watched.lpw_obligations hp hw hd).implements
  obtain ⟨g, hgood, hlog⟩ := himp.visits (f := fun x : State × Watched.Watch => x.1.globalPWindow)
    (fun w => Watched.windows w.1.shared.1 w.2) (fun _ _ => True.intro)
    (fun _ call tl => (Watched.object_annotates (params maxWidth) call tl).steps
      (steps_code call tl))
    (fun _ => .refl _)
    (fun g hi => Watched.windows_initial hi.1)
    (fun o w w' _ hi' hf hr => Watched.windows_visit hi'.1 hf.toLater hr) hv₁
  have hi : Watched.Inv (params maxWidth) p₁.world.shared.1 p₁.world.shared.2 g := hgood.inv.1
  have hws : Watched.windows p₁.world.shared.1 g = ws := hlog
  rw [← ha.world.shared]
  obtain ⟨pend, hp, he⟩ := hi.pending
  have hhist := hi.history
  rw [hws] at he hhist
  refine ⟨hi.sorted, ⟨pend, hp, he⟩, fun w hw row hb hr => ?_⟩
  have hcons : ws = p₁.world.shared.1.globalPWindow :: g.past := hws.symm
  subst hcons
  rw [he]
  exact hhist.widthAt_recorded hp hw hb hr

/-- Three rows, the third of width 2. -/
def widening : List (Move (object (params 2)).service) :=
  List.flatten [
    Move.start 0 (Call.updateWidth 2) 2 0,
    Move.start 0 (Call.enqueue 7) 13 0,
    Move.start 0 (Call.enqueue 7) 34 0,
    Move.start 0 (Call.enqueue 7) 40 0]

/-- A run in which the width changes from 1 to 2. -/
theorem lpwQueue_records_two : ∃ (ws : List PutWindow) (p : Pool (object (params 2)).service),
    p.world.shared.lateralNodes = [⟨0, 1⟩, ⟨3, 2⟩] ∧ ws.length = 3 ∧
      ∀ w ∈ ws, ∀ row, w.bottom < row → row ≤ w.max →
        widthAt p.world.shared.lateralNodes row = w.width := by
  have h : ((Visits.record (S := (object (params 2)).service) State.globalPWindow
      widening
      [(initial (params 2) 1 1).globalPWindow] (.init _ (initial (params 2) 1 1) .zero)).any
      fun r =>
      decide (r.2.world.shared.lateralNodes = [⟨0, 1⟩, ⟨3, 2⟩] ∧ r.1.length = 3)) = true := by
    decide +kernel
  have hok : Move.allow (Call.valid (params 2)) widening = true := by decide +kernel
  obtain ⟨⟨ws, p⟩, hr, hc⟩ := (Option.any_eq_true _ _).1 h
  obtain ⟨hnodes, hlen⟩ := of_decide_eq_true hc
  refine ⟨ws, p, hnodes, hlen, (lpwQueue_records (by decide) (by decide) le_rfl
    (Visits.of_record hr (fun _ _ hm _ => Call.of_valid (Move.valid_of_allow hok hm)) .init)).2.2⟩

/-- No assertion fails in a run where, whenever a thread loads the lateral head in
`get_next_window_lateral`, the width changes at no row above its next maximum that the get window
has already. -/
theorem lpwQueue_asserts {maxWidth width depth : ℕ} (hm : maxWidth < 2 ^ 16)
    (hw : 1 ≤ width ∧ width ≤ maxWidth) (hd : 1 ≤ depth)
    {p : Pool (Watched.object (params maxWidth)).service}
    (hr : AtomicProg.Reach (fun call _ => Call.Valid (params maxWidth) call) (fun _ _ => True)
      (initial (params maxWidth) width depth, {}) .zero p)
    (hover : p.world.shared.2.overtaken = false) : p.world.shared.1.failed = false := by
  have hp : (params maxWidth).WF := ⟨hm, (by decide : 2 < 2 ^ 16)⟩
  obtain ⟨g, hi, -⟩ := (Watched.lpw_obligations hp hw hd).implements.inv hr
  have hi : Watched.Inv (params maxWidth) p.world.shared.1 p.world.shared.2 g := hi
  exact hi.asserted hover

/-- Two rows, and two dequeues. -/
def oneShift : List (Move (Watched.object (params 2)).service) :=
  List.flatten [
    Move.start 0 (Call.enqueue 7) 13 0,
    Move.start 0 (Call.enqueue 7) 34 0,
    Move.start 0 Call.dequeue 13 0,
    Move.start 0 Call.dequeue 50 0]

/-- The get window moves off the first row. -/
theorem lpwQueue_asserts_one : ∃ p : Pool (Watched.object (params 2)).service,
    p.world.shared.1.globalGWindow.max = 2 ∧ p.world.shared.1.failed = false := by
  have h : (((Pool.init (Watched.object (params 2)).service (initial (params 2) 1 1, {}) .zero).exec
      oneShift).any fun p =>
      decide (p.world.shared.1.globalGWindow.max = 2 ∧ p.world.shared.2.overtaken = false)) =
        true := by
    decide +kernel
  have hok : Move.allow (Call.valid (params 2)) oneShift = true := by decide +kernel
  obtain ⟨p, hp, hc⟩ := Pool.exec_of_check h
  obtain ⟨hmax, hover⟩ := of_decide_eq_true hc
  refine ⟨p, hmax, lpwQueue_asserts (by decide) (by decide) le_rfl
    (Pool.exec_reach hp (fun _ _ hm _ => Call.of_valid (Move.valid_of_allow hok hm)) .init) hover⟩

/-- A dequeue stops before it loads the lateral head, for the next maximum 2. -/
def overtaking : List (Move (object (params 2)).service) :=
  List.flatten [
    Move.start 0 (Call.updateWidth 2) 2 0,
    Move.start 0 (Call.enqueue 7) 13 0,
    Move.start 0 (Call.enqueue 7) 34 0,
    Move.start 0 (Call.enqueue 7) 40 0,
    Move.start 0 (Call.enqueue 7) 17 1,
    Move.start 0 (Call.enqueue 7) 38 0,
    Move.start 0 Call.dequeue 13 0,
    Move.start 1 Call.dequeue 24 0,
    Move.start 0 Call.dequeue 45 0,
    Move.start 0 Call.dequeue 49 0,
    Move.start 0 Call.dequeue 26 0,
    Move.start 0 Call.dequeue 58 0,
    List.replicate 6 (.step 1 0)]

/-- Four rows are enqueued, the width is 2 from the third one on. A dequeue stops before it loads
the lateral head for the next maximum 2; the others empty the queue, and the head it loads is the
node for row 3. -/
theorem lpwQueue_overtaken : ∃ p : Pool (object (params 2)).service,
    AtomicProg.Reach (fun call _ => Call.Valid (params 2) call) (fun _ _ => True)
      (initial (params 2) 1 1) .zero p ∧
      p.world.shared.failed = true := by
  have h : (((Pool.init (object (params 2)).service (initial (params 2) 1 1) .zero).exec
      overtaking).any fun p => p.world.shared.failed) = true := by
    decide +kernel
  have hok : Move.allow (Call.valid (params 2)) overtaking = true := by decide +kernel
  obtain ⟨p, hp, hc⟩ := Pool.exec_of_check h
  refine ⟨p, Pool.exec_reach hp (fun _ _ hm _ => Call.of_valid (Move.valid_of_allow hok hm))
    .init, hc⟩

/-- In a run where no dequeue has loaded a depth above its maximum, the bottom of its put window is
not above the put counts that it stands for, as long as the windows of these rows had the
sub-queues. If no dequeue has taken an item above its get window, no head is `NULL`. -/
theorem lpwQueue_nonOverlap {maxWidth width depth : ℕ} (hm : maxWidth < 2 ^ 16)
    (hw : 1 ≤ width ∧ width ≤ maxWidth) (hd : 1 ≤ depth)
    {p : Pool (Watched.object (params maxWidth)).service}
    (hr : AtomicProg.Reach (fun call _ => Call.Valid (params maxWidth) call) (fun _ _ => True)
      (initial (params maxWidth) width depth, {}) .zero p)
    (hwrap : p.world.shared.2.wrapped = false) :
    (p.world.shared.2.narrow = false → p.world.shared.2.missed = false) ∧
      (p.world.shared.2.late = false → ∀ i < maxWidth, (p.world.shared.1.getArray i).node ≠
        none) := by
  have hp : (params maxWidth).WF := ⟨hm, (by decide : 2 < 2 ^ 16)⟩
  obtain ⟨g, hi, -⟩ := (Watched.lpw_obligations hp hw hd).implements.inv hr
  have hi : Watched.Inv (params maxWidth) p.world.shared.1 p.world.shared.2 g := hi
  refine ⟨hi.noted hwrap, fun hlate i hlt => ?_⟩
  obtain ⟨t, ht⟩ := hi.filled.valid.head_some hlt
  have hnode : (p.world.shared.1.getArray i).node = _ := (hi.headed ⟨hwrap, hlate⟩).node i hlt
  rw [hnode]
  exact ne_of_eq_of_ne ht (Option.some_ne_none t)

/-- Two rows, and a dequeue that does not look at a tail. -/
def oneDequeue : List (Move (Watched.object (params 2)).service) :=
  List.flatten [
    Move.start 0 (Call.enqueue 7) 13 0,
    Move.start 0 (Call.enqueue 7) 34 0,
    Move.start 0 Call.dequeue 13 0]

/-- A dequeue off a sub-queue without a look at its tail. -/
theorem lpwQueue_nonOverlap_two : ∃ p : Pool (Watched.object (params 2)).service,
    (p.world.shared.1.getArray 0).count = 1 ∧ p.world.shared.2.missed = false ∧
      ∀ i < 2, (p.world.shared.1.getArray i).node ≠ none := by
  have h : (((Pool.init (Watched.object (params 2)).service (initial (params 2) 1 1, {}) .zero).exec
      oneDequeue).any fun p =>
      decide ((p.world.shared.1.getArray 0).count = 1 ∧ p.world.shared.2.wrapped = false ∧
        p.world.shared.2.narrow = false ∧ p.world.shared.2.late = false)) = true := by
    decide +kernel
  have hok : Move.allow (Call.valid (params 2)) oneDequeue = true := by decide +kernel
  obtain ⟨p, hp, hc⟩ := Pool.exec_of_check h
  obtain ⟨hcount, hwrap, hnarrow, hlate⟩ := of_decide_eq_true hc
  have hsafe := lpwQueue_nonOverlap (by decide) (by decide) le_rfl
    (Pool.exec_reach hp (fun _ _ hm _ => Call.of_valid (Move.valid_of_allow hok hm)) .init) hwrap
  exact ⟨p, hcount, hsafe.1 hnarrow, hsafe.2 hlate⟩

/-- The depth changes between the two loads of a put window. -/
def deepening : List (Move (object (params 2)).service) :=
  List.flatten [
    Move.start 1 Call.dequeue 1 0,
    Move.start 0 (Call.updateDepth 5) 2 0,
    Move.start 0 (Call.enqueue 7) 13 0,
    Move.start 0 (Call.enqueue 7) 17 1,
    Move.start 0 (Call.enqueue 7) 38 0,
    Move.start 0 Call.dequeue 13 0,
    Move.start 0 Call.dequeue 17 1,
    Move.start 0 Call.dequeue 58 0,
    List.replicate 12 (.step 1 0)]

/-- A dequeue loads the maximum 1 of the put window. The depth becomes 5 and the window moves on;
with the new depth the bottom is `1 - 5`, and the dequeue takes an emptied sub-queue for one with
items. -/
theorem lpwQueue_wrapped : ∃ p : Pool (object (params 2)).service,
    AtomicProg.Reach (fun call _ => Call.Valid (params 2) call) (fun _ _ => True)
      (initial (params 2) 2 1) .zero p ∧ (p.world.shared.getArray 0).node = none := by
  have h : (((Pool.init (object (params 2)).service (initial (params 2) 2 1) .zero).exec
      deepening).any fun p =>
      decide ((p.world.shared.getArray 0).node = none)) = true := by
    decide +kernel
  have hok : Move.allow (Call.valid (params 2)) deepening = true := by decide +kernel
  obtain ⟨p, hp, hc⟩ := Pool.exec_of_check h
  refine ⟨p, Pool.exec_reach hp (fun _ _ hm _ => Call.of_valid (Move.valid_of_allow hok hm)) .init,
    of_decide_eq_true hc⟩

end ElasticLpw
