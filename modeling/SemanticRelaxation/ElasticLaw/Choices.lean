import SemanticRelaxation.Prog.Ghost
import SemanticRelaxation.ElasticLaw.Concurrent

/-!
# The settings in the windows of the elastic LaW queue

* `Chosen`: the width and the depth of a window have been set, by `create_queue` or by a call;
* `windows_chosen`: this holds of all windows, also while the settings change.
-/

namespace ElasticLaw

open AtomicProg Linked

/-- The windows so far, with the one that no item is ever put into first. -/
def State.windows (s : State) : List Window := s.line.map fun n => (s.lateral.heap n).val

/-! ### Where the settings come from -/

/-- The width and the depth have been set. -/
structure Chosen (width depth : ℕ) (calls : List Call) (w d : ℕ) : Prop where
  width : w = width ∨ Call.updateWidth w ∈ calls
  depth : d = depth ∨ Call.updateDepth d ∈ calls

theorem Chosen.later {width depth w d : ℕ} {calls calls' : List Call}
    (h : Chosen width depth calls w d) (hc : calls <+: calls') : Chosen width depth calls' w d :=
  ⟨h.width.imp_right fun hw => hc.mem hw, h.depth.imp_right fun hd => hc.mem hd⟩

/-- The settings and all windows but the first have been set. -/
structure Choices (width depth : ℕ) (calls : List Call) (s : State) : Prop where
  settings : Chosen width depth calls s.width s.depth
  windows : ∀ n < s.lateral.fresh, n ≠ 0 →
    Chosen width depth calls (s.lateral.heap n).val.width (s.lateral.heap n).val.depth
  first : [0] <+: s.line

/-- A step that makes no window and leaves the settings alone. -/
structure Settled (s s' : State) : Prop where
  width : s'.width = s.width
  depth : s'.depth = s.depth
  fresh : s'.lateral.fresh = s.lateral.fresh
  val : ∀ n, (s'.lateral.heap n).val = (s.lateral.heap n).val
  line : s.line <+: s'.line

theorem Settled.refl (s : State) : Settled s s := ⟨rfl, rfl, rfl, fun _ => rfl, List.prefix_refl _⟩

theorem Still.settled {s s' : State} (h : Still s s') : Settled s s' := by
  refine ⟨h.width, h.depth, congrArg Cells.fresh h.lateral, fun n => ?_, ?_⟩
  · rw [h.lateral]
  · rw [State.line, State.line, h.lateral]

theorem Settled.append (s : State) (tail : Option ℕ) (node : ℕ) :
    Settled s { s with lateral := s.lateral.append 0 tail node } where
  width := rfl
  depth := rfl
  fresh := Cells.append_fresh ..
  val n := Cells.append_val ..
  line := by
    rw [State.line, State.line, Cells.append_line_self]
    exact List.prefix_append ..

namespace Choices

variable {width depth : ℕ} {calls calls' : List Call} {s s' : State}

theorem later (h : Choices width depth calls s) (hc : calls <+: calls') :
    Choices width depth calls' s :=
  ⟨h.settings.later hc, fun n hn h₀ => (h.windows n hn h₀).later hc, h.first⟩

theorem settled (h : Choices width depth calls s) (hs : Settled s s') :
    Choices width depth calls s' where
  settings := by
    rw [hs.width, hs.depth]
    exact h.settings
  windows n hn h₀ := by
    rw [hs.val]
    exact h.windows n (hs.fresh ▸ hn) h₀
  first := h.first.trans hs.line

theorem create (h : Choices width depth calls s) {max w d : ℕ} (hw : Chosen width depth calls w d) :
    Choices width depth calls { s with lateral := s.lateral.create ⟨max, w, d⟩ } where
  settings := h.settings
  windows n hn h₀ := by
    show Chosen width depth calls (Function.update s.lateral.heap s.lateral.fresh ⟨⟨max, w, d⟩,
      none⟩ n).val.width
      (Function.update s.lateral.heap s.lateral.fresh ⟨⟨max, w, d⟩, none⟩ n).val.depth
    rcases Nat.lt_succ_iff_lt_or_eq.1 hn with hlt | rfl
    · rw [Function.update_of_ne hlt.ne]
      exact h.windows n hlt h₀
    · rw [Function.update_self]
      exact hw
  first := h.first

end Choices

/-! ### The code -/

section Settled

variable {set : Params}

theorem settled_createNode (val : ℤ) : (createNode val).Steps Settled :=
  .update fun _ => ⟨rfl, rfl, rfl, fun _ => rfl, List.prefix_refl _⟩

theorem settled_tryLink (newNode : ℕ) (contention : Bool) (tl : Local) (d : Descriptor)
    (w : Window) : (tryLink newNode contention tl d w).Steps Settled := by
  refine .bind (.read Settled.refl _) fun next => ?_
  split
  · refine .bind ?_ fun done => ?_
    · exact .bind (.cae Settled.refl fun _ _ => ⟨rfl, rfl, rfl, fun _ => rfl, List.prefix_refl _⟩)
        fun _ => True.intro
    · split
      · exact .bind ((still_assert _).mono fun _ _ h => h.settled) fun _ => True.intro
      · exact True.intro
  · refine .bind (.read Settled.refl _) fun next =>
      .bind ((still_putCae _ _ _).mono fun _ _ h => h.settled) fun done => ?_
    split
    · exact .bind ((still_assert _).mono fun _ _ h => h.settled) fun _ => True.intro
    · exact True.intro

theorem settled_safeDeq (d : Descriptor) (tl : Local) : (safeDeq d tl).Steps Settled := by
  refine .bind (.read Settled.refl _) fun next => .bind (.read Settled.refl _) fun w =>
    .bind ?_ fun done => ?_
  · exact .bind (.cae Settled.refl fun _ _ => ⟨rfl, rfl, rfl, fun _ => rfl, List.prefix_refl _⟩)
      fun _ => True.intro
  · split
    · exact .bind (.read Settled.refl _) fun _ => True.intro
    · exact True.intro

theorem settled_dequeue (tl : Local) : (dequeue set tl).Steps Settled := by
  refine .bind (.read Settled.refl _) fun latTail => .forever (fun (contention, tl) => ?_) _
  refine .bind ((still_getWindow _ _).mono fun _ _ h => h.settled) fun (d, tl) =>
    .bind (.read Settled.refl _) fun p =>
    .bind (.read Settled.refl _) fun g => ?_
  split
  · exact settled_safeDeq _ _
  · refine .bind ((still_readDescriptor _ _).mono fun _ _ h => h.settled) fun e => ?_
    dsimp only
    split
    · refine .bind (.read Settled.refl _) fun next => ?_
      split
      · exact True.intro
      · exact .bind ((still_helpEnqueue _ _ _).mono fun _ _ h => h.settled) fun _ => True.intro
    · exact settled_safeDeq _ _

end Settled

namespace Watched

/-- Each step keeps where the settings come from. -/
def choices (width depth : ℕ) : Regime Call (State × Watch) Unit where
  inv calls x := Choices width depth calls x.1.1
  frame _ _ _ := True
  fresh _ _ := True
  assume _ _ := True
  refl _ _ := True.intro
  trans _ _ _ _ _ _ := True.intro
  inv_call _ _ _ h := h.later (List.prefix_append ..)
  fresh_later _ _ _ _ _ := True.intro

section Code

variable {set : Params} {width depth w d : ℕ} {c : Caller}
  {v v₁ : View (Results.trivial (object set).service (choices width depth)).protocol c}

/-- A step that keeps the choices. -/
theorem allows_choices
    (v : View (Results.trivial (object set).service (choices width depth)).protocol c)
    {x : State × Watch} (h : Choices width depth v.now.1.calls x.1) : (Results.trivial
      (object set).service (choices width depth)).protocol.Allows c v.now (v.after x ()) :=
  Regime.allows v h fun _ _ => True.intro

theorem choices_of (v : View (Results.trivial (object set).service
      (choices width depth)).protocol c) :
    Choices width depth v.now.1.calls v.state.1 := v.inv_pair

theorem chosen_later (h : Chosen width depth v.now.1.calls w d) (h₁ : v ≤ v₁) :
    Chosen width depth v₁.now.1.calls w d :=
  h.later h₁.2.evolves.calls

theorem settled_any {α : Type} {p : Prog (State × Watch) α}
    (hp : p.Steps fun x x' => Settled x.1 x'.1) :
    wp (Results.trivial (object set).service (choices width depth)).protocol c p
      (fun _ _ => True) v :=
  (wp.of_steps hp (fun _ _ _ hs (h : Choices ..) => h.settled hs) fun _ _ _ _ => True.intro).mono
    fun _ _ _ => True.intro

theorem settled_fst {α : Type} {p : Prog State α} (hp : p.Steps Settled) :
    wp (Results.trivial (object set).service (choices width depth)).protocol c p.onFst
      (fun _ _ => True) v :=
  settled_any ((Prog.Annotates.onFst p).steps hp)

theorem still_fst {α : Type} {p : Prog State α} (hp : p.Steps Still) :
    wp (Results.trivial (object set).service (choices width depth)).protocol c p.onFst
      (fun _ _ => True) v :=
  settled_fst (hp.mono fun _ _ h => h.settled)

/-- A new window has what has been set. -/
theorem linkLateral_chosen (tail : Option ℕ) (max : ℕ) (h : Chosen width depth v.now.1.calls w d) :
    wp (Results.trivial (object set).service (choices width depth)).protocol c
      (linkLateral tail max d w).onFst (fun _ _ => True) v := by
  refine wp.read_fst fun v₁ h₁ => ?_
  split
  · refine wp.update_fst fun v₂ h₂ _ => ?_
    have hall := allows_choices v₂
      (x := ({ v₂.state.1 with lateral := v₂.state.1.lateral.create ⟨max, w, d⟩ }, v₂.state.2))
      ((choices_of v₂).create (chosen_later h (h₁.trans h₂)))
    exact ⟨_, hall, settled_fst (.bind (.cae Settled.refl fun s _ => .append s _ _)
      fun _ => True.intro)⟩
  · exact True.intro

theorem tryShiftPut_chosen (tl : Local) (max : ℕ) :
    wp (Results.trivial (object set).service (choices width depth)).protocol c
      (tryShiftPut tl max).onFst (fun _ _ => True) v := by
  refine wp.read_fst fun v₁ h₁ => ?_
  split
  · refine wp.read_fst fun v₂ h₂ => wp.read_fst fun v₃ h₃ => wp.read_fst fun v₄ h₄ => ?_
    have hd := (choices_of v₂).settings.depth
    have hw := (choices_of v₃).settings.width
    have hchosen : Chosen width depth v₃.now.1.calls v₃.state.1.width v₂.state.1.depth :=
      ⟨hw, hd.imp_right fun hd => h₃.2.evolves.calls.mem hd⟩
    split
    · refine wp.bind_fst (linkLateral_chosen _ _ (chosen_later hchosen h₄)) fun _ v₅ _ => ?_
      exact still_fst (.bind (still_read _) fun _ =>
        .bind (.cae Still.refl fun _ _ => ⟨rfl, rfl, rfl, rfl, rfl⟩) fun _ => True.intro)
    · exact True.intro
  · exact True.intro

theorem putRound_chosen (st : Search) :
    wp (Results.trivial (object set).service (choices width depth)).protocol c
      (putRound set st).onFst (fun _ _ => True) v := by
  refine wp.bind_fst (still_fst (still_readDescriptor _ _)) fun d v₁ _ =>
    wp.read_fst fun v₂ _ => wp.read_fst fun v₃ _ => ?_
  split
  · exact still_fst (.bind (still_loadPutWindow _ _) fun _ => True.intro)
  · split
    · exact still_fst (.bind (still_assert _) fun _ => .bind (still_followIndex _ _ _ _)
        fun _ => True.intro)
    · split
      · exact still_fst (.bind (still_hop _ _ _ _) fun _ => True.intro)
      · refine wp.bind_fst (tryShiftPut_chosen _ _) fun _ v₄ _ => ?_
        exact still_fst (.bind (still_read _) fun _ => .bind (still_loadPutWindow _ _)
          fun _ => True.intro)

theorem putWindow_chosen (contention : Bool) (tl : Local) :
    wp (Results.trivial (object set).service (choices width depth)).protocol c
      (putWindow set contention tl).onFst (fun _ _ => True) v := by
  refine wp.read_fst fun v₁ _ => wp.read_fst fun v₂ _ =>
    wp.bind_fst (still_fst ?_) fun index v₃ _ => ?_
  · unfold startIndex
    split
    · exact still_randomIndex _
    · exact True.intro
  · exact wp.forever_fst (fun _ _ => True) True.intro fun st v₄ _ =>
      (putRound_chosen st).mono fun r _ _ => by cases r <;> exact True.intro

theorem enqueueRound_chosen (newNode : ℕ) (contention : Bool) (tl : Local) :
    wp (Results.trivial (object set).service (choices width depth)).protocol c
      (enqueueRound set newNode contention tl).onFst (fun _ _ => True) v := by
  refine wp.bind_fst (putWindow_chosen contention tl) ?_
  rintro ⟨d, tl'⟩ v₁ -
  refine settled_fst (.bind ((still_assert _).mono fun _ _ h => h.settled) fun _ => .bind
    (.read Settled.refl _) fun w =>
    .bind ((still_assert _).mono fun _ _ h => h.settled) fun _ =>
      .bind (.read Settled.refl _) fun count => ?_)
  split
  · exact True.intro
  · exact settled_tryLink _ _ _ _ _

theorem enqueue_chosen (val : ℤ) (tl : Local) :
    wp (Results.trivial (object set).service (choices width depth)).protocol c
      (enqueue set val tl).onFst (fun _ _ => True) v := by
  refine wp.bind_fst (settled_fst (settled_createNode _)) fun n v₁ _ => ?_
  refine wp.bind_fst (wp.forever_fst (Q := fun _ _ => True) (fun _ _ => True) True.intro ?_)
    fun a v₂ _ => ?_
  · rintro ⟨contention, tl'⟩ v₃ -
    exact (enqueueRound_chosen n contention tl').mono fun r _ _ => by cases r <;> exact True.intro
  · exact still_fst (.bind (still_assert _) fun _ => .bind (still_putCae _ _ _) fun _ => True.intro)

theorem choices_obligations (set : Params) (width depth : ℕ) :
    Obligations (.trivial (object set).service (choices width depth)) (Call.Valid set)
      (fun _ _ _ => True) (fun _ _ _ _ => True) (initial set width depth, {}) () .zero where
  init := by
    refine ⟨⟨.inl rfl, .inl rfl⟩, fun n hn h₀ => ?_, List.prefix_append [0] [1]⟩
    obtain rfl : n = 1 := by
      have hn : n < 2 := hn
      omega
    exact ⟨.inl rfl, .inl rfl⟩
  init_fresh _ := True.intro
  init_loc _ := True.intro
  loc_later _ _ _ _ _ _ _ _ _ h := h
  post_stable _ _ _ _ _ _ h := h
  code t op call l v _ hcall _ _ _ := by
    cases call with
    | register => exact still_fst (.bind still_initThreadWindows fun _ => True.intro)
    | enqueue val => exact wp.bind_fst (enqueue_chosen val l) fun _ _ _ => True.intro
    | dequeue => exact settled_any ((object_annotates set .dequeue l).steps (settled_dequeue l))
    | updateWidth w =>
      intro v₁ h₁ _ _
      have hi := choices_of v₁
      have hmem := h₁.2.evolves.calls.mem (List.mem_of_getElem? hcall)
      exact ⟨_, allows_choices v₁ (x := ({ v₁.state.1 with width := w }, v₁.state.2))
        ⟨⟨.inr hmem, hi.settings.depth⟩, hi.windows, hi.first⟩, True.intro⟩
    | updateDepth d =>
      intro v₁ h₁ _ _
      have hi := choices_of v₁
      have hmem := h₁.2.evolves.calls.mem (List.mem_of_getElem? hcall)
      exact ⟨_, allows_choices v₁ (x := ({ v₁.state.1 with depth := d }, v₁.state.2))
        ⟨⟨hi.settings.width, .inr hmem⟩, hi.windows, hi.first⟩, True.intro⟩
  finish _ _ _ _ _ _ := ⟨fun _ _ => True.intro, True.intro⟩

end Code

/-- The width and the depth of each window but the first are those of `create_queue` or have been
passed to a call. -/
theorem windows_chosen {set : Params} (hp : set.WF) {width depth : ℕ} (hw : Allocated set width)
    (hd : 0 < depth) {P : Pool (object set).service}
    (hr : Reach (fun call _ => Call.Valid set call) (fun _ _ => True)
      (initial set width depth, {}) .zero P) :
    ∀ w ∈ P.world.shared.1.windows.tail, Chosen width depth P.world.calls w.width w.depth := by
  obtain ⟨g, hinv⟩ := (law_obligations hp hw hd fun _ _ => True).implements.inv hr
  have hi : Inv set P.world.shared.1 P.world.shared.2 g := hinv.1.1
  obtain ⟨_, hchoices, -⟩ := (choices_obligations set width depth).implements.inv hr
  have hc : Choices width depth P.world.calls P.world.shared.1 := hchoices
  obtain ⟨l, hl⟩ := hc.first
  have hline : P.world.shared.1.line = 0 :: l := hl.symm
  intro w hmem
  rw [State.windows, hline, List.map_cons, List.tail_cons] at hmem
  obtain ⟨n, hn, rfl⟩ := List.mem_map.1 hmem
  obtain ⟨p, hp⟩ := List.mem_iff_getElem?.1 hn
  have hpos : P.world.shared.1.line[p + 1]? = some n := by rwa [hline, List.getElem?_cons_succ]
  refine hc.windows n (hi.lines.lt_fresh 0 one_pos n (List.mem_of_getElem? hpos)) ?_
  rintro rfl
  have hzero : P.world.shared.1.line[0]? = some 0 := by rw [hline, List.getElem?_cons_zero]
  exact absurd (hi.lines.inj 0 one_pos 0 one_pos _ _ _ hpos hzero).2 (Nat.succ_ne_zero p)

end Watched

end ElasticLaw
