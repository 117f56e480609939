import SemanticRelaxation.ElasticLpwStack.WindowSeq

/-!
# The elastic LpW stack, one call at a time

`push_wider_count` records the highest row that the sub-stacks outside the new width use, while
`shift_width` reads the records as exclusive bounds. A shift that puts the bottom of the window just
below such a row leaves the sub-stack out, and its items are stranded. `lpwStack_strands_none` says
that the ends of the records are all: in runs in which no shift finds a top row there
(`EdgesClear`), `pop` answers 0 from an empty stack only.
-/

namespace ElasticLpwStack

open AtomicProg Treiber TwoD

variable {set : Params} {s s' : State}

/-- No item is present, and every sub-stack has no top node. -/
def Empty (set : Params) (s : State) : Prop :=
  s.mem.hist.present = [] ∧ ∀ j < set.maxWidth, (s.setArray j).node = none

/-- What a call leaves behind. -/
structure Done (set : Params) (c : Call) (s : State) (r : Local × Option ℤ) (s' : State) :
    Prop where
  inv : Inv set s'
  ok : r.1.Ok s'
  shifts_le : s.shifts ≤ s'.shifts
  same : s'.shifts = s.shifts → s'.globalWindow = s.globalWindow
  empty : c = .pop → r.2 = none → Empty set s'

/-- An exchange of the descriptor that was read succeeds. -/
theorem stackCae_spec {β : Type} {Q : β → State → Prop} {idx : ℕ} {old new : Descriptor}
    {push : Bool} {k : Bool → Prog State β} (he : s.setArray idx = old)
    (h : Total (contract set) Q (k true) { s with
      setArray := Function.update s.setArray idx new
      mem := record idx old new push s.mem }) :
    Total (contract set) Q (stackCae idx old new push >>= k) s := by
  simp only [stackCae, Prog.bind_assoc]
  exact Total.cae_of_eq he fun _ => ⟨True.intro, h⟩

theorem push_spec (hp : set.WF) {tl : Local} (hi : Inv set s) (hl : tl.Ok s) (v : ℤ) :
    Total (contract set) (Done set (.push v) s) ((object set).code (.push v) tl) s := by
  show Total _ _ (push set v tl >>= _) s
  simp only [push, createNode, Prog.bind_assoc, Total.update_iff]
  refine fun _ => ⟨True.intro, ?_⟩
  set n := s.mem.fresh
  have hn : ∀ x ∈ s.mem.hist.added, x.node ≠ n := fun x hx => (hi.lists.fresh x hx).ne
  have hl₁ : tl.Ok { s with mem := s.mem.create v } := hl.mono le_rfl fun _ => rfl
  refine Total.bind_of (P := fun r s' => Done set (.push v) s (r.1, some r.2) s')
    (Total.forever_once ?_) fun r s' h => .ret h
  refine Total.bind_of (putWindow_spec hp (hi.create v) hl₁) ?_
  rintro ⟨d, tl'⟩ s₂ ⟨hi₂, hm, hwin, hidx, hd, hlt⟩
  obtain rfl : d = s₂.setArray tl'.putIndex := hd
  replace hwin : tl'.window = s₂.globalWindow := hwin
  have hmem : s₂.mem = s.mem.create v := hm.mem
  have hw := hi₂.window
  -- rows fit a `row_t`
  have hrow : (s₂.setArray tl'.putIndex).count % 2 ^ 32 = (s₂.setArray tl'.putIndex).count := by
    have h₁ := hw.max_le
    have h₂ := hw.shifts_lt
    have h₃ : (s₂.setArray tl'.putIndex).count < s₂.globalWindow.max := hlt
    exact Nat.mod_eq_of_lt (by omega)
  simp only [setNext, Prog.bind_assoc, Total.update_iff]
  refine fun _ => ⟨True.intro, fun _ => ⟨True.intro, ?_⟩⟩
  rw [hrow, hwin]
  have hi₃ := hi₂.setNext (n := n) (by rw [hmem]; exact hn) (s₂.setArray tl'.putIndex).node
    (s₂.setArray tl'.putIndex).count
  refine stackCae_spec rfl ?_
  have hfin := hi₃.push (n := n) hidx hlt (by
      show ∀ x ∈ s₂.mem.hist.added, _
      rw [hmem]
      exact hn) (by
      show n < s₂.mem.fresh
      rw [hmem]
      exact Nat.lt_succ_self _) (by simp [Mem.setNext]) (Function.update_self ..)
  exact .ret ⟨_, rfl, hfin, .of_window hfin.window hwin, hm.shifts_le, hm.same,
    by intros; contradiction⟩

theorem pop_spec (hp : set.WF) {tl : Local} (hi : Inv set s) (hl : tl.Ok s) :
    Total (contract set) (Done set .pop s) ((object set).code .pop tl) s := by
  refine Total.forever_once ?_
  refine Total.bind_of (getWindow_spec hp hi hl) ?_
  rintro ⟨d, tl'⟩ s₂ ⟨hi₂, hm, hwin, hidx, hd, hans⟩
  obtain rfl : d = s₂.setArray tl'.getIndex := hd
  replace hwin : tl'.window = s₂.globalWindow := hwin
  replace hidx : tl'.getIndex < s₂.globalWindow.getWidth := hidx
  have hidx' := hidx.trans_le hi₂.window.get_le
  cases htop : (s₂.setArray tl'.getIndex).node with
  | none =>
    simp only [htop]
    have hzero := (hi₂.node_eq_none_iff hidx').1 htop
    have hall : ∀ j < s₂.globalWindow.getWidth, (s₂.setArray j).count = 0 := by
      rcases hans with hlt | hall
      · exact absurd hzero (Nat.ne_zero_of_lt hlt)
      · exact hall
    have hnone := fun j (hj : j < set.maxWidth) => hi₂.empty_of_reached hall hj
    exact .ret ⟨_, rfl, hi₂, .of_window hi₂.window hwin, hm.shifts_le, hm.same, fun _ _ =>
      ⟨hi₂.lists.present_eq_nil_iff.2 hnone, hnone⟩⟩
  | some n =>
    simp only [htop, Total.read_iff]
    refine stackCae_spec rfl ?_
    have hpos : (s₂.setArray tl'.getIndex).count ≠ 0 := by
      rw [ne_eq, ← hi₂.node_eq_none_iff hidx', htop]
      intro h
      cases h
    have hlt : s₂.globalWindow.bottom < (s₂.setArray tl'.getIndex).count := by
      rcases hans with hlt | hall
      · exact hlt
      · exact absurd (hall _ hidx) hpos
    have hfin := hi₂.pop hidx hlt htop
    rw [record_pop htop, if_pos rfl, Total.read_iff]
    exact .ret ⟨_, rfl, hfin, .of_window hfin.window hwin, hm.shifts_le, hm.same,
      by intros; contradiction⟩

theorem call_spec (hp : set.WF) {tl : Local} (hi : Inv set s) (hl : tl.Ok s) {c : Call}
    (hc : c.Valid set) : Total (contract set) (Done set c s) ((object set).code c tl) s := by
  cases c with
  | push v => exact push_spec hp hi hl v
  | pop => exact pop_spec hp hi hl
  | updateWidth w =>
    show Total _ _ (updateWidth set w >>= _) s
    simp only [updateWidth, Prog.bind_assoc, Total.read_iff]
    refine assert_spec (decide_eq_true hc.2) ?_
    refine Total.bind_of (P := fun _ s' => s' = { s with width := w }) (Total.forever_once ?_) ?_
    · exact Total.cae_of_eq rfl fun _ => ⟨True.intro, .ret ⟨_, rfl, rfl⟩⟩
    · rintro old _ rfl
      exact .ret ⟨hi.setWidth hc, hl.mono le_rfl fun _ => rfl, le_rfl, fun _ => rfl,
        by intros; contradiction⟩
  | updateDepth d =>
    show Total _ _ (updateDepth d >>= _) s
    simp only [updateDepth, Prog.bind_assoc, Total.read_iff]
    refine Total.bind_of (P := fun _ s' => s' = { s with depth := d }) (Total.forever_once ?_) ?_
    · exact Total.cae_of_eq rfl fun _ => ⟨True.intro, .ret ⟨_, rfl, rfl⟩⟩
    · rintro old _ rfl
      exact .ret ⟨hi.setDepth hc, hl.mono le_rfl fun _ => rfl, le_rfl, fun _ => rfl,
        by intros; contradiction⟩

/-! ### Stranded items -/

/-- The runs of the claim: no failure ends them, and the window is shifted fewer than 2^16 times. -/
def InDomain (s s' : State) : Prop :=
  (s.failed = false → s'.failed = false) ∧
    (s'.globalWindow ≠ s.globalWindow → s'.shifts < 2 ^ 16)

/-- No shift of the window has a top row at an end of what is recorded. -/
def ShiftsClear (set : Params) (s s' : State) : Prop :=
  s'.globalWindow ≠ s.globalWindow → EdgesClear set s s'.globalWindow

/-- A `pop` of any thread with transitions in `assume` returns 0 from an empty stack only. -/
def EmptyIsTrue (set : Params) (assume : State → State → Prop) (s : State) (ls : ℕ → Local) :
    Prop :=
  ∀ t l s' tr, ((object set).code .pop (ls t)).Runs s (l, none) s' tr →
    (∀ x ∈ tr, assume x.1 x.2) → Empty set s'

/-- The states that valid calls executed one at a time reach, with transitions in `assume`. -/
abbrev Reach (maxWidth width depth : ℕ) (assume : State → State → Prop) :
    State → (ℕ → Local) → Prop :=
  SeqReach (object (params maxWidth)) (fun c _ => c.Valid (params maxWidth)) assume
    (initial (params maxWidth) width depth) .zero

theorem assume_iff : (contract set).assume s s' ↔ InDomain s s' ∧ ShiftsClear set s s' := by
  constructor
  · rintro ⟨h₁, h₂⟩
    exact ⟨⟨h₁, fun h => (h₂ h).1⟩, fun h => (h₂ h).2⟩
  · rintro ⟨⟨h₁, h₂⟩, h₃⟩
    exact ⟨h₁, fun h => ⟨h₂ h, h₃ h⟩⟩

/-- In runs in which no shift has a top row at an end of what is recorded, `pop` returns 0 from an
empty stack only. -/
theorem lpwStack_strands_none {maxWidth width depth : ℕ} (hw : 1 ≤ width) (hw' : width ≤ maxWidth)
    (hm : maxWidth < 2 ^ 16) (hd : 1 ≤ depth) (hd' : depth < 2 ^ 16) {s : State} {ls : ℕ → Local}
    (h : Reach maxWidth width depth
      (fun s s' => InDomain s s' ∧ ShiftsClear (params maxWidth) s s') s ls) :
    EmptyIsTrue (params maxWidth)
      (fun s s' => InDomain s s' ∧ ShiftsClear (params maxWidth) s s') s ls := by
  have hp : (params maxWidth).WF := ⟨hm, (by decide : 2 < 2 ^ 8)⟩
  have hassume : (fun s s' => InDomain s s' ∧ ShiftsClear (params maxWidth) s s') =
      (contract (params maxWidth)).assume := by
    funext s s'
    exact propext assume_iff.symm
  rw [hassume] at h ⊢
  obtain ⟨hi, hl⟩ := SeqReach.invariant (Inv (params maxWidth)) Local.Ok (Inv.initial hw hw' hd hd')
    (.inl rfl) (fun c l s hc hi hl => (call_spec hp hi hl hc).mono fun r s' hd =>
      ⟨hd.inv, hd.ok, fun l' hl' => hl'.mono hd.shifts_le hd.same⟩) h
  intro t l s' tr hr ha
  exact ((pop_spec hp hi (hl t)).runs hr ha).1.empty rfl rfl

/-- Whether a transition is one of the runs of `lpwStack_strands_none`. -/
def clears (set : Params) (x : State × State) : Bool :=
  !x.2.failed && (decide (x.2.globalWindow = x.1.globalWindow) ||
    (decide (x.2.shifts < 2 ^ 16) && decide (EdgesClear set x.1 x.2.globalWindow)))

theorem assume_of_clears {x : State × State} (h : clears set x = true) :
    InDomain x.1 x.2 ∧ ShiftsClear set x.1 x.2 := by
  simp only [clears, Bool.and_eq_true, Bool.not_eq_true', Bool.or_eq_true, decide_eq_true_eq] at h
  obtain ⟨hf, hsame | ⟨hs, hclear⟩⟩ := h
  · exact ⟨⟨fun _ => hf, fun hne => absurd hsame hne⟩, fun hne => absurd hsame hne⟩
  · exact ⟨⟨fun _ => hf, fun _ => hs⟩, fun _ => hclear⟩

/-- Two sub-stacks of depth 3 are filled, the width is set to 1, and a push moves the window up. The
last one of four pops moves it down again, and reads the record of sub-stack 1, which the pushes
have left. -/
theorem lpwStack_strands_none_two : ∃ s ls, s.mem.hist.present.length = 3 ∧ s.shifts = 2 ∧
    s.globalWindow.putWidth = 1 ∧ s.globalWindow.getWidth = 2 ∧ EmptyIsTrue (params 2)
    (fun s s' => InDomain s s' ∧ ShiftsClear (params 2) s s') s ls := by
  have h : (((object (params 2)).exec 60 [(0, .push 1, fun _ => 0), (1, .push 2, fun _ => 0),
      (0, .push 3, fun _ => 0), (1, .push 4, fun _ => 0), (0, .push 5, fun _ => 0),
      (1, .push 6, fun _ => 0), (0, .updateWidth 1, fun _ => 0), (0, .push 7, fun _ => 0),
      (1, .pop, fun _ => 0), (0, .pop, fun _ => 0), (1, .pop, fun _ => 0), (0, .pop, fun _ => 0)]
      (initial (params 2) 2 3) fun _ => .zero).any fun x =>
        decide (x.1.mem.hist.present.length = 3 ∧ x.1.shifts = 2 ∧ x.1.globalWindow.putWidth = 1 ∧
          x.1.globalWindow.getWidth = 2) && x.2.2.all (clears (params 2))) = true := by
    decide +kernel
  obtain ⟨⟨s, ls, tr⟩, he, hc⟩ := (Option.any_eq_true _ _).1 h
  simp only [Bool.and_eq_true, decide_eq_true_eq, List.all_eq_true] at hc
  obtain ⟨⟨hlen, hshifts, hput, hget⟩, htr⟩ := hc
  refine ⟨s, ls, hlen, hshifts, hput, hget, lpwStack_strands_none (by decide : 1 ≤ 2) le_rfl
    (by decide) (by decide : 1 ≤ 3) (by decide) (Object.exec_reach he ?_
      (fun x hx => assume_of_clears (htr x hx)) .init)⟩
  have hmax : 1 ≤ (params 2).maxWidth := by decide
  simp [Call.Valid, hmax]

/-- Two sub-stacks of depth 1 get an item each, the width is set to 1, a third item is pushed (the
window moves up) and popped. The next pop moves the window down again, leaves sub-stack 1 out, and
takes the item of sub-stack 0. Then `pop` returns 0, with an item left in sub-stack 1. -/
theorem lpwStack_strands_one : ∃ s ls, Reach 2 2 1 InDomain s ls ∧
    ¬ EmptyIsTrue (params 2) InDomain s ls := by
  have h : (((object (params 2)).exec 60 [(0, .push 7, fun _ => 0), (0, .push 8, fun _ => 0),
      (0, .updateWidth 1, fun _ => 0), (0, .push 9, fun _ => 0), (0, .pop, fun _ => 0),
      (0, .pop, fun _ => 0)] (initial (params 2) 2 1) fun _ => .zero).any fun x =>
        (x.2.2.all fun y => !y.2.failed && decide (y.2.shifts < 3)) &&
        (((object (params 2)).code .pop (x.2.1 0)).run 60 (fun _ => 0) x.1).any fun y =>
          (y.2.2.all fun y => !y.2.failed && decide (y.2.shifts < 3)) && y.1.2.isNone &&
            !y.2.1.mem.hist.present.isEmpty) = true := by
    decide +kernel
  have hdomain : ∀ tr : List (State × State),
      (tr.all fun y => !y.2.failed && decide (y.2.shifts < 3)) = true →
      ∀ x ∈ tr, InDomain x.1 x.2 := by
    intro tr hall x hx
    have hx' := List.all_eq_true.1 hall x hx
    simp only [Bool.and_eq_true, Bool.not_eq_true', decide_eq_true_eq] at hx'
    exact ⟨fun _ => hx'.1, fun _ => by omega⟩
  obtain ⟨⟨s, ls, tr⟩, he, hc⟩ := (Option.any_eq_true _ _).1 h
  simp only [Bool.and_eq_true] at hc
  obtain ⟨⟨⟨l, r⟩, s', tr'⟩, hr, hbad⟩ := (Option.any_eq_true _ _).1 hc.2
  simp only [Bool.and_eq_true, Bool.not_eq_true', List.isEmpty_eq_false_iff] at hbad
  obtain ⟨⟨htr', hnone⟩, hne⟩ := hbad
  obtain rfl : r = none := Option.isNone_iff_eq_none.1 hnone
  refine ⟨s, ls, Object.exec_reach he ?_ (hdomain tr hc.1) .init, fun htrue => ?_⟩
  · have hmax : 1 ≤ (params 2).maxWidth := by decide
    simp [Call.Valid, hmax]
  · exact hne (htrue 0 l s' tr' ⟨60, _, hr⟩ (hdomain tr' htr')).1

end ElasticLpwStack
