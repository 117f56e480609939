import SemanticRelaxation.TwoDc.Stack
import SemanticRelaxation.TwoDc.WindowSeq

/-!
# The 2Dc stack, one call at a time

`Inv` says that the linked lists hold the items of the history, that the counts are their lengths
and stay in the window, and, for the rank bound, that every item stands at most `depth` higher in
its own sub-stack than the number of older items in any other. A push and a pop keep it
(`Inv.push`, `Inv.pop`), and the calls answer as a relaxed stack does (`push_spec`, `pop_spec`).
-/

namespace TwoDc

namespace Stack

open AtomicProg Treiber

variable {set : Params} {s s' : State}

/-- The linked lists hold the items of the history, and the counts are their lengths. -/
structure Listed (set : Params) (s : State) : Prop where
  lists : Stacks set.width (fun j => (s.setArray j).node) s.mem
  count : ∀ j < set.width, s.count j = Rank.count Item.idx j s.mem.hist.present

/-- The invariant between two calls. -/
structure Inv (set : Params) (s : State) : Prop where
  window : WindowInv set s
  lists : Stacks set.width (fun j => (s.setArray j).node) s.mem
  count : ∀ j < set.width, s.count j = Rank.count Item.idx j s.mem.hist.present
  heights : Rank.Suffixes Item.idx set.width (fun k b => k ≤ b + set.depth) s.mem.hist.present

theorem params_wf {width depth : ℕ} (hw : 1 ≤ width) (hw' : width < 2 ^ 16) (hd : 1 ≤ depth) :
    (params width depth).WF where
  width_pos := hw
  width_lt := hw'
  shift_pos := by
    show 0 < if 1 < depth / 2 then depth / 2 else 1
    split <;> omega
  shift_le := by
    show (if 1 < depth / 2 then depth / 2 else 1) ≤ depth
    split <;> omega
  random_lt := by
    show 2 < 2 ^ 16
    decide
  modulus_eq := rfl

theorem node_update (a : ℕ → Descriptor) (j : ℕ) (d : Descriptor) :
    (fun i => (Function.update a j d i).node) =
      Function.update (fun i => (a i).node) j d.node := by
  funext i
  by_cases h : i = j
  · subst h
    simp
  · simp [h]

namespace Listed

theorem initial : Listed set (initial set) := ⟨.init, fun _ _ => rfl⟩

theorem create (h : Listed set s) (val : ℤ) : Listed set { s with mem := s.mem.create val } :=
  ⟨h.lists.create val, h.count⟩

theorem setNext (h : Listed set s) {n : ℕ} (hn : ∀ x ∈ s.mem.hist.added, x.node ≠ n)
    (next : Option ℕ) : Listed set { s with mem := s.mem.setNext n next } :=
  ⟨h.lists.setNext hn next, h.count⟩

theorem push (h : Listed set s) {j n : ℕ} (hj : j < set.width)
    (hn : ∀ x ∈ s.mem.hist.added, x.node ≠ n) (hfresh : n < s.mem.fresh)
    (hnext : (s.mem.heap n).next = (s.setArray j).node) :
    Listed set { s with
      setArray := Function.update s.setArray j ⟨some n, s.count j + 1⟩
      mem := s.mem.push j n } := by
  constructor
  · rw [node_update]
    exact h.lists.push hj hn hfresh hnext
  · intro i hi
    have h₁ := h.count i hi
    show HasCount.count (Function.update s.setArray j ⟨some n, s.count j + 1⟩ i) =
      Rank.count Item.idx i (⟨n, (s.mem.heap n).val, j⟩ :: s.mem.hist.present)
    rw [Rank.count_cons]
    by_cases hij : i = j
    · subst hij
      rw [Function.update_self, if_pos rfl, ← h₁]
      rfl
    · rw [Function.update_of_ne hij, if_neg (Ne.symm hij), ← h₁]
      rfl

theorem pos (h : Listed set s) {j n : ℕ} (hj : j < set.width)
    (htop : (s.setArray j).node = some n) : 0 < s.count j := by
  rw [h.count j hj]
  refine Nat.pos_of_ne_zero fun h₀ => ?_
  rw [(h.lists.top_eq_none_iff hj).2 h₀] at htop
  cases htop

/-- The top node is the youngest item of its sub-stack. -/
theorem pop (h : Listed set s) {j n : ℕ} (hj : j < set.width)
    (htop : (s.setArray j).node = some n) :
    ∃ A x B, s.mem.hist.present = A ++ x :: B ∧ x.node = n ∧ x.idx = j ∧
      (s.mem.heap n).val = x.val ∧ Rank.count Item.idx j A = 0 ∧
      (s.mem.pop n).hist.present = A ++ B ∧
      Listed set { s with
        setArray := Function.update s.setArray j ⟨(s.mem.heap n).next, s.count j - 1⟩
        mem := s.mem.pop n } := by
  obtain ⟨A, x, B, hpres, rfl, rfl, hv, hA, hst⟩ := h.lists.pop hj htop
  have hrem : (s.mem.pop x.node).hist.present = A ++ B :=
    congrArg History.present (h.lists.conserved.remove_eq hpres)
  refine ⟨A, x, B, hpres, rfl, rfl, hv, hA, hrem, ?_, fun i hi => ?_⟩
  · rw [node_update]
    exact hst
  · have h₁ := h.count i hi
    rw [hpres, Rank.count_append, Rank.count_cons] at h₁
    show HasCount.count (Function.update s.setArray x.idx _ i) =
      Rank.count Item.idx i (s.mem.pop x.node).hist.present
    rw [hrem, Rank.count_append]
    by_cases hix : i = x.idx
    · subst hix
      rw [Function.update_self]
      rw [if_pos rfl] at h₁
      show s.count x.idx - 1 = _
      omega
    · rw [Function.update_of_ne hix]
      rw [if_neg (Ne.symm hix)] at h₁
      exact h₁

end Listed

namespace Inv

theorem listed (h : Inv set s) : Listed set s := ⟨h.lists, h.count⟩

theorem initial (hd : set.depth < 2 ^ 16) : Inv set (initial set) where
  window :=
    { top := ⟨0, by rw [Nat.zero_mul]; exact Nat.mod_eq_of_lt hd⟩
      le_max := fun _ _ => Nat.zero_le _
      max_le := fun _ _ => by
        show set.depth % 2 ^ 16 ≤ 0 + set.depth
        rw [Nat.mod_eq_of_lt hd, Nat.zero_add] }
  lists := .init
  count _ _ := rfl
  heights := True.intro

theorem moved (h : Inv set s) (hm : Moved s s') (hw : WindowInv set s') : Inv set s' where
  window := hw
  lists := by
    rw [hm.setArray, hm.mem]
    exact h.lists
  count j hj := by
    rw [hm.count, hm.mem]
    exact h.count j hj
  heights := by
    rw [hm.mem]
    exact h.heights

/-- A new node changes nothing but the memory. -/
theorem create (h : Inv set s) (val : ℤ) : Inv set { s with mem := s.mem.create val } where
  window := ⟨h.window.top, h.window.le_max, h.window.max_le⟩
  lists := h.lists.create val
  count := h.count
  heights := h.heights

/-- The link of a node that was never pushed may change. -/
theorem setNext (h : Inv set s) {n : ℕ} (hn : ∀ x ∈ s.mem.hist.added, x.node ≠ n)
    (next : Option ℕ) :
    Inv set { s with mem := s.mem.setNext n next } where
  window := ⟨h.window.top, h.window.le_max, h.window.max_le⟩
  lists := h.lists.setNext hn next
  count := h.count
  heights := h.heights

/-- A push below the top of the window. -/
theorem push (h : Inv set s) {j n : ℕ} (hj : j < set.width) (hlt : s.count j < s.globalWindow.max)
    (hn : ∀ x ∈ s.mem.hist.added, x.node ≠ n) (hfresh : n < s.mem.fresh)
    (hnext : (s.mem.heap n).next = (s.setArray j).node) :
    Inv set { s with
      setArray := Function.update s.setArray j ⟨some n, s.count j + 1⟩
      mem := s.mem.push j n } := by
  obtain ⟨hlists, hcount⟩ := h.listed.push hj hn hfresh hnext
  refine ⟨⟨h.window.top, fun i hi => ?_, fun i hi => ?_⟩, hlists, hcount, ?_⟩
  · by_cases hij : i = j
    · subst hij
      simpa [Shared.count, HasCount.count] using hlt
    · have := h.window.le_max i hi
      simpa [Shared.count, hij] using this
  · have := h.window.max_le i hi
    by_cases hij : i = j
    · subst hij
      refine this.trans ?_
      simp only [Shared.count, Function.update_self, HasCount.count]
      omega
    · simpa [Shared.count, hij] using this
  · refine h.heights.cons fun i hi => ?_
    show Rank.count Item.idx j s.mem.hist.present + 1 ≤ _
    have h₁ := h.window.max_le i hi
    rw [← h.count i hi, ← h.count j hj]
    omega

/-- A pop above the bottom of the window takes an item with few younger ones. -/
theorem pop (h : Inv set s) {j n : ℕ} (hj : j < set.width)
    (hlt : s.globalWindow.max < s.count j + set.depth) (htop : (s.setArray j).node = some n) :
    ∃ A x B, s.mem.hist.present = A ++ x :: B ∧ x.node = n ∧ (s.mem.heap n).val = x.val ∧
      A.length ≤ 2 * set.depth * (set.width - 1) ∧
      Inv set { s with
        setArray := Function.update s.setArray j ⟨(s.mem.heap n).next, s.count j - 1⟩
        mem := s.mem.pop n } := by
  obtain ⟨A, x, B, hpres, rfl, rfl, hv, hA, hrem, hlisted⟩ := h.listed.pop hj htop
  have hcnt : ∀ i < set.width, s.count i =
      Rank.count Item.idx i A + Rank.count Item.idx i B + if x.idx = i then 1 else 0 := by
    intro i hi
    rw [h.count i hi, hpres, Rank.count_append, Rank.count_cons]
    omega
  have hcj : s.count x.idx = Rank.count Item.idx x.idx B + 1 := by
    rw [hcnt _ hj, hA, if_pos rfl]
    omega
  have hsplit := (hpres ▸ h.heights).split
  have hcount : ∀ i < set.width, HasCount.count (Function.update s.setArray x.idx
      ⟨(s.mem.heap x.node).next, s.count x.idx - 1⟩ i) =
        Rank.count Item.idx i (A ++ B) := by
    intro i hi
    rw [← hrem]
    exact hlisted.count i hi
  have hwin : WindowInv set { s with
      setArray := Function.update s.setArray x.idx ⟨(s.mem.heap x.node).next, s.count x.idx - 1⟩
      mem := s.mem.pop x.node } := by
    refine ⟨h.window.top, fun i hi => ?_, fun i hi => ?_⟩
    · refine (le_of_eq (hcount i hi)).trans (le_trans ?_ (h.window.le_max i hi))
      rw [hcnt i hi, Rank.count_append]
      omega
    · refine le_trans ?_ (Nat.add_le_add_right (ge_of_eq (hcount i hi)) _)
      have h₁ := hcnt i hi
      have h₂ := h.window.max_le i hi
      rw [Rank.count_append]
      show s.globalWindow.max ≤ _
      by_cases hix : x.idx = i
      · subst hix
        omega
      · rw [if_neg hix] at h₁
        omega
  refine ⟨A, x, B, hpres, rfl, hv, ?_, hwin, ?_, ?_, ?_⟩
  · -- in every other class at most `2 * depth` items are younger
    refine Rank.length_le_mul (f := Item.idx) (fun y hy => ?_) hj hA fun i hi hij => ?_
    · exact h.lists.idx_lt y (hpres ▸ List.mem_append_left _ hy)
    · have h₁ := hcnt i hi
      have h₂ := h.window.le_max i hi
      have h₃ := hsplit i hi
      rw [if_neg (Ne.symm hij)] at h₁
      omega
  · exact hlisted.lists
  · exact hlisted.count
  · rw [hrem]
    refine (hpres ▸ h.heights).remove hA fun i i' k hi' hk => ?_
    have h₂ : s.globalWindow.max ≤ _ := (hwin.max_le i' hi').trans_eq
      (congrArg (· + set.depth) (hcount i' hi'))
    by_cases hi : i < set.width
    · have h₁ : _ ≤ s.globalWindow.max := (hcount i hi).symm.trans_le (hwin.le_max i hi)
      omega
    · have h₀ : Rank.count Item.idx i (A ++ B) = 0 := by
        refine Rank.count_eq_zero.2 fun y hy he => hi ?_
        rw [← he]
        refine h.lists.idx_lt y ?_
        rw [hpres]
        rcases List.mem_append.1 hy with hy | hy <;> simp [hy]
      omega

end Inv

/-- What each call answers: it behaves as a stack that may pop any item with at most
`2 * depth * (width - 1)` younger ones, and `pop` answers 0 exactly if all sub-stacks are empty. -/
def Answers (set : Params) : Call → State → Option ℤ → State → Prop
  | .push v, s, r, s' => r = some 1 ∧ ∃ n j, j < set.width ∧ (∀ x ∈ s.mem.hist.added, x.node ≠ n) ∧
      s'.mem.hist = s.mem.hist.addFront ⟨n, v, j⟩
  | .pop, s, r, s' =>
      (∃ x, s.mem.hist.Removes (fun _ => 2 * set.depth * (set.width - 1)) x s'.mem.hist ∧
        r = x.map Item.val) ∧
      (r = none ↔ ∀ j < set.width, (s.setArray j).node = none)

/-- What every call leaves behind, for the invariants of the shared memory and of all threads. -/
structure Done (set : Params) (c : Call) (s : State) (r : Local × Option ℤ) (s' : State) :
    Prop where
  inv : Inv set s'
  localOk : LocalOk set r.1 s'
  kept : ∀ tl, LocalOk set tl s → LocalOk set tl s'
  answers : Answers set c s r.2 s'

/-- A change of the items alone keeps what a thread knows of the window. -/
theorem localOk_of_window {tl : Local} (h : LocalOk set tl s)
    (he : s'.globalWindow = s.globalWindow) : LocalOk set tl s' :=
  ⟨h.index_lt, by rw [he]; exact h.version_le, by rw [he]; exact h.current⟩

theorem localOk_of_current {tl : Local} (hi : tl.index < set.width)
    (hw : tl.window = s.globalWindow) : LocalOk set tl s :=
  ⟨hi, by rw [hw], fun _ => hw⟩

/-- An exchange of the descriptor that was read succeeds. -/
theorem stackCae_spec {β : Type} {Q : β → State → Prop} {idx : ℕ}
    {old new : Descriptor} {push : Bool} {k : Bool → Prog State β} (he : s.setArray idx = old)
    (h : Total (.trivial _) Q (k true) { s with
      setArray := Function.update s.setArray idx new
      mem := record idx old new push s.mem }) :
    Total (.trivial _) Q (stackCae idx old new push >>= k) s := by
  simp only [stackCae, Prog.bind_assoc]
  exact Total.cae_of_eq he fun _ => ⟨True.intro, h⟩

theorem push_spec (hp : set.WF) {tl : Local} (hi : Inv set s) (hl : LocalOk set tl s) (v : ℤ) :
    Total (.trivial _) (Done set (.push v) s) ((object set).code (.push v) tl) s := by
  show Total _ _ (push set v tl >>= _) s
  simp only [push, createNode, Prog.bind_assoc, Total.update_iff]
  refine fun _ => ⟨True.intro, ?_⟩
  set n := s.mem.fresh
  have hn : ∀ x ∈ s.mem.hist.added, x.node ≠ n := fun x hx => (hi.lists.fresh x hx).ne
  have hi₁ := hi.create v
  have hcreate : ∀ l, LocalOk set l s → LocalOk set l { s with mem := s.mem.create v } :=
    fun _ h => localOk_of_window h rfl
  refine Total.bind_of (P := fun r s' => Done set (.push v) s (r.1, some r.2) s')
    (Total.forever_once ?_) fun r s' h => .ret h
  refine Total.bind_of (putWindow_spec hp hi₁.window (hcreate tl hl)) ?_
  rintro ⟨d, tl'⟩ s₂ ⟨hm, hw, hwin, hidx, hd, hlt⟩
  obtain rfl : d = s₂.setArray tl'.index := hd
  have hmem : s₂.mem = s.mem.create v := hm.mem
  have hadd : s₂.mem.hist = s.mem.hist := by rw [hmem]; rfl
  simp only [setNext, Total.update_iff]
  refine fun _ => ⟨True.intro, ?_⟩
  have hi₃ := (hi₁.moved hm hw).setNext (n := n) (by rwa [hadd]) (s₂.setArray tl'.index).node
  refine stackCae_spec rfl ?_
  have hval : ((s₂.mem.setNext n (s₂.setArray tl'.index).node).heap n).val = v := by
    simp [Mem.setNext, hmem, Mem.create, n]
  have hfin := hi₃.push (n := n) hidx hlt (by show ∀ x ∈ s₂.mem.hist.added, _; rwa [hadd])
    (by show n < s₂.mem.fresh; rw [hmem]; exact Nat.lt_succ_self _) (by simp [Mem.setNext])
  refine .ret ⟨_, rfl, hfin, localOk_of_current hidx hwin, fun l h => ?_, rfl, n, tl'.index, hidx,
    hn, ?_⟩
  · exact localOk_of_window (hm.localOk (hcreate l h)) rfl
  · show s₂.mem.hist.addFront ⟨n, _, tl'.index⟩ = _
    rw [hval, hadd]

theorem pop_spec (hp : set.WF) {tl : Local} (hi : Inv set s) (hl : LocalOk set tl s) :
    Total (.trivial _) (Done set .pop s) ((object set).code .pop tl) s := by
  refine Total.forever_once ?_
  refine Total.bind_of (getWindow_spec hp hi.window hl) ?_
  rintro ⟨d, tl'⟩ s₂ ⟨hm, hw, hwin, hidx, hd, hans⟩
  obtain rfl : d = s₂.setArray tl'.index := hd
  have hi₂ := hi.moved hm hw
  have hempty : (∀ j < set.width, (s.setArray j).node = none) ↔ s.mem.hist.present = [] :=
    hi.lists.present_eq_nil_iff.symm
  cases htop : (s₂.setArray tl'.index).node with
  | none =>
    simp only [htop]
    have hzero : s₂.count tl'.index = 0 := by
      rw [hi₂.count _ hidx]
      exact (hi₂.lists.top_eq_none_iff hidx).1 htop
    have hall : ∀ j < set.width, s₂.count j = 0 := by
      rcases hans with hlt | hall
      · have h₁ := hw.depth_le
        have h₂ : s₂.globalWindow.max < s₂.count tl'.index + set.depth := hlt
        omega
      · exact hall
    have hnil : ∀ j < set.width, (s.setArray j).node = none := by
      intro j hj
      have h₀ := hall j hj
      rw [hm.count, hi.count j hj] at h₀
      exact (hi.lists.top_eq_none_iff hj).2 h₀
    refine .ret ⟨_, rfl, hi₂, localOk_of_current hidx hwin, fun l h => hm.localOk h,
      ⟨none, ?_, rfl⟩, fun _ => hnil, fun _ => rfl⟩
    rw [hm.mem]
    exact .empty (hempty.1 hnil)
  | some n =>
    simp only [htop, Total.read_iff]
    refine stackCae_spec rfl ?_
    have hpos : 0 < s₂.count tl'.index := hi₂.listed.pos hidx htop
    have hlt : s₂.globalWindow.max < s₂.count tl'.index + set.depth := by
      rcases hans with hlt | hall
      · exact hlt
      · exact absurd (hall _ hidx) hpos.ne'
    obtain ⟨A, x, B, hpres, hx, hv, hk, hfin⟩ := hi₂.pop hidx hlt htop
    have hsub : Words.usub 64 (s₂.setArray tl'.index).count 1 = s₂.count tl'.index - 1 :=
      Words.usub_of_le hpos
    have hne : ¬ ∀ j < set.width, (s.setArray j).node = none := by
      rw [hempty, ← hm.mem, hpres]
      exact List.append_ne_nil_of_right_ne_nil _ (List.cons_ne_nil _ _)
    simp only [if_true, Total.read_iff]
    refine .ret ⟨_, rfl, ?_, localOk_of_current hidx hwin, fun l h =>
      localOk_of_window (hm.localOk h) rfl, ⟨some x, ?_, ?_⟩, (by intros; contradiction), fun h =>
        absurd h hne⟩
    · rw [hsub, record_pop htop]
      exact hfin
    · rw [record_pop htop, ← hm.mem, ← hx]
      exact .item hpres hk
    · rw [record_pop htop]
      exact congrArg some hv

/-- What holds between any two calls. -/
structure Correct (set : Params) (s : State) (ls : ℕ → Local) : Prop where
  depth_le : set.depth ≤ s.globalWindow.max
  contained : ∀ j < set.width, s.globalWindow.max - set.depth ≤ (s.setArray j).count ∧
    (s.setArray j).count ≤ s.globalWindow.max
  conserved : s.mem.hist.Conserved
  answers : (object set).Meets (Answers set) s ls

/-- Sequential specification of the 2Dc stack: for threads that call one at a time with whatever
window and index their earlier calls left them, the counts stay in the window, no item is lost or
popped twice, and every call returns with an answer of the relaxed stack. -/
theorem coupledStack_sequential {width depth : ℕ} (hw : 1 ≤ width) (hw' : width < 2 ^ 16)
    (hd : 1 ≤ depth) (hd' : depth < 2 ^ 16) {s : State} {ls : ℕ → Local}
    (h : (object (params width depth)).Reach (initial (params width depth)) .zero s ls) :
    Correct (params width depth) s ls := by
  have hp := params_wf hw hw' hd
  have hcode : ∀ c l s, Inv (params width depth) s → LocalOk (params width depth) l s →
      Total (.trivial _) (Done (params width depth) c s)
        ((object (params width depth)).code c l) s := by
    intro c l s hi hl
    cases c with
    | push v => exact push_spec hp hi hl v
    | pop => exact pop_spec hp hi hl
  have hzero : LocalOk (params width depth) Local.zero (initial (params width depth)) :=
    ⟨hw, Nat.zero_le _, fun h => absurd h Nat.zero_ne_one⟩
  obtain ⟨hi, hl⟩ := SeqReach.invariant (C := .trivial _) _ _ (Inv.initial hd') hzero
    (fun c l s _ hi hl => (hcode c l s hi hl).mono fun _ _ h => ⟨h.inv, h.localOk, h.kept⟩) h
  refine ⟨hi.window.depth_le, fun j hj => ⟨?_, hi.window.le_max j hj⟩, hi.lists.conserved,
    Object.meets fun t c => (hcode c _ s hi (hl t)).mono fun _ _ h => h.answers⟩
  exact Nat.sub_le_iff_le_add.2 (hi.window.max_le j hj)

/-- Two threads push six items on two sub-stacks of depth 2 and pop two of them. The window is
shifted up once. -/
theorem coupledStack_sequential_run : ∃ s ls,
    (s.mem.hist.present.map fun x => (x.val, x.idx)) = [(8, 1), (7, 1), (6, 0), (5, 0)] ∧
      (s.mem.hist.removed.map fun x => (x.val, x.idx)) = [(9, 0), (10, 1)] ∧
      s.globalWindow = ⟨3, 2⟩ ∧ Correct (params 2 2) s ls := by
  obtain ⟨s, ls, hr, hc⟩ := SeqReach.of_check (object (params 2 2)) (fun _ _ => True)
    (initial (params 2 2)) .zero 60
    [(0, .push 5, fun _ => 0), (1, .push 6, fun _ => 1), (0, .push 7, fun _ => 0),
      (1, .push 8, fun _ => 1), (1, .push 9, fun _ => 0), (0, .push 10, fun _ => 0),
      (0, .pop, fun _ => 1), (1, .pop, fun _ => 0)]
    (fun _ => true) (fun s => decide
      ((s.mem.hist.present.map fun x => (x.val, x.idx)) = [(8, 1), (7, 1), (6, 0), (5, 0)] ∧
      (s.mem.hist.removed.map fun x => (x.val, x.idx)) = [(9, 0), (10, 1)] ∧
      s.globalWindow = ⟨3, 2⟩))
    (by decide +kernel) rfl fun _ _ _ _ => True.intro
  obtain ⟨hpresent, hremoved, hwindow⟩ := of_decide_eq_true hc
  exact ⟨s, ls, hpresent, hremoved, hwindow,
    coupledStack_sequential (by decide) (by decide) (by decide) (by decide) hr⟩

end Stack

end TwoDc
