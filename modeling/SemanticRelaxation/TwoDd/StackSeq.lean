import SemanticRelaxation.TwoDd.Stack
import SemanticRelaxation.TwoDd.WindowSeq

/-!
# The 2Dd stack, one call at a time

With `P` and `G` the maxima of the two windows, every sub-stack holds between `P - G - depth` and
`P - G + depth` items. For the rank bound the invariant remembers this about the past: when an item
was pushed to height `k` of its sub-stack, every other sub-stack was at most `2 * depth` below the
next multiple of `depth`, and its items of that time can only leave it from the top.
-/

namespace TwoDd

namespace Stack

open AtomicProg Treiber TwoD

variable {set : Params} {s s' : State}

/-- Fewer than `2 ^ 32` operations on every sub-stack so far, so that no count has wrapped. -/
def Few (set : Params) (s : State) : Prop := ∀ j < set.width,
  Rank.count Item.idx j s.mem.nodes.hist.added +
    Rank.count Item.idx j s.mem.nodes.hist.removed < 2 ^ 32

/-- What `heights` says of the height `k` of an item and the number `b` of the older items in
another sub-stack. -/
def Near (depth k b : ℕ) : Prop := ∃ n, k ≤ depth * n ∧ depth * n ≤ b + 2 * depth

/-- The lists hold the items, the counts are the numbers of operations, and lie in the windows. -/
structure Counted (set : Params) (s : State) : Prop where
  window : WindowInv set s
  lists : Stacks set.width (fun j => (s.mem.array j).node) s.mem.nodes
  put_eq : ∀ j < set.width, s.putCount j = Rank.count Item.idx j s.mem.nodes.hist.added
  get_eq : ∀ j < set.width, s.getCount j = Rank.count Item.idx j s.mem.nodes.hist.removed

/-- The invariant between two calls. -/
structure Inv (set : Params) (s : State) : Prop extends Counted set s where
  heights : Rank.Suffixes Item.idx set.width (Near set.depth) s.mem.nodes.hist.present

theorem params_wf {width depth : ℕ} (hm : 0 < width % 2 ^ 32) (hw : width < 2 ^ 64)
    (hd : 1 ≤ depth) : (params width depth).WF where
  fits := ⟨hm, (by decide : 2 < 2 ^ 64), hw⟩
  depth_pos := hd

theorem node_update (a : ℕ → Descriptor) (j : ℕ) (d : Descriptor) :
    (fun i => (Function.update a j d i).node) =
      Function.update (fun i => (a i).node) j d.node := by
  funext i
  by_cases h : i = j
  · subst h
    simp
  · simp [h]

theorem put_update (a : ℕ → Descriptor) (j : ℕ) (d : Descriptor) (m : Mem) (i : ℕ) :
    Arrays.putCount Memory (Arrays.put (⟨Function.update a j d, m⟩ : Memory) i) =
      if i = j then d.putCount else (a i).putCount := by
  show (Function.update a j d i).putCount = _
  rw [Function.update_apply]
  split <;> rfl

theorem get_update (a : ℕ → Descriptor) (j : ℕ) (d : Descriptor) (m : Mem) (i : ℕ) :
    Arrays.getCount Memory (Arrays.get (⟨Function.update a j d, m⟩ : Memory) i) =
      if i = j then d.getCount else (a i).getCount := by
  show (Function.update a j d i).getCount = _
  rw [Function.update_apply]
  split <;> rfl

namespace Counted

/-- The size of a sub-stack is the difference of its counts. -/
theorem size_eq (h : Counted set s) {j : ℕ} (hj : j < set.width) :
    s.putCount j = Rank.count Item.idx j s.mem.nodes.hist.present + s.getCount j := by
  rw [h.put_eq j hj, h.get_eq j hj, ← Rank.count_append]
  exact h.lists.conserved.perm.countP_eq _

/-- Any height that a sub-stack can reach is near any size. -/
theorem near (h : Counted set s) {i j k : ℕ} (hi : i < set.width) (hj : j < set.width)
    (hk : k + s.getCount i ≤ s.globalPWindow) :
    Near set.depth k (Rank.count Item.idx j s.mem.nodes.hist.present) := by
  obtain ⟨p, hp⟩ := h.window.put_dvd
  obtain ⟨g, hg⟩ := h.window.get_dvd
  have h₁ := h.window.le_get i hi
  have h₂ := h.window.le_put j hj
  have h₃ := h.window.get_le j hj
  have h₄ := h.size_eq hj
  have h₅ : set.depth * (p + 1 - g) = set.depth * p + set.depth - set.depth * g := by
    rw [Nat.mul_sub, Nat.mul_add, Nat.mul_one]
  exact ⟨p + 1 - g, by omega, by omega⟩

end Counted

namespace Inv

theorem initial : Inv set initial where
  window :=
    { put_dvd := Nat.dvd_zero _
      get_dvd := Nat.dvd_zero _
      put_le := fun _ _ => le_rfl
      le_put := fun _ _ => Nat.zero_le _
      get_le := fun _ _ => le_rfl
      le_get := fun _ _ => Nat.zero_le _
      get_le_put := fun _ _ => le_rfl }
  lists := .init
  put_eq _ _ := rfl
  get_eq _ _ := rfl
  heights := True.intro

/-- The windows may move. -/
theorem moved (h : Inv set s) (hm : s'.mem = s.mem) (hw : WindowInv set s') : Inv set s' where
  window := hw
  lists := by
    rw [hm]
    exact h.lists
  put_eq j hj := by
    rw [Shared.putCount, hm]
    exact h.put_eq j hj
  get_eq j hj := by
    rw [Shared.getCount, hm]
    exact h.get_eq j hj
  heights := by
    rw [hm]
    exact h.heights

/-- A new node changes nothing but the memory. -/
theorem create (h : Inv set s) (val : ℤ) : Inv set (s.onNodes (·.create val)) where
  window := { h.window with }
  lists := h.lists.create val
  put_eq := h.put_eq
  get_eq := h.get_eq
  heights := h.heights

/-- The link of a node that was never pushed may change. -/
theorem setNext (h : Inv set s) {n : ℕ} (hn : ∀ x ∈ s.mem.nodes.hist.added, x.node ≠ n)
    (next : Option ℕ) : Inv set (s.onNodes (·.setNext n next)) where
  window := { h.window with }
  lists := h.lists.setNext hn next
  put_eq := h.put_eq
  get_eq := h.get_eq
  heights := h.heights

/-- A push below the maximum of the put window. -/
theorem push (h : Inv set s) {j n : ℕ} (hj : j < set.width) (hlt : s.putCount j < s.globalPWindow)
    (hn : ∀ x ∈ s.mem.nodes.hist.added, x.node ≠ n) (hfresh : n < s.mem.nodes.fresh)
    (hnext : (s.mem.nodes.heap n).next = (s.mem.array j).node) :
    Inv set { s with mem :=
      ⟨Function.update s.mem.array j ⟨some n, s.putCount j + 1, s.getCount j⟩,
        s.mem.nodes.push j n⟩ } where
  window := by
    refine h.window.put hlt ?_ (fun i hi => ?_) fun i => ?_
    · rw [put_update, if_pos rfl]
    · rw [put_update, if_neg hi]
      rfl
    · rw [get_update]
      by_cases hi : i = j
      · rw [if_pos hi, hi]
      · rw [if_neg hi]
        rfl
  lists := by
    rw [node_update]
    exact h.lists.push hj hn hfresh hnext
  put_eq i hi := by
    have h₁ := h.put_eq i hi
    show _ = Rank.count Item.idx i (⟨n, (s.mem.nodes.heap n).val, j⟩ :: s.mem.nodes.hist.added)
    rw [Rank.count_cons, Shared.putCount, put_update, ← h₁]
    by_cases hij : i = j
    · rw [if_pos hij, if_pos hij.symm, hij]
    · rw [if_neg hij, if_neg (Ne.symm hij)]
      rfl
  get_eq i hi := by
    have h₁ := h.get_eq i hi
    show _ = Rank.count Item.idx i s.mem.nodes.hist.removed
    rw [Shared.getCount, get_update, ← h₁]
    by_cases hij : i = j
    · rw [if_pos hij, hij]
    · rw [if_neg hij]
      rfl
  heights := by
    refine h.heights.cons fun i hi => ?_
    refine h.near hj hi ?_
    show Rank.count Item.idx j s.mem.nodes.hist.present + 1 + s.getCount j ≤ _
    have := h.size_eq hj
    omega

/-- The number of the items of a sub-stack, with the item `x` between `A` and `B`. -/
theorem count_present {A B : List Item} {x : Item} (hpres : s.mem.nodes.hist.present = A ++ x :: B)
    (i : ℕ) :
    Rank.count Item.idx i s.mem.nodes.hist.present =
      Rank.count Item.idx i A + Rank.count Item.idx i B + if x.idx = i then 1 else 0 := by
  rw [hpres, Rank.count_append, Rank.count_cons]
  omega

/-- What a pop keeps besides the heights. -/
theorem pop_counted (h : Inv set s) {A B : List Item} {x : Item}
    (hpres : s.mem.nodes.hist.present = A ++ x :: B) (hj : x.idx < set.width)
    (hlt : s.getCount x.idx < s.globalGWindow) (hst : Stacks set.width
      (Function.update (fun j => (s.mem.array j).node) x.idx (s.mem.nodes.heap x.node).next)
      (s.mem.nodes.pop x.node)) :
    Counted set { s with mem :=
      ⟨Function.update s.mem.array x.idx
        ⟨(s.mem.nodes.heap x.node).next, s.putCount x.idx, s.getCount x.idx + 1⟩,
        s.mem.nodes.pop x.node⟩ } := by
  have hrem : (s.mem.nodes.pop x.node).hist = _ := h.lists.conserved.remove_eq hpres
  have hsize := h.size_eq hj
  have hcx := count_present hpres x.idx
  rw [if_pos rfl] at hcx
  set mem : Memory := ⟨Function.update s.mem.array x.idx
    ⟨(s.mem.nodes.heap x.node).next, s.putCount x.idx, s.getCount x.idx + 1⟩,
    s.mem.nodes.pop x.node⟩
  have hput : ∀ i, Arrays.putCount Memory (Arrays.put mem i) = s.putCount i := by
    intro i
    rw [put_update]
    by_cases hi : i = x.idx
    · rw [if_pos hi, hi]
    · rw [if_neg hi]
      rfl
  have hget : ∀ i, Arrays.getCount Memory (Arrays.get mem i) =
      s.getCount i + if x.idx = i then 1 else 0 := by
    intro i
    rw [get_update]
    by_cases hi : i = x.idx
    · rw [if_pos hi, if_pos hi.symm, hi]
    · rw [if_neg hi, if_neg (Ne.symm hi)]
      rfl
  have hwin : WindowInv set { s with mem } := by
    refine h.window.get hlt (by omega) ?_ (fun i hi => ?_) hput
    · rw [hget, if_pos rfl]
    · rw [hget, if_neg (Ne.symm hi)]
      rfl
  refine ⟨hwin, ?_, fun i hi => ?_, fun i hi => ?_⟩
  · rw [node_update]
    exact hst
  · rw [Shared.putCount, hput, h.put_eq i hi]
    show _ = Rank.count Item.idx i (s.mem.nodes.pop x.node).hist.added
    rw [hrem]
  · rw [Shared.getCount, hget, h.get_eq i hi]
    show _ = Rank.count Item.idx i (s.mem.nodes.pop x.node).hist.removed
    rw [hrem, Rank.count_cons]

/-- In every other sub-stack at most `3 * depth` items are younger than the one on top. -/
theorem younger (h : Inv set s) {A B : List Item} {x : Item}
    (hpres : s.mem.nodes.hist.present = A ++ x :: B) (hA : Rank.count Item.idx x.idx A = 0)
    (hj : x.idx < set.width) (hlt : s.getCount x.idx < s.globalGWindow) :
    A.length ≤ 3 * set.depth * (set.width - 1) := by
  have hsize := h.size_eq hj
  have hcx := count_present hpres x.idx
  rw [if_pos rfl] at hcx
  refine Rank.length_le_mul (f := Item.idx) (fun y hy => ?_) hj hA fun i hi hij => ?_
  · exact h.lists.idx_lt y (hpres ▸ List.mem_append_left _ hy)
  · obtain ⟨n, hn₁, hn₂⟩ := (hpres ▸ h.heights).split i hi
    have h₁ := count_present hpres i
    rw [if_neg (Ne.symm hij)] at h₁
    have h₂ := h.size_eq hi
    have h₃ := h.window.put_le i hi
    have h₄ := h.window.le_get i hi
    have h₅ := h.window.le_put _ hj
    -- the multiple of `depth` above the height of `x` is at least `P - G`
    have hmul : s.globalPWindow ≤ set.depth * n + s.globalGWindow := by
      obtain ⟨p, hp⟩ := h.window.put_dvd
      obtain ⟨g, hg⟩ := h.window.get_dvd
      have hlt' : set.depth * p < set.depth * (n + g + 1) := by
        have : set.depth * (n + g + 1) = set.depth * n + set.depth * g + set.depth := by ring
        omega
      have hle : p ≤ n + g := Nat.lt_succ_iff.1 (lt_of_mul_lt_mul_left hlt' (Nat.zero_le _))
      calc s.globalPWindow = set.depth * p := hp
        _ ≤ set.depth * (n + g) := Nat.mul_le_mul_left _ hle
        _ = set.depth * n + s.globalGWindow := by rw [hg, Nat.mul_add]
    omega

/-- A pop below the maximum of the get window takes an item with few younger ones. -/
theorem pop (h : Inv set s) {j n : ℕ} (hj : j < set.width) (hlt : s.getCount j < s.globalGWindow)
    (htop : (s.mem.array j).node = some n) :
    ∃ A x B, s.mem.nodes.hist.present = A ++ x :: B ∧ x.node = n ∧
      (s.mem.nodes.heap n).val = x.val ∧ A.length ≤ 3 * set.depth * (set.width - 1) ∧
      Inv set { s with mem :=
        ⟨Function.update s.mem.array j
          ⟨(s.mem.nodes.heap n).next, s.putCount j, s.getCount j + 1⟩, s.mem.nodes.pop n⟩ } := by
  obtain ⟨A, x, B, hpres, rfl, rfl, hv, hA, hst⟩ := h.lists.pop hj htop
  have hcounted := h.pop_counted hpres hj hlt hst
  have hpresent : (s.mem.nodes.pop x.node).hist.present = A ++ B :=
    congrArg History.present (h.lists.conserved.remove_eq hpres)
  refine ⟨A, x, B, hpres, rfl, hv, h.younger hpres hA hj hlt, hcounted, ?_⟩
  show Rank.Suffixes Item.idx set.width (Near set.depth) (s.mem.nodes.pop x.node).hist.present
  rw [hpresent]
  refine (hpres ▸ h.heights).remove hA fun i i' k hi' hk => ?_
  rw [← hpresent] at hk ⊢
  by_cases hi : i < set.width
  · refine hcounted.near hi hi' ?_
    have hsize := hcounted.size_eq hi
    have hput := hcounted.window.put_le i hi
    exact (Nat.add_le_add_right hk _).trans (hsize.symm.trans_le hput)
  · have hzero : Rank.count Item.idx i (s.mem.nodes.pop x.node).hist.present = 0 :=
      Rank.count_eq_zero.2 fun y hy he => hi (he ▸ hcounted.lists.idx_lt y hy)
    exact ⟨0, by omega, Nat.zero_le _⟩

end Inv

/-- What each call answers: it behaves as a stack that may pop any item with at most
`3 * depth * (width - 1)` younger ones, and `pop` answers 0 exactly if all sub-stacks are empty. -/
def Answers (set : Params) : Call → State → Option ℤ → State → Prop
  | .push v, s, r, s' => r = some 1 ∧ ∃ n j, j < set.width ∧
      (∀ x ∈ s.mem.nodes.hist.added, x.node ≠ n) ∧
      s'.mem.nodes.hist = s.mem.nodes.hist.addFront ⟨n, v, j⟩
  | .pop, s, r, s' =>
      (∃ x, s.mem.nodes.hist.Removes (fun _ => 3 * set.depth * (set.width - 1)) x
        s'.mem.nodes.hist ∧ r = x.map Item.val) ∧
      (r = none ↔ ∀ j < set.width, (s.mem.array j).node = none)

/-- What a call leaves behind: a valid index, and everything else unless the counts wrapped. -/
structure Done (set : Params) (c : Call) (s : State) (r : Local × Option ℤ) (s' : State) :
    Prop where
  index_lt : r.1.index < set.width
  inv : Few set s' → Inv set s'
  answers : Few set s' → Answers set c s r.2 s'

/-- An exchange of the descriptor that was read succeeds. -/
theorem doCae_spec {β : Type} {Q : β → State → Prop} {idx : ℕ} {old new : Descriptor}
    {push : Bool} {k : Bool → Prog State β} (he : s.mem.array idx = old)
    (h : Total (.trivial _) Q (k true) { s with mem :=
      ⟨Function.update s.mem.array idx new, record idx old new push s.mem.nodes⟩ }) :
    Total (.trivial _) Q (doCae idx old new push >>= k) s := by
  simp only [doCae, Prog.bind_assoc]
  exact Total.cae_of_eq he fun _ => ⟨True.intro, h⟩

theorem push_spec (hp : set.WF) {tl : Local} (hi : Inv set s) (hl : tl.index < set.width) (v : ℤ) :
    Total (.trivial _) (Done set (.push v) s) ((object set).code (.push v) tl) s := by
  show Total _ _ (push set v tl >>= _) s
  simp only [push, createNode, Prog.bind_assoc, Total.update_iff]
  refine fun _ => ⟨True.intro, ?_⟩
  set n := s.mem.nodes.fresh
  have hn : ∀ x ∈ s.mem.nodes.hist.added, x.node ≠ n := fun x hx => (hi.lists.fresh x hx).ne
  have hi₁ := hi.create v
  refine Total.bind_of (P := fun r s' => Done set (.push v) s (r.1, some r.2) s')
    (Total.forever_once ?_) fun r s' h => .ret h
  refine Total.bind_of (putWindow_spec hp hi₁.window hl) ?_
  rintro ⟨d, tl'⟩ s₂ ⟨hm, -, hw, -, hidx, hd, hlt⟩
  obtain rfl : d = s₂.mem.array tl'.index := hd
  replace hidx : tl'.index < set.width := hidx
  have hnodes : s₂.mem.nodes = s.mem.nodes.create v := by rw [hm]; rfl
  have hadd : s₂.mem.nodes.hist = s.mem.nodes.hist := by rw [hnodes]; rfl
  simp only [setNext, Total.update_iff]
  refine fun _ => ⟨True.intro, ?_⟩
  have hi₃ := (hi₁.moved hm hw).setNext (n := n) (by rwa [hadd]) (s₂.mem.array tl'.index).node
  refine doCae_spec rfl ?_
  have hval : ((s₂.mem.nodes.setNext n (s₂.mem.array tl'.index).node).heap n).val = v := by
    simp [Mem.setNext, hnodes, Mem.create, n]
  have hfin := hi₃.push (n := n) hidx hlt (by show ∀ x ∈ s₂.mem.nodes.hist.added, _; rwa [hadd])
    (by show n < s₂.mem.nodes.fresh; rw [hnodes]; exact Nat.lt_succ_self _)
    (by simp [State.onNodes, Mem.setNext])
  -- the count does not wrap, as the push still belongs to the first `2 ^ 32` operations
  have hwrap : ∀ s', s'.mem.nodes.hist.added = ⟨n, v, tl'.index⟩ :: s.mem.nodes.hist.added →
      Few set s' → ((s₂.mem.array tl'.index).putCount + 1) % 2 ^ 32 =
        (s₂.mem.array tl'.index).putCount + 1 := by
    intro s' hs' hfew
    have h₁ := hfew _ hidx
    have h₂ : (s₂.mem.array tl'.index).putCount = _ := hi₃.put_eq _ hidx
    rw [hs', Rank.count_cons, if_pos rfl] at h₁
    refine Nat.mod_eq_of_lt ?_
    rw [h₂]
    show Rank.count Item.idx tl'.index s₂.mem.nodes.hist.added + 1 < _
    rw [hadd]
    omega
  have hhist : s₂.mem.nodes.hist.addFront
      ⟨n, ((s₂.mem.nodes.setNext n (s₂.mem.array tl'.index).node).heap n).val, tl'.index⟩ =
        s.mem.nodes.hist.addFront ⟨n, v, tl'.index⟩ := by
    rw [hval, hadd]
  refine .ret ⟨_, rfl, hidx, fun hfew => ?_, fun _ => ⟨rfl, n, tl'.index, hidx, hn, hhist⟩⟩
  have hw' := hwrap _ (congrArg History.added hhist :) hfew
  rw [hw']
  exact hfin

theorem pop_spec (hp : set.WF) {tl : Local} (hi : Inv set s) (hl : tl.index < set.width) :
    Total (.trivial _) (Done set .pop s) ((object set).code .pop tl) s := by
  refine Total.forever_once ?_
  refine Total.bind_of (getWindow_spec hp hi.window hl) ?_
  rintro ⟨d, tl'⟩ s₂ ⟨hm, -, hw, -, hidx, hd, hans⟩
  obtain rfl : d = s₂.mem.array tl'.index := hd
  replace hidx : tl'.index < set.width := hidx
  have hi₂ := hi.moved hm hw
  have hempty : (∀ j < set.width, (s.mem.array j).node = none) ↔ s.mem.nodes.hist.present = [] :=
    hi.lists.present_eq_nil_iff.symm
  cases htop : (s₂.mem.array tl'.index).node with
  | none =>
    simp only [htop]
    have hzero := (hi₂.lists.top_eq_none_iff hidx).1 htop
    have hall : ∀ j < set.width, s₂.putCount j = s₂.getCount j := by
      rcases hans with ⟨-, hlt⟩ | hall
      · have h₁ := hi₂.size_eq hidx
        rw [hzero, Nat.zero_add] at h₁
        exact absurd hlt h₁.not_gt
      · exact hall
    have hnil : ∀ j < set.width, (s.mem.array j).node = none := by
      intro j hj
      have h₁ := hi₂.size_eq hj
      have h₂ := hall j hj
      rw [← hm]
      exact (hi₂.lists.top_eq_none_iff hj).2 (by omega)
    refine .ret ⟨_, rfl, hidx, fun _ => hi₂, fun _ => ⟨⟨none, ?_, rfl⟩, fun _ => hnil,
      fun _ => rfl⟩⟩
    rw [hm]
    exact .empty (hempty.1 hnil)
  | some n =>
    simp only [htop, Total.read_iff]
    refine doCae_spec rfl ?_
    have hpos : Rank.count Item.idx tl'.index s₂.mem.nodes.hist.present ≠ 0 := by
      intro h₀
      rw [(hi₂.lists.top_eq_none_iff hidx).2 h₀] at htop
      cases htop
    have hlt : s₂.getCount tl'.index < s₂.globalGWindow := by
      rcases hans with ⟨hlt, -⟩ | hall
      · exact hlt
      · have h₁ := hi₂.size_eq hidx
        have h₂ := hall _ hidx
        omega
    obtain ⟨A, x, B, hpres, hx, hv, hk, hfin⟩ := hi₂.pop hidx hlt htop
    have hne : ¬ ∀ j < set.width, (s.mem.array j).node = none := by
      rw [hempty, ← hm, hpres]
      exact List.append_ne_nil_of_right_ne_nil _ (List.cons_ne_nil _ _)
    have hrem : s₂.mem.nodes.hist.Removes (fun _ => 3 * set.depth * (set.width - 1)) (some x)
        (s₂.mem.nodes.pop n).hist := hx ▸ .item hpres hk
    simp only [if_true, Total.read_iff]
    refine .ret ⟨_, rfl, hidx, fun hfew => ?_,
      fun _ => ⟨⟨some x, ?_, ?_⟩, (by intros; contradiction),
      fun h => absurd h hne⟩⟩
    · rw [record_pop htop] at hfew ⊢
      have h₁ := hfew _ hidx
      have h₂ := hfin.get_eq _ hidx
      rw [Shared.getCount, get_update, if_pos rfl] at h₂
      rw [Nat.mod_eq_of_lt]
      · exact hfin
      · refine lt_of_le_of_lt (Nat.le_add_left _ _) (h₂ ▸ h₁)
    · rw [record_pop htop, ← hm]
      exact hrem
    · rw [record_pop htop]
      exact congrArg some hv

/-- What holds between any two calls. -/
structure Correct (set : Params) (s : State) (ls : ℕ → Local) : Prop where
  conserved : s.mem.nodes.hist.Conserved
  answers : (object set).Meets (fun c s r s' => Few set s' → Answers set c s r s') s ls

/-- Sequential specification of the 2Dd stack: for threads that call one at a time with whatever
windows and index their earlier calls left them, in a run with fewer than `2 ^ 32` operations on
every sub-stack, no item is lost or popped twice, and every call returns with an answer of the
relaxed stack. `random_index` takes the width as a `uint32_t` and divides by it. -/
theorem decoupledStack_sequential {width depth : ℕ} (hm : 0 < width % 2 ^ 32) (hw : width < 2 ^ 64)
    (hd : 1 ≤ depth) {s : State} {ls : ℕ → Local}
    (h : SeqReach (object (params width depth)) (fun _ s => Few (params width depth) s)
      (fun _ _ => True) initial .zero s ls) (hfew : Few (params width depth) s) :
    Correct (params width depth) s ls := by
  have hp := params_wf hm hw hd
  have hcode : ∀ c l s, Inv (params width depth) s → l.index < width → Total (.trivial _)
      (Done (params width depth) c s) ((object (params width depth)).code c l) s := by
    intro c l s hi hl
    cases c with
    | push v => exact push_spec hp hi hl v
    | pop => exact pop_spec hp hi hl
  obtain ⟨hi, hl⟩ := SeqReach.invariant (C := .trivial _)
    (fun s => Few (params width depth) s → Inv (params width depth) s)
    (fun l _ => l.index < width) (fun _ => Inv.initial) hp.fits.width_pos
    (fun c l s hok hi hl => (hcode c l s (hi hok) hl).mono
      fun _ _ h => ⟨h.inv, h.index_lt, fun _ h => h⟩) h
  exact ⟨(hi hfew).lists.conserved,
    Object.meets fun t c => (hcode c _ s (hi hfew) (hl t)).mono fun _ _ h => h.answers⟩

instance (set : Params) (s : State) : Decidable (Few set s) :=
  inferInstanceAs (Decidable (∀ j < set.width, _))

/-- Two threads push five items on two sub-stacks of depth 1 and pop two of them, with shifts of the
put window. -/
theorem decoupledStack_sequential_run : ∃ s ls,
    (s.mem.nodes.hist.present.map fun x => (x.val, x.idx)) = [(9, 0), (8, 1), (5, 0)] ∧
      (s.mem.nodes.hist.removed.map fun x => (x.val, x.idx)) = [(7, 0), (6, 1)] ∧
      s.globalPWindow = 3 ∧ Correct (params 2 1) s ls := by
  obtain ⟨s, ls, hr, hc⟩ := SeqReach.of_check (object (params 2 1)) (fun _ s => Few (params 2 1) s)
    initial .zero 60
    [(0, .push 5, fun _ => 0), (1, .push 6, fun _ => 1), (0, .push 7, fun _ => 0),
      (1, .pop, fun _ => 1), (1, .push 8, fun _ => 0), (0, .pop, fun _ => 1),
      (1, .push 9, fun _ => 0)]
    (fun s => decide (Few (params 2 1) s)) (fun s => decide
      ((s.mem.nodes.hist.present.map fun x => (x.val, x.idx)) = [(9, 0), (8, 1), (5, 0)] ∧
      (s.mem.nodes.hist.removed.map fun x => (x.val, x.idx)) = [(7, 0), (6, 1)] ∧
      s.globalPWindow = 3 ∧ Few (params 2 1) s))
    (by decide +kernel) (by decide +kernel) fun _ _ _ hs => of_decide_eq_true hs
  obtain ⟨hpresent, hremoved, hput, hfew⟩ := of_decide_eq_true hc
  exact ⟨s, ls, hpresent, hremoved, hput,
    decoupledStack_sequential (by decide) (by decide) (by decide) hr hfew⟩

end Stack

end TwoDd
