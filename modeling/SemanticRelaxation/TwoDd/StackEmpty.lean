import SemanticRelaxation.TwoDd.StackSeq
import SemanticRelaxation.TwoDd.EmptySearch

/-!
# Pops of the 2Dd stack that find nothing

The 2Dd stack with many threads, where a `pop` that answers 0 says by which `return` statement
`get_window` handed out the descriptor. As long as no count has wrapped, the counts of a sub-stack
are the numbers of its pushes and pops, so a put count that is equal to a get count read before
shows that it is empty.
-/

namespace TwoDd

namespace Stack

namespace Interleaved

open AtomicProg Treiber TwoD TwoDd.Interleaved

/-- What the calls answer. -/
inductive Answer
  | pushed (res : ℤ)
  | value (val : ℤ)
  | empty (exit : Exit)

/-- `pop`. -/
def popExit (set : Params) (tl : Local) : Prog State (Local × Answer) :=
  Prog.forever (fun (contention, tl) => do
    let (exit, descriptor, tl) ← getWindowExit set contention tl
    match descriptor.node with
    | some node =>
      let next ← Prog.read fun s : State => (s.mem.nodes.heap node).next
      let newDescriptor : Descriptor :=
        ⟨next, descriptor.putCount, (descriptor.getCount + 1) % 2 ^ 32⟩
      let done ← doCae tl.index descriptor newDescriptor false
      if done then
        let nodeVal ← Prog.read fun s : State => (s.mem.nodes.heap node).val
        return .inr (tl, .value nodeVal)
      else
        return .inl (true, tl)
    | none => return .inr (tl, .empty exit)) (false, tl)

/-- The stack as a shared object. -/
def exitObject (set : Params) : Object State Local where
  Call := Call
  Ret := Answer
  code
    | .push v, tl => do
      let (tl, res) ← push set v tl
      return (tl, .pushed res)
    | .pop, tl => popExit set tl

/-- The number of pushes on sub-stack `j`, and of the pops. -/
def pushes (j : ℕ) (s : State) : ℕ := Rank.count Item.idx j s.mem.nodes.hist.added

def pops (j : ℕ) (s : State) : ℕ := Rank.count Item.idx j s.mem.nodes.hist.removed

/-- No count has wrapped. -/
def FewPushes (width : ℕ) (s : State) : Prop := ∀ j < width, pushes j s < 2 ^ 32

/-- Sub-stack `j` is empty. -/
def Clear (j : ℕ) (s : State) : Prop := (s.mem.array j).node = none

/-- The lists hold the items, and the counts are the numbers of operations. -/
structure Inv (width : ℕ) (s : State) : Prop where
  lists : Stacks width (fun j => (s.mem.array j).node) s.mem.nodes
  put_eq : ∀ j < width, (s.mem.array j).putCount = pushes j s
  get_eq : ∀ j < width, (s.mem.array j).getCount = pops j s

/-- The node `n` has been pushed. -/
def Pushed (n : ℕ) (s : State) : Prop := ∃ x ∈ s.mem.nodes.hist.added, x.node = n

/-- What the steps of the others keep for the owner `o`; the ghost state names the call that has
allocated a node. -/
structure Kept (o : Owner) (x x' : State × (ℕ → ℕ)) : Prop where
  pushed : ∀ n, Pushed n x.1 → Pushed n x'.1
  cells : ∀ n, Pushed n x.1 → x'.1.mem.nodes.heap n = x.1.mem.nodes.heap n
  popped : ∀ j, pops j x.1 ≤ pops j x'.1
  fresh : x.1.mem.nodes.fresh ≤ x'.1.mem.nodes.fresh
  owner : ∀ n < x.1.mem.nodes.fresh, x'.2 n = x.2 n
  unlinked : ∀ n < x.1.mem.nodes.fresh, o = .op (x.2 n) → ¬ Pushed n x.1 →
    ¬ Pushed n x'.1 ∧ x'.1.mem.nodes.heap n = x.1.mem.nodes.heap n

theorem Kept.of_nodes {o : Owner} {s s' : State} {g : ℕ → ℕ} (h : s'.mem.nodes = s.mem.nodes) :
    Kept o (s, g) (s', g) := by
  have hp : ∀ n, Pushed n s' ↔ Pushed n s := fun n => by rw [Pushed, h, ← Pushed]
  refine ⟨fun n => (hp n).2, fun n _ => ?_, fun j => ?_, ?_, fun _ _ => rfl, fun n _ _ hn => ?_⟩
  · exact congrFun (congrArg _ h) n
  · exact (congrArg (fun m => Rank.count Item.idx j m.hist.removed) h).ge
  · exact (congrArg Mem.fresh h).ge
  · exact ⟨fun h' => hn ((hp n).1 h'), congrFun (congrArg _ h) n⟩

theorem Kept.trans {o : Owner} {x₁ x₂ x₃ : State × (ℕ → ℕ)} (h₁ : Kept o x₁ x₂)
    (h₂ : Kept o x₂ x₃) :
    Kept o x₁ x₃ where
  pushed n h := h₂.pushed n (h₁.pushed n h)
  cells n h := (h₂.cells n (h₁.pushed n h)).trans (h₁.cells n h)
  popped j := (h₁.popped j).trans (h₂.popped j)
  fresh := h₁.fresh.trans h₂.fresh
  owner n hn := (h₂.owner n (hn.trans_le h₁.fresh)).trans (h₁.owner n hn)
  unlinked n hn ho h := by
    obtain ⟨hp, hc⟩ := h₁.unlinked n hn ho h
    obtain ⟨hp', hc'⟩ := h₂.unlinked n (hn.trans_le h₁.fresh) (by rw [h₁.owner n hn, ho]) hp
    exact ⟨hp', hc'.trans hc⟩

/-- The rules that all threads keep to. -/
def regime (C : Type) (width : ℕ) : Regime C State (ℕ → ℕ) where
  inv _ x := Inv width x.1
  frame := Kept
  fresh _ _ := True
  assume _ s' := FewPushes width s'
  refl _ _ := .of_nodes rfl
  trans _ _ _ _ h₁ h₂ := h₁.trans h₂
  inv_call _ _ _ h := h
  fresh_later _ _ _ _ _ := True.intro

theorem indifferent (C : Type) (width : ℕ) : Indifferent (regime C width) where
  inv calls x s hm h := by
    have h : Inv width x.1 := h
    refine ⟨?_, fun j hj => ?_, fun j hj => ?_⟩
    · rw [hm]
      exact h.lists
    · rw [pushes, hm]
      exact h.put_eq j hj
    · rw [pops, hm]
      exact h.get_eq j hj
  frame _ _ _ hm := .of_nodes (congrArg Memory.nodes hm)

namespace Inv

variable {width : ℕ} {s : State} {j n : ℕ} (h : Inv width s)
include h

/-- The size of a sub-stack is the difference of its counts. -/
theorem size_eq (j : ℕ) :
    pushes j s = Rank.count Item.idx j s.mem.nodes.hist.present + pops j s := by
  unfold pushes pops
  rw [← Rank.count_append]
  exact h.lists.conserved.perm.countP_eq _

theorem clear_iff (hj : j < width) : Clear j s ↔ pushes j s = pops j s := by
  have htop := h.lists.top_eq_none_iff hj
  have hsize := h.size_eq j
  constructor
  · intro hc
    have := htop.1 hc
    omega
  · intro he
    exact htop.2 (by omega)

/-- The top of a sub-stack has been pushed. -/
theorem pushed_top (hj : j < width) (ht : (s.mem.array j).node = some n) : Pushed n s := by
  obtain ⟨A, x, B, hp, rfl, -⟩ := h.lists.pop hj ht
  exact ⟨x, h.lists.conserved.mem_added (hp ▸ by simp), rfl⟩

end Inv

/-- The exchanges of `push` and `pop` on sub-stack `j`. -/
def pushOn (s : State) (j n : ℕ) : State :=
  { s with mem :=
    ⟨Function.update s.mem.array j ⟨some n, ((s.mem.array j).putCount + 1) % 2 ^ 32,
      (s.mem.array j).getCount⟩, s.mem.nodes.push j n⟩ }

def popFrom (s : State) (j n : ℕ) : State :=
  { s with mem :=
    ⟨Function.update s.mem.array j ⟨(s.mem.nodes.heap n).next, (s.mem.array j).putCount,
      ((s.mem.array j).getCount + 1) % 2 ^ 32⟩, s.mem.nodes.pop n⟩ }

section Steps

variable {width : ℕ} {s : State} {j n i : ℕ}

theorem pushes_pushOn : pushes i (pushOn s j n) = pushes i s + if j = i then 1 else 0 :=
  Rank.count_cons i _ _

/-- An item is pushed. -/
theorem Inv.push (h : Inv width s) (hj : j < width) (hn : ¬ Pushed n s)
    (hlt : n < s.mem.nodes.fresh) (hnext : (s.mem.nodes.heap n).next = (s.mem.array j).node)
    (hfew : FewPushes width (pushOn s j n)) : Inv width (pushOn s j n) := by
  refine ⟨?_, fun i hi => ?_, fun i hi => ?_⟩
  · show Stacks width (fun i => (Function.update s.mem.array j _ i).node) (s.mem.nodes.push j n)
    rw [node_update]
    exact h.lists.push hj (fun x hx he => hn ⟨x, hx, he⟩) hlt hnext
  · have hsucc := hfew i hi
    rw [pushes_pushOn] at hsucc ⊢
    show (Function.update s.mem.array j _ i).putCount = _
    by_cases hij : i = j
    · subst hij
      rw [if_pos rfl] at hsucc ⊢
      rw [Function.update_self, h.put_eq i hi, Nat.mod_eq_of_lt hsucc]
    · rw [Function.update_of_ne hij, if_neg (Ne.symm hij)]
      exact h.put_eq i hi
  · show (Function.update s.mem.array j _ i).getCount = pops i s
    by_cases hij : i = j
    · subst hij
      rw [Function.update_self]
      exact h.get_eq i hi
    · rw [Function.update_of_ne hij]
      exact h.get_eq i hi

theorem Kept.push {o : Owner} {g : ℕ → ℕ} {op : ℕ} (hown : g n = op) (ho : o ≠ .op op) :
    Kept o (s, g) (pushOn s j n, g) := by
  have hold : ∀ k, Pushed k s → Pushed k (pushOn s j n) := by
    rintro k ⟨x, hx, he⟩
    exact ⟨x, List.mem_cons_of_mem _ hx, he⟩
  refine ⟨hold, fun _ _ => rfl, fun _ => le_rfl, le_rfl, fun _ _ => rfl, fun k _ hk hp => ⟨?_, rfl⟩⟩
  rintro ⟨x, hx, rfl⟩
  rcases List.mem_cons.1 hx with rfl | hx
  · exact ho (hk.trans (congrArg _ hown))
  · exact hp ⟨x, hx, rfl⟩

/-- The top of a sub-stack is popped. -/
theorem Inv.pop (h : Inv width s) (hj : j < width) (hn : (s.mem.array j).node = some n)
    (hfew : FewPushes width s) :
    Inv width (popFrom s j n) ∧ ∀ i, pops i (popFrom s j n) = pops i s + if j = i then 1
      else 0 := by
  obtain ⟨A, x, B, hp, rfl, rfl, -, -, hstacks⟩ := h.lists.pop hj hn
  have hrem : (s.mem.nodes.hist.remove x.node) = _ := h.lists.conserved.remove_eq hp
  have hadded : (s.mem.nodes.hist.remove x.node).added = s.mem.nodes.hist.added := by
    rw [hrem]
  have hpops : ∀ i, pops i (popFrom s x.idx x.node) = pops i s + if x.idx = i then 1 else 0 := by
    intro i
    show Rank.count Item.idx i (s.mem.nodes.hist.remove x.node).removed = _
    rw [congrArg History.removed hrem]
    exact Rank.count_cons i _ _
  have hinv : ∀ i < width, (Function.update s.mem.array x.idx
      ⟨(s.mem.nodes.heap x.node).next, (s.mem.array x.idx).putCount,
        ((s.mem.array x.idx).getCount + 1) % 2 ^ 32⟩ i).getCount =
      pops i s + if x.idx = i then 1 else 0 := by
    intro i hi
    by_cases hij : i = x.idx
    · subst hij
      have hpos : 0 < Rank.count Item.idx x.idx s.mem.nodes.hist.present := by
        rw [hp, Rank.count_append, Rank.count_cons_self]
        omega
      have hsize := h.size_eq x.idx
      have hlt := hfew x.idx hj
      rw [Function.update_self, if_pos rfl, h.get_eq _ hj, Nat.mod_eq_of_lt (by omega)]
    · rw [Function.update_of_ne hij, if_neg (Ne.symm hij)]
      exact h.get_eq i hi
  refine ⟨⟨?_, fun i hi => ?_, fun i hi => (hinv i hi).trans (hpops i).symm⟩, hpops⟩
  · show Stacks width (fun i => (Function.update s.mem.array x.idx _ i).node)
      (s.mem.nodes.pop x.node)
    rw [node_update]
    exact hstacks
  · show (Function.update s.mem.array x.idx _ i).putCount =
      Rank.count Item.idx i (s.mem.nodes.hist.remove x.node).added
    rw [hadded]
    by_cases hij : i = x.idx
    · subst hij
      rw [Function.update_self]
      exact h.put_eq _ hi
    · rw [Function.update_of_ne hij]
      exact h.put_eq i hi

theorem Kept.pop {o : Owner} {g : ℕ → ℕ} (hpops : ∀ i, pops i s ≤ pops i (popFrom s j n)) :
    Kept o (s, g) (popFrom s j n, g) :=
  ⟨fun _ h => h, fun _ _ => rfl, hpops, le_rfl, fun _ _ => rfl, fun _ _ _ h => ⟨h, rfl⟩⟩

end Steps

section Specs

variable {set : Params} {E : Results (exitObject set).service (regime Call set.width)} {c : Caller}
  {v v₁ : View E.protocol c} {j n : ℕ} {d : Descriptor}

theorem inv_of (v : View E.protocol c) : Inv set.width v.state := v.inv_pair

theorem shows : Shows set c E Clear := by
  intro j hj v₁ v₂ v₃ _ h₂ he
  have he : (v₃.state.mem.array j).putCount = (v₂.state.mem.array j).getCount := he
  rw [(inv_of v₃).put_eq j hj, (inv_of v₂).get_eq j hj] at he
  have hk : Kept _ v₂.pair v₃.pair := v₂.frame_op h₂
  have hpops : pops j v₂.state ≤ pops j v₃.state := hk.popped j
  have hsize := (inv_of v₃).size_eq j
  exact ((inv_of v₃).clear_iff hj).2 (by omega)

/-- The node `n` of the running call has not been pushed. -/
structure Mine (op n : ℕ) (x : State × (ℕ → ℕ)) : Prop where
  owner : x.2 n = op
  lt_fresh : n < x.1.mem.nodes.fresh
  unlinked : ¬ Pushed n x.1

theorem Mine.since (hn : Mine c.op n v.pair) (h : Since v v₁) :
    Mine c.op n v₁.pair ∧ v₁.state.mem.nodes.heap n = v.state.mem.nodes.heap n := by
  have hk : Kept _ v.pair v₁.pair := h.frame
  obtain ⟨hp, hc⟩ := hk.unlinked n hn.lt_fresh (congrArg _ hn.owner.symm) hn.unlinked
  exact ⟨⟨(hk.owner n hn.lt_fresh).trans hn.owner, hn.lt_fresh.trans_le hk.fresh, hp⟩, hc⟩

/-- A node is allocated. -/
theorem createNode_spec (val : ℤ) :
    wp E.protocol c (createNode val) (fun n v' => Mine c.op n v'.pair) v := by
  intro v₁ h₁ _ _
  have hi := inv_of v₁
  have hlt : ∀ n, Pushed n v₁.state → n < v₁.state.mem.nodes.fresh := by
    rintro n ⟨x, hx, rfl⟩
    exact hi.lists.fresh x hx
  have hall := Regime.allows v₁ (s := v₁.state.onNodes (·.create val))
    (g := Function.update v₁.now.2 v₁.state.mem.nodes.fresh c.op)
    ⟨hi.lists.create val, hi.put_eq, hi.get_eq⟩ fun o _ => ?_
  · exact ⟨_, hall, Function.update_self .., Nat.lt_succ_self _, fun hp => (hlt _ hp).ne rfl⟩
  · refine ⟨fun n h => h, fun n h => ?_, fun j => le_rfl, Nat.le_succ _, fun n hn => ?_,
      fun n hn _ h => ⟨h, ?_⟩⟩
    · exact Function.update_of_ne (hlt n h).ne _ _
    · exact Function.update_of_ne hn.ne _ _
    · exact Function.update_of_ne hn.ne _ _

/-- The link of the own node is stored. -/
theorem setNext_spec (hn : Mine c.op n v.pair) (next : Option ℕ) :
    wp E.protocol c (setNext n next) (fun _ v' => Mine c.op n v'.pair ∧
      (v'.state.mem.nodes.heap n).next = next) v := by
  intro v₁ h₁ _ _
  have hi := inv_of v₁
  have hn₁ := (hn.since (.of_le h₁)).1
  have hne : ∀ k, Pushed k v₁.state → k ≠ n := by
    rintro k hk rfl
    exact hn₁.unlinked hk
  have hall := Regime.allows v₁ (s := v₁.state.onNodes (·.setNext n next)) (g := v₁.now.2)
    ⟨hi.lists.setNext (fun x hx he => hn₁.unlinked ⟨x, hx, he⟩) next, hi.put_eq, hi.get_eq⟩
    fun o ho => ?_
  · refine ⟨_, hall, ⟨hn₁.owner, hn₁.lt_fresh, hn₁.unlinked⟩, ?_⟩
    show (Function.update v₁.state.mem.nodes.heap n _ n).next = next
    rw [Function.update_self]
  · refine ⟨fun k h => h, fun k h => Function.update_of_ne (hne k h) _ _, fun j => le_rfl, le_rfl,
      fun _ _ => rfl, fun k hk hown h => ⟨h, Function.update_of_ne (fun e => ho ?_) _ _⟩⟩
    -- the node belongs to the running call
    subst e
    rw [hown]
    exact hn₁.owner

/-- The exchange of `push`. -/
theorem pushCae_spec (hj : j < set.width) (hn : Mine c.op n v.pair)
    (hnext : (v.state.mem.nodes.heap n).next = d.node) :
    wp E.protocol c (doCae j d ⟨some n, (d.putCount + 1) % 2 ^ 32, d.getCount⟩ true)
      (fun done v' => done = true ∨ Mine c.op n v'.pair) v := by
  refine wp.cae (fun v₁ h₁ he ha => ?_) fun v₁ h₁ _ => .inr (hn.since (.of_le h₁)).1
  obtain rfl : v₁.state.mem.array j = d := he
  obtain ⟨hn₁, hcell⟩ := hn.since (.of_le h₁)
  have hinv := (inv_of v₁).push hj hn₁.unlinked hn₁.lt_fresh (by rw [hcell, hnext]) ha
  have hall := Regime.allows v₁ (s := pushOn v₁.state j n) (g := v₁.now.2) hinv fun o ho => ?_
  · exact ⟨v₁.now.2, hall, .inl rfl⟩
  · refine Kept.push hn₁.owner fun e => ho ?_
    rw [e]
    rfl

/-- The exchange of `pop`. -/
theorem popCae_spec (hj : j < set.width) (hd : d.node = some n) (hn : Pushed n v.state) :
    wp E.protocol c (doCae j d ⟨(v.state.mem.nodes.heap n).next, d.putCount,
      (d.getCount + 1) % 2 ^ 32⟩ false) (fun _ _ => True) v := by
  refine wp.cae (fun v₁ h₁ he ha => ?_) fun v₁ h₁ _ => True.intro
  obtain rfl : v₁.state.mem.array j = d := he
  have hk : Kept _ v.pair v₁.pair := v.frame_op h₁
  have hcell : (v.state.mem.nodes.heap n).next = (v₁.state.mem.nodes.heap n).next :=
    (congrArg Node.next (hk.cells n hn)).symm
  rw [hcell, record_pop hd] at ha
  rw [hcell, record_pop hd]
  obtain ⟨A, x, B, hp, hx, -⟩ := (inv_of v₁).lists.pop hj hd
  have hfew : FewPushes set.width v₁.state := by
    intro i hi
    have hlt : Rank.count Item.idx i (v₁.state.mem.nodes.hist.remove n).added < 2 ^ 32 := ha i hi
    obtain rfl : x.node = n := hx
    have hrem : (v₁.state.mem.nodes.hist.remove x.node) = _ :=
      (inv_of v₁).lists.conserved.remove_eq hp
    rwa [congrArg History.added hrem] at hlt
  obtain ⟨hinv, hpops⟩ := (inv_of v₁).pop hj hd hfew
  have hall := Regime.allows v₁ (s := popFrom v₁.state j n) (g := v₁.now.2) hinv fun o _ => ?_
  · exact ⟨v₁.now.2, hall, True.intro⟩
  · exact Kept.pop fun i => by rw [hpops]; exact Nat.le_add_right _ _

/-! ### The calls -/

theorem push_spec (hf : Fits types set.randomHops set.width) {tl : Local}
    (hi : tl.index < set.width) (val : ℤ) :
    wp E.protocol c (push set val tl) (fun r _ => r.1.index < set.width) v := by
  refine wp.bind_of (createNode_spec val) fun n v₁ hn => ?_
  refine wp.forever (fun b v' => b.2.index < set.width ∧ Mine c.op n v'.pair) ⟨hi, hn⟩ ?_
  rintro ⟨contention, tl'⟩ v₂ ⟨hidx, hn₂⟩
  refine wp.bind_of (TwoDd.Interleaved.putWindow_spec (indifferent _ _) hf hidx) ?_
  rintro ⟨d, tl''⟩ v₃ ⟨hs, hidx₃, -⟩
  refine wp.bind_of (setNext_spec (hn₂.since hs).1 d.node) ?_
  rintro - v₄ ⟨hn₄, hnext⟩
  refine wp.bind_of (pushCae_spec hidx₃ hn₄ hnext) fun done v₅ h₅ => ?_
  cases done with
  | true => exact hidx₃
  | false => exact ⟨hidx₃, h₅.resolve_left nofun⟩

/-- A `pop` that ends after an `Empty return` has seen all sub-stacks empty. -/
theorem popExit_spec (hf : Fits types set.randomHops set.width) {tl : Local}
    (hi : tl.index < set.width) : wp E.protocol c (popExit set tl) (fun r v' =>
      r.1.index < set.width ∧ (r.2 = .empty .empty → ∀ j < set.width, WasClear Clear j v')) v := by
  refine wp.forever (fun b v' => b.2.index < set.width) hi ?_
  rintro ⟨contention, tl'⟩ v₁ hidx
  refine wp.bind_of (getWindowExit_spec (indifferent _ _) hf shows hidx) ?_
  rintro ⟨exit, d, tl''⟩ v₂ ⟨-, hidx₂, ⟨u₁, u₂, h₁, h₂, hcopy⟩, hclear⟩
  have hidx₂ : tl''.index < set.width := hidx₂
  dsimp only
  split
  next n hd =>
    refine wp.read fun v₃ h₃ => ?_
    have hk : Kept _ u₁.pair v₃.pair := ((h₁.trans h₂).trans (.of_le h₃)).frame
    have htop : (u₁.state.mem.array tl''.index).node = some n :=
      (congrArg Descriptor.node hcopy).symm.trans hd
    have hn := hk.pushed n ((inv_of u₁).pushed_top hidx₂ htop)
    refine wp.bind_of (popCae_spec hidx₂ hd hn) fun done v₄ _ => ?_
    cases done with
    | true => exact wp.read fun v₅ _ => ⟨hidx₂, nofun⟩
    | false => exact hidx₂
  next =>
    refine ⟨hidx₂, fun he => hclear ?_⟩
    injection he

end Specs

theorem exit_obligations {set : Params} (hf : Fits types set.randomHops set.width) :
    Obligations (.trivial (exitObject set).service (regime Call set.width)) (fun _ => True)
      (fun _ l _ => l.index < set.width)
      (fun _ _ x v => x.1.index < set.width ∧
        (x.2 = .empty .empty → ∀ j < set.width, WasClear Clear j v))
      initial (fun _ => 0) .zero where
  init := ⟨.init, fun _ _ => rfl, fun _ _ => rfl⟩
  init_fresh _ := True.intro
  init_loc _ := hf.width_pos
  loc_later _ _ _ _ _ _ _ _ _ h := h
  post_stable _ _ _ _ _ h hp := ⟨hp.1, fun he j hj => (hp.2 he j hj).later h.1⟩
  code t op call l v _ _ _ hl _ := by
    cases call with
    | push val => exact wp.bind_of (push_spec hf hl val) fun _ _ h => ⟨h, nofun⟩
    | pop => exact popExit_spec hf hl
  finish _ _ _ _ _ h := ⟨fun _ _ => True.intro, h.1⟩

end Interleaved

end Stack

end TwoDd
