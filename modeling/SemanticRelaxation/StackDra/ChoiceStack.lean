import SemanticRelaxation.Support.LinkedStacks
import Mathlib.Algebra.Group.Nat.Defs

/-!
# Stacks with d choices (`src/stack-dra/stack-dra.c` and
`src/multi-stack_random-relaxed/multi-stack_random-relaxed.c`)

An array of linked stacks. A push looks at `NUM_CHOICES` random stacks and takes one that is empty
or has the smallest timestamp on top, a pop takes one with the largest timestamp on top; an exchange
that is lost makes the call choose again. The two files differ in the timestamp that a push gives
its node. Without `NUM_CHOICES` there is one choice.

* `push_spec` and `pop_spec`: a call takes effect once, for any rule of timestamps;
* `stackDra_linearizable`: in every run the calls are explained by `width` stacks, each of which is
  one linked list, and the timestamp of a top is the number of the nodes below it. So the choice is
  one by sizes;
* `multiStack_linearizable`: the same with timestamps that say nothing.
-/

namespace StackDra

open AtomicProg LinkedStacks Lifo

/-- `random_index`. -/
def randomIndex (width : ℕ) : Prog Memory ℕ := do
  let r ← Prog.choose
  return r % width

/-- The loop of `get_push_index` with `n` rounds left. -/
def pushChoices (width : ℕ) : ℕ → ℕ → ℕ → Prog Memory (Option ℕ × ℕ)
  | 0, index, node => return (some node, index)
  | n + 1, index, node => do
    let index2 ← randomIndex width
    let node2 ← readTop index2
    match node2 with
    | none => return (none, index2)
    | some node2 =>
      let timestamp2 ← readStamp node2
      let timestamp ← readStamp node
      if timestamp2 < timestamp then pushChoices width n index2 node2
        else pushChoices width n index node

/-- `get_push_index`. -/
def getPushIndex (width numChoices : ℕ) : Prog Memory (Option ℕ × ℕ) := do
  let index ← randomIndex width
  let node ← readTop index
  match node with
  | none => return (none, index)
  | some node => pushChoices width (numChoices - 1) index node

/-- The loop of `get_pop_index` with `n` rounds left. -/
def popChoices (width : ℕ) : ℕ → ℕ → Option ℕ → Prog Memory (Option ℕ × ℕ)
  | 0, index, node => return (node, index)
  | n + 1, index, node => do
    let index2 ← randomIndex width
    let node2 ← readTop index2
    match node, node2 with
    | none, node2 => popChoices width n index2 node2
    | some node, none => popChoices width n index (some node)
    | some node, some node2 =>
      let timestamp2 ← readStamp node2
      let timestamp ← readStamp node
      if timestamp2 > timestamp then popChoices width n index2 (some node2)
      else popChoices width n index (some node)

/-- `get_pop_index`. -/
def getPopIndex (width numChoices : ℕ) : Prog Memory (Option ℕ × ℕ) := do
  let index ← randomIndex width
  let node ← readTop index
  popChoices width (numChoices - 1) index node

/-- One round of the loop of `push`, where `ticks` gives the timestamp of a node that goes on top of
another. -/
def pushRound (ticks : Option ℕ → Prog Memory ℕ) (width numChoices newNode : ℕ) :
    Prog Memory (Unit ⊕ ℤ) := do
  let (node, index) ← getPushIndex width numChoices
  writeNext newNode node
  let timestamp ← ticks node
  writeStamp newNode timestamp
  let done ← topCas index node (some newNode)
  return if done then .inr 1 else .inl ()

/-- `push`. -/
def push (ticks : Option ℕ → Prog Memory ℕ) (width numChoices : ℕ) (val : ℤ) : Prog Memory ℤ := do
  let node ← newNode val
  Prog.forever (fun _ => pushRound ticks width numChoices node) ()

/-- One round of the loop of `pop`. -/
def popRound (width numChoices : ℕ) : Prog Memory (Unit ⊕ ℤ) := do
  let (node, index) ← getPopIndex width numChoices
  match node with
  | some node =>
    let next ← readNext node
    let done ← topCas index (some node) next
    if done then
      let val ← readVal node
      return .inr val
    else return .inl ()
  | none => return .inr 0

/-- `pop`. -/
def pop (width numChoices : ℕ) :
    Prog Memory ℤ := Prog.forever (fun _ => popRound width numChoices) ()

/-- The calls on the stacks. -/
def code (ticks : Option ℕ → Prog Memory ℕ) (width numChoices : ℕ) (_ : Caller) :
    Call → Unit → Prog Memory (Unit × ℤ)
  | .push val, l => do
    let r ← push ticks width numChoices val
    return (l, r)
  | .pop, l => do
    let r ← pop width numChoices
    return (l, r)

/-- The timestamp in `stack-dra.c`: `node->timestamp + 1` in 64 bits. -/
def draTicks : Option ℕ → Prog Memory ℕ
  | some node => do
    let timestamp ← readStamp node
    return (timestamp + 1) % 2 ^ 64
  | none => return 0

/-- The timestamp in `multi-stack_random-relaxed.c`: `getticks()`. -/
def getticks (_ : Option ℕ) : Prog Memory ℕ := Prog.choose

/-! ### The specifications -/

section Specs

variable {ticks : Option ℕ → Prog Memory ℕ} {width numChoices : ℕ} {good : ℕ → Option ℕ → Prop}
  {c : Caller}

abbrev rules (ticks : Option ℕ → Prog Memory ℕ) (width numChoices : ℕ)
    (good : ℕ → Option ℕ → Prop) :
    Protocol (service (code ticks width numChoices))
      (Ghost × Account (spec Call.interface width)) :=
  protocol (service (code ticks width numChoices)) Call.interface width good

/-- `ticks` gives a timestamp that is good for a node on top of `node`. -/
def Stamps (ticks : Option ℕ → Prog Memory ℕ) (width numChoices : ℕ) (good : ℕ → Option ℕ → Prop) :
    Prop :=
  ∀ (c : Caller) (v : View (rules ticks width numChoices good) c) (node : Option ℕ),
    (∀ m, node = some m → Linked m v) →
    wp (rules ticks width numChoices good) c (ticks node) (fun t v' => Since v v' ∧
      good t (node.map v.state.stamp)) v

variable {v : View (rules ticks width numChoices good) c}
  {call : (service (code ticks width numChoices)).Call} {val : ℤ}
  {n index : ℕ} {node : Option ℕ}

theorem randomIndex_spec (hw : 0 < width) :
    wp (rules ticks width numChoices good) c (randomIndex width) (fun i v' => Since v v' ∧
      i < width) v :=
  wp.choose fun _ _ h₁ => ⟨.of_le h₁, Nat.mod_lt _ hw⟩

/-- What a push knows of the stack that it has chosen. -/
structure Chosen (x : Option ℕ × ℕ) (v v' : View (rules ticks width numChoices good) c) : Prop where
  since : Since v v'
  lt : x.2 < width
  linked : ∀ m, x.1 = some m → Linked m v'

theorem pushChoices_spec (hw : 0 < width) (k : ℕ) (hi : index < width) (hn : Linked n v) :
    wp (rules ticks width numChoices good) c (pushChoices width k index n)
      (fun x v' => Chosen x v v') v := by
  induction k generalizing index n v with
  | zero => exact ⟨.refl v, hi, fun m hm => Option.some.inj hm ▸ hn⟩
  | succ k ih =>
    refine wp.bind_of (randomIndex_spec hw) fun i v₁ ⟨h₁, hi₂⟩ => wp.read fun v₂ h₂ => ?_
    have h₁₂ := h₁.trans (.of_le h₂)
    cases hm : v₂.state.top i with
    | none =>
      refine ⟨h₁₂, hi₂, fun m hm => ?_⟩
      cases hm
    | some m =>
      refine wp.read fun v₃ h₃ => wp.read fun v₄ h₄ => ?_
      have h₂₄ := (Since.of_le h₃).trans (.of_le h₄)
      have h := h₁₂.trans h₂₄
      split
      · exact (ih hi₂ ((linked_top v₂ hm).since h₂₄)).mono fun x v' hx =>
          ⟨h.trans hx.since, hx.lt, hx.linked⟩
      · exact (ih hi (hn.since h)).mono fun x v' hx => ⟨h.trans hx.since, hx.lt, hx.linked⟩

theorem getPushIndex_spec (hw : 0 < width) : wp (rules ticks width numChoices good) c
    (getPushIndex width numChoices) (fun x v' => Chosen x v v') v := by
  refine wp.bind_of (randomIndex_spec hw) fun i v₁ ⟨h₁, hi⟩ => wp.read fun v₂ h₂ => ?_
  have h := h₁.trans (.of_le h₂)
  cases hm : v₂.state.top i with
  | none =>
    refine ⟨h, hi, fun m hm => ?_⟩
    cases hm
  | some m =>
    exact (pushChoices_spec hw _ hi (linked_top v₂ hm)).mono fun x v' hx =>
      ⟨h.trans hx.since, hx.lt, hx.linked⟩

theorem pushRound_spec (hw : 0 < width) (ht : Stamps ticks width numChoices good)
    (h : ∃ next stamp, Prepared call val n next stamp v) :
    wp (rules ticks width numChoices good) c (pushRound ticks width numChoices n) (fun r v' =>
      Sum.elim (fun _ => ∃ next stamp, Prepared call val n next stamp v')
        (fun r => Model.Done v' r) r) v := by
  obtain ⟨next, stamp, h⟩ := h
  unfold pushRound
  refine wp.bind_of (getPushIndex_spec hw) ?_
  rintro ⟨node, index⟩ v₁ ⟨h₁, hi, hl⟩
  refine wp.bind_of (setNext_spec (fun _ => rfl) (h.since h₁)) fun _ v₂ ⟨h₂, hg₂⟩ => ?_
  refine wp.bind_of (ht c v₂ node fun m hm => hg₂.linked (hl m hm)) fun t v₃ ⟨h₃, hgood⟩ => ?_
  refine wp.bind_of (setStamp_spec (fun _ => rfl) (h₂.since h₃)) fun _ v₄ ⟨h₄, hg₄⟩ => ?_
  have hg := (grows_since h₃).trans hg₄
  have hsame : node.map v₄.state.stamp = node.map v₂.state.stamp := by
    cases hk : node with
    | none => rfl
    | some k => exact congrArg some (hg.stamp k (hg₂.linked (hl k hk)))
  refine wp.bind_of (LinkedStacks.push_spec (topCas_exchange _ _ _) hi h₄
    (fun m hm => hg.linked (hg₂.linked (hl m hm))) (hsame ▸ hgood)) fun done v₅ h₅ => ?_
  cases done with
  | true => exact h₅
  | false => exact ⟨_, _, h₅⟩

theorem push_spec (hw : 0 < width) (ht : Stamps ticks width numChoices good)
    (hcall : v.now.1.calls[c.op]? = some (Call.push val)) (hu : Model.Undone v) :
    wp (rules ticks width numChoices good) c (push ticks width numChoices val)
      (fun r v' => Model.Done v' r) v := by
  unfold push
  refine wp.bind_of (create_spec (fun _ => ⟨rfl, rfl⟩) hcall rfl hu) fun n v₁ h₁ => ?_
  exact wp.forever (fun _ v => ∃ next stamp, Prepared (Call.push val) val n next stamp v) ⟨_, _, h₁⟩
    fun _ v₂ h₂ => pushRound_spec hw ht h₂

/-- What a pop knows of the stack that it has chosen. -/
structure Choosing (call : (service (code ticks width numChoices)).Call) (x : Option ℕ × ℕ)
    (v : View (rules ticks width numChoices good) c) : Prop where
  lt : x.2 < width
  popping : Popping call v
  looked : Looked call x.1 v

theorem Choosing.since {v₁ : View (rules ticks width numChoices good) c} {x : Option ℕ × ℕ}
    (h : Choosing call x v) (h₁ : Since v v₁) : Choosing call x v₁ :=
  ⟨h.lt, h.popping.since h₁, h.looked.since h₁⟩

theorem popChoices_spec (hw : 0 < width) (k : ℕ) (h : Choosing call (node, index) v) :
    wp (rules ticks width numChoices good) c (popChoices width k index node)
      (fun x v' => Choosing call x v') v := by
  induction k generalizing index node v with
  | zero => exact h
  | succ k ih =>
    refine wp.bind_of (randomIndex_spec hw) fun i v₁ ⟨h₁, hi⟩ => wp.read fun v₂ h₂ => ?_
    have h := h.since (h₁.trans (.of_le h₂))
    have hnew : Choosing call (v₂.state.top i, i) v₂ := ⟨hi, h.popping, h.popping.looked hi⟩
    cases node with
    | none => exact ih hnew
    | some n =>
      cases hm : v₂.state.top i with
      | none => exact ih h
      | some m =>
        rw [hm] at hnew
        refine wp.read fun v₃ h₃ => wp.read fun v₄ h₄ => ?_
        have h₂₄ := (Since.of_le h₃).trans (.of_le h₄)
        split
        · exact ih (hnew.since h₂₄)
        · exact ih (h.since h₂₄)

theorem getPopIndex_spec (hw : 0 < width) (h : Popping call v) :
    wp (rules ticks width numChoices good) c
    (getPopIndex width numChoices) (fun x v' => Choosing call x v') v := by
  refine wp.bind_of (randomIndex_spec hw) fun i v₁ ⟨h₁, hi⟩ => wp.read fun v₂ h₂ => ?_
  have h := h.since (h₁.trans (.of_le h₂))
  exact popChoices_spec hw _ ⟨hi, h, h.looked hi⟩

theorem popRound_spec (hw : 0 < width) (h : Popping call v) :
    wp (rules ticks width numChoices good) c
    (popRound width numChoices)
      (fun r v' => Sum.elim (fun _ => Popping call v')
        (fun r => Model.Answered v' call r) r) v := by
  unfold popRound
  refine wp.bind_of (getPopIndex_spec hw h) ?_
  rintro ⟨node, index⟩ v₃ ⟨hlt, h₃, hl⟩
  cases node with
  | none => exact .inr hl
  | some n =>
    refine wp.bind_of (readNext_spec (fun _ => rfl) h₃ hl) fun next v₄ ⟨h₄, hl, hnext⟩ => ?_
    refine wp.bind_of (LinkedStacks.pop_spec (topCas_exchange _ _ _) hlt h₄ hl hnext)
      fun done v₅ h₅ => ?_
    cases done with
    | true => exact wp.bind_of (readVal_spec (fun _ => rfl) h₅) fun r v₆ h₆ => .inl h₆
    | false => exact h₅

theorem pop_spec (hw : 0 < width) (h : Popping call v) : wp (rules ticks width numChoices good) c
    (pop width numChoices) (fun r v' => Model.Answered v' call r) v :=
  wp.forever (fun _ v => Popping call v) h fun _ _ h => popRound_spec hw h

theorem stack_linear (hw : 0 < width) (ht : Stamps ticks width numChoices good) :
    Linear (S := service (code ticks width numChoices)) (model Call.interface width good)
      (fun _ => True)
      (fun _ _ _ => True) initial ⟨fun _ => 0, ∅⟩ () := by
  refine linear rfl True.intro (fun c call val l v hcall hc hu _ => ?_) fun c call l v h _ => ?_
  · cases call with
    | pop => cases hc
    | push val' =>
      obtain rfl : val' = val := Option.some.inj hc
      exact wp.bind_of (push_spec hw ht hcall hu) fun _ _ h => ⟨h, True.intro⟩
  · cases call with
    | push val => cases h.pops
    | pop => exact wp.bind_of (pop_spec hw h) fun _ _ h => ⟨h, True.intro⟩

end Specs

/-! ### `stack-dra.c` -/

/-- The timestamp of a node counts the nodes below it. -/
def counted : ℕ → Option ℕ → Prop
  | t, none => t = 0
  | t, some below => t = (below + 1) % 2 ^ 64

theorem draTicks_stamps (width numChoices : ℕ) : Stamps draTicks width numChoices counted := by
  intro c v node hl
  cases node with
  | none => exact ⟨.refl v, rfl⟩
  | some m =>
    refine wp.read fun v₁ h₁ => ⟨.of_le h₁, ?_⟩
    show _ = (v.state.stamp m + 1) % 2 ^ 64
    rw [show v₁.state.stamp m = v.state.stamp m from (grows_since (.of_le h₁)).stamp m (hl m rfl)]

/-- Along a stack the timestamps go down to 0. -/
theorem stamp_of_path {s : Memory} {linked : Set ℕ}
    (hs : ∀ n ∈ linked, counted (s.stamp n) ((s.next n).map s.stamp)) {p : Option ℕ} {line : List ℕ}
    (hp : Path s.next p line) (hl : ∀ n ∈ line, n ∈ linked) {n : ℕ} (hn : p = some n) :
    s.stamp n = (line.length - 1) % 2 ^ 64 := by
  induction line generalizing p n with
  | nil => exact absurd (hn.symm.trans hp) nofun
  | cons m rest ih =>
    obtain rfl : m = n := Option.some.inj (hp.1.symm.trans hn)
    have hc := hs m (hl m (List.mem_cons_self ..))
    cases hk : s.next m with
    | none =>
      rw [hk] at hc
      have hnil : rest = [] := by
        cases rest with
        | nil => rfl
        | cons k _ => exact absurd (hk.symm.trans hp.2.1) nofun
      rw [hnil]
      exact hc
    | some k =>
      rw [hk] at hc
      have hrest := ih hp.2 (fun i hi => hl i (List.mem_cons_of_mem _ hi)) hk
      have hpos : 0 < rest.length := by
        cases rest with
        | nil => exact absurd (hk.symm.trans hp.2) nofun
        | cons _ _ => exact Nat.succ_pos _
      rw [show s.stamp m = (s.stamp k + 1) % 2 ^ 64 from hc, hrest, List.length_cons,
        Nat.mod_add_mod]
      congr 1
      omega

/-- For any number of threads and any order of their steps, `width` stacks explain the calls. Each
is a linked list, and the timestamp of its top is its size less one. -/
theorem stackDra_linearizable {width numChoices : ℕ} (hw : 0 < width)
    {P : Pool (service (code draTicks width numChoices))} (hr : Reachable initial () P) : ∃ log x,
    Linearizes (spec Call.interface width) P.world log ∧ (spec Call.interface width).Run log x ∧
      ∀ j, ∃ line, Represents (x j) j P.world.shared line ∧
        ∀ n, P.world.shared.top j = some n → P.world.shared.stamp n =
          ((x j).length - 1) % 2 ^ 64 := by
  obtain ⟨log, x, g, hlog, hx, line, hi⟩ :=
    (stack_linear hw (draTicks_stamps width numChoices)).linearizes hr
  refine ⟨log, x, hlog, hx, fun j => ⟨line j, ⟨hi.path j, hi.vals j⟩, fun n hn => ?_⟩⟩
  have hlen := congrArg List.length (hi.vals j)
  rw [List.length_map] at hlen
  exact hlen ▸ stamp_of_path hi.stamps (hi.path j) (hi.linked j) hn

/-- Two pushes on one of two stacks and a pop of the second. -/
theorem stackDra_linearizable_two :
    ∃ P : Pool (service (code draTicks 2 2)), P.world.returned 2 = some ((8 : ℤ), 3) ∧
    ∃ log x, Linearizes (spec Call.interface 2) P.world log ∧ (spec Call.interface 2).Run log x ∧
      ∀ j, ∃ line, Represents (x j) j P.world.shared line ∧
      ∀ n, P.world.shared.top j = some n → P.world.shared.stamp n =
        ((x j).length - 1) % 2 ^ 64 := by
  have h : (((Pool.init (service (code draTicks 2 2)) initial ()).exec (List.flatten [
      [.invoke 0 (Call.push 7)], List.replicate 8 (.step 0 0), [.invoke 0 (Call.push 8)],
      List.replicate 13 (.step 0 0),
      [.invoke 1 Call.pop], List.replicate 11 (.step 1 0)])).any fun P =>
        decide (P.world.returned 2 = some ((8 : ℤ), 3))) = true := by
    decide +kernel
  obtain ⟨P, hP, h⟩ := Pool.exec_of_check h
  exact ⟨P, of_decide_eq_true h,
    stackDra_linearizable Nat.two_pos (Pool.exec_reach hP (fun _ _ _ _ => True.intro) .init)⟩

/-! ### `multi-stack_random-relaxed.c` -/

theorem getticks_stamps (width numChoices : ℕ) : Stamps getticks width numChoices fun _ _ => True :=
  fun _ _ _ _ => wp.choose fun _ _ h₁ => ⟨.of_le h₁, True.intro⟩

/-- For any number of threads and any order of their steps, whatever the clock shows. -/
theorem multiStack_linearizable {width numChoices : ℕ} (hw : 0 < width)
    {P : Pool (service (code getticks width numChoices))} (hr : Reachable initial () P) : ∃ log x,
      Linearizes (spec Call.interface width) P.world log ∧ (spec Call.interface width).Run log x ∧
        ∀ j, ∃ line, Represents (x j) j P.world.shared line := by
  obtain ⟨log, x, g, hlog, hx, line, hi⟩ :=
    (stack_linear hw (getticks_stamps width numChoices)).linearizes hr
  exact ⟨log, x, hlog, hx, fun j => ⟨line j, hi.path j, hi.vals j⟩⟩

/-- A push and a pop of two threads. -/
theorem multiStack_linearizable_two : ∃ P : Pool (service (code getticks 2 2)),
    P.world.returned 1 = some ((7 : ℤ), 2) ∧ ∃ log x, Linearizes
      (spec Call.interface 2) P.world log ∧ (spec Call.interface 2).Run log x ∧
      ∀ j, ∃ line, Represents (x j) j P.world.shared line := by
  have h : (((Pool.init (service (code getticks 2 2)) initial ()).exec (List.flatten [
      [.invoke 0 (Call.push 7)], List.replicate 9 (.step 0 0), [.invoke 1 Call.pop],
      List.replicate 11 (.step 1 0)])).any
        fun P => decide (P.world.returned 1 = some ((7 : ℤ), 2))) = true := by
    decide +kernel
  obtain ⟨P, hP, h⟩ := Pool.exec_of_check h
  exact ⟨P, of_decide_eq_true h,
    multiStack_linearizable Nat.two_pos (Pool.exec_reach hP (fun _ _ _ _ => True.intro) .init)⟩

end StackDra
