import SemanticRelaxation.Support.LinkedStacks

/-!
# The Treiber stack (`src/stack-treiber/stack-treiber.c`)

One linked stack. A push links its node to the top it has read and exchanges the top, a pop
exchanges the top for the node below; both start again if they lose the exchange.

* `insert_spec` and `delete_spec`: a call takes effect once;
* `stackTreiber_linearizable`: in every run the history of the exchanges and of the empty answers is
  legal, explains all answers, and leads to the linked stack.
-/

namespace StackTreiber

open AtomicProg LinkedStacks Lifo

/-- One round of the loop of `mstack_treiber_insert`. -/
def insertRound (node : ℕ) : Prog Memory (Unit ⊕ ℤ) := do
  let top ← readTop 0
  writeNext node top
  let done ← topCas 0 top (some node)
  return if done then .inr 1 else .inl ()

/-- `mstack_treiber_insert`. -/
def insert (val : ℤ) : Prog Memory ℤ := do
  let node ← newNode val
  Prog.forever (fun _ => insertRound node) ()

/-- One round of the loop of `mstack_treiber_delete`. -/
def deleteRound : Prog Memory (Unit ⊕ ℤ) := do
  let top ← readTop 0
  match top with
  | none => return .inr 0
  | some top =>
    let next ← readNext top
    let done ← topCas 0 (some top) next
    if done then
      let val ← readVal top
      return .inr val
    else return .inl ()

/-- `mstack_treiber_delete`. -/
def delete : Prog Memory ℤ := Prog.forever (fun _ => deleteRound) ()

/-- The calls on the stack. -/
def code (_ : Caller) : Call → Unit → Prog Memory (Unit × ℤ)
  | .push val, l => do
    let r ← insert val
    return (l, r)
  | .pop, l => do
    let r ← delete
    return (l, r)

/-- The stamps of the nodes are not used. -/
abbrev free : ℕ → Option ℕ → Prop := fun _ _ => True

abbrev rules : Protocol (service code) (Ghost × Account (spec Call.interface 1)) :=
  protocol (service code) Call.interface 1 free

variable {c : Caller} {v : View rules c} {call : (service code).Call} {val : ℤ} {n : ℕ}

theorem insertRound_spec (h : ∃ next, Prepared call val n next 0 v) : wp rules c (insertRound n)
    (fun r v' => Sum.elim (fun _ => ∃ next, Prepared call val n next 0 v')
      (fun r => Model.Done v' r) r) v := by
  obtain ⟨next, h⟩ := h
  unfold insertRound
  refine wp.read fun v₁ h₁ => ?_
  refine wp.bind_of (setNext_spec (fun _ => rfl) (h.since (.of_le h₁))) fun _ v₂ ⟨h₂, hg⟩ => ?_
  refine wp.bind_of (push_spec (topCas_exchange _ _ _) Nat.one_pos h₂
    (fun m hm => hg.linked (linked_top v₁ hm)) True.intro) fun done v₃ h₃ => ?_
  cases done with
  | true => exact h₃
  | false => exact ⟨_, h₃⟩

theorem insert_spec (hcall : v.now.1.calls[c.op]? = some (Call.push val)) (hu : Model.Undone v) :
    wp rules c (insert val) (fun r v' => Model.Done v' r) v := by
  unfold insert
  refine wp.bind_of (create_spec (fun _ => ⟨rfl, rfl⟩) hcall rfl hu) fun n v₁ h₁ => ?_
  exact wp.forever (fun _ v => ∃ next, Prepared (Call.push val) val n next 0 v) ⟨_, h₁⟩
    fun _ v₂ h₂ => insertRound_spec h₂

theorem deleteRound_spec (h : Popping call v) : wp rules c deleteRound
    (fun r v' => Sum.elim (fun _ => Popping call v') (fun r => Model.Answered v' call r) r) v := by
  unfold deleteRound
  refine wp.read fun v₁ h₁ => ?_
  have h₁ := h.since (.of_le h₁)
  cases hk : v₁.state.top 0 with
  | none => exact .inr (h₁.recalls Nat.one_pos hk)
  | some n =>
    refine wp.bind_of (readNext_spec (fun _ => rfl) h₁ (linked_top v₁ hk))
      fun next v₂ ⟨h₂, hl, hnext⟩ => ?_
    refine wp.bind_of (pop_spec (topCas_exchange _ _ _) Nat.one_pos h₂ hl hnext)
      fun done v₃ h₃ => ?_
    cases done with
    | true => exact wp.bind_of (readVal_spec (fun _ => rfl) h₃) fun r v₄ h₄ => .inl h₄
    | false => exact h₃

theorem delete_spec (h : Popping call v) :
    wp rules c delete (fun r v' => Model.Answered v' call r) v :=
  wp.forever (fun _ v => Popping call v) h fun _ _ h => deleteRound_spec h

theorem stack_linear : Linear (S := service code) (model Call.interface 1 free) (fun _ => True)
    (fun _ _ _ => True) initial
    ⟨fun _ => 0, ∅⟩ () := by
  refine linear rfl True.intro (fun c call val l v hcall hc hu _ => ?_) fun c call l v h _ => ?_
  · cases call with
    | pop => cases hc
    | push val' =>
      obtain rfl : val' = val := Option.some.inj hc
      exact wp.bind_of (insert_spec hcall hu) fun _ _ h => ⟨h, True.intro⟩
  · cases call with
    | push val => cases h.pops
    | pop => exact wp.bind_of (delete_spec h) fun _ _ h => ⟨h, True.intro⟩

/-- For any number of threads and any order of their steps. -/
theorem stackTreiber_linearizable {P : Pool (service code)} (hr : Reachable initial () P) :
    ∃ log x line,
    Linearizes (spec Call.interface 1) P.world log ∧ (spec Call.interface 1).Run log x ∧ Represents
      (x 0) 0 P.world.shared line := by
  obtain ⟨log, x, g, hlog, hx, line, hi⟩ := stack_linear.linearizes hr
  exact ⟨log, x, line 0, hlog, hx, hi.path 0, hi.vals 0⟩

/-- A push of 8 comes between the load and the exchange of a push of 7, which has to start again; a
pop takes the 7. -/
theorem stackTreiber_linearizable_three :
    ∃ P : Pool (service code), P.world.returned 2 = some ((7 : ℤ), 3) ∧
    ∃ log x line, Linearizes (spec Call.interface 1) P.world log ∧
      (spec Call.interface 1).Run log x ∧ Represents (x 0) 0 P.world.shared line := by
  have h : (((Pool.init (service code) initial ()).exec (List.flatten [
      [.invoke 0 (Call.push 7)], List.replicate 3 (.step 0 0), [.invoke 1 (Call.push 8)],
      List.replicate 6 (.step 1 0),
      List.replicate 7 (.step 0 0), [.invoke 1 Call.pop], List.replicate 6 (.step 1 0)])).any
        fun P =>
        decide (P.world.returned 2 = some ((7 : ℤ), 3))) = true := by
    decide +kernel
  obtain ⟨P, hP, h⟩ := Pool.exec_of_check h
  exact ⟨P, of_decide_eq_true h,
    stackTreiber_linearizable (Pool.exec_reach hP (fun _ _ _ _ => True.intro) .init)⟩

end StackTreiber
