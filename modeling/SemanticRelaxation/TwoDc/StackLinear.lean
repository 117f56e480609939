import SemanticRelaxation.Support.Treiber
import SemanticRelaxation.TwoDc.Search
import SemanticRelaxation.TwoDc.Stack

/-!
# The 2Dc stack as an array of stacks

* `push_commits` and `pop_commits`: a push takes effect with its exchange, a pop with its exchange
  or when it read an empty top;
* `twoDcStack_linearizable`: in every run `width` stacks explain the answers, and they are the
  linked ones.
-/

namespace TwoDc

namespace Stack

open AtomicProg LinkedStacks TwoD

/-- The sub-stacks. -/
instance : Stacked State := ⟨fun s => s.mem.linked fun j => (s.setArray j).node⟩

/-- The stamps of the nodes are not used. -/
abbrev free : ℕ → Option ℕ → Prop := fun _ _ => True

/-- A push answers 1, a pop its value or nothing. -/
def Call.interface : Interface Call (Option ℤ) where
  pushes
    | .push val => some val
    | .pop => none
  pushed := some 1
  popped := some
  empty := none

theorem stackCae_exchange (idx : ℕ) {old : Descriptor} {top : Option ℕ} (h : old.node = top)
    (new : Descriptor) (push : Bool) : Exchange (fun s : State => s.setArray idx)
      (fun d s => { s with
        setArray := Function.update s.setArray idx d
        mem := record idx old d push s.mem }) old new idx top new.node where
  top s hs := (congrArg Descriptor.node hs).trans h
  set s _ := by
    have hlinked : ∀ top, (record idx old new push s.mem).linked top = s.mem.linked top :=
      fun top => by
      unfold record
      split <;> rfl
    refine (hlinked _).trans ?_
    show Memory.mk _ _ _ _ _ = Memory.mk _ _ _ _ _
    congr
    funext j
    exact Function.apply_update (fun _ => Descriptor.node) s.setArray idx new j

theorem indifferent {C R : Type} (I : Interface C R) (w : ℕ) :
    TwoDc.Interleaved.Indifferent
      (Model.regime (model I w free : Model (spec I w) State Ghost)) where
  inv _ _ _ h := inv_of_mem rfl h
  frame _ _ _ := frame_of_mem rfl

section Specs

variable {set : Params}

abbrev rules (set : Params) :
    Protocol (object set).service (Ghost × Account (spec Call.interface set.width)) :=
  protocol (object set).service Call.interface set.width free

variable {c : Caller} {v : View (rules set) c} {call : (object set).service.Call} {tl : Local}

theorem found {v₁ : View (rules set) c} {r : Descriptor × Local}
    (h : TwoDc.Interleaved.Found set v r v₁) :
    LinkedStacks.Found Descriptor.node Local.index set.width v r v₁ := by
  obtain ⟨h₁, hidx, u₁, u₂, h₂, h₃, hd⟩ := h
  have hnode : (HasCount.copy (u₁.state.setArray r.2.index) (u₂.state.setArray r.2.index)).node =
    r.1.node :=
    congrArg Descriptor.node hd
  exact ⟨h₁, hidx, u₁, h₂.trans h₃, hnode⟩

theorem push_commits (hf : Fits types set.randomHops set.width) (hi : tl.index < set.width)
    {val : ℤ} (hcall : v.now.1.calls[c.op]? = some (Call.push val)) (hu : Model.Undone v) :
    wp (rules set) c (push set val tl) (fun r v' => Model.Done v' (some r.2) ∧
      r.1.index < set.width) v := by
  refine wp.bind_of (create_spec (fun s => ⟨rfl, Treiber.linked_create _ _ val⟩) hcall rfl hu)
    fun n v₁ h₁ => ?_
  show wp (rules set) c (pushLoop (putWindow set) (fun d => setNext n d.node)
    (fun d tl => stackCae tl.index d ⟨some n, d.count + 1⟩ true) tl) _ v₁
  refine (pushLoop_spec (fun b tl v hi => (Interleaved.putWindow_spec (indifferent _ _) hf hi).mono
    fun _ _ => found)
    (fun d next v h => setNext_spec (fun _ => Treiber.linked_setNext _ _ n d.node) h)
    (fun d tl v hi h hl => LinkedStacks.push_spec (stackCae_exchange _ rfl _ _) hi h hl True.intro)
    hi h₁).mono ?_
  rintro ⟨tl', r⟩ v₂ ⟨hd, rfl, hi⟩
  exact ⟨hd, hi⟩

theorem pop_commits (hf : Fits types set.randomHops set.width) (hi : tl.index < set.width)
    (h : Popping call v) :
    wp (rules set) c (pop set tl) (fun r v' => Model.Answered v' call r.2 ∧
      r.1.index < set.width) v := by
  show wp (rules set) c (popLoop Descriptor.node (getWindow set)
    (fun n => Prog.read fun s : State => (s.mem.heap n).next)
    (fun d tl next => stackCae tl.index d ⟨next, Words.usub 64 d.count 1⟩ false)
    (fun n => Prog.read fun s : State => (s.mem.heap n).val) tl) _ v
  refine (popLoop_spec (fun b tl v hi => (Interleaved.getWindow_spec (indifferent _ _) hf hi).mono
    fun _ _ => found)
    (fun n v h hl => readNext_spec (fun _ => rfl) h hl)
    (fun d tl n next v hi hd h hl hn => LinkedStacks.pop_spec
      (stackCae_exchange _ hd _ _) hi h hl hn)
    (fun n v h => readVal_spec (fun _ => rfl) h) hi h).mono ?_
  rintro ⟨tl', r⟩ v₁ ⟨ha, hi⟩
  refine ⟨?_, hi⟩
  cases r <;> exact ha

theorem stack_linear (hf : Fits types set.randomHops set.width) :
    Linear (S := (object set).service) (model Call.interface set.width free) (fun _ => True)
      (fun _ l _ => l.index < set.width) (initial set) ⟨fun _ => 0, ∅⟩ .zero := by
  refine linear rfl hf.width_pos (fun c call val l v hcall hc hu hl => ?_) fun c call l v h hl => ?_
  · cases call with
    | pop => cases hc
    | push val' =>
      obtain rfl : val' = val := Option.some.inj hc
      exact wp.bind_of (push_commits hf hl hcall hu) fun _ _ h => h
  · cases call with
    | push val => cases h.pops
    | pop => exact pop_commits hf hl h

end Specs

/-- For any number of threads and any order of their steps, `width` stacks explain the calls, and
they are the linked stacks of the array. -/
theorem twoDcStack_linearizable (depth : ℕ) {width : ℕ} (hw : 0 < width) (hw' : width < 2 ^ 16)
    {P : Pool (object (wordParams width depth)).service}
    (hr : Reachable (initial (wordParams width depth)) .zero P) :
    ∃ log x, Linearizes (spec Call.interface width) P.world log ∧
      (spec Call.interface width).Run log x ∧
      ∀ j, ∃ line, Represents (x j) j (mem P.world.shared) line := by
  have hf : Fits types (wordParams width depth).randomHops (wordParams width depth).width :=
    .of_lt hw hw' (by decide : 2 < 2 ^ 16) rfl rfl
  obtain ⟨log, x, g, hlog, hx, line, hi⟩ := (stack_linear hf).linearizes hr
  exact ⟨log, x, hlog, hx, fun j => ⟨line j, hi.path j, hi.vals j⟩⟩

/-- The answer of a call. -/
def answer {set : Params} (P : Pool (object set).service) (op : ℕ) : Option (Option ℤ) :=
  (P.world.returned op).map Prod.fst

/-- Between the loads of the two words for a second push, another thread pushes to the same
sub-stack. Then the second push goes to the other one, and the other thread pops what it has pushed.
-/
theorem twoDcStack_linearizable_two :
    ∃ P : Pool (object (wordParams 2 2)).service, answer P 1 = some (some 1) ∧
    answer P 3 = some (some 9) ∧ P.world.shared.setArray 0 = ⟨some 0, 1⟩ ∧
      P.world.shared.setArray 1 = ⟨some 1, 1⟩ ∧
    ∃ log x, Linearizes (spec Call.interface 2) P.world log ∧ (spec Call.interface 2).Run log x ∧
      ∀ j, ∃ line, Represents (x j) j (mem P.world.shared) line := by
  have h : (((Pool.init (object (wordParams 2 2)).service (initial (wordParams 2 2)) .zero).exec
    (List.flatten [
      [.invoke 0 (Call.push 7)], List.replicate 12 (.step 0 1), [.invoke 0 (Call.push 8)],
      List.replicate 5 (.step 0 1),
      [.invoke 1 (Call.push 9)], List.replicate 12 (.step 1 0), List.replicate 10 (.step 0 1),
      [.invoke 1 Call.pop], List.replicate 10 (.step 1 0)])).any fun P =>
        decide (answer P 1 = some (some 1) ∧ answer P 3 = some (some 9) ∧
          P.world.shared.setArray 0 = ⟨some 0, 1⟩ ∧ P.world.shared.setArray 1 = ⟨some 1, 1⟩)) =
            true := by
    decide +kernel
  obtain ⟨P, hP, h⟩ := Pool.exec_of_check h
  obtain ⟨hpush, hpop, hfirst, hsecond⟩ := of_decide_eq_true h
  exact ⟨P, hpush, hpop, hfirst, hsecond, twoDcStack_linearizable 2 (by decide) (by decide)
    (Pool.exec_reach hP (fun _ _ _ _ => True.intro) .init)⟩

end Stack

end TwoDc
