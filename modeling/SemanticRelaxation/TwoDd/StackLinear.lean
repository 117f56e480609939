import SemanticRelaxation.Support.Treiber
import SemanticRelaxation.TwoDd.EmptySearch
import SemanticRelaxation.TwoDd.Stack

/-!
# The 2Dd stack as an array of stacks

The window decides on which sub-stack a call works, and says nothing about what it finds there: the
calls are explained by `width` stacks in every run, whatever the windows are and however often the
counts of a descriptor have wrapped.

* `push_commits` and `pop_commits`: a push takes effect with its exchange, a pop with its exchange
  or when it read an empty top;
* `twoDdStack_linearizable`: the stacks that explain the answers are the linked ones.
-/

namespace TwoDd

namespace Stack

open AtomicProg LinkedStacks TwoD

/-- The sub-stacks. -/
instance : Stacked State := ⟨fun s => s.mem.nodes.linked fun j => (s.mem.array j).node⟩

/-- The stamps of the nodes are not used. -/
abbrev free : ℕ → Option ℕ → Prop := fun _ _ => True

/-- A push answers 1, a pop its value or nothing. -/
def Call.interface : Interface Call (Option ℤ) where
  pushes
    | .push val => some val
    | .pop => none
  pushed := some 1
  popped := some
  empty := none

theorem mem_createNode (val : ℤ) (s : State) :
    mem (s.onNodes (·.create val)) = (mem s).create val :=
  Treiber.linked_create _ _ val

theorem mem_setNext (node : ℕ) (next : Option ℕ) (s : State) :
    mem (s.onNodes (·.setNext node next)) = (mem s).setNext node next :=
  Treiber.linked_setNext _ _ node next

theorem doCae_exchange (idx : ℕ) {old : Descriptor} {top : Option ℕ} (h : old.node = top)
    (new : Descriptor) (push : Bool) : Exchange (fun s : State => s.mem.array idx)
      (fun d s => { s with mem := ⟨Function.update s.mem.array idx d,
        record idx old d push s.mem.nodes⟩ }) old new idx
        top new.node where
  top s hs := (congrArg Descriptor.node hs).trans h
  set s _ := by
    have hlinked : ∀ top, (record idx old new push s.mem.nodes).linked top =
      s.mem.nodes.linked top := fun top => by
      unfold record
      split <;> rfl
    refine (hlinked _).trans ?_
    show LinkedStacks.Memory.mk _ _ _ _ _ = LinkedStacks.Memory.mk _ _ _ _ _
    congr
    funext j
    exact Function.apply_update (fun _ => Descriptor.node) s.mem.array idx new j

theorem mem_of_mem {s s' : State} (h : s'.mem = s.mem) : mem s' = mem s :=
  congrArg (fun m : Memory => m.nodes.linked fun j => (m.array j).node) h

theorem indifferent {C R : Type} (I : Interface C R) (w : ℕ) :
    TwoDd.Interleaved.Indifferent
      (Model.regime (model I w free : Model (spec I w) State Ghost)) where
  inv _ _ _ hs h := inv_of_mem (mem_of_mem hs) h
  frame _ _ _ hs := frame_of_mem (mem_of_mem hs)

section Specs

variable {set : Params}

abbrev rules (set : Params) :
    Protocol (object set).service (Ghost × Account (spec Call.interface set.width)) :=
  protocol (object set).service Call.interface set.width free

variable {c : Caller} {v : View (rules set) c} {call : (object set).service.Call} {tl : Local}

theorem putWindow_found (hf : Fits types set.randomHops set.width) (hi : tl.index < set.width)
    (contention : Bool) :
    wp (rules set) c (putWindow set contention tl)
      (Found Descriptor.node Local.index set.width v) v := by
  refine (TwoDd.Interleaved.putWindow_spec (indifferent _ _) hf hi).mono ?_
  rintro ⟨d, tl'⟩ v₁ ⟨h₁, hidx, u₁, u₂, h₂, h₃, hd⟩
  exact ⟨h₁, hidx, u₁, h₂.trans h₃, (congrArg Descriptor.node hd).symm⟩

theorem getWindow_found (hf : Fits types set.randomHops set.width) (hi : tl.index < set.width)
    (contention : Bool) :
    wp (rules set) c (getWindow set contention tl)
      (Found Descriptor.node Local.index set.width v) v := by
  refine (TwoDd.Interleaved.getWindow_spec (indifferent _ _) hf hi).mono ?_
  rintro ⟨d, tl'⟩ v₁ ⟨h₁, hidx, u₁, u₂, h₂, h₃, hd⟩
  exact ⟨h₁, hidx, u₁, h₂.trans h₃, (congrArg Descriptor.node hd).symm⟩

theorem push_commits (hf : Fits types set.randomHops set.width) (hi : tl.index < set.width)
    {val : ℤ} (hcall : v.now.1.calls[c.op]? = some (Call.push val)) (hu : Model.Undone v) :
    wp (rules set) c (push set val tl) (fun r v' => Model.Done v' (some r.2) ∧
      r.1.index < set.width) v := by
  refine wp.bind_of (create_spec (fun s => ⟨rfl, mem_createNode val s⟩) hcall rfl hu)
    fun n v₁ h₁ => ?_
  show wp (rules set) c (pushLoop (putWindow set) (fun d => setNext n d.node)
    (fun d tl => doCae tl.index d ⟨some n, (d.putCount + 1) % 2 ^ 32, d.getCount⟩ true) tl) _ v₁
  refine (pushLoop_spec (fun b tl v hi => putWindow_found hf hi b)
    (fun d next v h => setNext_spec (mem_setNext n d.node) h)
    (fun d tl v hi h hl => LinkedStacks.push_spec (doCae_exchange _ rfl _ _) hi h hl True.intro) hi
    h₁).mono ?_
  rintro ⟨tl', r⟩ v₂ ⟨hd, rfl, hi⟩
  exact ⟨hd, hi⟩

theorem pop_commits (hf : Fits types set.randomHops set.width) (hi : tl.index < set.width)
    (h : Popping call v) :
    wp (rules set) c (pop set tl) (fun r v' => Model.Answered v' call r.2 ∧
      r.1.index < set.width) v := by
  show wp (rules set) c (popLoop Descriptor.node (getWindow set)
    (fun n => Prog.read fun s : State => (s.mem.nodes.heap n).next)
    (fun d tl next => doCae tl.index d ⟨next, d.putCount, (d.getCount + 1) % 2 ^ 32⟩ false)
    (fun n => Prog.read fun s : State => (s.mem.nodes.heap n).val) tl) _ v
  refine (popLoop_spec (fun b tl v hi => getWindow_found hf hi b)
    (fun n v h hl => readNext_spec (fun _ => rfl) h hl)
    (fun d tl n next v hi hd h hl hn => LinkedStacks.pop_spec (doCae_exchange _ hd _ _) hi h hl hn)
    (fun n v h => readVal_spec (fun _ => rfl) h) hi h).mono ?_
  rintro ⟨tl', r⟩ v₁ ⟨ha, hi⟩
  refine ⟨?_, hi⟩
  cases r <;> exact ha

theorem stack_linear (hf : Fits types set.randomHops set.width) :
    Linear (S := (object set).service) (model Call.interface set.width free) (fun _ => True)
      (fun _ l _ => l.index < set.width) initial ⟨fun _ => 0, ∅⟩ .zero := by
  refine linear rfl hf.width_pos (fun c call val l v hcall hc hu hl => ?_) fun c call l v h hl => ?_
  · cases call with
    | pop => cases hc
    | push val' =>
      obtain rfl : val' = val := Option.some.inj hc
      exact wp.bind_of (push_commits hf hl hcall hu) fun _ _ h => h
  · cases call with
    | push val => cases h.pops
    | pop => exact pop_commits hf hl h

end Specs

/-- For any number of threads and any order of their steps, `width` stacks explain the calls, and
they are the linked stacks of the array. -/
theorem twoDdStack_linearizable (depth : ℕ) {width : ℕ} (hw : 0 < width % 2 ^ 32)
    (hw' : width < 2 ^ 64) {P : Pool (object (params width depth)).service}
    (hr : Reachable initial .zero P) :
    ∃ log x, Linearizes (spec Call.interface width) P.world log ∧
      (spec Call.interface width).Run log x ∧
      ∀ j, ∃ line, Represents (x j) j (mem P.world.shared) line := by
  have hf : Fits types (params width depth).randomHops (params width depth).width :=
    ⟨hw, (by decide : 2 < 2 ^ 64), hw'⟩
  obtain ⟨log, x, g, hlog, hx, line, hi⟩ := (stack_linear hf).linearizes hr
  exact ⟨log, x, hlog, hx, fun j => ⟨line j, hi.path j, hi.vals j⟩⟩

/-- The answer of a call. -/
def answer {set : Params} (P : Pool (object set).service) (op : ℕ) : Option (Option ℤ) :=
  (P.world.returned op).map Prod.fst

/-- A pop comes between the search and the exchange of a second push, which has to search again. -/
theorem twoDdStack_linearizable_two :
    ∃ P : Pool (object (params 2 2)).service, answer P 2 = some (some 7) ∧
    ∃ log x, Linearizes (spec Call.interface 2) P.world log ∧ (spec Call.interface 2).Run log x ∧
      ∀ j, ∃ line, Represents (x j) j (mem P.world.shared) line := by
  have h : (((Pool.init (object (params 2 2)).service initial .zero).exec (List.flatten [
      [.invoke 0 (Call.push 7)], List.replicate 35 (.step 0 1), [.invoke 0 (Call.push 8)],
      List.replicate 7 (.step 0 1),
      [.invoke 1 Call.pop], List.replicate 47 (.step 1 0), List.replicate 12 (.step 0 1)])).any
      fun P =>
        decide (answer P 2 = some (some 7))) = true := by
    decide +kernel
  obtain ⟨P, hP, h⟩ := Pool.exec_of_check h
  exact ⟨P, of_decide_eq_true h, twoDdStack_linearizable 2 (by decide) (by decide)
    (Pool.exec_reach hP (fun _ _ _ _ => True.intro) .init)⟩

end Stack

end TwoDd
