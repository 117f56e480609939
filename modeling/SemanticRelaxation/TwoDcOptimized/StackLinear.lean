import SemanticRelaxation.Support.Treiber
import SemanticRelaxation.TwoD.Rely
import SemanticRelaxation.TwoDcOptimized.Copies

/-!
# The optimized 2Dc stack as an array of stacks

The descriptor of a sub-stack is loaded in two steps, so that the node and the count may belong to
different moments. The exchange compares both. Nothing is assumed of the version of the window,
which may come round.

* `putWindow_found` and `getWindow_found`: the searches have seen the top of the sub-stack that they
  return;
* `optimizedStack_linearizable`: in every run `width` stacks explain the answers, and they are the
  linked ones.
-/

namespace TwoDcOptimized

namespace AsStacks

open AtomicProg LinkedStacks TwoD

/-- The sub-stacks. -/
instance : Stacked State := ⟨fun s => s.1.mem.linked fun j => (s.1.setArray j).node⟩

/-- The stamps of the nodes are not used. -/
abbrev free : ℕ → Option ℕ → Prop := fun _ _ => True

/-- A push answers 1, a pop its value or nothing. -/
def interface : Interface Call (Option ℤ) where
  pushes
    | .push val => some val
    | .pop => none
  pushed := some 1
  popped := some
  empty := none

section Specs

abbrev rules (set : Params) :
    Protocol (object set).service (Ghost × Account (spec interface set.width)) :=
  protocol (object set).service interface set.width free

variable {set : Params} {c : Caller} {v : View (rules set) c} {call : (object set).service.Call}
  {tl : Local}

/-! ### The searches -/

theorem check_spec {x : Copied Window} :
    wp (rules set) c (window.check x) (fun _ v' => Since v v') v :=
  silent_spec (.update fun _ => rfl)

theorem exchange_spec {old new : Window} :
    wp (rules set) c (window.exchange old new) (fun _ v' => Since v v') v := by
  refine silent_spec (.update fun s => ?_)
  split <;> rfl

theorem assert_spec {b : Bool} : wp (rules set) c (assert b) (fun _ v' => Since v v') v := by
  refine silent_spec ?_
  cases b with
  | true => exact True.intro
  | false => exact ⟨fun _ _ => rfl, fun _ => True.intro⟩

/-- Only the copy of the window may be another one afterwards. -/
abbrev Keeps (tl : Local) (v₀ : View (rules set) c) (tl' : Local) (v : View (rules set) c) : Prop :=
  Since v₀ v ∧ tl'.index = tl.index

theorem readWindow_spec : wp (rules set) c (readWindow tl) (Keeps tl v) v :=
  wp.read fun _ h₁ => ⟨.of_le h₁, rfl⟩

theorem syncWindow_spec : wp (rules set) c (syncWindow tl) (Keeps tl v) v := by
  refine wp.bind_of check_spec fun version v₁ h₁ => ?_
  split
  · exact readWindow_spec.mono fun _ _ h => ⟨h₁.trans h.1, h.2⟩
  · exact ⟨h₁, rfl⟩

theorem tryShift_spec {max : ℕ} : wp (rules set) c (tryShift tl max) (Keeps tl v) v := by
  refine wp.bind_of check_spec fun version v₁ h₁ => ?_
  split
  · refine wp.bind_of exchange_spec fun r v₂ h₂ => ?_
    cases r with
    | some copy => exact ⟨h₁.trans h₂, rfl⟩
    | none => exact readWindow_spec.mono fun _ _ h => ⟨(h₁.trans h₂).trans h.1, h.2⟩
  · exact ⟨h₁, rfl⟩

theorem enter_spec (hf : Fits types set.randomHops set.width) {contention : Bool}
    (hi : tl.index < set.width) :
    wp (rules set) c (enter set contention tl) (fun tl' v' => Since v v' ∧
      tl'.index < set.width) v := by
  refine wp.bind_of syncWindow_spec ?_
  rintro tl' v₁ ⟨h₁, htl⟩
  split
  · refine wp.bind_of (randomIndex_rely hf.modulus) ?_
    rintro index v₂ ⟨h₂, hidx⟩
    exact ⟨h₁.trans (.of_le h₂), hidx⟩
  · exact ⟨h₁, htl.trans_lt hi⟩

/-- The node of the descriptor is read first. -/
theorem readDescriptor_spec {idx : ℕ} : wp (rules set) c (readDescriptor idx)
    (fun d v' => Since v v' ∧ Saw idx d.node v') v :=
  wp.read fun v₁ h₁ => wp.read fun _ h₂ => ⟨.of_le (h₁.trans h₂), v₁, .of_le h₂, rfl⟩

/-- What a search starts a round with. -/
structure Searching (v₀ : View (rules set) c) (st : Search) (v : View (rules set) c) : Prop where
  since : Since v₀ v
  scan : Scan set.randomHops set.width (fun _ => True) st.tl.index st.random st.hops

/-- A search starts a new round with another window. -/
theorem Searching.again {v₀ v' : View (rules set) c} {st : Search} (h : Searching v₀ st v)
    {tl' : Local} {e : Bool} (hk : Keeps st.tl v tl' v') :
    Searching v₀ { st with hops := 0, tl := tl', empty := e } v' :=
  ⟨h.since.trans hk.1, .start (hk.2.trans_lt h.scan.lt)⟩

/-- What a search returns. -/
abbrev FoundTop (v₀ : View (rules set) c) (r : Descriptor × Local) (v : View (rules set) c) :
    Prop :=
  Found Descriptor.node Local.index set.width v₀ r v

theorem putRound_spec (hf : Fits types set.randomHops set.width) {v₀ : View (rules set) c}
    {st : Search} (h : Searching v₀ st v) : wp (rules set) c (putRound set st) (fun r v' =>
      Sum.elim (fun st' => Searching v₀ st' v') (fun a => FoundTop v₀ a v') r) v := by
  refine wp.bind_of readDescriptor_spec ?_
  rintro d v₁ ⟨h₁, hsaw⟩
  refine wp.bind_of check_spec fun version v₂ h₂ => ?_
  have hs : Searching v₀ st v₂ := ⟨h.since.trans (h₁.trans h₂), h.scan⟩
  split
  · exact wp.bind_of readWindow_spec fun tl' v₃ h₃ => hs.again h₃
  · split
    · exact ⟨hs.since, hs.scan.lt, hsaw.since h₂⟩
    · split
      next hh =>
        refine wp.bind_of (hop_rely hf hs.scan True.intro hh) ?_
        rintro ⟨index, random, hops⟩ v₃ ⟨h₃, hscan⟩
        exact ⟨hs.since.trans (.of_le h₃), hscan⟩
      next => exact wp.bind_of tryShift_spec fun tl' v₃ h₃ => hs.again h₃

theorem getRound_spec (hf : Fits types set.randomHops set.width) {v₀ : View (rules set) c}
    {st : Search} (h : Searching v₀ st v) : wp (rules set) c (getRound set st) (fun r v' =>
      Sum.elim (fun st' => Searching v₀ st' v') (fun a => FoundTop v₀ a v') r) v := by
  refine wp.bind_of readDescriptor_spec ?_
  rintro d v₁ ⟨h₁, hsaw⟩
  refine wp.bind_of check_spec fun version v₂ h₂ => ?_
  have hs : Searching v₀ st v₂ := ⟨h.since.trans (h₁.trans h₂), h.scan⟩
  split
  · exact wp.bind_of readWindow_spec fun tl' v₃ h₃ => hs.again h₃
  · split
    · exact ⟨hs.since, hs.scan.lt, hsaw.since h₂⟩
    · split
      next hh =>
        refine wp.bind_of (hop_rely hf hs.scan True.intro hh) ?_
        rintro ⟨index, random, hops⟩ v₃ ⟨h₃, hscan⟩
        exact ⟨hs.since.trans (.of_le h₃), hscan⟩
      next =>
        split
        · exact ⟨hs.since, hs.scan.lt, hsaw.since h₂⟩
        · refine wp.bind_of assert_spec fun _ v₃ h₃ => wp.bind_of tryShift_spec fun tl' v₄ h₄ => ?_
          exact hs.again ⟨h₃.trans h₄.1, h₄.2⟩

theorem putWindow_found (hf : Fits types set.randomHops set.width) (hi : tl.index < set.width)
    (contention : Bool) :
    wp (rules set) c (putWindow set contention tl) (FoundTop v) v := by
  refine wp.bind_of (enter_spec hf hi) ?_
  rintro tl' v₁ ⟨h₁, hidx⟩
  exact wp.forever (fun st v' => Searching v st v') ⟨h₁, .start hidx⟩ fun _ _ h =>
    putRound_spec hf h

theorem getWindow_found (hf : Fits types set.randomHops set.width) (hi : tl.index < set.width)
    (contention : Bool) :
    wp (rules set) c (getWindow set contention tl) (FoundTop v) v := by
  refine wp.bind_of (enter_spec hf hi) ?_
  rintro tl' v₁ ⟨h₁, hidx⟩
  exact wp.forever (fun st v' => Searching v st v') ⟨h₁, .start hidx⟩ fun _ _ h =>
    getRound_spec hf h

/-! ### The calls -/

/-- The exchange of a descriptor is one of the top. -/
theorem mem_exchange (idx : ℕ) (new : Descriptor) (s : State) :
    mem (({ s.1 with setArray := Function.update s.1.setArray idx new }, s.2) : State) =
      (mem s).setTop idx new.node := by
  show LinkedStacks.Memory.mk _ _ _ _ _ = LinkedStacks.Memory.mk _ _ _ _ _
  congr
  funext j
  exact Function.apply_update (fun _ => Descriptor.node) s.1.setArray idx new j

theorem pushCae_spec {d : Descriptor} {idx n count : ℕ} {val : ℤ} (hi : idx < set.width)
    (h : Prepared call val n d.node 0 v) :
    wp (rules set) c (stackCae idx d ⟨some n, count⟩).onFst
      (fun done v' => if done then Model.Done v' (some 1) else Prepared call val n d.node 0 v')
      v := by
  refine wp.cae_fst (fun v₁ h₁ he _ => ?_) fun v₁ h₁ _ => h.since (.of_le h₁)
  obtain ⟨g, hall, hd⟩ := (h.since (.of_le h₁)).commits hi (congrArg Descriptor.node he)
    (mem_exchange idx ⟨some n, count⟩ v₁.state) True.intro
  exact ⟨g, hall, hd⟩

theorem popCae_spec {d : Descriptor} {idx n count : ℕ} {next : Option ℕ} (hi : idx < set.width)
    (hd : d.node = some n) (h : Popping call v) (hl : Linked n v)
    (hnext : (mem v.state).next n = next) :
    wp (rules set) c (stackCae idx d ⟨next, count⟩).onFst
      (fun done v' => if done then Took n v' else Popping call v')
      v := by
  refine wp.cae_fst (fun v₁ h₁ he _ => ?_) fun v₁ h₁ _ => h.since (.of_le h₁)
  have hnext₁ : (mem v₁.state).next n = next := ((grows_since (.of_le h₁)).next n hl).trans hnext
  obtain ⟨g, hall, ht⟩ := (h.since (.of_le h₁)).commits hi ((congrArg Descriptor.node he).trans hd)
    ((mem_exchange idx ⟨next, count⟩ v₁.state).trans (by rw [hnext₁]))
  exact ⟨g, hall, ht⟩

theorem push_commits (hf : Fits types set.randomHops set.width) (hi : tl.index < set.width)
    {val : ℤ} (hcall : v.now.1.calls[c.op]? = some (Call.push val)) (hu : Model.Undone v) :
    wp (rules set) c (push set val tl) (fun r v' => Model.Done v' (some r.2) ∧
      r.1.index < set.width) v := by
  refine wp.bind_of (create_spec (fun s => ⟨rfl, Treiber.linked_create _ _ val⟩) hcall rfl hu)
    fun n v₁ h₁ => ?_
  show wp (rules set) c (pushLoop (putWindow set) (fun d => (setNext n d.node).onFst)
    (fun d tl => (stackCae tl.index d ⟨some n, d.count + 1⟩).onFst) tl) _ v₁
  refine (pushLoop_spec (fun b tl v hi => putWindow_found hf hi b)
    (fun d next v h => setNext_spec (fun _ => Treiber.linked_setNext _ _ n d.node) h)
    (fun d tl v hi h _ => pushCae_spec hi h) hi h₁).mono ?_
  rintro ⟨tl', r⟩ v₂ ⟨hd, rfl, hi⟩
  exact ⟨hd, hi⟩

theorem pop_commits (hf : Fits types set.randomHops set.width) (hi : tl.index < set.width)
    (h : Popping call v) :
    wp (rules set) c (pop set tl) (fun r v' => Model.Answered v' call r.2 ∧
      r.1.index < set.width) v := by
  show wp (rules set) c (popLoop Descriptor.node (getWindow set)
    (fun n => Prog.read fun s : State => (s.1.mem.heap n).next)
    (fun d tl next => (stackCae tl.index d ⟨next, Words.usub 64 d.count 1⟩).onFst)
    (fun n => Prog.read fun s : State => (s.1.mem.heap n).val) tl) _ v
  refine (popLoop_spec (fun b tl v hi => getWindow_found hf hi b)
    (fun n v h hl => readNext_spec (fun _ => rfl) h hl)
    (fun d tl n next v hi hd h hl hn => popCae_spec hi hd h hl hn)
    (fun n v h => readVal_spec (fun _ => rfl) h) hi h).mono ?_
  rintro ⟨tl', r⟩ v₁ ⟨ha, hi⟩
  refine ⟨?_, hi⟩
  cases r <;> exact ha

theorem stack_linear (hf : Fits types set.randomHops set.width) :
    Linear (S := (object set).service) (model interface set.width free) (fun _ => True)
      (fun _ l _ => l.index < set.width) (initial set) ⟨fun _ => 0, ∅⟩ .zero := by
  refine linear rfl hf.width_pos (fun c call val l v hcall hc hu hl => ?_) fun c call l v h hl => ?_
  · cases call with
    | pop => cases hc
    | push val' =>
      obtain rfl : val' = val := Option.some.inj hc
      exact wp.bind_of (push_commits hf hl hcall hu) fun _ _ h => h
  · cases call with
    | push val => cases h.pops
    | pop => exact pop_commits hf hl h

end Specs

/-- For any number of threads and any order of their steps, `width` stacks explain the calls, and
they are the linked stacks of the array. -/
theorem optimizedStack_linearizable (depth : ℕ) {width : ℕ} (hw : 0 < width) (hw' : width < 2 ^ 16)
    {P : Pool (object (params width depth)).service}
    (hr : Reachable (initial (params width depth)) .zero P) :
    ∃ log x, Linearizes (spec interface width) P.world log ∧ (spec interface width).Run log x ∧
      ∀ j, ∃ line, Represents (x j) j (mem P.world.shared) line := by
  have hf : Fits types (params width depth).randomHops (params width depth).width :=
    .of_lt hw hw' (by decide : 2 < 2 ^ 8) rfl rfl
  obtain ⟨log, x, g, hlog, hx, line, hi⟩ := (stack_linear hf).linearizes hr
  exact ⟨log, x, hlog, hx, fun j => ⟨line j, hi.path j, hi.vals j⟩⟩

/-- The answer of a call. -/
def answer {set : Params} (P : Pool (object set).service) (op : ℕ) : Option (Option ℤ) :=
  (P.world.returned op).map Prod.fst

/-- A pop comes between the search and the exchange of a second push, which has to search again. -/
theorem optimizedStack_linearizable_two :
    ∃ P : Pool (object (params 2 2)).service, answer P 2 = some (some 7) ∧
    ∃ log x, Linearizes (spec interface 2) P.world log ∧ (spec interface 2).Run log x ∧
      ∀ j, ∃ line, Represents (x j) j (mem P.world.shared) line := by
  have h : (((Pool.init (object (params 2 2)).service (initial (params 2 2)) .zero).exec
    (List.flatten [
      [.invoke 0 (Call.push 7)], List.replicate 11 (.step 0 1), [.invoke 0 (Call.push 8)],
      List.replicate 7 (.step 0 1),
      [.invoke 1 Call.pop], List.replicate 11 (.step 1 0), List.replicate 12 (.step 0 1)])).any
      fun P =>
        decide (answer P 2 = some (some 7))) = true := by
    decide +kernel
  obtain ⟨P, hP, h⟩ := Pool.exec_of_check h
  exact ⟨P, of_decide_eq_true h, optimizedStack_linearizable 2 (by decide) (by decide)
    (Pool.exec_reach hP (fun _ _ _ _ => True.intro) .init)⟩

end AsStacks

end TwoDcOptimized
