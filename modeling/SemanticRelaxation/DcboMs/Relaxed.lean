import SemanticRelaxation.DcboMs.Linear
import SemanticRelaxation.DcboMs.Emptiness

/-!
# The d-CBO queue over Michael-Scott queues is a relaxed queue (`src/dcbo-ms/d-balanced-queue.c`)

An enqueue puts its value behind one of the sub-queues and a dequeue takes the first value of one of
them, at one moment each. The answer `EMPTY` belongs to a moment in the past, the end of the last
first loop of the double collect, when the head and the tail of each sub-queue were at one node.
Behind such a tail there may be one more node, which an enqueue has linked; so at that moment each
sub-queue holds at most one value.

* `anyQueue`: how the calls use the sub-queues;
* `msBalanced_linearizable`: in every run with values other than 0 the calls are explained by such
  queues.
-/

namespace DcboMs

open AtomicProg Linked MichaelScott

/-- A call uses any of the `w` queues. A dequeue may find nothing when none of them holds more than
one value. -/
def anyQueue (w : ℕ) : Uses Dcbo.Call where
  puts call _ val := call = .enqueue val
  gets call _ := call = .dequeue
  misses call x := call = .dequeue ∧ ∀ q < w, (x q).length ≤ 1

variable {set : Dcbo.Params}

/-- The protocol of the d-CBO queue. -/
abbrev balancedProtocol (set : Dcbo.Params) :
    Protocol (Dcbo.service partialMs set)
      ((ℕ → ℕ) × Account (queues (anyQueue set.width) set.width)) :=
  protocol (Dcbo.service partialMs set).code (anyQueue set.width) set.width (· ≠ 0)

variable {c : Caller} {v v₁ : View (balancedProtocol set) c} {q : ℕ}

/-- A queue whose head and tail are at one node holds at most one value. -/
theorem Clear.content_le {w : ℕ} {good : ℤ → Prop} {s : Memory} (hi : Inv w good s) (hq : q < w)
    (h : Clear q s) : (content s q).length ≤ 1 := by
  have hnear : (s.tail q).count + 1 = (s.cells.line q).length ∨
    (s.tail q).count + 2 = (s.cells.line q).length :=
    hi.valid.near q hq
  have h : (s.head q).count = (s.tail q).count := h
  unfold content
  rw [List.length_map, List.length_drop]
  omega

/-- What a dequeue knows that was made when the history had `ℓ` entries. -/
structure Asked (ℓ : ℕ) (r : ℤ) (v : View (balancedProtocol set) c) : Prop where
  pending : r = Dcbo.EMPTY → Pending Dcbo.Call.dequeue v
  done : r ≠ Dcbo.EMPTY → Model.Done v r
  made : (Model.hist v).since c.op = some ℓ

theorem Asked.since {ℓ : ℕ} {r : ℤ} (h : Asked ℓ r v) (h₁ : Since v v₁) : Asked ℓ r v₁ where
  pending hr := (h.pending hr).since h₁
  done hr := (h.done hr).since h₁
  made := (h₁.frame.mark c.op rfl).trans h.made

/-- The partial queues provide what the double collect needs, and the double collect keeps the
history. -/
def emptinessKept (set : Dcbo.Params) (c : Caller) (ℓ : ℕ) :
    Dcbo.Emptiness (balancedProtocol set) c partialMs set.width where
  mono u u' := Grows u.1.shared.store u'.1.shared.store ∧ u.2.2.log <+: u'.2.2.log
  refl u := ⟨.refl _, List.prefix_refl _⟩
  trans h₁ h₂ := ⟨h₁.1.trans h₂.1, h₁.2.trans h₂.2⟩
  of_le h := ⟨plain_grows h, (View.frame_op h).log⟩
  answer := Asked ℓ
  stable _ _ _ h ha := ha.since (.of_le h)
  version q u := (u.1.shared.tail q).count
  clear q u := Clear q u.1.shared
  version_mono q _ _ _ _ _ hg := hg.1.put q
  clear_mono _ hq _ _ _ hi hg he hc := hc.later hq hi.1.stands.1 hg.1 he
  deqCount _ _ := .read _
  tailVersion q _ v ha := by
    intro v₁ h₁ _ _
    exact wp.same (k := .ret) ⟨⟨h₁.1, plain_grows h₁, (View.frame_op h₁).log⟩, ha.since (.of_le h₁),
      (plain_grows h₁).put q, le_rfl⟩
  dequeue q hq v ha := by
    have hp := ha.pending rfl
    refine (msDequeue_commits true hq rfl (fun h => absurd h.symm Bool.false_ne_true) hp).mono
      fun r v' h => ?_
    have hmade := h.goes.made.trans ha.made
    refine ⟨⟨h.goes.seen, h.goes.grows, h.goes.log⟩, ?_, fun hr he => ?_⟩
    · rcases h.answer with ⟨hd, hgood⟩ | ⟨-, hr, hp', -⟩
      · exact ⟨fun hr => absurd hr (hgood rfl), fun _ => hd, hmade⟩
      · exact ⟨fun _ => hp', fun hne => absurd hr hne, hmade⟩
    · rcases h.answer with ⟨-, hgood⟩ | ⟨-, -, -, u, -, hg₁, hg₂, hclear⟩
      · exact absurd hr (hgood rfl)
      · refine hclear.later hq (inv_of (plain v')) hg₂ (le_antisymm (hg₂.put q) ?_)
        exact he.symm.le.trans (hg₁.put q)

theorem enqueue_commits (hw : 0 < set.width) {val : ℤ} (hval : val ≠ 0)
    (h : Pending (Dcbo.Call.enqueue val) v) :
    wp (balancedProtocol set) c (Dcbo.enqueue partialMs set c val ())
      (fun x v' => Model.Done v' x.2) v := by
  have hread : ∀ j < set.width, Dcbo.ReadOnly (balancedProtocol set) c
    (Dcbo.enqHeuristic partialMs j) := fun j _ =>
    (Dcbo.ReadOnly.read _).bind fun _ => .ret _
  refine wp.bind (Dcbo.randomIndex_spec hw fun i v₁ h₁ hi => ?_)
  refine wp.bind (hread i hi v₁ _ fun x v₂ h₂ => ?_)
  refine wp.bind (Dcbo.chooseIndex_spec hw hread _ hi fun k v₃ h₃ hk => ?_)
  have hp := h.since (.of_le (h₁.trans (h₂.trans h₃)))
  exact wp.bind_of (msEnqueue_commits hk rfl hval hp) fun r v' hd => hd

theorem dequeue_commits (hw : 0 < set.width) (hmax : set.width ≤ 2 ^ 31)
    (h : Pending Dcbo.Call.dequeue v) (hmade : (Model.hist v).since c.op = some
      (Model.log v).length) :
    wp (balancedProtocol set) c (Dcbo.dequeue partialMs set c)
      (fun r v' => Model.Done v' r ∨ Model.Recalls v' Dcbo.Call.dequeue r) v := by
  refine ((emptinessKept set c _).dequeue_found hw hmax ⟨fun _ => h, fun hr => absurd rfl hr,
    hmade⟩).mono ?_
  rintro r v' ⟨-, hask, hfound⟩
  by_cases hr : r = Dcbo.EMPTY
  · obtain ⟨u, hu, h₁, h₂, hclear⟩ := hfound hr
    obtain ⟨more, hmore⟩ := h₂.2
    obtain ⟨hinv, hst⟩ := Model.stands v' hu
    refine .inr ⟨(hask.pending hr).undone, u.2.2.log, more, hmore.symm,
      .inr (.inr ⟨⟨rfl, fun q hq => ?_⟩, hr, rfl⟩),
      _, hask.made, h₁.2.length_le⟩
    rw [← hst q hq]
    exact (hclear q hq).content_le hinv hq
  · exact .inl (hask.done hr)

theorem balanced_linear (hw : 0 < set.width) (hmax : set.width ≤ 2 ^ 31) :
    Linear (S := Dcbo.service partialMs set) (model (anyQueue set.width) set.width (· ≠ 0))
      (fun call : Dcbo.Call => ∀ val, call = .enqueue val → val ≠ 0) (fun _ _ _ => True)
      (initial set.width)
      (fun _ => 0) () where
  init := ⟨inv_initial _ _, fun _ _ => rfl⟩
  init_fresh _ _ := List.not_mem_nil
  init_loc _ := True.intro
  loc_later _ _ _ _ _ _ _ _ _ _ _ h := h
  code t op call l v hcall hok _ hf hu hmade := by
    cases call with
    | enqueue val => exact (enqueue_commits hw (hok val rfl) ⟨hcall, hu, hf⟩).mono fun _ _ h =>
        ⟨.inl h, True.intro⟩
    | dequeue =>
      exact wp.bind_of (dequeue_commits hw hmax ⟨hcall, hu, hf⟩ hmade) fun _ _ h => ⟨h, True.intro⟩

/-- If no 0 is enqueued, a history of `set.width` queues explains every run: each call takes effect
on one of them at one moment, and what the history leads to is what is linked behind the heads. -/
theorem msBalanced_linearizable {set : Dcbo.Params} (hw : 0 < set.width) (hmax : set.width ≤ 2 ^ 31)
    {p : Pool (Dcbo.service partialMs set)}
    (hr : Reach (fun (call : Dcbo.Call) _ => ∀ val, call = .enqueue val → val ≠ 0) (fun _ _ => True)
      (initial set.width) () p) : ∃ log x, Linearizes (queues
      (anyQueue set.width) set.width) p.world log ∧
        (queues (anyQueue set.width) set.width).Run log x ∧ ∀ q < set.width,
        content p.world.shared q = x q := by
  obtain ⟨log, x, g, hlog, hx, -, hc⟩ := (balanced_linear hw hmax).linearizes hr
  exact ⟨log, x, hlog, hx, hc⟩

/-- Two sub-queues: a dequeue takes the 7, and a second one collects both sub-queues twice. -/
theorem msBalanced_linearizable_two : ∃ p : Pool (Dcbo.service partialMs ⟨2, 1⟩),
    (p.world.returned 1 = some ((7 : ℤ), 2) ∧ p.world.returned 2 = some ((0 : ℤ), 3)) ∧ ∃ log x,
      Linearizes (queues (anyQueue 2) 2) p.world log ∧ (queues (anyQueue 2) 2).Run log x ∧
        ∀ q < 2, content p.world.shared q = x q := by
  have h : (((Pool.init (Dcbo.service partialMs ⟨2, 1⟩) (initial 2) ()).exec (List.flatten [
      [.invoke 0 (Dcbo.Call.enqueue 7)], List.replicate 11 (.step 0 0),
      [.invoke 1 Dcbo.Call.dequeue],
      List.replicate 14 (.step 1 0), [.invoke 1 Dcbo.Call.dequeue],
        List.replicate 32 (.step 1 0)])).any fun p =>
        decide (p.world.returned 1 = some ((7 : ℤ), 2) ∧ p.world.returned 2 = some ((0 : ℤ), 3))) =
          true := by
    decide +kernel
  obtain ⟨p, hp, hc⟩ := Pool.exec_of_check h
  refine ⟨p, of_decide_eq_true hc, @msBalanced_linearizable ⟨2, 1⟩ (by decide) (by decide) p
    (Pool.exec_reach hp ?_ .init)⟩
  intro t call hm _ val hval
  subst hval
  simp only [List.flatten_cons, List.flatten_nil, List.mem_append, List.mem_singleton,
    List.mem_replicate, Move.invoke.injEq,
    reduceCtorEq, and_false, List.not_mem_nil, or_false, Dcbo.Call.enqueue.injEq] at hm
  omega

end DcboMs
