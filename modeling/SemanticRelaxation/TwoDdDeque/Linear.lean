import SemanticRelaxation.TwoDdDeque.Calls

/-!
# The 2Dd-deque is an array of linearizable deques

* `subDeque_linearizable`: the exchanges of anchors are a legal history of each deque, which
  explains the answers; the nodes that the pointers lead through, from either end, are what is in
  the deque;
* `anchor_freed`: an anchor is freed once. It is not in place, unless a push lost the exchange of
  its link.
-/

namespace TwoDdDeque

open AtomicProg Deques

/-! ### The obligations -/

/-- A call that returned with an answer took effect before any call that was made later. -/
def results (set : Params) : Results (dequeService set) (regime set) where
  holds op _ r k x := (r = none ∧ Quiet op x.1) ∨ ∃ y, r = some y ∧ ∃ h₁ e h₂,
    x.1.hist = h₁ ++ e :: h₂ ∧ e.op = op ∧
    y = answerOf x.1.val e ∧ ∀ e' ∈ h₁, e'.op < k
  later op _ r k calls _ s s' hi _ hk h := by
    have hi : Inv set calls s.1 := hi
    have hk : Kept set (.op op) s.1 s'.1 := hk
    rcases h with ⟨rfl, hq⟩ | ⟨y, rfl, h₁, e, h₂, hhist, hop, hy, hlt⟩
    · exact .inl ⟨rfl, hq.later (c := ⟨0, op⟩) hk⟩
    · obtain ⟨rest, hrest⟩ := hk.hist
      have he : e ∈ s.1.hist := by
        rw [hhist]
        exact List.mem_append_right _ (List.mem_cons_self ..)
      refine .inr ⟨y, rfl, h₁, e, h₂ ++ rest, ?_, hop, hy.trans ?_, hlt⟩
      · rw [← hrest, hhist, List.append_assoc]
        rfl
      · cases e with
        | push d a i n => rfl
        | pop d a i n => exact (hk.val n (hi.book.pops d a i n he).1).symm

/-- The index that a thread starts with. -/
theorem start_within {set : Params} (threadId : ℕ) :
    threadId % set.numThreads * (set.width / set.numThreads) < set.width := by
  have hw := set.width_pos
  rcases Nat.eq_zero_or_pos set.numThreads with hz | hpos
  · rw [hz, Nat.div_zero, Nat.mul_zero]
    exact hw
  · by_cases hd : set.width / set.numThreads = 0
    · rw [hd, Nat.mul_zero]
      exact hw
    · calc threadId % set.numThreads * (set.width / set.numThreads)
          < set.numThreads * (set.width / set.numThreads) :=
            Nat.mul_lt_mul_of_pos_right (Nat.mod_lt _ hpos) (Nat.pos_of_ne_zero hd)
        _ ≤ set.width := Nat.mul_div_le _ _

section Specs

variable {set : Params} {E : Results (dequeService set) (regime set)} {c : Caller}
  {v v₁ : View E.protocol c}

theorem registered_spec {l : Option Local} (hl : ∀ tl ∈ l, Within set tl) :
    wp E.protocol c (registered set l) (fun tl v' => v ≤ v' ∧ Within set tl) v := by
  cases l with
  | some tl => exact ⟨le_rfl, hl tl rfl⟩
  | none =>
    exact wp.choose fun threadId v₁ h₁ => ⟨h₁, start_within threadId⟩

theorem ended_of_le {r : Option ℤ} (h : v ≤ v₁) (he : Ended c.op r v.state) :
    Ended c.op r v₁.state := by
  rcases he with ⟨hr, hq⟩ | ⟨x, hr, he⟩
  · exact .inl ⟨hr, hq.later (kept_op h)⟩
  · exact .inr ⟨x, hr, effect_of_le h he⟩

/-- What a call leaves. -/
def Leaves (set : Params) (c : Caller) (x : Option Local × Option ℤ) (v : View E.protocol c) :
    Prop :=
  (∀ tl ∈ x.1, Within set tl) ∧ Ended c.op x.2 v.state

theorem leaves_some {tl : Local} {r : Option ℤ} (htl : Within set tl) (he : Ended c.op r v.state) :
    Leaves set c (some tl, r) v := by
  refine ⟨?_, he⟩
  rintro k hk
  obtain rfl := Option.some.inj hk
  exact htl

theorem code_spec {call : Call} {l : Option Local} (hcall : v.now.1.calls[c.op]? = some call)
    (hl : ∀ tl ∈ l, Within set tl) (hq : Quiet c.op v.state) :
    wp E.protocol c (code set c call l) (fun x v' => Leaves set c x v') v := by
  have hpush : ∀ {d val tl} {v : View E.protocol c}, v.now.1.calls[c.op]? = some (.push d val) →
    Quiet c.op v.state →
      Within set tl → wp E.protocol c (push set c d val tl >>= fun x => .ret (some x.1, x.2))
        (fun x v' => Leaves set c x v') v := fun hcall hq htl =>
    wp.bind_of (push_spec hcall hq htl) fun x v' h => leaves_some h.1 (.inr h.2)
  have hpop : ∀ {d tl} {v : View E.protocol c}, v.now.1.calls[c.op]? = some (.pop d) →
    Quiet c.op v.state →
      Within set tl → wp E.protocol c (pop set c d tl >>= fun x => .ret (some x.1, x.2))
        (fun x v' => Leaves set c x v') v := fun hcall hq htl =>
    wp.bind_of (pop_spec hcall hq htl) fun x v' h => leaves_some h.1 h.2
  unfold code
  refine wp.bind_of (registered_spec hl) fun tl v₁ ⟨h₁, htl⟩ => ?_
  have hcall₁ := (Since.of_le h₁).call hcall
  have hq₁ : Quiet c.op v₁.state := hq.later (kept_op h₁)
  cases call with
  | push d value =>
    cases d with
    | left => exact hpush hcall₁ hq₁ htl
    | right => exact hpush hcall₁ hq₁ htl
  | pop d =>
    cases d with
    | left => exact hpop hcall₁ hq₁ htl
    | right => exact hpop hcall₁ hq₁ htl

end Specs

theorem deque_obligations (set : Params) :
    Obligations (results set) (fun _ => True) (fun _ l _ => ∀ tl ∈ l, Within set tl)
      (fun c _ x v => Leaves set c x v) (initial set) () none where
  init := .init set
  init_fresh _ := nofun
  init_loc _ := nofun
  loc_later _ _ _ _ _ _ _ _ _ h := h
  post_stable _ _ _ _ _ hle h := ⟨h.1, ended_of_le hle h.2⟩
  code _ _ _ _ _ _ hcall _ hl hq := code_spec hcall hl hq
  finish c call l r v h := by
    obtain ⟨hl, hend⟩ := h
    refine ⟨fun k hk => ?_, hl⟩
    rcases hend with ⟨hr, hq⟩ | ⟨x, hr, e, he, hop, hx⟩
    · exact .inl ⟨hr, hq⟩
    · obtain ⟨h₁, h₂, hhist⟩ := List.append_of_mem he
      refine .inr ⟨x, hr, h₁, e, h₂, hhist, hop, hx, fun e' he' => ?_⟩
      by_contra hge
      have hmem : e' ∈ v.state.hist := by
        rw [hhist]
        exact List.mem_append_left _ he'
      exact hk e'.op (not_lt.1 hge) e' hmem rfl

theorem inv_of_reachable {set : Params} {P : Pool (dequeService set)}
    (hr : Reachable (initial set) none P) :
    Inv set P.world.calls P.world.shared := by
  obtain ⟨_, hi, -⟩ := (deque_obligations set).implements.inv hr
  exact hi

/-! ### What is in a deque -/

/-- The call that an operation belongs to. -/
def callOf (val : ℕ → ℤ) : Event → Call
  | .push d _ _ n => .push d (val n)
  | .pop d _ _ _ => .pop d

/-- The history explains a run: each call takes effect at most once, with what it was called with,
each answer is the one of its operation, a call that reports that there is no item has none, and a
call that returned before another was made takes effect before it. -/
structure Explains {set : Params} (w : World (dequeService set)) : Prop where
  once : (w.shared.hist.map Event.op).Nodup
  called : ∀ e ∈ w.shared.hist, w.calls[e.op]? = some (callOf w.shared.val e)
  answered : ∀ op x k, w.returned op = some (some x, k) → ∃ e ∈ w.shared.hist, e.op = op ∧
    x = answerOf w.shared.val e
  empty : ∀ op k, w.returned op = some (none, k) → ∀ e ∈ w.shared.hist, e.op ≠ op
  order : ∀ a x k b, w.returned a = some (some x, k) → k ≤ b →
    ∃ h₁ e h₂, w.shared.hist = h₁ ++ e :: h₂ ∧ e.op = a ∧ ∀ e' ∈ h₁, e'.op ≠ b

/-- The links towards the end `d`, with the link that is missing while the anchor is not stable. -/
def Memory.completed (s : Memory) (i : ℕ) (d : Side) (n : ℕ) : Option ℕ :=
  match (s.now i).ends d with
  | none => s.link d n
  | some k => if (s.now i).state = .push d ∧ s.link d.other k = some n then some k else s.link d n

/-- The pointers lead from the node `p` through the nodes of the list to the node `last`. -/
def Spans (next : ℕ → Option ℕ) (last : Option ℕ) : Option ℕ → List ℕ → Prop
  | p, [] => p = none ∧ last = none
  | p, [n] => p = some n ∧ last = some n
  | p, n :: m :: ns => p = some n ∧ Spans next last (next n) (m :: ns)

theorem spans_of_next {next : ℕ → Option ℕ} {ns : List ℕ} (h : ∀ a b, Next ns a b →
      next a = some b) :
    Spans next ns.getLast? ns.head? ns := by
  induction ns with
  | nil => exact ⟨rfl, rfl⟩
  | cons n ns ih =>
    cases ns with
    | nil => exact ⟨rfl, rfl⟩
    | cons m ns =>
      refine ⟨rfl, ?_⟩
      have hnext : next n = some m := h n m (next_cons.2 (.inl ⟨rfl, rfl⟩))
      have hrest := ih fun a b hab => h a b (next_cons.2 (.inr hab))
      rw [hnext, List.getLast?_cons_cons]
      exact hrest

/-- The pointers away from the end `d` lead through the list. -/
theorem Linked.spans {s : Memory} {i : ℕ} {xs : List ℕ} (h : Linked s i xs) (d : Side) :
    Spans (s.completed i d.other) ((s.now i).ends d.other) ((s.now i).ends d) (d.look xs) := by
  have hlast : (s.now i).ends d.other = (d.look xs).getLast? := by
    rw [h.ends, Side.look_other, List.head?_reverse]
  rw [hlast, h.ends d]
  refine spans_of_next fun a b hab => ?_
  have hnodup : (d.other.look xs).Nodup := Side.nodup_look.2 h.nodup
  have hab' : Next (d.other.look xs) b a := next_other.2 hab
  unfold Memory.completed
  cases hst : (s.now i).state with
  | stable =>
    have hlink := h.link_of_stable hst hab'
    cases he : (s.now i).ends d.other with
    | none => exact hlink
    | some k =>
      show (if AnchorState.stable = .push d.other ∧ _ then some k else s.link d.other a) = some b
      rw [if_neg fun hp => nomatch hp.1]
      exact hlink
  | push d' =>
    obtain ⟨k, m, he, hb, hkm⟩ := h.pushed d' hst
    rcases Side.eq_or_other d d' with rfl | rfl
    · -- the missing link leads to the end `d`
      have hlink : s.link d'.other a = some b := by
        rcases h.links d'.other b a hab' with hlink | ⟨hp, -⟩
        · exact hlink
        · exact absurd (AnchorState.push.inj (hst.symm.trans hp)).symm (Side.other_ne d')
      cases he' : (s.now i).ends d'.other with
      | none => exact hlink
      | some k =>
        show (if AnchorState.push d' = .push d'.other ∧ _ then some k else s.link d'.other a) =
          some b
        rw [if_neg fun hp => absurd (AnchorState.push.inj hp.1).symm (Side.other_ne d')]
        exact hlink
    · rw [he]
      have hback : ∀ p q, Next (d.look xs) p q → s.link d q = some p := by
        intro p q hpq
        rcases h.links d p q hpq with hlink | ⟨hp, -⟩
        · exact hlink
        · exact absurd (AnchorState.push.inj (hst.symm.trans hp)) (Side.other_ne d)
      show (if AnchorState.push d.other = .push d.other ∧
        s.link d.other.other k = some a then some k
        else s.link d.other a) = some b
      rw [Side.other_other]
      have hk : s.link d k = some m := hback m k (next_other.1 hkm)
      by_cases hkb : k = b
      · subst hkb
        rw [if_pos ⟨rfl, hback a k hab⟩]
      · -- the new node is not next to `a`
        have hne : ¬ (AnchorState.push d.other = .push d.other ∧ s.link d k = some a) := by
          rintro ⟨-, hka⟩
          obtain rfl : m = a := Option.some.inj (hk.symm.trans hka)
          exact hkb (hkm.unique hnodup hab')
        rw [if_neg hne]
        rcases h.links d.other b a hab' with hlink | ⟨-, hb', -⟩
        · exact hlink
        · exact absurd (Option.some.inj (he.symm.trans hb')) hkb

/-- For any number of threads and any order of their steps: the exchanges of anchors are a legal
history of each deque of the array and explain the answers; the pointers from either end lead
through the nodes of the deque, if the link that a push has not yet set is completed. -/
theorem subDeque_linearizable {set : Params} {P : Pool (dequeService set)}
    (hr : Reachable (initial set) none P) :
    Explains P.world ∧ ∀ i < set.width, ∃ xs, content P.world.shared.hist i = some xs ∧ xs.Nodup ∧
      ∀ d, Spans (P.world.shared.completed i d.other) ((P.world.shared.now i).ends d.other)
        ((P.world.shared.now i).ends d) (d.look xs) := by
  obtain ⟨_, hi, hres, -⟩ := (deque_obligations set).implements.inv hr
  have hi : Inv set P.world.calls P.world.shared := hi
  refine ⟨⟨hi.book.ops, fun e he => ?_, fun op x k hop => ?_, fun op k hop => ?_,
    fun a x k b ha hk => ?_⟩,
    fun i hlt => ?_⟩
  · cases e with
    | push d a i n => exact (hi.book.pushes d a i n he).2
    | pop d a i n => exact (hi.book.pops d a i n he).2
  · obtain ⟨_, -, ⟨hnone, -⟩ | ⟨y, hy, h₁, e, h₂, hhist, he, hx, -⟩⟩ := hres op _ k hop
    · cases hnone
    · obtain rfl := Option.some.inj hy
      have hhist : P.world.shared.hist = h₁ ++ e :: h₂ := hhist
      refine ⟨e, ?_, he, hx⟩
      rw [hhist]
      exact List.mem_append_right _ (List.mem_cons_self ..)
  · obtain ⟨_, -, ⟨-, hq⟩ | ⟨y, hy, -⟩⟩ := hres op _ k hop
    · exact hq
    · cases hy
  · obtain ⟨_, -, ⟨hnone, -⟩ | ⟨y, -, h₁, e, h₂, hhist, he, -, hlt⟩⟩ := hres a _ k ha
    · cases hnone
    · exact ⟨h₁, e, h₂, hhist, he, fun e' he' => ((hlt e' he').trans_le hk).ne⟩
  · obtain ⟨xs, hxs, hl⟩ := hi.shape.deques i hlt
    exact ⟨xs, hxs, hl.nodup, hl.spans⟩

/-- A push has not set its link yet, when a pop at the other end sets it, and takes the node that
was there before. -/
theorem subDeque_linearizable_two : ∃ P : Pool (dequeService (createParams 1 1 2)),
    P.world.shared.hist = [.push .left 0 0 0, .push .right 1 0 1, .pop .left 2 0 0] ∧
    P.world.returned 2 = some (some 5, 3) ∧ P.world.returned 1 = none ∧
    Explains P.world ∧ ∀ i < (createParams 1 1 2).width, ∃ xs,
      content P.world.shared.hist i = some xs ∧ xs.Nodup ∧
      ∀ d, Spans (P.world.shared.completed i d.other) ((P.world.shared.now i).ends d.other)
        ((P.world.shared.now i).ends d) (d.look xs) := by
  have h : (((Pool.init (dequeService (createParams 1 1 2))
    (initial (createParams 1 1 2)) none).exec (List.flatten [
      [.invoke 0 (Call.push .left 5)], List.replicate 16 (.step 0 0),
      [.invoke 0 (Call.push .right 6)],
      List.replicate 20 (.step 0 0), [.invoke 1 (Call.pop .left)],
        List.replicate 40 (.step 1 0)])).any fun P =>
        decide (P.world.shared.hist = [.push .left 0 0 0, .push .right 1 0 1, .pop .left 2 0 0] ∧
          P.world.returned 2 = some ((some 5 : Option ℤ), 3)) && (P.world.returned 1).isNone) =
            true := by
    decide +kernel
  obtain ⟨P, hP, h⟩ := Pool.exec_of_check h
  obtain ⟨hrun, hnone⟩ := Bool.and_eq_true_iff.1 h
  obtain ⟨hhist, hret⟩ := of_decide_eq_true hrun
  exact ⟨P, hhist, hret, Option.isNone_iff_eq_none.1 hnone,
    subDeque_linearizable (Pool.exec_reach hP (fun _ _ _ _ => True.intro) .init)⟩

/-! ### The anchors that are freed -/

/-- The anchors of a run in which no push loses the exchange of its link while its anchor is in
place. -/
abbrev Unlost (set : Params) : Pool (dequeService set) → Prop :=
  Reach (fun _ _ => True) (fun _ s' => s'.lost = false) (initial set) none

theorem Unlost.reachable {set : Params} {P : Pool (dequeService set)} (hr : Unlost set P) :
    Reachable (initial set) none P ∧ P.world.shared.lost = false := by
  induction hr with
  | init => exact ⟨.init, rfl⟩
  | @invoke P₀ _ t c _ hc hm ih =>
    refine ⟨.invoke t c ih.1 hc hm, ?_⟩
    obtain ⟨l, -, rfl⟩ := Pool.invoke_cases hm
    exact ih.2
  | step t n _ hm ha ih => exact ⟨.step t n ih.1 hm True.intro, ha⟩

/-- For any number of threads and any order of their steps: no anchor is freed twice. While no push
loses the exchange of its link with its anchor in place, no anchor that is in place has been freed.
-/
theorem anchor_freed {set : Params} {P : Pool (dequeService set)} (hr : Unlost set P) :
    P.world.shared.freed.Nodup ∧ ∀ a ∈ P.world.shared.freed, ∀ i < set.width,
      P.world.shared.anchor i ≠ a := by
  obtain ⟨hreach, hlost⟩ := Unlost.reachable hr
  have hi := inv_of_reachable hreach
  refine ⟨hi.duties.nodup, fun a ha i hlt heq => ?_⟩
  obtain ⟨-, hl⟩ := hi.duties.live a ha i hlt heq
  rw [hlost] at hl
  cases hl

/-- The two calls of `subDeque_linearizable_two`, without the delay. -/
theorem anchor_freed_two : ∃ P : Pool (dequeService (createParams 1 1 2)),
    P.world.shared.freed = [0, 2, 3] ∧ P.world.shared.freed.Nodup ∧
    ∀ a ∈ P.world.shared.freed, ∀ i < (createParams 1 1 2).width, P.world.shared.anchor i ≠ a := by
  have h : (((Pool.init (dequeService (createParams 1 1 2))
    (initial (createParams 1 1 2)) none).execIf
      (fun _ s' => decide (s'.lost = false)) (List.flatten [
      [.invoke 0 (Call.push .left 5)], List.replicate 16 (.step 0 0),
      [.invoke 0 (Call.push .right 6)],
      List.replicate 26 (.step 0 0), [.invoke 1 (Call.pop .left)],
        List.replicate 19 (.step 1 0)])).any fun P =>
        decide (P.world.shared.freed = [0, 2, 3])) = true := by
    decide +kernel
  obtain ⟨P, hP, h⟩ := (Option.any_eq_true _ _).1 h
  exact ⟨P, of_decide_eq_true h, anchor_freed
    (Pool.execIf_reach (fun _ _ => of_decide_eq_true) hP (fun _ _ _ _ => True.intro) .init)⟩

/-- A pop sets the link of a push between the read and the exchange of the push. The push takes this
for the end of its own work, and frees the anchor that is still in place. -/
theorem anchor_freed_in_place : ∃ P : Pool (dequeService (createParams 1 1 2)),
    Reachable (initial (createParams 1 1 2)) none P ∧ P.world.shared.anchor 0 = 2 ∧
      2 ∈ P.world.shared.freed := by
  have h : (((Pool.init (dequeService (createParams 1 1 2))
    (initial (createParams 1 1 2)) none).exec (List.flatten [
      [.invoke 0 (Call.push .left 5)], List.replicate 16 (.step 0 0),
      [.invoke 0 (Call.push .right 6)],
      List.replicate 20 (.step 0 0), [.invoke 1 (Call.pop .left)], List.replicate 20 (.step 1 0),
      List.replicate 2 (.step 0 0)])).any fun P =>
        decide (P.world.shared.anchor 0 = 2 ∧ 2 ∈ P.world.shared.freed)) = true := by
    decide +kernel
  obtain ⟨P, hP, h⟩ := Pool.exec_of_check h
  exact ⟨P, Pool.exec_reach hP (fun _ _ _ _ => True.intro) .init, of_decide_eq_true h⟩

end TwoDdDeque
