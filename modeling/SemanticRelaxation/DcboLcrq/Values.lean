import SemanticRelaxation.DcboLcrq.Balanced
import SemanticRelaxation.Dcbo.Answers

/-!
# The values of the d-CBO queue over LCRQs

`dequeue_wrap` returns an `int`, so only values that fit into 32 bits come back as they were
enqueued.

* `Removed w s d e`: the call `d` has removed the item of the call `e`;
* `Faithful w u`: no item is removed twice, and a dequeue that has returned has answered the value
  of the one item that it has removed, or `EMPTY` if it has removed none.
-/

namespace DcboLcrq

open AtomicProg Linked Segments

/-- The call `d` has removed the item of the call `e`. -/
def Removed (w : ℕ) (s : Memory) (d e : ℕ) : Prop :=
  ∃ q < w, ∃ n ∈ s.line q, ∃ h val, (s.ring n).stored h = some (e, val) ∧
    (s.ring n).taken h = some d

variable {w size : ℕ} {s : Memory}

/-- An item is removed by one call at most. -/
theorem Removed.unique (hi : Inv w size s) {d d' e : ℕ} (h : Removed w s d e)
    (h' : Removed w s d' e) :
    d = d' := by
  obtain ⟨q, hq, n, hn, i, val, hst, ht⟩ := h
  obtain ⟨q', hq', n', hn', i', val', hst', ht'⟩ := h'
  obtain ⟨rfl, rfl⟩ := hi.once q hq q' hq' n hn n' hn' i i' _ _ hst hst' rfl
  exact Option.some.inj (ht.symm.trans ht')

/-- A call that has got nothing of use has removed nothing. -/
theorem Wasted.not_removed {d e : ℕ} (hi : Inv w size s) (hw : Wasted w size d s) :
    ¬ Removed w s d e := by
  rintro ⟨q, hq, n, hn, i, val, hst, ht⟩
  have hclaim := ((hi.ring q hq n hn).taken i d ht).1
  rw [(hw q hq n hn i hclaim nofun).1] at hst
  cases hst

/-- A call that has removed something has removed one item. -/
theorem Got.removed {d q : ℕ} {r : ℤ} (hi : Inv w size s) (hq : q < w) (h : Got w size d q r s) :
    ∃ n ∈ s.line q, ∃ i e, (s.ring n).stored i = some (e, r) ∧ ∀ e', Removed w s d e' ↔ e' = e := by
  obtain ⟨n, i, e, hn, ht, hst, hrest⟩ := h
  refine ⟨n, hn, i, e, hst, fun e' => ⟨?_, ?_⟩⟩
  · rintro ⟨q', hq', n', hn', i', val, hst', ht'⟩
    have hclaim := ((hi.ring q' hq' n' hn').taken i' d ht').1
    by_cases he : (n', i') = (n, i)
    · cases he
      rw [hst] at hst'
      cases hst'
      rfl
    · rw [(hrest q' hq' n' hn' i' hclaim fun h => he (Option.some.inj h)).1] at hst'
      cases hst'
  · rintro rfl
    exact ⟨q, hq, n, hn, i, r, hst, ht⟩

/-- The values that come back as they are: neither 0 nor -1, and an `int`. -/
def Fits (call : Dcbo.Call) : Prop :=
  ∀ val, call = .enqueue val → val ≠ 0 ∧ val ≠ -1 ∧ val.bmod (2 ^ 32) = val

variable {set : Dcbo.Params}

/-- What a call of the d-CBO queue enqueues. -/
def fitting (call : Dcbo.Call) (val : ℤ) : Prop := call = .enqueue val ∧ Fits call

/-- What a dequeue knows that has got `r`. -/
def Answered (w size op : ℕ) (r : ℤ) (s : Memory) : Prop :=
  r ≠ Dcbo.EMPTY ∧ (∃ q < w, Got w size op q r s) ∨ r = Dcbo.EMPTY ∧ Wasted w size op s

theorem Answered.kept {op : ℕ} {r : ℤ} {x x' : Memory × Ghost} (h : Answered w size op r x.1)
    (hk : Kept w size (.op op) x x') : Answered w size op r x'.1 := by
  rcases h with ⟨hne, q, hq, hg⟩ | ⟨he, hw⟩
  · exact .inl ⟨hne, q, hq, hg.kept hq hk⟩
  · exact .inr ⟨he, hw.kept hk⟩

/-- What remains true of the answers of the d-CBO queue. -/
def answers (set : Dcbo.Params) (size : ℕ) : Results (Dcbo.service (partialLcrq size) set)
    (regime Dcbo.Call set.width size (fun _ => True) fitting) where
  holds op call r _ x := call = .dequeue → Answered set.width size op r x.1
  later _ _ _ _ _ _ _ _ _ _ hk h hc := (h hc).kept hk

variable {c : Caller}

/-- A dequeue of a sub-queue answers the value of the item it has removed. -/
def dequeueAnswers (hsize : 0 < size) (l : Option ℕ) :
    Dcbo.Answers (answers set size).protocol c (partialLcrq size) set.width where
  answer r v := Answered set.width size c.op r v.state ∧ Handle set.width c.thread l v.pair
  stable r v v' h ha := ⟨ha.1.kept (View.frame_op h), ha.2.kept (View.frame_thread h)⟩
  deqCount q _ := readOnly_deqCount q
  tailVersion q _ := readOnly_tailVersion q
  dequeue q hq v ha := by
    have hw : Wasted set.width size c.op v.state := by
      rcases ha.1 with ⟨hne, -⟩ | ⟨-, hw⟩
      · exact absurd rfl hne
      · exact hw
    refine (dequeueWrap_spec hq hsize hw).mono ?_
    rintro r v' ⟨x, rfl, hl, hx⟩
    refine ⟨?_, ha.2.kept hl.thread⟩
    rcases hx with ⟨hne, hgot⟩ | ⟨rfl, hw', -⟩
    · obtain ⟨e, call, -, rfl, hfits⟩ := hgot.source hq
      obtain ⟨hzero, -, hmod⟩ := hfits x rfl
      have hx : wrap x = x := by
        rw [wrap, if_pos hne, hmod]
      rw [hx]
      exact .inl ⟨hzero, q, hq, hgot⟩
    · exact .inr ⟨rfl, hw'⟩

theorem answers_obligations (hw : 0 < set.width) (hsize : 0 < size) :
    Obligations (answers set size) Fits (fun t l x => Handle set.width t l x)
      (fun c call x v => (answers set size).holds c.op call x.2 0 v.pair ∧
        Handle set.width c.thread x.1 v.pair)
      (initial set.width) (fun _ => .op 0) none where
  init := ⟨.init _ _, True.intro, nofun⟩
  init_fresh _ _ _ _ _ := ⟨nofun, nofun, nofun⟩
  init_loc _ := nofun
  loc_later _ _ _ _ _ _ _ _ hk h := h.kept hk
  post_stable c call x v v' h hp := ⟨fun hc => (hp.1 hc).kept (View.frame_op h),
    hp.2.kept (View.frame_thread h)⟩
  code t op call l v _ hcall hok hl hf := by
    cases call with
    | enqueue val =>
      refine (enqueue_spec hw hsize (hok val rfl).2.1 ⟨_, hcall, rfl, hok⟩ hf hl).mono ?_
      rintro x v' ⟨k, -, h⟩
      exact ⟨nofun, h.handle⟩
    | dequeue =>
      have hwaste : Answered set.width size op Dcbo.EMPTY v.state := .inr ⟨rfl, hf.wasted⟩
      refine wp.bind_of ((dequeueAnswers hsize l).dequeue_spec hw ⟨hwaste, hl⟩) fun r v' h => ?_
      exact ⟨fun _ => h.1, h.2⟩
  finish _ _ _ _ _ h := ⟨fun _ _ => h.1, h.2⟩

/-- No item has been removed twice; and a dequeue that has returned has answered the value of the
one item that it has removed, or `EMPTY` if it has removed none. -/
structure Faithful (w : ℕ) (u : World (Dcbo.service (partialLcrq size) set)) : Prop where
  once : ∀ d d' e, Removed w u.shared d e → Removed w u.shared d' e → d = d'
  answer : ∀ d r k, u.returned d = some (r, k) → u.calls[d]? = some Dcbo.Call.dequeue →
    r ≠ Dcbo.EMPTY ∧ (∃ e, u.calls[e]? = some (Dcbo.Call.enqueue r) ∧
      ∀ e', Removed w u.shared d e' ↔ e' = e) ∨
    r = Dcbo.EMPTY ∧ ∀ e, ¬ Removed w u.shared d e

/-- If all values fit into an `int`, every dequeue that has returned has answered the value of the
item that it has removed. -/
theorem lcrqBalanced_values {set : Dcbo.Params} {size : ℕ} (hw : 0 < set.width) (hsize : 0 < size)
    {p : Pool (Dcbo.service (partialLcrq size) set)}
    (hr : Reach (fun (call : Dcbo.Call) _ => Fits call) (fun _ _ => True)
      (initial set.width) none p) :
    Faithful set.width p.world := by
  obtain ⟨g, ⟨hinv, -, hsource⟩, hres, -⟩ := (answers_obligations hw hsize).implements.inv hr
  have hinv : Inv set.width size p.world.shared := hinv
  refine ⟨fun d d' e h h' => h.unique hinv h', fun d r k hret hcall => ?_⟩
  obtain ⟨call, hc, hans⟩ := hres d r k hret
  obtain rfl : Dcbo.Call.dequeue = call := Option.some.inj (hcall.symm.trans hc)
  rcases hans rfl with ⟨hne, q, hq, hgot⟩ | ⟨he, hwaste⟩
  · obtain ⟨n, hn, i, e, hst, hall⟩ := hgot.removed hinv hq
    obtain ⟨call, hcall, rfl, -⟩ := hsource q hq n hn i e r hst
    exact .inl ⟨hne, e, hcall, hall⟩
  · exact .inr ⟨he, fun e => hwaste.not_removed hinv⟩

/-- One queue: `enqueue(7)` returns, and a `dequeue` returns 7. -/
theorem lcrqBalanced_values_one : ∃ p : Pool (Dcbo.service (partialLcrq LCRQ_RING_SIZE) ⟨1, 1⟩),
    p.world.returned 1 = some (7, 2) ∧ Faithful 1 p.world := by
  have h : (((Pool.init (Dcbo.service (partialLcrq LCRQ_RING_SIZE) ⟨1, 1⟩) (initial 1) none).exec
      (Move.invoke 0 (Dcbo.Call.enqueue 7) :: List.replicate 13 (Move.step 0 0) ++
        Move.invoke 1 Dcbo.Call.dequeue :: List.replicate 15 (Move.step 1 0))).any fun p =>
      decide (p.world.returned 1 = some (7, 2))) = true := by
    decide +kernel
  obtain ⟨p, hp, hc⟩ := Pool.exec_of_check h
  refine ⟨p, of_decide_eq_true hc, @lcrqBalanced_values ⟨1, 1⟩ LCRQ_RING_SIZE (by decide)
    (by decide) p
    (Pool.exec_reach hp ?_ .init)⟩
  intro t call hm _ val hv
  simp only [List.cons_append, List.mem_cons, List.mem_append, List.mem_replicate] at hm
  subst hv
  obtain ⟨-, rfl⟩ : t = 0 ∧ val = 7 := by simpa using hm
  decide

/-- The values of the type `sval_t` that are not reserved. -/
def Unreserved (call : Dcbo.Call) : Prop :=
  ∀ val, call = .enqueue val → val ≠ 0 ∧ val ≠ -1 ∧ -2 ^ 63 ≤ val ∧ val < 2 ^ 63

/-- `enqueue(2^32)` returns, and a `dequeue` removes its item and answers `EMPTY`. -/
theorem lcrqBalanced_values_wide : ∃ p : Pool (Dcbo.service (partialLcrq LCRQ_RING_SIZE) ⟨1, 1⟩),
    Reach (fun (call : Dcbo.Call) _ => Unreserved call) (fun _ _ => True) (initial 1) none p ∧
      ¬ Faithful 1 p.world := by
  have h : (((Pool.init (Dcbo.service (partialLcrq LCRQ_RING_SIZE) ⟨1, 1⟩) (initial 1) none).exec
      (Move.invoke 0 (Dcbo.Call.enqueue (2 ^ 32)) :: List.replicate 13 (Move.step 0 0) ++
        Move.invoke 1 Dcbo.Call.dequeue :: List.replicate 27 (Move.step 1 0))).any fun p =>
      decide (p.world.returned 1 = some (0, 2) ∧ p.world.calls[1]? = some Dcbo.Call.dequeue ∧
        0 ∈ p.world.shared.line 0 ∧ (p.world.shared.ring 0).stored 0 = some (0, 2 ^ 32) ∧
        (p.world.shared.ring 0).taken 0 = some 1)) = true := by
    decide +kernel
  obtain ⟨p, hp, hc⟩ := Pool.exec_of_check h
  obtain ⟨hret, hcall, hline, hst, ht⟩ := of_decide_eq_true hc
  refine ⟨p, Pool.exec_reach hp ?_ .init, fun hf => ?_⟩
  · intro t call hm _ val hv
    simp only [List.cons_append, List.mem_cons, List.mem_append, List.mem_replicate] at hm
    subst hv
    obtain ⟨-, rfl⟩ : t = 0 ∧ val = 2 ^ 32 := by simpa using hm
    decide
  · have hremoved : Removed 1 p.world.shared 1 0 := ⟨0, Nat.zero_lt_one, 0, hline, 0, _, hst, ht⟩
    rcases hf.answer 1 0 2 hret hcall with ⟨hne, -⟩ | ⟨-, hnone⟩
    · exact hne rfl
    · exact hnone 0 hremoved

end DcboLcrq
