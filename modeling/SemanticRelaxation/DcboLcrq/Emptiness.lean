import SemanticRelaxation.DcboLcrq.Balanced
import SemanticRelaxation.Prog.Solo

/-!
# `EMPTY` of the d-CBO queue over LCRQs

`lcrq_tail_version` puts the low halves of the index of the tail and of `items_enqueued` into one
word. As long as both are below `2 ^ 32` the version grows with every change of the tail, and a
queue that is `Clear` with a version stays clear as long as the version stays.

The early check of `lcrq_get` reads the tail of a closed ring as a negative number. If no ring
follows yet, it takes the ring for an empty one, whatever it holds.
-/

namespace DcboLcrq

open AtomicProg Linked Segments

/-- The counters of all rings fit into 32 bits. -/
def Small (w : ℕ) (s : Memory) : Prop :=
  ∀ q < w, ∀ n ∈ s.line q, (s.ring n).tail.index < 2 ^ 32 ∧ (s.ring n).itemsEnqueued < 2 ^ 32

/-- What is assumed of the memory: the versions are exact, and no dequeue has been misled. -/
def Plain (w : ℕ) (s : Memory) : Prop := Small w s ∧ s.misled = false

instance (w : ℕ) (s : Memory) : Decidable (Small w s) :=
  inferInstanceAs (Decidable (∀ q < w, ∀ n ∈ s.line q,
    (s.ring n).tail.index < 2 ^ 32 ∧ (s.ring n).itemsEnqueued < 2 ^ 32))

instance (w : ℕ) (s : Memory) : Decidable (Plain w s) :=
  inferInstanceAs (Decidable (Small w s ∧ s.misled = false))

/-- The value is not a reserved one, also when it is cut down to an `int`. -/
def Nonzero (call : Dcbo.Call) : Prop :=
  ∀ val, call = .enqueue val → val ≠ -1 ∧ val.bmod (2 ^ 32) ≠ 0

/-- What a call of the d-CBO queue enqueues. -/
def nonzero (call : Dcbo.Call) (val : ℤ) : Prop := call = .enqueue val ∧ Nonzero call

/-- The version of the tail of queue `q`. -/
def tailVersion (q : ℕ) (s : Memory) : ℕ :=
  (s.ring (s.chain.tail q)).tail.index + 2 ^ 32 * (s.ring (s.chain.tail q)).itemsEnqueued

variable {w size q : ℕ} {s s' : Memory} {set : Dcbo.Params}

/-- The version grows with every change of the tail. -/
theorem tailVersion_cases (h : Inv w size s) (h' : Inv w size s') (hs : Small w s)
    (hg : Grown w size s s') (hq : q < w) :
    tailVersion q s < tailVersion q s' ∨
      tailPair q s = tailPair q s' ∧ tailVersion q s = tailVersion q s' := by
  have ht := h.valid.getElem?_tail hq
  have ht' := h'.valid.getElem?_tail hq
  have hev := hg.ring hq ht
  have hitems := hev.items
  have htail := hev.tail
  have hidx := (hs q hq _ (List.mem_of_getElem? ht)).1
  unfold tailVersion
  rcases tailPair_le h h' hg hq with hlt | ⟨hpos, heq, hle⟩
  · have hmore := h'.items q hq _ _ _ _ (hg.getElem? ht) ht' hlt
    rw [hitems] at hmore
    have hmul := Nat.mul_le_mul_left (2 ^ 32) hmore
    rw [Nat.mul_succ] at hmul
    exact .inl (by omega)
  · unfold tailPair at hpos hle ⊢
    simp only [heq, hitems] at hpos hle ⊢
    rcases hle.lt_or_eq with hlt | hpair
    · exact .inl (by omega)
    · exact .inr ⟨Prod.ext hpos hpair, by rw [hpair]⟩

theorem tailVersion_mono (h : Inv w size s) (h' : Inv w size s') (hs : Small w s)
    (hg : Grown w size s s') (hq : q < w) : tailVersion q s ≤ tailVersion q s' := by
  rcases tailVersion_cases h h' hs hg hq with hlt | ⟨-, heq⟩
  · exact hlt.le
  · exact heq.le

theorem tailPair_of_version (h : Inv w size s) (h' : Inv w size s') (hs : Small w s)
    (hg : Grown w size s s') (hq : q < w) (he : tailVersion q s = tailVersion q s') :
    tailPair q s = tailPair q s' := by
  rcases tailVersion_cases h h' hs hg hq with hlt | ⟨heq, -⟩
  · exact absurd he hlt.ne
  · exact heq

/-- What remains true of the answers of the d-CBO queue. -/
def covering (set : Dcbo.Params) (size : ℕ) : Results (Dcbo.service (partialLcrq size) set)
    (regime Dcbo.Call set.width size (Plain set.width) nonzero) where
  holds op call _ _ x := Settled set.width size op x.1 ∧
    ∀ val, call = .enqueue val → ∃ q < set.width, Placed op q val x.1
  later op call _ _ _ _ x x' _ _ hk h := by
    refine ⟨h.1.kept hk, fun val hv => ?_⟩
    obtain ⟨q, hq, hp⟩ := h.2 val hv
    exact ⟨q, hq, hp.later hq hk.grown⟩

variable {c : Caller} {v v₁ v₂ : View (covering set size).protocol c}

/-- `lcrq_tail_version` returns a version between that at its beginning and that at its end. -/
theorem lcrqTailVersion_spec (hq : q < set.width) :
    wp (covering set size).protocol c (lcrqTailVersion q) (fun y v' => v ≤ v' ∧
      tailVersion q v.state ≤ y ∧ y ≤ tailVersion q v'.state) v := by
  refine wp.read fun v₁ h₁ => wp.read fun v₂ h₂ => wp.read fun v₃ h₃ => ?_
  have hg₂ := grown_of_le h₂
  have hg₃ := grown_of_le h₃
  have hn₁ := read_tail hq v₁
  have hn₂ := hg₂.getElem? hn₁
  have hev₂ := hg₂.ring hq hn₁
  have hev₃ := hg₃.ring hq hn₂
  have hsmall : ∀ u : View (covering set size).protocol c, Small set.width u.state := fun u =>
    (good_of u).1
  obtain ⟨hidx, hitems⟩ := hsmall v₂ q hq _ (List.mem_of_getElem? hn₂)
  rw [hev₃.items, Nat.mod_eq_of_lt hidx, Nat.mod_eq_of_lt hitems]
  refine ⟨h₁.trans (h₂.trans h₃), ?_, ?_⟩
  · refine (tailVersion_mono (inv_of v) (inv_of v₁) (hsmall v) (grown_of_le h₁) hq).trans ?_
    show tailVersion q v₁.state ≤ _
    have htail := hev₂.tail
    unfold tailVersion
    rw [hev₂.items]
    omega
  · refine le_trans ?_ (tailVersion_mono (inv_of v₂) (inv_of v₃) (hsmall v₂) hg₃ hq)
    have ht₂ := read_tail hq v₂
    rcases tailPair_le (inv_of v₁) (inv_of v₂) hg₂ hq with hlt | ⟨-, heq, -⟩
    · have hmore := (inv_of v₂).items q hq _ _ _ _ hn₂ ht₂ hlt
      have hmul := Nat.mul_le_mul_left (2 ^ 32) hmore
      rw [Nat.mul_succ] at hmul
      unfold tailVersion
      omega
    · unfold tailVersion
      rw [heq]

/-- The partial queue provides what the double collect needs. -/
def emptiness (hsize : 0 < size) (l : Option ℕ) :
    Dcbo.Emptiness (covering set size).protocol c (partialLcrq size) set.width where
  mono u u' := Grown set.width size u.1.shared u'.1.shared
  refl u := .refl _ _ _
  trans := Grown.trans
  of_le h := grown_of_le h
  answer r v := (Settled set.width size c.op v.state ∧
    (r = Dcbo.EMPTY → Wasted set.width size c.op v.state)) ∧ Handle set.width c.thread l v.pair
  stable r v v' h ha := by
    have hk := View.frame_op h
    exact ⟨⟨ha.1.1.kept hk, fun hr => (ha.1.2 hr).kept hk⟩, ha.2.kept (View.frame_thread h)⟩
  version q u := tailVersion q u.1.shared
  clear q u := Clear q u.1.shared
  version_mono q hq _ _ hu hu' hg := tailVersion_mono hu.1.1 hu'.1.1 hu.1.2.1.1 hg hq
  clear_mono q hq _ _ hu hu' hg he hc :=
    hc.later hu.1.1 hu'.1.1 hg hq (tailPair_of_version hu.1.1 hu'.1.1 hu.1.2.1.1 hg hq he)
  deqCount q _ := readOnly_deqCount q
  tailVersion q hq v ha := by
    refine (lcrqTailVersion_spec hq).mono ?_
    rintro y v' ⟨hle, h₁, h₂⟩
    have hk := View.frame_op hle
    exact ⟨⟨hle.1, grown_of_le hle⟩,
      ⟨⟨ha.1.1.kept hk, fun hr => (ha.1.2 hr).kept hk⟩, ha.2.kept (View.frame_thread hle)⟩, h₁, h₂⟩
  dequeue q hq v ha := by
    refine (dequeueWrap_spec hq hsize (ha.1.2 rfl)).mono ?_
    rintro r v' ⟨x, rfl, hl, hx⟩
    refine ⟨⟨hl.seen, hl.grown⟩, ⟨?_, ha.2.kept hl.thread⟩, fun hr hver => ?_⟩
    · rcases hx with ⟨hne, hgot⟩ | ⟨rfl, hw, -⟩
      · obtain ⟨e, call, -, rfl, hnz⟩ := hgot.source hq
        refine ⟨hgot.settled, fun hr => absurd hr ?_⟩
        rw [wrap, if_pos hne]
        exact (hnz x rfl).2
      · exact ⟨settled_of_wasted hw, fun _ => hw⟩
    · rcases hx with ⟨hne, hgot⟩ | ⟨rfl, -, hem⟩
      · obtain ⟨e, call, -, rfl, hnz⟩ := hgot.source hq
        rw [wrap, if_pos hne] at hr
        exact absurd hr (hnz x rfl).2
      · exact hem (good_of v').2 (tailPair_of_version (inv_of v) (inv_of v')
          (good_of v).1 hl.grown hq hver)

theorem covering_obligations (hw : 0 < set.width) (hmax : set.width ≤ 2 ^ 31) (hsize : 0 < size) :
    Obligations (covering set size) Nonzero (fun t l x => Handle set.width t l x)
      (fun c call x v => ((covering set size).holds c.op call x.2 0 v.pair ∧
        Handle set.width c.thread x.1 v.pair) ∧ (call = .dequeue → x.2 = Dcbo.EMPTY →
          ∃ u ∈ v.seen, ∀ q < set.width, Clear q u.1.shared))
      (initial set.width) (fun _ => .op 0) none where
  init := by
    refine ⟨.init _ _, ⟨fun q hq n hn => ?_, rfl⟩, nofun⟩
    exact ⟨Nat.two_pow_pos 32, Nat.two_pow_pos 32⟩
  init_fresh _ _ _ _ _ := ⟨nofun, nofun, nofun⟩
  init_loc _ := nofun
  loc_later _ _ _ _ _ _ _ _ hk h := h.kept hk
  post_stable c call x v v' h hp := by
    refine ⟨⟨(covering set size).later c.op call x.2 0 _ _ _ _ v.inv_pair v'.inv_pair
      (View.frame_op h) hp.1.1, hp.1.2.kept (View.frame_thread h)⟩, fun hc hr => ?_⟩
    obtain ⟨u, hu, hall⟩ := hp.2 hc hr
    exact ⟨u, h.1 hu, hall⟩
  code t op call l v _ hcall hok hl hf := by
    cases call with
    | enqueue val =>
      refine (enqueue_spec hw hsize (hok val rfl).1 ⟨_, hcall, rfl, hok⟩ hf hl).mono ?_
      rintro x v' ⟨k, hk, h⟩
      refine ⟨⟨⟨h.enqueued.2.settled, ?_⟩, h.handle⟩, nofun⟩
      rintro _ ⟨⟩
      exact ⟨k, hk, h.enqueued.1⟩
    | dequeue =>
      have hwaste : Wasted set.width size op v.state := Untouched.wasted hf
      refine wp.bind_of ((emptiness hsize l).dequeue_spec hw hmax
        ⟨⟨settled_of_wasted hwaste, fun _ => hwaste⟩, hl⟩) ?_
      exact fun r v' ⟨_, ha, hr⟩ => ⟨⟨⟨ha.1.1, nofun⟩, ha.2⟩, fun _ he => hr he⟩
  finish _ _ _ _ _ h := ⟨fun _ _ => h.1.1, h.1.2⟩

/-- The items of all enqueues that have returned have been removed, or are at indices that running
dequeues have got. -/
def Covered (w : ℕ) (u : World (Dcbo.service (partialLcrq size) set)) : Prop :=
  ∀ o val x, u.calls[o]? = some (Dcbo.Call.enqueue val) → u.returned o = some x →
    ∃ q < w, ∃ n ∈ u.shared.line q, ∃ h, (u.shared.ring n).stored h = some (o, val) ∧
      ((u.shared.ring n).taken h ≠ none ∨ ∃ d, (u.shared.ring n).claims h = some d ∧ u.Live d)

/-- A dequeue that answers `EMPTY` ran through a configuration in which the items of all enqueues
that had returned were removed or at indices got by running dequeues, provided there are at most `2
^ 31` sub-queues, no counter of a ring reaches `2 ^ 32`, no dequeue is misled by the early check,
and no value is -1 or a multiple of `2 ^ 32`. -/
theorem lcrqBalanced_empty {set : Dcbo.Params} {size : ℕ} (hw : 0 < set.width)
    (hmax : set.width ≤ 2 ^ 31) (hsize : 0 < size) {p : Pool (Dcbo.service (partialLcrq size) set)}
    (hr : Reach (fun (call : Dcbo.Call) _ => Nonzero call) (fun _ s' => Plain set.width s')
      (initial set.width) none p) {t op : ℕ} {l : Option ℕ}
    {seen : List (World (Dcbo.service (partialLcrq size) set))}
    (ht : p.thread t = .running op Dcbo.Call.dequeue seen (.ret (l, Dcbo.EMPTY))) :
    ∃ u ∈ seen, Covered set.width u := by
  obtain ⟨v, -, hsub, -, hpost⟩ := (covering_obligations hw hmax hsize).implements.returns hr ht
  obtain ⟨u, hu, hall⟩ := hpost rfl rfl
  refine ⟨u.1, hsub u hu, fun o val x hc hret => ?_⟩
  obtain ⟨⟨hinv, -⟩, hres, hfresh⟩ := v.inv u hu
  have hinv : Inv set.width size u.1.shared := hinv
  obtain ⟨r, k⟩ := x
  obtain ⟨call, hc', -, hp⟩ := hres o r k hret
  obtain rfl : Dcbo.Call.enqueue val = call := Option.some.inj (hc.symm.trans hc')
  obtain ⟨q, hq, pos, n, i, hn, hle, hst⟩ := hp val rfl
  have hring := hinv.ring_of hq hn
  have hlt : i < (u.1.shared.ring n).head := (hring.stored i o val hst).1.trans_le
    (hall q hq pos n hn hle)
  obtain ⟨d, hd⟩ := Option.isSome_iff_exists.1 ((hring.claimed i).2 hlt)
  have hmem := List.mem_of_getElem? hn
  refine ⟨q, hq, n, hmem, i, hst, ?_⟩
  cases hret' : u.1.returned d with
  | some x' =>
    obtain ⟨r', k'⟩ := x'
    obtain ⟨call', -, hset, -⟩ := hres d r' k' hret'
    rcases hset q hq n hmem i hd with htaken | ⟨hnone, -⟩
    · exact .inl fun he => Option.some_ne_none d (htaken.symm.trans he)
    · exact absurd (hst.symm.trans hnone) (Option.some_ne_none _)
  | none =>
    refine .inr ⟨d, hd, ?_, hret'⟩
    by_contra hge
    exact (hfresh d (not_lt.1 hge) q hq n hmem).claims_ne i hd

/-- One queue: `enqueue(7)` returns, a `dequeue` takes it, and a second one answers `EMPTY`. -/
theorem lcrqBalanced_empty_one : ∃ p : Pool (Dcbo.service (partialLcrq LCRQ_RING_SIZE) ⟨1, 1⟩),
    ∃ op l seen, p.thread 1 = .running op Dcbo.Call.dequeue seen (.ret (l, Dcbo.EMPTY)) ∧
      ∃ u ∈ seen, Covered 1 u := by
  have h : (((Pool.init (Dcbo.service (partialLcrq LCRQ_RING_SIZE) ⟨1, 1⟩) (initial 1) none).execIf
      (fun _ s' => decide (Plain 1 s')) (Move.invoke 0 (Dcbo.Call.enqueue 7) :: List.replicate 13
        (Move.step 0 0) ++
        Move.invoke 1 Dcbo.Call.dequeue :: List.replicate 15 (Move.step 1 0) ++
        Move.invoke 1 Dcbo.Call.dequeue :: List.replicate 21 (Move.step 1 0))).any fun p =>
      match (p.thread 1).result with
      | some (_, .dequeue, _, _, r) => decide (r = Dcbo.EMPTY)
      | _ => false) = true := by
    decide +kernel
  obtain ⟨p, hp, hc⟩ := (Option.any_eq_true _ _).1 h
  split at hc
  next op seen l r hres =>
    have ht := Thread.eq_of_result hres
    obtain rfl : r = Dcbo.EMPTY := of_decide_eq_true hc
    refine ⟨p, op, l, seen, ht, @lcrqBalanced_empty ⟨1, 1⟩ LCRQ_RING_SIZE (by decide) (by decide)
      (by decide) p (Pool.execIf_reach (fun _ _ => of_decide_eq_true) hp ?_ .init) 1 op l seen ht⟩
    intro t call hm _ val hv
    simp only [List.cons_append, List.mem_cons, List.mem_append, List.mem_replicate] at hm
    subst hv
    obtain ⟨-, rfl⟩ : t = 0 ∧ val = 7 := by simpa using hm
    decide
  next => cases hc

end DcboLcrq
