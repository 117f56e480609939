import SemanticRelaxation.DcboLcrq.Ring

/-!
# The invariant of the LCRQ

* `Inv`: the invariant of `w` queues with rings of `size` cells. A ring with a successor is closed,
  and every ring that the head pointer has left has had as many dequeues as enqueues;
* `Inv.of_rings`, `Inv.onRing`, `Inv.link`: the steps of the code keep it;
* `Grown`: how the memory changes;
* `Clear q s`: no index of queue `q` is left that an enqueue has got and no dequeue.
-/

namespace DcboLcrq

open AtomicProg Linked Segments

namespace Memory

variable (s : Memory)

/-- The rings of queue `q`. -/
abbrev line (q : ℕ) : List ℕ := s.chain.cells.line q

theorem ring_onRing (n : ℕ) (f : RingQueue → RingQueue) (k : ℕ) :
    (s.onRing n f).ring k = if k = n then f (s.ring n) else s.ring k := by
  by_cases hk : k = n
  · subst hk
    rw [if_pos rfl]
    exact s.chain.modify_self k f
  · rw [if_neg hk]
    exact s.chain.modify_of_ne hk f

theorem ring_link (q t n k : ℕ) : (s.onChain (·.link q t n)).ring k = s.ring k :=
  s.chain.link_seg q t n k

end Memory

/-- The call `op` has put its item into no ring of the `w` queues. -/
def Unplaced (w op : ℕ) (s : Memory) : Prop :=
  ∀ q < w, ∀ n ∈ s.line q, ∀ h x, (s.ring n).stored h = some x → x.1 ≠ op

/-- The invariant of `w` queues. -/
structure Inv (w size : ℕ) (s : Memory) : Prop where
  valid : Valid w s.chain
  ring : ∀ q < w, ∀ n ∈ s.line q, RingInv size (s.ring n)
  closed : ∀ q < w, ∀ p n : ℕ, (s.line q)[p]? = some n → p + 1 < (s.line q).length →
    (s.ring n).tail.mark = true
  head : ∀ q < w, ∀ p n : ℕ, (s.line q)[p]? = some n → p < s.chain.headPos q →
    (s.ring n).issued ≤ (s.ring n).head
  items : ∀ q < w, ∀ p p' n n' : ℕ, (s.line q)[p]? = some n → (s.line q)[p']? = some n' → p < p' →
    (s.ring n).itemsEnqueued < (s.ring n').itemsEnqueued
  once : ∀ q < w, ∀ q' < w, ∀ n ∈ s.line q, ∀ n' ∈ s.line q', ∀ h h' x x',
    (s.ring n).stored h = some x → (s.ring n').stored h' = some x' → x.1 = x'.1 → n = n' ∧ h = h'

variable {w size : ℕ} {s s' s'' : Memory} {q p n : ℕ}

namespace Inv

theorem init (w size : ℕ) : Inv w size (initial w) where
  valid := .init
  ring _ _ _ _ := .init size
  closed _ _ p n hn hp := absurd hp (Nat.not_lt.2 (Nat.le_add_left 1 p))
  head _ _ _ _ _ _ := le_rfl
  items q _ p p' _ _ hp hp' hlt := by
    have hlt' : p' < [q].length := (List.getElem?_eq_some_iff.1 hp').1
    rw [List.length_singleton] at hlt'
    omega
  once _ _ _ _ _ _ _ _ _ _ _ _ h := by cases h

variable (h : Inv w size s)
include h

theorem lt_fresh (hq : q < w) (hn : n ∈ s.line q) : n < s.chain.cells.fresh :=
  h.valid.lines.lt_fresh q hq n hn

theorem ring_of (hq : q < w) (hn : (s.line q)[p]? = some n) : RingInv size (s.ring n) :=
  h.ring q hq n (List.mem_of_getElem? hn)

/-- A step that leaves the rings of the queues alone. -/
theorem of_rings (hv : Valid w s'.chain) (hline : ∀ q, s'.line q = s.line q)
    (hring : ∀ q < w, ∀ n ∈ s.line q, s'.ring n = s.ring n)
    (hhead : ∀ q < w, ∀ p n : ℕ, (s.line q)[p]? = some n → p < s'.chain.headPos q →
      (s.ring n).issued ≤ (s.ring n).head) : Inv w size s' where
  valid := hv
  ring q hq n hn := by
    rw [hline] at hn
    rw [hring q hq n hn]
    exact h.ring q hq n hn
  closed q hq p n hn := by
    rw [hline] at hn ⊢
    rw [hring q hq n (List.mem_of_getElem? hn)]
    exact h.closed q hq p n hn
  head q hq p n hn := by
    rw [hline] at hn
    rw [hring q hq n (List.mem_of_getElem? hn)]
    exact hhead q hq p n hn
  items q hq p p' n n' hn hn' := by
    rw [hline] at hn hn'
    rw [hring q hq n (List.mem_of_getElem? hn), hring q hq n' (List.mem_of_getElem? hn')]
    exact h.items q hq p p' n n' hn hn'
  once q hq q' hq' n hn n' hn' := by
    rw [hline] at hn hn'
    rw [hring q hq n hn, hring q' hq' n' hn']
    exact h.once q hq q' hq' n hn n' hn'

/-- A step on a ring of a queue. At most the call `op` puts an item in, at the index `t`. -/
theorem onRing {f : RingQueue → RingQueue}
    (hf : RingInv size (f (s.ring n))) (he : Evolves size (s.ring n) (f (s.ring n))) (t op : ℕ)
    (hst : ∀ h x, (f (s.ring n)).stored h = some x →
      (s.ring n).stored h = some x ∨ h = t ∧ x.1 = op ∧ Unplaced w op s) :
    Inv w size (s.onRing n f) := by
  have hring := s.ring_onRing n f
  have hev : ∀ k, Evolves size (s.ring k) ((s.onRing n f).ring k) := by
    intro k
    rw [hring]
    split
    next e => exact e ▸ he
    next => exact .refl size _
  have hnew : ∀ k h x, ((s.onRing n f).ring k).stored h = some x →
      (s.ring k).stored h = some x ∨ k = n ∧ h = t ∧ x.1 = op ∧ Unplaced w op s := by
    intro k h x hx
    rw [hring] at hx
    split at hx
    next e =>
      subst e
      rcases hst h x hx with hx | ⟨h₁, h₂, h₃⟩
      · exact .inl hx
      · exact .inr ⟨rfl, h₁, h₂, h₃⟩
    next => exact .inl hx
  refine ⟨h.valid.modify n f, fun j hj k hk => ?_, fun j hj p k hk hp => ?_,
    fun j hj p k hk hp => ?_, fun j hj p p' k k' hk hk' hlt => ?_,
    fun j hj j' hj' k hk k' hk' i i' x x' hx hx' hxx => ?_⟩
  · rw [hring]
    split
    next => exact hf
    next => exact h.ring j hj k hk
  · exact (hev k).closed (h.closed j hj p k hk hp)
  · have hlt : p + 1 < (s.line j).length := lt_of_le_of_lt hp (h.valid.headPos_lt hj)
    rw [(hev k).frozen (h.closed j hj p k hk hlt)]
    exact (h.head j hj p k hk hp).trans (hev k).head
  · rw [(hev k).items, (hev k').items]
    exact h.items j hj p p' k k' hk hk' hlt
  · rcases hnew k i x hx with hx | ⟨rfl, rfl, rfl, hu⟩
    · rcases hnew k' i' x' hx' with hx' | ⟨-, -, rfl, hu⟩
      · exact h.once j hj j' hj' k hk k' hk' i i' x x' hx hx' hxx
      · exact absurd hxx (hu j hj k hk i x hx)
    · rcases hnew k' i' x' hx' with hx' | ⟨rfl, rfl, -, -⟩
      · exact absurd hxx.symm (hu j' hj' k' hk' i' x' hx')
      · exact ⟨rfl, rfl⟩

/-- A new ring behind the last one, which is closed. -/
theorem link {m t items : ℕ} (hq : q < w) (hn : (s.line q)[p]? = some n)
    (hle : p ≤ s.chain.tailPos q) (hnone : (s.chain.cells.heap n).next = none)
    (hm : Unlinked w s.chain.cells m) (hclosed : (s.ring n).tail.mark = true) {op : ℕ} {val : ℤ}
    (hval : val ≠ -1) (hring : s.ring m = initRing.prepare op val (items + t)) (ht : 0 < t)
    (hitems : (s.ring n).itemsEnqueued = items) (hop : Unplaced w op s) :
    Inv w size (s.onChain (·.link q n m)) := by
  have hv := h.valid.link hq hn hle hnone hm
  have hg : Grows (fun _ _ => True) w s.chain (s.onChain (·.link q n m)).chain :=
    h.valid.link_grows (fun _ => True.intro) q n m
  obtain ⟨-, hlast⟩ := h.valid.tail_of_last hq hn hle hnone
  have hentry : ∀ {j i k : ℕ}, ((s.onChain (·.link q n m)).line j)[i]? = some k →
      (s.line j)[i]? = some k ∨ j = q ∧ i = (s.line q).length ∧ k = m :=
    fun hk => @Cells.append_entry _ s.chain.cells _ (some n) _ _ _ _ hk
  have hmem : ∀ {j k : ℕ}, k ∈ (s.onChain (·.link q n m)).line j → k ∈ s.line j ∨ j = q ∧
    k = m := by
    intro j k hk
    obtain ⟨i, hi⟩ := List.mem_iff_getElem?.1 hk
    rcases hentry hi with hi | ⟨hj, -, hk⟩
    · exact .inl (List.mem_of_getElem? hi)
    · exact .inr ⟨hj, hk⟩
  -- the item of `op` is the only one of the new ring
  have honly : ∀ {i : ℕ} {x : ℕ × ℤ}, (s.ring m).stored i = some x → i = 0 ∧ x.1 = op := by
    intro i x hx
    rw [hring] at hx
    replace hx : Function.update (fun _ => none : ℕ → Option (ℕ × ℤ)) 0 (some (op, val)) i =
      some x := hx
    by_cases hi : i = 0
    · subst hi
      rw [Function.update_self] at hx
      cases hx
      exact ⟨rfl, rfl⟩
    · rw [Function.update_of_ne hi] at hx
      cases hx
  refine ⟨hv, fun j hj k hk => ?_, fun j hj i k hk hi => ?_, fun j hj i k hk hi => ?_,
    fun j hj i i' k k' hk hk' hlt => ?_, fun j hj j' hj' k hk k' hk' i i' x x' hx hx' hxx => ?_⟩
  · rw [s.ring_link]
    rcases hmem hk with hold | ⟨-, rfl⟩
    · exact h.ring j hj k hold
    · rw [hring]
      exact .prepare size op hval _
  · rw [s.ring_link]
    rcases hentry hk with hold | ⟨rfl, rfl, rfl⟩
    · by_cases hij : i + 1 < (s.line j).length
      · exact h.closed j hj i k hold hij
      · have hlt := (List.getElem?_eq_some_iff.1 hold).1
        by_cases hjq : j = q
        · subst hjq
          have hip : i = p := by
            have hlast : p + 1 = (s.line j).length := hlast
            omega
          rw [hip, hn] at hold
          cases hold
          exact hclosed
        · have hline : (s.onChain (·.link q n m)).line j = s.line j :=
            s.chain.cells.append_line_of_ne hjq (some n) m
          exact absurd (hline ▸ hi) hij
    · have hline : (s.onChain (·.link j n k)).line j = s.line j ++ [k] :=
        s.chain.cells.append_line_self j (some n) k
      rw [hline, List.length_append, List.length_singleton] at hi
      exact absurd hi (lt_irrefl _)
  · have hpos : (s.onChain (·.link q n m)).chain.headPos j = s.chain.headPos j :=
      pos_of_grown (hg.line j) (h.valid.head j hj)
    rw [hpos] at hi
    rw [s.ring_link]
    rcases hentry hk with hold | ⟨rfl, rfl, rfl⟩
    · exact h.head j hj i k hold hi
    · exact absurd hi (not_lt.2 (h.valid.headPos_lt hj).le)
  · rw [s.ring_link, s.ring_link]
    rcases hentry hk with hold | ⟨rfl, rfl, rfl⟩
    · rcases hentry hk' with hold' | ⟨rfl, rfl, rfl⟩
      · exact h.items j hj i i' k k' hold hold' hlt
      · have hnew : (s.ring n).itemsEnqueued < (s.ring k').itemsEnqueued := by
          rw [hring, hitems]
          exact Nat.lt_add_of_pos_right ht
        have hi := (List.getElem?_eq_some_iff.1 hold).1
        have hlast : p + 1 = (s.line j).length := hlast
        by_cases hip : i = p
        · rw [hip, hn] at hold
          cases hold
          exact hnew
        · exact (h.items j hj i p k n hold hn (by omega)).trans hnew
    · have hi : i' < (s.line j).length + 1 := by
        have hi := (List.getElem?_eq_some_iff.1 hk').1
        rwa [show (s.onChain (·.link j n k)).line j = s.line j ++ [k] from
          s.chain.cells.append_line_self j (some n) k, List.length_append,
            List.length_singleton] at hi
      exact absurd hi (by omega)
  · rw [s.ring_link] at hx hx'
    rcases hmem hk with hold | ⟨-, rfl⟩
    · rcases hmem hk' with hold' | ⟨-, rfl⟩
      · exact h.once j hj j' hj' k hold k' hold' i i' x x' hx hx' hxx
      · exact absurd (hxx.trans (honly hx').2) (hop j hj k hold i x hx)
    · rcases hmem hk' with hold' | ⟨-, rfl⟩
      · exact absurd (hxx.symm.trans (honly hx).2) (hop j' hj' k' hold' i' x' hx')
      · exact ⟨rfl, (honly hx).1.trans (honly hx').1.symm⟩

end Inv

/-! ### How the memory changes -/

/-- The queues have grown from `s` to `s'`. -/
structure Grown (w size : ℕ) (s s' : Memory) : Prop where
  chain : Grows (fun _ _ => True) w s.chain s'.chain
  rings : ∀ q < w, ∀ n ∈ s.line q, Evolves size (s.ring n) (s'.ring n)
  misled : s.misled = true → s'.misled = true

namespace Grown

theorem refl (w size : ℕ) (s : Memory) : Grown w size s s :=
  ⟨.refl (fun _ => True.intro) _, fun _ _ _ _ => .refl size _, id⟩

theorem mem (h : Grown w size s s') (hn : n ∈ s.line q) : n ∈ s'.line q := (h.chain.line q).mem hn

theorem trans (h : Grown w size s s') (h' : Grown w size s' s'') : Grown w size s s'' where
  chain := h.chain.trans (fun _ _ _ _ _ => True.intro) h'.chain
  rings q hq n hn := (h.rings q hq n hn).trans (h'.rings q hq n (h.mem hn))
  misled := h'.misled ∘ h.misled

theorem getElem? (h : Grown w size s s') (hn : (s.line q)[p]? = some n) :
    (s'.line q)[p]? = some n := h.chain.getElem? hn

theorem ring (h : Grown w size s s') (hq : q < w) (hn : (s.line q)[p]? = some n) :
    Evolves size (s.ring n) (s'.ring n) := h.rings q hq n (List.mem_of_getElem? hn)

theorem misled_false (h : Grown w size s s') (hm : s'.misled = false) : s.misled = false := by
  by_contra hne
  rw [h.misled (Bool.eq_true_of_not_eq_false hne)] at hm
  cases hm

end Grown

/-- The tail pointer of queue `q`, with the index of its ring. -/
def tailPair (q : ℕ) (s : Memory) :
    ℕ × ℕ := (s.chain.tailPos q, (s.ring (s.chain.tail q)).tail.index)

/-- No ring up to the tail has given out more indices to enqueues than to dequeues. -/
def Clear (q : ℕ) (s : Memory) : Prop :=
  ∀ p n : ℕ, (s.line q)[p]? = some n → p ≤ s.chain.tailPos q → (s.ring n).issued ≤ (s.ring n).head

/-- A queue stays clear as long as its tail does not change. -/
theorem Clear.later (h : Inv w size s) (h' : Inv w size s') (hg : Grown w size s s') (hq : q < w)
    (hpair : tailPair q s = tailPair q s') (hc : Clear q s) : Clear q s' := by
  obtain ⟨hpos, hidx⟩ := Prod.mk.inj hpair
  intro p n hn hle
  rw [← hpos] at hle
  have hlt : p < (s.line q).length := lt_of_le_of_lt hle (h.valid.tailPos_lt hq)
  have hn₀ : (s.line q)[p]? = some n := by
    have hsame := hg.getElem? (List.getElem?_eq_getElem hlt)
    rw [hn] at hsame
    rw [List.getElem?_eq_getElem hlt]
    exact hsame.symm
  have hev := hg.ring hq hn₀
  have hclear := hc p n hn₀ hle
  cases hm : (s.ring n).tail.mark with
  | true =>
    rw [hev.frozen hm]
    exact hclear.trans hev.head
  | false =>
    -- an open ring is the last one, so it is the tail
    have hlast : ¬ p + 1 < (s.line q).length := by
      intro hp
      rw [h.closed q hq p n hn₀ hp] at hm
      cases hm
    have htail := h.valid.tailPos_lt hq
    have htail : s.chain.tailPos q < (s.line q).length := htail
    obtain rfl : p = s.chain.tailPos q := by omega
    have htn : s.chain.tail q = n := Option.some.inj ((h.valid.getElem?_tail hq).symm.trans hn₀)
    have htn' : s'.chain.tail q = n := by
      have ht' := h'.valid.getElem?_tail hq
      rw [← hpos] at ht'
      exact Option.some.inj (ht'.symm.trans hn)
    rw [htn, htn'] at hidx
    have hissued := (h.ring_of hq hn₀).issued.2 hm
    have hissued' := (h'.ring_of hq hn).issued.1
    have hhead := hev.head
    omega

/-- The tail pair only grows. -/
theorem tailPair_le (h : Inv w size s) (h' : Inv w size s') (hg : Grown w size s s') (hq : q < w) :
    (tailPair q s).1 < (tailPair q s').1 ∨
      (tailPair q s).1 = (tailPair q s').1 ∧ s'.chain.tail q = s.chain.tail q ∧
        (tailPair q s).2 ≤ (tailPair q s').2 := by
  have ht := hg.chain.tail q hq
  rcases ht.lt_or_eq with hlt | heq
  · exact .inl hlt
  · have h₁ := hg.getElem? (h.valid.getElem?_tail hq)
    rw [heq, h'.valid.getElem?_tail hq] at h₁
    have htail : s'.chain.tail q = s.chain.tail q := Option.some.inj h₁
    refine .inr ⟨heq, htail, ?_⟩
    show _ ≤ (s'.ring (s'.chain.tail q)).tail.index
    rw [htail]
    exact (hg.ring hq (h.valid.getElem?_tail hq)).tail

end DcboLcrq
