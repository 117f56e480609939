import SemanticRelaxation.QueueKSegment.Pending
import Mathlib.Data.Prod.Lex

/-!
# Dequeues of the k-segment queue that run alone

* `Stuck`: the state from which a dequeue does not return alone. Its mark `pending_slot` is set, all
  items of the first segment are deleted, and there is another segment;
* `loop_total`: from all other states the loop of `get_pop_slot` is left. Each round moves the head
  on, or gets to the first segment, or looks at one more slot of it;
* `delete_lively`: the same at every step of a dequeue, whatever others have done before.
-/

namespace QueueKSegment

open AtomicProg Linked Segments RoundRobin

namespace Pending

variable {size k : ℕ} {c : Caller} {l : Pop} {s : Memory} {x : State} {n : Note} {α β : Type}

/-- The dequeue has met an empty slot, and the first segment is used up, but not the last one. -/
def Stuck (size : ℕ) (n : Note) (s : Memory) : Prop :=
  s.chain.head 0 ≠ s.chain.tail 0 ∧ s.Used size (s.chain.head 0) ∧
    (n.pending = true ∨ n.met = some (s.chain.head 0))

/-- The dequeue is stuck, and its own segment is used up as well. -/
def Blocked (size : ℕ) (n : Note) (s : Memory) : Prop :=
  Stuck size n s ∧ s.Used size n.segment ∧ n.segment ≠ s.chain.tail 0

/-- The note of a dequeue between two rounds of its loop. -/
def noted (l : Pop) : Note := ⟨l.currentSegment, l.pendingSlot, none⟩

theorem Note.Clean.not_stuck (h : n.Clean) : ¬ Stuck size n s := by
  rintro ⟨-, -, hpend | hmet⟩
  · exact absurd (h.1.symm.trans hpend) nofun
  · exact absurd (h.2.symm.trans hmet) nofun

/-- A segment that is not the last one is full. -/
theorem full_head (hi : Inv size s) (hne : s.chain.head 0 ≠ s.chain.tail 0) :
    s.Full size (s.chain.head 0) := by
  have hhead := hi.valid.getElem?_head Nat.one_pos
  have htail := hi.valid.getElem?_tail Nat.one_pos
  have hlen := (List.getElem?_eq_some_iff.1 htail).1
  have hlt : s.headPos < s.chain.tailPos 0 := by
    apply lt_of_le_of_ne hi.headTail
    intro he
    rw [← he, hhead] at htail
    exact hne (Option.some.inj htail)
  exact hi.full _ _ hhead (Nat.lt_of_le_of_lt hlt hlen)

/-! ### Steps of a dequeue that runs alone -/

/-- What holds while a dequeue runs alone. -/
abbrev Keeps (size : ℕ) : Contract State := .within fun x => Inv size x.1

/-- The state after a load with the note `n`. -/
def State.note (x : State) (c : Caller) (n : Note) : State := (x.1, Function.update x.2 c.thread n)

@[simp] theorem State.note_fst (x : State) (c : Caller) (n : Note) : (x.note c n).1 = x.1 := rfl

@[simp] theorem State.note_snd (x : State) (c : Caller) (n : Note) : (x.note c n).2 c.thread = n :=
  Function.update_self ..

theorem total_watch {R : α → State → Prop} {f : Memory → β} {g : Memory → Note → Note}
    {p : β → Prog State α} (hs : x.1 = s) (hn : x.2 c.thread = n)
    (h : Total (Keeps size) R (p (f s)) (x.note c (g s n))) :
    Total (Keeps size) R (watch c f g >>= p) x := by
  subst hs hn
  exact .act (fun _ _ => True.intro) fun _ _ => h

theorem total_randomSlot {R : α → State → Prop} {p : ℕ → Prog State α}
    (h : ∀ r, Total (Keeps size) R (p (r % size)) x) :
    Total (Keeps size) R ((randomSlot size).onFst >>= p) x :=
  .act (fun _ _ => True.intro) fun r _ => h r

theorem total_update {R : α → State → Prop} {f : Memory → β × Memory} {p : β → Prog State α}
    (hi : Inv size x.1) (h : Inv size (f x.1).2 → Total (Keeps size) R (p (f x.1).1)
      ((f x.1).2, x.2)) :
    Total (Keeps size) R ((Prog.update f).onFst >>= p) x :=
  .act (fun _ _ => True.intro) fun _ ha => h (ha hi)

/-! ### The loop of `get_pop_slot` -/

/-- The scan of a dequeue whose mark is set has met deleted items only. -/
def Scans (size : ℕ) (l : Pop) (k : ℕ) (s : Memory) : Prop :=
  l.pendingSlot = true → s.chain.head 0 ≠ s.chain.tail 0 → l.currentSegment = s.chain.head 0 →
    Scanned size (fun i => (s.index ⟨l.currentSegment, i⟩).deleted = true) (wrap size l.popSlot) k

/-- The slots that are left to the scan, or more than that before it has got to the first segment.
-/
def left (size : ℕ) (l : Pop) (k : ℕ) (s : Memory) : ℕ :=
  if l.currentSegment = s.chain.head 0 then
    if l.pendingSlot = true ∧ s.chain.head 0 ≠ s.chain.tail 0 then size - k else size - l.walkCount
  else size + 1

theorem left_le (h : l.currentSegment = s.chain.head 0) : left size l k s ≤ size := by
  unfold left
  rw [if_pos h]
  split <;> omega

/-- The scan that starts in another segment. -/
theorem Scans.start (hsize : 0 < size) (l : Pop) (s : Memory) : Scans size l 0 s :=
  fun _ _ _ => .start (wrap_lt hsize _)

/-- What a look at a slot starts with. -/
structure Looks (size : ℕ) (c : Caller) (l : Pop) (k : ℕ) (x : State) : Prop where
  inv : Inv size x.1
  note : x.2 c.thread = noted l
  free : ¬ Stuck size (noted l) x.1
  scan : Scans size l k x.1

/-- What a round starts with. -/
structure Round (size : ℕ) (c : Caller) (l : Pop) (k : ℕ) (x : State) : Prop
    extends Looks size c l k x where
  missed : 0 < l.walkCount → l.Missed

/-- What the loop ends with: no item, or one that is still there. -/
def Ends (size : ℕ) (l : Pop) (x : State) : Prop :=
  Inv size x.1 ∧ (l.Missed ∨ (x.1.index ⟨l.currentSegment, l.popSlot⟩).deleted = false)

/-- A scan that is not over, in a state that is not stuck. -/
theorem Looks.lt (h : Looks size c l k x) (hpend : l.pendingSlot = true)
    (hne : x.1.chain.head 0 ≠ x.1.chain.tail 0) (hcur : l.currentSegment = x.1.chain.head 0) :
    k < size := by
  by_contra hge
  have hall := (h.scan hpend hne hcur).all_of_le (not_lt.1 hge)
  refine h.free ⟨hne, fun i hi => ?_, .inl hpend⟩
  rw [← hcur]
  exact hall i hi

/-- A look at a slot: it finds an item, or the scan goes on in the first segment. -/
theorem look_total (hsize : 0 < size) (h : Looks size c l k x) : Total (Keeps size)
    (fun r x' => Sum.elim (fun l' => x'.1 = x.1 ∧ ∃ k', Round size c l' k' x' ∧
        l'.currentSegment = x.1.chain.head 0 ∧
          (l.currentSegment = x.1.chain.head 0 → left size l' k' x.1 ≤ left size l k x.1 ∧
            (l.pendingSlot = true → x.1.chain.head 0 ≠ x.1.chain.tail 0 →
              left size l' k' x.1 < left size l k x.1)))
      (fun l' => Ends size l' x') r) (look c size l) x := by
  have hinv := h.inv
  refine total_watch rfl h.note (total_watch (s := x.1) rfl (State.note_snd ..) ?_)
  set y : Slot := ⟨l.currentSegment, wrap size l.popSlot⟩ with hy
  by_cases hfound : (x.1.index y).node ≠ none ∧ (x.1.index y).deleted = false
  · rw [if_pos hfound]
    exact .ret ⟨hinv, .inr hfound.2⟩
  · rw [if_neg hfound]
    have hmiss : (x.1.index y).node = none ∨ (x.1.index y).deleted = true := by
      by_cases hn : (x.1.index y).node = none
      · exact .inl hn
      · exact .inr (by simpa [hn] using hfound)
    have hfind : Note.find (x.1.index y).node y x.1 (Note.meet y x.1 (noted l)) = Note.meet y x.1
      (noted l) :=
      if_neg hfound
    rw [hfind]
    refine total_watch (s := x.1) rfl (State.note_snd ..) ?_
    -- an empty slot in the first segment is met in the last segment only
    have hempty : l.currentSegment = x.1.chain.head 0 → x.1.chain.head 0 ≠ x.1.chain.tail 0 →
        (x.1.index y).node ≠ none := by
      intro hcur hne
      have hfull := full_head hinv hne (wrap size l.popSlot) (wrap_lt hsize _)
      rwa [← hcur] at hfull
    by_cases hcur : l.currentSegment = x.1.chain.head 0
    · rw [if_pos hcur]
      have hnote : Note.keep x.1 (Note.meet y x.1 (noted l)) =
          ⟨l.currentSegment, l.pendingSlot || decide ((x.1.index y).node = none), none⟩ := by
        simp [Note.keep, Note.meet, noted, hy, hcur]
      rw [hnote]
      have hpend : x.1.chain.head 0 ≠ x.1.chain.tail 0 →
          (l.pendingSlot || decide ((x.1.index y).node = none)) = l.pendingSlot := by
        intro hne
        rw [decide_eq_false (hempty hcur hne), Bool.or_false]
      refine .ret ⟨rfl, k + 1, ⟨⟨hinv, State.note_snd .., ?_, ?_⟩, fun _ => hmiss⟩, hcur,
        fun _ => ?_⟩
      · rintro ⟨hne, hused, hp | hp⟩
        · exact h.free ⟨hne, hused, .inl ((hpend hne).symm.trans hp)⟩
        · exact absurd hp nofun
      · intro hp hne _
        have hp' : l.pendingSlot = true := (hpend hne).symm.trans hp
        have hdel : (x.1.index y).deleted = true := by
          rcases hmiss with hn | hdel
          · exact absurd hn (hempty hcur hne)
          · exact hdel
        have hhop := (h.scan hp' hne hcur).hop hdel
        have hwrap : wrap size (wrap size l.popSlot + 1) = succ size (wrap size l.popSlot) := rfl
        rw [hwrap]
        exact hhop
      · unfold left
        simp only [if_pos hcur]
        by_cases hne : x.1.chain.head 0 = x.1.chain.tail 0
        · simp [hne]
        · rw [hpend hne]
          by_cases hp : l.pendingSlot = true
          · have hlt := h.lt hp hne hcur
            rw [if_pos ⟨hp, hne⟩, if_pos ⟨hp, hne⟩]
            omega
          · rw [if_neg fun e => hp e.1, if_neg fun e => hp e.1]
            exact ⟨le_rfl, fun e => absurd e hp⟩
    · rw [if_neg hcur]
      have hnote : Note.keep x.1 (Note.meet y x.1 (noted l)) = noted l := by
        simp [Note.keep, Note.meet, noted, hy, hcur]
      rw [hnote]
      refine total_watch (s := x.1) rfl (State.note_snd ..)
        (.ret ⟨rfl, 0, ⟨⟨hinv, State.note_snd .., ?_, ?_⟩, ?_⟩, rfl, ?_⟩)
      · rintro ⟨hne, hused, hp | hp⟩
        · exact h.free ⟨hne, hused, .inl hp⟩
        · exact absurd hp nofun
      · exact .start hsize _ _
      · intro hlt
        exact absurd hlt (lt_irrefl 0)
      · intro he
        exact absurd he hcur

theorem headCas_some (seg m : ℕ) : headCas seg (some m) =
    (Prog.update fun s : Memory => if s.chain.head 0 = seg then
      ((true, seg), s.onChain (·.setHead 0 m))
      else ((false, s.chain.head 0), s)) >>= fun _ => .ret () := rfl

/-- The head moves on if the segment is the first one. Otherwise nothing happens. -/
theorem headCas_total {R : α → State → Prop} {p : Unit → Prog State α} {seg : ℕ} (hi : Inv size s)
    (hs : x.1 = s) (hne : seg ≠ s.chain.tail 0)
    (hmove : ∀ s', Inv size s' → s'.chain.tailPos 0 - s'.headPos < s.chain.tailPos 0 - s.headPos →
      Total (Keeps size) R (p ()) (s', x.2))
    (hstay : seg ≠ s.chain.head 0 → Total (Keeps size) R (p ()) x) :
    Total (Keeps size) R ((headCas seg (s.chain.cells.heap seg).next).onFst >>= p) x := by
  subst hs
  by_cases hseg : seg = x.1.chain.head 0
  · subst hseg
    have hhead := hi.valid.getElem?_head Nat.one_pos
    have htail := hi.valid.getElem?_tail Nat.one_pos
    have hlt : x.1.headPos < x.1.chain.tailPos 0 := by
      apply lt_of_le_of_ne hi.headTail
      intro he
      rw [← he, hhead] at htail
      exact hne (Option.some.inj htail)
    have hlen : x.1.headPos + 1 < x.1.line.length :=
      Nat.lt_of_le_of_lt hlt (List.getElem?_eq_some_iff.1 htail).1
    obtain ⟨m, hm⟩ : ∃ m, x.1.line[x.1.headPos + 1]? = some m := ⟨_, List.getElem?_eq_getElem hlen⟩
    rw [hi.valid.next Nat.one_pos hhead, hm]
    rw [headCas_some, Prog.onFst_bind, Prog.bind_assoc]
    refine total_update hi ?_
    simp only [if_pos]
    intro hi'
    refine hmove _ hi' ?_
    have hpos : (x.1.onChain (·.setHead 0 m)).headPos = x.1.headPos + 1 := by
      apply hi'.valid.pos_eq Nat.one_pos
      have hhead' : (x.1.onChain (·.setHead 0 m)).chain.head 0 = m := by
        show Function.update x.1.chain.head 0 m 0 = m
        exact Function.update_self ..
      rw [hhead']
      exact hm
    have htailPos : (x.1.onChain (·.setHead 0 m)).chain.tailPos 0 = x.1.chain.tailPos 0 := rfl
    rw [hpos, htailPos]
    omega
  · have hstay' := hstay hseg
    cases (x.1.chain.cells.heap seg).next with
    | none =>
      refine total_update hi fun _ => ?_
      have hif : (if x.1.chain.head 0 = seg then ({ x.1 with null := true } : Memory) else x.1) =
        x.1 :=
        if_neg (Ne.symm hseg)
      show Total (Keeps size) R (p ())
        ((if x.1.chain.head 0 = seg then ({ x.1 with null := true } : Memory) else x.1), x.2)
      rw [hif]
      exact hstay'
    | some m =>
      rw [headCas_some, Prog.onFst_bind, Prog.bind_assoc]
      refine total_update hi ?_
      simp only [if_neg (Ne.symm hseg)]
      exact fun _ => hstay'

/-- A measure of what is left to the loop. -/
abbrev measure (size : ℕ) (l : Pop) (k : ℕ) (s : Memory) : ℕ ×ₗ ℕ :=
  toLex (s.chain.tailPos 0 - s.headPos, left size l k s)

/-- One round gets closer to the end. -/
theorem round_total (hsize : 0 < size) (h : Round size c l k x) : Total (Keeps size)
    (fun r x' => Sum.elim (fun l' => ∃ k', Round size c l' k' x' ∧
      measure size l' k' x'.1 < measure size l k x.1)
      (fun l' => Ends size l' x') r) (getPopSlotRound c size l) x := by
  have hinv := h.inv
  unfold getPopSlotRound
  by_cases hwalk : l.walkCount ≥ size
  · rw [if_pos hwalk]
    refine total_watch rfl h.note ?_
    by_cases htail : l.currentSegment = x.1.chain.tail 0
    · rw [if_pos htail]
      exact .ret ⟨hinv, .inl (h.missed (hsize.trans_le hwalk))⟩
    · rw [if_neg htail]
      have hnote : Note.leave l.currentSegment x.1 (noted l) = noted l := if_neg htail
      rw [hnote]
      by_cases hpend : l.pendingSlot = false
      · rw [if_pos hpend]
        refine total_watch (s := x.1) rfl (State.note_snd ..) ?_
        -- a scan of the segment that is the first one now
        have hlook : ∀ x' : State, x'.2 c.thread = noted l → Inv size x'.1 →
            (∀ k', toLex (x'.1.chain.tailPos 0 - x'.1.headPos, k') < measure size l k x.1 ∨
              size < k') →
            Total (Keeps size) (fun r x' => Sum.elim
              (fun l' => ∃ k', Round size c l' k' x' ∧
                measure size l' k' x'.1 < measure size l k x.1)
              (fun l' => Ends size l' x') r) (watch c (fun s => s.chain.head 0) Note.enter >>=
              fun head =>
                look c size { l with currentSegment := head, walkCount := 0 }) x' := by
          intro x' hn hi hlt
          refine total_watch rfl hn ?_
          have hround : Looks size c
            { l with currentSegment := x'.1.chain.head 0, walkCount := 0 } 0
              (x'.note c (Note.enter x'.1 (noted l))) :=
            ⟨hi, State.note_snd .., Note.Clean.not_stuck ⟨hpend, rfl⟩, .start hsize _ _⟩
          refine (look_total hsize hround).mono ?_
          rintro (l' | l') x'' hr
          · obtain ⟨he, k', hr', hcur, -⟩ := hr
            refine ⟨k', hr', ?_⟩
            rcases hlt (left size l' k' x''.1) with hlt | hlt
            · rw [he] at hlt ⊢
              exact hlt
            · rw [he] at hlt
              exact absurd (left_le hcur) (not_le.2 hlt)
          · exact hr
        refine headCas_total hinv rfl htail (fun s hi hlt => ?_) fun hcur => ?_
        · exact hlook _ (State.note_snd ..) hi fun k' => .inl (Prod.Lex.toLex_lt_toLex.2 (.inl hlt))
        · refine hlook _ (State.note_snd ..) hinv fun k' => ?_
          by_cases hk : size < k'
          · exact .inr hk
          · refine .inl (Prod.Lex.toLex_lt_toLex.2 (.inr ⟨rfl, ?_⟩))
            have hleft : left size l k x.1 = size + 1 := if_neg hcur
            rw [hleft]
            exact Nat.lt_succ_of_le (not_lt.1 hk)
      · rw [if_neg hpend]
        have hpend' : l.pendingSlot = true := Bool.of_not_eq_false hpend
        have hround : Looks size c l k (x.note c (noted l)) :=
          ⟨hinv, State.note_snd .., h.free, h.scan⟩
        refine (look_total hsize hround).mono ?_
        rintro (l' | l') x'' hr
        · obtain ⟨he, k', hr', hcur', hleft⟩ := hr
          refine ⟨k', hr', ?_⟩
          have he' : x''.1 = x.1 := he
          rw [measure, he']
          refine Prod.Lex.toLex_lt_toLex.2 (.inr ⟨rfl, ?_⟩)
          by_cases hcur : l.currentSegment = x.1.chain.head 0
          · exact (hleft hcur).2 hpend' fun e => htail (hcur.trans e)
          · have hl : left size l k x.1 = size + 1 := if_neg hcur
            have hle : left size l' k' x.1 ≤ size := left_le hcur'
            omega
        · exact hr
  · rw [if_neg hwalk]
    have hround : Looks size c { l with walkCount := l.walkCount + 1 } k x :=
      ⟨hinv, h.note, h.free, h.scan⟩
    refine (look_total hsize hround).mono ?_
    rintro (l' | l') x'' hr
    · obtain ⟨he, k', hr', hcur', hleft⟩ := hr
      refine ⟨k', hr', ?_⟩
      rw [measure, he]
      refine Prod.Lex.toLex_lt_toLex.2 (.inr ⟨rfl, ?_⟩)
      by_cases hcur : l.currentSegment = x.1.chain.head 0
      · obtain ⟨hle, hlt⟩ := hleft hcur
        by_cases hp : l.pendingSlot = true ∧ x.1.chain.head 0 ≠ x.1.chain.tail 0
        · have hlt' := hlt hp.1 hp.2
          unfold left at hlt' ⊢
          simp only [if_pos hcur, if_pos hp] at hlt' ⊢
          exact hlt'
        · unfold left at hle ⊢
          simp only [if_pos hcur, if_neg hp] at hle ⊢
          omega
      · have hl : left size l k x.1 = size + 1 := if_neg hcur
        have hle : left size l' k' x.1 ≤ size := left_le hcur'
        omega
    · exact hr

/-- The loop is left, from all states that are not stuck. -/
theorem loop_total (hsize : 0 < size) (hi : Inv size x.1) (hn : x.2 c.thread = noted l)
    (hfree : ¬ Stuck size (noted l) x.1) (hmiss : 0 < l.walkCount → l.Missed) :
    Total (Keeps size) (Ends size) (Prog.forever (getPopSlotRound c size) l) x := by
  -- the scan starts here, whatever has been looked at before
  have hround : Round size c l 0 x := ⟨⟨hi, hn, hfree, .start hsize _ _⟩, hmiss⟩
  refine Total.forever_ghost (fun m l x => ∃ k, Round size c l k x ∧ m = measure size l k x.1) ?_
    ⟨0, hround, rfl⟩
  rintro _ l x ⟨k, h, rfl⟩
  refine (round_total hsize h).mono ?_
  rintro (l' | l') x' hr
  · obtain ⟨k', hr', hlt⟩ := hr
    exact ⟨_, hlt, k', hr', rfl⟩
  · exact hr

theorem getPopSlot_total (hsize : 0 < size) (hi : Inv size x.1) :
    Total (Keeps size) (Ends size) (getPopSlot c size) x := by
  refine total_watch rfl rfl (total_randomSlot fun r => ?_)
  refine loop_total hsize hi (State.note_snd ..) ?_ fun h => absurd h (lt_irrefl 0)
  exact Note.Clean.not_stuck ⟨rfl, rfl⟩

theorem deletedCas_eq (y : Slot) : deletedCas c y =
    (Prog.update fun s : Memory => if (s.index y).deleted = false then
      ((true, false), s.delete c.op y)
      else ((false, (s.index y).deleted), s)) >>= fun r => .ret r.1 := rfl

/-- An item that is still there is taken. -/
theorem take_total (h : Ends size l x) :
    Total (Keeps size) (fun r _ => ∃ a, r = .inr a) (take c l) x := by
  unfold take
  cases hnode : l.currentNode with
  | none => exact .ret ⟨0, rfl⟩
  | some nodeVal =>
    by_cases hdel : l.deletedNode = true
    · simp only [if_pos hdel]
      exact .ret ⟨0, rfl⟩
    · simp only [if_neg hdel]
      have hthere : (x.1.index ⟨l.currentSegment, l.popSlot⟩).deleted = false := by
        rcases h.2 with (hmiss | hmiss) | hthere
        · rw [hnode] at hmiss
          cases hmiss
        · exact absurd hmiss hdel
        · exact hthere
      rw [deletedCas_eq, Prog.onFst_bind, Prog.bind_assoc]
      refine total_update h.1 fun _ => ?_
      rw [if_pos hthere]
      exact .ret ⟨nodeVal, rfl⟩

/-- A dequeue that starts now returns. -/
theorem delete_total (hsize : 0 < size) (hi : Inv size x.1) :
    Total (Keeps size) (fun _ _ => True) (queueRelaxedDelete c size) x := by
  refine Total.forever_once (Total.bind_of (getPopSlot_total hsize hi) fun l x' h => ?_)
  refine (take_total h).mono ?_
  rintro _ _ ⟨a, rfl⟩
  exact ⟨a, rfl, True.intro⟩

/-! ### A dequeue under way -/

/-- Whatever is left of a dequeue of the thread `t` returns alone from the states that are not
stuck. -/
abbrev Alive (size t : ℕ) (R : α → State → Prop) (Q : α → Note → Prop) :
    Prog State α → Note → Prop :=
  Lively (fun x => Inv size x.1) (fun x => x.2 t) (fun n x => ¬ Stuck size n x.1)
    (fun n x => Blocked size n x.1) R Q

section Rules

variable {R : α → State → Prop} {Q : α → Note → Prop}

theorem alive_watch {f : Memory → β} {g : Memory → Note → Note} {p : β → Prog State α}
    (hfree : ∀ s, Inv size s → Stuck size (g s n) s → Stuck size n s)
    (hblocked : ∀ s, Inv size s → Blocked size n s → Blocked size (g s n) s)
    (hp : ∀ s, Inv size s → Alive size c.thread R Q (p (f s)) (g s n)) :
    Alive size c.thread R Q (watch c f g >>= p) n := by
  have hnote : ∀ x : State, x.2 c.thread = n →
      Function.update x.2 c.thread (g x.1 (x.2 c.thread)) c.thread = g x.1 n := by
    intro x hx
    rw [Function.update_self, hx]
  apply Lively.act
  · intro _ x hi hx _
    show Alive size c.thread R Q (p (f x.1))
      (Function.update x.2 c.thread (g x.1 (x.2 c.thread)) c.thread)
    rw [hnote x hx]
    exact hp x.1 hi
  · intro _ x hi hx _ hf hs
    exact hf (hfree x.1 hi (hnote x hx ▸ hs))
  · intro _ x hi hx _ hb
    show Blocked size (Function.update x.2 c.thread (g x.1 (x.2 c.thread)) c.thread) x.1
    rw [hnote x hx]
    exact hblocked x.1 hi hb

/-- A step without a note, when nothing is pending. -/
theorem alive_act {f : ℕ → Memory → β × Memory} {p : β → Prog State α} (hn : n.Clean)
    (hp : ∀ b, Alive size c.thread R Q (p b) n) :
    Alive size c.thread R Q ((Prog.act f .ret).onFst >>= p) n := by
  apply Lively.act
  · intro _ x _ hx _
    have hx : x.2 c.thread = n := hx
    subst hx
    exact hp _
  · intro _ x _ hx _ _
    have hx : x.2 c.thread = n := hx
    subst hx
    exact hn.not_stuck
  · intro _ x _ _ _ hb
    exact absurd hb.1 hn.not_stuck

end Rules

section Loop

variable {R : Pop → State → Prop}

/-- What the rounds of the loop end with: the loop is left with `R` if it goes on alone. -/
def Ending (size : ℕ) (c : Caller) (R : Pop → State → Prop) (r : Pop ⊕ Pop) (x : State) : Prop :=
  Sum.elim (fun l => Total (Keeps size) R (Prog.forever (getPopSlotRound c size) l) x)
    (fun l => R l x) r

/-- What is noted at the end of a round. -/
def Noting (r : Pop ⊕ Pop) (n : Note) : Prop :=
  Sum.elim (fun l => n = noted l ∧ (0 < l.walkCount → l.Missed)) (fun _ => n.Clean) r

variable (hsize : 0 < size) (hR : ∀ l x, Inv size x.1 → R l x)
include hsize hR

theorem ret_inl (h : 0 < l.walkCount → l.Missed) :
    Alive size c.thread (Ending size c R) Noting (.ret (.inl l)) (noted l) := by
  refine Lively.ret (fun x hi hn hfree => ?_) ⟨rfl, h⟩
  exact (loop_total hsize hi hn hfree h).mono fun l' x' he => hR l' x' he.1

omit hsize in
theorem ret_inr (hn : n.Clean) : Alive size c.thread (Ending size c R) Noting (.ret (.inr l)) n :=
  Lively.ret (fun x hi _ _ => hR l x hi) hn

theorem look_alive (l : Pop) :
    Alive size c.thread (Ending size c R) Noting (look c size l) (noted l) := by
  unfold look
  set y : Slot := ⟨l.currentSegment, wrap size l.popSlot⟩ with hy
  have hidx : y.idx < size := wrap_lt hsize _
  refine alive_watch ?_ ?_ fun s₁ _ => ?_
  · rintro s hi ⟨hne, hused, hp | hmet⟩
    · exact ⟨hne, hused, .inl hp⟩
    · -- the first segment is full
      have hmet : (if (s.index y).node = none then some y.seg else none) = some
        (s.chain.head 0) := hmet
      by_cases hn : (s.index y).node = none
      · rw [if_pos hn] at hmet
        have hfull := full_head hi hne y.idx hidx
        rw [← Option.some.inj hmet] at hfull
        exact absurd hn hfull
      · rw [if_neg hn] at hmet
        cases hmet
  · rintro s hi ⟨⟨hne, hused, hp | hp⟩, hown⟩
    · exact ⟨⟨hne, hused, .inl hp⟩, hown⟩
    · cases hp
  have hmeet : Note.meet y s₁ (noted l) =
      ⟨l.currentSegment, l.pendingSlot, if (s₁.index y).node = none then some y.seg
        else none⟩ := rfl
  rw [hmeet]
  generalize (s₁.index y).node = node
  set n₁ : Note := ⟨l.currentSegment, l.pendingSlot, if node = none then some y.seg
    else none⟩ with hn₁
  -- with an item nothing is pending any more
  have hclean : node ≠ none → ({ n₁ with pending := false } : Note).Clean := fun hnode =>
    ⟨rfl, if_neg hnode⟩
  refine alive_watch ?_ ?_ fun s₂ _ => ?_
  · intro s hi h
    by_cases hfound : node ≠ none ∧ (s.index y).deleted = false
    · have hfind : Note.find node y s n₁ = { n₁ with pending := false } := if_pos hfound
      rw [hfind] at h
      exact absurd h (hclean hfound.1).not_stuck
    · have hfind : Note.find node y s n₁ = n₁ := if_neg hfound
      rwa [hfind] at h
  · intro s hi h
    have hused : (s.index y).deleted = true := h.2.1 y.idx hidx
    have hfind : Note.find node y s n₁ = n₁ := if_neg fun e => by simp [hused] at e
    rwa [hfind]
  by_cases hfound : node ≠ none ∧ (s₂.index y).deleted = false
  · have hfind : Note.find node y s₂ n₁ = { n₁ with pending := false } := if_pos hfound
    rw [hfind]
    show Alive size c.thread _ _ (ite (node ≠ none ∧ (s₂.index y).deleted = false) _ _) _
    rw [if_pos hfound]
    exact ret_inr hR (hclean hfound.1)
  · have hfind : Note.find node y s₂ n₁ = n₁ := if_neg hfound
    rw [hfind]
    show Alive size c.thread _ _ (ite (node ≠ none ∧ (s₂.index y).deleted = false) _ _) _
    rw [if_neg hfound]
    have hmiss : node = none ∨ (s₂.index y).deleted = true := by
      by_cases hn : node = none
      · exact .inl hn
      · exact .inr (by simpa [hn] using hfound)
    refine alive_watch ?_ ?_ fun s₃ _ => ?_
    · rintro s hi ⟨hne, hused, hp | hp⟩
      · refine ⟨hne, hused, ?_⟩
        rcases Bool.or_eq_true_iff.1 hp with hp | hp
        · exact .inl hp
        · exact .inr (of_decide_eq_true hp)
      · cases hp
    · rintro s hi ⟨⟨hne, hused, hp⟩, hown⟩
      refine ⟨⟨hne, hused, .inl (Bool.or_eq_true_iff.2 ?_)⟩, hown⟩
      exact hp.imp_right fun e => decide_eq_true e
    by_cases hcur : l.currentSegment = s₃.chain.head 0
    · have hkeep : Note.keep s₃ n₁ = ⟨l.currentSegment, l.pendingSlot || decide (node = none),
        none⟩ := by
        simp [Note.keep, hn₁, hy, hcur]
      rw [hkeep]
      simp only [if_pos hcur]
      exact ret_inl hsize hR fun _ => hmiss
    · have hkeep : Note.keep s₃ n₁ = noted l := by
        simp [Note.keep, noted, hn₁, hy, hcur]
      rw [hkeep]
      simp only [if_neg hcur]
      refine alive_watch (fun s _ h => h) (fun s _ h => ⟨h.1, h.1.2.1, h.1.1⟩) fun s₄ _ => ?_
      exact ret_inl hsize hR fun h => absurd h (lt_irrefl 0)

theorem round_alive (l : Pop) :
    Alive size c.thread (Ending size c R) Noting (getPopSlotRound c size l) (noted l) := by
  unfold getPopSlotRound
  by_cases hwalk : l.walkCount ≥ size
  · rw [if_pos hwalk]
    refine alive_watch ?_ ?_ fun s₁ _ => ?_
    · intro s hi h
      by_cases htail : l.currentSegment = s.chain.tail 0
      · have hleave : Note.leave l.currentSegment s (noted l) = { noted l with pending := false } :=
          if_pos htail
        rw [hleave] at h
        exact absurd h (Note.Clean.not_stuck ⟨rfl, rfl⟩)
      · have hleave : Note.leave l.currentSegment s (noted l) = noted l := if_neg htail
        rwa [hleave] at h
    · intro s hi h
      have hleave : Note.leave l.currentSegment s (noted l) = noted l := if_neg h.2.2
      rwa [hleave]
    by_cases htail : l.currentSegment = s₁.chain.tail 0
    · have hleave : Note.leave l.currentSegment s₁ (noted l) = { noted l with pending := false } :=
        if_pos htail
      rw [hleave]
      simp only [if_pos htail]
      exact ret_inr hR ⟨rfl, rfl⟩
    · have hleave : Note.leave l.currentSegment s₁ (noted l) = noted l := if_neg htail
      rw [hleave]
      simp only [if_neg htail]
      by_cases hpend : l.pendingSlot = false
      · rw [if_pos hpend]
        have hclean : (noted l).Clean := ⟨hpend, rfl⟩
        refine alive_watch (fun s _ h => h) (fun s _ h => h) fun s₂ _ => ?_
        have hrest : Alive size c.thread (Ending size c R) Noting
            (watch c (fun s => s.chain.head 0) Note.enter >>= fun head =>
              look c size { l with currentSegment := head, walkCount := 0 }) (noted l) :=
          alive_watch (fun s _ h => h) (fun s _ h => ⟨h.1, h.1.2.1, h.1.1⟩) fun s₃ _ =>
            look_alive hsize hR _
        cases (s₂.chain.cells.heap l.currentSegment).next with
        | none => exact alive_act hclean fun _ => hrest
        | some m =>
          rw [headCas_some, Prog.onFst_bind, Prog.bind_assoc]
          exact alive_act hclean fun _ => hrest
      · rw [if_neg hpend]
        exact look_alive hsize hR l
  · rw [if_neg hwalk]
    exact look_alive hsize hR { l with walkCount := l.walkCount + 1 }

theorem getPopSlot_alive (hn : n.Clean) :
    Alive size c.thread R (fun _ m => m.Clean) (getPopSlot c size) n := by
  refine alive_watch (fun s _ h => absurd h (Note.Clean.not_stuck ⟨rfl, rfl⟩))
    (fun s _ h => absurd h.1 hn.not_stuck) fun s₁ _ => ?_
  refine alive_act (f := fun r s => (r, s)) (p := fun r => Prog.forever (getPopSlotRound c size)
    ⟨r % size, s₁.chain.head 0, 0, false, none, false⟩) ⟨rfl, rfl⟩ fun r => ?_
  refine Lively.forever (fun l m => m = noted l ∧ (0 < l.walkCount → l.Missed)) ?_ ?_
    ⟨rfl, fun h => absurd h (lt_irrefl 0)⟩
  · rintro l _ ⟨rfl, hmiss⟩ x hi hx hfree
    exact (loop_total hsize hi hx hfree hmiss).mono fun l' x' he => hR l' x' he.1
  · rintro l _ ⟨rfl, -⟩
    exact round_alive hsize hR l

end Loop

/-- What the rounds of `queue_relaxed_delete` end with. -/
def Deleting (size : ℕ) (c : Caller) (r : Unit ⊕ ℤ) (x : State) : Prop :=
  Sum.elim (fun _ => Total (Keeps size) (fun _ _ => True) (queueRelaxedDelete c size) x)
    (fun _ => True) r

/-- Nothing is pending at their end. -/
def Cleared (r : Unit ⊕ ℤ) (n : Note) : Prop := Sum.elim (fun _ => n.Clean) (fun _ => n.Clean) r

theorem take_returns (hsize : 0 < size) (hi : Inv size x.1) :
    Total (Keeps size) (Deleting size c) (take c l) x := by
  have hinr : ∀ a, Total (Keeps size) (Deleting size c) (.ret (.inr a)) x := fun a =>
    .ret True.intro
  unfold take
  cases l.currentNode with
  | none => exact hinr 0
  | some nodeVal =>
    by_cases hdel : l.deletedNode = true
    · simp only [if_pos hdel]
      exact hinr 0
    · simp only [if_neg hdel]
      rw [deletedCas_eq, Prog.onFst_bind, Prog.bind_assoc]
      refine total_update hi fun hi' => ?_
      by_cases hthere : (x.1.index ⟨l.currentSegment, l.popSlot⟩).deleted = false
      · rw [if_pos hthere]
        exact .ret True.intro
      · rw [if_neg hthere]
        exact .ret (delete_total hsize hi)

theorem take_alive (hsize : 0 < size) (hn : n.Clean) :
    Alive size c.thread (Deleting size c) Cleared (take c l) n := by
  have hinr : ∀ a, Alive size c.thread (Deleting size c) Cleared (.ret (.inr a)) n :=
    fun a => Lively.ret (fun _ _ _ _ => True.intro) hn
  unfold take
  cases l.currentNode with
  | none => exact hinr 0
  | some nodeVal =>
    by_cases hdel : l.deletedNode = true
    · simp only [if_pos hdel]
      exact hinr 0
    · simp only [if_neg hdel]
      rw [deletedCas_eq, Prog.onFst_bind, Prog.bind_assoc]
      refine alive_act hn fun r => ?_
      obtain ⟨done, found⟩ := r
      cases done with
      | true => exact hinr nodeVal
      | false => exact Lively.ret (fun x hi _ _ => delete_total hsize hi) hn

/-- A dequeue, at each of its steps. -/
theorem delete_alive (hsize : 0 < size) (hn : n.Clean) :
    Alive size c.thread (fun _ _ => True) (fun _ m => m.Clean) (queueRelaxedDelete c size) n := by
  refine Lively.forever (fun _ m => m.Clean) (fun _ m _ x hi _ _ => delete_total hsize hi)
    (fun _ m hm => ?_) hn
  exact Lively.bind (getPopSlot_alive hsize (fun l x hi => take_returns hsize hi) hm)
    fun l m' hm' => take_alive hsize hm'

/-! ### Each thread changes its own note only -/

/-- The notes of the other threads are not changed. -/
def OthersKept (t : ℕ) (x x' : State) : Prop := ∀ u, u ≠ t → x'.2 u = x.2 u

theorem onFst_steps {p : Prog Memory α} {E : State → State → Prop} (hE : ∀ x x', x'.2 = x.2 →
      E x x') :
    (p.onFst : Prog State α).Steps E := by
  induction p with
  | ret a => exact True.intro
  | act f k ih => exact ⟨fun _ _ => hE _ _ rfl, ih⟩
  | loop body b k ihb ihk => exact ⟨ihb, ihk⟩

theorem watch_steps (f : Memory → β) (g : Memory → Note → Note) :
    (watch c f g).Steps (OthersKept c.thread) :=
  .update fun x _ hv => Function.update_of_ne hv _ x.2

theorem others_onFst {p : Prog Memory α} : (p.onFst : Prog State α).Steps (OthersKept c.thread) :=
  onFst_steps fun _ _ h u _ => congrFun h u

theorem look_steps (l : Pop) : (look c size l).Steps (OthersKept c.thread) := by
  refine (watch_steps _ _).bind fun _ => (watch_steps _ _).bind fun _ => ?_
  dsimp only
  split
  next => exact True.intro
  next =>
    refine (watch_steps _ _).bind fun _ => ?_
    split
    next => exact True.intro
    next => exact (watch_steps _ _).bind fun _ => True.intro

theorem delete_steps : (queueRelaxedDelete c size).Steps (OthersKept c.thread) := by
  refine .forever (fun _ => ?_) ()
  refine Prog.Steps.bind ?_ fun l => ?_
  · refine (watch_steps _ _).bind fun _ => others_onFst.bind fun _ => .forever (fun l => ?_) _
    unfold getPopSlotRound
    split
    next =>
      refine (watch_steps _ _).bind fun _ => ?_
      split
      next => exact True.intro
      next =>
        split
        next =>
          refine (watch_steps _ _).bind fun _ => others_onFst.bind fun _ => ?_
          exact (watch_steps _ _).bind fun _ => look_steps _
        next => exact look_steps l
    next => exact look_steps _
  · unfold take
    cases l.currentNode with
    | none => exact True.intro
    | some nodeVal =>
      dsimp only
      split
      next => exact True.intro
      next => exact others_onFst.bind fun _ => True.intro

/-! ### The threads of the queue -/

/-- What holds of a thread in a call. -/
def Runs (size u : ℕ) (call : Call) (q : Prog State (Unit × ℤ)) (x : State) : Prop :=
  q.Steps (OthersKept u) ∧ match call with
    | .insert _ => (x.2 u).Clean ∧ q.Steps fun x x' => x'.2 = x.2
    | .delete => Alive size u (fun _ _ => True) (fun _ m => m.Clean) q (x.2 u)

theorem threads_run (hsize : 0 < size) {P : Pool (notedQueue size)}
    (hr : Reachable (initial, unnoted) () P) (t : ℕ) :
    (P.thread t).Holds (P.world.shared.2 t).Clean fun call q =>
      Runs size t call q P.world.shared := by
  refine Reach.threads (fun x => Inv size x.1) (inv_shared hsize) (fun u x => (x.2 u).Clean)
    (Runs size)
    (fun _ => ⟨rfl, rfl⟩) ?_ ?_ ?_ ?_ hr t
  · intro c call l x _ hidle
    cases call with
    | insert val => exact ⟨others_onFst, hidle, onFst_steps fun _ _ => id⟩
    | delete =>
      refine ⟨delete_steps.bind fun _ => True.intro, ?_⟩
      refine Lively.bind ((delete_alive hsize hidle).mono fun _ _ _ => .ret True.intro)
        fun _ _ hm => ?_
      exact Lively.ret (fun _ _ _ _ => True.intro) hm
  · intro u call a x _ hrun
    cases call with
    | insert val => exact hrun.2.1
    | delete => exact hrun.2.follows
  · intro u call β f k m x hx hx' hrun
    refine ⟨?_, fun v hv => ?_⟩
    · cases call with
      | insert val =>
        have hnote : (f m x).2.2 = x.2 := hrun.2.2.1 m x
        refine ⟨hrun.1.2 _, ?_, hrun.2.2.2 _⟩
        rw [hnote]
        exact hrun.2.1
      | delete => exact ⟨hrun.1.2 _, (hrun.2.follows m x hx rfl hx').2⟩
    · have hnote : (f m x).2.2 v = x.2 v := hrun.1.1 m x v hv
      refine ⟨fun h => ?_, fun call' q h => ⟨h.1, ?_⟩⟩
      · rw [hnote]
        exact h
      · rw [hnote]
        exact h.2
  · intro u call β γ body b k x _ hrun
    refine ⟨hrun.1.1 b |>.bind (.next hrun.1.1 hrun.1.2), ?_⟩
    cases call with
    | insert val => exact ⟨hrun.2.1, (hrun.2.2.1 b).bind (.next hrun.2.2.1 hrun.2.2.2)⟩
    | delete => exact hrun.2.follows

/-- The thread is in a dequeue. -/
def dequeues (th : Thread (notedQueue size)) : Bool :=
  match th with
  | .running _ .delete _ _ => true
  | _ => false

theorem dequeues_iff {th : Thread (notedQueue size)} :
    dequeues th = true ↔ ∃ op seen q, th = .running op .delete seen q := by
  rcases th with l | ⟨op, call, seen, q⟩
  · simp [dequeues]
  · cases call <;> simp [dequeues]

/-- A dequeue under way, whatever has happened before, returns if it runs alone from a state in
which it is not stuck: its mark is not set, or there is an item in the first segment, or no other
segment. -/
theorem dequeue_returns_alone (hsize : 0 < size) {P : Pool (notedQueue size)}
    (hr : Reachable (initial, unnoted) () P) {t : ℕ} (ht : dequeues (P.thread t) = true)
    (hfree : ¬ Stuck size (P.world.shared.2 t) P.world.shared.1) (ch : ℕ → ℕ) :
    ∃ n P' l, P.exec (Move.alone t ch n) = some P' ∧ P'.thread t = .idle l := by
  obtain ⟨op, seen, q, hth⟩ := dequeues_iff.1 ht
  have hrun := threads_run hsize hr t
  rw [hth] at hrun
  have htotal := hrun.2.returns P.world.shared (inv_shared hsize P hr) rfl hfree
  exact htotal.alone (inv_shared hsize) hr hth rfl ch

/-- A dequeue that has met an empty slot, which another thread has filled since, before it has
appended a segment for a second item, returns alone. -/
theorem dequeue_returns_alone_two : ∃ P : Pool (notedQueue 1),
    (P.world.shared.2 0).pending = true ∧ P.world.shared.1.inserts = [(⟨0, 0⟩, 1), (⟨1, 0⟩, 2)] ∧
      ∀ ch, ∃ n P' l, P.exec (Move.alone 0 ch n) = some P' ∧ P'.thread 0 = .idle l := by
  have h : (((Pool.init (notedQueue 1) (initial, unnoted) ()).exec (List.flatten
      [Move.start 0 Call.delete 7 0, Move.start 1 (Call.insert 5) 7 0,
        Move.start 1 (Call.insert 6) 17 0])).any fun P =>
      dequeues (P.thread 0) && decide ((P.world.shared.2 0).pending = true ∧
        P.world.shared.1.inserts = [(⟨0, 0⟩, 1), (⟨1, 0⟩, 2)] ∧ P.world.shared.1.chain.head 0 = 0 ∧
          (P.world.shared.1.index ⟨0, 0⟩).deleted = false)) = true := by decide +kernel
  obtain ⟨P, hP, h⟩ := Pool.exec_of_check h
  obtain ⟨hth, h⟩ := Bool.and_eq_true_iff.1 h
  obtain ⟨hpend, hins, hhead, hfull⟩ := of_decide_eq_true h
  refine ⟨P, hpend, hins, dequeue_returns_alone Nat.one_pos ?_ hth fun hstuck => ?_⟩
  · exact Pool.exec_reach hP (fun _ _ _ _ => True.intro) .init
  · -- the item of the first segment is still there
    have hused := hstuck.2.1 0 Nat.one_pos
    rw [hhead, hfull] at hused
    exact Bool.false_ne_true hused

/-- A dequeue that is stuck does not return alone. -/
theorem not_alone_of_blocked (hsize : 0 < size) {P : Pool (notedQueue size)}
    (hr : Reachable (initial, unnoted) () P) {t : ℕ} (ht : dequeues (P.thread t) = true)
    (hb : Blocked size (P.world.shared.2 t) P.world.shared.1) (ch : ℕ → ℕ) :
    ¬ ∃ n P' l, P.exec (Move.alone t ch n) = some P' ∧ P'.thread t = .idle l := by
  rintro ⟨n, P', l, he, hl⟩
  obtain ⟨op, seen, q, hth⟩ := dequeues_iff.1 ht
  have hrun := threads_run hsize hr t
  rw [hth] at hrun
  have hclean : ∀ (a : Unit × ℤ) m (x : State), m.Clean → ¬ Blocked size m x.1 := fun _ _ _ hm hb =>
    hm.not_stuck hb.1
  exact Lively.stuck_alone (inv_shared hsize) hclean hr hth hrun.2 hb he l hl

/-- A dequeue meets the empty slot of the only segment. Others fill it, append a segment with a
second item and take the first one. The second item is there, but the dequeue does not return alone.
-/
theorem dequeue_stuck_alone : ∃ P : Pool (notedQueue 1), Reachable (initial, unnoted) () P ∧
    dequeues (P.thread 0) = true ∧ P.world.shared.1.inserts = [(⟨0, 0⟩, 1), (⟨1, 0⟩, 2)] ∧
      P.world.shared.1.deletes = [(⟨0, 0⟩, 3)] ∧
        ∀ ch, ¬ ∃ n P' l, P.exec (Move.alone 0 ch n) = some P' ∧ P'.thread 0 = .idle l := by
  have h : (((Pool.init (notedQueue 1) (initial, unnoted) ()).exec
    (List.flatten [Move.start 0 Call.delete 7 0,
      Move.start 1 (Call.insert 5) 7 0, Move.start 1 (Call.insert 6) 17 0,
        Move.start 1 Call.delete 8 0])).any
        fun P => dequeues (P.thread 0) && decide
          ((P.world.shared.1.inserts = [(⟨0, 0⟩, 1), (⟨1, 0⟩, 2)] ∧
          P.world.shared.1.deletes = [(⟨0, 0⟩, 3)]) ∧
          (P.world.shared.1.chain.head 0 = 0 ∧ P.world.shared.1.chain.tail 0 = 1 ∧
            (P.world.shared.1.index ⟨0, 0⟩).deleted = true) ∧
          (P.world.shared.2 0).segment = 0 ∧ (P.world.shared.2 0).pending = true)) = true := by
          decide +kernel
  obtain ⟨P, hP, h⟩ := Pool.exec_of_check h
  obtain ⟨hth, h⟩ := Bool.and_eq_true_iff.1 h
  obtain ⟨⟨hins, hdel⟩, ⟨hhead, htail, hused⟩, hseg, hpend⟩ := of_decide_eq_true h
  have hr : Reachable (initial, unnoted) () P :=
    Pool.exec_reach hP (fun _ _ _ _ => True.intro) .init
  have hall : P.world.shared.1.Used 1 0 := by
    intro i hi
    obtain rfl : i = 0 := by omega
    exact hused
  have hb : Blocked 1 (P.world.shared.2 0) P.world.shared.1 := by
    refine ⟨⟨?_, ?_, .inl hpend⟩, ?_, ?_⟩
    · rw [hhead, htail]
      exact nofun
    · rwa [hhead]
    · rwa [hseg]
    · rw [hseg, htail]
      exact nofun
  exact ⟨P, hr, hth, hins, hdel, not_alone_of_blocked Nat.one_pos hr hth hb⟩

end Pending

end QueueKSegment
