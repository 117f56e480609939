import SemanticRelaxation.StackKSegment.Stack
import SemanticRelaxation.Prog.Sequential
import SemanticRelaxation.Support.History
import SemanticRelaxation.Support.Lifo
import SemanticRelaxation.Support.RoundRobin
import Mathlib.Data.List.Perm.Subperm
import Mathlib.Data.Prod.Lex

/-!
# The k-segment stack, one call at a time

Without interference a push fills a slot of the first segment, or one of a new segment if that is
full, and a pop empties one of the first segment that holds an item. Segments behind the first one
hold older items only (`Stocked`), and a pop removes the first segment after it has found it empty.

* `getPushSlot_spec`, `getPopSlot_spec`: the searches;
* `kSegmentStack_sequential`: each pop takes one of the `segment_size` youngest items, and answers 0
  from an empty stack only.
-/

namespace StackKSegment

open AtomicProg Lifo RoundRobin

/-- The calls of the stack one at a time, each with the name of its caller. -/
abbrev stackObject (segmentSize : ℕ) : Object Memory Unit where
  Call := Caller × Call
  Ret := ℤ
  code c := (stackService segmentSize).code c.1 c.2

/-- The nodes that have not been taken out, the oldest first. -/
def Slots.present (t : Slots) :
    List ℕ := (List.range t.fresh).filter fun n => n ∉ t.takes.map Prod.fst

/-- Those among them that are younger than `n`. -/
def Slots.younger (t : Slots) (n : ℕ) : List ℕ := t.present.filter fun m => n < m

namespace Sequential

variable {size w : ℕ} {line : List ℕ} {g : Segments} {t : Slots} {s : Memory} {c : Caller}
  {x : Slot}
  {α : Type} {Q : α → Memory → Prop}

/-- The segments that can be reached from the head. No removal is announced. -/
structure Lined (line : List ℕ) (g : Segments) : Prop where
  path : Path (fun n => (g.heap n).next) (some g.head.segment) line
  nodup : line.Nodup
  fresh : ∀ n ∈ line, n < g.fresh

/-- No removal of these segments is announced. -/
def Calm (line : List ℕ) (g : Segments) : Prop := ∀ n ∈ line, (g.heap n).remove = 0

/-- The items are in these segments, each in one slot, and those of a segment are younger than those
of the segments behind it. -/
structure Stocked (size : ℕ) (line : List ℕ) (t : Slots) : Prop where
  held : ∀ x n, t.slot x = some n → x.seg ∈ line ∧ x.idx < size ∧ n ∈ t.present
  kept : ∀ n ∈ t.present, ∃ x, t.slot x = some n
  once : ∀ x y n, t.slot x = some n → t.slot y = some n → x = y
  order : line.Pairwise fun a b => ∀ i j n m, t.slot ⟨a, i⟩ = some n →
    t.slot ⟨b, j⟩ = some m → m < n
  takes : (t.takes.map Prod.fst).Nodup
  taken : ∀ n ∈ t.takes.map Prod.fst, n < t.fresh

theorem Lined.init : Lined [0] initial.segs :=
  ⟨⟨rfl, rfl⟩, (by simp), fun n hn => by
    rw [List.mem_singleton.1 hn]
    exact Nat.one_pos⟩

theorem Stocked.init : Stocked size [0] initial.slots where
  held := nofun
  kept := nofun
  once := nofun
  order := List.pairwise_singleton _ _
  takes := List.nodup_nil
  taken := nofun

theorem Lined.head (h : Lined line g) : ∃ rest, line = g.head.segment :: rest := by
  cases line with
  | nil => exact absurd h.path nofun
  | cons n rest => exact ⟨rest, by rw [Option.some.inj h.path.1]⟩

theorem Slots.mem_present {n : ℕ} : n ∈ t.present ↔ n < t.fresh ∧ n ∉ t.takes.map Prod.fst := by
  unfold Slots.present
  rw [List.mem_filter, List.mem_range, decide_eq_true_iff]

theorem Slots.present_nodup : t.present.Nodup := List.nodup_range.filter _

/-! ### Steps -/

/-- A new segment in front of the head. -/
theorem Lined.create (h : Lined line g) (op version : ℕ) :
    Lined (g.fresh :: line) ((g.create op g.head.segment).push ⟨g.fresh, version⟩) := by
  have hold : ∀ n ∈ line, (g.create op g.head.segment).heap n = g.heap n := fun n hn =>
    Function.update_of_ne (h.fresh n hn).ne _ _
  refine ⟨⟨rfl, ?_⟩, List.nodup_cons.2 ⟨fun hmem => (h.fresh _ hmem).false, h.nodup⟩,
    fun n hn => ?_⟩
  · have hnew : ((g.create op g.head.segment).heap g.fresh).next = some g.head.segment := by
      show (Function.update g.heap g.fresh _ g.fresh).next = _
      rw [Function.update_self]
    show Path _ (((g.create op g.head.segment).heap g.fresh).next) line
    rw [hnew]
    exact h.path.congr fun n hn => congrArg Segment.next (hold n hn)
  · rcases List.mem_cons.1 hn with rfl | hn
    · exact Nat.lt_succ_self _
    · exact (h.fresh n hn).trans (Nat.lt_succ_self _)

theorem Calm.create (h : Calm line g) (hl : Lined line g) (op version : ℕ) :
    Calm (g.fresh :: line) ((g.create op g.head.segment).push ⟨g.fresh, version⟩) := by
  intro n hn
  show (Function.update g.heap g.fresh _ n).remove = 0
  rcases List.mem_cons.1 hn with rfl | hn
  · rw [Function.update_self]
  · rw [Function.update_of_ne (hl.fresh n hn).ne]
    exact h n hn

theorem Stocked.create (h : Stocked size line t) {n : ℕ} (hn : n ∉ line) :
    Stocked size (n :: line) t where
  held x m hx := ⟨List.mem_cons_of_mem _ (h.held x m hx).1, (h.held x m hx).2⟩
  kept := h.kept
  once := h.once
  order := List.pairwise_cons.2 ⟨fun _ _ i _ m _ hx _ => absurd (h.held ⟨n, i⟩ m hx).1 hn, h.order⟩
  takes := h.takes
  taken := h.taken

/-- The counter of a segment does not matter for the path. -/
theorem mark_next (op n m : ℕ) : ((g.mark op n).heap m).next = (g.heap m).next := by
  show (Function.update g.heap n _ m).next = (g.heap m).next
  by_cases hm : m = n
  · subst hm
    rw [Function.update_self]
  · rw [Function.update_of_ne hm]

theorem Lined.mark (h : Lined line g) (op n : ℕ) : Lined line (g.mark op n) :=
  ⟨h.path.congr fun m _ => mark_next op n m, h.nodup, h.fresh⟩

theorem Calm.mark {n : ℕ} {rest : List ℕ} (h : Calm rest g) (hn : (n :: rest).Nodup) (op : ℕ) :
    Calm rest (g.mark op n) := by
  intro m hm
  have hne : m ≠ n := by
    rintro rfl
    exact (List.nodup_cons.1 hn).1 hm
  show (Function.update g.heap n _ m).remove = 0
  rw [Function.update_of_ne hne]
  exact h m hm

/-- The first segment is removed. -/
theorem Lined.pop {n m : ℕ} {rest : List ℕ} (h : Lined (n :: rest) g)
    (hm : (g.heap n).next = some m) (op version : ℕ) : Lined rest (g.pop op ⟨m, version⟩) := by
  have hpath : Path (fun n => (g.heap n).next) (g.heap n).next rest := h.path.2
  rw [hm] at hpath
  exact ⟨hpath, (List.nodup_cons.1 h.nodup).2, fun k hk => h.fresh k (List.mem_cons_of_mem _ hk)⟩

theorem Stocked.pop {n : ℕ} {rest : List ℕ} (h : Stocked size (n :: rest) t)
    (hfree : ∀ i < size, t.slot ⟨n, i⟩ = none) : Stocked size rest t where
  held x m hx := by
    obtain ⟨hseg, hidx, hm⟩ := h.held x m hx
    rcases List.mem_cons.1 hseg with hseg | hseg
    · have hnone := hfree x.idx hidx
      rw [← hseg] at hnone
      exact absurd (hnone.symm.trans hx) nofun
    · exact ⟨hseg, hidx, hm⟩
  kept := h.kept
  once := h.once
  order := (List.pairwise_cons.1 h.order).2
  takes := h.takes
  taken := h.taken

theorem present_put (h : Stocked size line t) (op : ℕ) (val : ℤ) (x : Slot) :
    ((t.create op val).set x (some t.fresh)).present = t.present ++ [t.fresh] := by
  have hnew : t.fresh ∉ t.takes.map Prod.fst := fun hmem => (h.taken _ hmem).false
  show (List.range (t.fresh + 1)).filter _ = _
  rw [List.range_succ, List.filter_append]
  congr 1
  rw [List.filter_singleton]
  show (bif decide (¬ t.fresh ∈ t.takes.map Prod.fst) then _ else _) = _
  rw [decide_eq_true hnew]
  rfl

/-- A new node is put into an empty slot of the first segment. -/
theorem Stocked.put {n : ℕ} {rest : List ℕ} (h : Stocked size (n :: rest) t) (op : ℕ) (val : ℤ)
    (hseg : x.seg = n) (hidx : x.idx < size) (hfree : t.slot x = none) (hline : (n :: rest).Nodup) :
    Stocked size (n :: rest) ((t.create op val).set x (some t.fresh)) := by
  have hslot : ∀ y, ((t.create op val).set x (some t.fresh)).slot y =
      if y = x then some t.fresh else t.slot y := fun y => Function.update_apply ..
  have hlt : ∀ y m, t.slot y = some m → m < t.fresh := fun y m hy =>
    (Slots.mem_present.1 (h.held y m hy).2.2).1
  refine ⟨fun y m hy => ?_, fun m hm => ?_, fun y z m hy hz => ?_, ?_, h.takes, fun m hm => ?_⟩
  · rw [hslot] at hy
    rw [present_put h, List.mem_append]
    by_cases hyx : y = x
    · subst hyx
      rw [if_pos rfl] at hy
      rw [hseg]
      exact ⟨List.mem_cons_self .., hidx, .inr (List.mem_singleton.2 (Option.some.inj hy).symm)⟩
    · rw [if_neg hyx] at hy
      obtain ⟨h₁, h₂, h₃⟩ := h.held y m hy
      exact ⟨h₁, h₂, .inl h₃⟩
  · rw [present_put h, List.mem_append] at hm
    rcases hm with hm | hm
    · obtain ⟨y, hy⟩ := h.kept m hm
      refine ⟨y, ?_⟩
      rw [hslot, if_neg fun e => by simp [e, hfree] at hy]
      exact hy
    · refine ⟨x, ?_⟩
      rw [hslot, if_pos rfl, List.mem_singleton.1 hm]
  · rw [hslot] at hy hz
    by_cases hyx : y = x
    · by_cases hzx : z = x
      · rw [hyx, hzx]
      · rw [if_pos hyx] at hy
        rw [if_neg hzx] at hz
        exact absurd (Option.some.inj hy) (hlt z m hz).ne'
    · rw [if_neg hyx] at hy
      by_cases hzx : z = x
      · rw [if_pos hzx] at hz
        exact absurd (Option.some.inj hz) (hlt y m hy).ne'
      · rw [if_neg hzx] at hz
        exact h.once y z m hy hz
  · -- the new node is the youngest one, and in the first segment
    obtain ⟨hfirst, hrest⟩ := List.pairwise_cons.1 h.order
    have hother : ∀ b ∈ rest, ∀ j, (⟨b, j⟩ : Slot) ≠ x := by
      intro b hb j he
      have hbn : b = n := (congrArg Slot.seg he).trans hseg
      exact (List.nodup_cons.1 hline).1 (hbn ▸ hb)
    refine List.pairwise_cons.2 ⟨fun b hb i j k m hk hm => ?_,
      hrest.imp_of_mem fun {a b} ha hb hab i j k m hk hm => ?_⟩
    · rw [hslot, if_neg (hother b hb j)] at hm
      rw [hslot] at hk
      by_cases hx : (⟨n, i⟩ : Slot) = x
      · rw [if_pos hx] at hk
        rw [← Option.some.inj hk]
        exact hlt _ m hm
      · rw [if_neg hx] at hk
        exact hfirst b hb i j k m hk hm
    · rw [hslot, if_neg (hother a ha i)] at hk
      rw [hslot, if_neg (hother b hb j)] at hm
      exact hab i j k m hk hm
  · exact (h.taken m hm).trans (Nat.lt_succ_self _)

theorem present_take (op n : ℕ) (x : Slot) :
    (t.take op x n).present = t.present.filter fun m => m ≠ n := by
  show (List.range t.fresh).filter _ = ((List.range t.fresh).filter _).filter _
  rw [List.filter_filter]
  congr 1
  funext m
  have htakes : m ∈ (t.takes ++ [(n, op)]).map Prod.fst ↔ m ∈ t.takes.map Prod.fst ∨ m = n := by
    rw [List.map_append, List.mem_append]
    exact or_congr Iff.rfl List.mem_singleton
  rw [Bool.eq_iff_iff, Bool.and_eq_true, decide_eq_true_iff, decide_eq_true_iff, decide_eq_true_iff]
  show ¬ m ∈ (t.takes ++ [(n, op)]).map Prod.fst ↔ _
  rw [htakes, not_or, and_comm]

/-- An item is taken out. -/
theorem Stocked.take (h : Stocked size line t) {n : ℕ} (hx : t.slot x = some n) (op : ℕ) :
    Stocked size line (t.take op x n) := by
  have hslot : ∀ y, (t.take op x n).slot y = if y = x then none else t.slot y := fun y =>
    Function.update_apply ..
  have hof : ∀ y m, (t.take op x n).slot y = some m → t.slot y = some m ∧ y ≠ x := by
    intro y m hy
    rw [hslot] at hy
    by_cases hyx : y = x
    · rw [if_pos hyx] at hy
      cases hy
    · rw [if_neg hyx] at hy
      exact ⟨hy, hyx⟩
  obtain ⟨-, -, hn⟩ := h.held x n hx
  refine ⟨fun y m hy => ?_, fun m hm => ?_, fun y z m hy hz => ?_, ?_, ?_, fun m hm => ?_⟩
  · obtain ⟨hy, hne⟩ := hof y m hy
    obtain ⟨h₁, h₂, h₃⟩ := h.held y m hy
    rw [present_take, List.mem_filter, decide_eq_true_iff]
    exact ⟨h₁, h₂, h₃, fun e => hne (h.once y x n (e ▸ hy) hx)⟩
  · rw [present_take, List.mem_filter, decide_eq_true_iff] at hm
    obtain ⟨y, hy⟩ := h.kept m hm.1
    refine ⟨y, ?_⟩
    rw [hslot, if_neg ?_]
    · exact hy
    · rintro rfl
      exact hm.2 (Option.some.inj (hy.symm.trans hx))
  · exact h.once y z m (hof y m hy).1 (hof z m hz).1
  · exact h.order.imp fun hab i j k m hk hm => hab i j k m (hof _ _ hk).1 (hof _ _ hm).1
  · show ((t.takes ++ [(n, op)]).map Prod.fst).Nodup
    refine nodup_map_snoc h.takes fun y hy he => (Slots.mem_present.1 hn).2 ?_
    have he : y.1 = n := he
    exact he ▸ List.mem_map_of_mem hy
  · have hm' : m ∈ (t.takes ++ [(n, op)]).map Prod.fst := hm
    rw [List.map_append, List.mem_append] at hm'
    rcases hm' with hm' | hm'
    · exact h.taken m hm'
    · rw [List.mem_singleton.1 hm']
      exact (Slots.mem_present.1 hn).1

/-- The items that are younger than one of the first segment are in that segment. -/
theorem Stocked.younger_le {n k : ℕ} {rest : List ℕ} (h : Stocked size (k :: rest) t)
    (hx : t.slot x = some n) (hseg : x.seg = k) : (t.younger n).length ≤ size - 1 := by
  have hsub : n :: t.younger n ⊆ (List.range size).filterMap fun i => t.slot ⟨k, i⟩ := by
    have hmem : ∀ y m, t.slot y = some m → y.seg = k → m ∈ (List.range size).filterMap fun i =>
      t.slot ⟨k, i⟩ := by
      intro y m hy hyk
      refine List.mem_filterMap.2 ⟨y.idx, List.mem_range.2 (h.held y m hy).2.1, ?_⟩
      rw [← hyk]
      exact hy
    intro m hm
    rcases List.mem_cons.1 hm with rfl | hm
    · exact hmem x m hx hseg
    · obtain ⟨hm, hlt⟩ := List.mem_filter.1 hm
      obtain ⟨y, hy⟩ := h.kept m hm
      rcases List.mem_cons.1 (h.held y m hy).1 with hyk | hyk
      · exact hmem y m hy hyk
      · -- the other segments hold older items
        have hold := (List.pairwise_cons.1 h.order).1 y.seg hyk x.idx y.idx n m
          (by rw [← hseg]; exact hx) hy
        exact absurd (of_decide_eq_true hlt) (not_lt.2 hold.le)
  have hnodup : (n :: t.younger n).Nodup := by
    refine List.nodup_cons.2 ⟨fun hmem => ?_, Slots.present_nodup.filter _⟩
    exact lt_irrefl n (of_decide_eq_true (List.mem_filter.1 hmem).2)
  have hle := (hnodup.subperm hsub).length_le
  have hlen : ((List.range size).filterMap fun i => t.slot ⟨k, i⟩).length ≤ size :=
    (List.length_filterMap_le _ _).trans_eq List.length_range
  rw [List.length_cons] at hle
  omega

/-! ### The push -/

/-- A program that runs alone. -/
abbrev Alone (Q : α → Memory → Prop) (p : Prog Memory α) (s : Memory) : Prop :=
  Total (.trivial Memory) Q p s

theorem alone_pos {p : Prop} [Decidable p] {a b : Prog Memory α} (h : p) (ha : Alone Q a s) :
    Alone Q (if p then a else b) s := by
  rwa [if_pos h]

theorem readHead_alone {p : Head → Prog Memory α} (h : Alone Q (p s.segs.head) s) :
    Alone Q (readHead >>= p) s := by
  unfold readHead
  rw [Prog.bind_assoc]
  refine Total.choose_iff.2 fun first => ?_
  split
  next =>
    rw [Prog.bind_assoc]
    refine Total.read_iff.2 ?_
    rw [Prog.bind_assoc]
    exact Total.read_iff.2 h
  next =>
    rw [Prog.bind_assoc]
    refine Total.read_iff.2 ?_
    rw [Prog.bind_assoc]
    exact Total.read_iff.2 h

theorem randomSlot_alone {p : ℕ → Prog Memory α} (h : ∀ r, Alone Q (p (r % size)) s) :
    Alone Q (randomSlot size >>= p) s := by
  unfold randomSlot
  rw [Prog.bind_assoc]
  exact Total.choose_iff.2 h

theorem wrap_lt (hsize : 0 < size) (i : ℕ) : wrap size i < size := by
  unfold wrap
  split <;> omega

/-- What `get_push_slot` returns: an empty slot of the first segment, which may be a new one. -/
structure Found (size : ℕ) (line : List ℕ) (s : Memory) (x : Slot) (s' : Memory) : Prop where
  slots : s'.slots = s.slots
  seg : x.seg = s'.segs.head.segment
  idx : x.idx < size
  free : s.slots.slot x = none
  line : ∃ line', Lined line' s'.segs ∧ Calm line' s'.segs ∧
    (line' = line ∨ ∃ n, n ∉ line ∧ line' = n :: line)

theorem getPushSlotRound_spec (hsize : 0 < size) (hl : Lined line s.segs) (hc : Calm line s.segs)
    (hheld : ∀ x n, s.slots.slot x = some n → x.seg ∈ line) {l : Push}
    (hhead : l.currentHead = s.segs.head) (hscan : Scanned size
      (fun i => s.slots.slot ⟨s.segs.head.segment, i⟩ ≠ none) (wrap size l.pushSlot)
      l.walkCount) : Alone (fun r s' => Sum.elim (fun l' => s' = s ∧ l'.currentHead = s.segs.head ∧
        Scanned size (fun i => s.slots.slot ⟨s.segs.head.segment, i⟩ ≠ none)
          (wrap size l'.pushSlot) l'.walkCount ∧
          size - l'.walkCount < size - l.walkCount) (fun x => Found size line s x s') r)
      (getPushSlotRound c size l) s := by
  unfold getPushSlotRound lookPush
  by_cases hwalk : l.walkCount ≥ size
  · -- the first segment is full
    rw [if_pos hwalk]
    simp only [tryCreateSegment, newSegment, pushHeadCae, Prog.bind_assoc, hhead]
    refine Total.update_iff.2 fun _ => ⟨True.intro, ?_⟩
    refine Total.cae_of_eq rfl fun _ => ⟨True.intro, readHead_alone ?_⟩
    have hnew : ∀ i, s.slots.slot ⟨s.segs.fresh, i⟩ = none := by
      intro i
      by_contra hne
      obtain ⟨n, hn⟩ := Option.ne_none_iff_exists'.1 hne
      exact (hl.fresh _ (hheld _ n hn)).false
    refine Total.read_iff.2 (alone_pos (hnew _) ?_)
    refine .ret ⟨rfl, rfl, wrap_lt hsize _, hnew _, _, hl.create c.op _, hc.create hl c.op _,
      .inr ?_⟩
    exact ⟨_, fun hmem => (hl.fresh _ hmem).false, rfl⟩
  · rw [if_neg hwalk]
    refine Total.read_iff.2 ?_
    rw [hhead]
    by_cases hfree : s.slots.slot ⟨s.segs.head.segment, wrap size l.pushSlot⟩ = none
    · rw [if_pos hfree]
      exact .ret ⟨rfl, rfl, wrap_lt hsize _, hfree, line, hl, hc, .inl rfl⟩
    · rw [if_neg hfree]
      refine Total.read_iff.2 ?_
      rw [if_pos rfl]
      refine .ret ⟨rfl, rfl, hscan.hop hfree, ?_⟩
      show size - (l.walkCount + 1) < size - l.walkCount
      omega

theorem getPushSlot_spec (hsize : 0 < size) (hl : Lined line s.segs) (hc : Calm line s.segs)
    (hheld : ∀ x n, s.slots.slot x = some n → x.seg ∈ line) :
    Alone (fun x s' => Found size line s x s') (getPushSlot c size) s := by
  unfold getPushSlot
  refine randomSlot_alone fun r => readHead_alone ?_
  refine Total.forever (fun l s' => s' = s ∧ l.currentHead = s.segs.head ∧
    Scanned size (fun i => s.slots.slot ⟨s.segs.head.segment, i⟩ ≠ none)
      (wrap size l.pushSlot) l.walkCount)
    (fun l _ => size - l.walkCount) ?_ ⟨rfl, rfl, .start (wrap_lt hsize _)⟩
  rintro l s' ⟨rfl, hhead, hscan⟩
  refine (getPushSlotRound_spec hsize hl hc hheld hhead hscan).mono ?_
  rintro (l' | x) s'' hr
  · exact ⟨⟨hr.1, hr.2.1, hr.2.2.1⟩, hr.2.2.2⟩
  · exact hr

/-- Between two calls. -/
def Quiet (size : ℕ) (s : Memory) : Prop :=
  ∃ line, Lined line s.segs ∧ Calm line s.segs ∧ Stocked size line s.slots

/-- A push puts its item on top. -/
structure Pushed (val : ℤ) (s : Memory) (r : ℤ) (s' : Memory) : Prop where
  answer : r = 1
  present : s'.slots.present = s.slots.present ++ [s.slots.fresh]
  val : s'.slots.val = Function.update s.slots.val s.slots.fresh val
  takes : s'.slots.takes = s.slots.takes

/-- A push whose node is still there, with no removal announced. -/
theorem checkCommit_alone {n : ℕ} {p : Bool → Prog Memory α} (hx : s.slots.slot x = some n)
    (hcalm : (s.segs.heap x.seg).remove = 0) (hp : Alone Q (p true) (s.onSlots (·.commit n))) :
    Alone Q (checkCommit x n >>= p) s := by
  unfold checkCommit noRemoval
  rw [Prog.bind_assoc]
  refine Total.read_iff.2 ?_
  rw [if_neg fun hne : _ ≠ some n => hne hx, Prog.bind_assoc]
  refine Total.update_iff.2 fun _ => ⟨True.intro, ?_⟩
  rw [if_pos hcalm]
  exact hp

theorem push_spec (hsize : 0 < size) (h : Quiet size s) (val : ℤ) :
    Alone (fun r s' => Quiet size s' ∧ Pushed val s r s') (mstackRelaxedInsert c size val) s := by
  obtain ⟨line, hl, hc, ht⟩ := h
  unfold mstackRelaxedInsert newNode
  refine Total.update_iff.2 fun _ => ⟨True.intro, Total.forever_once ?_⟩
  refine Total.bind_of (getPushSlot_spec hsize hl hc fun x n hx => (ht.held x n hx).1)
    fun x s' hf => ?_
  obtain ⟨hslots, hseg, hidx, hfree, line', hl', hc', hline⟩ := hf
  have hslots' : s'.slots = s.slots.create c.op val := hslots
  have ht' : Stocked size line' s.slots := by
    rcases hline with rfl | ⟨n, hn, rfl⟩
    · exact ht
    · exact ht.create hn
  obtain ⟨rest, rfl⟩ := hl'.head
  have hput := ht'.put c.op val hseg hidx hfree hl'.nodup
  simp only [pushInto, putCas, Prog.bind_assoc]
  have hfree' : s'.slots.slot x = none := by
    rw [hslots']
    exact hfree
  refine Total.cae_of_eq hfree' fun _ => ⟨True.intro, ?_⟩
  -- nothing has happened to the node, and no removal is announced
  have hnode : (s'.slots.set x (some s.slots.fresh)).slot x = some s.slots.fresh :=
    Function.update_self ..
  have hcalm : (s'.segs.heap x.seg).remove = 0 := by
    rw [hseg]
    exact hc' _ (List.mem_cons_self ..)
  refine checkCommit_alone hnode hcalm (.ret ⟨1, rfl, ⟨_, hl', hc', ?_⟩, rfl, ?_, ?_, ?_⟩)
  · show Stocked size _ ((s'.slots.set x (some s.slots.fresh)).commit s.slots.fresh)
    rw [hslots']
    exact ⟨hput.held, hput.kept, hput.once, hput.order, hput.takes, hput.taken⟩
  · show (s'.slots.set x (some s.slots.fresh)).present = _
    rw [hslots']
    exact present_put ht' c.op val x
  · show s'.slots.val = _
    rw [hslots']
    rfl
  · show s'.slots.takes = _
    rw [hslots']
    rfl

/-! ### The pop -/

/-- The state of a pop that has looked at slots of the first segment and found nothing, with the
segments behind it. After one pass it has announced the removal of the segment, unless it is the
last one. -/
structure Passing (size : ℕ) (t : Slots) (rest : List ℕ) (l : Pop) (s : Memory) : Prop where
  head : l.currentHead = s.segs.head
  slots : s.slots = t
  lined : Lined (s.segs.head.segment :: rest) s.segs
  calm : Calm rest s.segs
  stocked : Stocked size (s.segs.head.segment :: rest) t
  unmarked : l.walkCount < size ∨ (s.segs.heap s.segs.head.segment).next = none →
    (s.segs.heap s.segs.head.segment).remove = 0 ∧ l.marked = false
  scan : Scanned size (fun i => t.slot ⟨s.segs.head.segment, i⟩ = none)
    (wrap size l.popSlot) l.walkCount
  missed : 0 < l.walkCount → l.currentNode = none

/-- What `get_pop_slot` returns: an item of the first segment, or nothing from an empty stack. -/
structure Popped (size : ℕ) (t : Slots) (l : Pop) (s : Memory) : Prop where
  slots : s.slots = t
  line : ∃ rest, Lined (s.segs.head.segment :: rest) s.segs ∧
    Calm (s.segs.head.segment :: rest) s.segs ∧
    Stocked size (s.segs.head.segment :: rest) t
  seg : l.currentHead.segment = s.segs.head.segment
  node : l.currentNode = none ∧ (∀ x, t.slot x = none) ∨
    ∃ n, l.currentNode = some n ∧ t.slot ⟨l.currentHead.segment, l.popSlot⟩ = some n

variable {rest : List ℕ} {l : Pop}

theorem Calm.cons {n : ℕ} (hn : (g.heap n).remove = 0) (h : Calm rest g) : Calm (n :: rest) g := by
  intro m hm
  rcases List.mem_cons.1 hm with rfl | hm
  · exact hn
  · exact h m hm

/-- What a round of the loop leads to: more slots have been looked at, or fewer segments are left.
-/
def Passes (size : ℕ) (t : Slots) (k : ℕ ×ₗ ℕ) (r : Pop ⊕ Pop) (s : Memory) : Prop :=
  Sum.elim (fun l => ∃ rest, Passing size t rest l s ∧
    toLex (rest.length, 2 * size - l.walkCount) < k)
    (fun l => Popped size t l s) r

/-- A look at a slot, in a pass that goes on. `l` is the state before the look is counted. -/
theorem look_spec (h : Passing size t rest l s) {k : ℕ ×ₗ ℕ}
    (hk : toLex (rest.length, 2 * size - (l.walkCount + 1)) < k) :
    Alone (Passes size t k) (look c size { l with walkCount := l.walkCount + 1 }) s := by
  obtain ⟨hhead, rfl, hl, hc, ht, hun, hscan, -⟩ := h
  unfold look
  refine Total.read_iff.2 ?_
  rw [hhead]
  cases hx : s.slots.slot ⟨s.segs.head.segment, wrap size l.popSlot⟩ with
  | none =>
    rw [if_neg fun hne : (none : Option ℕ) ≠ none => hne rfl]
    refine Total.read_iff.2 ?_
    rw [if_pos rfl]
    refine .ret ⟨rest, ⟨rfl, rfl, hl, hc, ht, ?_, hscan.hop hx, fun _ => rfl⟩, hk⟩
    rintro (hle | hlast)
    · exact hun (.inl (Nat.lt_of_succ_lt hle))
    · exact hun (.inr hlast)
  | some n =>
    -- one pass finds the item
    have hlt : l.walkCount < size := by
      by_contra hge
      have hnone := hscan.all_of_le (not_lt.1 hge) _ hscan.lt
      exact absurd (hnone.symm.trans hx) nofun
    obtain ⟨hremove, hmarked⟩ := hun (.inl hlt)
    rw [if_pos nofun]
    simp only [decMarked, hmarked]
    exact .ret ⟨rfl, ⟨rest, hl, .cons hremove hc, ht⟩, rfl, .inr ⟨n, rfl, hx⟩⟩

/-- After two passes: the answer of the empty stack, or the next segment. -/
theorem leaveSegment_spec (hsize : 0 < size) (h : Passing size t rest l s)
    (hwalk : size * 2 ≤ l.walkCount) :
    Alone (Passes size t (toLex (rest.length, 2 * size - l.walkCount)))
      (leaveSegment c size l) s := by
  obtain ⟨hhead, rfl, hl, hc, ht, hun, hscan, hmiss⟩ := h
  have hfree := hscan.all_of_le (show size ≤ l.walkCount by omega)
  unfold leaveSegment
  refine Total.read_iff.2 ?_
  rw [hhead]
  cases hnext : (s.segs.heap s.segs.head.segment).next with
  | none =>
    rw [if_pos rfl]
    refine Total.read_iff.2 ?_
    rw [if_pos rfl]
    refine .ret ⟨rfl, ⟨rest, hl, .cons (hun (.inr hnext)).1 hc, ht⟩, congrArg Head.segment hhead,
      .inl ⟨hmiss (by omega), fun x => ?_⟩⟩
    -- there is no other segment
    obtain rfl : rest = [] := by
      have hpath : Path (fun n => (s.segs.heap n).next)
        (s.segs.heap s.segs.head.segment).next rest := hl.path.2
      rw [hnext] at hpath
      cases rest with
      | nil => rfl
      | cons n rest => exact absurd hpath.1 nofun
    by_contra hne
    obtain ⟨n, hn⟩ := Option.ne_none_iff_exists'.1 hne
    obtain ⟨hseg, hidx, -⟩ := ht.held x n hn
    have hnone := hfree x.idx hidx
    rw [← List.mem_singleton.1 hseg] at hnone
    exact hne hnone
  | some m =>
    rw [if_neg nofun]
    refine Total.read_iff.2 ?_
    rw [hnext]
    simp only [popHeadCae, Prog.bind_assoc]
    refine Total.cae_of_eq rfl fun _ => ⟨True.intro, ?_⟩
    have hl' := hl.pop hnext c.op (s.segs.head.version + 1)
    have ht' := ht.pop hfree
    obtain ⟨rest', hrest⟩ := hl'.head
    obtain rfl : rest = m :: rest' := hrest
    have hpass : Passing size s.slots rest'
        { l with currentHead := ⟨m, s.segs.head.version + 1⟩, walkCount := 0, marked := false }
        (s.onSegs (·.pop c.op ⟨m, s.segs.head.version + 1⟩)) := by
      refine ⟨rfl, rfl, hl', fun n hn => hc n (List.mem_cons_of_mem _ hn), ht', fun _ => ⟨?_, rfl⟩,
        ?_, ?_⟩
      · exact hc m (List.mem_cons_self ..)
      · exact .start (wrap_lt hsize _)
      · exact fun hlt => absurd hlt (lt_irrefl 0)
    unfold restart
    refine readHead_alone ?_
    exact look_spec hpass (Prod.Lex.toLex_lt_toLex.2 (.inl (Nat.lt_succ_self _)))

theorem walk_spec (hsize : 0 < size) (h : Passing size t rest l s) :
    Alone (Passes size t (toLex (rest.length, 2 * size - l.walkCount))) (walk c size l) s := by
  unfold walk
  split
  next hge => exact leaveSegment_spec hsize h hge
  next hlt =>
    refine look_spec h (Prod.Lex.toLex_lt_toLex.2 (.inr ⟨rfl, ?_⟩))
    show 2 * size - (l.walkCount + 1) < 2 * size - l.walkCount
    omega

theorem getPopSlotRound_spec (hsize : 0 < size) (h : Passing size t rest l s) :
    Alone (Passes size t (toLex (rest.length, 2 * size - l.walkCount)))
      (getPopSlotRound c size l) s := by
  unfold getPopSlotRound
  split
  next hwalk =>
    refine Total.read_iff.2 ?_
    split
    next hnext =>
      -- the removal is announced after a pass over empty slots
      refine Total.update_iff.2 fun _ => ⟨True.intro, ?_⟩
      obtain ⟨hhead, rfl, hl, hc, ht, -, hscan, hmiss⟩ := h
      rw [hhead] at hnext
      have hpass : Passing size s.slots rest { l with marked := true }
          (s.onSegs (·.mark c.op l.currentHead.segment)) := by
        rw [hhead]
        refine ⟨rfl, rfl, hl.mark _ _, hc.mark hl.nodup _, ht, ?_, hscan, hmiss⟩
        rintro (hlt | hlast)
        · exact absurd hlt (hwalk.trans_ge le_rfl).not_gt
        · exact absurd ((mark_next _ _ _).symm.trans hlast) hnext
      exact walk_spec hsize hpass
    next => exact walk_spec hsize h
  next => exact walk_spec hsize h

theorem getPopSlot_spec (hsize : 0 < size) (h : Quiet size s) :
    Alone (fun l s' => Popped size s.slots l s') (getPopSlot c size) s := by
  obtain ⟨line, hl, hc, ht⟩ := h
  obtain ⟨rest, rfl⟩ := hl.head
  unfold getPopSlot
  refine randomSlot_alone fun r => readHead_alone ?_
  have hstart : Passing size s.slots rest ⟨r % size, s.segs.head, 0, false, none⟩ s := by
    refine ⟨rfl, rfl, hl, fun n hn => hc n (List.mem_cons_of_mem _ hn), ht, fun _ => ⟨?_, rfl⟩, ?_,
      fun _ => rfl⟩
    · exact hc _ (List.mem_cons_self ..)
    · exact .start (wrap_lt hsize _)
  refine Total.forever_ghost (fun k l s' => ∃ rest, Passing size s.slots rest l s' ∧
    k = toLex (rest.length, 2 * size - l.walkCount)) ?_ ⟨rest, hstart, rfl⟩
  rintro _ l s' ⟨rest', hpass, rfl⟩
  refine (getPopSlotRound_spec hsize hpass).mono ?_
  rintro (l' | l') s'' hr
  · obtain ⟨rest'', hpass', hlt⟩ := hr
    exact ⟨_, hlt, rest'', hpass', rfl⟩
  · exact hr

/-- A pop takes one of the youngest items, if there is one. -/
inductive Takes (size op : ℕ) (s : Memory) (r : ℤ) (s' : Memory) : Prop
  | empty (hempty : s.slots.present = []) (hr : r = 0) (hs : s'.slots = s.slots)
  | item (n : ℕ) (hn : n ∈ s.slots.present) (hr : r = s.slots.val n)
    (hval : s'.slots.val = s.slots.val)
      (htakes : s'.slots.takes = s.slots.takes ++ [(n, op)])
      (hpresent : s'.slots.present = s.slots.present.filter fun m => m ≠ n)
      (hyounger : (s.slots.younger n).length ≤ size - 1)

theorem pop_spec (hsize : 0 < size) (h : Quiet size s) :
    Alone (fun r s' => Quiet size s' ∧ Takes size c.op s r s') (mstackRelaxedDelete c size) s := by
  unfold mstackRelaxedDelete
  refine Total.forever_once (Total.bind_of (getPopSlot_spec hsize h) fun l s' hpop => ?_)
  obtain ⟨hslots, ⟨rest, hl, hc, ht⟩, hseg, ⟨hnode, hnone⟩ | ⟨n, hnode, hx⟩⟩ := hpop
  · rw [hnode]
    refine .ret ⟨0, rfl, ⟨_, hl, hc, hslots ▸ ht⟩, .empty ?_ rfl hslots⟩
    refine List.eq_nil_iff_forall_not_mem.2 fun n hn => ?_
    obtain ⟨x, hx⟩ := ht.kept n hn
    exact absurd ((hnone x).symm.trans hx) nofun
  · rw [hnode]
    simp only [takeNode, takeCas, Prog.bind_assoc]
    have hx' : s'.slots.slot ⟨l.currentHead.segment, l.popSlot⟩ = some n := by
      rw [hslots]
      exact hx
    refine Total.cae_of_eq hx' fun _ =>
      ⟨True.intro, Total.read_iff.2 (.ret ⟨_, rfl, ⟨_, hl, hc, ?_⟩, ?_⟩)⟩
    · show Stocked size _ (s'.slots.take _ _ _)
      rw [hslots]
      exact ht.take hx c.op
    · have hval : s'.slots.val = s.slots.val := congrArg Slots.val hslots
      refine .item n (ht.held _ n hx).2.2 (congrFun hval n) hval ?_ ?_ (ht.younger_le hx hseg)
      · show s'.slots.takes ++ _ = _
        rw [hslots]
      · show (s'.slots.take _ _ _).present = _
        rw [hslots]
        exact present_take _ _ _

end Sequential

/-! ### The theorem -/

/-- What a call does: a push returns 1 and leaves its item on top, a pop takes an item with at most
`size - 1` younger ones in the stack and returns its value, or returns 0 from the empty stack. -/
def Relaxed (size : ℕ) (c : Caller × Call) (s : Memory) (r : ℤ) (s' : Memory) : Prop :=
  match c.2 with
  | .push val => Sequential.Pushed val s r s'
  | .pop => Sequential.Takes size c.1.op s r s' ∧
      ((∀ n ∈ s.slots.present, s.slots.val n ≠ 0) → (r = 0 ↔ s.slots.present = []))

open StackKSegment.Sequential in
/-- For calls one at a time: the items in the slots of the segments that can be reached from the
head are those that have been pushed and not popped, none is popped twice, every call returns, and
each pop is relaxed by the size of a segment. -/
theorem kSegmentStack_sequential {size : ℕ} (hsize : 0 < size) {s : Memory} {ls : ℕ → Unit}
    (hr : (stackObject size).Reach initial () s ls) :
    (s.slots.takes.map Prod.fst).Nodup ∧
      (∃ line, Path (fun n => (s.segs.heap n).next) (some s.segs.head.segment) line ∧
        ∀ n, n ∈ s.slots.present ↔ ∃ x, x.seg ∈ line ∧ x.idx < size ∧ s.slots.slot x = some n) ∧
      (stackObject size).Meets (Relaxed size) s ls := by
  have hcall : ∀ (c : Caller × Call) (l : Unit) (s : Memory), Quiet size s →
      Alone (fun r s' => Quiet size s' ∧ Relaxed size c s r.2 s')
        ((stackObject size).code c l) s := by
    rintro ⟨c, call⟩ l s hq
    cases call with
    | push val => exact Total.bind_of (push_spec hsize hq val) fun r s' h => .ret h
    | pop =>
      refine Total.bind_of (pop_spec hsize hq) fun r s' h => .ret ⟨h.1, h.2, fun hval => ?_⟩
      cases h.2 with
      | empty hempty hr => exact iff_of_true hr hempty
      | item n hn hr =>
        refine iff_of_false (fun h0 => hval n hn (hr.symm.trans h0)) fun hnil => ?_
        rw [hnil] at hn
        cases hn
  have hquiet : Quiet size s := by
    refine (SeqReach.invariant (C := .trivial Memory) (Quiet size)
      (fun _ _ => True) ?_ True.intro ?_ hr).1
    · exact ⟨[0], .init, fun n _ => rfl, .init⟩
    · intro c l s _ hq _
      exact (hcall c l s hq).mono fun r s' h => ⟨h.1, True.intro, fun _ _ => True.intro⟩
  refine ⟨?_, ?_, Object.meets fun t c => (hcall c (ls t) s hquiet).mono fun r s' h => h.2⟩
  · obtain ⟨line, -, -, ht⟩ := hquiet
    exact ht.takes
  · obtain ⟨line, hl, -, ht⟩ := hquiet
    refine ⟨line, hl.path, fun n => ⟨fun hn => ?_, ?_⟩⟩
    · obtain ⟨x, hx⟩ := ht.kept n hn
      exact ⟨x, (ht.held x n hx).1, (ht.held x n hx).2.1, hx⟩
    · rintro ⟨x, -, -, hx⟩
      exact (ht.held x n hx).2.2

/-- Two pushes with two slots in a segment, and what holds after them. -/
theorem kSegmentStack_sequential_two : ∃ s ls, s.slots.present = [0, 1] ∧
    (s.slots.takes.map Prod.fst).Nodup ∧ (stackObject 2).Meets (Relaxed 2) s ls := by
  have h : (((stackObject 2).exec 40 [(0, (⟨0, 0⟩, .push 7), fun _ => 0),
    (1, (⟨1, 1⟩, .push 8), fun _ => 0)]
      initial fun _ => ()).any fun x => decide (x.1.slots.present = [0, 1])) = true := by
    decide +kernel
  obtain ⟨⟨s, ls, tr⟩, he, hc⟩ := (Option.any_eq_true _ _).1 h
  have hr : (stackObject 2).Reach initial () s ls :=
    Object.exec_reach he (fun _ _ _ => True.intro) (fun _ _ => True.intro) .init
  obtain ⟨h₁, -, h₂⟩ := kSegmentStack_sequential Nat.two_pos hr
  exact ⟨s, ls, of_decide_eq_true hc, h₁, h₂⟩

end StackKSegment
