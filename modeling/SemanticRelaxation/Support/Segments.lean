import SemanticRelaxation.Support.Linked
import SemanticRelaxation.Prog.Rely

/-!
# Chains of segments

An array of linked lists of segments with a head and a tail pointer each, for queues that store many
items in one node. A segment is linked behind the last one first, and the tail pointer follows
later. The head pointer may be anywhere in the chain, also in front of the tail pointer.

* `Chain.pos`: the position of a segment in its line, `headPos` and `tailPos`: those of the
  pointers;
* `Valid w s`: the pointers point into the lines, the tail to the last segment or the one before it;
* `Grows R s s'`: what every step keeps, where `R` says how the contents of a segment change;
* `Valid.create`, `Valid.link`, `Valid.setTail`, `Valid.setHead`, `Valid.modify`: the steps.
-/

namespace Segments

open Linked AtomicProg

/-- The cells with the head and tail pointers. -/
structure Chain (α : Type) where
  cells : Cells α
  head : ℕ → ℕ
  tail : ℕ → ℕ

variable {α : Type} {w : ℕ} {s s' s'' : Chain α} {i j p q n t : ℕ} {R : α → α → Prop}

namespace Chain

/-- `w` chains of one segment. -/
def init (α : Type) [Inhabited α] (w : ℕ) : Chain α := ⟨.init α w, id, id⟩

variable (s : Chain α)

/-- The position of the segment `n` in line `j`. -/
def pos (j n : ℕ) : ℕ := (s.cells.line j).idxOf n

/-- The position that the head pointer points to. -/
def headPos (j : ℕ) : ℕ := s.pos j (s.head j)

/-- The position that the tail pointer points to. -/
def tailPos (j : ℕ) : ℕ := s.pos j (s.tail j)

/-- The contents of a segment. -/
def seg (n : ℕ) : α := (s.cells.heap n).val

/-- A segment is allocated. -/
def create (val : α) : Chain α := { s with cells := s.cells.create val }

/-- The segment `n` is linked behind `t` in chain `j`. -/
def link (j t n : ℕ) : Chain α := { s with cells := s.cells.append j (some t) n }

/-- A store to the tail pointer of chain `j`. -/
def setTail (j n : ℕ) : Chain α := { s with tail := Function.update s.tail j n }

/-- A store to the head pointer of chain `j`. -/
def setHead (j n : ℕ) : Chain α := { s with head := Function.update s.head j n }

/-- The contents of the segment `n` are changed. -/
def modify (n : ℕ) (f : α → α) : Chain α :=
  { s with cells :=
    { s.cells with
      heap := Function.update s.cells.heap n
        { s.cells.heap n with val := f (s.cells.heap n).val } } }

theorem modify_self (n : ℕ) (f : α → α) : (s.modify n f).seg n = f (s.seg n) := by
  show (Function.update s.cells.heap n _ n).val = _
  rw [Function.update_self]
  rfl

theorem modify_of_ne {k : ℕ} (h : k ≠ n) (f : α → α) : (s.modify n f).seg k = s.seg k := by
  show (Function.update s.cells.heap n _ k).val = _
  rw [Function.update_of_ne h]
  rfl

theorem modify_next (n : ℕ) (f : α → α) (k : ℕ) :
    ((s.modify n f).cells.heap k).next = (s.cells.heap k).next := by
  show (Function.update s.cells.heap n _ k).next = _
  by_cases hk : k = n
  · subst hk
    rw [Function.update_self]
  · rw [Function.update_of_ne hk]

theorem link_seg (j t n k : ℕ) : (s.link j t n).seg k = s.seg k := s.cells.append_val j (some t) n k

theorem create_seg_self (val : α) : (s.create val).seg s.cells.fresh = val := by
  show (Function.update s.cells.heap s.cells.fresh _ s.cells.fresh).val = _
  rw [Function.update_self]

theorem create_seg_of_ne {k : ℕ} (h : k ≠ s.cells.fresh) (val : α) :
    (s.create val).seg k = s.seg k := by
  show (Function.update s.cells.heap s.cells.fresh _ k).val = _
  rw [Function.update_of_ne h]
  rfl

end Chain

/-- The invariant of `w` chains. -/
structure Valid (w : ℕ) (s : Chain α) : Prop where
  lines : Lines w s.cells
  head : ∀ j < w, s.head j ∈ s.cells.line j
  tail : ∀ j < w, s.tail j ∈ s.cells.line j
  near : ∀ j < w, s.tailPos j + 1 = (s.cells.line j).length ∨
    s.tailPos j + 2 = (s.cells.line j).length

/-- What every step keeps. -/
structure Grows (R : α → α → Prop) (w : ℕ) (s s' : Chain α) : Prop where
  line : ∀ j, s.cells.line j <+: s'.cells.line j
  head : ∀ j < w, s.headPos j ≤ s'.headPos j
  tail : ∀ j < w, s.tailPos j ≤ s'.tailPos j
  fresh : s.cells.fresh ≤ s'.cells.fresh
  seg : ∀ n < s.cells.fresh, R (s.seg n) (s'.seg n)

/-- The position of a member does not change when the line grows. -/
theorem pos_of_grown (h : s.cells.line j <+: s'.cells.line j) (hn : n ∈ s.cells.line j) :
    s'.pos j n = s.pos j n := by
  obtain ⟨l, hl⟩ := h
  rw [Chain.pos, ← hl, List.idxOf_append_of_mem hn, Chain.pos]

namespace Grows

theorem getElem? (h : Grows R w s s') (hn : (s.cells.line j)[p]? = some n) :
    (s'.cells.line j)[p]? = some n := (h.line j).getElem?_of_some hn

theorem refl (hR : ∀ a, R a a) (s : Chain α) : Grows R w s s :=
  ⟨fun _ => List.prefix_refl _, fun _ _ => le_rfl, fun _ _ => le_rfl, le_rfl, fun _ _ => hR _⟩

theorem trans (hR : ∀ a b c, R a b → R b c → R a c) (h : Grows R w s s') (h' : Grows R w s' s'') :
    Grows R w s s'' where
  line j := (h.line j).trans (h'.line j)
  head j hj := (h.head j hj).trans (h'.head j hj)
  tail j hj := (h.tail j hj).trans (h'.tail j hj)
  fresh := h.fresh.trans h'.fresh
  seg n hn := hR _ _ _ (h.seg n hn) (h'.seg n (hn.trans_le h.fresh))

end Grows

/-- A segment of the line stands at its position. -/
theorem getElem?_pos (hn : n ∈ s.cells.line j) : (s.cells.line j)[s.pos j n]? = some n := by
  have hlt : s.pos j n < (s.cells.line j).length := List.idxOf_lt_length_iff.2 hn
  rw [List.getElem?_eq_getElem hlt]
  exact congrArg some (List.getElem_idxOf hlt)

namespace Valid

variable (h : Valid w s)
include h

theorem pos_eq (hj : j < w) (hn : (s.cells.line j)[p]? = some n) : s.pos j n = p :=
  (h.lines.inj j hj j hj _ _ n (getElem?_pos (List.mem_of_getElem? hn)) hn).2

theorem getElem?_head (hj : j < w) : (s.cells.line j)[s.headPos j]? = some (s.head j) :=
  getElem?_pos (h.head j hj)

theorem getElem?_tail (hj : j < w) : (s.cells.line j)[s.tailPos j]? = some (s.tail j) :=
  getElem?_pos (h.tail j hj)

theorem tailPos_lt (hj : j < w) : s.tailPos j < (s.cells.line j).length := by
  have := h.near j hj
  omega

theorem headPos_lt (hj : j < w) : s.headPos j < (s.cells.line j).length :=
  (List.getElem?_eq_some_iff.1 (h.getElem?_head hj)).1

theorem lt_fresh (hj : j < w) (hn : (s.cells.line j)[p]? = some n) : n < s.cells.fresh :=
  h.lines.lt_fresh j hj n (List.mem_of_getElem? hn)

/-- The successor of a segment of the line. -/
theorem next (hj : j < w) (hn : (s.cells.line j)[p]? = some n) :
    (s.cells.heap n).next = (s.cells.line j)[p + 1]? := h.lines.next j hj p n hn

/-- A segment that was the tail once and has no successor is the tail and the last segment. -/
theorem tail_of_last (hj : j < w) (ht : (s.cells.line j)[p]? = some t) (hle : p ≤ s.tailPos j)
    (hnone : (s.cells.heap t).next = none) :
    s.tailPos j = p ∧ p + 1 = (s.cells.line j).length := by
  have hlast := h.lines.last hj ht hnone
  have hlt := h.tailPos_lt hj
  omega

/-! ### The steps -/

theorem create (val : α) : Valid w (s.create val) :=
  ⟨h.lines.create val, h.head, h.tail, h.near⟩

omit h in
theorem create_grows (hR : ∀ a, R a a) (val : α) : Grows R w s (s.create val) where
  line _ := List.prefix_refl _
  head _ _ := le_rfl
  tail _ _ := le_rfl
  fresh := Nat.le_succ _
  seg n hn := by
    rw [s.create_seg_of_ne hn.ne]
    exact hR _

theorem link_grows (hR : ∀ a, R a a) (j t n : ℕ) : Grows R w s (s.link j t n) := by
  have hline : ∀ i, s.cells.line i <+: (s.link j t n).cells.line i := by
    intro i
    show s.cells.line i <+: Function.update s.cells.line j (s.cells.line j ++ [n]) i
    by_cases hi : i = j
    · subst hi
      rw [Function.update_self]
      exact List.prefix_append _ _
    · rw [Function.update_of_ne hi]
  refine ⟨hline, fun i hi => ?_, fun i hi => ?_, (s.cells.append_fresh j (some t) n).ge,
    fun k _ => ?_⟩
  · exact (pos_of_grown (hline i) (h.head i hi)).ge
  · exact (pos_of_grown (hline i) (h.tail i hi)).ge
  · rw [s.link_seg]
    exact hR _

theorem link (hj : j < w) (ht : (s.cells.line j)[p]? = some t) (hle : p ≤ s.tailPos j)
    (hnone : (s.cells.heap t).next = none) (hn : Unlinked w s.cells n) :
    Valid w (s.link j t n) := by
  obtain ⟨htail, hlast⟩ := h.tail_of_last hj ht hle hnone
  have hg : Grows (fun _ _ => True) w s (s.link j t n) := h.link_grows (fun _ => True.intro) j t n
  refine ⟨h.lines.append hj ht hnone hn.lt_fresh hn.notMem hn.next,
    fun i hi => (hg.line i).mem (h.head i hi), fun i hi => (hg.line i).mem (h.tail i hi),
    fun i hi => ?_⟩
  have hpos : (s.link j t n).tailPos i = s.tailPos i := pos_of_grown (hg.line i) (h.tail i hi)
  rw [hpos]
  show _ = (Function.update s.cells.line j (s.cells.line j ++ [n]) i).length ∨
    _ = (Function.update s.cells.line j (s.cells.line j ++ [n]) i).length
  by_cases hij : i = j
  · subst hij
    rw [Function.update_self, List.length_append, List.length_singleton]
    exact .inr (by omega)
  · rw [Function.update_of_ne hij]
    exact h.near i hi

theorem setTail_pos (hj : j < w) (hn : (s.cells.line j)[p]? = some n) (i : ℕ) :
    (s.setTail j n).tailPos i = if i = j then p else s.tailPos i := by
  show s.pos i (Function.update s.tail j n i) = _
  by_cases hi : i = j
  · subst hi
    rw [Function.update_self, if_pos rfl, h.pos_eq hj hn]
  · rw [Function.update_of_ne hi, if_neg hi]
    rfl

theorem setHead_pos (hj : j < w) (hn : (s.cells.line j)[p]? = some n) (i : ℕ) :
    (s.setHead j n).headPos i = if i = j then p else s.headPos i := by
  show s.pos i (Function.update s.head j n i) = _
  by_cases hi : i = j
  · subst hi
    rw [Function.update_self, if_pos rfl, h.pos_eq hj hn]
  · rw [Function.update_of_ne hi, if_neg hi]
    rfl

/-- The tail pointer moves one segment on. -/
theorem setTail (hj : j < w) (hn : (s.cells.line j)[s.tailPos j + 1]? = some n) :
    Valid w (s.setTail j n) := by
  refine ⟨h.lines, h.head, fun i hi => ?_, fun i hi => ?_⟩
  · show Function.update s.tail j n i ∈ s.cells.line i
    by_cases hij : i = j
    · subst hij
      rw [Function.update_self]
      exact List.mem_of_getElem? hn
    · rw [Function.update_of_ne hij]
      exact h.tail i hi
  · rw [h.setTail_pos hj hn]
    have h₁ := h.near i hi
    by_cases hij : i = j
    · subst hij
      have h₂ := (List.getElem?_eq_some_iff.1 hn).1
      rw [if_pos rfl]
      exact .inl (by show s.tailPos i + 1 + 1 = (s.cells.line i).length; omega)
    · rw [if_neg hij]
      exact h₁

theorem setTail_grows (hR : ∀ a, R a a) (hj : j < w)
    (hn : (s.cells.line j)[s.tailPos j + 1]? = some n) : Grows R w s (s.setTail j n) where
  line _ := List.prefix_refl _
  head _ _ := le_rfl
  tail i hi := by
    rw [h.setTail_pos hj hn]
    split
    next hij => exact hij ▸ Nat.le_succ _
    next => exact le_rfl
  fresh := le_rfl
  seg _ _ := hR _

/-- The head pointer moves on. -/
theorem setHead (hn : n ∈ s.cells.line j) : Valid w (s.setHead j n) := by
  refine ⟨h.lines, fun i hi => ?_, h.tail, h.near⟩
  show Function.update s.head j n i ∈ s.cells.line i
  by_cases hij : i = j
  · subst hij
    rwa [Function.update_self]
  · rw [Function.update_of_ne hij]
    exact h.head i hi

theorem setHead_grows (hR : ∀ a, R a a) (hj : j < w) (hn : (s.cells.line j)[p]? = some n)
    (hle : s.headPos j ≤ p) : Grows R w s (s.setHead j n) where
  line _ := List.prefix_refl _
  head i hi := by
    rw [h.setHead_pos hj hn]
    split
    next hij => exact hij ▸ hle
    next => exact le_rfl
  tail _ _ := le_rfl
  fresh := le_rfl
  seg _ _ := hR _

theorem modify (n : ℕ) (f : α → α) : Valid w (s.modify n f) :=
  ⟨⟨h.lines.ne_nil, fun j hj p k hk => (s.modify_next n f k).trans (h.lines.next j hj p k hk),
    h.lines.inj, h.lines.lt_fresh⟩, h.head, h.tail, h.near⟩

omit h in
theorem modify_grows (hR : ∀ a, R a a) {f : α → α} (hf : R (s.seg n) (f (s.seg n))) :
    Grows R w s (s.modify n f) where
  line _ := List.prefix_refl _
  head _ _ := le_rfl
  tail _ _ := le_rfl
  fresh := le_rfl
  seg k _ := by
    by_cases hk : k = n
    · subst hk
      rwa [s.modify_self]
    · rw [s.modify_of_ne hk]
      exact hR _

end Valid

theorem Valid.init [Inhabited α] : Valid w (Chain.init α w) where
  lines := .init
  head _ _ := List.mem_singleton_self _
  tail _ _ := List.mem_singleton_self _
  near j _ := by
    refine .inl ?_
    show [j].idxOf j + 1 = [j].length
    simp

/-- What the steps of the others keep for the owner `o`, where `g` names the call that has allocated
a segment. -/
structure Frame (R : α → α → Prop) (w : ℕ) (o : Owner) (s : Chain α) (g : ℕ → Owner) (s' : Chain α)
    (g' : ℕ → Owner) : Prop where
  grows : Grows R w s s'
  owner : ∀ n < s.cells.fresh, g' n = g n
  unlinked : ∀ n, o = g n → Unlinked w s.cells n →
    Unlinked w s'.cells n ∧ s'.seg n = s.seg n

namespace Frame

variable {o : Owner} {g g' g'' : ℕ → Owner} {c : Caller}

theorem refl (hR : ∀ a, R a a) (o : Owner) (s : Chain α) (g : ℕ → Owner) : Frame R w o s g s g :=
  ⟨.refl hR s, fun _ _ => rfl, fun _ _ h => ⟨h, rfl⟩⟩

theorem trans (hR : ∀ a b c, R a b → R b c → R a c) (h : Frame R w o s g s' g')
    (h' : Frame R w o s' g' s'' g'') : Frame R w o s g s'' g'' where
  grows := h.grows.trans hR h'.grows
  owner n hn := (h'.owner n (hn.trans_le h.grows.fresh)).trans (h.owner n hn)
  unlinked n ho hn := by
    obtain ⟨h₁, he₁⟩ := h.unlinked n ho hn
    obtain ⟨h₂, he₂⟩ := h'.unlinked n (by rw [h.owner n hn.lt_fresh, ho]) h₁
    exact ⟨h₂, he₂.trans he₁⟩

theorem create (hR : ∀ a, R a a) (s : Chain α) (val : α) (o' : Owner) :
    Frame R w o s g (s.create val) (Function.update g s.cells.fresh o') where
  grows := Valid.create_grows hR val
  owner _ hn := Function.update_of_ne hn.ne _ _
  unlinked _ _ hn := ⟨hn.create_of_ne val, s.create_seg_of_ne hn.lt_fresh.ne val⟩

theorem link (hR : ∀ a, R a a) (h : Valid w s) (ho : o ≠ g n) (hj : j < w)
    (ht : (s.cells.line j)[p]? = some t) : Frame R w o s g (s.link j t n) g where
  grows := h.link_grows hR j t n
  owner _ _ := rfl
  unlinked k hk hu :=
    ⟨hu.append (fun e => ho (e ▸ hk)) hj ht, s.link_seg j t n k⟩

/-- A step that leaves the cells alone. -/
theorem of_cells (hg : Grows R w s s') (hc : s'.cells = s.cells) : Frame R w o s g s' g where
  grows := hg
  owner _ _ := rfl
  unlinked _ _ hn := ⟨hc ▸ hn, by rw [Chain.seg, hc, Chain.seg]⟩

/-- A change of a segment of a line, or of one that belongs to somebody else. -/
theorem modify (hR : ∀ a, R a a) {f : α → α} (hf : R (s.seg n) (f (s.seg n)))
    (hn : o = g n → ¬ Unlinked w s.cells n) : Frame R w o s g (s.modify n f) g where
  grows := Valid.modify_grows hR hf
  owner _ _ := rfl
  unlinked k ho hk := by
    have hkn : k ≠ n := by
      rintro rfl
      exact hn ho hk
    exact ⟨⟨hk.lt_fresh, hk.notMem, (s.modify_next n f k).trans hk.next⟩, s.modify_of_ne hkn f⟩

end Frame

end Segments
