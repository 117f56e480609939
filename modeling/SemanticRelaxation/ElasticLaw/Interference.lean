import SemanticRelaxation.ElasticLaw.Watched
import SemanticRelaxation.ElasticLaw.Invariant
import SemanticRelaxation.Support.Windowed
import SemanticRelaxation.Prog.Regime

/-!
# The elastic LaW queue under interference

`regime C set assume` is what the threads rely on and keep. The ghost state has the rows and
positions of the nodes of the sub-queues, and the positions of the lateral tail and head.

* `Inv`: the put side in all runs. The windows tile the rows, the sub-queues are filled window by
  window, each item has the row and the window it was enqueued with, and the get window is not
  behind the put window;
* what holds of the get side in runs without a late dequeue (`headed`), and in runs that are
  `Orderly` (`Emptied`): the lateral head moves off windows without items only, and no head is
  `NULL`;
* `Later`: what every step keeps, and `Kept`: what the steps of the others keep.
-/

namespace ElasticLaw

open AtomicProg Linked MichaelScott Windowed

/-- The sub-queues of the memory. -/
def State.queues (s : State) : Store ℤ := ⟨s.nodes.toCells, s.putArray, s.getArray⟩

/-- The lateral queue of the memory, with the positions of its tail and its head. -/
def State.laterals (s : State) (tail head : ℕ) : Store Window :=
  ⟨s.lateral, fun _ => ⟨s.lateralTail, tail⟩, fun _ => ⟨s.lateralHead, head⟩⟩

/-- The rows of a window and its sub-queues. -/
def Window.span (w : Window) : Span := ⟨w.bottom, w.max, w.width⟩

/-- The windows up to a position of the lateral queue, the last one first. Position 0 has no rows.
-/
def spansTo (m : Cells Window) : ℕ → List Span
  | 0 => []
  | k + 1 => (m.valAt (k + 1)).span :: spansTo m k

abbrev State.spans (s : State) (k : ℕ) : List Span := spansTo s.lateral k

namespace Watched

/-- The widths that are allocated. -/
def Allocated (set : Params) (width : ℕ) : Prop := 0 < width ∧ width ≤ set.maxWidth

/-! ### The windows -/

/-- The windows tile the rows. -/
structure Tiled (set : Params) (m : Cells Window) : Prop where
  first : (m.valAt 0).max = 0
  tile : ∀ k, k + 1 < (m.line 0).length →
    (m.valAt (k + 1)).max = (m.valAt k).max + (m.valAt (k + 1)).depth
  depth : ∀ k, k + 1 < (m.line 0).length → 0 < (m.valAt (k + 1)).depth
  width : ∀ k, k < (m.line 0).length → Allocated set (m.valAt k).width

namespace Tiled

variable {set : Params} {s : State} {k l : ℕ} (h : Tiled set s.lateral)
include h

theorem bottom_eq (hk : k + 1 < s.line.length) : (s.win (k + 1)).bottom = (s.win k).max := by
  have h₁ : (s.win (k + 1)).max = (s.win k).max + (s.win (k + 1)).depth := h.tile k hk
  rw [Window.bottom, Words.usub_of_le (by omega), h₁, Nat.add_sub_cancel]

theorem max_lt_succ (hk : k + 1 < s.line.length) : (s.win k).max < (s.win (k + 1)).max := by
  have h₁ : (s.win (k + 1)).max = (s.win k).max + (s.win (k + 1)).depth := h.tile k hk
  have h₂ : 0 < (s.win (k + 1)).depth := h.depth k hk
  omega

theorem bottom_lt (hk : k + 1 < s.line.length) : (s.win (k + 1)).bottom < (s.win (k + 1)).max :=
  (h.bottom_eq hk).trans_lt (h.max_lt_succ hk)

theorem max_le (hkl : k ≤ l) (hl : l < s.line.length) : (s.win k).max ≤ (s.win l).max := by
  induction l with
  | zero =>
    obtain rfl : k = 0 := Nat.le_zero.1 hkl
    exact le_rfl
  | succ l ih =>
    rcases hkl.lt_or_eq with hlt | rfl
    · exact (ih (Nat.lt_succ_iff.1 hlt) (Nat.lt_of_succ_lt hl)).trans (h.max_lt_succ hl).le
    · exact le_rfl

theorem lt_of_max_lt (hk : k < s.line.length) (hm : (s.win k).max < (s.win l).max) : k < l :=
  not_le.1 fun hle => absurd (h.max_le hle hk) (not_le.2 hm)

theorem spans (hk : k < s.line.length) : Spans (s.spans k) := by
  induction k with
  | zero => exact True.intro
  | succ k ih =>
    have hk' := ih (Nat.lt_of_succ_lt hk)
    have hb := h.bottom_eq hk
    have hlt := h.bottom_lt hk
    cases k with
    | zero => exact ⟨hb.trans h.first, hlt⟩
    | succ k => exact ⟨hb, hlt, hk'⟩

omit h in
theorem mem_spans (hkl : k < l) : (s.win (k + 1)).span ∈ s.spans l := by
  induction l with
  | zero => exact absurd hkl (Nat.not_lt_zero k)
  | succ l ih =>
    rcases Nat.lt_succ_iff_lt_or_eq.1 hkl with hlt | rfl
    · exact List.mem_cons_of_mem _ (ih hlt)
    · exact List.mem_cons_self ..

/-- Two windows that share a row are the same. -/
theorem eq_of_row {r : ℕ} (hk : k + 1 < s.line.length) (hl : l + 1 < s.line.length)
    (hbk : (s.win (k + 1)).bottom < r) (hrk : r ≤ (s.win (k + 1)).max)
    (hbl : (s.win (l + 1)).bottom < r) (hrl : r ≤ (s.win (l + 1)).max) : k = l := by
  rw [h.bottom_eq hk] at hbk
  rw [h.bottom_eq hl] at hbl
  have h₁ := h.lt_of_max_lt (Nat.lt_of_succ_lt hk) (hbk.trans_le hrl)
  have h₂ := h.lt_of_max_lt (Nat.lt_of_succ_lt hl) (hbl.trans_le hrk)
  omega

end Tiled

/-! ### The invariant -/

/-- What is known of the nodes of the sub-queues, who allocated a lateral node, the positions before
the put window and before the get window, and the positions of the heads in runs that are orderly.
-/
structure Ghost where
  places : Places
  lateralOwner : ℕ → ℕ
  tail : ℕ
  head : ℕ
  front : ℕ → ℕ

/-- Each item that was ever linked stands in the window and the row of its tag. -/
structure Items (n : ℕ) (s : State) (g : Ghost) : Prop where
  placed : ∀ x ∈ s.nodes.hist.added, x.idx < n ∧ (s.nodes.line x.idx)[x.pos]? = some x.node ∧
    (g.places.rows x.idx)[x.pos]? = some x.tag.row
  window : ∀ x ∈ s.nodes.hist.added, ∃ k ≤ g.tail, x.tag.window = s.win (k + 1) ∧
    x.idx < (s.win (k + 1)).width ∧ (s.win (k + 1)).bottom < x.tag.row ∧ x.tag.row ≤
      (s.win (k + 1)).max
  all : ∀ i < n, ∀ p, 0 < p → p < (s.nodes.line i).length →
    ∃ x ∈ s.nodes.hist.added, x.idx = i ∧ x.pos = p

/-- The invariant. -/
structure Inv (set : Params) (s : State) (w : Watch) (g : Ghost) : Prop where
  lateral : Valid 1 (s.laterals (g.tail + 1) g.head)
  tiled : Tiled set s.lateral
  order : g.head ≤ g.tail
  width : Allocated set s.width
  depth : 0 < s.depth
  filled : Filled set.maxWidth (s.win (g.tail + 1)).span (s.spans g.tail) s.queues g.places
  closed : g.tail + 2 < s.line.length →
    ∀ j < (s.win (g.tail + 1)).width, (s.win (g.tail + 1)).max ≤ (s.putArray j).count
  items : Items set.maxWidth s g
  headed : w.late = false → Headed set.maxWidth s.queues g.places
  asserted : s.failed = false

/-- The get window: the one behind the lateral head. -/
def getWin (s : State) : Window := (s.lateral.deref (s.lateral.deref s.lateralHead).next).val

/-- Sub-queue `j` passes the test of `get_window`: its get count is below the maximum of the get
window and below its put count. -/
def Passes (s : State) (j : ℕ) : Prop :=
  (s.getArray j).count < (getWin s).max ∧ (s.getArray j).count < (s.putArray j).count

/-- A step that moves the lateral head off a window whose sub-queues do not pass the test only, and
leaves no head `NULL`. -/
structure Orderly (set : Params) (s s' : State) : Prop where
  shift : s'.lateralHead ≠ s.lateralHead → ∀ j < (getWin s).width, ¬ Passes s j
  head : ∀ j < set.maxWidth, (s'.getArray j).node ≠ none

/-- The windows that the lateral head has passed have been emptied. -/
structure Emptied (set : Params) (s : State) (g : Ghost) : Prop where
  node : ∀ i < set.maxWidth, ∃ t, (s.getArray i).node = some t ∧
    (s.nodes.line i)[g.front i]? = some t
  le : ∀ i < set.maxWidth, ∀ r, (g.places.rows i)[g.front i]? = some r → (s.getArray i).count ≤ r
  lists : Queues set.maxWidth g.front s.nodes
  passed : ∀ k < g.head, ∀ i < (s.win (k + 1)).width, (s.win (k + 1)).max ≤ (s.getArray i).count

/-! ### What is kept -/

/-- What every step keeps. -/
structure Later (x x' : (State × Watch) × Ghost) : Prop where
  queues : Grown x.1.1.queues x.2.places x'.1.1.queues x'.2.places
  lateral : Grows (x.1.1.laterals (x.2.tail + 1) x.2.head)
    (x'.1.1.laterals (x'.2.tail + 1) x'.2.head)
  late : x'.1.2.late = false → x.1.2.late = false

namespace Later

variable {x x' x'' : (State × Watch) × Ghost}

theorem refl (x : (State × Watch) × Ghost) : Later x x := ⟨.refl _ _, .refl _, id⟩

theorem trans (h : Later x x') (h' : Later x' x'') : Later x x'' :=
  ⟨h.queues.trans h'.queues, h.lateral.trans h'.lateral, h.late ∘ h'.late⟩

theorem tail_le (h : Later x x') : x.2.tail ≤ x'.2.tail := Nat.le_of_succ_le_succ (h.lateral.put 0)

theorem head_le (h : Later x x') : x.2.head ≤ x'.2.head := h.lateral.get 0

end Later

/-- What the steps of the others keep for the owner `o`. -/
structure Kept (n : ℕ) (o : Owner) (x x' : (State × Watch) × Ghost) : Prop extends Later x x' where
  owned : Frame n o (Windowed.placed x.1.1.queues x.2.places) x.2.places.owner
    (Windowed.placed x'.1.1.queues x'.2.places) x'.2.places.owner
  ownedLateral : Frame 1 o (x.1.1.laterals (x.2.tail + 1) x.2.head) x.2.lateralOwner
    (x'.1.1.laterals (x'.2.tail + 1) x'.2.head) x'.2.lateralOwner

namespace Kept

variable {n : ℕ} {o : Owner} {x x' x'' : (State × Watch) × Ghost}

theorem refl (n : ℕ) (o : Owner) (x : (State × Watch) × Ghost) : Kept n o x x :=
  ⟨.refl x, .refl o _ _, .refl o _ _⟩

theorem trans (h : Kept n o x x') (h' : Kept n o x' x'') : Kept n o x x'' :=
  ⟨h.toLater.trans h'.toLater, h.owned.trans h'.owned, h.ownedLateral.trans h'.ownedLateral⟩

end Kept

/-- The rules that all threads keep to. -/
def regime (C : Type) (set : Params) (assume : State → State → Prop) :
    Regime C (State × Watch) Ghost where
  inv _ x := Inv set x.1.1 x.1.2 x.2 ∧
    ((∀ s s', assume s s' → Orderly set s s') → Emptied set x.1.1 x.2)
  frame := Kept set.maxWidth
  fresh _ _ := True
  assume x x' := assume x.1 x'.1
  refl := Kept.refl set.maxWidth
  trans _ _ _ _ h h' := h.trans h'
  inv_call _ _ _ h := h
  fresh_later _ _ _ _ _ := True.intro

/-! ### What the invariant says -/

/-- The windows of a longer lateral queue. -/
theorem valAt_of_prefix {m l : Cells Window} {k : ℕ} (hm : Lines 1 m)
    (hline : m.line 0 <+: l.line 0) (hval : ∀ n < m.fresh, (l.heap n).val = (m.heap n).val)
    (hk : k < (m.line 0).length) :
    l.valAt k = m.valAt k := by
  have hn := List.getElem?_eq_getElem hk
  have hn' := hline.getElem?_of_some hn
  unfold Cells.valAt
  rw [hn, hn']
  exact hval _ (hm.lt_fresh 0 one_pos _ (List.mem_of_getElem? hn))

theorem spansTo_congr {m l : Cells Window} {k : ℕ} (h : ∀ i ≤ k, l.valAt i = m.valAt i) :
    spansTo l k = spansTo m k := by
  induction k with
  | zero => rfl
  | succ k ih =>
    show (l.valAt (k + 1)).span :: spansTo l k = (m.valAt (k + 1)).span :: spansTo m k
    rw [h _ le_rfl, ih fun i hi => h i (Nat.le_succ_of_le hi)]

/-- The node at a position of the lateral queue. -/
theorem line_some {s : State} {k : ℕ} (hk : k < s.line.length) : ∃ n, s.line[k]? = some n :=
  ⟨_, List.getElem?_eq_getElem hk⟩

namespace Inv

variable {set : Params} {s : State} {w : Watch} {g : Ghost} (h : Inv set s w g)
include h

theorem lines : Lines 1 s.lateral := h.lateral.lines

theorem tail_lt : g.tail + 1 < s.line.length := h.lateral.put_lt one_pos

theorem tail_node : s.lateralTail = s.line[g.tail + 1]? := (h.lateral.tail 0 one_pos).symm

theorem head_node : s.lateralHead = s.line[g.head]? := (h.lateral.head 0 one_pos).symm

theorem near : g.tail + 2 = s.line.length ∨ g.tail + 3 = s.line.length := h.lateral.near 0 one_pos

/-- The link of a lateral node. -/
theorem line_next {k : ℕ} (hk : k < s.line.length) :
    (s.lateral.deref s.line[k]?).next = s.line[k + 1]? := by
  obtain ⟨n, hn⟩ := line_some hk
  rw [hn]
  exact h.lines.next 0 one_pos k n hn

/-- A lateral node has one position. -/
theorem line_inj {k l : ℕ} (hk : k < s.line.length) (he : s.line[k]? = s.line[l]?) : k = l := by
  obtain ⟨n, hn⟩ := line_some hk
  exact (h.lines.inj 0 one_pos 0 one_pos k l n hn (he ▸ hn)).2

theorem getWin_eq : getWin s = s.win (g.head + 1) := by
  have hlt := h.tail_lt
  have hle := h.order
  show (s.lateral.deref (s.lateral.deref s.lateralHead).next).val = _
  rw [h.head_node, h.line_next (by omega)]
  rfl

/-- A sub-queue of a window that is not full: the window is the put window. -/
theorem present {k j : ℕ} (hk : k ≤ g.tail) (hj : j < (s.win (k + 1)).width)
    (hc : (s.putArray j).count < (s.win (k + 1)).max) : k = g.tail := by
  have hlt := h.tail_lt
  by_contra hne
  have hk' : k < g.tail := lt_of_le_of_ne hk hne
  have hjn := hj.trans_le (h.tiled.width (k + 1) (show k + 1 < s.line.length by omega)).2
  have hspan := h.filled.present hjn (List.mem_cons_of_mem _ (Tiled.mem_spans (s := s) hk')) hj hc
  have hmax : (s.win (k + 1)).max = (s.win (g.tail + 1)).max := congrArg Span.max hspan
  have := h.tiled.max_lt_succ (k := g.tail) (by omega)
  have := h.tiled.max_le (k := k + 1) (l := g.tail) hk' (by omega)
  omega

/-- A window before the put window is full. -/
theorem full {k j : ℕ} (hk : k < g.tail) (hj : j < (s.win (k + 1)).width) :
    (s.win (k + 1)).max ≤ (s.putArray j).count := by
  by_contra hlt
  exact absurd (h.present hk.le hj (not_le.1 hlt)) hk.ne

end Inv

/-! ### The initial state -/

/-- The positions at the beginning. -/
def Ghost.init : Ghost := ⟨.init, fun _ => 0, 0, 0, fun _ => 0⟩

theorem inv_initial {set : Params} {width depth : ℕ} (hw : 0 < width) (hw' : width ≤ set.maxWidth)
    (hd : 0 < depth) : Inv set (initial set width depth) {} .init := by
  have hlen : ∀ k, k + 1 < (initial set width depth).line.length → k = 0 := by
    intro k hk
    have hk : k + 1 < 2 := hk
    omega
  have hbottom : Window.bottom ⟨depth, width, depth⟩ = 0 := by
    rw [Window.bottom, Words.usub_of_le le_rfl, Nat.sub_self]
  refine ⟨⟨⟨fun _ _ => List.cons_ne_nil _ _, fun j _ p n hn => ?_, fun i hi j hj p q n hp hq => ?_,
    fun j _ n hn => ?_⟩, fun _ _ => rfl, fun _ _ => .inl rfl, fun _ _ => rfl,
      fun _ _ => Nat.zero_le _⟩,
    ⟨rfl, fun k hk => ?_, fun k hk => ?_, fun k hk => ?_⟩, le_rfl, ⟨hw, hw'⟩, hd, ?_, fun hlt => ?_,
    ⟨fun x hx => absurd hx List.not_mem_nil, fun x hx => absurd hx List.not_mem_nil,
      fun i _ p h0 hp => ?_⟩,
    fun _ => ⟨fun _ _ => rfl, fun _ _ r hr => (Option.some.inj hr).ge⟩, rfl⟩
  · have hp : p < 2 := (List.getElem?_eq_some_iff.1 hn).1
    rcases (by omega : p = 0 ∨ p = 1) with rfl | rfl
    · obtain rfl : 0 = n := Option.some.inj hn
      rfl
    · obtain rfl : 1 = n := Option.some.inj hn
      rfl
  · have hp' : p < 2 := (List.getElem?_eq_some_iff.1 hp).1
    have hnd : [0, 1].Nodup := by decide
    exact ⟨by omega, (List.getElem?_inj hp' hnd).1 (hp.trans hq.symm)⟩
  · have hn : n ∈ [0, 1] := hn
    show n < 2
    simp only [List.mem_cons, List.not_mem_nil, or_false] at hn
    omega
  · rw [hlen k hk]
    exact (Nat.zero_add _).symm
  · rw [hlen k hk]
    exact hd
  · have hk : k < 2 := hk
    rcases (by omega : k = 0 ∨ k = 1) with rfl | rfl
    · exact ⟨hw, hw'⟩
    · exact ⟨hw, hw'⟩
  · have hf := Filled.init (α := ℤ) set.maxWidth depth width hd
    show Filled set.maxWidth ⟨Window.bottom ⟨depth, width, depth⟩, depth, width⟩ [] _ _
    rw [hbottom]
    exact hf
  · have hlt : 0 + 2 < 2 := hlt
    omega
  · have hp : p < 1 := hp
    omega

theorem emptied_initial (set : Params) (width depth : ℕ) :
    Emptied set (initial set width depth) .init where
  node i _ := ⟨i, rfl, rfl⟩
  le _ _ _ _ := Nat.zero_le _
  lists := .init
  passed k hk := absurd hk (Nat.not_lt_zero k)

end Watched

end ElasticLaw
