import SemanticRelaxation.Support.MichaelScott

/-!
# Michael-Scott queues that are filled window by window

The nodes of an array of linked queues are put into rows, window by window. A window (`Span`) has
the rows above its `bottom` up to its `max`, in the queues below its `width`. The rows of one queue
increase from node to node: a node that is put behind one of row `c` gets the row `nextRow bottom
c`, above the bottom of the present window.

* `Spans`: the windows so far, one upon the other, and `widthOf`, the width of the window of a row;
* `Places`: the rows of the nodes, and the positions of the tail and head nodes;
* `Filled`: the put side. What is below the present window is full, and no queue has a gap in
  windows that it belongs to;
* `Headed`: the get side. The row of a head node is not above the get count;
* `Filled.lt_put` and `Filled.row_le`: what the two sides together say of a head that is moved on;
* `Grown`: what every step keeps, with `WasTail` and `WasHead`, what a thread knows of a descriptor
  whose two words it has loaded one after the other.
-/

namespace Windowed

open Linked MichaelScott AtomicProg

/-! ### Increasing lists -/

section Increasing

variable {l : List ℕ} {p q a b : ℕ}

/-- Positions of an increasing list are in the order of their entries. -/
theorem lt_of_getElem? (h : l.Pairwise (· < ·)) (hp : l[p]? = some a) (hq : l[q]? = some b)
    (hpq : p < q) : a < b := by
  obtain ⟨hpl, rfl⟩ := List.getElem?_eq_some_iff.1 hp
  obtain ⟨hql, rfl⟩ := List.getElem?_eq_some_iff.1 hq
  exact List.pairwise_iff_getElem.1 h p q hpl hql hpq

theorem le_of_getElem? (h : l.Pairwise (· < ·)) (hp : l[p]? = some a) (hq : l[q]? = some b)
    (hpq : p ≤ q) : a ≤ b := by
  rcases hpq.lt_or_eq with hlt | rfl
  · exact (lt_of_getElem? h hp hq hlt).le
  · exact (Option.some.inj (hp.symm.trans hq)).le

theorem lt_of_lt_getElem? (h : l.Pairwise (· < ·)) (hp : l[p]? = some a) (hq : l[q]? = some b)
    (hab : a < b) : p < q :=
  not_le.1 fun hle => absurd (le_of_getElem? h hq hp hle) (not_le.2 hab)

end Increasing

/-! ### Windows -/

/-- The rows of a window and its queues. -/
structure Span where
  bottom : ℕ
  max : ℕ
  width : ℕ

/-- The row behind the row `count` in a window above `bottom`. -/
def nextRow (bottom count : ℕ) : ℕ := if bottom ≤ count then count + 1 else bottom + 1

theorem nextRow_gt (bottom count : ℕ) :
    count < nextRow bottom count ∧ bottom < nextRow bottom count := by
  unfold nextRow
  split <;> omega

theorem nextRow_le {bottom count max : ℕ} (hc : count < max) (hb : bottom < max) :
    nextRow bottom count ≤ max := by
  unfold nextRow
  split <;> omega

/-- Between a row and the next one are rows up to the bottom only. -/
theorem le_bottom_of_lt {bottom count r : ℕ} (hc : count < r) (hr : r < nextRow bottom count) :
    r ≤ bottom := by
  unfold nextRow at hr
  split at hr <;> omega

/-- Windows one upon the other, the last one first. -/
def Spans : List Span → Prop
  | [] => True
  | [s] => s.bottom = 0 ∧ s.bottom < s.max
  | s :: t :: l => s.bottom = t.max ∧ s.bottom < s.max ∧ Spans (t :: l)

/-- The width of the window that has the row. -/
def widthOf : List Span → ℕ → ℕ
  | [], _ => 0
  | s :: l, r => if s.bottom < r ∧ r ≤ s.max then s.width else widthOf l r

theorem Spans.lt {s : Span} {l : List Span} (h : Spans (s :: l)) : s.bottom < s.max := by
  cases l with
  | nil => exact h.2
  | cons => exact h.2.1

theorem Spans.tail {s : Span} {l : List Span} (h : Spans (s :: l)) : Spans l := by
  cases l with
  | nil => exact True.intro
  | cons => exact h.2.2

/-- Older windows are below the last one. -/
theorem Spans.max_le {s t : Span} {l : List Span} (h : Spans (s :: l)) (ht : t ∈ l) :
    t.max ≤ s.bottom := by
  induction l generalizing s with
  | nil => cases ht
  | cons u l ih =>
    have hu : s.bottom = u.max := h.1
    rcases List.mem_cons.1 ht with rfl | ht
    · exact hu.ge
    · have h₁ := ih h.tail ht
      have h₂ := h.tail.lt
      omega

theorem Spans.lt_of_mem {l : List Span} (h : Spans l) {s : Span} (hs : s ∈ l) :
    s.bottom < s.max := by
  induction l with
  | nil => cases hs
  | cons t l ih =>
    rcases List.mem_cons.1 hs with rfl | hs
    · exact h.lt
    · exact ih h.tail hs

theorem widthOf_top {s : Span} {l : List Span} {r : ℕ} (hb : s.bottom < r) (hr : r ≤ s.max) :
    widthOf (s :: l) r = s.width := if_pos ⟨hb, hr⟩

theorem widthOf_cons {s : Span} {l : List Span} {r : ℕ} (hr : r ≤ s.bottom) :
    widthOf (s :: l) r = widthOf l r := if_neg fun h => absurd h.1 (not_lt.2 hr)

/-- The width of a row is that of the window it is in. -/
theorem Spans.widthOf_eq {l : List Span} (h : Spans l) {s : Span} (hs : s ∈ l) {r : ℕ}
    (hb : s.bottom < r) (hr : r ≤ s.max) : widthOf l r = s.width := by
  induction l with
  | nil => cases hs
  | cons t l ih =>
    rcases List.mem_cons.1 hs with rfl | hs
    · exact widthOf_top hb hr
    · rw [widthOf_cons (hr.trans (h.max_le hs))]
      exact ih h.tail hs

/-- Each row up to the present maximum is in a window. -/
theorem Spans.exists_mem {s : Span} {l : List Span} (h : Spans (s :: l)) {r : ℕ} (h0 : 0 < r)
    (hr : r ≤ s.max) : ∃ t ∈ s :: l, t.bottom < r ∧ r ≤ t.max := by
  induction l generalizing s with
  | nil => exact ⟨s, List.mem_cons_self .., by have := h.1; omega, hr⟩
  | cons u l ih =>
    by_cases hb : s.bottom < r
    · exact ⟨s, List.mem_cons_self .., hb, hr⟩
    · have hu : s.bottom = u.max := h.1
      obtain ⟨t, ht, hrow⟩ := ih h.tail (by omega)
      exact ⟨t, List.mem_cons_of_mem _ ht, hrow⟩

/-! ### Nodes in rows -/

/-- Who allocated a node, the rows of the nodes of each line, and the positions of the tail and head
nodes. -/
structure Places where
  owner : ℕ → ℕ
  rows : ℕ → List ℕ
  putPos : ℕ → ℕ
  getPos : ℕ → ℕ

namespace Places

/-- All queues hold a node of row 0. -/
def init : Places := ⟨fun _ => 0, fun _ => [0], fun _ => 0, fun _ => 0⟩

variable (g : Places)

/-- The call `op` allocates the node `k`. -/
def create (k op : ℕ) : Places := { g with owner := Function.update g.owner k op }

/-- A node of row `r` is put behind the last node of queue `j`. -/
def link (j r : ℕ) : Places := { g with rows := Function.update g.rows j (g.rows j ++ [r]) }

def swing (j : ℕ) : Places := { g with putPos := Function.update g.putPos j (g.putPos j + 1) }

def take (j : ℕ) : Places := { g with getPos := Function.update g.getPos j (g.getPos j + 1) }

end Places

variable {α : Type}

/-- The queues with positions in the place of the counts, and the heads where they should be. -/
def placed (x : Store α) (g : Places) : Store α where
  cells := x.cells
  put j := ⟨(x.put j).node, g.putPos j⟩
  get j := ⟨(x.cells.line j)[g.getPos j]?, g.getPos j⟩

/-- The put side of `n` queues, in the window `s` upon the windows `l`. -/
structure Filled (n : ℕ) (s : Span) (l : List Span) (x : Store α) (g : Places) : Prop where
  valid : Valid n (placed x g)
  spans : Spans (s :: l)
  length : ∀ i < n, (g.rows i).length = (x.cells.line i).length
  sorted : ∀ i < n, (g.rows i).Pairwise (· < ·)
  count : ∀ i < n, (g.rows i)[g.putPos i]? = some (x.put i).count
  le : ∀ i < n, (x.put i).count ≤ s.max
  done : ∀ i < n, ∀ r ≤ s.bottom, i < widthOf (s :: l) r → r ≤ (x.put i).count
  pending : ∀ i < n, ∀ r, (g.rows i)[g.putPos i + 1]? = some r →
    r = nextRow s.bottom (x.put i).count ∧ (x.put i).count < s.max ∧ i < s.width
  full : ∀ i < n, ∀ r, 0 < r → (∃ r' ∈ g.rows i, r ≤ r') → i < widthOf (s :: l) r → r ∈ g.rows i

/-- The get side: the heads are where they should be, and their rows are not above the get counts.
-/
structure Headed (n : ℕ) (x : Store α) (g : Places) : Prop where
  node : ∀ i < n, (x.get i).node = (x.cells.line i)[g.getPos i]?
  row : ∀ i < n, ∀ r, (g.rows i)[g.getPos i]? = some r → r ≤ (x.get i).count

namespace Filled

variable {n i j p q t k r c : ℕ} {s : Span} {l : List Span} {x : Store α} {g : Places}

section

variable (h : Filled n s l x g)
include h

/-- The last node of a line stands at the tail or behind it. -/
theorem mem_rows (hi : i < n) (hr : r ∈ g.rows i) :
    r ≤ (x.put i).count ∨ (g.rows i)[g.putPos i + 1]? = some r := by
  obtain ⟨p, hp⟩ := List.mem_iff_getElem?.1 hr
  have hlt := (List.getElem?_eq_some_iff.1 hp).1
  have hlen := h.length i hi
  have hnear : g.putPos i + 1 = (x.cells.line i).length ∨
    g.putPos i + 2 = (x.cells.line i).length :=
    h.valid.near i hi
  by_cases hpp : p ≤ g.putPos i
  · exact .inl (le_of_getElem? (h.sorted i hi) hp (h.count i hi) hpp)
  · obtain rfl : p = g.putPos i + 1 := by omega
    exact .inr hp

theorem row_le_max (hi : i < n) (hr : r ∈ g.rows i) : r ≤ s.max := by
  rcases h.mem_rows hi hr with hle | hpend
  · exact hle.trans (h.le i hi)
  · obtain ⟨rfl, hlt, -⟩ := h.pending i hi r hpend
    exact nextRow_le hlt h.spans.lt

/-- A queue whose put count is below a window it belongs to: that window is the present one. -/
theorem present (hi : i < n) {w : Span} (hw : w ∈ s :: l) (hiw : i < w.width)
    (hc : (x.put i).count < w.max) : w = s := by
  rcases List.mem_cons.1 hw with rfl | hw
  · rfl
  · have hwidth := h.spans.widthOf_eq (List.mem_cons_of_mem _ hw) (h.spans.tail.lt_of_mem hw) le_rfl
    exact absurd (h.done i hi w.max (h.spans.max_le hw) (hwidth ▸ hiw)) (not_le.2 hc)

theorem create (val : α) (op : ℕ) : Filled n s l (x.create val) (g.create x.cells.fresh op) :=
  { h with valid := h.valid.create val }

/-- The last node of its line that was a tail once is the tail, and the last row is the put count.
-/
theorem tail_of_last (hj : j < n) (ht : (x.cells.line j)[p]? = some t) (hle : p ≤ g.putPos j)
    (hnone : (x.cells.heap t).next = none) : g.putPos j = p ∧ p + 1 = (x.cells.line j).length :=
  h.valid.put_of_last hj ht hle hnone

/-- A node is linked behind the tail, in the present window. -/
theorem link (hj : j < n) (hjw : j < s.width) (ht : (x.cells.line j)[p]? = some t)
    (hle : p ≤ g.putPos j) (hnone : (x.cells.heap t).next = none) (hk : Unlinked n x.cells k)
    (hlt : (x.put j).count < s.max) :
    Filled n s l (x.link j t k) (g.link j (nextRow s.bottom (x.put j).count)) := by
  obtain ⟨hput, hlast⟩ := h.tail_of_last hj ht hle hnone
  have hlen := h.length j hj
  have hgt := nextRow_gt s.bottom (x.put j).count
  have hrow : ∀ r ∈ g.rows j, r ≤ (x.put j).count := by
    intro r hr
    refine (h.mem_rows hj hr).resolve_right fun hpend => ?_
    have := (List.getElem?_eq_some_iff.1 hpend).1
    omega
  have hself : (g.link j (nextRow s.bottom (x.put j).count)).rows j =
      g.rows j ++ [nextRow s.bottom (x.put j).count] := Function.update_self ..
  have hne : ∀ i, i ≠ j → (g.link j (nextRow s.bottom (x.put j).count)).rows i = g.rows i :=
    fun i hi => Function.update_of_ne hi _ _
  have hline : ∀ i, i ≠ j → (x.cells.append j (some t) k).line i = x.cells.line i := fun i hi =>
    x.cells.append_line_of_ne hi _ _
  refine ⟨?_, h.spans, fun i hi => ?_, fun i hi => ?_, fun i hi => ?_, h.le, h.done,
    fun i hi r hr => ?_, fun i hi r h0 hr hw => ?_⟩
  · have hv := h.valid.link hj ht hle hnone hk
    have hget : ∀ i < n, ((x.cells.append j (some t) k).line i)[g.getPos i]? =
      (x.cells.line i)[g.getPos i]? := by
      intro i hi
      have hpos : g.getPos i < (x.cells.line i).length :=
        lt_of_le_of_lt (h.valid.le i hi) (h.valid.put_lt hi)
      by_cases hij : i = j
      · subst hij
        rw [x.cells.append_line_self, List.getElem?_append_left hpos]
      · rw [hline i hij]
    exact ⟨hv.lines, hv.tail, hv.near, fun i hi => rfl, hv.le⟩
  · show _ = ((x.cells.append j (some t) k).line i).length
    by_cases hij : i = j
    · subst hij
      rw [hself, x.cells.append_line_self, List.length_append, List.length_append, hlen]
      rfl
    · rw [hne i hij, hline i hij]
      exact h.length i hi
  · by_cases hij : i = j
    · subst hij
      rw [hself, List.pairwise_append]
      refine ⟨h.sorted i hi, List.pairwise_singleton .., fun r hr r' hr' => ?_⟩
      obtain rfl := List.mem_singleton.1 hr'
      exact (hrow r hr).trans_lt hgt.1
    · rw [hne i hij]
      exact h.sorted i hi
  · by_cases hij : i = j
    · subst hij
      rw [hself]
      exact (List.prefix_append _ _).getElem?_of_some (h.count i hi)
    · rw [hne i hij]
      exact h.count i hi
  · by_cases hij : i = j
    · subst hij
      rw [hself] at hr
      have hpos : g.putPos i + 1 = (g.rows i).length := by omega
      rw [show (g.link i _).putPos i + 1 = g.putPos i + 1 from rfl, hpos,
        List.getElem?_concat_length] at hr
      exact ⟨(Option.some.inj hr).symm, hlt, hjw⟩
    · rw [hne i hij] at hr
      exact h.pending i hi r hr
  · by_cases hij : i = j
    · subst hij
      rw [hself] at hr ⊢
      obtain ⟨r', hr', hle'⟩ := hr
      rw [List.mem_append, List.mem_singleton]
      by_cases hold : r ≤ (x.put i).count
      · exact .inl (h.full i hi r h0 ⟨_, List.mem_of_getElem? (h.count i hi), hold⟩ hw)
      · -- a row in the gap below the new node belongs to a window without the queue
        refine .inr (le_antisymm ?_ (not_lt.1 fun hgap => hold ?_))
        · rcases List.mem_append.1 hr' with hr' | hr'
          · exact absurd (hle'.trans (hrow r' hr')) hold
          · exact hle'.trans (List.mem_singleton.1 hr').le
        · exact h.done i hi r (le_bottom_of_lt (not_le.1 hold) hgap) hw
    · rw [hne i hij] at hr ⊢
      exact h.full i hi r h0 hr hw

/-- The tail is swung to the node behind it. -/
theorem swing (hj : j < n) (hk : (x.cells.line j)[g.putPos j + 1]? = some k) :
    Filled n s l (x.swing j ⟨some k, nextRow s.bottom (x.put j).count⟩) (g.swing j) := by
  have hlen := h.length j hj
  have hlt := (List.getElem?_eq_some_iff.1 hk).1
  obtain ⟨r, hr⟩ : ∃ r, (g.rows j)[g.putPos j + 1]? = some r :=
    ⟨_, List.getElem?_eq_getElem (by omega)⟩
  obtain ⟨rfl, hmax, hjw⟩ := h.pending j hj r hr
  have hgt := nextRow_gt s.bottom (x.put j).count
  have hself : (x.swing j ⟨some k, nextRow s.bottom (x.put j).count⟩).put j =
      ⟨some k, nextRow s.bottom (x.put j).count⟩ := Function.update_self ..
  have hne : ∀ i, i ≠ j →
      (x.swing j ⟨some k, nextRow s.bottom (x.put j).count⟩).put i = x.put i :=
    fun i hi => Function.update_of_ne hi _ _
  have hpos : (g.swing j).putPos j = g.putPos j + 1 := Function.update_self ..
  have hpos_ne : ∀ i, i ≠ j → (g.swing j).putPos i = g.putPos i := fun i hi =>
    Function.update_of_ne hi _ _
  refine ⟨?_, h.spans, h.length, h.sorted, fun i hi => ?_, fun i hi => ?_,
    fun i hi r hr hw => ?_, fun i hi r hr => ?_, h.full⟩
  · have hv := h.valid.swing (n := k) hk
    have hs : placed (x.swing j ⟨some k, nextRow s.bottom (x.put j).count⟩) (g.swing j) =
        (placed x g).swing j ⟨some k, g.putPos j + 1⟩ := by
      unfold placed Store.swing
      congr 1
      funext i
      show (⟨(Function.update x.put j _ i).node, (g.swing j).putPos i⟩ : Descriptor) = _
      by_cases hij : i = j
      · subst hij
        rw [Function.update_self, Function.update_self, hpos]
      · rw [Function.update_of_ne hij, Function.update_of_ne hij, hpos_ne i hij]
    rw [hs]
    exact hv
  · by_cases hij : i = j
    · subst hij
      rw [hself, hpos]
      exact hr
    · rw [hne i hij, hpos_ne i hij]
      exact h.count i hi
  · by_cases hij : i = j
    · subst hij
      rw [hself]
      exact nextRow_le hmax h.spans.lt
    · rw [hne i hij]
      exact h.le i hi
  · have hold := h.done i hi r hr hw
    by_cases hij : i = j
    · subst hij
      rw [hself]
      exact hold.trans hgt.1.le
    · rw [hne i hij]
      exact hold
  · by_cases hij : i = j
    · subst hij
      rw [hpos] at hr
      have hnear : g.putPos i + 1 = (x.cells.line i).length ∨
        g.putPos i + 2 = (x.cells.line i).length :=
        h.valid.near i hi
      have hpast : g.putPos i + 1 + 1 < (g.rows i).length := (List.getElem?_eq_some_iff.1 hr).1
      omega
    · rw [hne i hij]
      rw [hpos_ne i hij] at hr
      exact h.pending i hi r hr

/-- A new window is put upon the present one, whose queues are full. -/
theorem shift {s' : Span} (hb : s'.bottom = s.max) (hlt : s'.bottom < s'.max)
    (hall : ∀ i < n, i < s.width → s.max ≤ (x.put i).count) : Filled n s' (s :: l) x g := by
  refine ⟨h.valid, ⟨hb, hlt, h.spans⟩, h.length, h.sorted, h.count,
    fun i hi => ?_, fun i hi r hr hw => ?_, fun i hi r hr => ?_, fun i hi r h0 hr hw => ?_⟩
  · have := h.le i hi
    omega
  · rw [widthOf_cons hr] at hw
    by_cases hrb : r ≤ s.bottom
    · exact h.done i hi r hrb hw
    · rw [widthOf_top (not_le.1 hrb) (hr.trans_eq hb)] at hw
      exact (hr.trans_eq hb).trans (hall i hi hw)
  · obtain ⟨-, hlt', hiw⟩ := h.pending i hi r hr
    exact absurd (hall i hi hiw) (not_le.2 hlt')
  · obtain ⟨r', hr', hle⟩ := hr
    have hmax := h.row_le_max hi hr'
    rw [widthOf_cons (by omega)] at hw
    exact h.full i hi r h0 ⟨r', hr', hle⟩ hw

/-- The head is moved on to a node that is not behind the tail. -/
theorem take (hj : j < n) (hlt : g.getPos j < g.putPos j) (d : Descriptor) :
    Filled n s l (x.take j d) (g.take j) := by
  refine { h with
    valid := ⟨h.valid.lines, h.valid.tail, h.valid.near, fun _ _ => rfl, fun i hi => ?_⟩ }
  show Function.update g.getPos j (g.getPos j + 1) i ≤ g.putPos i
  by_cases hij : i = j
  · subst hij
    rw [Function.update_self]
    exact hlt
  · rw [Function.update_of_ne hij]
    exact h.valid.le i hi

/-- A node whose row is below a completed row of its queue is before the tail. -/
theorem lt_put (hi : i < n) (hp : (g.rows i)[p]? = some r) (hrc : r ≤ c) (hcq : c < q)
    (hq : q ≤ s.bottom) (hw : i < widthOf (s :: l) q) : p < g.putPos i := by
  have hdone := h.done i hi q hq hw
  exact lt_of_lt_getElem? (h.sorted i hi) hp (h.count i hi) (by omega)

/-- The row behind a node is not above any row of its queue that is above the node. -/
theorem row_le (hi : i < n) {r' : ℕ} (hp : (g.rows i)[p]? = some r)
    (hp' : (g.rows i)[p + 1]? = some r') (hrq : r < q) (hw : i < widthOf (s :: l) q) : r' ≤ q := by
  by_contra hgt
  have hmem := h.full i hi q (Nat.zero_lt_of_lt hrq) ⟨r', List.mem_of_getElem? hp', by omega⟩ hw
  obtain ⟨x, hx⟩ := List.mem_iff_getElem?.1 hmem
  have h₁ := lt_of_lt_getElem? (h.sorted i hi) hp hx hrq
  have h₂ := lt_of_lt_getElem? (h.sorted i hi) hx hp' (not_le.1 hgt)
  omega

end

theorem init [Inhabited α] (n depth width : ℕ) (hd : 0 < depth) :
    Filled n ⟨0, depth, width⟩ [] (Store.init α n) .init where
  valid := ⟨.init, fun _ _ => rfl, fun _ _ => .inl rfl, fun _ _ => rfl, fun _ _ => le_rfl⟩
  spans := ⟨rfl, hd⟩
  length _ _ := rfl
  sorted _ _ := List.pairwise_singleton ..
  count _ _ := rfl
  le _ _ := Nat.zero_le _
  done _ _ _ hr _ := hr
  pending _ _ _ hr := by cases hr
  full i _ r h0 hr _ := by
    obtain ⟨r', hr', hle⟩ := hr
    obtain rfl := List.mem_singleton.1 hr'
    omega

end Filled

namespace Headed

variable {n i j p t k r c : ℕ} {s : Span} {l : List Span} {x : Store α} {g : Places}

theorem init [Inhabited α] (n : ℕ) : Headed n (Store.init α n) .init where
  node _ _ := rfl
  row _ _ _ hr := (Option.some.inj hr).ge

theorem create (h : Headed n x g) (val : α) (op : ℕ) :
    Headed n (x.create val) (g.create x.cells.fresh op) := ⟨h.node, h.row⟩

theorem swing (h : Headed n x g) (j : ℕ) (d : Descriptor) : Headed n (x.swing j d) (g.swing j) :=
  ⟨h.node, h.row⟩

theorem link (h : Headed n x g) (hf : Filled n s l x g) (j t k r : ℕ) :
    Headed n (x.link j t k) (g.link j r) := by
  have hpos : ∀ i < n, g.getPos i < (x.cells.line i).length := fun i hi =>
    lt_of_le_of_lt (hf.valid.le i hi) (hf.valid.put_lt hi)
  refine ⟨fun i hi => ?_, fun i hi r' hr' => ?_⟩
  · show _ = ((x.cells.append j (some t) k).line i)[g.getPos i]?
    by_cases hij : i = j
    · subst hij
      rw [x.cells.append_line_self, List.getElem?_append_left (hpos i hi)]
      exact h.node i hi
    · rw [x.cells.append_line_of_ne hij]
      exact h.node i hi
  · have hr' : (Function.update g.rows j (g.rows j ++ [r]) i)[g.getPos i]? = some r' := hr'
    by_cases hij : i = j
    · subst hij
      rw [Function.update_self,
        List.getElem?_append_left ((hpos i hi).trans_eq (hf.length i hi).symm)]
        at hr'
      exact h.row i hi r' hr'
    · rw [Function.update_of_ne hij] at hr'
      exact h.row i hi r' hr'

/-- The head is moved on, and the new get count is not below the row of the new head. -/
theorem take (h : Headed n x g) (hrow : ∀ r, (g.rows j)[g.getPos j + 1]? = some r → r ≤ c) :
    Headed n (x.take j ⟨(x.cells.line j)[g.getPos j + 1]?, c⟩) (g.take j) := by
  have hpos : (g.take j).getPos j = g.getPos j + 1 := Function.update_self ..
  have hpos_ne : ∀ i, i ≠ j → (g.take j).getPos i = g.getPos i := fun i hi =>
    Function.update_of_ne hi _ _
  refine ⟨fun i hi => ?_, fun i hi r hr => ?_⟩
  · show (Function.update x.get j _ i).node = (x.cells.line i)[(g.take j).getPos i]?
    by_cases hij : i = j
    · subst hij
      rw [Function.update_self, hpos]
    · rw [Function.update_of_ne hij, hpos_ne i hij]
      exact h.node i hi
  · show r ≤ (Function.update x.get j _ i).count
    by_cases hij : i = j
    · subst hij
      rw [hpos] at hr
      rw [Function.update_self]
      exact hrow r hr
    · rw [hpos_ne i hij] at hr
      rw [Function.update_of_ne hij]
      exact h.row i hi r hr

end Headed

/-! ### What is kept -/

/-- What every step keeps. -/
structure Grown (x : Store α) (g : Places) (x' : Store α) (g' : Places) : Prop where
  store : Grows (placed x g) (placed x' g')
  rows : ∀ i, g.rows i <+: g'.rows i
  put : ∀ i, (x.put i).count ≤ (x'.put i).count
  get : ∀ i, (x.get i).count ≤ (x'.get i).count

/-- A value at one index is not smaller afterwards. -/
theorem count_le_update {f : ℕ → Descriptor} {j : ℕ} {d : Descriptor} (h : (f j).count ≤ d.count)
    (i : ℕ) : (f i).count ≤ (Function.update f j d i).count := by
  by_cases hij : i = j
  · subst hij
    rwa [Function.update_self]
  · rw [Function.update_of_ne hij]

theorem le_update {f : ℕ → ℕ} {j b : ℕ} (h : f j ≤ b) (i : ℕ) : f i ≤ Function.update f j b i := by
  by_cases hij : i = j
  · subst hij
    rwa [Function.update_self]
  · rw [Function.update_of_ne hij]

namespace Grown

variable {n j p t k r : ℕ} {o : Owner} {c : Caller} {x x' x'' : Store α} {g g' g'' : Places}
  {d : Descriptor}

theorem refl (x : Store α) (g : Places) : Grown x g x g :=
  ⟨.refl _, fun _ => List.prefix_refl _, fun _ => le_rfl, fun _ => le_rfl⟩

theorem trans (h : Grown x g x' g') (h' : Grown x' g' x'' g'') : Grown x g x'' g'' :=
  ⟨h.store.trans h'.store, fun i => (h.rows i).trans (h'.rows i),
    fun i => (h.put i).trans (h'.put i),
    fun i => (h.get i).trans (h'.get i)⟩

theorem create (x : Store α) (g : Places) (val : α) (op : ℕ) :
    Grown x g (x.create val) (g.create x.cells.fresh op) :=
  ⟨.create (placed x g) val, fun _ => List.prefix_refl _, fun _ => le_rfl, fun _ => le_rfl⟩

theorem link (x : Store α) (g : Places) (j t k r : ℕ) : Grown x g (x.link j t k) (g.link j r) where
  store := by
    have h := Grows.link (placed x g) j t k
    exact ⟨h.line, h.put, h.get, h.fresh, h.val⟩
  rows i := by
    show g.rows i <+: Function.update g.rows j (g.rows j ++ [r]) i
    by_cases hij : i = j
    · subst hij
      rw [Function.update_self]
      exact List.prefix_append _ _
    · rw [Function.update_of_ne hij]
  put _ := le_rfl
  get _ := le_rfl

theorem swing (g : Places) (hd : (x.put j).count ≤ d.count) :
    Grown x g (x.swing j d) (g.swing j) where
  store := ⟨fun _ => List.prefix_refl _, le_update (Nat.le_succ _), fun _ => le_rfl, le_rfl,
    fun _ _ => rfl⟩
  rows _ := List.prefix_refl _
  put := count_le_update hd
  get _ := le_rfl

theorem take (g : Places) (hd : (x.get j).count ≤ d.count) : Grown x g (x.take j d) (g.take j) where
  store := ⟨fun _ => List.prefix_refl _, fun _ => le_rfl, le_update (Nat.le_succ _), le_rfl,
    fun _ _ => rfl⟩
  rows _ := List.prefix_refl _
  put _ := le_rfl
  get := count_le_update hd

/-- A get descriptor is overwritten, and its head forgotten. -/
theorem lose (g : Places) (hd : (x.get j).count ≤ d.count) : Grown x g (x.take j d) g where
  store := ⟨fun _ => List.prefix_refl _, fun _ => le_rfl, fun _ => le_rfl, le_rfl, fun _ _ => rfl⟩
  rows _ := List.prefix_refl _
  put _ := le_rfl
  get := count_le_update hd

variable (h : Grown x g x' g')
include h

theorem line (ht : (x.cells.line j)[p]? = some t) : (x'.cells.line j)[p]? = some t :=
  h.store.getElem? ht

theorem row (hr : (g.rows j)[p]? = some r) : (g'.rows j)[p]? = some r :=
  (h.rows j).getElem?_of_some hr

theorem putPos (j : ℕ) : g.putPos j ≤ g'.putPos j := h.store.put j

theorem getPos (j : ℕ) : g.getPos j ≤ g'.getPos j := h.store.get j

end Grown

/-- The frame of a link, with the rows. -/
theorem frame_link {n j p t k r : ℕ} {o : Owner} {c : Caller} {x : Store α} {g : Places}
    (ho : ¬ c.Is o) (hown : g.owner k = c.op) (hj : j < n) (ht : (x.cells.line j)[p]? = some t) :
    Frame n o (placed x g) g.owner (placed (x.link j t k) (g.link j r)) g.owner := by
  have h := Frame.link (s := placed x g) ho hown hj ht
  exact ⟨(Grown.link x g j t k r).store, h.owner, h.unlinked⟩

/-- The two words of `d` have been those of the tail of queue `j`, the node not after the count. -/
def WasTail (j : ℕ) (d : Descriptor) (x : Store α) (g : Places) : Prop :=
  ∃ p q t, d.node = some t ∧ (x.cells.line j)[p]? = some t ∧ (g.rows j)[q]? = some d.count ∧
    p ≤ q ∧ q ≤ g.putPos j

/-- The node of `d` has been the head of queue `j`, and its row is not above the count. -/
def WasHead (j : ℕ) (d : Descriptor) (x : Store α) (g : Places) : Prop :=
  ∃ p t, d.node = some t ∧ (x.cells.line j)[p]? = some t ∧ p ≤ g.getPos j ∧
    ∀ r, (g.rows j)[p]? = some r → r ≤ d.count

section Known

variable {n j p q t : ℕ} {s : Span} {l : List Span} {x x' : Store α} {g g' : Places}
  {d : Descriptor}

theorem WasTail.grown (h : WasTail j d x g) (hk : Grown x g x' g') : WasTail j d x' g' := by
  obtain ⟨p, q, t, hd, ht, hr, hpq, hq⟩ := h
  exact ⟨p, q, t, hd, hk.line ht, hk.row hr, hpq, hq.trans (hk.putPos j)⟩

theorem WasTail.of_read {s' : Span} {l' : List Span} (hf : Filled n s l x g)
    (hf' : Filled n s' l' x' g') (hk : Grown x g x' g') (hj : j < n) :
    WasTail j ⟨(x.put j).node, (x'.put j).count⟩ x' g' := by
  obtain ⟨t, ht⟩ := hf.valid.tail_some hj
  exact ⟨g.putPos j, g'.putPos j, t, ht, hk.line ((hf.valid.tail j hj).trans ht), hf'.count j hj,
    hk.putPos j, le_rfl⟩

/-- A tail without successor is the present one. -/
theorem WasTail.of_last [Inhabited α] (h : WasTail j d x g) (hf : Filled n s l x g) (hj : j < n)
    (hnone : (x.cells.deref d.node).next = none) : ∃ t, d.node = some t ∧
      (x.cells.line j)[g.putPos j]? = some t ∧ (x.put j).count = d.count := by
  obtain ⟨p, q, t, hd, ht, hr, hpq, hq⟩ := h
  rw [hd] at hnone
  obtain ⟨rfl, -⟩ := hf.tail_of_last hj ht (hpq.trans hq) hnone
  obtain rfl := le_antisymm hpq hq
  exact ⟨t, hd, ht, Option.some.inj ((hf.count j hj).symm.trans hr)⟩

/-- A node of the line has one position. -/
theorem Filled.pos_eq (hf : Filled n s l x g) (hj : j < n) (ht : (x.cells.line j)[p]? = some t)
    (hq : (x.cells.line j)[q]? = some t) : p = q := hf.valid.pos_inj hj ht hq

theorem Filled.tail_pos (hf : Filled n s l x g) (hj : j < n) (ht : (x.cells.line j)[p]? = some t)
    (hd : (x.put j).node = some t) : p = g.putPos j :=
  hf.pos_eq hj ht ((hf.valid.tail j hj).trans hd)

/-- A node that has been the head, and is not the tail, is before it. -/
theorem Filled.before_tail {a : Option ℕ} (hf : Filled n s l x g) (hj : j < n) (hp : p ≤ g.getPos j)
    (hline : (x.cells.line j)[p]? = a) (hne : a ≠ (x.put j).node) : p < g.putPos j := by
  have hle : g.getPos j ≤ g.putPos j := hf.valid.le j hj
  refine lt_of_le_of_ne (hp.trans hle) fun he => hne ?_
  rw [← hline, he]
  exact hf.valid.tail j hj

/-- A link behind a tail that was loaded stays once it is set. -/
theorem WasTail.next_grown [Inhabited α] {s' : Span} {l' : List Span} (h : WasTail j d x g)
    (hf : Filled n s l x g) (hf' : Filled n s' l' x' g') (hk : Grown x g x' g') (hj : j < n)
    (hne : (x.cells.deref d.node).next ≠ none) :
    (x'.cells.deref d.node).next = (x.cells.deref d.node).next := by
  obtain ⟨p, q, t, hd, ht, -⟩ := h
  rw [hd] at hne ⊢
  have h₀ : (x.cells.heap t).next = (x.cells.line j)[p + 1]? := hf.valid.lines.next j hj p t ht
  have h₁ : (x'.cells.heap t).next = (x'.cells.line j)[p + 1]? :=
    hf'.valid.lines.next j hj p t (hk.line ht)
  obtain ⟨m, hm⟩ := Option.ne_none_iff_exists'.1 hne
  show (x'.cells.heap t).next = _
  rw [h₁, hm]
  exact hk.line (h₀.symm.trans hm)

/-- What was behind a tail that was loaded is behind the tail when its node is found again. -/
theorem WasTail.behind [Inhabited α] {s' : Span} {l' : List Span} {m : ℕ} (h : WasTail j d x g)
    (hf : Filled n s l x g) (hf' : Filled n s' l' x' g') (hk : Grown x g x' g') (hj : j < n)
    (he : (x'.put j).node = d.node) (hm : (x.cells.deref d.node).next = some m) :
    (x'.cells.line j)[g'.putPos j + 1]? = some m := by
  obtain ⟨p, q, t, hd, ht, -⟩ := h
  rw [hd] at hm
  have hpos := hf'.tail_pos hj (hk.line ht) (he.trans hd)
  exact hpos ▸ hk.line ((hf.valid.lines.next j hj p t ht).symm.trans hm)

/-- A tail that is found again with both words, and had a node behind it, has not moved: that node
is pending in the window in which it was loaded. -/
theorem WasTail.back [Inhabited α] {s' : Span} {l' : List Span} {m : ℕ} (h : WasTail j d x g)
    (hf : Filled n s l x g) (hf' : Filled n s' l' x' g') (hk : Grown x g x' g') (hj : j < n)
    (he : x'.put j = d) (hm : (x.cells.deref d.node).next = some m) :
    (x.put j).count = d.count ∧ (x.put j).count < s.max ∧ j < s.width := by
  obtain ⟨p, q, t, hd, ht, hcount, hpq, hq⟩ := h
  rw [hd] at hm
  have hbehind : (x.cells.line j)[p + 1]? = some m :=
    (hf.valid.lines.next j hj p t ht).symm.trans hm
  have hpos := hf'.tail_pos hj (hk.line ht) ((congrArg Descriptor.node he).trans hd)
  have hput : g.putPos j = p := le_antisymm ((hk.putPos j).trans hpos.ge) (hpq.trans hq)
  obtain rfl : p = q := le_antisymm hpq (hq.trans hput.le)
  have hlt := (List.getElem?_eq_some_iff.1 hbehind).1
  obtain ⟨r, hrow⟩ : ∃ r, (g.rows j)[p + 1]? = some r :=
    ⟨_, List.getElem?_eq_getElem (hlt.trans_eq (hf.length j hj).symm)⟩
  obtain ⟨-, hmax, hwidth⟩ := hf.pending j hj r (hput ▸ hrow)
  exact ⟨Option.some.inj ((hf.count j hj).symm.trans (hput ▸ hcount)), hmax, hwidth⟩

theorem Headed.head_pos (hh : Headed n x g) (hf : Filled n s l x g) (hj : j < n)
    (ht : (x.cells.line j)[p]? = some t) (hd : (x.get j).node = some t) : p = g.getPos j :=
  hf.pos_eq hj ht ((hh.node j hj).symm.trans hd)

theorem WasHead.grown (h : WasHead j d x g) (hf : Filled n s l x g) (hj : j < n)
    (hk : Grown x g x' g') : WasHead j d x' g' := by
  obtain ⟨p, t, hd, ht, hp, hr⟩ := h
  have hlt := (List.getElem?_eq_some_iff.1 ht).1
  have hrow := List.getElem?_eq_getElem (show p < (g.rows j).length from hlt.trans_eq
    (hf.length j hj).symm)
  refine ⟨p, t, hd, hk.line ht, hp.trans (hk.getPos j), fun r hr' => hr r ?_⟩
  rw [hk.row hrow] at hr'
  rw [hrow, hr']

theorem WasHead.of_read {s' : Span} {l' : List Span} (hf : Filled n s l x g) (hh : Headed n x g)
    (hf' : Filled n s' l' x' g') (hh' : Headed n x' g') (hk : Grown x g x' g') (hj : j < n) :
    WasHead j ⟨(x.get j).node, (x'.get j).count⟩ x' g' := by
  obtain ⟨t, ht⟩ := hf.valid.head_some hj
  have ht : (x.cells.line j)[g.getPos j]? = some t := ht
  refine ⟨g.getPos j, t, (hh.node j hj).trans ht, hk.line ht, hk.getPos j, fun r hr => ?_⟩
  have hlt : g'.getPos j < (x'.cells.line j).length :=
    lt_of_le_of_lt (hf'.valid.le j hj) (hf'.valid.put_lt hj)
  obtain ⟨r', hr'⟩ : ∃ r', (g'.rows j)[g'.getPos j]? = some r' :=
    ⟨_, List.getElem?_eq_getElem (hlt.trans_eq (hf'.length j hj).symm)⟩
  exact (le_of_getElem? (hf'.sorted j hj) hr hr' (hk.getPos j)).trans (hh'.row j hj r' hr')

end Known

end Windowed
