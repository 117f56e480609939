import SemanticRelaxation.Support.History
import SemanticRelaxation.Support.Prefixes
import SemanticRelaxation.Support.Rank
import Mathlib.Data.List.Basic
import Mathlib.Tactic.Common

/-!
# Arrays of linked queues

The node memory of an array of linked queues with dummy heads, in the manner of Michael and Scott.
Nodes are only ever linked behind the last node, so the nodes of queue `j` form a line that only
grows: `line j` lists all nodes it ever had, the first dummy node at position 0. A dequeue moves the
head one position on, and the item of the new head node leaves the queue.

* `Lines w m`: the links of the cells are those of the lines;
* `Queues w head m`: moreover the items present of queue `j` are those behind position `head j`,
  in the order of their positions. `Queues.link` and `Queues.remove` keep it.
-/

namespace Linked

/-- A node: what it carries, and its link. -/
structure Node (α : Type) where
  val : α
  next : Option ℕ
  deriving Inhabited

/-- A pointer to a node with a count, as the descriptors of the queues hold them. -/
structure Descriptor where
  node : Option ℕ
  count : ℕ
  deriving DecidableEq

/-- The cells, the next free cell, and the lines. Cells are never handed out again. -/
structure Cells (α : Type) where
  heap : ℕ → Node α
  fresh : ℕ
  line : ℕ → List ℕ

/-- An item of the history: its node and value, its queue, its position in the line of that queue,
and what else the data structure attaches to it. -/
structure Item (τ : Type) where
  node : ℕ
  val : ℤ
  idx : ℕ
  pos : ℕ
  tag : τ
  deriving DecidableEq

/-- The cells of the item nodes, with the history. -/
structure Mem (τ : Type) extends Cells ℤ where
  hist : History (Item τ)

variable {α τ : Type}

instance : Tracked (Item τ) := ⟨Item.node⟩

@[simp] theorem tracked_node (x : Item τ) : Tracked.node x = x.node := rfl

namespace Cells

/-- `w` lines with a dummy node each. -/
def init (α : Type) [Inhabited α] (w : ℕ) : Cells α := ⟨fun _ => default, w, fun j => [j]⟩

variable (m : Cells α)

/-- What a pointer points to. The code never follows `NULL` where the theorems say something. -/
def deref [Inhabited α] : Option ℕ → Node α
  | some n => m.heap n
  | none => default

@[simp] theorem deref_some [Inhabited α] (n : ℕ) : m.deref (some n) = m.heap n := rfl

/-- The allocation of the cell `m.fresh`. -/
def create (val : α) : Cells α :=
  { m with heap := Function.update m.heap m.fresh ⟨val, none⟩, fresh := m.fresh + 1 }

/-- A store to `tail->next`. -/
def setNext (tail next : Option ℕ) : Cells α :=
  match tail with
  | some t => { m with heap := Function.update m.heap t { m.heap t with next } }
  | none => m

/-- Link `node` behind `tail` in line `idx`. -/
def append (idx : ℕ) (tail : Option ℕ) (node : ℕ) : Cells α :=
  { m.setNext tail (some node) with
    line := Function.update m.line idx (m.line idx ++ [node]) }

@[simp] theorem append_val (idx : ℕ) (tail : Option ℕ) (node k : ℕ) :
    ((m.append idx tail node).heap k).val = (m.heap k).val := by
  cases tail with
  | none => rfl
  | some t =>
    show (Function.update m.heap t { m.heap t with next := some node } k).val = _
    by_cases hk : k = t
    · subst hk
      rw [Function.update_self]
    · rw [Function.update_of_ne hk]

theorem append_next_self (idx t node : ℕ) :
    ((m.append idx (some t) node).heap t).next = some node := by
  show (Function.update m.heap t { m.heap t with next := some node } t).next = _
  rw [Function.update_self]

@[simp] theorem append_fresh (idx : ℕ) (tail : Option ℕ) (node : ℕ) :
    (m.append idx tail node).fresh = m.fresh := by
  cases tail <;> rfl

@[simp] theorem append_line (idx : ℕ) (tail : Option ℕ) (node : ℕ) :
    (m.append idx tail node).line = Function.update m.line idx (m.line idx ++ [node]) := rfl

/-- An entry of a line after an append is an old one or the new one. -/
theorem append_entry {idx : ℕ} {tail : Option ℕ} {node i q k : ℕ}
    (hk : ((m.append idx tail node).line i)[q]? = some k) :
    (m.line i)[q]? = some k ∨ i = idx ∧ q = (m.line idx).length ∧ k = node := by
  rw [append_line] at hk
  by_cases hij : i = idx
  · subst hij
    rw [Function.update_self] at hk
    exact (List.getElem?_concat_cases hk).imp_right fun hnew => ⟨rfl, hnew⟩
  · rw [Function.update_of_ne hij] at hk
    exact .inl hk

theorem append_line_self (idx : ℕ) (tail : Option ℕ) (node : ℕ) :
    (m.append idx tail node).line idx = m.line idx ++ [node] := by
  rw [append_line, Function.update_self]

theorem append_line_of_ne {idx i : ℕ} (h : i ≠ idx) (tail : Option ℕ) (node : ℕ) :
    (m.append idx tail node).line i = m.line i := by
  rw [append_line, Function.update_of_ne h]

end Cells

namespace Mem

/-- The memory of `w` queues that hold a dummy node each. -/
def init (τ : Type) (w : ℕ) : Mem τ := ⟨Cells.init ℤ w, {}⟩

variable (m : Mem τ)

/-- The memory after the allocation of a node. -/
def create (val : ℤ) : Mem τ := { m with toCells := m.toCells.create val }

/-- The memory after `node` was linked behind `tail` in queue `idx`. -/
def link (idx : ℕ) (tail : Option ℕ) (node : ℕ) (tag : τ) : Mem τ where
  toCells := m.toCells.append idx tail node
  hist := m.hist.addBack ⟨node, (m.heap node).val, idx, (m.line idx).length, tag⟩

/-- Record that the item of `node` was dequeued. -/
def remove (node : Option ℕ) : Mem τ :=
  match node with
  | some n => { m with hist := m.hist.remove n }
  | none => m

end Mem

/-- The links of the cells are those of the `w` lines. -/
structure Lines (w : ℕ) (m : Cells α) : Prop where
  ne_nil : ∀ j < w, m.line j ≠ []
  next : ∀ j < w, ∀ p n : ℕ, (m.line j)[p]? = some n → (m.heap n).next = (m.line j)[p + 1]?
  inj : ∀ i < w, ∀ j < w, ∀ p q n : ℕ, (m.line i)[p]? = some n → (m.line j)[q]? = some n →
    i = j ∧ p = q
  lt_fresh : ∀ j < w, ∀ n ∈ m.line j, n < m.fresh

namespace Lines

variable {w : ℕ} {m : Cells α} {i j p n t : ℕ}

theorem init [Inhabited α] : Lines w (Cells.init α w) where
  ne_nil _ _ := List.cons_ne_nil _ _
  next j _ p n hn := by
    cases p with
    | zero => rfl
    | succ p => simp [Cells.init] at hn
  inj i _ j _ p q n hi hj := by
    have h₁ := List.mem_of_getElem? hi
    have h₂ := List.mem_of_getElem? hj
    simp only [Cells.init, List.mem_singleton] at h₁ h₂
    subst h₁ h₂
    cases p <;> cases q <;> simp [Cells.init] at hi hj ⊢
  lt_fresh j hj n hn := by
    simp only [Cells.init, List.mem_singleton] at hn ⊢
    omega

/-- The node without successor is the last of its line. -/
theorem last (h : Lines w m) (hj : j < w) (ht : (m.line j)[p]? = some t)
    (hn : (m.heap t).next = none) : p + 1 = (m.line j).length := by
  have h₁ := h.next j hj p t ht
  rw [hn] at h₁
  have h₂ := List.getElem?_eq_none_iff.1 h₁.symm
  have h₃ := (List.getElem?_eq_some_iff.1 ht).1
  omega

/-- Cells outside the lines may change. -/
theorem congr (h : Lines w m) {heap : ℕ → Node α} {fresh : ℕ}
    (hf : m.fresh ≤ fresh) (heq : ∀ j < w, ∀ n ∈ m.line j, heap n = m.heap n) :
    Lines w { m with heap, fresh } where
  ne_nil := h.ne_nil
  next j hj p n hn := by
    show (heap n).next = _
    rw [heq j hj n (List.mem_of_getElem? hn)]
    exact h.next j hj p n hn
  inj := h.inj
  lt_fresh j hj n hn := (h.lt_fresh j hj n hn).trans_le hf

theorem create (h : Lines w m) (val : α) : Lines w (m.create val) :=
  h.congr (Nat.le_succ _) fun j hj n hn => Function.update_of_ne (h.lt_fresh j hj n hn).ne _ _

/-- A new node behind the last one. -/
theorem append (h : Lines w m) (hj : j < w) (ht : (m.line j)[p]? = some t)
    (hnone : (m.heap t).next = none) (hlt : n < m.fresh) (hn : ∀ i < w, n ∉ m.line i)
    (hnext : (m.heap n).next = none) : Lines w (m.append j (some t) n) := by
  have hlast := h.last hj ht hnone
  have hnt : n ≠ t := fun e => hn j hj (e ▸ List.mem_of_getElem? ht)
  refine ⟨fun i hi => ?_, fun i hi q k hk => ?_, fun i hi i' hi' q q' k hk hk' => ?_,
    fun i hi k hk => ?_⟩
  · show Function.update m.line j (m.line j ++ [n]) i ≠ []
    by_cases hij : i = j
    · subst hij
      simp
    · rw [Function.update_of_ne hij]
      exact h.ne_nil i hi
  · show (Function.update m.heap t { m.heap t with next := some n } k).next =
      (Function.update m.line j (m.line j ++ [n]) i)[q + 1]?
    replace hk := m.append_entry hk
    rcases hk with hk | ⟨rfl, rfl, rfl⟩
    · by_cases hkt : k = t
      · subst hkt
        obtain ⟨rfl, rfl⟩ := h.inj i hi j hj q p k hk ht
        rw [Function.update_self, Function.update_self, hlast, List.getElem?_concat_length]
      · rw [Function.update_of_ne hkt, h.next i hi q k hk]
        by_cases hij : i = j
        · subst hij
          have hq : q + 1 < (m.line i).length := by
            have h₁ := (List.getElem?_eq_some_iff.1 hk).1
            refine lt_of_le_of_ne h₁ fun e => hkt ?_
            obtain rfl : q = p := by omega
            rw [hk] at ht
            exact Option.some.inj ht
          rw [Function.update_self, List.getElem?_append_left hq]
        · rw [Function.update_of_ne hij]
    · rw [Function.update_of_ne hnt, Function.update_self, hnext, List.getElem?_eq_none (by simp)]
  · replace hk := m.append_entry hk
    replace hk' := m.append_entry hk'
    rcases hk with hk | ⟨rfl, rfl, rfl⟩
    · rcases hk' with hk' | ⟨rfl, rfl, rfl⟩
      · exact h.inj i hi i' hi' q q' k hk hk'
      · exact absurd (List.mem_of_getElem? hk) (hn i hi)
    · rcases hk' with hk' | ⟨hij, hq, -⟩
      · exact absurd (List.mem_of_getElem? hk') (hn i' hi')
      · exact ⟨hij.symm, hq.symm⟩
  · obtain ⟨q, hq⟩ := List.mem_iff_getElem?.1 hk
    rcases m.append_entry hq with hk | ⟨-, -, rfl⟩
    · exact h.lt_fresh i hi k (List.mem_of_getElem? hk)
    · exact hlt

end Lines

/-- The node `n` is allocated and not in a line yet. -/
structure Unlinked (w : ℕ) (m : Cells α) (n : ℕ) : Prop where
  lt_fresh : n < m.fresh
  notMem : ∀ j < w, n ∉ m.line j
  next : (m.heap n).next = none

namespace Unlinked

variable {w : ℕ} {m : Cells α} {j p n t k : ℕ}

theorem create (h : Lines w m) (val : α) : Unlinked w (m.create val) m.fresh where
  lt_fresh := Nat.lt_succ_self _
  notMem j hj hm := absurd (h.lt_fresh j hj _ hm) (lt_irrefl _)
  next := by
    show (Function.update m.heap m.fresh _ m.fresh).next = _
    rw [Function.update_self]

theorem create_of_ne (hn : Unlinked w m n) (val : α) : Unlinked w (m.create val) n where
  lt_fresh := hn.lt_fresh.trans (Nat.lt_succ_self _)
  notMem := hn.notMem
  next := by
    show (Function.update m.heap m.fresh _ n).next = _
    rw [Function.update_of_ne hn.lt_fresh.ne]
    exact hn.next

/-- Another node is linked. -/
theorem append (hn : Unlinked w m n) (hne : n ≠ k) (hj : j < w)
    (ht : (m.line j)[p]? = some t) : Unlinked w (m.append j (some t) k) n where
  lt_fresh := hn.lt_fresh
  notMem i hi hm := by
    have hm : n ∈ Function.update m.line j (m.line j ++ [k]) i := hm
    by_cases hij : i = j
    · subst hij
      rw [Function.update_self] at hm
      rcases List.mem_append.1 hm with hm | hm
      · exact hn.notMem i hi hm
      · exact hne (List.mem_singleton.1 hm)
    · rw [Function.update_of_ne hij] at hm
      exact hn.notMem i hi hm
  next := by
    have hnt : n ≠ t := by
      rintro rfl
      exact hn.notMem j hj (List.mem_of_getElem? ht)
    show (Function.update m.heap t _ n).next = _
    rw [Function.update_of_ne hnt]
    exact hn.next

end Unlinked

/-- The items present of queue `j` are those of its line behind position `head j`. -/
structure Queues (w : ℕ) (head : ℕ → ℕ) (m : Mem τ) : Prop where
  lines : Lines w m.toCells
  conserved : m.hist.Conserved
  placed : ∀ x ∈ m.hist.added, x.idx < w ∧ (m.line x.idx)[x.pos]? = some x.node
  behind : ∀ x ∈ m.hist.present, head x.idx < x.pos ∧ (m.heap x.node).val = x.val
  all : ∀ j < w, ∀ p n : ℕ, head j < p → (m.line j)[p]? = some n →
    ∃ x ∈ m.hist.present, x.idx = j ∧ x.pos = p
  sorted : m.hist.present.Pairwise fun x y => x.idx = y.idx → x.pos < y.pos

namespace Queues

variable {w : ℕ} {head : ℕ → ℕ} {m : Mem τ} {j p n t : ℕ}

theorem init : Queues w (fun _ => 0) (Mem.init τ w) where
  lines := .init
  conserved := .empty
  placed := by simp [Mem.init]
  behind := by simp [Mem.init]
  all j _ p n hp hn := by
    have hlt := (List.getElem?_eq_some_iff.1 hn).1
    exact absurd hlt (not_lt.2 hp)
  sorted := .nil

theorem placed_present (h : Queues w head m) {x : Item τ} (hx : x ∈ m.hist.present) :
    x.idx < w ∧ (m.line x.idx)[x.pos]? = some x.node :=
  h.placed x (h.conserved.mem_added hx)

theorem create (h : Queues w head m) (val : ℤ) : Queues w head (m.create val) where
  lines := h.lines.create val
  conserved := h.conserved
  placed := h.placed
  behind x hx := by
    obtain ⟨hi, hp⟩ := h.placed_present hx
    have hne : x.node ≠ m.fresh := (h.lines.lt_fresh _ hi _ (List.mem_of_getElem? hp)).ne
    obtain ⟨h₁, h₂⟩ := h.behind x hx
    refine ⟨h₁, ?_⟩
    show (Function.update m.heap m.fresh _ x.node).val = _
    rwa [Function.update_of_ne hne]
  all := h.all
  sorted := h.sorted

/-- A fresh node is in no line. -/
theorem not_mem_of_le (h : Queues w head m) (hn : m.fresh ≤ n) : ∀ i < w, n ∉ m.line i :=
  fun i hi hm => absurd (h.lines.lt_fresh i hi n hm) (not_lt.2 hn)

/-- A new node behind the last one of queue `j` is its youngest item. -/
theorem link (h : Queues w head m) (hj : j < w) (ht : (m.line j)[p]? = some t)
    (hnone : (m.heap t).next = none) (hlt : n < m.fresh) (hn : ∀ i < w, n ∉ m.line i)
    (hnext : (m.heap n).next = none) (hhead : head j ≤ p) (tag : τ) :
    Queues w head (m.link j (some t) n tag) := by
  have hlast := h.lines.last hj ht hnone
  have hval : ∀ k, ((m.link j (some t) n tag).heap k).val = (m.heap k).val :=
    fun k => m.append_val j (some t) n k
  have hold : ∀ i q k : ℕ, (m.line i)[q]? = some k →
      (Function.update m.line j (m.line j ++ [n]) i)[q]? = some k := by
    intro i q k hk
    by_cases hij : i = j
    · subst hij
      have hq := (List.getElem?_eq_some_iff.1 hk).1
      rwa [Function.update_self, List.getElem?_append_left hq]
    · rwa [Function.update_of_ne hij]
  refine ⟨h.lines.append hj ht hnone hlt hn hnext, h.conserved.addBack ?_, ?_, ?_, ?_, ?_⟩
  · intro x hx he
    obtain ⟨hi, hp⟩ := h.placed x hx
    obtain rfl : x.node = n := he
    exact hn _ hi (List.mem_of_getElem? hp)
  · intro x hx
    rcases List.mem_cons.1 hx with rfl | hx
    · refine ⟨hj, ?_⟩
      show (Function.update m.line j (m.line j ++ [n]) j)[(m.line j).length]? = some n
      rw [Function.update_self, List.getElem?_concat_length]
    · exact ⟨(h.placed x hx).1, hold _ _ _ (h.placed x hx).2⟩
  · intro x hx
    rcases List.mem_append.1 hx with hx | hx
    · exact ⟨(h.behind x hx).1, (hval _).trans (h.behind x hx).2⟩
    · obtain rfl := List.mem_singleton.1 hx
      exact ⟨by show head j < (m.line j).length; omega, hval _⟩
  · intro i hi q k hq hk
    show ∃ x ∈ m.hist.present ++ [_], x.idx = i ∧ x.pos = q
    by_cases hnew : i = j ∧ q = (m.line j).length
    · obtain ⟨rfl, rfl⟩ := hnew
      exact ⟨_, List.mem_append_right _ (List.mem_singleton_self _), rfl, rfl⟩
    · have hk' : (m.line i)[q]? = some k := by
        have hk : (Function.update m.line j (m.line j ++ [n]) i)[q]? = some k := hk
        by_cases hij : i = j
        · subst hij
          rw [Function.update_self] at hk
          have h₁ := (List.getElem?_eq_some_iff.1 hk).1
          rw [List.length_append, List.length_singleton] at h₁
          have h₂ : q ≠ (m.line i).length := fun e => hnew ⟨rfl, e⟩
          rwa [List.getElem?_append_left (by omega)] at hk
        · rwa [Function.update_of_ne hij] at hk
      obtain ⟨x, hx, he⟩ := h.all i hi q k hq hk'
      exact ⟨x, List.mem_append_left _ hx, he⟩
  · refine List.pairwise_append.2 ⟨h.sorted, List.pairwise_singleton _ _, fun x hx y hy he => ?_⟩
    obtain rfl := List.mem_singleton.1 hy
    have h₁ := (List.getElem?_eq_some_iff.1 (h.placed_present hx).2).1
    have he : x.idx = j := he
    rw [he] at h₁
    exact h₁

/-- The item behind the head of queue `j` is the oldest of its queue. -/
theorem remove (h : Queues w head m) (hj : j < w) (hn : (m.line j)[head j + 1]? = some n) :
    ∃ A x B, m.hist.present = A ++ x :: B ∧ x.node = n ∧ x.idx = j ∧ x.pos = head j + 1 ∧
      (m.heap n).val = x.val ∧ (∀ y ∈ A, y.idx ≠ j) ∧
      Queues w (Function.update head j (head j + 1)) (m.remove (some n)) := by
  obtain ⟨x, hx, rfl, hpos⟩ := h.all j hj _ n (Nat.lt_succ_self _) hn
  obtain rfl : n = x.node := by
    have h₁ := (h.placed_present hx).2
    rw [hpos, hn] at h₁
    exact Option.some.inj h₁
  obtain ⟨A, B, hp⟩ := List.append_of_mem hx
  have hsorted := h.sorted
  rw [hp, List.pairwise_append, List.pairwise_cons] at hsorted
  obtain ⟨hA, ⟨hxB, hB⟩, hAB⟩ := hsorted
  have hmem : ∀ y, y ∈ A ++ B → y ∈ m.hist.present := by
    intro y hy
    rw [hp]
    rcases List.mem_append.1 hy with hy | hy <;> simp [hy]
  have hAx : ∀ y ∈ A, y.idx ≠ x.idx := by
    intro y hy he
    have h₁ := hAB y hy x (List.mem_cons_self ..) he
    have h₂ := (h.behind y (hmem y (List.mem_append_left _ hy))).1
    rw [he] at h₂
    omega
  have hrem : (m.remove (some x.node)).hist = _ := h.conserved.remove_eq hp
  have hbehind : ∀ y ∈ A ++ B, y.idx = x.idx → x.pos < y.pos := by
    intro y hy he
    rcases List.mem_append.1 hy with hy | hy
    · exact absurd he (hAx y hy)
    · exact hxB y hy he.symm
  refine ⟨A, x, B, hp, rfl, rfl, hpos, (h.behind x hx).2, hAx,
    h.lines, h.conserved.remove hp, ?_, ?_, ?_, ?_⟩
  · rw [hrem]
    exact h.placed
  · rw [hrem]
    intro y hy
    obtain ⟨h₁, h₂⟩ := h.behind y (hmem y hy)
    refine ⟨?_, h₂⟩
    by_cases he : y.idx = x.idx
    · rw [he, Function.update_self]
      have := hbehind y hy he
      omega
    · rwa [Function.update_of_ne he]
  · rw [hrem]
    intro i hi q k hq hk
    have hq' : head i < q ∧ (i = x.idx → q ≠ x.pos) := by
      by_cases he : i = x.idx
      · subst he
        rw [Function.update_self] at hq
        exact ⟨by omega, fun _ => by omega⟩
      · rw [Function.update_of_ne he] at hq
        exact ⟨hq, fun e => absurd e he⟩
    obtain ⟨y, hy, hyi, hyq⟩ := h.all i hi q k hq'.1 hk
    refine ⟨y, ?_, hyi, hyq⟩
    rw [hp] at hy
    rcases List.mem_append.1 hy with hy | hy
    · exact List.mem_append_left _ hy
    · rcases List.mem_cons.1 hy with rfl | hy
      · exact absurd hyq.symm (hq'.2 hyi.symm)
      · exact List.mem_append_right _ hy
  · rw [hrem]
    exact List.pairwise_append.2
      ⟨hA, hB, fun y hy z hz => hAB y hy z (List.mem_cons_of_mem _ hz)⟩

/-- Nothing is present exactly if every head stands at the end of its line. -/
theorem present_eq_nil_iff (h : Queues w head m) (hlt : ∀ j < w, head j < (m.line j).length) :
    m.hist.present = [] ↔ ∀ j < w, head j + 1 = (m.line j).length := by
  constructor
  · intro he j hj
    by_contra hne
    have hl : head j + 1 < (m.line j).length := lt_of_le_of_ne (hlt j hj) hne
    obtain ⟨x, hx, -⟩ := h.all j hj _ _ (Nat.lt_succ_self _) (List.getElem?_eq_getElem hl)
    rw [he] at hx
    exact absurd hx List.not_mem_nil
  · intro hall
    refine List.eq_nil_iff_forall_not_mem.2 fun x hx => ?_
    obtain ⟨hi, hp⟩ := h.placed_present hx
    have h₁ := (h.behind x hx).1
    have h₂ := hall _ hi
    have h₃ := (List.getElem?_eq_some_iff.1 hp).1
    omega

/-! ### Rows -/

/-- No item stands above a multiple of `d` that a younger item does not exceed. -/
def InRows (d : ℕ) (l : List (Item τ)) : Prop :=
  l.Pairwise fun y x => ∀ n, x.pos ≤ d * n → y.pos ≤ d * n

/-- A new item of the topmost block of `d` rows that is in use. -/
theorem InRows.snoc {d P : ℕ} {l : List (Item τ)} {x : Item τ} (h : InRows d l) (hP : d ∣ P)
    (hle : ∀ y ∈ l, y.pos ≤ P) (hx : P < x.pos + d) : InRows d (l ++ [x]) := by
  refine List.pairwise_append.2 ⟨h, List.pairwise_singleton _ _, fun y hy z hz n hn => ?_⟩
  obtain rfl := List.mem_singleton.1 hz
  obtain ⟨p, rfl⟩ := hP
  have hlt : d * p < d * (n + 1) := by
    rw [Nat.mul_add, Nat.mul_one]
    omega
  have hpn : p ≤ n := Nat.lt_succ_iff.1 (lt_of_mul_lt_mul_left hlt (Nat.zero_le _))
  exact (hle y hy).trans (Nat.mul_le_mul_left _ hpn)

/-- Where all heads are at most `d` below the row `g`, an item up to this row has at most `d` older
items in each of the other queues. -/
theorem length_le (h : Queues w head m) {d g : ℕ} {A B : List (Item τ)} {x : Item τ}
    (hp : m.hist.present = A ++ x :: B) (hx : x.idx < w) (hA : ∀ y ∈ A, y.idx ≠ x.idx)
    (hrows : InRows d m.hist.present) (hd : d ∣ g) (hpos : x.pos ≤ g)
    (hhead : ∀ i < w, g ≤ head i + d) : A.length ≤ d * (w - 1) := by
  refine Rank.length_le_mul (f := Item.idx) (fun y hy => ?_) hx (Rank.count_eq_zero.2 hA)
    fun i hi hij => ?_
  · exact (h.placed_present (hp ▸ List.mem_append_left _ hy)).1
  · rw [Rank.count_eq_length_filter, ← List.length_map (f := Item.pos)]
    obtain ⟨n, rfl⟩ := hd
    have hsorted := h.sorted
    have hrows : (A ++ x :: B).Pairwise _ := hp ▸ hrows
    rw [hp, List.pairwise_append] at hsorted
    rw [List.pairwise_append] at hrows
    have hmem : ∀ y ∈ A.filter (fun y => y.idx = i), y ∈ A ∧ y.idx = i := by
      intro y hy
      simpa using List.mem_filter.1 hy
    refine Rank.length_le_of_rows (b := d * n - d) ?_ ?_ ?_
    · rw [List.pairwise_map]
      refine (hsorted.1.sublist List.filter_sublist).imp_of_mem fun hy hz hlt => hlt ?_
      rw [(hmem _ hy).2, (hmem _ hz).2]
    · intro r hr
      obtain ⟨y, hy, rfl⟩ := List.mem_map.1 hr
      obtain ⟨hyA, rfl⟩ := hmem y hy
      have h₁ := (h.behind y (hp ▸ List.mem_append_left _ hyA)).1
      have h₂ := hhead _ hi
      omega
    · intro r hr
      obtain ⟨y, hy, rfl⟩ := List.mem_map.1 hr
      obtain ⟨hyA, rfl⟩ := hmem y hy
      have h₁ := hrows.2.2 y hyA x (List.mem_cons_self ..) n hpos
      omega

end Queues

end Linked
