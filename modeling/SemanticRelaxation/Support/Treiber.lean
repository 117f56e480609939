import SemanticRelaxation.Support.History
import SemanticRelaxation.Support.LinkedStacks
import SemanticRelaxation.Support.Rank

/-!
# Arrays of Treiber stacks

The node memory of an array of linked stacks, with the history of all pushes and pops. Cells come
from a counter and are never handed out again.

`Stacks w top m` says that the linked list from `top j` holds the items of class `j` of the
history, youngest first. It is kept by the three things that the stacks do with their memory:
`Mem.create` a node, `Mem.push` it (`Stacks.push`), and `Mem.pop` the top node (`Stacks.pop`).

`Mem.linked` is this memory seen through the tops of its stacks, as linked stacks. The history is
not a part of them.
-/

namespace Treiber

/-- `node_t`. -/
structure Node where
  val : ℤ
  next : Option ℕ

/-- An item of the history: its node, its value, and the stack it was pushed on. -/
structure Item where
  node : ℕ
  val : ℤ
  idx : ℕ
  deriving DecidableEq

instance : Tracked Item := ⟨Item.node⟩

@[simp] theorem tracked_node (x : Item) : Tracked.node x = x.node := rfl

/-- The cells, the next free cell, and the history. -/
structure Mem where
  heap : ℕ → Node := fun _ => ⟨0, none⟩
  fresh : ℕ := 0
  hist : History Item := {}

namespace Mem

variable (m : Mem)

/-- The memory after the allocation of the cell `m.fresh`. -/
def create (val : ℤ) : Mem :=
  { m with heap := Function.update m.heap m.fresh ⟨val, none⟩, fresh := m.fresh + 1 }

/-- The memory after a store to the link of a node. -/
def setNext (node : ℕ) (next : Option ℕ) : Mem :=
  { m with heap := Function.update m.heap node { m.heap node with next } }

/-- Record that `node` was pushed on stack `idx`. -/
def push (idx node : ℕ) : Mem :=
  { m with hist := m.hist.addFront ⟨node, (m.heap node).val, idx⟩ }

/-- Record that `node` was popped. -/
def pop (node : ℕ) : Mem := { m with hist := m.hist.remove node }

end Mem

/-- The items of class `j`, youngest first. -/
def classOf (j : ℕ) (l : List Item) : List Item := l.filter fun x => x.idx = j

theorem length_classOf (j : ℕ) (l : List Item) :
    (classOf j l).length = Rank.count Item.idx j l :=
  (Rank.count_eq_length_filter j l).symm

@[simp] theorem classOf_append (j : ℕ) (l l' : List Item) :
    classOf j (l ++ l') = classOf j l ++ classOf j l' := List.filter_append ..

theorem classOf_cons_self (x : Item) (l : List Item) :
    classOf x.idx (x :: l) = x :: classOf x.idx l := by
  simp [classOf]

theorem classOf_cons_of_ne {j : ℕ} {x : Item} (h : x.idx ≠ j) (l : List Item) :
    classOf j (x :: l) = classOf j l := by
  simp [classOf, h]

theorem classOf_remove_self {A B : List Item} {x : Item} (hA : Rank.count Item.idx x.idx A = 0) :
    classOf x.idx (A ++ x :: B) = x :: classOf x.idx (A ++ B) := by
  have hnil : classOf x.idx A = [] :=
    List.filter_eq_nil_iff.2 fun y hy => by simpa using Rank.count_eq_zero.1 hA y hy
  rw [classOf_append, classOf_append, classOf_cons_self, hnil]
  rfl

theorem classOf_remove_of_ne {j : ℕ} {A B : List Item} {x : Item} (h : x.idx ≠ j) :
    classOf j (A ++ x :: B) = classOf j (A ++ B) := by
  rw [classOf_append, classOf_append, classOf_cons_of_ne h]

/-- The cells from `top` hold the list. -/
def Chain (heap : ℕ → Node) : Option ℕ → List Item → Prop
  | top, [] => top = none
  | top, x :: l => top = some x.node ∧ (heap x.node).val = x.val ∧ Chain heap (heap x.node).next l

theorem Chain.congr {heap heap' : ℕ → Node} {top : Option ℕ} {l : List Item}
    (h : Chain heap top l) (heq : ∀ x ∈ l, heap' x.node = heap x.node) : Chain heap' top l := by
  induction l generalizing top with
  | nil => exact h
  | cons x l ih =>
    obtain ⟨ht, hv, hc⟩ := h
    have hx := heq x (List.mem_cons_self ..)
    refine ⟨ht, by rw [hx, hv], ?_⟩
    rw [hx]
    exact ih hc fun y hy => heq y (List.mem_cons_of_mem _ hy)

/-- The linked lists from the `w` tops hold the items of the history, class by class. -/
structure Stacks (w : ℕ) (top : ℕ → Option ℕ) (m : Mem) : Prop where
  conserved : m.hist.Conserved
  fresh : ∀ x ∈ m.hist.added, x.node < m.fresh
  idx_lt : ∀ x ∈ m.hist.present, x.idx < w
  chain : ∀ j < w, Chain m.heap (top j) (classOf j m.hist.present)

namespace Stacks

variable {w : ℕ} {top : ℕ → Option ℕ} {m : Mem}

theorem init : Stacks w (fun _ => none) {} where
  conserved := .empty
  fresh := by simp
  idx_lt := by simp
  chain _ _ := rfl

/-- Cells outside the history may change. -/
theorem congr (h : Stacks w top m) {heap : ℕ → Node} {fresh : ℕ} (hf : m.fresh ≤ fresh)
    (heq : ∀ x ∈ m.hist.added, heap x.node = m.heap x.node) :
    Stacks w top { m with heap, fresh } where
  conserved := h.conserved
  fresh x hx := (h.fresh x hx).trans_le hf
  idx_lt := h.idx_lt
  chain j hj := (h.chain j hj).congr fun _ hx =>
    heq _ (h.conserved.mem_added (List.mem_of_mem_filter hx))

theorem create (h : Stacks w top m) (val : ℤ) : Stacks w top (m.create val) :=
  h.congr (Nat.le_succ _) fun x hx => Function.update_of_ne (h.fresh x hx).ne _ _

theorem setNext (h : Stacks w top m) {n : ℕ} (hn : ∀ x ∈ m.hist.added, x.node ≠ n)
    (next : Option ℕ) : Stacks w top (m.setNext n next) :=
  h.congr le_rfl fun x hx => Function.update_of_ne (hn x hx) _ _

theorem top_eq_none_iff (h : Stacks w top m) {j : ℕ} (hj : j < w) :
    top j = none ↔ Rank.count Item.idx j m.hist.present = 0 := by
  rw [← length_classOf, List.length_eq_zero_iff]
  have hc := h.chain j hj
  cases hl : classOf j m.hist.present with
  | nil =>
    rw [hl] at hc
    exact ⟨fun _ => rfl, fun _ => hc⟩
  | cons x l =>
    rw [hl] at hc
    exact ⟨fun h0 => by simp [h0, Chain] at hc, nofun⟩

theorem present_eq_nil_iff (h : Stacks w top m) :
    m.hist.present = [] ↔ ∀ j < w, top j = none := by
  constructor
  · intro he j hj
    rw [h.top_eq_none_iff hj, he, Rank.count_nil]
  · intro hall
    refine List.eq_nil_iff_forall_not_mem.2 fun x hx => ?_
    have h0 := (h.top_eq_none_iff (h.idx_lt x hx)).1 (hall _ (h.idx_lt x hx))
    exact Rank.count_eq_zero.1 h0 x hx rfl

/-- A node whose link is the old top becomes the new top. -/
theorem push (h : Stacks w top m) {j n : ℕ} (hj : j < w) (hn : ∀ x ∈ m.hist.added, x.node ≠ n)
    (hlt : n < m.fresh) (hnext : (m.heap n).next = top j) :
    Stacks w (Function.update top j (some n)) (m.push j n) where
  conserved := h.conserved.addFront hn
  fresh x hx := by
    rcases List.mem_cons.1 hx with rfl | hx
    · exact hlt
    · exact h.fresh x hx
  idx_lt x hx := by
    rcases List.mem_cons.1 hx with rfl | hx
    · exact hj
    · exact h.idx_lt x hx
  chain i hi := by
    show Chain m.heap _ (classOf i (⟨n, (m.heap n).val, j⟩ :: m.hist.present))
    by_cases hij : i = j
    · subst hij
      rw [Function.update_self, classOf_cons_self ⟨n, (m.heap n).val, i⟩]
      exact ⟨rfl, rfl, by rw [hnext]; exact h.chain i hi⟩
    · rw [Function.update_of_ne hij, classOf_cons_of_ne (Ne.symm hij)]
      exact h.chain i hi

/-- The top node is the youngest item of its class, and its link becomes the new top. -/
theorem pop (h : Stacks w top m) {j n : ℕ} (hj : j < w) (htop : top j = some n) :
    ∃ A x B, m.hist.present = A ++ x :: B ∧ x.node = n ∧ x.idx = j ∧ (m.heap n).val = x.val ∧
      Rank.count Item.idx j A = 0 ∧
      Stacks w (Function.update top j (m.heap n).next) (m.pop n) := by
  have hc := h.chain j hj
  rw [htop] at hc
  cases hl : classOf j m.hist.present with
  | nil =>
    rw [hl] at hc
    exact absurd hc nofun
  | cons x l =>
    rw [hl] at hc
    obtain ⟨hx, hv, hc⟩ := hc
    obtain rfl : n = x.node := Option.some.inj hx
    obtain ⟨A, B, hp, hA, hxj, rfl⟩ := List.filter_eq_cons_iff.1 hl
    simp only [decide_eq_true_eq] at hA hxj
    refine ⟨A, x, B, hp, rfl, hxj, hv, Rank.count_eq_zero.2 hA, ?_⟩
    have hrem : (m.pop x.node).hist = _ := h.conserved.remove_eq hp
    have hmem : ∀ y ∈ A ++ B, y ∈ m.hist.present := by
      intro y hy
      rw [hp]
      rcases List.mem_append.1 hy with hy | hy <;> simp [hy]
    refine ⟨h.conserved.remove hp, ?_, ?_, fun i hi => ?_⟩
    · rw [hrem]
      exact h.fresh
    · rw [hrem]
      exact fun y hy => h.idx_lt y (hmem y hy)
    · rw [hrem]
      show Chain m.heap _ (classOf i (A ++ B))
      by_cases hij : i = j
      · have hAj := classOf_remove_self (B := B) (hxj.symm ▸ Rank.count_eq_zero.2 hA)
        rw [← hp, hxj, hl] at hAj
        subst hij
        rw [Function.update_self, ← (List.cons.inj hAj).2]
        exact hc
      · rw [Function.update_of_ne hij, ← classOf_remove_of_ne (hxj.trans_ne (Ne.symm hij)), ← hp]
        exact h.chain i hi

end Stacks

/-! ### As linked stacks -/

section Linked

open LinkedStacks

variable (top : ℕ → Option ℕ) (m : Mem)

/-- The linked stacks with these tops. -/
def Mem.linked : Memory where
  top
  next n := (m.heap n).next
  val n := (m.heap n).val
  stamp _ := 0
  fresh := m.fresh

theorem linked_create (val : ℤ) : (m.create val).linked top = (m.linked top).create val := by
  unfold Mem.linked Mem.create Memory.create
  congr
  · funext n
    exact Function.apply_update (fun _ => Node.next) m.heap m.fresh _ n
  · funext n
    exact Function.apply_update (fun _ => Node.val) m.heap m.fresh _ n
  · funext n
    exact (congrFun (Function.update_eq_self m.fresh fun _ => 0) n).symm

theorem linked_setNext (node : ℕ) (next : Option ℕ) :
    (m.setNext node next).linked top = (m.linked top).setNext node next := by
  unfold Mem.linked Mem.setNext Memory.setNext
  congr
  · funext n
    exact Function.apply_update (fun _ => Node.next) m.heap node _ n
  · funext n
    exact (Function.apply_update (fun _ => Node.val) m.heap node _ n).trans
      (congrFun (Function.update_eq_self node fun n => (m.heap n).val) n)

@[simp] theorem linked_push (idx node : ℕ) : (m.push idx node).linked top = m.linked top := rfl

@[simp] theorem linked_pop (node : ℕ) : (m.pop node).linked top = m.linked top := rfl

end Linked

end Treiber
