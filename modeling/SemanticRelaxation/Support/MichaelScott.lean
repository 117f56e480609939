import SemanticRelaxation.Support.Linked
import SemanticRelaxation.Prog.Rely

/-!
# Michael-Scott queues with counted descriptors

An array of linked queues whose head and tail descriptors carry a count next to the node. Several
threads work on it: a node is linked first and the tail swung later, by its owner or by a helper.

* `Valid w s`: the representation invariant. The counts are the positions of the nodes in the lines,
  the tail is the last node or the one before it, and the head is not past the tail;
* `Grows s s'`: what every step keeps. Lines get longer, counts get larger, values stay;
* `Frame`: what the steps of the others keep, in particular that only its owner links a node;
* `Valid.create`, `Valid.link`, `Valid.swing`, `Valid.take`: the steps of the code.
-/

namespace MichaelScott

open Linked AtomicProg

/-- The cells with the arrays of the tail and head descriptors. -/
structure Store (α : Type) where
  cells : Cells α
  put : ℕ → Descriptor
  get : ℕ → Descriptor

variable {α : Type} {w : ℕ} {s s' s'' : Store α} {i j p q n t : ℕ} {d : Descriptor}

namespace Store

/-- `w` empty queues. -/
def init (α : Type) [Inhabited α] (w : ℕ) : Store α :=
  ⟨.init α w, fun j => ⟨some j, 0⟩, fun j => ⟨some j, 0⟩⟩

variable (s : Store α)

/-- A node is allocated. -/
def create (val : α) : Store α := { s with cells := s.cells.create val }

/-- The node `n` is linked behind `t` in queue `j`. -/
def link (j t n : ℕ) : Store α := { s with cells := s.cells.append j (some t) n }

/-- The tail of queue `j` becomes `d`. -/
def swing (j : ℕ) (d : Descriptor) : Store α := { s with put := Function.update s.put j d }

/-- The head of queue `j` becomes `d`. -/
def take (j : ℕ) (d : Descriptor) : Store α := { s with get := Function.update s.get j d }

end Store

/-- The representation invariant of `w` queues. -/
structure Valid (w : ℕ) (s : Store α) : Prop where
  lines : Lines w s.cells
  tail : ∀ j < w, (s.cells.line j)[(s.put j).count]? = (s.put j).node
  near : ∀ j < w, (s.put j).count + 1 = (s.cells.line j).length ∨
    (s.put j).count + 2 = (s.cells.line j).length
  head : ∀ j < w, (s.cells.line j)[(s.get j).count]? = (s.get j).node
  le : ∀ j < w, (s.get j).count ≤ (s.put j).count

/-- What every step keeps. -/
structure Grows (s s' : Store α) : Prop where
  line : ∀ j, s.cells.line j <+: s'.cells.line j
  put : ∀ j, (s.put j).count ≤ (s'.put j).count
  get : ∀ j, (s.get j).count ≤ (s'.get j).count
  fresh : s.cells.fresh ≤ s'.cells.fresh
  val : ∀ n < s.cells.fresh, (s'.cells.heap n).val = (s.cells.heap n).val

namespace Grows

theorem refl (s : Store α) : Grows s s :=
  ⟨fun _ => List.prefix_refl _, fun _ => le_rfl, fun _ => le_rfl, le_rfl, fun _ _ => rfl⟩

theorem trans (h : Grows s s') (h' : Grows s' s'') : Grows s s'' where
  line j := (h.line j).trans (h'.line j)
  put j := (h.put j).trans (h'.put j)
  get j := (h.get j).trans (h'.get j)
  fresh := h.fresh.trans h'.fresh
  val n hn := (h'.val n (hn.trans_le h.fresh)).trans (h.val n hn)

/-- A node stays where it is in its line. -/
theorem getElem? (h : Grows s s') (hn : (s.cells.line j)[p]? = some n) :
    (s'.cells.line j)[p]? = some n := (h.line j).getElem?_of_some hn

theorem create (s : Store α) (val : α) : Grows s (s.create val) where
  line _ := List.prefix_refl _
  put _ := le_rfl
  get _ := le_rfl
  fresh := Nat.le_succ _
  val n hn := by
    show (Function.update s.cells.heap s.cells.fresh _ n).val = _
    rw [Function.update_of_ne hn.ne]

theorem link (s : Store α) (j t n : ℕ) : Grows s (s.link j t n) where
  line i := by
    show s.cells.line i <+: Function.update s.cells.line j (s.cells.line j ++ [n]) i
    by_cases hi : i = j
    · subst hi
      rw [Function.update_self]
      exact List.prefix_append _ _
    · rw [Function.update_of_ne hi]
  put _ := le_rfl
  get _ := le_rfl
  fresh := (s.cells.append_fresh j (some t) n).ge
  val k _ := s.cells.append_val j (some t) n k

theorem swing (hd : (s.put j).count ≤ d.count) : Grows s (s.swing j d) where
  line _ := List.prefix_refl _
  put i := by
    show _ ≤ (Function.update s.put j d i).count
    by_cases hi : i = j
    · subst hi
      rwa [Function.update_self]
    · rw [Function.update_of_ne hi]
  get _ := le_rfl
  fresh := le_rfl
  val _ _ := rfl

theorem take (hd : (s.get j).count ≤ d.count) : Grows s (s.take j d) where
  line _ := List.prefix_refl _
  put _ := le_rfl
  get i := by
    show _ ≤ (Function.update s.get j d i).count
    by_cases hi : i = j
    · subst hi
      rwa [Function.update_self]
    · rw [Function.update_of_ne hi]
  fresh := le_rfl
  val _ _ := rfl

end Grows

namespace Valid

variable (h : Valid w s)
include h

/-- A node has one position only. -/
theorem pos_inj (hj : j < w) (hp : (s.cells.line j)[p]? = some n)
    (hq : (s.cells.line j)[q]? = some n) : p = q :=
  (h.lines.inj j hj j hj p q n hp hq).2

theorem put_lt (hj : j < w) : (s.put j).count < (s.cells.line j).length := by
  have := h.near j hj
  omega

/-- The head and the tail are at one node exactly if their counts agree. -/
theorem node_eq_iff (hj : j < w) :
    (s.get j).node = (s.put j).node ↔ (s.get j).count = (s.put j).count := by
  rw [← h.head j hj, ← h.tail j hj]
  constructor
  · intro he
    rw [List.getElem?_eq_getElem (h.put_lt hj)] at he
    exact h.pos_inj hj he (List.getElem?_eq_getElem _)
  · intro he
    rw [he]

/-- A descriptor whose node stands at position `p` has the count `p`. -/
theorem put_count (hj : j < w) (hp : (s.cells.line j)[p]? = (s.put j).node)
    (hlt : p < (s.cells.line j).length) : (s.put j).count = p := by
  rw [List.getElem?_eq_getElem hlt] at hp
  exact h.pos_inj hj ((h.tail j hj).trans hp.symm) (List.getElem?_eq_getElem hlt)

theorem get_count (hj : j < w) (hp : (s.cells.line j)[p]? = (s.get j).node)
    (hlt : p < (s.cells.line j).length) : (s.get j).count = p := by
  rw [List.getElem?_eq_getElem hlt] at hp
  exact h.pos_inj hj ((h.head j hj).trans hp.symm) (List.getElem?_eq_getElem hlt)

/-- A node of a line is not `NULL`. -/
theorem tail_some (hj : j < w) : ∃ t, (s.put j).node = some t :=
  ⟨_, (h.tail j hj).symm.trans (List.getElem?_eq_getElem (h.put_lt hj))⟩

theorem head_some (hj : j < w) : ∃ t, (s.get j).node = some t :=
  ⟨_, (h.head j hj).symm.trans
    (List.getElem?_eq_getElem ((h.le j hj).trans_lt (h.put_lt hj)))⟩

/-! ### The steps -/

theorem create (val : α) : Valid w (s.create val) :=
  ⟨h.lines.create val, h.tail, h.near, h.head, h.le⟩

/-- The last node of its line that was the tail once is still the tail. -/
theorem put_of_last (hj : j < w) (ht : (s.cells.line j)[p]? = some t)
    (hle : p ≤ (s.put j).count) (hnone : (s.cells.heap t).next = none) :
    (s.put j).count = p ∧ p + 1 = (s.cells.line j).length := by
  have hlast := h.lines.last hj ht hnone
  have hlt := h.put_lt hj
  omega

theorem link (hj : j < w) (ht : (s.cells.line j)[p]? = some t) (hle : p ≤ (s.put j).count)
    (hnone : (s.cells.heap t).next = none) (hn : Unlinked w s.cells n) :
    Valid w (s.link j t n) := by
  obtain ⟨hput, hlast⟩ := h.put_of_last hj ht hle hnone
  have hg := Grows.link s j t n
  have hstep : ∀ i < w, ∀ q, q < (s.cells.line i).length →
      ((s.link j t n).cells.line i)[q]? = (s.cells.line i)[q]? := fun i _ _ hq =>
    (hg.line i).getElem?_of_lt hq
  refine ⟨h.lines.append hj ht hnone hn.lt_fresh hn.notMem hn.next, fun i hi => ?_,
    fun i hi => ?_, fun i hi => ?_, h.le⟩
  · exact (hstep i hi _ (h.put_lt hi)).trans (h.tail i hi)
  · show (s.put i).count + 1 = (Function.update s.cells.line j (s.cells.line j ++ [n]) i).length ∨
      (s.put i).count + 2 = (Function.update s.cells.line j (s.cells.line j ++ [n]) i).length
    by_cases hij : i = j
    · subst hij
      rw [Function.update_self, List.length_append, List.length_singleton]
      exact .inr (by omega)
    · rw [Function.update_of_ne hij]
      exact h.near i hi
  · exact (hstep i hi _ ((h.le i hi).trans_lt (h.put_lt hi))).trans (h.head i hi)

/-- The tail moves one node on. -/
theorem swing (hn : (s.cells.line j)[(s.put j).count + 1]? = some n) :
    Valid w (s.swing j ⟨some n, (s.put j).count + 1⟩) := by
  refine ⟨h.lines, fun i hi => ?_, fun i hi => ?_, h.head, fun i hi => ?_⟩
  · show (s.cells.line i)[(Function.update s.put j _ i).count]? = (Function.update s.put j _ i).node
    by_cases hij : i = j
    · subst hij
      rw [Function.update_self]
      exact hn
    · rw [Function.update_of_ne hij]
      exact h.tail i hi
  · show (Function.update s.put j _ i).count + 1 = _ ∨ (Function.update s.put j _ i).count + 2 = _
    by_cases hij : i = j
    · subst hij
      rw [Function.update_self]
      have h₁ := h.near i hi
      have h₂ := (List.getElem?_eq_some_iff.1 hn).1
      exact .inl (by show (s.put i).count + 1 + 1 = (s.cells.line i).length; omega)
    · rw [Function.update_of_ne hij]
      exact h.near i hi
  · show _ ≤ (Function.update s.put j _ i).count
    by_cases hij : i = j
    · subst hij
      rw [Function.update_self]
      exact (h.le i hi).trans (Nat.le_succ _)
    · rw [Function.update_of_ne hij]
      exact h.le i hi

/-- The head moves one node on. -/
theorem take (hj : j < w) (hlt : (s.get j).count < (s.put j).count)
    (hn : (s.cells.line j)[(s.get j).count + 1]? = some n) :
    Valid w (s.take j ⟨some n, (s.get j).count + 1⟩) := by
  refine ⟨h.lines, h.tail, h.near, fun i hi => ?_, fun i hi => ?_⟩
  · show (s.cells.line i)[(Function.update s.get j _ i).count]? = (Function.update s.get j _ i).node
    by_cases hij : i = j
    · subst hij
      rw [Function.update_self]
      exact hn
    · rw [Function.update_of_ne hij]
      exact h.head i hi
  · show (Function.update s.get j _ i).count ≤ _
    by_cases hij : i = j
    · subst hij
      rw [Function.update_self]
      exact hlt
    · rw [Function.update_of_ne hij]
      exact h.le i hi

end Valid

theorem Valid.init [Inhabited α] : Valid w (Store.init α w) where
  lines := .init
  tail _ _ := rfl
  near _ _ := .inl rfl
  head _ _ := rfl
  le _ _ := le_rfl

/-! ### Unlinked nodes -/

/-- What the steps of the others keep for the owner `o`, where `g` names the call that has allocated
a node. -/
structure Frame (w : ℕ) (o : Owner) (s : Store α) (g : ℕ → ℕ) (s' : Store α) (g' : ℕ → ℕ) :
    Prop where
  grows : Grows s s'
  owner : ∀ n < s.cells.fresh, g' n = g n
  unlinked : ∀ n, o = .op (g n) → Unlinked w s.cells n → Unlinked w s'.cells n

namespace Frame

variable {o : Owner} {g g' g'' : ℕ → ℕ} {c : Caller}

theorem refl (o : Owner) (s : Store α) (g : ℕ → ℕ) : Frame w o s g s g :=
  ⟨.refl s, fun _ _ => rfl, fun _ _ h => h⟩

theorem trans (h : Frame w o s g s' g') (h' : Frame w o s' g' s'' g'') :
    Frame w o s g s'' g'' where
  grows := h.grows.trans h'.grows
  owner n hn := (h'.owner n (hn.trans_le h.grows.fresh)).trans (h.owner n hn)
  unlinked n ho hn :=
    h'.unlinked n (by rw [h.owner n hn.lt_fresh, ho]) (h.unlinked n ho hn)

theorem create (s : Store α) (val : α) (op : ℕ) :
    Frame w o s g (s.create val) (Function.update g s.cells.fresh op) where
  grows := .create s val
  owner _ hn := Function.update_of_ne hn.ne _ _
  unlinked _ _ hn := hn.create_of_ne val

theorem link (ho : ¬ c.Is o) (hown : g n = c.op) (hj : j < w)
    (ht : (s.cells.line j)[p]? = some t) : Frame w o s g (s.link j t n) g where
  grows := .link s j t n
  owner _ _ := rfl
  unlinked k hk hu := by
    refine hu.append (fun e => ho ?_) hj ht
    subst e
    rw [hk, hown]
    rfl

/-- A step that leaves the cells alone. -/
theorem of_cells (hg : Grows s s') (hc : s'.cells = s.cells) : Frame w o s g s' g where
  grows := hg
  owner _ _ := rfl
  unlinked _ _ hn := hc ▸ hn

end Frame

end MichaelScott
