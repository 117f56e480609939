import SemanticRelaxation.Support.Fifos
import SemanticRelaxation.Support.Windowed

/-!
# The contents of queues that are filled window by window

As long as the heads are where they should be (`Headed`), the counts do not matter for what the
queues hold: `holds_link`, `holds_take` and `holds_empty` are the steps of `w` queues.
-/

namespace Windowed

open Linked MichaelScott AtomicProg Fifos

variable {C R : Type} {I : Interface C R} {w : ℕ} {s : Span} {l : List Span} {x : Store ℤ}
  {g : Places}
  {y : ℕ → List ℤ} {call : C} {j t n m p : ℕ}

namespace Headed

/-- With the positions in the place of the counts the queues hold the same. -/
theorem holds_placed (h : Headed w x g) (hy : Holds w x y) : Holds w (placed x g) y :=
  hy.congr fun j hj => content_congr rfl (h.node j hj).symm fun _ _ => rfl

/-- A linked node comes last. -/
theorem holds_link (hh : Headed w x g) (h : Filled w s l x g) (hj : j < w)
    (ht : (x.cells.line j)[p]? = some t) (hle : p ≤ g.putPos j)
    (hnone : (x.cells.heap t).next = none) (hn : Unlinked w x.cells n)
    (hk : I.kind call = .put (x.cells.heap n).val) (hy : Holds w x y) :
    ∃ y', (spec I w).step y call I.done y' ∧ Holds w (x.link j t n) y' := by
  obtain ⟨y', hstep, hy'⟩ :=
    (hh.holds_placed hy).link h.valid (h.valid.link hj ht hle hnone hn) hj hk
  exact ⟨y', hstep, hy'.congr fun i hi => content_congr rfl (hh.node i hi) fun _ _ => rfl⟩

/-- The node behind the head is taken, whatever the count of the new head is. -/
theorem holds_take (hh : Headed w x g) (h : Filled w s l x g) (hj : j < w)
    (hlt : g.getPos j < g.putPos j) (hm : (x.cells.line j)[g.getPos j + 1]? = some m) (count : ℕ)
    (hk : I.kind call = .get) (hy : Holds w x y) :
    ∃ y', (spec I w).step y call (I.got (x.cells.heap m).val) y' ∧ Holds w
      (x.take j ⟨some m, count⟩) y' := by
  obtain ⟨y', hstep, hy'⟩ := (hh.holds_placed hy).take h.valid (h.valid.take hj hlt hm) hj hm rfl hk
  refine ⟨y', hstep, hy'.congr fun i hi => content_congr rfl ?_ fun _ _ => rfl⟩
  show (Function.update x.get j _ i).node = (Function.update (placed x g).get j _ i).node
  by_cases hij : i = j
  · subst hij
    rw [Function.update_self, Function.update_self]
  · rw [Function.update_of_ne hij, Function.update_of_ne hij]
    exact hh.node i hi

/-- Nothing is behind a head at whose position or before it the line ends. -/
theorem holds_empty (hh : Headed w x g) (h : Filled w s l x g) (hj : j < w)
    (ht : (x.cells.line j)[p]? = some t) (hp : p ≤ g.getPos j)
    (hnone : (x.cells.heap t).next = none) (hk : I.kind call = .get) (hy : Holds w x y) :
    (spec I w).step y call I.empty y :=
  (hh.holds_placed hy).empty h.valid hj ht hp hnone hk

end Headed

end Windowed
