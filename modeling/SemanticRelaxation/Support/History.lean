import Mathlib.Data.List.Perm.Basic
import Mathlib.Data.List.Nodup

/-!
# Histories of insertions and removals

A history records which nodes were added to a structure and which were removed from it, next to
the list of the items present in the order of their insertion. The list and the recorded
distances follow the insertion and removal lists that relaxation analyses keep: `addFront` and
`addBack` insert at the two ends, and `remove` deletes the item of a node and records how many
items stood ahead of it.
-/

/-- An entry with a new key behind entries with different keys. -/
theorem nodup_map_snoc {α β : Type} {f : α → β} {l : List α} {a : α} (h : (l.map f).Nodup)
    (ha : ∀ y ∈ l, f y ≠ f a) : ((l ++ [a]).map f).Nodup := by
  rw [List.map_append, List.nodup_append]
  refine ⟨h, List.nodup_singleton _, fun b hb d hd => ?_⟩
  obtain rfl := List.mem_singleton.1 hd
  obtain ⟨y, hy, rfl⟩ := List.mem_map.1 hb
  exact ha y hy

/-- Items that stand for one node of the memory. -/
class Tracked (ι : Type) where
  node : ι → ℕ

/-- The items present, with the logs of all insertions and removals, newest first. -/
structure History (ι : Type) where
  present : List ι := []
  added : List ι := []
  removed : List ι := []
  dists : List ℕ := []

namespace History

variable {ι : Type} [Tracked ι]

/-- Insert at the front of the list. -/
def addFront (h : History ι) (x : ι) : History ι :=
  { h with present := x :: h.present, added := x :: h.added }

/-- Insert at the back of the list. -/
def addBack (h : History ι) (x : ι) : History ι :=
  { h with present := h.present ++ [x], added := x :: h.added }

/-- Remove the item of node `n`. -/
def remove (h : History ι) (n : ℕ) : History ι :=
  { h with
    present := h.present.eraseP fun x => Tracked.node x == n
    removed := (h.present.find? fun x => Tracked.node x == n).toList ++ h.removed
    dists := h.present.findIdx (fun x => Tracked.node x == n) :: h.dists }

/-- No node was added twice, and the items added are exactly those present and those removed:
nothing is lost and nothing is removed twice. -/
structure Conserved (h : History ι) : Prop where
  nodup : (h.added.map Tracked.node).Nodup
  perm : h.added.Perm (h.present ++ h.removed)

namespace Conserved

variable {h : History ι} {x : ι}

theorem empty : Conserved ({} : History ι) := ⟨List.nodup_nil, .refl _⟩

theorem nodup_append (hc : h.Conserved) :
    (h.present.map Tracked.node ++ h.removed.map Tracked.node).Nodup := by
  have hp := hc.perm.map Tracked.node
  rw [List.map_append] at hp
  exact hp.nodup_iff.1 hc.nodup

theorem nodup_present (hc : h.Conserved) : (h.present.map Tracked.node).Nodup :=
  (List.nodup_append.1 hc.nodup_append).1

theorem mem_added (hc : h.Conserved) (hx : x ∈ h.present) : x ∈ h.added :=
  hc.perm.mem_iff.2 (List.mem_append_left _ hx)

theorem addFront (hc : h.Conserved) (hx : ∀ y ∈ h.added, Tracked.node y ≠ Tracked.node x) :
    (h.addFront x).Conserved := by
  refine ⟨List.nodup_cons.2 ⟨fun hm => ?_, hc.nodup⟩, hc.perm.cons _⟩
  obtain ⟨y, hy, he⟩ := List.mem_map.1 hm
  exact hx y hy he

theorem addBack (hc : h.Conserved) (hx : ∀ y ∈ h.added, Tracked.node y ≠ Tracked.node x) :
    (h.addBack x).Conserved := by
  refine ⟨(hc.addFront hx).nodup, (hc.perm.cons _).trans ?_⟩
  simp only [History.addBack, List.append_assoc, List.singleton_append]
  exact List.perm_middle.symm

/-- Removing the node of a present item splits the list at that item. -/
theorem remove_eq (hc : h.Conserved) {A B : List ι} (hp : h.present = A ++ x :: B) :
    h.remove (Tracked.node x) =
      { h with
        present := A ++ B
        removed := x :: h.removed
        dists := A.length :: h.dists } := by
  have hA : ∀ y ∈ A, ¬ (Tracked.node y == Tracked.node x) = true := by
    intro y hy
    have hn := hc.nodup_present
    rw [hp, List.map_append, List.map_cons, List.nodup_append] at hn
    have := hn.2.2 _ (List.mem_map_of_mem hy) _ (List.mem_cons_self ..)
    simpa using this
  have herase : h.present.eraseP (fun y => Tracked.node y == Tracked.node x) = A ++ B := by
    rw [hp, List.eraseP_append_right _ hA, List.eraseP_cons_of_pos (by simp)]
  have hfind : h.present.find? (fun y => Tracked.node y == Tracked.node x) = some x := by
    rw [hp, List.find?_append, List.find?_eq_none.2 hA]
    simp
  have hidx : h.present.findIdx (fun y => Tracked.node y == Tracked.node x) = A.length := by
    rw [hp, List.findIdx_append]
    have : ¬ A.findIdx (fun y => Tracked.node y == Tracked.node x) < A.length := by
      rw [List.findIdx_lt_length]
      rintro ⟨y, hy, hxy⟩
      exact hA y hy hxy
    rw [if_neg this, List.findIdx_cons]
    simp
  unfold History.remove
  rw [herase, hidx, hfind]
  rfl

theorem remove (hc : h.Conserved) {A B : List ι} (hp : h.present = A ++ x :: B) :
    (h.remove (Tracked.node x)).Conserved := by
  rw [hc.remove_eq hp]
  refine ⟨hc.nodup, hc.perm.trans ?_⟩
  simp only [hp, List.append_assoc, List.cons_append]
  exact List.Perm.append_left _ List.perm_middle.symm

end Conserved

/-- One removal from a relaxed structure: nothing from an empty list, otherwise an item `x` that
has at most `k x` items ahead of it. -/
inductive Removes (k : ι → ℕ) (h : History ι) : Option ι → History ι → Prop
  | empty (he : h.present = []) : Removes k h none h
  | item {A B : List ι} {x : ι} (hp : h.present = A ++ x :: B) (hk : A.length ≤ k x) :
      Removes k h (some x) (h.remove (Tracked.node x))

end History
