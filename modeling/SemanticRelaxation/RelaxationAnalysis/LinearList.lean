import SemanticRelaxation.Support.Removal
import Mathlib.Data.Int.Notation

/-!
# The lock-based relaxation analysis (`include/relaxation_analysis_queue.c`)

A linked list is kept beside the data structure, with the items in the order of a structure that is
not relaxed. The position at which a removed item is found is its rank error. The node of a removed
item is used again for the list of the rank errors, with the rank error as its value.

`none` stands for a failed assertion, for an access through `NULL`, and for `exit`. The loop of
`remove_linear` gets fuel. Nodes are never freed, so that their number is bounded by the memory and
`size` does not wrap.

* `Shape`: the two lists are linked, without a node in common;
* `linear_exact`: after any legal operations the list is the reference list, and the rank errors are
  exact.
-/

namespace RelaxationAnalysis

open Lifo

/-- `linear_list_t`. -/
structure LinearList where
  size : ℕ
  head : Option ℕ
  tail : Option ℕ

/-- The nodes, `linear_clone` and `error_dists`. -/
structure Memory where
  val : ℕ → ℤ
  next : ℕ → Option ℕ
  fresh : ℕ
  linearClone : LinearList
  errorDists : LinearList

/-- The static storage at the start. -/
def initial : Memory := ⟨fun _ => 0, fun _ => none, 0, ⟨0, none, none⟩, ⟨0, none, none⟩⟩

namespace Memory

variable (s : Memory)

def setNext (n : ℕ) (p : Option ℕ) : Memory := { s with next := Function.update s.next n p }

def setVal (n : ℕ) (v : ℤ) : Memory := { s with val := Function.update s.val n v }

/-- `calloc`, and the store of the value. -/
def create (v : ℤ) : Memory :=
  { s with
    val := Function.update s.val s.fresh v
    next := Function.update s.next s.fresh none
    fresh := s.fresh + 1 }

def setClone (l : LinearList) : Memory := { s with linearClone := l }

def setDists (l : LinearList) : Memory := { s with errorDists := l }

end Memory

/-- `add_linear(val, end)`. -/
def addLinear (v : ℤ) (atEnd : ℤ) (s : Memory) : Option Memory :=
  let countNode := s.fresh
  let s' := s.create v
  let size := s.linearClone.size + 1
  match s.linearClone.head with
  | none => some (s'.setClone ⟨size, some countNode, some countNode⟩)
  | some head =>
    if atEnd = 1 then
      some ((s'.setNext countNode (some head)).setClone ⟨size, some countNode, s.linearClone.tail⟩)
    else if atEnd = 0 then
      match s.linearClone.tail with
      | none => none
      | some tail => some ((s'.setNext tail (some countNode)).setClone ⟨size, some head,
          some countNode⟩)
    else none

/-- `add_relaxed_dist(dist_node)`. -/
def addRelaxedDist (distNode : ℕ) (s : Memory) : Option Memory :=
  let size := s.errorDists.size + 1
  let s' := s.setNext distNode none
  match s.errorDists.head with
  | none => some (s'.setDists ⟨size, some distNode, some distNode⟩)
  | some head =>
    match s.errorDists.tail with
    | none => none
    | some tail => some ((s'.setNext tail (some distNode)).setDists ⟨size, some head,
        some distNode⟩)

/-- The branch of `remove_linear` for the first node. -/
def removeFirst (head : ℕ) (s : Memory) : Option Memory :=
  let size := s.linearClone.size - 1
  if some head = s.linearClone.tail then
    if s.next head = none ∧ size = 0 then
      addRelaxedDist head ((s.setClone ⟨size, s.next head, none⟩).setVal head 0)
    else none
  else addRelaxedDist head ((s.setClone ⟨size, s.next head, s.linearClone.tail⟩).setVal head 0)

/-- The branch of `remove_linear` that has found the node behind `lastNode`. -/
def removeBehind (lastNode skipped : ℕ) (s : Memory) : Option Memory :=
  match s.next lastNode with
  | none => none
  | some foundNode =>
    let tail := if some foundNode = s.linearClone.tail then some lastNode else s.linearClone.tail
    addRelaxedDist foundNode (((s.setNext lastNode (s.next foundNode)).setClone
      ⟨s.linearClone.size - 1, s.linearClone.head, tail⟩).setVal foundNode skipped)

/-- `remove_linear(val)`. -/
def removeLinear (fuel : ℕ) (v : ℤ) (s : Memory) : Option Memory :=
  match s.linearClone.head with
  | none => none
  | some head =>
    if s.val head = v then removeFirst head s
    else (findBefore s.next s.val v fuel head 1).bind fun (lastNode, skipped) =>
      removeBehind lastNode skipped s

/-! ### The two lists -/

/-- The nodes of a list. -/
structure Lists (next : ℕ → Option ℕ) (l : LinearList) (ns : List ℕ) : Prop where
  path : Path next l.head ns
  tail : l.tail = ns.getLast?
  size : l.size = ns.length

/-- The lists have the nodes `ns` and `ms`. -/
structure Shape (s : Memory) (ns ms : List ℕ) : Prop where
  clone : Lists s.next s.linearClone ns
  dists : Lists s.next s.errorDists ms
  nodup : (ns ++ ms).Nodup
  lt : ∀ n ∈ ns ++ ms, n < s.fresh

section Lists

variable {next next' : ℕ → Option ℕ} {l : LinearList} {ns ms : List ℕ} {s : Memory} {n m : ℕ}
  {v : ℤ}

theorem Lists.congr (h : Lists next l ns) (he : ∀ n ∈ ns, next' n = next n) : Lists next' l ns :=
  ⟨h.path.congr he, h.tail, h.size⟩

theorem Lists.head_none (h : Lists next l ns) : l.head = none ↔ ns = [] := by
  cases ns with
  | nil => exact iff_of_true h.path rfl
  | cons n ns =>
    have hhead : l.head = some n := h.path.1
    rw [hhead]
    exact iff_of_false nofun (List.cons_ne_nil _ _)

theorem Lists.head_some (h : Lists next l ns) (hn : l.head = some n) : ∃ ns', ns = n :: ns' := by
  cases ns with
  | nil => exact absurd (h.path.symm.trans hn) nofun
  | cons m ns =>
    obtain rfl : m = n := Option.some.inj (h.path.1.symm.trans hn)
    exact ⟨ns, rfl⟩

theorem getLast?_cons_eq (n : ℕ) (ns : List ℕ) : (n :: ns).getLast? = some (ns.getLastD n) := by
  induction ns generalizing n with
  | nil => rfl
  | cons m ns ih => rw [List.getLast?_cons_cons, ih, List.getLastD_cons]

/-- A node that is not in a list is put at its end. -/
theorem Lists.append (h : Lists next l (n :: ns)) (hnodup : (n :: ns).Nodup) (hm : m ∉ n :: ns)
    (hnext : next m = none) :
    Lists (Function.update next (ns.getLastD n) (some m)) ⟨l.size + 1, some n, some m⟩
      (n :: ns ++ [m]) where
  path := by
    have hp := h.path
    rw [hp.1] at hp
    exact hp.concat hnodup hm hnext
  tail := by rw [List.getLast?_append]; rfl
  size := by rw [h.size, List.length_append]; rfl

/-- A node other than the first one is taken out of a list. -/
theorem Lists.unlink {a : ℕ} {pre post : List ℕ} (h : Lists next l (a :: (pre ++ m :: post)))
    (hnodup : (a :: (pre ++ m :: post)).Nodup) :
    Lists (Function.update next (pre.getLastD a) (next m))
      ⟨l.size - 1, l.head, if some m = l.tail then some (pre.getLastD a) else l.tail⟩
        (a :: (pre ++ post)) where
  path := h.path.unlink hnodup
  tail := by
    show (if some m = l.tail then some (pre.getLastD a) else l.tail) = _
    have htail : l.tail = (m :: post).getLast? := by
      have h := h.tail
      rw [← List.cons_append, List.getLast?_append] at h
      rw [h, getLast?_cons_eq]
      rfl
    cases post with
    | nil =>
      have htail : l.tail = some m := htail
      rw [if_pos htail.symm, List.append_nil, getLast?_cons_eq]
    | cons b post =>
      have hne : some m ≠ l.tail := by
        rw [htail, List.getLast?_cons_cons, getLast?_cons_eq]
        intro he
        have hmem : m ∈ b :: post := Option.some.inj he ▸ getLastD_mem b post
        exact (List.nodup_cons.1 (List.nodup_append.1 (List.nodup_cons.1 hnodup).2).2.1).1 hmem
      rw [if_neg hne, htail, ← List.cons_append, List.getLast?_append, List.getLast?_cons_cons,
        getLast?_cons_eq]
      rfl
  size := by
    show l.size - 1 = _
    rw [h.size]
    simp only [List.length_cons, List.length_append]
    omega

/-- A node that is in no list goes to the end of the list of the rank errors. -/
theorem Shape.addRelaxedDist (h : Shape s ns ms) (hn : n ∉ ns ++ ms) (hlt : n < s.fresh) :
    ∃ s', addRelaxedDist n s = some s' ∧ s'.val = s.val ∧ Shape s' ns (ms ++ [n]) := by
  have hns : n ∉ ns := fun hm => hn (List.mem_append_left _ hm)
  have hms : n ∉ ms := fun hm => hn (List.mem_append_right _ hm)
  have hnodup : (ns ++ (ms ++ [n])).Nodup := by
    rw [← List.append_assoc]
    exact h.nodup.append (List.nodup_singleton n) (by simpa using hn)
  have hlts : ∀ x ∈ ns ++ (ms ++ [n]), x < s.fresh := by
    intro x hx
    rw [← List.append_assoc] at hx
    rcases List.mem_append.1 hx with hx | hx
    · exact h.lt x hx
    · rwa [List.mem_singleton.1 hx]
  have hfree : ∀ xs : List ℕ, n ∉ xs → ∀ x ∈ xs, Function.update s.next n none x = s.next x := by
    intro xs hxs x hx
    refine Function.update_of_ne ?_ _ _
    rintro rfl
    exact hxs hx
  unfold RelaxationAnalysis.addRelaxedDist
  cases ms with
  | nil =>
    rw [h.dists.head_none.2 rfl]
    refine ⟨_, rfl, rfl, h.clone.congr (hfree ns hns), ⟨⟨rfl, ?_⟩, rfl, ?_⟩, hnodup, hlts⟩
    · exact Function.update_self ..
    · show s.errorDists.size + 1 = 1
      rw [h.dists.size]
      rfl
  | cons m ms =>
    have htail : s.errorDists.tail = some (ms.getLastD m) :=
      h.dists.tail.trans (getLast?_cons_eq m ms)
    have hhead : s.errorDists.head = some m := h.dists.path.1
    rw [hhead, htail]
    have hdists : Lists (Function.update s.next n none) s.errorDists (m :: ms) :=
      h.dists.congr (hfree _ hms)
    refine ⟨_, rfl, rfl, ?_, hdists.append (List.nodup_append.1 h.nodup).2.1 hms
      (Function.update_self ..), hnodup, hlts⟩
    refine (h.clone.congr (hfree ns hns)).congr fun x hx => Function.update_of_ne ?_ _ _
    intro he
    exact (List.nodup_append.1 h.nodup).2.2 x hx _ (getLastD_mem m ms) he

/-- A new node is in no list. -/
theorem Shape.create (h : Shape s ns ms) (v : ℤ) :
    s.fresh ∉ ns ++ ms ∧ Lists (s.create v).next s.linearClone ns ∧
    Lists (s.create v).next s.errorDists ms ∧ ∀ n ∈ ns ++ ms, (s.create v).val n = s.val n := by
  have hne : ∀ n ∈ ns ++ ms, n ≠ s.fresh := fun n hn => Nat.ne_of_lt (h.lt n hn)
  refine ⟨fun hm => hne _ hm rfl, h.clone.congr fun n hn => ?_, h.dists.congr fun n hn => ?_,
    fun n hn => ?_⟩
  · exact Function.update_of_ne (hne n (List.mem_append_left _ hn)) _ _
  · exact Function.update_of_ne (hne n (List.mem_append_right _ hn)) _ _
  · exact Function.update_of_ne (hne n hn) _ _

end Lists

/-! ### The operations and their reference -/

/-- The operations of the analysis. `atEnd` is 1 for the head and 0 for the tail. -/
inductive Op
  | add (val atEnd : ℤ)
  | remove (val : ℤ)
  deriving DecidableEq

/-- `add_linear` and `remove_linear`. -/
def step (fuel : ℕ) (s : Memory) : Op → Option Memory
  | .add v atEnd => addLinear v atEnd s
  | .remove v => removeLinear fuel v s

/-- The operations, one after the other. -/
def run (fuel : ℕ) (ops : List Op) (s : Memory) : Option Memory := ops.foldlM (step fuel) s

/-- The reference list and the rank errors so far. -/
structure Reference where
  items : List ℤ
  errors : List ℕ
  deriving DecidableEq

/-- What an operation does to the reference: the rank error is the number of items ahead. -/
def Reference.step (r : Reference) : Op → Reference
  | .add v atEnd => ⟨if atEnd = 1 then v :: r.items else r.items ++ [v], r.errors⟩
  | .remove v => ⟨r.items.erase v, r.errors ++ [r.items.idxOf v]⟩

/-- The operations that are allowed: a value that is not present is added, one that is present is
removed. -/
def Reference.Allows (r : Reference) : Op → Prop
  | .add v atEnd => v ∉ r.items ∧ (atEnd = 0 ∨ atEnd = 1)
  | .remove v => v ∈ r.items

/-- All operations of a list are allowed. -/
def Reference.AllowsAll : Reference → List Op → Prop
  | _, [] => True
  | r, op :: ops => r.Allows op ∧ (r.step op).AllowsAll ops

/-- The reference after the operations. -/
def Reference.after (r : Reference) (ops : List Op) : Reference := ops.foldl Reference.step r

/-- The lists hold the reference. -/
structure Represents (s : Memory) (r : Reference) : Prop where
  items : r.items.Nodup
  nodes : ∃ ns ms, Shape s ns ms ∧ ns.map s.val = r.items ∧ ms.map s.val = r.errors.map Int.ofNat

section Steps

variable {s : Memory} {r : Reference} {ns ms : List ℕ} {v : ℤ} {fuel n : ℕ}

theorem map_congr_val {val val' : ℕ → ℤ} {xs : List ℕ} (h : ∀ n ∈ xs, val' n = val n) :
    xs.map val' = xs.map val :=
  List.map_congr_left h

/-- A node with the new value is at one end of the list. -/
theorem Represents.add (h : Represents s r) (hv : v ∉ r.items) {atEnd : ℤ}
    (he : atEnd = 0 ∨ atEnd = 1) :
    ∃ s', addLinear v atEnd s = some s' ∧ Represents s' (r.step (.add v atEnd)) := by
  obtain ⟨hnodup, ns, ms, hs, hns, hms⟩ := h
  obtain ⟨hfresh, hclone, hdists, hval⟩ := hs.create v
  have hns' : s.fresh ∉ ns := fun hm => hfresh (List.mem_append_left _ hm)
  have hms' : s.fresh ∉ ms := fun hm => hfresh (List.mem_append_right _ hm)
  have hvalns : ns.map (s.create v).val = r.items :=
    (map_congr_val fun n hn => hval n (List.mem_append_left _ hn)).trans hns
  have hvalms : ms.map (s.create v).val = r.errors.map Int.ofNat :=
    (map_congr_val fun n hn => hval n (List.mem_append_right _ hn)).trans hms
  have hnew : (s.create v).val s.fresh = v := Function.update_self ..
  have hnone : (s.create v).next s.fresh = none := Function.update_self ..
  have hlt : ∀ n ∈ ns ++ ms, n < s.fresh + 1 := fun n hn => Nat.lt_succ_of_lt (hs.lt n hn)
  -- the lists with the new node in front or at the end
  have hfront : (s.fresh :: ns ++ ms).Nodup := List.nodup_cons.2 ⟨hfresh, hs.nodup⟩
  have hback : (ns ++ [s.fresh] ++ ms).Nodup := by
    rw [List.append_assoc]
    have hmiddle : (ns ++ s.fresh :: ms).Nodup ↔ (s.fresh :: (ns ++ ms)).Nodup := List.nodup_middle
    exact hmiddle.2 hfront
  have hback_lt : ∀ n ∈ ns ++ [s.fresh] ++ ms, n < s.fresh + 1 := by
    intro n hn
    rw [List.append_assoc, List.mem_append, List.mem_append, List.mem_singleton] at hn
    rcases hn with hn | rfl | hn
    · exact hlt n (List.mem_append_left _ hn)
    · exact Nat.lt_succ_self _
    · exact hlt n (List.mem_append_right _ hn)
  have hitems : (r.step (.add v atEnd)).items.Nodup := by
    show (if atEnd = 1 then v :: r.items else r.items ++ [v]).Nodup
    split
    · exact List.nodup_cons.2 ⟨hv, hnodup⟩
    · exact hnodup.append (List.nodup_singleton v) (by simpa using hv)
  unfold addLinear
  cases ns with
  | nil =>
    rw [hs.clone.head_none.2 rfl]
    have hempty : r.items = [] := hns.symm
    refine ⟨_, rfl, hitems, [s.fresh], ms, ⟨⟨⟨rfl, hnone⟩, rfl, ?_⟩, hdists, hback, hback_lt⟩, ?_,
      hvalms⟩
    · show s.linearClone.size + 1 = 1
      rw [hs.clone.size]
      rfl
    · show [(s.create v).val s.fresh] = if atEnd = 1 then v :: r.items else r.items ++ [v]
      rw [hnew, hempty]
      split
      · rfl
      · rfl
  | cons a ns =>
    have hhead : s.linearClone.head = some a := hs.clone.path.1
    have htail : s.linearClone.tail = some (ns.getLastD a) :=
      hs.clone.tail.trans (getLast?_cons_eq a ns)
    rw [hhead]
    rcases he with rfl | rfl
    · rw [htail]
      have hlist := hclone.append (List.nodup_append.1 hs.nodup).1 hns' hnone
      refine ⟨_, rfl, hitems, a :: ns ++ [s.fresh], ms, ⟨hlist, ?_, hback, hback_lt⟩, ?_, hvalms⟩
      · refine hdists.congr fun x hx => Function.update_of_ne ?_ _ _
        rintro rfl
        exact (List.nodup_append.1 hs.nodup).2.2 _ (getLastD_mem a ns) _ hx rfl
      · show (a :: ns ++ [s.fresh]).map (s.create v).val = r.items ++ [v]
        rw [List.map_append, hvalns, List.map_singleton, hnew]
    · have hkeep : ∀ xs : List ℕ, s.fresh ∉ xs → ∀ x ∈ xs,
          Function.update (s.create v).next s.fresh (some a) x = (s.create v).next x := by
        intro xs hxs x hx
        refine Function.update_of_ne ?_ _ _
        rintro rfl
        exact hxs hx
      have hpath := (hclone.congr (hkeep _ hns')).path
      rw [hhead] at hpath
      refine ⟨_, rfl, hitems, s.fresh :: a :: ns, ms,
        ⟨⟨⟨rfl, ?_⟩, ?_, ?_⟩, hdists.congr (hkeep _ hms'), hfront, ?_⟩,
        ?_, hvalms⟩
      · show Path _ (Function.update (s.create v).next s.fresh (some a) s.fresh) (a :: ns)
        rw [Function.update_self]
        exact hpath
      · rw [List.getLast?_cons_cons]
        exact hs.clone.tail
      · show s.linearClone.size + 1 = _
        rw [hs.clone.size]
        rfl
      · intro n hn
        rcases List.mem_cons.1 hn with rfl | hn
        · exact Nat.lt_succ_self _
        · exact hlt n hn
      · show (s.create v).val s.fresh :: (a :: ns).map (s.create v).val = v :: r.items
        rw [hnew, hvalns]

/-- A node that has left the list carries its rank error. -/
theorem Represents.of_removed {d : ℕ} {items : List ℤ} (hitems : items.Nodup) (h : Shape s ns ms)
    (hn : n ∉ ns ++ ms) (hlt : n < s.fresh) (hns : ns.map s.val = items)
    (hms : ms.map s.val = r.errors.map Int.ofNat) (hd : s.val n = d) :
    ∃ s', addRelaxedDist n s = some s' ∧ Represents s' ⟨items, r.errors ++ [d]⟩ := by
  obtain ⟨s', hs', hval, hshape⟩ := h.addRelaxedDist hn hlt
  refine ⟨s', hs', hitems, ns, ms ++ [n], hshape, ?_, ?_⟩
  · rw [hval]
    exact hns
  · rw [hval, List.map_append, hms, List.map_append, List.map_singleton, hd]
    rfl

/-- The value of a node that is in neither list is changed. -/
theorem map_update_val {m : ℕ} {w : ℤ} {xs : List ℕ} (hm : m ∉ xs) :
    xs.map (Function.update s.val m w) = xs.map s.val := by
  refine map_congr_val fun n hn => Function.update_of_ne ?_ _ _
  rintro rfl
  exact hm hn

/-- The first node leaves the list. -/
theorem Represents.removeFirst {a : ℕ} (h : Shape s (a :: ns) ms) (hitems : (ns.map s.val).Nodup)
    (hms : ms.map s.val = r.errors.map Int.ofNat) :
    ∃ s', removeFirst a s = some s' ∧ Represents s' ⟨ns.map s.val, r.errors ++ [0]⟩ := by
  obtain ⟨hmem, hnodup⟩ := List.nodup_cons.1 h.nodup
  have htail : s.linearClone.tail = some (ns.getLastD a) :=
    h.clone.tail.trans (getLast?_cons_eq a ns)
  have hsize : s.linearClone.size - 1 = ns.length := by
    rw [h.clone.size]
    rfl
  have hgo : ∀ tail : Option ℕ, tail = ns.getLast? → ∃ s', addRelaxedDist a
      ((s.setClone ⟨s.linearClone.size - 1, s.next a, tail⟩).setVal a 0) = some s' ∧
        Represents s' ⟨ns.map s.val, r.errors ++ [0]⟩ := by
    intro tail htl
    have hlt : ∀ n ∈ ns ++ ms, n < s.fresh := fun n hn => h.lt n (List.mem_cons_of_mem _ hn)
    exact @Represents.of_removed _ _ ns ms _ _ _ hitems ⟨⟨h.clone.path.2, htl, hsize⟩, h.dists,
      hnodup, hlt⟩ hmem
      (h.lt a (List.mem_cons_self ..)) (map_update_val fun hm => hmem (List.mem_append_left _ hm))
      ((map_update_val fun hm => hmem (List.mem_append_right _ hm)).trans hms)
      (Function.update_self ..)
  unfold RelaxationAnalysis.removeFirst
  rw [htail]
  cases ns with
  | nil =>
    have hlast : some a = some (([] : List ℕ).getLastD a) := rfl
    have hnext : s.next a = none := h.clone.path.2
    rw [if_pos hlast, if_pos ⟨hnext, hsize⟩]
    exact hgo none rfl
  | cons b ns =>
    have hlast : some a ≠ some ((b :: ns).getLastD a) := by
      rw [List.getLastD_cons]
      intro he
      have hb : a ∈ b :: ns := Option.some.inj he ▸ getLastD_mem b ns
      exact hmem (List.mem_append_left ms hb)
    rw [if_neg hlast]
    exact hgo _ (by rw [List.getLastD_cons, getLast?_cons_eq])

/-- The node `m` leaves the list. -/
theorem Represents.removeBehind {a m d : ℕ} {pre post : List ℕ}
    (h : Shape s (a :: (pre ++ m :: post)) ms) (hitems : ((a :: (pre ++ post)).map s.val).Nodup)
    (hms : ms.map s.val = r.errors.map Int.ofNat) :
    ∃ s', removeBehind (pre.getLastD a) d s = some s' ∧
      Represents s' ⟨(a :: (pre ++ post)).map s.val, r.errors ++ [d]⟩ := by
  have hperm : (a :: (pre ++ m :: post) ++ ms).Perm (m :: (a :: (pre ++ post) ++ ms)) := by
    have hlist : (a :: (pre ++ m :: post)).Perm (m :: a :: (pre ++ post)) :=
      (List.Perm.cons a List.perm_middle).trans (List.Perm.swap m a _)
    exact hlist.append_right ms
  obtain ⟨hm, hnodup⟩ := List.nodup_cons.1 (hperm.nodup_iff.1 h.nodup)
  have hlt : ∀ n ∈ m :: (a :: (pre ++ post) ++ ms), n < s.fresh := fun n hn =>
    h.lt n (hperm.mem_iff.2 hn)
  have hclone := h.clone.unlink (List.nodup_append.1 h.nodup).1
  have hdists : Lists (Function.update s.next (pre.getLastD a) (s.next m)) s.errorDists ms := by
    refine h.dists.congr fun x hx => Function.update_of_ne ?_ _ _
    rintro rfl
    have hlast : pre.getLastD a ∈ a :: (pre ++ m :: post) :=
      List.mem_append_left (m :: post) (getLastD_mem a pre)
    exact (List.nodup_append.1 h.nodup).2.2 _ hlast _ hx rfl
  unfold RelaxationAnalysis.removeBehind
  rw [h.clone.path.next_getLastD]
  exact @Represents.of_removed _ _ (a :: (pre ++ post)) ms _ _ _ hitems
    ⟨hclone, hdists, hnodup, fun n hn => hlt n (List.mem_cons_of_mem _ hn)⟩ hm
    (hlt m (List.mem_cons_self ..))
    (map_update_val fun hx => hm (List.mem_append_left _ hx))
    ((map_update_val fun hx => hm (List.mem_append_right _ hx)).trans hms) (Function.update_self ..)

/-- An item leaves the reference, with the number of items before it. -/
theorem Reference.step_remove {pre post : List ℤ} (hsplit : r.items = pre ++ v :: post)
    (hpre : v ∉ pre) :
    r.step (.remove v) = ⟨pre ++ post, r.errors ++ [pre.length]⟩ := by
  show (⟨r.items.erase v, r.errors ++ [r.items.idxOf v]⟩ : Reference) = _
  rw [hsplit, List.idxOf_append_of_notMem hpre, List.idxOf_cons_self,
    List.erase_append_right _ hpre,
    List.erase_cons_head, Nat.add_zero]

theorem Represents.remove (h : Represents s r) (hv : v ∈ r.items) (hf : r.items.length ≤ fuel) :
    ∃ s', removeLinear fuel v s = some s' ∧ Represents s' (r.step (.remove v)) := by
  obtain ⟨hnodup, ns, ms, hs, hns, hms⟩ := h
  unfold removeLinear
  cases ns with
  | nil =>
    rw [← hns] at hv
    exact absurd hv List.not_mem_nil
  | cons a ns =>
    have hhead : s.linearClone.head = some a := hs.clone.path.1
    have hitems : r.items = s.val a :: ns.map s.val := hns.symm
    rw [hhead]
    by_cases hva : s.val a = v
    · simp only [if_pos hva]
      have hsplit : r.items = [] ++ v :: ns.map s.val := hva ▸ hitems
      rw [Reference.step_remove hsplit List.not_mem_nil]
      exact Represents.removeFirst hs (List.nodup_cons.1 (hitems ▸ hnodup)).2 hms
    · simp only [if_neg hva]
      have hv' : v ∈ ns.map s.val := by
        rw [hitems] at hv
        exact (List.mem_cons.1 hv).resolve_left (Ne.symm hva)
      obtain ⟨m, hm, hvm⟩ := List.mem_map.1 hv'
      obtain ⟨pre, post, rfl⟩ := List.append_of_mem hm
      have hsplit : r.items = (a :: pre).map s.val ++ v :: post.map s.val := by
        rw [hitems, List.map_append, List.map_cons, hvm]
        rfl
      have hpre : v ∉ (a :: pre).map s.val := by
        intro hmem
        rw [hsplit] at hnodup
        exact (List.nodup_append.1 hnodup).2.2 v hmem v (List.mem_cons_self ..) rfl
      have hfuel : pre.length < fuel := by
        have hlen : r.items.length = pre.length + 1 + (post.length + 1) := by
          rw [hsplit, List.length_append, List.length_map, List.length_cons, List.length_cons,
            List.length_map]
        omega
      have hfind : findBefore s.next s.val v fuel a 1 = some (pre.getLastD a, 1 + pre.length) :=
        findBefore_eq hs.clone.path.2
          (fun x hx he => hpre (he ▸ List.mem_map_of_mem (List.mem_cons_of_mem _ hx))) hvm hfuel
      have hresult : r.step (.remove v) = ⟨(a :: (pre ++ post)).map s.val,
        r.errors ++ [1 + pre.length]⟩ := by
        rw [Reference.step_remove hsplit hpre, ← List.map_append, List.length_map, List.length_cons,
          Nat.add_comm 1]
        rfl
      have herase : ((a :: (pre ++ post)).map s.val).Nodup := by
        have he : r.items.erase v = (a :: (pre ++ post)).map s.val :=
          congrArg Reference.items hresult
        exact he ▸ hnodup.erase v
      rw [hfind, hresult]
      exact Represents.removeBehind hs herase hms

end Steps

theorem Represents.step {s : Memory} {r : Reference} {op : Op} {fuel : ℕ} (h : Represents s r)
    (hop : r.Allows op) (hf : r.items.length ≤ fuel) :
    ∃ s', step fuel s op = some s' ∧ Represents s' (r.step op) := by
  cases op with
  | add v atEnd => exact h.add hop.1 hop.2
  | remove v => exact h.remove hop hf

theorem Reference.length_step (r : Reference) (op : Op) :
    (r.step op).items.length ≤ r.items.length + 1 := by
  cases op with
  | add v atEnd =>
    show (if atEnd = 1 then v :: r.items else r.items ++ [v]).length ≤ _
    split
    · exact Nat.le_refl _
    · rw [List.length_append]
      exact Nat.le_refl _
  | remove v => exact Nat.le_trans List.length_erase_le (Nat.le_succ _)

theorem Represents.run {s : Memory} {r : Reference} {ops : List Op} {fuel : ℕ} (h : Represents s r)
    (hops : r.AllowsAll ops) (hf : r.items.length + ops.length ≤ fuel) :
    ∃ s', run fuel ops s = some s' ∧ Represents s' (r.after ops) := by
  induction ops generalizing s r with
  | nil => exact ⟨s, rfl, h⟩
  | cons op ops ih =>
    obtain ⟨hop, hops⟩ := hops
    obtain ⟨s₁, h₁, hr₁⟩ := h.step hop (Nat.le_trans (Nat.le_add_right _ _) hf)
    have hlen := r.length_step op
    rw [List.length_cons] at hf
    obtain ⟨s', hs', hr'⟩ := ih hr₁ hops (by omega)
    refine ⟨s', ?_, hr'⟩
    show (RelaxationAnalysis.step fuel s op).bind (RelaxationAnalysis.run fuel ops) = some s'
    rw [h₁]
    exact hs'

/-- For any sequence of allowed operations: no assertion fails, the list holds the reference list,
`size` is its length, `tail` is its last node, and the rank errors of the removals are recorded in
order. -/
theorem linear_exact {ops : List Op} {fuel : ℕ} (hops : Reference.AllowsAll ⟨[], []⟩ ops)
    (hf : ops.length ≤ fuel) :
    ∃ s ns ms, run fuel ops initial = some s ∧ Lists s.next s.linearClone ns ∧
      ns.map s.val = (Reference.after ⟨[], []⟩ ops).items ∧ Lists s.next s.errorDists ms ∧
      ms.map s.val = (Reference.after ⟨[], []⟩ ops).errors.map Int.ofNat := by
  have h₀ : Represents initial ⟨[], []⟩ :=
    ⟨List.nodup_nil, [], [], ⟨⟨rfl, rfl, rfl⟩, ⟨rfl, rfl, rfl⟩, List.nodup_nil,
    nofun⟩, rfl, rfl⟩
  have hlen : ([] : List ℤ).length + ops.length ≤ fuel := by rwa [List.length_nil, Nat.zero_add]
  obtain ⟨s, hs, -, ns, ms, hshape, hns, hms⟩ := h₀.run hops hlen
  exact ⟨s, ns, ms, hs, hshape.clone, hns, hshape.dists, hms⟩

/-- Two items at the tail and one at the head; the one in the middle is removed, then the last one,
then another one is added at the tail. -/
theorem linear_exact_six :
    ∃ s ns ms, run 6 [.add 1 0, .add 2 0, .add 3 1, .remove 1, .remove 2, .add 4 0] initial =
      some s ∧ Lists s.next s.linearClone ns ∧ ns.map s.val = [3, 4] ∧
        Lists s.next s.errorDists ms ∧
      ms.map s.val = [1, 1] :=
  @linear_exact [.add 1 0, .add 2 0, .add 3 1, .remove 1, .remove 2, .add 4 0] 6 (by
    simp [Reference.AllowsAll, Reference.Allows, Reference.step]) (by decide)

end RelaxationAnalysis
