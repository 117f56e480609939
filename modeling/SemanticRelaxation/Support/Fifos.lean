import SemanticRelaxation.Prog.Legal
import SemanticRelaxation.Support.MichaelScott

/-!
# Arrays of queues as objects

* `spec I w`: `w` queues, where a call may put its value into any of them and take one from any;
* `relaxed I w near`: the same queues with the order in which all values were put. What is taken has
  as many older values before it as `near` allows;
* `content s j`: the values behind the head of a linked queue. `Holds.link`, `Holds.take` and
  `Holds.empty` say that the steps on linked queues are steps of `spec`;
* `entries m`: the values of linked queues in the order in which they were linked, with
  `entries_link`, `entries_take` and `entries_empty` for the steps of `relaxed`.
-/

namespace Fifos

open AtomicProg Linked MichaelScott

/-- What a call does. -/
inductive Kind
  | put (val : ℤ)
  | get
  | other

/-- How the calls and the answers of a queue are read. -/
structure Interface (C R : Type) where
  kind : C → Kind
  done : R
  got : ℤ → R
  empty : R

/-- `w` queues. A put appends its value to one of them; a get takes the first value of one, or
answers that it is empty since one of them is; other calls change nothing. -/
def spec {C R : Type} (I : Interface C R) (w : ℕ) : Spec C R where
  State := ℕ → List ℤ
  init := fun _ => []
  step x call r x' := match I.kind call with
    | .put val => r = I.done ∧ ∃ j < w, x' = Function.update x j (x j ++ [val])
    | .get => ∃ j < w, x j = [] ∧ r = I.empty ∧ x' = x ∨
        ∃ val st, x j = val :: st ∧ r = I.got val ∧ x' = Function.update x j st
    | .other => x' = x

/-- `w` queues as a list of their values, with the queue that each is in, in the order in which they
were put. -/
def relaxed {C R : Type} (I : Interface C R) (w : ℕ) (near : ℕ → Prop) : Spec C R where
  State := List (ℕ × ℤ)
  init := []
  step x call r x' := match I.kind call with
    | .put val => r = I.done ∧ ∃ j < w, x' = x ++ [(j, val)]
    | .get => ∃ j < w, (∀ e ∈ x, e.1 ≠ j) ∧ r = I.empty ∧ x' = x ∨
        ∃ older val younger, x = older ++ (j, val) :: younger ∧ (∀ e ∈ older, e.1 ≠ j) ∧
          near older.length ∧
          r = I.got val ∧ x' = older ++ younger
    | .other => x' = x

/-! ### The values of linked queues -/

/-- The part of a list behind an entry. -/
def behind (l : List ℕ) (node : Option ℕ) :
    List ℕ := node.elim [] fun n => (l.dropWhile (· != n)).tail

theorem behind_eq {l : List ℕ} {n p : ℕ} (hp : l[p]? = some n) (hfirst : ∀ q, l[q]? = some n →
      q = p) :
    behind l (some n) = l.drop (p + 1) := by
  show (l.dropWhile (· != n)).tail = l.drop (p + 1)
  induction l generalizing p with
  | nil => cases hp
  | cons a l ih =>
    by_cases ha : a = n
    · subst ha
      obtain rfl : 0 = p := hfirst 0 rfl
      simp
    · cases p with
      | zero => exact absurd (Option.some.inj hp) ha
      | succ p =>
        rw [List.dropWhile_cons_of_pos (by simpa using ha), List.drop_succ_cons]
        exact ih hp fun q hq => Nat.succ_injective (hfirst (q + 1) hq)

/-- The values behind the head of queue `j`. -/
def content (s : Store ℤ) (j : ℕ) :
    List ℤ := (behind (s.cells.line j) (s.get j).node).map fun n => (s.cells.heap n).val

section Content

variable {w : ℕ} {s s' : Store ℤ} {i j t n m : ℕ}

/-- The contents are the same if the lines, the heads and the values of the nodes are. -/
theorem content_congr (hl : s'.cells.line j = s.cells.line j)
    (hh : (s'.get j).node = (s.get j).node) (hv : ∀ k ∈ s.cells.line j, (s'.cells.heap k).val =
      (s.cells.heap k).val) : content s' j = content s j := by
  unfold content
  rw [hl, hh]
  refine List.map_congr_left fun k hk => hv k ?_
  rcases hn : (s.get j).node with _ | n
  · rw [hn] at hk
    exact absurd hk List.not_mem_nil
  · rw [hn] at hk
    exact (List.dropWhile_sublist _).subset (List.mem_of_mem_tail hk)

/-- The values behind the position of the head. -/
theorem content_eq (h : Valid w s) (hj : j < w) :
    content s j = ((s.cells.line j).drop ((s.get j).count + 1)).map fun n =>
      (s.cells.heap n).val := by
  obtain ⟨n, hn⟩ := h.head_some hj
  have hp : (s.cells.line j)[(s.get j).count]? = some n := (h.head j hj).trans hn
  unfold content
  rw [hn, behind_eq hp fun q hq => h.pos_inj hj hq hp]

theorem content_create (h : Valid w s) (hj : j < w) (val : ℤ) :
    content (s.create val) j = content s j :=
  content_congr rfl rfl fun k hk => (Grows.create s val).val k (h.lines.lt_fresh j hj k hk)

/-- A linked node comes last. -/
theorem content_link (h : Valid w s) (h' : Valid w (s.link j t n)) (hj : j < w) :
    content (s.link j t n) i = Function.update (content s) j
      (content s j ++ [(s.cells.heap n).val]) i := by
  have hval : ∀ k, ((s.cells.append j (some t) n).heap k).val = (s.cells.heap k).val := fun k =>
    Cells.append_val ..
  by_cases hij : i = j
  · subst hij
    have hlt : (s.get i).count + 1 ≤ (s.cells.line i).length := (h.le i hj).trans_lt (h.put_lt hj)
    have hline : (s.cells.append i (some t) n).line i = s.cells.line i ++ [n] :=
      Function.update_self ..
    rw [Function.update_self, content_eq h' hj, content_eq h hj]
    show (((s.cells.append i (some t) n).line i).drop ((s.get i).count + 1)).map
      (fun k => ((s.cells.append i (some t) n).heap k).val) = _
    rw [hline, List.drop_append_of_le_length hlt, List.map_append, List.map_singleton, hval]
    exact congrArg (· ++ _) (List.map_congr_left fun k _ => hval k)
  · rw [Function.update_of_ne hij]
    exact content_congr (Function.update_of_ne hij _ _) rfl fun k _ => hval k

/-- The node behind the head is taken. -/
theorem content_take {d : Descriptor} (h : Valid w s) (h' : Valid w (s.take j d)) (hj : j < w)
    (hm : (s.cells.line j)[(s.get j).count + 1]? = some m) (hd : d.count = (s.get j).count + 1) :
    content s j = (s.cells.heap m).val :: content (s.take j d) j := by
  obtain ⟨hlt, rfl⟩ := List.getElem?_eq_some_iff.1 hm
  have hget : (s.take j d).get j = d := Function.update_self ..
  rw [content_eq h hj, content_eq h' hj, hget, hd, List.drop_eq_getElem_cons hlt, List.map_cons]
  rfl

theorem content_take_of_ne {d : Descriptor} (hi : i ≠ j) : content (s.take j d) i = content s i :=
  content_congr rfl (congrArg Descriptor.node (Function.update_of_ne hi _ _)) fun _ _ => rfl

/-- Nothing is behind a head at whose position or before it the line ends. -/
theorem content_last (h : Valid w s) (hj : j < w) {p : ℕ} (ht : (s.cells.line j)[p]? = some t)
    (hp : p ≤ (s.get j).count) (hnone : (s.cells.heap t).next = none) : content s j = [] := by
  have hlast := h.lines.last hj ht hnone
  rw [content_eq h hj, List.drop_eq_nil_of_le (by omega), List.map_nil]

end Content

/-! ### Linked queues as `w` queues -/

/-- The linked queues hold the values `x`. -/
def Holds (w : ℕ) (s : Store ℤ) (x : ℕ → List ℤ) : Prop := ∀ j < w, content s j = x j

section Holds

variable {C R : Type} {I : Interface C R} {w : ℕ} {s s' : Store ℤ} {x : ℕ → List ℤ} {call : C}
  {j t n m : ℕ}

theorem Holds.init (w : ℕ) : Holds w (Store.init ℤ w) fun _ => [] := fun j _ => by
  simp [content, behind, Store.init, Cells.init]

theorem Holds.congr (hx : Holds w s x) (hc : ∀ j < w, content s' j = content s j) : Holds w s' x :=
  fun j hj => (hc j hj).trans (hx j hj)

theorem Holds.link (hx : Holds w s x) (h : Valid w s) (h' : Valid w (s.link j t n)) (hj : j < w)
    (hk : I.kind call = .put (s.cells.heap n).val) :
    ∃ x', (spec I w).step x call I.done x' ∧ Holds w (s.link j t n) x' := by
  refine ⟨Function.update x j (x j ++ [(s.cells.heap n).val]), ?_,
    fun i hi => (content_link h h' hj).trans ?_⟩
  · simp only [spec, hk]
    exact ⟨True.intro, j, hj, rfl⟩
  · rw [hx j hj]
    by_cases hij : i = j
    · subst hij
      rw [Function.update_self, Function.update_self]
    · rw [Function.update_of_ne hij, Function.update_of_ne hij]
      exact hx i hi

theorem Holds.take {d : Descriptor} (hx : Holds w s x) (h : Valid w s) (h' : Valid w (s.take j d))
    (hj : j < w) (hm : (s.cells.line j)[(s.get j).count + 1]? = some m)
    (hd : d.count = (s.get j).count + 1) (hk : I.kind call = .get) :
    ∃ x', (spec I w).step x call (I.got (s.cells.heap m).val) x' ∧ Holds w (s.take j d) x' := by
  have hc := content_take h h' hj hm hd
  refine ⟨Function.update x j (content (s.take j d) j), ?_, fun i hi => ?_⟩
  · simp only [spec, hk]
    exact ⟨j, hj, .inr ⟨_, _, (hx j hj).symm.trans hc, rfl, rfl⟩⟩
  · by_cases hij : i = j
    · subst hij
      rw [Function.update_self]
    · rw [Function.update_of_ne hij]
      exact (content_take_of_ne hij).trans (hx i hi)

theorem Holds.empty (hx : Holds w s x) (h : Valid w s) (hj : j < w) {p : ℕ}
    (ht : (s.cells.line j)[p]? = some t) (hp : p ≤ (s.get j).count)
    (hnone : (s.cells.heap t).next = none) (hk : I.kind call = .get) :
    (spec I w).step x call I.empty x := by
  simp only [spec, hk]
  refine ⟨j, hj, .inl ⟨(hx j hj).symm.trans (content_last h hj ht hp hnone), ?_⟩⟩
  simp only [and_self]

end Holds

/-! ### Linked queues with the order of their values -/

/-- The values present, oldest first, with their queues. -/
def entries {τ : Type} (m : Mem τ) : List (ℕ × ℤ) := m.hist.present.map fun x => (x.idx, x.val)

section Entries

variable {C R τ : Type} {I : Interface C R} {w : ℕ} {near : ℕ → Prop} {head : ℕ → ℕ} {m : Mem τ}
  {call : C} {j t n p : ℕ}

/-- A linked node comes last. -/
theorem entries_link (hj : j < w) (hk : I.kind call = .put (m.heap n).val) (tail : Option ℕ)
    (tag : τ) : (relaxed I w near).step (entries m) call I.done
    (entries (m.link j tail n tag)) := by
  simp only [relaxed, hk]
  exact ⟨True.intro, j, hj, List.map_append ..⟩

/-- The node behind the head of a queue is the oldest of its queue. -/
theorem entries_take (h : Queues w head m) (hj : j < w) (hn : (m.line j)[head j + 1]? = some n)
    (hnear : ∀ d, (m.remove (some n)).hist.dists = d :: m.hist.dists → near d)
    (hk : I.kind call = .get) : (relaxed I w near).step (entries m) call (I.got (m.heap n).val)
    (entries (m.remove (some n))) := by
  obtain ⟨A, x, B, hpres, rfl, rfl, -, hval, hA, -⟩ := h.remove hj hn
  have hrem : (m.remove (some x.node)).hist = _ := h.conserved.remove_eq hpres
  simp only [relaxed, hk]
  refine ⟨x.idx, hj, .inr ⟨A.map fun y => (y.idx, y.val), x.val, B.map fun y => (y.idx, y.val), ?_,
    ?_, ?_, ?_, ?_⟩⟩
  · simp only [entries, hpres, List.map_append, List.map_cons]
  · intro e he
    obtain ⟨y, hy, rfl⟩ := List.mem_map.1 he
    exact hA y hy
  · rw [List.length_map]
    exact hnear _ (congrArg History.dists hrem)
  · rw [hval]
  · simp only [entries, hrem, List.map_append]

/-- No value is behind a head at whose position or before it the line ends. -/
theorem entries_empty (h : Queues w head m) (hj : j < w) (ht : (m.line j)[p]? = some t)
    (hp : p ≤ head j) (hnone : (m.heap t).next = none) (hk : I.kind call = .get) :
    (relaxed I w near).step (entries m) call I.empty (entries m) := by
  have hlast := h.lines.last hj ht hnone
  simp only [relaxed, hk]
  refine ⟨j, hj, .inl ⟨fun e he hej => ?_, ?_⟩⟩
  · obtain ⟨x, hx, rfl⟩ := List.mem_map.1 he
    have hej : x.idx = j := hej
    have h₁ := (List.getElem?_eq_some_iff.1 (h.placed_present hx).2).1
    have h₂ := (h.behind x hx).1
    rw [hej] at h₁ h₂
    omega
  · simp only [and_self]

end Entries

end Fifos
