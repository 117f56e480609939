import SemanticRelaxation.ElasticLpw.Records
import SemanticRelaxation.Prog.History

/-!
# The elastic LpW queue under interference

`regime C set` is what the threads rely on and keep. The ghost state has the put windows so far, the
rows and positions of the nodes of the sub-queues, and the position of the lateral tail.

* `Inv`: the put side in all runs. The put windows continue each other, the lateral queue records
  their changes, and the sub-queues are filled window by window;
* what holds of the get side in runs that are `Clean`: no depth was loaded above the maximum loaded
  before it, and no item was taken above a get window;
* `Later`: what every step keeps, and `Kept`: what the steps of the others keep.
-/

namespace ElasticLpw

open AtomicProg Linked MichaelScott Windowed

/-- The sub-queues of the memory. -/
def State.queues (s : State) : Store ℤ := ⟨s.nodes.toCells, s.putArray, s.getArray⟩

/-- The lateral queue of the memory as a queue whose head does not move, with the tail at a
position. -/
def State.laterals (s : State) (tailPos : ℕ) : Store LateralNode :=
  ⟨s.lateral, fun _ => ⟨s.lateralTail, tailPos⟩, fun _ => ⟨(s.lateral.line 0)[0]?, 0⟩⟩

@[simp] theorem length_lateralNodes (s : State) :
    s.lateralNodes.length = (s.lateral.line 0).length := List.length_map _

namespace Watched

/-- No depth was loaded above the maximum before it, and no item was taken above a get window. -/
def Watch.Clean (w : Watch) : Prop := w.wrapped = false ∧ w.late = false

instance (w : Watch) : Decidable w.Clean := inferInstanceAs (Decidable (_ ∧ _))

/-- Only a torn put window or a row that was too narrow makes a bound miss. -/
def Watch.Accounted (w : Watch) : Prop := w.wrapped = false → w.narrow = false → w.missed = false

/-- Notes stay. -/
structure Watch.Before (w w' : Watch) : Prop where
  overtaken : w'.overtaken = false → w.overtaken = false
  wrapped : w'.wrapped = false → w.wrapped = false
  late : w'.late = false → w.late = false

theorem Watch.Before.refl (w : Watch) : w.Before w := ⟨id, id, id⟩

theorem Watch.Before.trans {w₁ w₂ w₃ : Watch} (h : w₁.Before w₂) (h' : w₂.Before w₃) :
    w₁.Before w₃ :=
  ⟨h.overtaken ∘ h'.overtaken, h.wrapped ∘ h'.wrapped, h.late ∘ h'.late⟩

theorem Watch.Before.clean {w w' : Watch} (h : w.Before w') (hc : w'.Clean) : w.Clean :=
  ⟨h.wrapped hc.1, h.late hc.2⟩

/-- The put windows before the present one, the latest first, what is known of the nodes of the
sub-queues, who allocated a lateral node, and the position of the lateral tail. -/
structure Ghost where
  past : List PutWindow
  places : Places
  lateralOwner : ℕ → ℕ
  tailPos : ℕ

/-- The put windows so far, the latest first. -/
def windows (s : State) (g : Ghost) : List PutWindow := s.globalPWindow :: g.past

/-- The width of the put window that has the row. -/
def rowWidth (s : State) (g : Ghost) (r : ℕ) : ℕ := widthOf ((windows s g).map PutWindow.span) r

/-- The lateral queue records the put windows, and its tail is behind what is recorded of the past.
-/
structure Lateral (s : State) (g : Ghost) : Prop where
  valid : Valid 1 (s.laterals g.tailPos)
  nodes : ∃ pend, Pending s.globalPWindow pend ∧
    s.lateralNodes = recorded (windows s g) ++ pend
  tail : (recorded (windows s g)).length ≤ g.tailPos + 1

/-- A get window: its rows are in put windows of its width. -/
structure Got (s : State) (g : Ghost) (w : GetWindow) : Prop where
  le : w.max ≤ s.globalPWindow.max
  top : rowWidth s g w.max = w.width
  rows : ∀ r, w.bottom < r → r ≤ w.max → rowWidth s g r = w.width

/-- The invariant. -/
structure Inv (set : Params) (s : State) (w : Watch) (g : Ghost) : Prop where
  history : History set (windows s g)
  lateral : Lateral s g
  head : ∃ p h : ℕ, s.lateralHead = some h ∧ (s.lateral.line 0)[p]? = some h ∧
    (s.lateral.heap h).val.count ≤ s.globalGWindow.max
  width : 0 < s.width ∧ s.width ≤ set.maxWidth
  depth : 0 < s.depth
  get_pos : 0 < s.globalGWindow.max
  get_le : s.globalGWindow.max ≤ s.globalPWindow.max
  get_width : 0 < s.globalGWindow.width ∧ s.globalGWindow.width ≤ set.maxWidth
  filled : Filled set.maxWidth s.globalPWindow.span (g.past.map PutWindow.span) s.queues g.places
  headed : w.Clean → Headed set.maxWidth s.queues g.places
  got : w.Clean → Got s g s.globalGWindow
  asserted : w.overtaken = false → s.failed = false
  noted : w.Accounted

/-- What every step keeps. -/
structure Later (x x' : (State × Watch) × Ghost) : Prop where
  queues : Grown x.1.1.queues x.2.places x'.1.1.queues x'.2.places
  lateral : Grows (x.1.1.laterals x.2.tailPos) (x'.1.1.laterals x'.2.tailPos)
  nodes : x.1.1.lateralNodes <+: x'.1.1.lateralNodes
  newer : ∀ p v, x'.1.1.lateralNodes[p]? = some v → x.1.1.lateralNodes.length ≤ p →
    x.1.1.globalPWindow.max < v.count
  history : windows x.1.1 x.2 <:+ windows x'.1.1 x'.2
  put_le : x.1.1.globalPWindow.max ≤ x'.1.1.globalPWindow.max
  put_same : x.1.1.globalPWindow.max = x'.1.1.globalPWindow.max →
    x.1.1.globalPWindow = x'.1.1.globalPWindow
  get_le : x.1.1.globalGWindow.max ≤ x'.1.1.globalGWindow.max
  get_same : x'.1.2.Clean → x.1.1.globalGWindow.max = x'.1.1.globalGWindow.max →
    x.1.1.globalGWindow = x'.1.1.globalGWindow
  watch : x.1.2.Before x'.1.2

/-- A step that leaves the lateral nodes alone. -/
theorem no_newer {l : List LateralNode} (m : ℕ) :
    ∀ p v, l[p]? = some v → l.length ≤ p → m < v.count :=
  fun _ _ hp hlt => absurd (List.getElem?_eq_some_iff.1 hp).1 (not_lt.2 hlt)

namespace Later

variable {x x' x'' : (State × Watch) × Ghost}

theorem refl (x : (State × Watch) × Ghost) : Later x x where
  queues := .refl _ _
  lateral := .refl _
  nodes := List.prefix_refl _
  newer := no_newer _
  history := List.suffix_refl _
  put_le := le_rfl
  put_same _ := rfl
  get_le := le_rfl
  get_same _ _ := rfl
  watch := .refl _

theorem trans (h : Later x x') (h' : Later x' x'') : Later x x'' where
  queues := h.queues.trans h'.queues
  lateral := h.lateral.trans h'.lateral
  nodes := h.nodes.trans h'.nodes
  newer p v hp hle := by
    by_cases hlt : p < x'.1.1.lateralNodes.length
    · exact h.newer p v ((h'.nodes.getElem?_of_lt hlt).symm.trans hp) hle
    · exact h.put_le.trans_lt (h'.newer p v hp (not_lt.1 hlt))
  history := h.history.trans h'.history
  put_le := h.put_le.trans h'.put_le
  put_same he := by
    have h₁ : x.1.1.globalPWindow.max = x'.1.1.globalPWindow.max :=
      le_antisymm h.put_le (h'.put_le.trans_eq he.symm)
    exact (h.put_same h₁).trans (h'.put_same (h₁.symm.trans he))
  get_le := h.get_le.trans h'.get_le
  get_same hc he := by
    have h₁ : x.1.1.globalGWindow.max = x'.1.1.globalGWindow.max :=
      le_antisymm h.get_le (h'.get_le.trans_eq he.symm)
    exact (h.get_same (h'.watch.clean hc) h₁).trans (h'.get_same hc (h₁.symm.trans he))
  watch := h.watch.trans h'.watch

end Later

/-- What the steps of the others keep for the owner `o`. -/
structure Kept (n : ℕ) (o : Owner) (x x' : (State × Watch) × Ghost) : Prop extends Later x x' where
  owned : Frame n o (placed x.1.1.queues x.2.places) x.2.places.owner
    (placed x'.1.1.queues x'.2.places) x'.2.places.owner
  ownedLateral : Frame 1 o (x.1.1.laterals x.2.tailPos) x.2.lateralOwner
    (x'.1.1.laterals x'.2.tailPos) x'.2.lateralOwner

namespace Kept

variable {n : ℕ} {o : Owner} {x x' x'' : (State × Watch) × Ghost}

theorem refl (n : ℕ) (o : Owner) (x : (State × Watch) × Ghost) : Kept n o x x :=
  ⟨.refl x, .refl o _ _, .refl o _ _⟩

theorem trans (h : Kept n o x x') (h' : Kept n o x' x'') : Kept n o x x'' :=
  ⟨h.toLater.trans h'.toLater, h.owned.trans h'.owned, h.ownedLateral.trans h'.ownedLateral⟩

end Kept

/-- The rules that all threads keep to. -/
def regime (C : Type) (set : Params) : Regime C (State × Watch) Ghost where
  inv _ x := Inv set x.1.1 x.1.2 x.2
  frame := Kept set.maxWidth
  fresh _ _ := True
  assume _ _ := True
  refl := Kept.refl set.maxWidth
  trans _ _ _ _ h h' := h.trans h'
  inv_call _ _ _ h := h
  fresh_later _ _ _ _ _ := True.intro

/-! ### What the invariant says -/

namespace Inv

variable {set : Params} {s : State} {w : Watch} {g : Ghost} (h : Inv set s w g)
include h

theorem pending : ∃ pend, Pending s.globalPWindow pend ∧
    s.lateralNodes = recorded (windows s g) ++ pend := h.lateral.nodes

/-- The counts of the lateral nodes increase along the list. -/
theorem sorted : s.lateralNodes.Pairwise fun a b => a.count < b.count := by
  obtain ⟨pend, hp, he⟩ := h.pending
  rw [he]
  refine List.pairwise_append.2 ⟨h.history.recorded_sorted, ?_, fun a ha b hb => ?_⟩
  · cases hp with
    | nil => exact .nil
    | node => exact List.pairwise_singleton ..
  · have h₁ := h.history.count_le ha
    have h₂ := h.history.bottom_lt
    cases hp with
    | nil => cases hb
    | node =>
      obtain rfl := List.mem_singleton.1 hb
      show a.count < s.globalPWindow.max + 1
      omega

/-- No lateral node is further above the put window than the next row. -/
theorem count_le {v : LateralNode} (hv : v ∈ s.lateralNodes) :
    v.count ≤ s.globalPWindow.max + 1 := by
  obtain ⟨pend, hp, he⟩ := h.pending
  rw [he] at hv
  rcases List.mem_append.1 hv with hv | hv
  · have h₁ := h.history.count_le hv
    have h₂ := h.history.bottom_lt
    omega
  · cases hp with
    | nil => cases hv
    | node =>
      obtain rfl := List.mem_singleton.1 hv
      exact le_rfl

theorem node_width {v : LateralNode} (hv : v ∈ s.lateralNodes) :
    0 < v.width ∧ v.width ≤ set.maxWidth := by
  obtain ⟨pend, hp, he⟩ := h.pending
  rw [he] at hv
  rcases List.mem_append.1 hv with hv | hv
  · exact h.history.width_ok hv
  · cases hp with
    | nil => cases hv
    | node =>
      obtain rfl := List.mem_singleton.1 hv
      exact h.history.ok.next

theorem spans : Spans ((windows s g).map PutWindow.span) := h.history.spans

/-- The lateral queue knows the width of each row up to the maximum of the put window. -/
theorem widthAt_eq {r : ℕ} (h0 : 0 < r) (hr : r ≤ s.globalPWindow.max) :
    widthAt s.lateralNodes r = rowWidth s g r := by
  obtain ⟨t, ht, hb, hm⟩ := h.spans.exists_mem (s := s.globalPWindow.span) h0 hr
  have ht : t ∈ (windows s g).map PutWindow.span := ht
  obtain ⟨u, hu, rfl⟩ := List.mem_map.1 ht
  obtain ⟨pend, hp, he⟩ := h.pending
  rw [he]
  exact (h.history.widthAt_recorded hp hu hb hm).trans
    (h.spans.widthOf_eq (List.mem_map_of_mem hu) hb hm).symm

theorem put_bottom_lt : s.globalPWindow.bottom < s.globalPWindow.max := h.history.bottom_lt

/-- A put window whose sub-queue is not full is the present one. -/
theorem present {u : PutWindow} (hu : u ∈ windows s g) {j : ℕ} (hj : j < u.width)
    (hc : (s.putArray j).count < u.max) : u = s.globalPWindow := by
  have hjn : j < set.maxWidth := hj.trans_le (h.history.ok_of_mem hu).width.2
  have hspan := h.filled.present hjn (w := u.span) (List.mem_map_of_mem hu) hj hc
  exact h.history.eq_of_max hu (congrArg Span.max hspan)

end Inv

/-! ### The initial state -/

theorem inv_initial {set : Params} {width depth : ℕ} (hw : 0 < width) (hw' : width ≤ set.maxWidth)
    (hd : 0 < depth) :
    Inv set (initial set width depth) {} ⟨[], .init, fun _ => 0, 0⟩ := by
  have hbottom : Words.usub 64 depth depth = 0 := by
    rw [Words.usub_of_le le_rfl, Nat.sub_self]
  refine ⟨⟨⟨hd, ⟨hw, hw'⟩, hw, hw'⟩, rfl⟩, ⟨⟨⟨fun _ _ => List.cons_ne_nil _ _, fun j _ p n hn => ?_,
    fun i hi j hj p q n hp hq => ?_, fun j _ n hn => ?_⟩, fun _ _ => rfl, fun _ _ => .inl rfl,
    fun _ _ => rfl, fun _ _ => le_rfl⟩, ⟨[], .nil, rfl⟩, le_rfl⟩, ⟨0, 0, rfl, rfl, Nat.zero_le _⟩,
      ⟨hw, hw'⟩, hd, hd,
    le_rfl, ⟨hw, hw'⟩, ?_, fun _ => ⟨fun _ _ => rfl, fun _ _ r hr => (Option.some.inj hr).ge⟩,
    fun _ => ⟨le_rfl, ?_, fun r hb hr => ?_⟩, fun _ => rfl, fun _ _ => rfl⟩
  · cases p with
    | zero => rfl
    | succ p => cases hn
  · have hp : p < 1 := (List.getElem?_eq_some_iff.1 hp).1
    have hq : q < 1 := (List.getElem?_eq_some_iff.1 hq).1
    omega
  · obtain rfl := List.mem_singleton.1 hn
    exact one_pos
  · have hf := Filled.init (α := ℤ) set.maxWidth depth width hd
    rw [← hbottom] at hf
    exact hf
  · exact widthOf_top (hbottom.trans_lt hd) le_rfl
  · exact widthOf_top hb hr

end Watched

end ElasticLpw
