import SemanticRelaxation.TwoDd.Queue
import SemanticRelaxation.Support.MichaelScott
import SemanticRelaxation.Prog.Regime

/-!
# The steps of the 2Dd queues under interference

`regime C set assume` is what the code of the 2Dd queues relies on and keeps, whatever the windows
of its threads are. The ghost state names the call that has allocated a node.

* `Inv`: the put counts are in the put window, and the get window is not above it;
* `Fair`: a step that moves the get window moves it off a window without items, and a removal is one
  below the maximum of the get window;
* `Contained`: what holds moreover if the assumption on the steps makes them fair, that the get
  counts are in the get window and no removed item had more than `depth * (width - 1)` older ones;
* `link_allows`, `swing_allows`, `take_allows`, `shiftPut_allows`, `shiftGet_allows`: the steps.
-/

namespace TwoDd

namespace Queue

open AtomicProg Linked MichaelScott

/-- The sub-queues of the memory. -/
def State.store (s : State) : Store ℤ := ⟨s.mem.nodes.toCells, s.mem.putArray, s.mem.getArray⟩

/-- Steps on the windows, and on the descriptors of sub-queue `j`. -/
def State.setPWindow (s : State) (m : ℕ) : State := { s with globalPWindow := m }

def State.setGWindow (s : State) (m : ℕ) : State := { s with globalGWindow := m }

def State.swing (s : State) (j : ℕ) (d : Descriptor) : State :=
  { s with mem := { s.mem with putArray := Function.update s.mem.putArray j d } }

def State.take (s : State) (j : ℕ) (d : Descriptor) : State :=
  { s with mem :=
    { s.mem with
      getArray := Function.update s.mem.getArray j d
      nodes := s.mem.nodes.remove d.node } }

namespace Concurrent

/-- Sub-queue `j` passes the test of `get_window`: it has items in the get window. -/
def Passes (s : State) (j : ℕ) : Prop :=
  (s.mem.getArray j).count < s.globalGWindow ∧
    (s.mem.putArray j).count ≠ (s.mem.getArray j).count

/-- A step that moves the get window off a window without items only, and removes items below its
maximum only. -/
structure Fair (set : Params) (s s' : State) : Prop where
  shift : s'.globalGWindow ≠ s.globalGWindow → ∀ j < set.width, ¬ Passes s j
  take : ∀ j < set.width, s'.mem.getArray j ≠ s.mem.getArray j →
    (s.mem.getArray j).count < s.globalGWindow

/-- The get counts are in the get window, and no removed item had too many older ones. -/
structure Contained (set : Params) (s : State) : Prop where
  get_le : ∀ j < set.width, (s.mem.getArray j).count ≤ s.globalGWindow
  le_get : ∀ j < set.width, s.globalGWindow ≤ (s.mem.getArray j).count + set.depth
  dists : ∀ d ∈ s.mem.nodes.hist.dists, d ≤ set.depth * (set.width - 1)

/-- The invariant. -/
structure Inv (set : Params) (s : State) : Prop where
  valid : Valid set.width s.store
  lists : Queues set.width (fun j => (s.mem.getArray j).count) s.mem.nodes
  rows : Queues.InRows set.depth s.mem.nodes.hist.present
  put_dvd : set.depth ∣ s.globalPWindow
  get_dvd : set.depth ∣ s.globalGWindow
  length_le : ∀ j < set.width, (s.mem.nodes.line j).length ≤ s.globalPWindow + 1
  le_put : ∀ j < set.width, s.globalPWindow ≤ (s.mem.putArray j).count + set.depth
  windows : s.globalGWindow ≤ s.globalPWindow

/-- What the steps of the others keep for the owner `o`. -/
structure Kept (w : ℕ) (o : Owner) (x x' : State × (ℕ → ℕ)) : Prop where
  nodes : Frame w o x.1.store x.2 x'.1.store x'.2
  pWindow : x.1.globalPWindow ≤ x'.1.globalPWindow
  gWindow : x.1.globalGWindow ≤ x'.1.globalGWindow

/-- The rules that all threads keep to. -/
def regime (C : Type) (set : Params) (assume : State → State → Prop) :
    Regime C State (ℕ → ℕ) where
  inv _ x := Inv set x.1 ∧ ((∀ s s', assume s s' → Fair set s s') → Contained set x.1)
  frame := Kept set.width
  fresh _ _ := True
  assume := assume
  refl o x := ⟨.refl o x.1.store x.2, le_rfl, le_rfl⟩
  trans _ _ _ _ h₁ h₂ := ⟨h₁.nodes.trans h₂.nodes, h₁.pWindow.trans h₂.pWindow,
    h₁.gWindow.trans h₂.gWindow⟩
  inv_call _ _ _ h := h
  fresh_later _ _ _ _ _ := True.intro

theorem inv_initial (set : Params) : Inv set (initial set) where
  valid := .init
  lists := .init
  rows := .nil
  put_dvd := dvd_rfl
  get_dvd := dvd_rfl
  length_le _ _ := Nat.le_add_left 1 _
  le_put _ _ := Nat.le_add_left _ _
  windows := le_rfl

theorem contained_initial (set : Params) : Contained set (initial set) where
  get_le _ _ := Nat.zero_le _
  le_get _ _ := Nat.le_add_left _ _
  dists _ h := absurd h List.not_mem_nil

/-- A multiple of `d` below another is so by `d` at least. -/
theorem add_le_of_dvd {d a b : ℕ} (ha : d ∣ a) (hb : d ∣ b) (hlt : a < b) : a + d ≤ b := by
  obtain ⟨a, rfl⟩ := ha
  obtain ⟨b, rfl⟩ := hb
  have hab : a < b := lt_of_mul_lt_mul_left hlt (Nat.zero_le _)
  calc d * a + d = d * (a + 1) := (Nat.mul_succ _ _).symm
    _ ≤ d * b := Nat.mul_le_mul_left _ hab

section Steps

variable {set : Params} {s : State} {j n p t : ℕ}

namespace Inv

variable (h : Inv set s)
include h

theorem put_le (hj : j < set.width) : (s.mem.putArray j).count ≤ s.globalPWindow := by
  have h₁ : (s.mem.putArray j).count < (s.mem.nodes.line j).length := h.valid.put_lt hj
  have h₂ := h.length_le j hj
  omega

theorem create (val : ℤ) : Inv set (s.onNodes (·.create val)) :=
  ⟨h.valid.create val, h.lists.create val, h.rows, h.put_dvd, h.get_dvd, h.length_le, h.le_put,
    h.windows⟩

/-- A node is linked inside the put window. -/
theorem link (hj : j < set.width) (ht : (s.mem.nodes.line j)[p]? = some t)
    (hle : p ≤ (s.mem.putArray j).count) (hnone : (s.mem.nodes.heap t).next = none)
    (hn : Unlinked set.width s.mem.nodes.toCells n) (hlt : p < s.globalPWindow) :
    Inv set (s.onNodes (·.link j (some t) n ())) := by
  obtain ⟨hput, hlast⟩ := h.valid.put_of_last hj ht hle hnone
  have hput : (s.mem.putArray j).count = p := hput
  have hlast : p + 1 = (s.mem.nodes.line j).length := hlast
  have hget : (s.mem.getArray j).count ≤ (s.mem.putArray j).count := h.valid.le j hj
  refine ⟨h.valid.link hj ht hle hnone hn, h.lists.link hj ht hnone hn.lt_fresh hn.notMem hn.next
    (hget.trans hput.le) (), Queues.InRows.snoc h.rows h.put_dvd (fun y hy => ?_) ?_, h.put_dvd,
    h.get_dvd, fun i hi => ?_, h.le_put, h.windows⟩
  · obtain ⟨hyi, hyp⟩ := h.lists.placed_present hy
    have h₁ := (List.getElem?_eq_some_iff.1 hyp).1
    have h₂ := h.length_le _ hyi
    omega
  · have h₁ := h.le_put j hj
    show s.globalPWindow < (s.mem.nodes.line j).length + set.depth
    omega
  · show (Function.update s.mem.nodes.line j (s.mem.nodes.line j ++ [n]) i).length ≤ _
    by_cases hij : i = j
    · subst hij
      rw [Function.update_self, List.length_append, List.length_singleton]
      show _ ≤ s.globalPWindow + 1
      omega
    · rw [Function.update_of_ne hij]
      exact h.length_le i hi

theorem swing (hn : (s.mem.nodes.line j)[(s.mem.putArray j).count + 1]? = some n) :
    Inv set (s.swing j ⟨some n, (s.mem.putArray j).count + 1⟩) := by
  refine ⟨h.valid.swing hn, h.lists, h.rows, h.put_dvd, h.get_dvd, h.length_le, fun i hi => ?_,
    h.windows⟩
  show _ ≤ (Function.update s.mem.putArray j _ i).count + _
  by_cases hij : i = j
  · subst hij
    rw [Function.update_self]
    exact (h.le_put i hi).trans (Nat.add_le_add_right (Nat.le_succ _) _)
  · rw [Function.update_of_ne hij]
    exact h.le_put i hi

/-- An item is removed. -/
theorem take (hj : j < set.width) (hlt : (s.mem.getArray j).count < (s.mem.putArray j).count)
    (hn : (s.mem.nodes.line j)[(s.mem.getArray j).count + 1]? = some n) :
    Inv set (s.take j ⟨some n, (s.mem.getArray j).count + 1⟩) ∧ ∃ A x B,
      s.mem.nodes.hist.present = A ++ x :: B ∧ x.idx = j ∧ x.pos = (s.mem.getArray j).count + 1 ∧
      (∀ y ∈ A, y.idx ≠ x.idx) ∧
      (s.mem.nodes.remove (some n)).hist.dists = A.length :: s.mem.nodes.hist.dists := by
  obtain ⟨A, x, B, hpres, rfl, rfl, hpos, -, hA, hq⟩ := h.lists.remove hj hn
  have hrem : (s.mem.nodes.remove (some x.node)).hist = _ := h.lists.conserved.remove_eq hpres
  have hheads : (fun i =>
    ((s.take x.idx ⟨some x.node, (s.mem.getArray x.idx).count + 1⟩).mem.getArray
      i).count) = Function.update (fun i => (s.mem.getArray i).count) x.idx
        ((s.mem.getArray x.idx).count + 1) := by
    funext i
    show (Function.update s.mem.getArray x.idx _ i).count = _
    by_cases hi : i = x.idx
    · subst hi
      rw [Function.update_self, Function.update_self]
    · rw [Function.update_of_ne hi, Function.update_of_ne hi]
  refine ⟨⟨h.valid.take hj hlt hn, ?_, ?_, h.put_dvd, h.get_dvd, h.length_le, h.le_put, h.windows⟩,
    A, x, B, hpres, rfl, hpos, hA, congrArg History.dists hrem⟩
  · rw [hheads]
    exact hq
  · show ((s.mem.nodes.remove (some x.node)).hist.present).Pairwise _
    rw [hrem]
    have hrows : s.mem.nodes.hist.present.Pairwise _ := h.rows
    refine hrows.sublist ?_
    rw [hpres]
    exact List.Sublist.append (List.Sublist.refl _) (List.sublist_cons_self _ _)

/-- The put window moves on when all put counts have reached its maximum. -/
theorem shiftPut (hall : ∀ j < set.width, s.globalPWindow ≤ (s.mem.putArray j).count) :
    Inv set (s.setPWindow (s.globalPWindow + set.depth)) where
  valid := h.valid
  lists := h.lists
  rows := h.rows
  put_dvd := (Nat.dvd_add_self_right).2 h.put_dvd
  get_dvd := h.get_dvd
  length_le j hj := (h.length_le j hj).trans (Nat.add_le_add_right (Nat.le_add_right _ _) 1)
  le_put j hj := Nat.add_le_add_right (hall j hj) _
  windows := h.windows.trans (Nat.le_add_right _ _)

/-- The get window moves on when the put window is above it. -/
theorem shiftGet (hlt : s.globalGWindow < s.globalPWindow) :
    Inv set (s.setGWindow (s.globalGWindow + set.depth)) where
  valid := h.valid
  lists := h.lists
  rows := h.rows
  put_dvd := h.put_dvd
  get_dvd := (Nat.dvd_add_self_right).2 h.get_dvd
  length_le := h.length_le
  le_put := h.le_put
  windows := add_le_of_dvd h.get_dvd h.put_dvd hlt

end Inv

namespace Contained

variable (h : Contained set s)
include h

/-- A removal below the maximum of the get window. -/
theorem take (hi : Inv set s) (hj : j < set.width)
    (hlt : (s.mem.getArray j).count < (s.mem.putArray j).count)
    (hn : (s.mem.nodes.line j)[(s.mem.getArray j).count + 1]? = some n)
    (hwin : (s.mem.getArray j).count < s.globalGWindow) :
    Contained set (s.take j ⟨some n, (s.mem.getArray j).count + 1⟩) := by
  obtain ⟨-, A, x, B, hpres, hx, hpos, hA, hdists⟩ := hi.take hj hlt hn
  have hcount : ∀ i, i ≠ j → Function.update s.mem.getArray j
      ⟨some n, (s.mem.getArray j).count + 1⟩ i = s.mem.getArray i := fun i hij =>
    Function.update_of_ne hij _ _
  refine ⟨fun i hi => ?_, fun i hi => ?_, fun d hd => ?_⟩
  · show (Function.update s.mem.getArray j _ i).count ≤ s.globalGWindow
    by_cases hij : i = j
    · subst hij
      rw [Function.update_self]
      exact hwin
    · rw [hcount i hij]
      exact h.get_le i hi
  · show s.globalGWindow ≤ (Function.update s.mem.getArray j _ i).count + _
    by_cases hij : i = j
    · subst hij
      rw [Function.update_self]
      exact (h.le_get i hi).trans (Nat.add_le_add_right (Nat.le_succ _) _)
    · rw [hcount i hij]
      exact h.le_get i hi
  · have hd : d ∈ (s.mem.nodes.remove (some n)).hist.dists := hd
    rw [hdists] at hd
    rcases List.mem_cons.1 hd with rfl | hd
    · exact hi.lists.length_le hpres (hx ▸ hj) hA hi.rows hi.get_dvd (hpos.trans_le hwin) h.le_get
    · exact h.dists d hd

/-- The get window moves off a window without items. -/
theorem shiftGet (hi : Inv set s) (hlt : s.globalGWindow < s.globalPWindow)
    (hfair : ∀ j < set.width, ¬ Passes s j) :
    Contained set (s.setGWindow (s.globalGWindow + set.depth)) where
  get_le j hj := (h.get_le j hj).trans (Nat.le_add_right _ _)
  le_get j hj := by
    refine Nat.add_le_add_right ?_ _
    by_contra hget
    have hget : (s.mem.getArray j).count < s.globalGWindow := not_le.1 hget
    -- a sub-queue that has run empty in the window holds back the put window
    have heq : (s.mem.putArray j).count = (s.mem.getArray j).count := by
      by_contra hne
      exact hfair j hj ⟨hget, hne⟩
    have h₁ := add_le_of_dvd hi.get_dvd hi.put_dvd hlt
    have h₂ := hi.le_put j hj
    omega
  dists := h.dists

end Contained

end Steps

/-! ### What a call may do -/

section Allows

variable {L : Type} {S : Service State L} {set : Params} {assume : State → State → Prop}
  {E : Results S (regime S.Call set assume)} {c : Caller} {v v₁ v₂ : View E.protocol c}
  {j n p t : ℕ}

theorem inv_of (v : View E.protocol c) : Inv set v.state := v.inv_pair.1

theorem contained_of (v : View E.protocol c) (h : ∀ s s', assume s s' → Fair set s s') :
    Contained set v.state := v.inv_pair.2 h

/-- What is not lost by any step. -/
structure Later (v v' : View E.protocol c) : Prop where
  seen : v.seen ⊆ v'.seen
  grows : Grows v.state.store v'.state.store
  pWindow : v.state.globalPWindow ≤ v'.state.globalPWindow
  gWindow : v.state.globalGWindow ≤ v'.state.globalGWindow

theorem later_since (h : Since v v₁) : Later v v₁ :=
  ⟨h.seen, h.frame.nodes.grows, h.frame.pWindow, h.frame.gWindow⟩

theorem later_of_le (h : v ≤ v₁) : Later v v₁ := later_since (.of_le h)

namespace Later

theorem refl (v : View E.protocol c) : Later v v := later_of_le le_rfl

theorem trans (h₁ : Later v v₁) (h₂ : Later v₁ v₂) : Later v v₂ :=
  ⟨h₁.seen.trans h₂.seen, h₁.grows.trans h₂.grows, h₁.pWindow.trans h₂.pWindow,
    h₁.gWindow.trans h₂.gWindow⟩

theorem put (h : Later v v₁) (j : ℕ) :
    (v.state.mem.putArray j).count ≤ (v₁.state.mem.putArray j).count := h.grows.put j

theorem get (h : Later v v₁) (j : ℕ) :
    (v.state.mem.getArray j).count ≤ (v₁.state.mem.getArray j).count := h.grows.get j

theorem line (h : Later v v₁) (ht : (v.state.mem.nodes.line j)[p]? = some t) :
    (v₁.state.mem.nodes.line j)[p]? = some t := h.grows.getElem? ht

end Later

/-- A step that leaves the get window and the get counts alone. -/
theorem allows_put {s : State} {g : ℕ → ℕ} (hi : Inv set s)
    (hg : s.globalGWindow = v.state.globalGWindow) (hget : s.mem.getArray = v.state.mem.getArray)
    (hd : s.mem.nodes.hist.dists = v.state.mem.nodes.hist.dists)
    (hk : ∀ o, ¬ c.Is o → Kept set.width o v.pair (s, g)) :
    E.protocol.Allows c v.now (v.after s g) := by
  refine Regime.allows v ⟨hi, fun h => ?_⟩ hk
  have hc := contained_of v h
  refine ⟨?_, ?_, ?_⟩
  · rw [hg, hget]
    exact hc.get_le
  · rw [hg, hget]
    exact hc.le_get
  · rw [hd]
    exact hc.dists

/-- The call allocates a node. -/
theorem create_allows (val : ℤ) :
    E.protocol.Allows c v.now (v.after (v.state.onNodes (·.create val))
      (Function.update v.now.2 v.state.mem.nodes.fresh c.op)) ∧
    ∀ o, Kept set.width o v.pair (v.state.onNodes (·.create val),
      Function.update v.now.2 v.state.mem.nodes.fresh c.op) := by
  have hk : ∀ o, Kept set.width o v.pair (v.state.onNodes (·.create val),
      Function.update v.now.2 v.state.mem.nodes.fresh c.op) := fun _ =>
    ⟨.create v.state.store val c.op, le_rfl, le_rfl⟩
  exact ⟨allows_put ((inv_of v).create val) rfl rfl rfl fun o _ => hk o, hk⟩

/-- The call links its node. -/
theorem link_allows (hj : j < set.width) (ht : (v.state.mem.nodes.line j)[p]? = some t)
    (hle : p ≤ (v.state.mem.putArray j).count) (hnone : (v.state.mem.nodes.heap t).next = none)
    (hn : Unlinked set.width v.state.mem.nodes.toCells n) (hown : v.now.2 n = c.op)
    (hlt : p < v.state.globalPWindow) :
    E.protocol.Allows c v.now (v.after (v.state.onNodes (·.link j (some t) n ())) v.now.2) :=
  allows_put ((inv_of v).link hj ht hle hnone hn hlt) rfl rfl rfl fun _ ho =>
    ⟨.link ho hown hj ht, le_rfl, le_rfl⟩

/-- A tail that lags behind is swung. -/
theorem swing_allows
    (hn : (v.state.mem.nodes.line j)[(v.state.mem.putArray j).count + 1]? = some n) :
    E.protocol.Allows c v.now
        (v.after (v.state.swing j ⟨some n, (v.state.mem.putArray j).count + 1⟩) v.now.2) ∧
      ∀ o, Kept set.width o v.pair
        (v.state.swing j ⟨some n, (v.state.mem.putArray j).count + 1⟩, v.now.2) := by
  have hk : ∀ o, Kept set.width o v.pair
      (v.state.swing j ⟨some n, (v.state.mem.putArray j).count + 1⟩, v.now.2) := fun _ =>
    ⟨.of_cells (.swing (Nat.le_succ _)) rfl, le_rfl, le_rfl⟩
  exact ⟨allows_put ((inv_of v).swing hn) rfl rfl rfl fun o _ => hk o, hk⟩

/-- An item is removed. -/
theorem take_allows (hj : j < set.width)
    (hlt : (v.state.mem.getArray j).count < (v.state.mem.putArray j).count)
    (hn : (v.state.mem.nodes.line j)[(v.state.mem.getArray j).count + 1]? = some n)
    (ha : assume v.state (v.state.take j ⟨some n, (v.state.mem.getArray j).count + 1⟩)) :
    E.protocol.Allows c v.now
        (v.after (v.state.take j ⟨some n, (v.state.mem.getArray j).count + 1⟩) v.now.2) ∧
      ∀ o, Kept set.width o v.pair
        (v.state.take j ⟨some n, (v.state.mem.getArray j).count + 1⟩, v.now.2) := by
  have hi := inv_of v
  have hk : ∀ o, Kept set.width o v.pair
      (v.state.take j ⟨some n, (v.state.mem.getArray j).count + 1⟩, v.now.2) := fun _ =>
    ⟨.of_cells (.take (Nat.le_succ _)) rfl, le_rfl, le_rfl⟩
  refine ⟨Regime.allows v ⟨(hi.take hj hlt hn).1, fun h => ?_⟩ fun o _ => hk o, hk⟩
  refine (contained_of v h).take hi hj hlt hn ((h _ _ ha).take j hj fun he => ?_)
  have he : Function.update v.state.mem.getArray j _ j = v.state.mem.getArray j := he
  rw [Function.update_self] at he
  exact absurd (congrArg Descriptor.count he) (Nat.succ_ne_self _)

theorem shiftPut_allows
    (hall : ∀ j < set.width, v.state.globalPWindow ≤ (v.state.mem.putArray j).count) :
    E.protocol.Allows c v.now
        (v.after (v.state.setPWindow (v.state.globalPWindow + set.depth)) v.now.2) ∧
      ∀ o, Kept set.width o v.pair
        (v.state.setPWindow (v.state.globalPWindow + set.depth), v.now.2) := by
  have hk : ∀ o, Kept set.width o v.pair
      (v.state.setPWindow (v.state.globalPWindow + set.depth), v.now.2) := fun _ =>
    ⟨.of_cells (.refl _) rfl, Nat.le_add_right _ _, le_rfl⟩
  exact ⟨allows_put ((inv_of v).shiftPut hall) rfl rfl rfl fun o _ => hk o, hk⟩

theorem shiftGet_allows (hlt : v.state.globalGWindow < v.state.globalPWindow)
    (ha : assume v.state (v.state.setGWindow (v.state.globalGWindow + set.depth))) :
    E.protocol.Allows c v.now
        (v.after (v.state.setGWindow (v.state.globalGWindow + set.depth)) v.now.2) ∧
      ∀ o, Kept set.width o v.pair
        (v.state.setGWindow (v.state.globalGWindow + set.depth), v.now.2) := by
  have hi := inv_of v
  have hk : ∀ o, Kept set.width o v.pair
      (v.state.setGWindow (v.state.globalGWindow + set.depth), v.now.2) := fun _ =>
    ⟨.of_cells (.refl _) rfl, le_rfl, Nat.le_add_right _ _⟩
  refine ⟨Regime.allows v ⟨hi.shiftGet hlt, fun h => ?_⟩ fun o _ => hk o, hk⟩
  have hc := contained_of v h
  by_cases hd : set.depth = 0
  · refine ⟨fun j hj => (hc.get_le j hj).trans (Nat.le_add_right _ _), fun j hj => ?_, hc.dists⟩
    show v.state.globalGWindow + set.depth ≤ _
    rw [hd]
    exact (hc.le_get j hj).trans_eq (by rw [hd]; rfl)
  · refine hc.shiftGet hi hlt ((h _ _ ha).shift ?_)
    show v.state.globalGWindow + set.depth ≠ v.state.globalGWindow
    omega

end Allows

end Concurrent

end Queue

end TwoDd
