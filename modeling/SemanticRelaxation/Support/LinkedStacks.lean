import SemanticRelaxation.Prog.Linearizable
import SemanticRelaxation.Prog.Ghost
import SemanticRelaxation.Support.Lifo
import Mathlib.Data.Set.Insert

/-!
# Linked stacks under interference

An array of linked stacks, each with a pointer to its top that is exchanged. A push writes the link
of its own node until an exchange puts the node on top; afterwards the node does not change. Nodes
are never allocated twice.

* `spec I w`: `w` stacks, where a push and a pop may use any of them;
* `Stacked σ`: the state `σ` contains such stacks; a step on them is said by what it does to `mem
  s`;
* `model I w good`: what all threads keep to. A node carries a stamp, and `good` relates the stamp
  of a linked node to the one below it;
* `Pushing`, `Popping`, `Took`: what a call knows, with one specification for each kind of step.
-/

namespace LinkedStacks

open AtomicProg Lifo

/-- The memory. -/
structure Memory where
  top : ℕ → Option ℕ
  next : ℕ → Option ℕ
  val : ℕ → ℤ
  stamp : ℕ → ℕ
  fresh : ℕ

/-- Empty stacks. -/
def initial : Memory := ⟨fun _ => none, fun _ => none, fun _ => 0, fun _ => 0, 0⟩

namespace Memory

variable (s : Memory)

/-- A node is allocated. -/
def create (val : ℤ) : Memory :=
  { s with
    next := Function.update s.next s.fresh none
    val := Function.update s.val s.fresh val
    stamp := Function.update s.stamp s.fresh 0
    fresh := s.fresh + 1 }

/-- A store to the link of a node. -/
def setNext (n : ℕ) (next : Option ℕ) : Memory := { s with next := Function.update s.next n next }

/-- A store to the stamp of a node. -/
def setStamp (n t : ℕ) : Memory := { s with stamp := Function.update s.stamp n t }

/-- A store to the pointer to the top of a stack. -/
def setTop (j : ℕ) (n : Option ℕ) : Memory := { s with top := Function.update s.top j n }

end Memory

/-! ### The object -/

/-- How the calls and the answers of a stack are read: the value of a push, and no value for a pop.
-/
structure Interface (C R : Type) where
  pushes : C → Option ℤ
  pushed : R
  popped : ℤ → R
  empty : R

/-- `w` stacks. A push goes to one of them; a pop takes the top of one, or answers that it is empty
since one of them is. -/
def spec {C R : Type} (I : Interface C R) (w : ℕ) : Spec C R where
  State := ℕ → List ℤ
  init := fun _ => []
  step x call r x' := match I.pushes call with
    | some val => r = I.pushed ∧ ∃ j < w, x' = Function.update x j (val :: x j)
    | none => ∃ j < w, x j = [] ∧ r = I.empty ∧ x' = x ∨
        ∃ val st, x j = val :: st ∧ r = I.popped val ∧ x' = Function.update x j st

section Spec

variable {C R : Type} {I : Interface C R} {w : ℕ} {x : ℕ → List ℤ} {call : C} {j : ℕ} {val : ℤ}

theorem spec_push (hj : j < w) (hc : I.pushes call = some val) :
    (spec I w).step x call I.pushed (Function.update x j (val :: x j)) := by
  simp only [spec, hc]
  exact ⟨True.intro, j, hj, rfl⟩

theorem spec_pop {st : List ℤ} (hj : j < w) (hc : I.pushes call = none) (hx : x j = val :: st) :
    (spec I w).step x call (I.popped val) (Function.update x j st) := by
  simp only [spec, hc]
  exact ⟨j, hj, .inr ⟨val, st, hx, rfl, rfl⟩⟩

theorem spec_empty (hj : j < w) (hc : I.pushes call = none) (hx : x j = []) :
    (spec I w).step x call I.empty x := by
  simp only [spec, hc]
  refine ⟨j, hj, .inl ⟨hx, ?_⟩⟩
  simp only [and_self]

end Spec

/-- A state with linked stacks in it. -/
class Stacked (σ : Type) where
  memory : σ → Memory

/-- The stacks of a state. -/
abbrev mem {σ : Type} [Stacked σ] (s : σ) : Memory := Stacked.memory s

/-! ### What all threads keep to -/

/-- Who has allocated a node, and which nodes have been linked. -/
structure Ghost where
  owner : ℕ → ℕ
  linked : Set ℕ

/-- The lines of nodes from the tops hold the values. -/
structure Holds (good : ℕ → Option ℕ → Prop) (x : ℕ → List ℤ) (line : ℕ → List ℕ)
    (s : Memory × Ghost) : Prop where
  path : ∀ j, Path s.1.next (s.1.top j) (line j)
  vals : ∀ j, (line j).map s.1.val = x j
  linked : ∀ j, ∀ n ∈ line j, n ∈ s.2.linked
  closed : ∀ n ∈ s.2.linked, ∀ m, s.1.next n = some m → m ∈ s.2.linked
  stamps : ∀ n ∈ s.2.linked, good (s.1.stamp n) ((s.1.next n).map s.1.stamp)
  lt : ∀ n ∈ s.2.linked, n < s.1.fresh

/-- What every step keeps. -/
structure Grows (s s' : Memory × Ghost) : Prop where
  fresh : s.1.fresh ≤ s'.1.fresh
  val : ∀ n < s.1.fresh, s'.1.val n = s.1.val n
  linked : s.2.linked ⊆ s'.2.linked
  next : ∀ n ∈ s.2.linked, s'.1.next n = s.1.next n
  stamp : ∀ n ∈ s.2.linked, s'.1.stamp n = s.1.stamp n

theorem Grows.refl (s : Memory × Ghost) :
    Grows s s := ⟨le_rfl, fun _ _ => rfl, subset_rfl, fun _ _ => rfl, fun _ _ => rfl⟩

theorem Grows.trans {s₁ s₂ s₃ : Memory × Ghost} (h₁ : Grows s₁ s₂) (h₂ : Grows s₂ s₃) :
    Grows s₁ s₃ where
  fresh := h₁.fresh.trans h₂.fresh
  val n hn := (h₂.val n (hn.trans_le h₁.fresh)).trans (h₁.val n hn)
  linked := h₁.linked.trans h₂.linked
  next n hn := (h₂.next n (h₁.linked hn)).trans (h₁.next n hn)
  stamp n hn := (h₂.stamp n (h₁.linked hn)).trans (h₁.stamp n hn)

/-- What others keep. -/
structure Frame (o : Owner) (s s' : Memory × Ghost) : Prop where
  grows : Grows s s'
  owner : ∀ n < s.1.fresh, s'.2.owner n = s.2.owner n
  own : ∀ a, o = .op a → ∀ n < s.1.fresh, s.2.owner n = a → n ∉ s.2.linked →
    n ∉ s'.2.linked ∧ s'.1.next n = s.1.next n ∧ s'.1.stamp n = s.1.stamp n

theorem Frame.refl (o : Owner) (s : Memory × Ghost) : Frame o s s :=
  ⟨.refl s, fun _ _ => rfl, fun _ _ _ _ _ hn => ⟨hn, rfl, rfl⟩⟩

theorem Frame.trans {o : Owner} {s₁ s₂ s₃ : Memory × Ghost} (h₁ : Frame o s₁ s₂)
    (h₂ : Frame o s₂ s₃) : Frame o s₁ s₃ where
  grows := h₁.grows.trans h₂.grows
  owner n hn := (h₂.owner n (hn.trans_le h₁.grows.fresh)).trans (h₁.owner n hn)
  own a ho n hn ha hnl := by
    obtain ⟨hnl₂, hnext, hstamp⟩ := h₁.own a ho n hn ha hnl
    obtain ⟨hnl₃, hnext', hstamp'⟩ := h₂.own a ho n (hn.trans_le h₁.grows.fresh)
      ((h₁.owner n hn).trans ha) hnl₂
    exact ⟨hnl₃, hnext'.trans hnext, hstamp'.trans hstamp⟩

/-- The rules that all threads keep to. -/
def model {σ C R : Type} [Stacked σ] (I : Interface C R) (w : ℕ) (good : ℕ → Option ℕ → Prop) :
    Model (spec I w) σ Ghost where
  inv _ x s := ∃ line, Holds good x line (mem s.1, s.2)
  frame o s s' := Frame o (mem s.1, s.2) (mem s'.1, s'.2)
  fresh _ _ := True
  assume _ _ := True
  refl _ _ := .refl _ _
  trans _ _ _ _ := Frame.trans
  inv_call _ _ _ _ h := h
  fresh_later _ _ _ _ h := h

variable {w : ℕ} {good : ℕ → Option ℕ → Prop} {x : ℕ → List ℤ} {line : ℕ → List ℕ} {s : Memory}
  {g : Ghost} {n : ℕ}

namespace Holds

/-- Nodes that are not linked may change. -/
theorem congr (h : Holds good x line (s, g)) {s' : Memory} {owner : ℕ → ℕ} (htop : s'.top = s.top)
    (hf : s.fresh ≤ s'.fresh) (heq : ∀ m ∈ g.linked, s'.next m = s.next m ∧ s'.val m = s.val m ∧
      s'.stamp m = s.stamp m) :
    Holds good x line (s', ⟨owner, g.linked⟩) where
  path j := by
    show Path s'.next (s'.top j) (line j)
    rw [htop]
    exact (h.path j).congr fun m hm => (heq m (h.linked j m hm)).1
  vals j := (List.map_congr_left fun m hm => (heq m (h.linked j m hm)).2.1).trans (h.vals j)
  linked := h.linked
  closed m hm k hk := h.closed m hm k ((heq m hm).1.symm.trans hk)
  stamps m hm := by
    show good (s'.stamp m) ((s'.next m).map s'.stamp)
    rw [(heq m hm).1, (heq m hm).2.2]
    have hnext : (s.next m).map s'.stamp = (s.next m).map s.stamp := by
      cases hk : s.next m with
      | none => rfl
      | some k => exact congrArg some (heq k (h.closed m hm k hk)).2.2
    rw [hnext]
    exact h.stamps m hm
  lt m hm := (h.lt m hm).trans_le hf

theorem create (h : Holds good x line (s, g)) (val : ℤ) (a : ℕ) :
    Holds good x line (s.create val, ⟨Function.update g.owner s.fresh a, g.linked⟩) := by
  refine h.congr rfl (Nat.le_succ _) fun m hm => ?_
  have hne : m ≠ s.fresh := (h.lt m hm).ne
  exact ⟨Function.update_of_ne hne _ _, Function.update_of_ne hne _ _,
    Function.update_of_ne hne _ _⟩

theorem setNext (h : Holds good x line (s, g)) (hn : n ∉ g.linked) (next : Option ℕ) :
    Holds good x line (s.setNext n next, g) := by
  refine h.congr rfl le_rfl fun m hm => ⟨?_, rfl, rfl⟩
  have hne : m ≠ n := fun e => hn (e ▸ hm)
  exact Function.update_of_ne hne _ _

theorem setStamp (h : Holds good x line (s, g)) (hn : n ∉ g.linked) (t : ℕ) :
    Holds good x line (s.setStamp n t, g) := by
  refine h.congr rfl le_rfl fun m hm => ⟨rfl, rfl, ?_⟩
  have hne : m ≠ n := fun e => hn (e ▸ hm)
  exact Function.update_of_ne hne _ _

theorem top_mem (h : Holds good x line (s, g)) {j m : ℕ} (hm : s.top j = some m) :
    m ∈ g.linked := by
  have hp : Path s.next (s.top j) (line j) := h.path j
  cases hl : line j with
  | nil =>
    rw [hl] at hp
    exact absurd (hp.symm.trans hm) nofun
  | cons k rest =>
    rw [hl] at hp
    obtain rfl : k = m := Option.some.inj (hp.1.symm.trans hm)
    exact h.linked j k (hl ▸ List.mem_cons_self ..)

/-- The node becomes the top of a stack. -/
theorem push (h : Holds good x line (s, g)) {j : ℕ} (hlt : n < s.fresh) (hn : n ∉ g.linked)
    (hnext : s.next n = s.top j) (hgood : good (s.stamp n) ((s.top j).map s.stamp)) :
    Holds good (Function.update x j (s.val n :: x j)) (Function.update line j (n :: line j))
      (s.setTop j (some n), ⟨g.owner, insert n g.linked⟩) where
  path i := by
    show Path s.next (Function.update s.top j (some n) i) (Function.update line j (n :: line j) i)
    by_cases hi : i = j
    · subst hi
      rw [Function.update_self, Function.update_self]
      exact ⟨rfl, hnext ▸ h.path i⟩
    · rw [Function.update_of_ne hi, Function.update_of_ne hi]
      exact h.path i
  vals i := by
    show (Function.update line j (n :: line j) i).map s.val = _
    by_cases hi : i = j
    · subst hi
      rw [Function.update_self, Function.update_self, List.map_cons]
      exact congrArg _ (h.vals i)
    · rw [Function.update_of_ne hi, Function.update_of_ne hi]
      exact h.vals i
  linked i m hm := by
    by_cases hi : i = j
    · subst hi
      rw [Function.update_self] at hm
      rcases List.mem_cons.1 hm with rfl | hm
      · exact Set.mem_insert _ _
      · exact Set.mem_insert_of_mem _ (h.linked i m hm)
    · rw [Function.update_of_ne hi] at hm
      exact Set.mem_insert_of_mem _ (h.linked i m hm)
  closed m hm k hk := by
    have hk : s.next m = some k := hk
    rcases Set.mem_insert_iff.1 hm with rfl | hm
    · exact Set.mem_insert_of_mem _ (h.top_mem (hnext.symm.trans hk))
    · exact Set.mem_insert_of_mem _ (h.closed m hm k hk)
  stamps m hm := by
    rcases Set.mem_insert_iff.1 hm with rfl | hm
    · show good (s.stamp m) ((s.next m).map s.stamp)
      rwa [hnext]
    · exact h.stamps m hm
  lt m hm := by
    rcases Set.mem_insert_iff.1 hm with rfl | hm
    · exact hlt
    · exact h.lt m hm

/-- The top of a stack is taken. -/
theorem pop (h : Holds good x line (s, g)) {j : ℕ} (hn : s.top j = some n) :
    ∃ st, x j = s.val n :: st ∧
    Holds good (Function.update x j st) (Function.update line j (line j).tail)
      (s.setTop j (s.next n), g) := by
  have hp : Path s.next (s.top j) (line j) := h.path j
  cases hl : line j with
  | nil =>
    rw [hl] at hp
    exact absurd (hp.symm.trans hn) nofun
  | cons k rest =>
    rw [hl] at hp
    obtain rfl : k = n := Option.some.inj (hp.1.symm.trans hn)
    have hv := h.vals j
    rw [hl, List.map_cons] at hv
    refine ⟨rest.map s.val, hv.symm, ⟨fun i => ?_, fun i => ?_, fun i m hm => ?_, h.closed,
      h.stamps, h.lt⟩⟩
    · show Path s.next (Function.update s.top j (s.next k) i) (Function.update line j rest i)
      by_cases hi : i = j
      · subst hi
        rw [Function.update_self, Function.update_self]
        exact hp.2
      · rw [Function.update_of_ne hi, Function.update_of_ne hi]
        exact h.path i
    · show (Function.update line j rest i).map s.val = _
      by_cases hi : i = j
      · subst hi
        rw [Function.update_self, Function.update_self]
      · rw [Function.update_of_ne hi, Function.update_of_ne hi]
        exact h.vals i
    · by_cases hi : i = j
      · subst hi
        rw [Function.update_self] at hm
        exact h.linked i m (hl ▸ List.mem_cons_of_mem _ hm)
      · rw [Function.update_of_ne hi] at hm
        exact h.linked i m hm

theorem empty (h : Holds good x line (s, g)) {j : ℕ} (hn : s.top j = none) : x j = [] := by
  have hp : Path s.next (s.top j) (line j) := h.path j
  have hv := h.vals j
  cases hl : line j with
  | nil =>
    rw [hl] at hv
    exact hv.symm
  | cons k rest =>
    rw [hl] at hp
    exact absurd (hn.symm.trans hp.1) nofun

end Holds

namespace Grows

theorem create (hlt : ∀ m ∈ g.linked, m < s.fresh) (val : ℤ) (owner : ℕ → ℕ) :
    Grows (s, g) (s.create val, ⟨owner, g.linked⟩) where
  fresh := Nat.le_succ _
  val _ hm := Function.update_of_ne hm.ne _ _
  linked := subset_rfl
  next m hm := Function.update_of_ne (hlt m hm).ne _ _
  stamp m hm := Function.update_of_ne (hlt m hm).ne _ _

theorem setNext (hn : n ∉ g.linked) (next : Option ℕ) : Grows (s, g) (s.setNext n next, g) where
  fresh := le_rfl
  val _ _ := rfl
  linked := subset_rfl
  next m hm := by
    have hne : m ≠ n := fun e => hn (e ▸ hm)
    exact Function.update_of_ne hne _ _
  stamp _ _ := rfl

theorem setStamp (hn : n ∉ g.linked) (t : ℕ) : Grows (s, g) (s.setStamp n t, g) where
  fresh := le_rfl
  val _ _ := rfl
  linked := subset_rfl
  next _ _ := rfl
  stamp m hm := by
    have hne : m ≠ n := fun e => hn (e ▸ hm)
    exact Function.update_of_ne hne _ _

theorem push (j n : ℕ) : Grows (s, g) (s.setTop j (some n), ⟨g.owner, insert n g.linked⟩) :=
  ⟨le_rfl, fun _ _ => rfl, Set.subset_insert _ _, fun _ _ => rfl, fun _ _ => rfl⟩

theorem pop (j : ℕ) (m : Option ℕ) : Grows (s, g) (s.setTop j m, g) :=
  ⟨le_rfl, fun _ _ => rfl, subset_rfl, fun _ _ => rfl, fun _ _ => rfl⟩

end Grows

namespace Frame

variable {c : Caller} {o : Owner}

theorem create (hlt : ∀ m ∈ g.linked, m < s.fresh) (val : ℤ) (a : ℕ) :
    Frame o (s, g) (s.create val, ⟨Function.update g.owner s.fresh a, g.linked⟩) where
  grows := .create hlt val _
  owner _ hm := Function.update_of_ne hm.ne _ _
  own _ _ _ hm _ hnl := ⟨hnl, Function.update_of_ne hm.ne _ _, Function.update_of_ne hm.ne _ _⟩

/-- A node of the call is not a node of another one. -/
theorem ne_of_owner (ho : ¬ c.Is o) (hown : g.owner n = c.op) {a m : ℕ} (ha : o = .op a)
    (hm : g.owner m = a) : m ≠ n := by
  rintro rfl
  exact op_ne ho ha (hm.symm.trans hown)

theorem setNext (ho : ¬ c.Is o) (hown : g.owner n = c.op) (hn : n ∉ g.linked) (next : Option ℕ) :
    Frame o (s, g) (s.setNext n next, g) where
  grows := .setNext hn next
  owner _ _ := rfl
  own _ ha _ _ hm hnl := ⟨hnl, Function.update_of_ne (ne_of_owner ho hown ha hm) _ _, rfl⟩

theorem setStamp (ho : ¬ c.Is o) (hown : g.owner n = c.op) (hn : n ∉ g.linked) (t : ℕ) :
    Frame o (s, g) (s.setStamp n t, g) where
  grows := .setStamp hn t
  owner _ _ := rfl
  own _ ha _ _ hm hnl := ⟨hnl, rfl, Function.update_of_ne (ne_of_owner ho hown ha hm) _ _⟩

theorem push (ho : ¬ c.Is o) (hown : g.owner n = c.op) (j : ℕ) :
    Frame o (s, g) (s.setTop j (some n), ⟨g.owner, insert n g.linked⟩) where
  grows := .push j n
  owner _ _ := rfl
  own _ ha _ _ hm hnl := ⟨fun h => (Set.mem_insert_iff.1 h).elim (ne_of_owner ho hown ha hm) hnl,
    rfl, rfl⟩

theorem pop (j : ℕ) (m : Option ℕ) : Frame o (s, g) (s.setTop j m, g) :=
  ⟨.pop j m, fun _ _ => rfl, fun _ _ _ _ _ hn => ⟨hn, rfl, rfl⟩⟩

end Frame

/-! ### What a call knows -/

section Calls

variable {σ L : Type} [Stacked σ] {S : Service σ L} {I : Interface S.Call S.Ret}

/-- The protocol of the stacks. -/
abbrev protocol (S : Service σ L) (I : Interface S.Call S.Ret) (w : ℕ)
    (good : ℕ → Option ℕ → Prop) :
    Protocol S (Ghost × Account (spec I w)) := (Model.results (S := S) (model I w good)).protocol

variable {c : Caller} {v v₁ : View (protocol S I w good) c} {call : S.Call} {val : ℤ} {j : ℕ}
  {next : Option ℕ} {stamp : ℕ}

/-- The stacks with the ghost state. -/
abbrev pair (v : View (protocol S I w good) c) : Memory × Ghost := (mem v.state, v.now.2.1)

theorem holds (v : View (protocol S I w good) c) :
    ∃ line, Holds good ((spec I w).after (Model.log v)) line (pair v) := Model.stands v v.mem

theorem frame_since (h : Since v v₁) : Frame (.op c.op) (pair v) (pair v₁) := h.frame.base

theorem grows_since (h : Since v v₁) : Grows (pair v) (pair v₁) := (frame_since h).grows

/-- The node has been linked. -/
def Linked (n : ℕ) (v : View (protocol S I w good) c) : Prop := n ∈ (pair v).2.linked

theorem Linked.since (hn : Linked n v) (h : Since v v₁) : Linked n v₁ := (grows_since h).linked hn

/-- The push is going on, and nobody else knows its node. -/
structure Pushing (call : S.Call) (val : ℤ) (n : ℕ) (v : View (protocol S I w good) c) : Prop where
  called : v.now.1.calls[c.op]? = some call
  pushes : I.pushes call = some val
  undone : Model.Undone v
  lt : n < (mem v.state).fresh
  owner : (pair v).2.owner n = c.op
  unlinked : ¬ Linked n v
  val : (mem v.state).val n = val

/-- The push has prepared its node. -/
structure Prepared (call : S.Call) (val : ℤ) (n : ℕ) (next : Option ℕ) (stamp : ℕ)
    (v : View (protocol S I w good) c) :
    Prop where
  pushing : Pushing call val n v
  next : (mem v.state).next n = next
  stamp : (mem v.state).stamp n = stamp

/-- The pop has not taken effect. -/
structure Popping (call : S.Call) (v : View (protocol S I w good) c) : Prop where
  called : v.now.1.calls[c.op]? = some call
  pops : I.pushes call = none
  undone : Model.Undone v
  made : ∃ ℓ, (Model.hist v).since c.op = some ℓ

/-- The pop has taken the node. -/
structure Took (n : ℕ) (v : View (protocol S I w good) c) : Prop where
  lt : n < (mem v.state).fresh
  done : Model.Done v (I.popped ((mem v.state).val n))

/-- The pop has read `p` from the top of a stack. -/
def Looked (call : S.Call) (p : Option ℕ) (v : View (protocol S I w good) c) : Prop :=
  p.elim (Model.Recalls v call I.empty) fun n => Linked n v

theorem Pushing.since (h : Pushing call val n v) (h₁ : Since v v₁) : Pushing call val n v₁ where
  called := h₁.call h.called
  pushes := h.pushes
  undone := h.undone.since h₁
  lt := h.lt.trans_le (grows_since h₁).fresh
  owner := ((frame_since h₁).owner n h.lt).trans h.owner
  unlinked := ((frame_since h₁).own c.op rfl n h.lt h.owner h.unlinked).1
  val := ((grows_since h₁).val n h.lt).trans h.val

theorem Prepared.since (h : Prepared call val n next stamp v) (h₁ : Since v v₁) :
    Prepared call val n next stamp v₁ := by
  obtain ⟨hp, hnext, hstamp⟩ := h
  obtain ⟨-, hnext', hstamp'⟩ := (frame_since h₁).own c.op rfl n hp.lt hp.owner hp.unlinked
  exact ⟨hp.since h₁, hnext'.trans hnext, hstamp'.trans hstamp⟩

theorem Popping.since (h : Popping call v) (h₁ : Since v v₁) : Popping call v₁ := by
  obtain ⟨ℓ, hℓ⟩ := h.made
  exact ⟨h₁.call h.called, h.pops, h.undone.since h₁, ℓ, (h₁.frame.mark c.op rfl).trans hℓ⟩

theorem Took.since (h : Took n v) (h₁ : Since v v₁) : Took n v₁ where
  lt := h.lt.trans_le (grows_since h₁).fresh
  done := by
    rw [show (mem v₁.state).val n = (mem v.state).val n from (grows_since h₁).val n h.lt]
    exact h.done.since h₁

theorem Looked.since {p : Option ℕ} (h : Looked call p v) (h₁ : Since v v₁) : Looked call p v₁ := by
  cases p with
  | none => exact Model.Recalls.since h h₁
  | some n => exact Linked.since h h₁

theorem linked_top (v : View (protocol S I w good) c) {m : ℕ} (hm : (mem v.state).top j = some m) :
    Linked m v :=
  have ⟨_, hi⟩ := holds v
  hi.top_mem hm

/-- A pop that sees an empty stack may answer so. -/
theorem Popping.recalls (h : Popping call v) (hj : j < w) (htop : (mem v.state).top j = none) :
    Model.Recalls v call I.empty :=
  have ⟨_, hi⟩ := holds v
  .of_since (.refl v) h.undone h.made (spec_empty hj h.pops (hi.empty htop))

/-- What is on top of a stack now, the call has looked at. -/
theorem Popping.looked (h : Popping call v) (hj : j < w) : Looked call ((mem v.state).top j) v := by
  cases htop : (mem v.state).top j with
  | none => exact h.recalls hj htop
  | some n => exact linked_top v htop

/-- The call has seen `p` on top of stack `j`. -/
def Saw (j : ℕ) (p : Option ℕ) (v : View (protocol S I w good) c) : Prop :=
  ∃ v₁ : View (protocol S I w good) c, Since v₁ v ∧ (mem v₁.state).top j = p

theorem Saw.since {p : Option ℕ} (h : Saw j p v) (h₁ : Since v v₁) : Saw j p v₁ :=
  have ⟨v₀, h₀, hp⟩ := h
  ⟨v₀, h₀.trans h₁, hp⟩

theorem Saw.linked {p : Option ℕ} (h : Saw j p v) {m : ℕ} (hm : p = some m) : Linked m v := by
  obtain ⟨v₁, h₁, hp⟩ := h
  exact (linked_top v₁ (hp.trans hm)).since h₁

theorem Popping.saw {p : Option ℕ} (h : Popping call v) (hj : j < w) (hs : Saw j p v) :
    Looked call p v := by
  cases hp : p with
  | some m => exact hs.linked hp
  | none =>
    obtain ⟨v₁, h₁, htop⟩ := hs
    obtain ⟨_, hi⟩ := holds v₁
    exact .of_since h₁ h.undone h.made (spec_empty hj h.pops (hi.empty (htop.trans hp)))

/-! ### The steps -/

/-- A step that does nothing to the stacks keeps the rules. -/
theorem inv_of_mem {C R : Type} {I : Interface C R} {calls : List C}
    {x : σ × Ghost × Account (spec I w)} {s : σ} (hs : mem s = mem x.1)
    (h : (Model.regime (model I w good)).inv calls x) :
    (Model.regime (model I w good)).inv calls (s, x.2) := by
  obtain ⟨line, hl⟩ := h.stands
  refine ⟨h.legal, ⟨line, ?_⟩, h.once, h.called, h.marked⟩
  show Holds good _ line (mem s, _)
  rw [hs]
  exact hl

theorem frame_of_mem {C R : Type} {I : Interface C R} {o : Owner}
    {x : σ × Ghost × Account (spec I w)} {s : σ} (hs : mem s = mem x.1) :
    (Model.regime (model I w good)).frame o x (s, x.2) := by
  refine .same ?_ rfl
  show Frame o (mem x.1, _) (mem s, _)
  rw [hs]
  exact .refl o _

/-- Code that does nothing to the stacks. -/
theorem silent_spec {α : Type} {p : Prog σ α} (hp : p.Steps fun s s' => mem s' = mem s) :
    wp (protocol S I w good) c p (fun _ v' => Since v v') v :=
  wp.of_steps hp (fun _ _ _ hs h => inv_of_mem hs h) fun _ _ _ hs => frame_of_mem hs

theorem create_spec {f : σ → ℕ × σ} (hf : ∀ s, (f s).1 = (mem s).fresh ∧ mem (f s).2 =
      (mem s).create val)
    (hcall : v.now.1.calls[c.op]? = some call) (hpushes : I.pushes call = some val)
    (hu : Model.Undone v) :
    wp (protocol S I w good) c (Prog.update f) (fun n v' => Prepared call val n none 0 v') v := by
  intro v₁ h₁ _ _
  obtain ⟨hfst, hsnd⟩ := hf v₁.state
  have hu₁ := hu.since (.of_le h₁)
  obtain ⟨_, hi⟩ := holds v₁
  refine ⟨(⟨Function.update (pair v₁).2.owner (mem v₁.state).fresh c.op, (pair v₁).2.linked⟩,
    Model.hist v₁),
    Model.allows v₁ (fun x hx => ?_) fun o _ => ?_, ?_⟩
  · obtain ⟨line, hx⟩ := hx
    refine ⟨line, ?_⟩
    show Holds good x line (mem (f v₁.state).2, _)
    rw [hsnd]
    exact hx.create val c.op
  · show Frame o (mem v₁.state, _) (mem (f v₁.state).2, _)
    rw [hsnd]
    exact .create hi.lt val c.op
  · show Prepared call val (f v₁.state).1 none 0 _
    rw [hfst]
    refine ⟨⟨(Since.of_le h₁).call hcall, hpushes, hu₁, ?_, Function.update_self ..,
      fun hl => (hi.lt _ hl).ne rfl, ?_⟩, ?_, ?_⟩
    · show _ < (mem (f v₁.state).2).fresh
      rw [hsnd]
      exact Nat.lt_succ_self _
    · show (mem (f v₁.state).2).val _ = _
      rw [hsnd]
      exact Function.update_self ..
    · show (mem (f v₁.state).2).next _ = _
      rw [hsnd]
      exact Function.update_self ..
    · show (mem (f v₁.state).2).stamp _ = _
      rw [hsnd]
      exact Function.update_self ..

/-- A store to the node `n`, which is not linked. -/
structure Own (n : ℕ) (F : Memory → Memory) : Prop where
  fresh : ∀ m, (F m).fresh = m.fresh
  val : ∀ m, (F m).val = m.val
  holds : ∀ {good x line m g}, n ∉ g.linked → Holds good x line (m, g) → Holds good x line (F m, g)
  grows : ∀ {m : Memory} {g : Ghost}, n ∉ g.linked → Grows (m, g) (F m, g)
  frame : ∀ {c : Caller} {o : Owner} {m : Memory} {g : Ghost}, ¬ c.Is o → g.owner n = c.op →
    n ∉ g.linked →
    Frame o (m, g) (F m, g)

theorem Own.setNext (n : ℕ) (next : Option ℕ) : Own n (·.setNext n next) :=
  ⟨fun _ => rfl, fun _ => rfl, fun hn h => h.setNext hn next, fun hn => .setNext hn next,
    fun ho hown hn => .setNext ho hown hn next⟩

theorem Own.setStamp (n t : ℕ) : Own n (·.setStamp n t) :=
  ⟨fun _ => rfl, fun _ => rfl, fun hn h => h.setStamp hn t, fun hn => .setStamp hn t,
    fun ho hown hn => .setStamp ho hown hn t⟩

theorem store_spec {f : σ → Unit × σ} {F : Memory → Memory} (hF : Own n F)
    (hf : ∀ s, mem (f s).2 = F (mem s)) (h : Pushing call val n v) :
    wp (protocol S I w good) c (Prog.update f) (fun _ v' => Pushing call val n v' ∧
      Grows (pair v) (pair v') ∧ ∃ v₁, Since v v₁ ∧ mem v'.state = F (mem v₁.state)) v := by
  intro v₁ h₁ _ _
  have hp := h.since (.of_le h₁)
  have hs := hf v₁.state
  refine ⟨v₁.now.2, Model.allows v₁ (fun x hx => ?_) fun o ho => ?_,
    ⟨hp.called, hp.pushes, hp.undone, ?_, hp.owner, hp.unlinked, ?_⟩, ?_, v₁, .of_le h₁, hs⟩
  · obtain ⟨line, hx⟩ := hx
    refine ⟨line, ?_⟩
    show Holds good x line (mem (f v₁.state).2, _)
    rw [hs]
    exact hF.holds hp.unlinked hx
  · show Frame o (mem v₁.state, _) (mem (f v₁.state).2, _)
    rw [hs]
    exact hF.frame ho hp.owner hp.unlinked
  · show n < (mem (f v₁.state).2).fresh
    rw [hs, hF.fresh]
    exact hp.lt
  · show (mem (f v₁.state).2).val n = val
    rw [hs, hF.val]
    exact hp.val
  · show Grows (pair v) (mem (f v₁.state).2, (pair v₁).2)
    rw [hs]
    exact (grows_since (.of_le h₁)).trans (hF.grows hp.unlinked)

/-- A store to the link of the own node. -/
theorem setNext_spec {f : σ → Unit × σ} {next' : Option ℕ}
    (hf : ∀ s, mem (f s).2 = (mem s).setNext n next') (h : Prepared call val n next stamp v) :
    wp (protocol S I w good) c (Prog.update f)
      (fun _ v' => Prepared call val n next' stamp v' ∧ Grows (pair v) (pair v')) v := by
  refine (store_spec (.setNext n next') hf h.pushing).mono ?_
  rintro _ v' ⟨hp, hg, v₁, h₁, hs⟩
  refine ⟨⟨hp, ?_, ?_⟩, hg⟩
  · rw [hs]
    exact Function.update_self ..
  · rw [hs]
    exact (h.since h₁).stamp

/-- A store to the stamp of the own node. -/
theorem setStamp_spec {f : σ → Unit × σ} {stamp' : ℕ}
    (hf : ∀ s, mem (f s).2 = (mem s).setStamp n stamp') (h : Prepared call val n next stamp v) :
    wp (protocol S I w good) c (Prog.update f)
      (fun _ v' => Prepared call val n next stamp' v' ∧ Grows (pair v) (pair v')) v := by
  refine (store_spec (.setStamp n stamp') hf h.pushing).mono ?_
  rintro _ v' ⟨hp, hg, v₁, h₁, hs⟩
  refine ⟨⟨hp, ?_, ?_⟩, hg⟩
  · rw [hs]
    exact (h.since h₁).next
  · rw [hs]
    exact Function.update_self ..

/-- The step that ends a push. -/
theorem Prepared.commits {s : σ} (h : Prepared call val n next stamp v) (hj : j < w)
    (htop : (mem v.state).top j = next) (hs : mem s = (mem v.state).setTop j (some n))
    (hgood : good stamp (next.map (mem v.state).stamp)) :
    ∃ g, ∃ h : (protocol S I w good).Allows c v.now (v.after s g), Model.Done
      (v.step s g h.inv) I.pushed := by
  obtain ⟨hp, hnext, hstamp⟩ := h
  have hg : good ((mem v.state).stamp n) (((mem v.state).top j).map (mem v.state).stamp) := by
    rw [htop, hstamp]
    exact hgood
  obtain ⟨x, hall⟩ := Model.commits v (s := s) (r := I.pushed)
    (g := ⟨(pair v).2.owner, insert n (pair v).2.linked⟩)
    hp.undone hp.called (fun x ⟨line, hi⟩ => by
      refine ⟨_, spec_push hj hp.pushes, Function.update line j (n :: line j), ?_⟩
      show Holds good _ _ (mem s, _)
      rw [hs, ← hp.val]
      exact hi.push hp.lt hp.unlinked (hnext.trans htop.symm) hg) fun o ho => by
    show Frame o (mem v.state, _) (mem s, _)
    rw [hs]
    exact .push ho hp.owner j
  exact ⟨_, hall, Model.done_append hall⟩

/-- The step in which a pop takes a node. -/
theorem Popping.commits {s : σ} (h : Popping call v) (hj : j < w)
    (htop : (mem v.state).top j = some n) (hs : mem s = (mem v.state).setTop j
      ((mem v.state).next n)) :
    ∃ g, ∃ h : (protocol S I w good).Allows c v.now (v.after s g), Took n (v.step s g h.inv) := by
  obtain ⟨_, hi⟩ := holds v
  have hlt : n < (mem v.state).fresh := hi.lt n (hi.top_mem htop)
  obtain ⟨x, hall⟩ := Model.commits v (s := s) (r := I.popped ((mem v.state).val n))
    (g := (pair v).2)
    h.undone h.called (fun x ⟨line, hi⟩ => by
      obtain ⟨st, hst, hi'⟩ := hi.pop htop
      refine ⟨Function.update x j st, spec_pop hj h.pops hst,
        Function.update line j (line j).tail, ?_⟩
      show Holds good _ _ (mem s, _)
      rw [hs]
      exact hi') fun o _ => by
    show Frame o (mem v.state, _) (mem s, _)
    rw [hs]
    exact .pop j _
  refine ⟨_, hall, ?_, ?_⟩
  · show n < (mem s).fresh
    rw [hs]
    exact hlt
  · show Model.Done _ (I.popped ((mem s).val n))
    rw [hs]
    exact Model.done_append hall

/-- The stamp of the node below stays good while a push is going on. -/
theorem map_stamp_since (h : Since v v₁) (hl : ∀ m, next = some m → Linked m v) :
    next.map (mem v₁.state).stamp = next.map (mem v.state).stamp := by
  cases hk : next with
  | none => rfl
  | some k => exact congrArg some ((grows_since h).stamp k (hl k hk))

/-- An exchange of the descriptor of a stack, of which the top is a part. -/
structure Exchange {D : Type} (get : σ → D) (set : D → σ → σ) (old new : D) (j : ℕ)
    (top next : Option ℕ) : Prop where
  top : ∀ s, get s = old → (mem s).top j = top
  set : ∀ s, get s = old → mem (set new s) = (mem s).setTop j next

section Exchanges

variable {D : Type} [DecidableEq D] {get : σ → D} {set : D → σ → σ} {old new : D}

/-- The exchange that ends a push. -/
theorem push_spec (hx : Exchange get set old new j next (some n)) (hj : j < w)
    (h : Prepared call val n next stamp v) (hl : ∀ m, next = some m → Linked m v)
    (hgood : good stamp (next.map (mem v.state).stamp)) :
    wp (protocol S I w good) c (do let (done, _) ← Prog.cae get set old new; return done)
      (fun done v' => if done then Model.Done v' I.pushed else Prepared call val n next stamp v')
      v := by
  refine wp.cae (fun v₁ h₁ he _ => ?_) fun v₁ h₁ _ => h.since (.of_le h₁)
  have hs := Since.of_le h₁
  obtain ⟨g, hall, hd⟩ := (h.since hs).commits hj (hx.top _ he) (hx.set _ he)
    (map_stamp_since hs hl ▸ hgood)
  exact ⟨g, hall, hd⟩

/-- The exchange that ends a pop. -/
theorem pop_spec (hx : Exchange get set old new j (some n) next) (hj : j < w) (h : Popping call v)
    (hl : Linked n v) (hnext : (mem v.state).next n = next) :
    wp (protocol S I w good) c (do let (done, _) ← Prog.cae get set old new; return done)
      (fun done v' => if done then Took n v' else Popping call v') v := by
  refine wp.cae (fun v₁ h₁ he _ => ?_) fun v₁ h₁ _ => h.since (.of_le h₁)
  have hs := Since.of_le h₁
  have hnext₁ : (mem v₁.state).next n = next := ((grows_since hs).next n hl).trans hnext
  obtain ⟨g, hall, ht⟩ := (h.since hs).commits hj (hx.top _ he)
    ((hx.set _ he).trans (by rw [hnext₁]))
  exact ⟨g, hall, ht⟩

end Exchanges

/-- The link of a linked node is read. -/
theorem readNext_spec {f : σ → Option ℕ} (hf : ∀ s, f s = (mem s).next n) (h : Popping call v)
    (hl : Linked n v) :
    wp (protocol S I w good) c (Prog.read f)
      (fun next v' => Popping call v' ∧ Linked n v' ∧ (mem v'.state).next n = next) v := by
  intro v₁ h₁ _ _
  have hs := Since.of_le h₁
  exact wp.same (a := f v₁.state) (k := .ret) ⟨h.since hs, hl.since hs, (hf _).symm⟩

/-- The value of a node that was taken is read. -/
theorem readVal_spec {f : σ → ℤ} (hf : ∀ s, f s = (mem s).val n) (h : Took n v) :
    wp (protocol S I w good) c (Prog.read f) (fun val v' => Model.Done v' (I.popped val)) v := by
  intro v₁ h₁ _ _
  refine wp.same (a := f v₁.state) (k := .ret) ?_
  show Model.Done v₁ (I.popped (f v₁.state))
  rw [hf]
  exact (h.since (.of_le h₁)).done

/-! ### Calls with a search -/

section Search

variable {D T : Type} (node : D → Option ℕ) (index : T → ℕ)

/-- The loop of a push: search a stack, link the node, exchange the top, and start again with
contention. -/
def pushLoop (search : Bool → T → Prog σ (D × T)) (link : D → Prog σ Unit)
    (cas : D → T → Prog σ Bool) (tl : T) :
    Prog σ (T × ℤ) :=
  Prog.forever (fun (contention, tl) => do
    let (d, tl) ← search contention tl
    link d
    let done ← cas d tl
    if done then return .inr (tl, 1) else return .inl (true, tl)) (false, tl)

/-- The loop of a pop: search a stack, read the link of its top, exchange the top, and read the
value. -/
def popLoop {N : Type} (search : Bool → T → Prog σ (D × T)) (readNext : ℕ → Prog σ N)
    (cas : D → T → N → Prog σ Bool) (readVal : ℕ → Prog σ ℤ) (tl : T) : Prog σ (T × Option ℤ) :=
  Prog.forever (fun (contention, tl) => do
    let (d, tl) ← search contention tl
    match node d with
    | some n =>
      let next ← readNext n
      let done ← cas d tl next
      if done then
        let val ← readVal n
        return .inr (tl, some val)
      else
        return .inl (true, tl)
    | none => return .inr (tl, none)) (false, tl)

/-- What a search returns: an index of a stack, with what was on top of it when the search looked.
-/
def Found (w : ℕ) (v₀ : View (protocol S I w good) c) (r : D × T)
    (v : View (protocol S I w good) c) : Prop :=
  Since v₀ v ∧ index r.2 < w ∧ Saw (index r.2) (node r.1) v

variable {node index} {search : Bool → T → Prog σ (D × T)} {tl : T}
  (hsearch : ∀ b tl (v : View (protocol S I w good) c), index tl < w →
    wp (protocol S I w good) c (search b tl) (Found node index w v) v)

include hsearch in
theorem pushLoop_spec {link : D → Prog σ Unit} {cas : D → T → Prog σ Bool}
    (hlink : ∀ d next (v : View (protocol S I w good) c), Prepared call val n next 0 v →
      wp (protocol S I w good) c (link d) (fun _ v' => Prepared call val n (node d) 0 v' ∧
        Grows (pair v) (pair v')) v)
    (hcas : ∀ d tl (v : View (protocol S I w good) c), index tl < w → Prepared call val n
      (node d) 0 v → (∀ m, node d = some m → Linked m v) → wp (protocol S I w good) c (cas d tl)
        (fun done v' => if done then Model.Done v' I.pushed else Prepared call val n
          (node d) 0 v') v)
    (hi : index tl < w) (h : Prepared call val n next 0 v) :
    wp (protocol S I w good) c (pushLoop search link cas tl)
      (fun r v' => Model.Done v' I.pushed ∧ r.2 = 1 ∧ index r.1 < w) v := by
  refine wp.forever (fun x v' => index x.2 < w ∧ ∃ next, Prepared call val n next 0 v') ⟨hi,
    _, h⟩ ?_
  rintro ⟨contention, tl'⟩ v₁ ⟨hi, next, h₁⟩
  refine wp.bind_of (hsearch _ _ _ hi) ?_
  rintro ⟨d, tl''⟩ v₂ ⟨h₂, hi, hsaw⟩
  refine wp.bind_of (hlink d _ _ (h₁.since h₂)) fun _ v₃ ⟨h₃, hg⟩ => ?_
  refine wp.bind_of (hcas d tl'' _ hi h₃ fun m hm => hg.linked (hsaw.linked hm))
    fun done v₄ h₄ => ?_
  cases done with
  | true => exact ⟨h₄, rfl, hi⟩
  | false => exact ⟨hi, _, h₄⟩

include hsearch in
theorem popLoop_spec {N : Type} {top : N → Option ℕ} {readNext : ℕ → Prog σ N}
    {cas : D → T → N → Prog σ Bool} {readVal : ℕ → Prog σ ℤ}
    (hnext : ∀ n (v : View (protocol S I w good) c), Popping call v → Linked n v →
      wp (protocol S I w good) c (readNext n)
      (fun next v' => Popping call v' ∧ Linked n v' ∧ (mem v'.state).next n = top next) v)
    (hcas : ∀ d tl n next (v : View (protocol S I w good) c), index tl < w → node d = some n →
      Popping call v → Linked n v →
      (mem v.state).next n = top next → wp (protocol S I w good) c (cas d tl next)
        (fun done v' => if done then Took n v' else Popping call v') v)
    (hval : ∀ n (v : View (protocol S I w good) c), Took n v →
      wp (protocol S I w good) c (readVal n) (fun val v' => Model.Done v' (I.popped val)) v)
    (hi : index tl < w) (h : Popping call v) :
    wp (protocol S I w good) c (popLoop node search readNext cas readVal tl)
      (fun r v' => Model.Answered v' call (r.2.elim I.empty I.popped) ∧ index r.1 < w) v := by
  refine wp.forever (fun x v' => index x.2 < w ∧ Popping call v') ⟨hi, h⟩ ?_
  rintro ⟨contention, tl'⟩ v₁ ⟨hi, h₁⟩
  refine wp.bind_of (hsearch _ _ _ hi) ?_
  rintro ⟨d, tl''⟩ v₂ ⟨h₂, hi, hsaw⟩
  have h₂ := h₁.since h₂
  have hl := h₂.saw hi hsaw
  dsimp only at hl ⊢
  cases hd : node d with
  | none =>
    rw [hd] at hl
    exact ⟨.inr hl, hi⟩
  | some n =>
    rw [hd] at hl
    refine wp.bind_of (hnext n v₂ h₂ hl) fun next v₃ ⟨h₃, hl, hn⟩ => ?_
    refine wp.bind_of (hcas d tl'' n next v₃ hi hd h₃ hl hn) fun done v₄ h₄ => ?_
    cases done with
    | true => exact wp.bind_of (hval n v₄ h₄) fun val v₅ h₅ => ⟨.inl h₅, hi⟩
    | false => exact ⟨hi, h₄⟩

end Search

/-! ### Whole runs -/

/-- What a push and a pop have to do. -/
theorem linear {s₀ : σ} {l₀ : L} {loc : L → Prop} (hs₀ : mem s₀ = initial) (hl₀ : loc l₀)
    (hpush : ∀ c call val l (v : View (protocol S I w good) c), v.now.1.calls[c.op]? = some call →
      I.pushes call = some val → Model.Undone v → loc l →
      wp (protocol S I w good) c (S.code c call l) (fun x v' => Model.Done v' x.2 ∧ loc x.1) v)
    (hpop : ∀ c call l (v : View (protocol S I w good) c), Popping call v → loc l →
      wp (protocol S I w good) c (S.code c call l) (fun x v' => Model.Answered v' call x.2 ∧
        loc x.1) v) :
    Linear (S := S) (model I w good) (fun _ => True) (fun _ l _ => loc l) s₀ ⟨fun _ => 0,
      ∅⟩ l₀ where
  init := by
    refine ⟨fun _ => [], ?_⟩
    show Holds good _ _ (mem s₀, _)
    rw [hs₀]
    exact ⟨fun _ => rfl, fun _ => rfl, fun _ _ h => absurd h List.not_mem_nil,
      fun _ h => absurd h id,
      fun _ h => absurd h id, fun _ h => absurd h id⟩
  init_fresh _ := True.intro
  init_loc _ := hl₀
  loc_later _ _ _ _ _ _ _ _ _ _ _ h := h
  code t op call l v hcall _ hl _ hu hmade := by
    cases hc : I.pushes call with
    | some val => exact (hpush _ call val l v hcall hc hu hl).mono fun _ _ h => ⟨.inl h.1, h.2⟩
    | none => exact hpop _ call l v ⟨hcall, hc, hu, _, hmade⟩ hl

end Calls

/-- The stack `j` is the line of nodes from its top, and holds the values `x`. -/
structure Represents (x : List ℤ) (j : ℕ) (s : Memory) (line : List ℕ) : Prop where
  path : Path s.next (s.top j) line
  vals : line.map s.val = x

/-! ### Stacks alone -/

instance : Stacked Memory := ⟨id⟩

/-- The calls on the stacks. -/
inductive Call
  | push (val : ℤ)
  | pop
  deriving DecidableEq

/-- A push answers 1, a pop its value or 0. -/
def Call.interface : Interface Call ℤ where
  pushes
    | .push val => some val
    | .pop => none
  pushed := 1
  popped := id
  empty := 0

def newNode (val : ℤ) : Prog Memory ℕ := Prog.update fun s => (s.fresh, s.create val)

def readTop (j : ℕ) : Prog Memory (Option ℕ) := Prog.read fun s => s.top j

def readNext (n : ℕ) : Prog Memory (Option ℕ) := Prog.read fun s => s.next n

def readVal (n : ℕ) : Prog Memory ℤ := Prog.read fun s => s.val n

def readStamp (n : ℕ) : Prog Memory ℕ := Prog.read fun s => s.stamp n

def writeNext (n : ℕ) (next : Option ℕ) : Prog Memory Unit :=
  Prog.update fun s => ((), s.setNext n next)

def writeStamp (n t : ℕ) : Prog Memory Unit := Prog.update fun s => ((), s.setStamp n t)

def topCas (j : ℕ) (expected desired : Option ℕ) : Prog Memory Bool := do
  let (done, _) ← Prog.cae (fun s : Memory => s.top j) (fun d s => s.setTop j d) expected desired
  return done

theorem topCas_exchange (j : ℕ) (expected desired : Option ℕ) :
    Exchange (fun s : Memory => s.top j)
      (fun d s => s.setTop j d) expected desired j expected desired :=
  ⟨fun _ h => h, fun _ _ => rfl⟩

/-- Stacks alone with the code of their calls. -/
abbrev service {L : Type} (code : Caller → Call → L → Prog Memory (L × ℤ)) : Service Memory L :=
  ⟨Call, ℤ, code⟩

end LinkedStacks
