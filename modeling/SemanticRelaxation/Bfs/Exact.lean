import SemanticRelaxation.Bfs.Run

/-!
# Parallel breadth-first search is exact

A vertex whose distance could lower that of a neighbour is in the queue, or a thread has it in hand
(`Inv.closed`). When the queue is found empty by the last thread that leaves, no thread has anything
in hand, and what has been put into the queue has been taken out again (`Inv.live`). So the
distances cannot be lowered any more.

* `Inv.change`, `Inv.lower`: the steps of a thread keep the invariant;
* `runBfs_spec`: the search of one thread, whatever the others do;
* `bfs_exact`: the distances when all threads have left.
-/

namespace Bfs

open AtomicProg Walks Words

/-- What a thread has in hand: nothing before it has found the queue empty, or after that; a vertex
that it has got; one whose neighbours it looks at, with the distance that it has loaded; and a
neighbour besides that it is to put into the queue. -/
inductive Phase
  | busy
  | idle
  | took (u : ℕ)
  | scans (u d : ℕ)
  | adds (u d v : ℕ)

namespace Phase

/-- The thread will see to the neighbours of `w`. -/
def Covers (dist : ℕ → ℕ) (w : ℕ) : Phase → Prop
  | busy | idle => False
  | took u => w = u
  | scans u d => w = u ∧ d ≤ dist u
  | adds u d v => w = v ∨ w = u ∧ d ≤ dist u

/-- A vertex in hand with the distance `d`. -/
structure Holds (g : Graph) (root : ℕ) (dist : ℕ → ℕ) (u d : ℕ) : Prop where
  vertex : u ∈ g.vertexSet
  le : dist u ≤ d
  lt : d < uint64Max
  walk : Walk g.Edge root d u

/-- What a thread has in hand has been reached. -/
def Sound (g : Graph) (root : ℕ) (dist : ℕ → ℕ) : Phase → Prop
  | busy | idle => True
  | took u => u ∈ g.vertexSet ∧ dist u < uint64Max
  | scans u d => Holds g root dist u d
  | adds u d v => Holds g root dist u d ∧ v ∈ g.vertexSet ∧ dist v < uint64Max

/-- The thread has nothing to do for the vertex in its hand. -/
def Free (g : Graph) (dist : ℕ → ℕ) : Phase → Prop
  | busy | idle => True
  | took _ | adds .. => False
  | scans u d => ∀ v, g.Edge u v → dist v ≤ d + 1

section Lower

variable {g : Graph} {root u d w : ℕ} {dist dist' : ℕ → ℕ} {ph : Phase}

theorem Holds.mono (h : Holds g root dist u d) (hle : ∀ v, dist' v ≤ dist v) :
    Holds g root dist' u d :=
  ⟨h.vertex, (hle u).trans h.le, h.lt, h.walk⟩

/-- What has been reached stays so when distances are lowered. -/
theorem Sound.mono (h : ph.Sound g root dist) (hle : ∀ v, dist' v ≤ dist v) :
    ph.Sound g root dist' := by
  cases ph with
  | busy => exact True.intro
  | idle => exact True.intro
  | took u => exact ⟨h.1, (hle u).trans_lt h.2⟩
  | scans u d => exact Holds.mono h hle
  | adds u d v => exact ⟨h.1.mono hle, h.2.1, (hle v).trans_lt h.2.2⟩

theorem Free.mono (h : ph.Free g dist) (hle : ∀ v, dist' v ≤ dist v) : ph.Free g dist' := by
  cases ph with
  | busy => exact h
  | idle => exact h
  | took u => exact h
  | adds u d v => exact h
  | scans u d => exact fun v hv => (hle v).trans (h v hv)

/-- A vertex stays covered when the distances of others change. -/
theorem Covers.congr (h : ph.Covers dist w) (hw : dist' w = dist w) : ph.Covers dist' w := by
  cases ph with
  | busy => exact h
  | idle => exact h
  | took u => exact h
  | scans u d =>
    obtain ⟨rfl, hd⟩ := h
    exact ⟨rfl, hw.symm ▸ hd⟩
  | adds u d v =>
    rcases h with hwv | ⟨rfl, hd⟩
    · exact .inl hwv
    · exact .inr ⟨rfl, hw.symm ▸ hd⟩

end Lower

end Phase

/-- The invariant. -/
structure Inv (g : Graph) (root : ℕ) (calls : List Unit) (s : State) (phases : ℕ → Phase) :
    Prop where
  le : ∀ v, s.distances v ≤ uint64Max
  start : s.distances root = 0
  sound : ∀ v, s.distances v < uint64Max → Walk g.Edge root (s.distances v) v
  bag : ∀ u ∈ s.bag, u ∈ g.vertexSet ∧ s.distances u < uint64Max
  hands : ∀ a, (phases a).Sound g root s.distances
  closed : ∀ u, s.distances u < uint64Max → u ∈ s.bag ∨ (∃ a, (phases a).Covers s.distances u) ∨
    ∀ v, g.Edge u v → s.distances v ≤ s.distances u + 1
  live : s.bag ≠ [] → calls = [] ∨ ∃ a < calls.length, phases a ≠ .idle
  later : ∀ a, calls.length ≤ a → phases a = .busy

variable {g : Graph} {root : ℕ} {calls : List Unit} {s s' : State} {phases : ℕ → Phase}
  {a u w d : ℕ} {ph : Phase}

namespace Inv

theorem init (hroot : root ∈ g.vertexSet) (numThreads : ℕ) :
    Inv g root [] (initial root numThreads) fun _ => .busy := by
  have hself : (initial root numThreads).distances root = 0 := if_pos rfl
  have hmax : 0 < uint64Max := by decide
  have hzero : ∀ v, (initial root numThreads).distances v < uint64Max → v = root := by
    intro v hv
    by_contra hne
    have hv' : (initial root numThreads).distances v = uint64Max := if_neg hne
    exact absurd hv' hv.ne
  refine ⟨fun v => ?_, hself, fun v hv => ?_, fun u hu => ?_, fun _ => True.intro,
    fun u hu => .inl ?_,
    fun _ => .inl rfl, fun _ _ => rfl⟩
  · show (if v = root then 0 else uint64Max) ≤ uint64Max
    split
    · exact Nat.zero_le _
    · exact le_rfl
  · obtain rfl := hzero v hv
    rw [hself]
    exact .nil
  · obtain rfl := List.mem_singleton.1 hu
    exact ⟨hroot, hself ▸ hmax⟩
  · rw [hzero u hu]
    exact List.mem_singleton_self root

theorem call (h : Inv g root calls s phases) (c : Unit) : Inv g root (calls ++ [c]) s phases := by
  refine ⟨h.le, h.start, h.sound, h.bag, h.hands, h.closed, fun hbag => .inr ?_,
    fun a ha => h.later a ?_⟩
  · rw [List.length_append]
    rcases h.live hbag with hnil | ⟨a, ha, hne⟩
    · subst hnil
      refine ⟨0, Nat.one_pos, ?_⟩
      rw [h.later 0 le_rfl]
      exact nofun
    · exact ⟨a, Nat.lt_add_right _ ha, hne⟩
  · rw [List.length_append] at ha
    exact (Nat.le_add_right _ _).trans ha

/-- A step that leaves the distances and the queue alone. -/
theorem same (h : Inv g root calls s phases) (hdist : s'.distances = s.distances)
    (hbag : s'.bag = s.bag) :
    Inv g root calls s' phases := by
  obtain ⟨dist, bag, active⟩ := s
  obtain ⟨dist', bag', active'⟩ := s'
  obtain rfl : dist' = dist := hdist
  obtain rfl : bag' = bag := hbag
  exact ⟨h.le, h.start, h.sound, h.bag, h.hands, h.closed, h.live, h.later⟩

/-- A step that leaves the distances alone. What the queue and the thread lose is covered otherwise.
-/
theorem change (h : Inv g root calls s phases) (ha : a < calls.length)
    (hdist : s'.distances = s.distances) (hsound : ph.Sound g root s.distances)
    (hbag : ∀ u ∈ s'.bag, u ∈ g.vertexSet ∧ s.distances u < uint64Max)
    (hkeep : ∀ u ∈ s.bag, u ∈ s'.bag ∨ ph.Covers s.distances u)
    (hcov : ∀ u, (phases a).Covers s.distances u → u ∈ s'.bag ∨ ph.Covers s.distances u ∨
      ∀ v, g.Edge u v → s.distances v ≤ s.distances u + 1)
    (hlive : s'.bag ≠ [] → ph ≠ .idle) : Inv g root calls s' (Function.update phases a ph) := by
  obtain ⟨dist, bag, active⟩ := s
  obtain ⟨dist', bag', active'⟩ := s'
  obtain rfl : dist' = dist := hdist
  refine ⟨h.le, h.start, h.sound, hbag, fun b => ?_, fun u hu => ?_, fun hne => .inr ⟨a, ha, ?_⟩,
    fun b hb => ?_⟩
  · by_cases hb : b = a
    · subst hb
      rw [Function.update_self]
      exact hsound
    · rw [Function.update_of_ne hb]
      exact h.hands b
  · have hown : ph.Covers dist' u → ∃ b, (Function.update phases a ph b).Covers dist' u := by
      intro hc
      refine ⟨a, ?_⟩
      rwa [Function.update_self]
    rcases h.closed u hu with hmem | ⟨b, hb⟩ | hdone
    · exact (hkeep u hmem).imp_right fun hc => .inl (hown hc)
    · by_cases hba : b = a
      · subst hba
        exact (hcov u hb).imp_right (Or.imp_left hown)
      · refine .inr (.inl ⟨b, ?_⟩)
        rwa [Function.update_of_ne hba]
    · exact .inr (.inr hdone)
  · rw [Function.update_self]
    exact hlive hne
  · have hba : b ≠ a := by
      have hb : calls.length ≤ b := hb
      omega
    rw [Function.update_of_ne hba]
    exact h.later b hb

/-- What a thread covers that has nothing to do is done. -/
theorem done_of_free (h : Inv g root calls s phases) (hf : (phases a).Free g s.distances)
    (hc : (phases a).Covers s.distances u) :
    ∀ v, g.Edge u v → s.distances v ≤ s.distances u + 1 := by
  have hsound := h.hands a
  cases hp : phases a with
  | busy => rw [hp] at hc; exact hc.elim
  | idle => rw [hp] at hc; exact hc.elim
  | took u => rw [hp] at hf; exact hf.elim
  | adds u d v => rw [hp] at hf; exact hf.elim
  | scans w d =>
    rw [hp] at hf hc hsound
    obtain ⟨rfl, hd⟩ := hc
    have hle : s.distances u ≤ d := hsound.le
    obtain rfl : s.distances u = d := le_antisymm hle hd
    exact hf

/-- The queue is found empty. -/
theorem empty (h : Inv g root calls s phases) (ha : a < calls.length)
    (hf : (phases a).Free g s.distances) (hbag : s.bag = []) :
    Inv g root calls s (Function.update phases a .idle) := by
  refine h.change ha rfl True.intro h.bag (fun u hu => .inl hu) (fun u hc => ?_) fun hne =>
    absurd hbag hne
  exact .inr (.inr (h.done_of_free hf hc))

/-- An item is taken out of the queue. -/
theorem take (h : Inv g root calls s phases) (ha : a < calls.length)
    (hf : (phases a).Free g s.distances) (hu : u ∈ s.bag) :
    Inv g root calls { s with bag := s.bag.erase u } (Function.update phases a (.took u)) := by
  refine h.change ha rfl (h.bag u hu) (fun w hw => h.bag w (List.mem_of_mem_erase hw))
    (fun w hw => ?_)
    (fun w hc => .inr (.inr (h.done_of_free hf hc))) fun _ => nofun
  by_cases hwu : w = u
  · exact .inr hwu
  · exact .inl ((List.mem_erase_of_ne hwu).2 hw)

/-- The distance of the vertex in hand is loaded. -/
theorem scan (h : Inv g root calls s phases) (ha : a < calls.length) (hp : phases a = .took u) :
    Inv g root calls s (Function.update phases a (.scans u (s.distances u))) := by
  have hsound := h.hands a
  rw [hp] at hsound
  refine h.change ha rfl ⟨hsound.1, le_rfl, hsound.2, h.sound u hsound.2⟩ h.bag
    (fun w hw => .inl hw) (fun w hc => ?_)
    fun _ => nofun
  rw [hp] at hc
  obtain rfl : w = u := hc
  exact .inr (.inl ⟨rfl, le_rfl⟩)

/-- A neighbour is put into the queue. -/
theorem add (h : Inv g root calls s phases) (ha : a < calls.length) {v : ℕ}
    (hp : phases a = .adds u d v) :
    Inv g root calls { s with bag := v :: s.bag } (Function.update phases a (.scans u d)) := by
  have hsound := h.hands a
  rw [hp] at hsound
  refine h.change ha rfl hsound.1 (fun w hw => ?_) (fun w hw => .inl (List.mem_cons_of_mem _ hw))
    (fun w hc => ?_)
    fun _ => nofun
  · rcases List.mem_cons.1 hw with rfl | hw
    · exact hsound.2
    · exact h.bag w hw
  · rw [hp] at hc
    rcases hc with rfl | hc
    · exact .inl (List.mem_cons_self ..)
    · exact .inr (.inl hc)

/-- The distance of a neighbour is lowered. -/
theorem lower (h : Inv g root calls s phases) (ha : a < calls.length) (hg : g.Csr)
    (hp : phases a = .scans u d) {v : ℕ} (he : g.Edge u v) (hlt : d + 1 < s.distances v) :
    Inv g root calls { s with distances := Function.update s.distances v (d + 1) }
      (Function.update phases a (.adds u d v)) := by
  have hsound := h.hands a
  rw [hp] at hsound
  have hle : ∀ w, Function.update s.distances v (d + 1) w ≤ s.distances w :=
    update_le_self_iff.2 hlt.le
  have hself : Function.update s.distances v (d + 1) v = d + 1 := Function.update_self ..
  have hmax : d + 1 < uint64Max := hlt.trans_le (h.le v)
  have hv : v ∈ g.vertexSet := by
    obtain ⟨j, -, hj, rfl⟩ := he
    exact hg.neighbors j (hj.trans_le (hg.edges u hsound.vertex))
  have hvroot : v ≠ root := by
    rintro rfl
    rw [h.start] at hlt
    exact absurd hlt (Nat.not_lt_zero _)
  refine ⟨fun w => (hle w).trans (h.le w), ?_, fun w hw => ?_, fun w hw => ?_, fun b => ?_,
    fun w hw => ?_,
    fun hne => .inr ⟨a, ha, ?_⟩, fun b hb => ?_⟩
  · show Function.update s.distances v (d + 1) root = 0
    rw [Function.update_of_ne hvroot.symm]
    exact h.start
  · show Walk g.Edge root (Function.update s.distances v (d + 1) w) w
    by_cases hwv : w = v
    · subst hwv
      rw [hself]
      exact .step hsound.walk he
    · have hw : Function.update s.distances v (d + 1) w < uint64Max := hw
      rw [Function.update_of_ne hwv] at hw ⊢
      exact h.sound w hw
  · exact ⟨(h.bag w hw).1, (hle w).trans_lt (h.bag w hw).2⟩
  · by_cases hba : b = a
    · subst hba
      rw [Function.update_self]
      refine ⟨Phase.Holds.mono hsound hle, hv, ?_⟩
      show Function.update s.distances v (d + 1) v < uint64Max
      rw [hself]
      exact hmax
    · rw [Function.update_of_ne hba]
      exact (h.hands b).mono hle
  · have hown : (Function.update phases a (.adds u d v) a).Covers
      (Function.update s.distances v (d + 1)) v := by
      rw [Function.update_self]
      exact .inl rfl
    by_cases hwv : w = v
    · subst hwv
      exact .inr (.inl ⟨a, hown⟩)
    · have hsame : Function.update s.distances v (d + 1) w = s.distances w :=
        Function.update_of_ne hwv _ _
      have hw : Function.update s.distances v (d + 1) w < uint64Max := hw
      rw [hsame] at hw
      rcases h.closed w hw with hmem | ⟨b, hb⟩ | hdone
      · exact .inl hmem
      · refine .inr (.inl ⟨b, ?_⟩)
        show (Function.update phases a (.adds u d v) b).Covers
          (Function.update s.distances v (d + 1)) w
        by_cases hba : b = a
        · subst hba
          rw [hp] at hb
          obtain ⟨rfl, hd⟩ := hb
          rw [Function.update_self]
          exact .inr ⟨rfl, hsame.symm ▸ hd⟩
        · rw [Function.update_of_ne hba]
          exact hb.congr hsame
      · refine .inr (.inr fun z hz => ?_)
        show Function.update s.distances v (d + 1) z ≤ Function.update s.distances v (d + 1) w + 1
        rw [hsame]
        exact (hle z).trans (hdone z hz)
  · rw [Function.update_self]
    exact nofun
  · have hba : b ≠ a := by
      have hb : calls.length ≤ b := hb
      omega
    rw [Function.update_of_ne hba]
    exact h.later b hb

end Inv

/-! ### The protocol -/

/-- The rules that all threads keep to. -/
def regime (g : Graph) (root : ℕ) : Regime Unit State (ℕ → Phase) where
  inv calls x := Inv g root calls x.1 x.2
  frame o x x' := (∀ a, o = .op a → x'.2 a = x.2 a) ∧ ∀ v, x'.1.distances v ≤ x.1.distances v
  fresh n x := x.2 n = .busy
  assume _ _ := True
  refl _ _ := ⟨fun _ _ => rfl, fun _ => le_rfl⟩
  trans _ _ _ _ h h' := ⟨fun a ha => (h'.1 a ha).trans (h.1 a ha), fun v => (h'.2 v).trans (h.2 v)⟩
  inv_call _ call _ := fun h => h.call call
  fresh_later n _ _ h hn := (h.1 n rfl).trans hn

section Specs

variable {E : Results (bfsService g) (regime g root)} {c : Caller} {v v₁ v₂ : View E.protocol c}

/-- What the calling thread has in hand. -/
abbrev hand (v : View E.protocol c) : Phase := v.now.2 c.op

/-- The distances have only got smaller. -/
def Down (v v₁ : View E.protocol c) : Prop := ∀ w, v₁.state.distances w ≤ v.state.distances w

theorem Down.trans (h : Down v v₁) (h' : Down v₁ v₂) : Down v v₂ := fun w => (h' w).trans (h w)

theorem inv_of (v : View E.protocol c) : Inv g root v.now.1.calls v.state v.now.2 := v.inv_pair

theorem hand_of_le (h : v ≤ v₁) : hand v₁ = hand v := h.2.op.1 c.op rfl

theorem down_of_le (h : v ≤ v₁) : Down v v₁ := h.2.op.2

theorem called (v : View E.protocol c) : c.op < v.now.1.calls.length := v.live.1

/-- A step of the thread. -/
theorem step_allows {s : State} {ph : Phase}
    (hi : Inv g root v.now.1.calls s (Function.update v.now.2 c.op ph))
    (hdown : ∀ w, s.distances w ≤ v.state.distances w) :
    E.protocol.Allows c v.now (v.after s (Function.update v.now.2 c.op ph)) := by
  refine Regime.allows v hi fun o ho => ⟨fun a ha => ?_, hdown⟩
  have hne : a ≠ c.op := by
    rintro rfl
    exact ho (ha ▸ rfl)
  exact Function.update_of_ne hne _ _

/-- A step that changes `active_threads` only. -/
theorem active_allows (n : ℕ) :
    E.protocol.Allows c v.now (v.after { v.state with active := n } v.now.2) :=
  Regime.allows v ((inv_of v).same rfl rfl) fun _ _ => ⟨fun _ _ => rfl, fun _ => le_rfl⟩

/-- One neighbour: in the end its distance is small enough. -/
theorem relax_spec (hg : g.Csr) {u d w distance : ℕ} (hp : hand v = .scans u d) (he : g.Edge u w)
    (hle : v.state.distances w ≤ distance) : wp E.protocol c (relax w (d + 1) distance) (fun r v' =>
      Down v v' ∧ hand v' = .scans u d ∧ Sum.elim (fun found => v'.state.distances w ≤ found)
        (fun _ => v'.state.distances w ≤ d + 1) r) v := by
  unfold relax
  split
  next hlt =>
    refine wp.cae (fun v₁ h₁ heq _ => ?_) fun v₁ h₁ _ => ⟨down_of_le h₁, (hand_of_le h₁).trans hp,
      le_rfl⟩
    have hp₁ : hand v₁ = .scans u d := (hand_of_le h₁).trans hp
    have hlt₁ : d + 1 < v₁.state.distances w := heq ▸ hlt
    have hi := (inv_of v₁).lower (called v₁) hg hp₁ he hlt₁
    have hdown : ∀ z, Function.update v₁.state.distances w (d + 1) z ≤ v₁.state.distances z :=
      update_le_self_iff.2 hlt₁.le
    have hall := step_allows hi hdown
    refine ⟨_, hall, wp.update fun v₂ h₂ _ => ?_⟩
    have hp₂ : hand v₂ = .adds u d w := (hand_of_le h₂).trans (Function.update_self ..)
    have hw₂ : v₂.state.distances w ≤ d + 1 := by
      refine (down_of_le h₂ w).trans ?_
      show Function.update v₁.state.distances w (d + 1) w ≤ d + 1
      rw [Function.update_self]
    have hall₂ := step_allows ((inv_of v₂).add (called v₂) hp₂) fun _ => le_rfl
    refine ⟨_, hall₂, fun z => ?_, Function.update_self .., hw₂⟩
    exact (down_of_le h₂ z).trans ((hdown z).trans (down_of_le h₁ z))
  next hge => exact ⟨fun _ => le_rfl, hp, hle.trans (not_lt.1 hge)⟩

/-- The vertex whose neighbours are looked at, and how many of them have been. -/
def Scanning (g : Graph) (u d i : ℕ) (v : View E.protocol c) : Prop :=
  hand v = .scans u d ∧ ∀ j < i, v.state.distances (g.neighbors (g.verticies u + j)) ≤ d + 1

theorem undefined_spec {α : Type} {Q : α → View E.protocol c → Prop} :
    wp E.protocol c undefined Q v :=
  wp.forever (fun _ _ => True) True.intro fun _ _ _ => True.intro

theorem scanRound_spec (hg : g.Csr) {u d i : ℕ} (h : Scanning g u d i v) :
    wp E.protocol c (scanRound g (g.rowEnd u - g.verticies u) (g.verticies u) d i) (fun r v' =>
      Sum.elim (fun i => Scanning g u d i v')
        (fun _ => (hand v').Free g v'.state.distances) r) v := by
  obtain ⟨hp, hdone⟩ := h
  unfold scanRound
  split
  next hi =>
    have hholds : (hand v).Sound g root v.state.distances := (inv_of v).hands c.op
    rw [hp] at hholds
    have hinc : (d + 1) % 2 ^ 64 = d + 1 := by
      have hlt : d < 2 ^ 64 - 1 := hholds.lt
      exact Nat.mod_eq_of_lt (by omega)
    rw [hinc]
    have hedge : g.Edge u (g.neighbors (g.verticies u + i)) :=
      ⟨g.verticies u + i, Nat.le_add_right _ _, by omega, rfl⟩
    refine wp.read fun v₁ h₁ => ?_
    have hp₁ : hand v₁ = .scans u d := (hand_of_le h₁).trans hp
    refine wp.bind_of (A := fun _ v' => Down v v' ∧ hand v' = .scans u d ∧
      v'.state.distances (g.neighbors (g.verticies u + i)) ≤ d + 1) ?_ fun _ v₂ h₂ => ?_
    · refine wp.forever (fun distance v' => Down v v' ∧ hand v' = .scans u d ∧
        v'.state.distances (g.neighbors (g.verticies u + i)) ≤ distance) ⟨down_of_le h₁, hp₁,
          le_rfl⟩ ?_
      rintro distance v' ⟨hdown, hp', hle⟩
      refine (relax_spec hg hp' hedge hle).mono ?_
      rintro (found | _) v'' ⟨hdown', hp'', hle'⟩
      · exact ⟨hdown.trans hdown', hp'', hle'⟩
      · exact ⟨hdown.trans hdown', hp'', hle'⟩
    · obtain ⟨hdown, hp₂, hle⟩ := h₂
      split
      next =>
        refine ⟨hp₂, fun j hj => ?_⟩
        rcases Nat.lt_succ_iff_lt_or_eq.1 hj with hj | rfl
        · exact (hdown _).trans (hdone j hj)
        · exact hle
      next => exact undefined_spec
  next hi =>
    show (hand v).Free g v.state.distances
    rw [hp]
    rintro w ⟨j, hj, hlt, rfl⟩
    have hj' := hdone (j - g.verticies u) (by omega)
    rwa [Nat.add_sub_cancel' hj] at hj'

theorem process_spec (hg : g.Csr) {u : ℕ} (hp : hand v = .took u) :
    wp E.protocol c (process g u) (fun _ v' => (hand v').Free g v'.state.distances) v := by
  have hsound : (hand v).Sound g root v.state.distances := (inv_of v).hands c.op
  rw [hp] at hsound
  unfold process
  rw [getNeighbors_eq hg hsound.1]
  -- the load of the distance
  intro v₁ h₁ _ _
  have hp₁ : hand v₁ = .took u := (hand_of_le h₁).trans hp
  have hall := step_allows ((inv_of v₁).scan (called v₁) hp₁) fun _ => le_rfl
  refine ⟨_, hall, ?_⟩
  refine wp.forever (fun i v' => Scanning g u (v₁.state.distances u) i v') ⟨Function.update_self ..,
    ?_⟩ ?_
  · exact fun j hj => absurd hj (Nat.not_lt_zero j)
  · exact fun i v' h => scanRound_spec hg h

theorem pick_mem {bag : List ℕ} (h : bag ≠ []) (n : ℕ) : pick bag n ∈ bag := by
  have hlt : n % bag.length < bag.length := Nat.mod_lt _ (List.length_pos_iff.2 h)
  unfold pick List.getD
  rw [List.getElem?_eq_getElem hlt]
  exact List.getElem_mem hlt

/-- One attempt to get a vertex, and what is done with it. -/
theorem drainRound_spec (hg : g.Csr) (l : Local) (hf : (hand v).Free g v.state.distances) :
    wp E.protocol c (drainRound g l)
      (fun r v' => Sum.elim (fun _ => (hand v').Free g v'.state.distances)
      (fun _ => hand v' = .idle) r) v := by
  intro v₁ h₁ n _
  have hf₁ : (hand v₁).Free g v₁.state.distances := by
    rw [hand_of_le h₁]
    exact hf.mono (down_of_le h₁)
  by_cases hbag : v₁.state.bag = []
  · simp only [if_pos hbag]
    have hall := step_allows ((inv_of v₁).empty (called v₁) hf₁ hbag) fun _ => le_rfl
    exact ⟨_, hall, Function.update_self ..⟩
  · simp only [if_neg hbag]
    have hmem := pick_mem hbag n
    have hall := step_allows ((inv_of v₁).take (called v₁) hf₁ hmem) fun _ => le_rfl
    refine ⟨_, hall, ?_⟩
    have hne : pick v₁.state.bag n ≠ 0 := by
      have hv := (Finset.mem_Icc.1 ((inv_of v₁).bag _ hmem).1).1
      omega
    show wp E.protocol c (if pick v₁.state.bag n = 0 then _ else _) _ _
    rw [if_neg hne]
    have hp : hand (v₁.step { v₁.state with bag := v₁.state.bag.erase (pick v₁.state.bag n) }
        (Function.update v₁.now.2 c.op (.took (pick v₁.state.bag n))) hall.inv) = .took
        (pick v₁.state.bag n) :=
      Function.update_self ..
    refine wp.bind_of (A := fun _ v' => hand v' = .took (pick v₁.state.bag n)) ?_ fun l' v₂ hp₂ =>
      wp.bind_of (process_spec hg hp₂) fun _ _ h => h
    unfold wake
    split
    next => exact hp
    next => exact wp.update fun v₂ h₂ _ => ⟨_, active_allows _, (hand_of_le h₂).trans hp⟩

theorem goesOn_spec (l : Local) : wp E.protocol c (goesOn l)
    (fun r v' => hand v' = hand v ∧ Down v v' ∧ (l.failures < maxFailures → r = true)) v := by
  unfold goesOn
  split
  next => exact ⟨rfl, fun _ => le_rfl, fun _ => rfl⟩
  next hge =>
    refine wp.choose fun now v₁ h₁ => ?_
    split
    next => exact ⟨hand_of_le h₁, down_of_le h₁, fun _ => rfl⟩
    next =>
      refine wp.read fun v₂ h₂ => ⟨hand_of_le (h₁.trans h₂), down_of_le (h₁.trans h₂),
        fun hlt => ?_⟩
      exact absurd hlt hge

theorem rest_spec (l : Local) : wp E.protocol c (rest l) (fun _ v' => hand v' = hand v) v := by
  unfold rest
  split
  next =>
    refine wp.update fun v₁ h₁ _ => ⟨_, active_allows _, wp.choose fun now v₂ h₂ => ?_⟩
    have hp₁ : hand v₁ = hand v := hand_of_le h₁
    exact (hand_of_le h₂).trans hp₁
  next => exact rfl

/-- The search of one thread. When it leaves it has nothing in hand. -/
theorem runBfs_spec (hg : g.Csr) (hp : hand v = .busy) :
    wp E.protocol c (runBfs g) (fun _ v' => hand v' = .idle) v := by
  refine wp.forever (fun l v' => (hand v').Free g v'.state.distances ∧
    (hand v' = .idle ∨ l.failures < maxFailures)) ⟨?_, .inr (by decide)⟩ ?_
  · rw [hp]
    exact True.intro
  · rintro l v₁ ⟨hf, hl⟩
    refine wp.bind_of (goesOn_spec l) fun go v₂ ⟨hp₂, hdown, hgo⟩ => ?_
    have hf₂ : (hand v₂).Free g v₂.state.distances := by
      rw [hp₂]
      exact hf.mono hdown
    cases go with
    | true =>
      refine wp.bind_of (A := fun _ v' => hand v' = .idle) ?_ fun l' v₃ hp₃ => ?_
      · refine wp.forever (fun _ v' => (hand v').Free g v'.state.distances) hf₂ fun l' v' h => ?_
        exact (drainRound_spec hg l' h).mono fun r _ hr => by cases r <;> exact hr
      · refine wp.bind_of (rest_spec l') fun l'' v₄ hp₄ => ?_
        have hidle : hand v₄ = .idle := hp₄.trans hp₃
        refine ⟨?_, .inl hidle⟩
        rw [hidle]
        exact True.intro
    | false =>
      rcases hl with hidle | hlt
      · exact hp₂.trans hidle
      · exact absurd (hgo hlt) nofun

end Specs

/-! ### The theorem -/

/-- A thread that has left has nothing in hand. -/
def results (g : Graph) (root : ℕ) : Results (bfsService g) (regime g root) where
  holds op _ _ _ x := x.2 op = .idle
  later op _ _ _ _ _ _ _ _ _ hf h := (hf.1 op rfl).trans h

theorem bfs_obligations (hg : g.Csr) (hroot : root ∈ g.vertexSet) (numThreads : ℕ) :
    Obligations (results g root) (fun _ => True) (fun _ _ _ => True) (fun _ _ _ v => hand v = .idle)
      (initial root numThreads) (fun _ => .busy) () where
  init := .init hroot numThreads
  init_fresh _ := rfl
  init_loc _ := True.intro
  loc_later _ _ _ _ _ _ _ _ _ h := h
  post_stable _ _ _ _ _ hle h := (hand_of_le hle).trans h
  code _ _ _ _ _ _ _ _ _ hf := wp.bind_of (runBfs_spec hg hf) fun _ _ h => h
  finish _ _ _ _ _ h := ⟨fun _ _ => h, True.intro⟩

/-- For any graph in CSR form, any root, any number of threads and any order of their steps: when
all threads that have started have left, at least one, the distances are the lengths of shortest
walks from the root, and `UINT64_MAX` for the vertices that cannot be reached. -/
theorem bfs_exact (hg : g.Csr) (hroot : root ∈ g.vertexSet) {n : ℕ} {P : Pool (bfsService g)}
    (hr : Reachable (initial root n) () P) (hcalls : P.world.calls ≠ [])
    (hleft : ∀ op < P.world.calls.length, P.world.returned op ≠ none) (v : ℕ) :
    Shortest g.Edge root v (P.world.shared.distances v) ∨
      (∀ k, ¬ Walk g.Edge root k v) ∧ P.world.shared.distances v = uint64Max := by
  obtain ⟨phases, hi, hres, -⟩ := (bfs_obligations hg hroot n).implements.inv hr
  have hi : Inv g root P.world.calls P.world.shared phases := hi
  -- nobody has anything in hand, and the queue is empty
  have hfree : ∀ a, phases a = .idle ∨ phases a = .busy := by
    intro a
    rcases lt_or_ge a P.world.calls.length with hlt | hge
    · obtain ⟨⟨r, k⟩, hrk⟩ := Option.ne_none_iff_exists'.1 (hleft a hlt)
      obtain ⟨call, -, hidle⟩ := hres a r k hrk
      exact .inl hidle
    · exact .inr (hi.later a hge)
  have hbag : P.world.shared.bag = [] := by
    by_contra hne
    rcases hi.live hne with hnil | ⟨a, ha, hactive⟩
    · exact hcalls hnil
    · obtain ⟨⟨r, k⟩, hrk⟩ := Option.ne_none_iff_exists'.1 (hleft a ha)
      obtain ⟨call, -, hidle⟩ := hres a r k hrk
      exact hactive hidle
  refine Walk.exact (S := g.vertexSet) hroot ?_ ?_ hi.le hi.start hi.sound (fun u _ hu => ?_) v
  · rintro u hu w ⟨j, -, hj, rfl⟩
    exact hg.neighbors j (hj.trans_le (hg.edges u hu))
  · have hcount := hg.count
    have hcard : g.vertexSet.card = g.nVerticies := by
      unfold Graph.vertexSet
      rw [Nat.card_Icc, Nat.add_sub_cancel]
    rw [hcard]
    unfold uint64Max
    omega
  · rcases hi.closed u hu with hmem | ⟨a, ha⟩ | hdone
    · rw [hbag] at hmem
      cases hmem
    · rcases hfree a with hp | hp
      · rw [hp] at ha
        exact ha.elim
      · rw [hp] at ha
        exact ha.elim
    · exact hdone

/-- Two vertices and an edge from 1 to 2. -/
def edge : Graph := ⟨2, 1, fun u => if u = 2 then 1 else 0, fun _ => 2⟩

theorem edge_csr : edge.Csr := ⟨by decide, by decide, by decide, by decide⟩

/-- Two threads search it from 1, one step after the other, until both have left. -/
theorem bfs_exact_two :
    ∃ P : Pool (bfsService edge), P.world.calls.length = 2 ∧ P.world.shared.distances 2 = 1 ∧
    ∀ v, Shortest edge.Edge 1 v (P.world.shared.distances v) ∨
      (∀ k, ¬ Walk edge.Edge 1 k v) ∧ P.world.shared.distances v = uint64Max := by
  have h : (((Pool.init (bfsService edge) (initial 1 2) ()).exec
    (List.flatten [[.invoke 0 (), .invoke 1 ()],
      List.replicate 4 (.step 0 0), List.replicate 10 (.step 1 0), List.replicate 40 (.step 0 0),
      List.replicate 296 (.step 1 1000000000), List.replicate 275 (.step 0 1000000000)])).any
        fun P =>
        decide (P.world.calls.length = 2 ∧ P.world.shared.distances 2 = 1 ∧
          (P.world.returned 0).isSome ∧ (P.world.returned 1).isSome)) = true := by decide +kernel
  obtain ⟨P, hP, h⟩ := Pool.exec_of_check h
  obtain ⟨hlen, hdist, h₀, h₁⟩ := of_decide_eq_true h
  refine ⟨P, hlen, hdist, bfs_exact edge_csr (by decide) (n := 2)
    (Pool.exec_reach hP (fun _ _ _ _ => True.intro) .init) ?_ ?_⟩
  · intro hnil
    rw [hnil] at hlen
    cases hlen
  · rw [hlen]
    intro op hop
    apply Option.isSome_iff_ne_none.1
    have hcase : op = 0 ∨ op = 1 := by omega
    rcases hcase with rfl | rfl
    · exact h₀
    · exact h₁

end Bfs
