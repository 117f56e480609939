import SemanticRelaxation.TwoDdDeque.Steps

/-!
# The steps of the 2Dd-deque that no other thread sees

Allocations, stores to new nodes and anchors, frees, and the steps on the windows.

* `Mine`, `MyAnchor`: a node and an anchor that only their call knows;
* for each step, that it keeps the invariant (`Inv.…`) and what belongs to others (`Kept.…`).
-/

namespace TwoDdDeque

open AtomicProg Deques

variable {set : Params} {calls : List Call} {s s' : Memory} {i j n a : ℕ} {xs : List ℕ} {c : Caller}
  {o : Owner}
  {d : Side}

/-- A deque that a step leaves alone. -/
theorem Linked.congr (h : Linked s i xs) (hlinks : ∀ d n m, s.link d n = some m → s.rank m ≠ 0)
    (hnow : s'.now i = s.now i)
    (hnodes : ∀ n, s.rank n ≠ 0 → s'.rank n = s.rank n ∧ s'.place n = s.place n ∧
      s'.base n = s.base n)
    (hlink : ∀ n ∈ xs, ∀ d, s'.link d n = s.link d n) : Linked s' i xs := by
  refine ⟨fun d => hnow ▸ h.ends d, h.nodup, fun n hn => ?_, fun d a b hab => ?_, fun d hd => ?_⟩
  · obtain ⟨hr, hp⟩ := h.nodes n hn
    obtain ⟨hr', hp', -⟩ := hnodes n hr
    exact ⟨hr'.symm ▸ hr, hp'.trans hp⟩
  · have hb : b ∈ xs := Side.mem_look.1 hab.right_mem
    have ha : a ∈ xs := Side.mem_look.1 hab.left_mem
    rw [hlink b hb d, hnow]
    refine (h.links d a b hab).imp_right fun ⟨hst, he, hlt⟩ => ⟨hst, he, ?_⟩
    rw [(hnodes a (h.nodes a ha).1).1]
    cases hv : s.link d b with
    | none =>
      rw [hv] at hlt
      exact hlt
    | some m =>
      rw [hv] at hlt
      show s'.rank m < s.rank a
      rw [(hnodes m (hlinks d b m hv)).1]
      exact hlt
  · rw [hnow] at hd ⊢
    obtain ⟨n, m, he, hb, hnm⟩ := h.pushed d hd
    have hn : n ∈ xs := Side.mem_look.1 hnm.left_mem
    exact ⟨n, m, he, (hnodes n (h.nodes n hn).1).2.2.trans hb, hnm⟩

/-- The nodes have kept their numbers. -/
theorem age_congr (hlinks : ∀ d n m, s.link d n = some m → s.rank m ≠ 0)
    (hnodes : ∀ n, s.rank n ≠ 0 → s'.rank n = s.rank n) (d : Side) (n : ℕ) :
    s'.age (s.link d n) = s.age (s.link d n) := by
  cases hv : s.link d n with
  | none => rfl
  | some m => exact hnodes m (hlinks d n m hv)

/-- A node that only its call knows. -/
structure Mine (c : Caller) (n : ℕ) (s : Memory) : Prop where
  lt : n < s.fresh
  pusher : s.pusher n = c.op
  rank : s.rank n = 0

/-- An anchor that only its call knows. -/
structure MyAnchor (c : Caller) (a : ℕ) (s : Memory) : Prop where
  lt : a < s.freshAnchor
  maker : s.maker a = c.op
  used : s.used a = false
  duty : s.duty a = some c.op

theorem Mine.later (h : Mine c n s) (hk : Kept set (.op c.op) s s') : Mine c n s' where
  lt := h.lt.trans_le hk.fresh
  pusher := (hk.pusher n h.lt).trans h.pusher
  rank := (hk.ownNode c.op rfl n h.lt h.pusher h.rank).1

theorem MyAnchor.later (h : MyAnchor c a s) (hk : Kept set (.op c.op) s s') : MyAnchor c a s' where
  lt := h.lt.trans_le hk.freshAnchor
  maker := (hk.maker a h.lt).trans h.maker
  used := (hk.ownAnchor c.op rfl a h.lt h.maker h.used).1
  duty := hk.ownDuty c.op rfl a h.lt h.duty

theorem MyAnchor.ne (h : MyAnchor c a s) {b : ℕ} (hb : s.used b = true) : b ≠ a := by
  rintro rfl
  rw [h.used] at hb
  cases hb

/-- The nodes and the anchors that are in place stay as they are. -/
theorem Shape.aside (h : Shape set s) {putMax getMax : Side → ℕ} {anchors : ℕ → Anchor}
    {freshAnchor : ℕ} {freed : List ℕ} {lost : Bool} {used : ℕ → Bool} {duty : ℕ → Option ℕ}
    {maker : ℕ → ℕ} (hnow : ∀ i < set.width, anchors (s.anchor i) = s.now i)
    (hlive : ∀ i < set.width, used (s.anchor i) = true) (hused : ∀ a, used a = true →
      a < freshAnchor) :
    Shape set { s with
      putMax := putMax, getMax := getMax, anchors := anchors, freshAnchor := freshAnchor
      freed := freed, lost := lost, used := used, duty := duty, maker := maker } where
  deques i hi := by
    obtain ⟨xs, hxs, hl⟩ := h.deques i hi
    exact ⟨xs, hxs, hl.congr h.links (hnow i hi) (fun _ _ => ⟨rfl, rfl, rfl⟩) fun _ _ _ => rfl⟩
  live := hlive
  apart := h.apart
  used := hused
  ranks := h.ranks
  pushed := h.pushed
  links := h.links
  base n d m hb := by
    obtain ⟨hn, hm, hle, hor⟩ := h.base n d m hb
    refine ⟨hn, hm, hle, hor.imp_right fun ⟨hp, hst, he⟩ => ⟨hp, ?_, ?_⟩⟩
    · exact (congrArg Anchor.state (hnow _ hp)).trans hst
    · exact (congrArg (Anchor.ends · d) (hnow _ hp)).trans he

theorem Duties.congr (h : Duties set s) (hsh : Shape set s)
    (hnow : ∀ i < set.width, s'.now i = s.now i) (hanchor : s'.anchor = s.anchor)
    (hfreed : s'.freed = s.freed) (hfresh : s.freshAnchor ≤ s'.freshAnchor)
    (hduty : ∀ a < s.freshAnchor, s'.duty a = s.duty a) (hlost : s.lost = true → s'.lost = true) :
    Duties set s' where
  stable i hi hst := by
    rw [hnow i hi] at hst
    rw [hanchor, hduty _ (hsh.used _ (hsh.live i hi))]
    exact h.stable i hi hst
  freed a ha := by
    obtain ⟨hlt, hd⟩ := h.freed a (hfreed ▸ ha)
    exact ⟨hlt.trans_le hfresh, (hduty a hlt).trans hd⟩
  live a ha i hi hai := by
    rw [hnow i hi]
    exact (h.live a (hfreed ▸ ha) i hi (hanchor ▸ hai)).imp_right hlost
  nodup := hfreed ▸ h.nodup

theorem Counts.congr (h : Counts set s) (hnow : ∀ i < set.width, s'.now i = s.now i)
    (hput : ∀ d, s.putMax d ≤ s'.putMax d) (hget : ∀ d, s.getMax d ≤ s'.getMax d) :
    Counts set s' where
  put i hi d := by
    rw [hnow i hi]
    exact (h.put i hi d).trans (hput d)
  get i hi d := by
    rw [hnow i hi]
    exact (h.get i hi d).trans (hget d)

namespace Inv

theorem init (set : Params) : Inv set [] (initial set) where
  shape :=
    { deques := fun i _ => by
        refine ⟨[], rfl, fun d => ?_, List.nodup_nil, nofun, fun d a b hab => ?_, fun d hd => ?_⟩
        · cases d <;> rfl
        · have ha : a ∈ d.look [] := hab.left_mem
          rw [Side.mem_look] at ha
          cases ha
        · cases hd
      live := fun i hi => decide_eq_true hi
      apart := fun _ _ _ _ h => h
      used := fun a ha => of_decide_eq_true ha
      ranks := fun _ => le_rfl
      pushed := fun _ h => absurd rfl h
      links := nofun
      base := nofun }
  book := ⟨List.nodup_nil, nofun, nofun⟩
  duties := ⟨fun _ _ _ => rfl, nofun, nofun, List.nodup_nil⟩
  counts := ⟨fun _ _ _ => Nat.zero_le _, fun _ _ _ => Nat.zero_le _⟩

/-! ### Allocations -/

theorem create (h : Inv set calls s) (c : Caller) (val : ℤ) : Inv set calls (s.create c val) := by
  have hsh := h.shape
  have hne : ∀ {m}, s.rank m ≠ 0 → m ≠ s.fresh := fun hm => (hsh.pushed _ hm).ne
  have hrank : ∀ m, s.rank m ≠ 0 → (s.create c val).rank m = s.rank m := fun m hm =>
    Function.update_of_ne (hne hm) _ _
  have hnodes : ∀ m, s.rank m ≠ 0 → (s.create c val).rank m = s.rank m ∧
      (s.create c val).place m = s.place m ∧ (s.create c val).base m = s.base m := fun m hm =>
    ⟨hrank m hm, rfl, Function.update_of_ne (hne hm) _ _⟩
  have hlink : ∀ m, s.rank m ≠ 0 → ∀ d, (s.create c val).link d m = s.link d m := fun m hm d =>
    Function.update_of_ne (hne hm) _ _
  have hval : ∀ m < s.fresh, (s.create c val).val m = s.val m := fun m hm =>
    Function.update_of_ne hm.ne _ _
  have hage : ∀ m, s.rank m ≠ 0 → ∀ d, (s.create c val).age ((s.create c val).link d m) = s.age
    (s.link d m) := by
    intro m hm d
    rw [hlink m hm d]
    exact age_congr hsh.links hrank d m
  refine ⟨⟨fun i hi => ?_, hsh.live, hsh.apart, hsh.used, fun m => ?_, fun m hm => ?_,
    fun d m k hk => ?_,
    fun m d k hk => ?_⟩, ⟨h.book.ops, fun d a i m hm => ?_, fun d a i m hm => ?_⟩,
    ⟨h.duties.stable, h.duties.freed, h.duties.live, h.duties.nodup⟩, ⟨h.counts.put, h.counts.get⟩⟩
  · obtain ⟨xs, hxs, hl⟩ := hsh.deques i hi
    exact ⟨xs, hxs, hl.congr hsh.links rfl hnodes fun m hm d => hlink m (hl.nodes m hm).1 d⟩
  · show Function.update s.rank s.fresh 0 m ≤ s.clock
    by_cases hm : m = s.fresh
    · subst hm
      rw [Function.update_self]
      exact Nat.zero_le _
    · rw [Function.update_of_ne hm]
      exact hsh.ranks m
  · have hm' : Function.update s.rank s.fresh 0 m ≠ 0 := hm
    by_cases hmf : m = s.fresh
    · subst hmf
      exact Nat.lt_succ_self _
    · rw [Function.update_of_ne hmf] at hm'
      exact (hsh.pushed m hm').trans (Nat.lt_succ_self _)
  · have hk : Function.update (s.link d) s.fresh none m = some k := hk
    by_cases hm : m = s.fresh
    · subst hm
      rw [Function.update_self] at hk
      cases hk
    · rw [Function.update_of_ne hm] at hk
      have hr := hsh.links d m k hk
      rw [hrank k hr]
      exact hr
  · have hk : Function.update s.base s.fresh none m = some (d, k) := hk
    by_cases hm : m = s.fresh
    · subst hm
      rw [Function.update_self] at hk
      cases hk
    · rw [Function.update_of_ne hm] at hk
      obtain ⟨hm', hk', hle, hor⟩ := hsh.base m d k hk
      refine ⟨(hrank m hm').symm ▸ hm', (hrank k hk').symm ▸ hk', ?_, hor.imp_left fun hset => ?_⟩
      · rw [hage m hm', hrank k hk']
        exact hle
      · show (s.create c val).rank m ≤ _
        rw [hage k hk', hrank m hm']
        exact hset
  · obtain ⟨hlt, hc⟩ := h.book.pushes d a i m hm
    rw [hval m hlt]
    exact ⟨hlt.trans (Nat.lt_succ_self _), hc⟩
  · obtain ⟨hlt, hc⟩ := h.book.pops d a i m hm
    exact ⟨hlt.trans (Nat.lt_succ_self _), hc⟩

/-- The anchors that are in place are others than a new one. -/
theorem now_update (h : Shape set s) (ha : s.used a = false ∨ s.freshAnchor ≤ a)
    (hi : i < set.width) (x : Anchor) :
    Function.update s.anchors a x (s.anchor i) = s.anchors (s.anchor i) := by
  refine Function.update_of_ne ?_ _ _
  rintro rfl
  have hu := h.live i hi
  rcases ha with ha | ha
  · rw [ha] at hu
    cases hu
  · exact absurd (h.used _ hu) (not_lt.2 ha)

theorem createAnchor (h : Inv set calls s) (c : Caller) : Inv set calls (s.createAnchor c) := by
  have hsh := h.shape
  have hnow : ∀ i < set.width, (s.createAnchor c).now i = s.now i := fun i hi =>
    now_update hsh (.inr le_rfl) hi _
  refine ⟨hsh.aside hnow (fun i hi => ?_) fun b hb => ?_, ⟨h.book.ops, h.book.pushes, h.book.pops⟩,
    h.duties.congr hsh hnow rfl rfl (Nat.le_succ _) (fun b hb => ?_) id,
    h.counts.congr hnow (fun _ => le_rfl) fun _ => le_rfl⟩
  · exact (Function.update_of_ne (hsh.used _ (hsh.live i hi)).ne _ _).trans (hsh.live i hi)
  · by_cases hbf : b = s.freshAnchor
    · subst hbf
      rw [Function.update_self] at hb
      cases hb
    · rw [Function.update_of_ne hbf] at hb
      exact (hsh.used b hb).trans (Nat.lt_succ_self _)
  · exact Function.update_of_ne hb.ne _ _

theorem writeAnchor (h : Inv set calls s) (ha : s.used a = false) (x : Anchor) :
    Inv set calls (s.writeAnchor a x) := by
  have hsh := h.shape
  have hnow : ∀ i < set.width, (s.writeAnchor a x).now i = s.now i := fun i hi =>
    now_update hsh (.inl ha) hi _
  exact ⟨hsh.aside hnow hsh.live hsh.used, ⟨h.book.ops, h.book.pushes, h.book.pops⟩,
    h.duties.congr hsh hnow rfl rfl le_rfl (fun _ _ => rfl) id,
      h.counts.congr hnow (fun _ => le_rfl) fun _ => le_rfl⟩

/-! ### Stores and frees -/

/-- A store to a link of a node that nobody else knows. -/
theorem setLink (h : Inv set calls s) (hn : s.rank n = 0) {m : Option ℕ}
    (hm : ∀ k, m = some k → s.rank k ≠ 0) :
    Inv set calls (s.setLink d n m) := by
  have hsh := h.shape
  have hlink : ∀ k, s.rank k ≠ 0 → ∀ d', (s.setLink d n m).link d' k = s.link d' k := by
    intro k hk d'
    have hkn : k ≠ n := by
      rintro rfl
      exact hk hn
    show Function.update s.link d (Function.update (s.link d) n m) d' k = s.link d' k
    by_cases hd : d' = d
    · subst hd
      rw [Function.update_self, Function.update_of_ne hkn]
    · rw [Function.update_of_ne hd]
  refine ⟨⟨fun i hi => ?_, hsh.live, hsh.apart, hsh.used, hsh.ranks, hsh.pushed,
    fun d' k l hl => ?_,
    fun k d' l hl => ?_⟩, ⟨h.book.ops, h.book.pushes, h.book.pops⟩,
    ⟨h.duties.stable, h.duties.freed, h.duties.live, h.duties.nodup⟩, ⟨h.counts.put, h.counts.get⟩⟩
  · obtain ⟨xs, hxs, hl⟩ := hsh.deques i hi
    exact ⟨xs, hxs, hl.congr hsh.links rfl (fun _ _ => ⟨rfl, rfl, rfl⟩) fun k hk d' => hlink k
      (hl.nodes k hk).1 d'⟩
  · have hl : Function.update s.link d (Function.update (s.link d) n m) d' k = some l := hl
    by_cases hd : d' = d
    · subst hd
      rw [Function.update_self] at hl
      by_cases hk : k = n
      · subst hk
        rw [Function.update_self] at hl
        exact hm l hl
      · rw [Function.update_of_ne hk] at hl
        exact hsh.links d' k l hl
    · rw [Function.update_of_ne hd] at hl
      exact hsh.links d' k l hl
  · obtain ⟨hk, hl', hle, hor⟩ := hsh.base k d' l hl
    refine ⟨hk, hl', ?_, hor.imp_left fun hset => ?_⟩
    · rw [hlink k hk]
      exact hle
    · show s.rank k ≤ s.age _
      rw [hlink l hl']
      exact hset

/-- A step on the windows, or on the notes about lost links. -/
theorem windows (h : Inv set calls s) {putMax getMax : Side → ℕ} {lost : Bool}
    (hput : ∀ d, s.putMax d ≤ putMax d) (hget : ∀ d, s.getMax d ≤ getMax d)
    (hlost : s.lost = true → lost = true) :
    Inv set calls { s with putMax := putMax, getMax := getMax, lost := lost } where
  shape := h.shape.aside (fun _ _ => rfl) h.shape.live h.shape.used
  book := ⟨h.book.ops, h.book.pushes, h.book.pops⟩
  duties := h.duties.congr h.shape (fun _ _ => rfl) rfl rfl le_rfl (fun _ _ => rfl) hlost
  counts := h.counts.congr (fun _ _ => rfl) hput hget

/-- The window of the puts moves up. -/
theorem setPutMax (h : Inv set calls s) {max : ℕ} (hle : s.putMax d ≤ max) :
    Inv set calls { s with putMax := Function.update s.putMax d max } :=
  h.windows (le_update_self_iff.2 hle) (fun _ => le_rfl) id

/-- The window of the gets moves up. -/
theorem setGetMax (h : Inv set calls s) {max : ℕ} (hle : s.getMax d ≤ max) :
    Inv set calls { s with getMax := Function.update s.getMax d max } :=
  h.windows (fun _ => le_rfl) (le_update_self_iff.2 hle) id

/-- A push has lost the exchange of a link. -/
theorem lose (h : Inv set calls s) : Inv set calls { s with lost := true } :=
  h.windows (fun _ => le_rfl) (fun _ => le_rfl) fun _ => rfl

/-- A call frees an anchor that it has to free. It is not in place, or the link was lost. -/
theorem freeAnchor (h : Inv set calls s) (ha : a < s.freshAnchor) (hd : s.duty a = some c.op)
    (hlive : ∀ i < set.width, s.anchor i = a → (s.now i).state ≠ .stable ∧ s.lost = true) :
    Inv set calls (s.freeAnchor a) := by
  have hsh := h.shape
  have hnot : a ∉ s.freed := by
    intro hmem
    rw [(h.duties.freed a hmem).2] at hd
    cases hd
  refine ⟨hsh.aside (fun _ _ => rfl) hsh.live hsh.used, ⟨h.book.ops, h.book.pushes, h.book.pops⟩,
    ⟨fun i hi hst => ?_, fun b hb => ?_, fun b hb i hi hbi => ?_, ?_⟩, ⟨h.counts.put, h.counts.get⟩⟩
  · have hne : s.anchor i ≠ a := fun he => (hlive i hi he).1 hst
    exact (Function.update_of_ne hne _ _).trans (h.duties.stable i hi hst)
  · show b < s.freshAnchor ∧ Function.update s.duty a none b = none
    by_cases hba : b = a
    · subst hba
      exact ⟨ha, Function.update_self ..⟩
    · have hb : b ∈ s.freed := by
        rcases List.mem_append.1 hb with hb | hb
        · exact hb
        · exact absurd (List.mem_singleton.1 hb) hba
      rw [Function.update_of_ne hba]
      exact h.duties.freed b hb
  · rcases List.mem_append.1 hb with hb | hb
    · exact h.duties.live b hb i hi hbi
    · exact hlive i hi (hbi.trans (List.mem_singleton.1 hb))
  · exact List.nodup_append.2 ⟨h.duties.nodup, List.nodup_singleton a, fun b hb k hk hbk =>
      hnot (List.mem_singleton.1 hk ▸ hbk ▸ hb)⟩

end Inv

/-! ### What these steps leave to others -/

namespace Kept

theorem create (h : Inv set calls s) (c : Caller) (val : ℤ) : Kept set o s (s.create c val) where
  hist := List.prefix_refl _
  fresh := Nat.le_succ _
  freshAnchor := le_rfl
  val _ hm := Function.update_of_ne hm.ne _ _
  pusher _ hm := Function.update_of_ne hm.ne _ _
  maker _ _ := rfl
  anchors _ ha := ⟨rfl, ha⟩
  never _ _ _ ha := ha
  nodes m hm := ⟨Function.update_of_ne (h.shape.pushed m hm).ne _ _, rfl,
    Function.update_of_ne (h.shape.pushed m hm).ne _ _⟩
  links m hm d := .inl (Function.update_of_ne (h.shape.pushed m hm).ne _ _)
  stable i hi b _ hb _ _ d x hx d' := by
    obtain ⟨xs, -, hl⟩ := h.shape.deques i hi
    have hx : (s.now i).ends d = some x := by
      subst hb
      exact hx
    rw [hl.ends d] at hx
    have hmem : x ∈ xs := Side.mem_look.1 (List.mem_of_mem_head? hx)
    exact Function.update_of_ne (h.shape.pushed x (hl.nodes x hmem).1).ne _ _
  lost hl := hl
  putMax _ := le_rfl
  getMax _ := le_rfl
  ownNode _ _ m hm _ hr := ⟨(Function.update_of_ne hm.ne _ _).trans hr,
    fun _ => Function.update_of_ne hm.ne _ _⟩
  ownAnchor _ _ _ _ _ hu := ⟨hu, rfl⟩
  ownDuty _ _ _ _ hd := hd
  ownEvents _ _ _ he _ := he

/-- The nodes, the history and the anchors that are in place stay as they are. -/
theorem aside {putMax getMax : Side → ℕ} {anchors : ℕ → Anchor} {freshAnchor : ℕ} {freed : List ℕ}
    {lost : Bool} {used : ℕ → Bool} {duty : ℕ → Option ℕ} {maker : ℕ → ℕ}
    (hfresh : s.freshAnchor ≤ freshAnchor) (hmaker : ∀ b < s.freshAnchor, maker b = s.maker b)
    (hanchors : ∀ b, s.used b = true → anchors b = s.anchors b ∧ used b = true)
    (hlost : s.lost = true → lost = true) (hput : ∀ d, s.putMax d ≤ putMax d)
    (hget : ∀ d, s.getMax d ≤ getMax d) (hown : ∀ c, o = .op c → ∀ b < s.freshAnchor,
      s.maker b = c → s.used b = false →
      used b = false ∧ anchors b = s.anchors b)
    (hduty : ∀ c, o = .op c → ∀ b < s.freshAnchor, s.duty b = some c → duty b = some c) :
    Kept set o s { s with
      putMax := putMax, getMax := getMax, anchors := anchors, freshAnchor := freshAnchor
      freed := freed, lost := lost, used := used, duty := duty, maker := maker } where
  hist := List.prefix_refl _
  fresh := le_rfl
  freshAnchor := hfresh
  val _ _ := rfl
  pusher _ _ := rfl
  maker := hmaker
  anchors := hanchors
  never _ _ _ hb := hb
  nodes _ _ := ⟨rfl, rfl, rfl⟩
  links _ _ _ := .inl rfl
  stable _ _ _ _ _ _ _ _ _ _ _ := rfl
  lost := hlost
  putMax := hput
  getMax := hget
  ownNode _ _ _ _ _ hr := ⟨hr, fun _ => rfl⟩
  ownAnchor := hown
  ownDuty := hduty
  ownEvents _ _ _ he _ := he

theorem createAnchor (h : Shape set s) (c : Caller) : Kept set o s (s.createAnchor c) := by
  refine aside (Nat.le_succ _) (fun b hb => Function.update_of_ne hb.ne _ _) (fun b hb => ?_) id
    (fun _ => le_rfl)
    (fun _ => le_rfl) (fun _ _ b hb _ hu => ⟨?_, Function.update_of_ne hb.ne _ _⟩)
    fun _ _ b hb hd => (Function.update_of_ne hb.ne _ _).trans hd
  · have hne := (h.used _ hb).ne
    exact ⟨Function.update_of_ne hne _ _, (Function.update_of_ne hne _ _).trans hb⟩
  · exact (Function.update_of_ne hb.ne _ _).trans hu

theorem writeAnchor (ha : MyAnchor c a s) (ho : ¬ c.Is o) (x : Anchor) :
    Kept set o s (s.writeAnchor a x) := by
  refine aside le_rfl (fun _ _ => rfl) (fun b hb => ⟨Function.update_of_ne (ha.ne hb) _ _, hb⟩) id
    (fun _ => le_rfl)
    (fun _ => le_rfl) (fun b hb k _ hm hu => ⟨hu, Function.update_of_ne ?_ _ _⟩)
    fun _ _ _ _ hd => hd
  rintro rfl
  exact op_ne ho hb (hm.symm.trans ha.maker)

theorem setLink (h : Inv set calls s) (hn : Mine c n s) (ho : ¬ c.Is o) (m : Option ℕ) :
    Kept set o s (s.setLink d n m) := by
  have hlink : ∀ k, k ≠ n → ∀ d', (s.setLink d n m).link d' k = s.link d' k := by
    intro k hk d'
    show Function.update s.link d (Function.update (s.link d) n m) d' k = s.link d' k
    by_cases hd : d' = d
    · subst hd
      rw [Function.update_self, Function.update_of_ne hk]
    · rw [Function.update_of_ne hd]
  have hne : ∀ k, s.rank k ≠ 0 → k ≠ n := by
    rintro k hk rfl
    exact hk hn.rank
  exact
    { hist := List.prefix_refl _
      fresh := le_rfl
      freshAnchor := le_rfl
      val := fun _ _ => rfl
      pusher := fun _ _ => rfl
      maker := fun _ _ => rfl
      anchors := fun _ hb => ⟨rfl, hb⟩
      never := fun _ _ _ hb => hb
      nodes := fun _ _ => ⟨rfl, rfl, rfl⟩
      links := fun k hk d' => .inl (hlink k (hne k hk) d')
      stable := fun i hi b _ hb _ _ d' x hx d'' => by
        obtain ⟨xs, -, hl⟩ := h.shape.deques i hi
        have hx : (s.now i).ends d' = some x := by
          subst hb
          exact hx
        rw [hl.ends d'] at hx
        have hmem : x ∈ xs := Side.mem_look.1 (List.mem_of_mem_head? hx)
        exact hlink x (hne x (hl.nodes x hmem).1) d''
      lost := fun hl => hl
      putMax := fun _ => le_rfl
      getMax := fun _ => le_rfl
      ownNode := fun b hb k _ hp hr => by
        refine ⟨hr, fun d' => hlink k ?_ d'⟩
        rintro rfl
        exact op_ne ho hb (hp.symm.trans hn.pusher)
      ownAnchor := fun _ _ _ _ _ hu => ⟨hu, rfl⟩
      ownDuty := fun _ _ _ _ hd => hd
      ownEvents := fun _ _ _ he _ => he }

/-- A step on the windows, or on the notes about lost links. -/
theorem windows {putMax getMax : Side → ℕ} {lost : Bool} (hput : ∀ d, s.putMax d ≤ putMax d)
    (hget : ∀ d, s.getMax d ≤ getMax d) (hlost : s.lost = true → lost = true) :
    Kept set o s { s with putMax := putMax, getMax := getMax, lost := lost } :=
  aside le_rfl (fun _ _ => rfl) (fun _ hb => ⟨rfl, hb⟩) hlost hput hget
    (fun _ _ _ _ _ hu => ⟨hu, rfl⟩)
    fun _ _ _ _ hd => hd

theorem freeAnchor (hd : s.duty a = some c.op) (ho : ¬ c.Is o) : Kept set o s (s.freeAnchor a) := by
  refine aside le_rfl (fun _ _ => rfl) (fun _ hb => ⟨rfl, hb⟩) id (fun _ => le_rfl)
    (fun _ => le_rfl)
    (fun _ _ _ _ _ hu => ⟨hu, rfl⟩) fun b hb k _ hk => (Function.update_of_ne ?_ _ _).trans hk
  rintro rfl
  exact op_ne ho hb (Option.some.inj (hk.symm.trans hd))

end Kept

end TwoDdDeque
