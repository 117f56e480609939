import SemanticRelaxation.Prog.Regime
import SemanticRelaxation.StackElimination.Stack
import SemanticRelaxation.Support.History

/-!
# The steps of the elimination stack

* `Inv`: the history is legal and leads to the linked stack. A node in a slot has not taken effect
  yet;
* `Kept`: what the steps of the others keep. A node that has been pushed keeps its link, and a node
  in the slot of a thread is taken out by a pop that records both operations;
* `Private`: a push whose node is known to nobody else, and `Private.later`: this is stable.
-/

namespace StackElimination

open AtomicProg Lifo

/-- The invariant. -/
structure Inv (calls : List Call) (s : Memory) : Prop where
  legal : ∃ st, run s.hist = some st ∧ Path s.next s.top st
  ops : (s.hist.map Event.op).Nodup
  pushes : ∀ a n, .push a n ∈ s.hist → n < s.fresh ∧ s.pusher n = a
  pops : ∀ a n, .pop a n ∈ s.hist → calls[a]? = some .delete
  misses : ∀ a, .empty a ∈ s.hist → calls[a]? = some .delete
  slots : ∀ t n, s.slot t = some n → n < s.fresh ∧ s.home n = t ∧ ∀ e ∈ s.hist, e.op ≠ s.pusher n
  nodes : ∀ n < s.fresh, calls[s.pusher n]? = some (.insert (s.val n))
  inj : ∀ n < s.fresh, ∀ m < s.fresh, s.pusher n = s.pusher m → n = m

/-- What the steps of the others keep for the owner `o`. -/
structure Kept (o : Owner) (s s' : Memory) : Prop where
  hist : s.hist <+: s'.hist
  fresh : s.fresh ≤ s'.fresh
  val : ∀ n < s.fresh, s'.val n = s.val n
  pusher : ∀ n < s.fresh, s'.pusher n = s.pusher n
  home : ∀ n < s.fresh, s'.home n = s.home n
  next : ∀ a n, .push a n ∈ s.hist → s'.next n = s.next n
  ownNodes : ∀ a, o = .op a → ∀ n < s'.fresh, s'.pusher n = a → n < s.fresh
  ownNext : ∀ a, o = .op a → ∀ n < s.fresh, s.pusher n = a → s'.next n = s.next n
  ownSlot : ∀ a, o = .op a → ∀ t n, s'.slot t = some n → s'.pusher n = a → s.slot t = some n ∧
    s.pusher n = a
  ownEvents : ∀ a, o = .op a → ∀ e ∈ s'.hist, e.op = a →
    e ∈ s.hist ∨ ∃ t n, e = .push a n ∧ s.slot t = some n ∧ s.pusher n = a
  slotNone : ∀ t, o = .thread t → s.slot t = none → s'.slot t = none
  slotSome : ∀ t, o = .thread t → ∀ n, s.slot t = some n →
    s'.slot t = some n ∨ s'.slot t = none ∧ ∃ a, .push a n ∈ s'.hist

theorem Kept.refl (o : Owner) (s : Memory) : Kept o s s where
  hist := List.prefix_refl _
  fresh := le_rfl
  val _ _ := rfl
  pusher _ _ := rfl
  home _ _ := rfl
  next _ _ _ := rfl
  ownNodes _ _ _ hn _ := hn
  ownNext _ _ _ _ _ := rfl
  ownSlot _ _ _ _ h hp := ⟨h, hp⟩
  ownEvents _ _ _ he _ := .inl he
  slotNone _ _ h := h
  slotSome _ _ _ h := .inl h

theorem Kept.trans {o : Owner} {s s' s'' : Memory} (h : Kept o s s') (h' : Kept o s' s'') :
    Kept o s s'' where
  hist := h.hist.trans h'.hist
  fresh := h.fresh.trans h'.fresh
  val n hn := (h'.val n (hn.trans_le h.fresh)).trans (h.val n hn)
  pusher n hn := (h'.pusher n (hn.trans_le h.fresh)).trans (h.pusher n hn)
  home n hn := (h'.home n (hn.trans_le h.fresh)).trans (h.home n hn)
  next a n hn := (h'.next a n (h.hist.mem hn)).trans (h.next a n hn)
  ownNodes a ho n hn hp := by
    have hn' := h'.ownNodes a ho n hn hp
    exact h.ownNodes a ho n hn' ((h'.pusher n hn').symm.trans hp)
  ownNext a ho n hn hp :=
    (h'.ownNext a ho n (hn.trans_le h.fresh) ((h.pusher n hn).trans hp)).trans
      (h.ownNext a ho n hn hp)
  ownSlot a ho t n ht hp := by
    obtain ⟨ht', hp'⟩ := h'.ownSlot a ho t n ht hp
    exact h.ownSlot a ho t n ht' hp'
  ownEvents a ho e he hop := by
    rcases h'.ownEvents a ho e he hop with he' | ⟨t, n, rfl, ht, hp⟩
    · exact h.ownEvents a ho e he' hop
    · obtain ⟨ht', hp'⟩ := h.ownSlot a ho t n ht hp
      exact .inr ⟨t, n, rfl, ht', hp'⟩
  slotNone t ho ht := h'.slotNone t ho (h.slotNone t ho ht)
  slotSome t ho n ht := by
    rcases h.slotSome t ho n ht with ht' | ⟨ht', a, ha⟩
    · exact h'.slotSome t ho n ht'
    · exact .inr ⟨h'.slotNone t ho ht', a, h'.hist.mem ha⟩

/-- A call that has made no node and has not taken effect. -/
structure Blank (op : ℕ) (s : Memory) : Prop where
  nodes : ∀ n < s.fresh, s.pusher n ≠ op
  events : ∀ e ∈ s.hist, e.op ≠ op
  slots : ∀ t n, s.slot t = some n → s.pusher n ≠ op

/-- The rules that all threads keep to. -/
def regime : Regime Call Memory Unit where
  inv calls x := Inv calls x.1
  frame o x x' := Kept o x.1 x'.1
  fresh n x := Blank n x.1
  assume _ _ := True
  refl o x := .refl o x.1
  trans _ _ _ _ := Kept.trans
  inv_call calls call x h := by
    have hmono : ∀ {o : ℕ} {c : Call}, calls[o]? = some c → (calls ++ [call])[o]? = some c := by
      intro o c hc
      rwa [List.getElem?_append_left (List.getElem?_eq_some_iff.1 hc).1]
    exact ⟨h.legal, h.ops, h.pushes, fun a n hn => hmono (h.pops a n hn),
      fun a ha => hmono (h.misses a ha),
      h.slots, fun n hn => hmono (h.nodes n hn), h.inj⟩
  fresh_later n _ _ h hn := by
    refine ⟨fun m hm hp => ?_, fun e he hop => ?_, fun t m ht hp => ?_⟩
    · have hm' := h.ownNodes n rfl m hm hp
      exact hn.nodes m hm' ((h.pusher m hm').symm.trans hp)
    · rcases h.ownEvents n rfl e he hop with he' | ⟨t, m, -, ht, hp⟩
      · exact hn.events e he' hop
      · exact hn.slots t m ht hp
    · obtain ⟨ht', hp'⟩ := h.ownSlot n rfl t m ht hp
      exact hn.slots t m ht' hp'

namespace Inv

variable {calls : List Call} {s : Memory} {st : List ℕ} {n m : ℕ} {c : Caller}

theorem exists_push (hrun : run s.hist = some st) (hn : n ∈ st) : ∃ a, .push a n ∈ s.hist :=
  mem_pushed.1 ((run_perm hrun).mem_iff.2 (List.mem_append_left _ hn))

theorem init : Inv [] initial where
  legal := ⟨[], rfl, rfl⟩
  ops := List.nodup_nil
  pushes := nofun
  pops := nofun
  misses := nofun
  slots := nofun
  nodes := nofun
  inj := nofun

/-- The node of a call. -/
structure Mine (c : Caller) (n : ℕ) (s : Memory) : Prop where
  lt : n < s.fresh
  pusher : s.pusher n = c.op
  home : s.home n = c.thread

/-- A push whose node is known to nobody else. -/
structure Private (c : Caller) (n : ℕ) (s : Memory) : Prop extends Mine c n s where
  slot : s.slot c.thread = none
  events : ∀ e ∈ s.hist, e.op ≠ c.op

theorem Private.notPushed (hp : Private c n s) (h : Inv calls s) (a : ℕ) : .push a n ∉ s.hist :=
  fun hn =>
  hp.events _ hn ((h.pushes a n hn).2.symm.trans hp.pusher)

/-- No slot holds a node of the call. -/
theorem Private.pusher_ne (hp : Private c n s) (h : Inv calls s) {t : ℕ} (ht : s.slot t = some m) :
    s.pusher m ≠ c.op := by
  intro hop
  obtain ⟨hm, hhome, -⟩ := h.slots t m ht
  obtain rfl := h.inj m hm n hp.lt (hop.trans hp.pusher.symm)
  have htt : t = c.thread := hhome.symm.trans hp.home
  rw [htt, hp.slot] at ht
  cases ht

theorem create (h : Inv calls s) {val : ℤ} (hcall : calls[c.op]? = some (.insert val))
    (hb : Blank c.op s) :
    Inv calls (s.create c val) := by
  have hself : Function.update s.pusher s.fresh c.op s.fresh = c.op := Function.update_self ..
  have hold : ∀ m < s.fresh, Function.update s.pusher s.fresh c.op m = s.pusher m := fun m hm =>
    Function.update_of_ne hm.ne _ _
  have hcases : ∀ {m}, m < s.fresh + 1 → m = s.fresh ∨ m < s.fresh := fun hm => by omega
  obtain ⟨st, hrun, hpath⟩ := h.legal
  refine ⟨⟨st, hrun, hpath.congr fun m hm => ?_⟩, h.ops, fun a m hm => ?_, h.pops, h.misses,
    fun t m ht => ?_,
    fun m hm => ?_, fun m hm k hk he => ?_⟩
  · obtain ⟨a, ha⟩ := exists_push hrun hm
    exact Function.update_of_ne (h.pushes a m ha).1.ne _ _
  · obtain ⟨hlt, hp⟩ := h.pushes a m hm
    exact ⟨hlt.trans (Nat.lt_succ_self _), (hold m hlt).trans hp⟩
  · obtain ⟨hlt, hhome, hev⟩ := h.slots t m ht
    refine ⟨hlt.trans (Nat.lt_succ_self _), (Function.update_of_ne hlt.ne _ _).trans hhome,
      fun e he => ?_⟩
    show e.op ≠ Function.update s.pusher s.fresh c.op m
    rw [hold m hlt]
    exact hev e he
  · show calls[Function.update s.pusher s.fresh c.op m]? = some
      (.insert (Function.update s.val s.fresh val m))
    rcases hcases hm with rfl | hm
    · rw [hself, Function.update_self]
      exact hcall
    · rw [hold m hm, Function.update_of_ne hm.ne]
      exact h.nodes m hm
  · have he : Function.update s.pusher s.fresh c.op m =
      Function.update s.pusher s.fresh c.op k := he
    rcases hcases hm with rfl | hm
    · rcases hcases hk with rfl | hk
      · rfl
      · rw [hself, hold k hk] at he
        exact absurd he.symm (hb.nodes k hk)
    · rcases hcases hk with rfl | hk
      · rw [hself, hold m hm] at he
        exact absurd he (hb.nodes m hm)
      · rw [hold m hm, hold k hk] at he
        exact h.inj m hm k hk he

theorem setNext (h : Inv calls s) (hp : Private c n s) (next : Option ℕ) :
    Inv calls (s.setNext n next) := by
  obtain ⟨st, hrun, hpath⟩ := h.legal
  refine ⟨⟨st, hrun, hpath.congr fun m hm => ?_⟩, h.ops, h.pushes, h.pops, h.misses, h.slots,
    h.nodes, h.inj⟩
  obtain ⟨a, ha⟩ := exists_push hrun hm
  refine Function.update_of_ne ?_ _ _
  rintro rfl
  exact hp.notPushed h a ha

theorem push (h : Inv calls s) (hp : Private c n s) (hnext : s.next n = s.top) :
    Inv calls (s.push c.op n) := by
  obtain ⟨st, hrun, hpath⟩ := h.legal
  refine ⟨⟨n :: st, run_concat hrun rfl, rfl, hnext ▸ hpath⟩, nodup_map_snoc h.ops hp.events,
    fun a m hm => ?_,
    fun a m hm => ?_, fun a ha => ?_, fun t m ht => ?_, h.nodes, h.inj⟩
  · rcases List.mem_append.1 hm with hm | hm
    · exact h.pushes a m hm
    · cases List.mem_singleton.1 hm
      exact ⟨hp.lt, hp.pusher⟩
  · rcases List.mem_append.1 hm with hm | hm
    · exact h.pops a m hm
    · cases List.mem_singleton.1 hm
  · rcases List.mem_append.1 ha with ha | ha
    · exact h.misses a ha
    · cases List.mem_singleton.1 ha
  · obtain ⟨hlt, hhome, hev⟩ := h.slots t m ht
    refine ⟨hlt, hhome, fun e he => ?_⟩
    rcases List.mem_append.1 he with he | he
    · exact hev e he
    · rw [List.mem_singleton.1 he]
      exact (hp.pusher_ne h ht).symm

theorem park (h : Inv calls s) (hp : Private c n s) : Inv calls (s.setSlot c.thread (some n)) := by
  refine ⟨h.legal, h.ops, h.pushes, h.pops, h.misses, fun t m ht => ?_, h.nodes, h.inj⟩
  have ht : Function.update s.slot c.thread (some n) t = some m := ht
  by_cases hc : t = c.thread
  · subst hc
    rw [Function.update_self] at ht
    cases ht
    refine ⟨hp.lt, hp.home, fun e he => ?_⟩
    show e.op ≠ s.pusher n
    rw [hp.pusher]
    exact hp.events e he
  · rw [Function.update_of_ne hc] at ht
    exact h.slots t m ht

theorem clear (h : Inv calls s) (t : ℕ) : Inv calls (s.setSlot t none) := by
  refine ⟨h.legal, h.ops, h.pushes, h.pops, h.misses, fun u m hu => ?_, h.nodes, h.inj⟩
  have hu : Function.update s.slot t none u = some m := hu
  by_cases hc : u = t
  · subst hc
    rw [Function.update_self] at hu
    cases hu
  · rw [Function.update_of_ne hc] at hu
    exact h.slots u m hu

/-- The node in a slot is that of a push. -/
theorem pusher_ne (h : Inv calls s) (hcall : calls[c.op]? = some .delete) {t : ℕ}
    (ht : s.slot t = some n) :
    s.pusher n ≠ c.op := by
  intro heq
  have hnode := h.nodes n (h.slots t n ht).1
  rw [heq, hcall] at hnode
  cases hnode

/-- One more operation of a pop. -/
theorem of_pop (h : Inv calls s) (hcall : calls[c.op]? = some .delete)
    (hev : ∀ e ∈ s.hist, e.op ≠ c.op) {top : Option ℕ} {e : Event}
    (he : e = .pop c.op n ∨ e = .empty c.op) {st' : List ℕ} (hrun : run (s.hist ++ [e]) = some st')
    (hpath : Path s.next top st') :
    Inv calls { s with top := top, hist := s.hist ++ [e] } := by
  have hop : e.op = c.op := by
    rcases he with rfl | rfl <;> rfl
  refine ⟨⟨st', hrun, hpath⟩, nodup_map_snoc h.ops (hop ▸ hev), fun a m hm => ?_, fun a m hm => ?_,
    fun a ha => ?_,
    fun t m ht => ?_, h.nodes, h.inj⟩
  · rcases List.mem_append.1 hm with hm | hm
    · exact h.pushes a m hm
    · rcases he with rfl | rfl <;> cases List.mem_singleton.1 hm
  · rcases List.mem_append.1 hm with hm | hm
    · exact h.pops a m hm
    · have ha : a = c.op := by
        rw [← hop, ← List.mem_singleton.1 hm]
        rfl
      rw [ha]
      exact hcall
  · rcases List.mem_append.1 ha with ha | ha
    · exact h.misses a ha
    · have ha : a = c.op := by
        rw [← hop, ← List.mem_singleton.1 ha]
        rfl
      rw [ha]
      exact hcall
  · obtain ⟨hlt, hhome, hev'⟩ := h.slots t m ht
    refine ⟨hlt, hhome, fun e' he' => ?_⟩
    rcases List.mem_append.1 he' with he' | he'
    · exact hev' e' he'
    · rw [List.mem_singleton.1 he', hop]
      exact (h.pusher_ne hcall ht).symm

theorem pop (h : Inv calls s) (hcall : calls[c.op]? = some .delete)
    (hev : ∀ e ∈ s.hist, e.op ≠ c.op) (htop : s.top = some n) :
    Inv calls (s.pop c.op n (s.next n)) := by
  obtain ⟨st, hrun, hpath⟩ := h.legal
  cases st with
  | nil =>
    rw [htop] at hpath
    cases hpath
  | cons m st =>
    obtain ⟨htop', hrest⟩ := hpath
    obtain rfl : n = m := Option.some.inj (htop.symm.trans htop')
    exact h.of_pop hcall hev (.inl rfl) (run_concat hrun (if_pos rfl)) hrest

theorem miss (h : Inv calls s) (hcall : calls[c.op]? = some .delete)
    (hev : ∀ e ∈ s.hist, e.op ≠ c.op) (htop : s.top = none) : Inv calls (s.miss c.op) := by
  obtain ⟨st, hrun, hpath⟩ := h.legal
  cases st with
  | nil => exact h.of_pop (n := 0) hcall hev (.inr rfl) (run_concat hrun rfl) hpath
  | cons m st =>
    rw [htop] at hpath
    cases hpath.1

/-- A push and a pop take effect, one after the other. -/
theorem eliminate (h : Inv calls s) (hcall : calls[c.op]? = some .delete)
    (hev : ∀ e ∈ s.hist, e.op ≠ c.op) {t : ℕ} (ht : s.slot t = some n) :
    Inv calls (s.eliminate c.op t n) := by
  obtain ⟨st, hrun, hpath⟩ := h.legal
  obtain ⟨hlt, hhome, hev'⟩ := h.slots t n ht
  have hne := h.pusher_ne hcall ht
  have hassoc : s.hist ++ [.push (s.pusher n) n, .pop c.op n] = s.hist ++ [.push (s.pusher n) n] ++
    [.pop c.op n] := by
    rw [List.append_assoc]
    rfl
  have hmem : ∀ {e}, e ∈ s.hist ++ [.push (s.pusher n) n, .pop c.op n] →
      e ∈ s.hist ∨ e = .push (s.pusher n) n ∨ e = .pop c.op n := by
    intro e he
    rcases List.mem_append.1 he with he | he
    · exact .inl he
    · simp only [List.mem_cons, List.not_mem_nil, or_false] at he
      exact .inr he
  refine ⟨⟨st, ?_, hpath⟩, ?_, fun a m hm => ?_, fun a m hm => ?_, fun a ha => ?_, fun u m hu => ?_,
    h.nodes, h.inj⟩
  · show run (s.hist ++ [.push (s.pusher n) n, .pop c.op n]) = some st
    rw [hassoc]
    have hpush : run (s.hist ++ [.push (s.pusher n) n]) = some (n :: st) := run_concat hrun rfl
    exact run_concat hpush (if_pos rfl)
  · show ((s.hist ++ [Event.push (s.pusher n) n, .pop c.op n]).map Event.op).Nodup
    rw [hassoc]
    refine nodup_map_snoc (nodup_map_snoc (a := Event.push (s.pusher n) n) h.ops hev')
      fun e he => ?_
    rcases List.mem_append.1 he with he | he
    · exact hev e he
    · rw [List.mem_singleton.1 he]
      exact hne
  · rcases hmem hm with hm | hm | hm
    · exact h.pushes a m hm
    · cases hm
      exact ⟨hlt, rfl⟩
    · cases hm
  · rcases hmem hm with hm | hm | hm
    · exact h.pops a m hm
    · cases hm
    · cases hm
      exact hcall
  · rcases hmem ha with ha | ha | ha
    · exact h.misses a ha
    · cases ha
    · cases ha
  · have hu : Function.update s.slot t none u = some m := hu
    by_cases htu : u = t
    · subst htu
      rw [Function.update_self] at hu
      cases hu
    · rw [Function.update_of_ne htu] at hu
      obtain ⟨hlt', hhome', hev''⟩ := h.slots u m hu
      refine ⟨hlt', hhome', fun e he => ?_⟩
      rcases hmem he with he | he | he
      · exact hev'' e he
      · -- two slots hold nodes of two calls
        rw [he]
        intro hop
        have hop : s.pusher n = s.pusher m := hop
        obtain rfl := h.inj n hlt m hlt' hop
        exact htu (hhome'.symm.trans hhome)
      · rw [he]
        exact (h.pusher_ne hcall hu).symm

/-- What is popped has been pushed. -/
theorem pop_lt (h : Inv calls s) {a : ℕ} (hn : .pop a n ∈ s.hist) : n < s.fresh := by
  obtain ⟨st, hrun, -⟩ := h.legal
  have hmem : n ∈ popped s.hist := mem_popped.2 ⟨a, hn⟩
  obtain ⟨b, hb⟩ := mem_pushed.1 ((run_perm hrun).mem_iff.2 (List.mem_append_right _ hmem))
  exact (h.pushes b n hb).1

/-- The top has been pushed. -/
theorem push_of_top (h : Inv calls s) (htop : s.top = some n) : ∃ a, .push a n ∈ s.hist := by
  obtain ⟨st, hrun, hpath⟩ := h.legal
  cases st with
  | nil =>
    rw [htop] at hpath
    cases hpath
  | cons m st =>
    obtain rfl : n = m := Option.some.inj (htop.symm.trans hpath.1)
    exact exists_push hrun (List.mem_cons_self ..)

end Inv

/-! ### What the steps of one thread leave to the others -/

namespace Kept

variable {calls : List Call} {s : Memory} {n : ℕ} {c : Caller} {o : Owner}

theorem create (h : Inv calls s) (ho : ¬ c.Is o) (val : ℤ) : Kept o s (s.create c val) where
  hist := List.prefix_refl _
  fresh := Nat.le_succ _
  val _ hm := Function.update_of_ne hm.ne _ _
  pusher _ hm := Function.update_of_ne hm.ne _ _
  home _ hm := Function.update_of_ne hm.ne _ _
  next a m hm := Function.update_of_ne (h.pushes a m hm).1.ne _ _
  ownNodes a ha m hm hp := by
    have hp : Function.update s.pusher s.fresh c.op m = a := hp
    have hm : m < s.fresh + 1 := hm
    by_cases hne : m = s.fresh
    · subst hne
      rw [Function.update_self] at hp
      exact absurd hp.symm (op_ne ho ha)
    · omega
  ownNext _ _ _ hm _ := Function.update_of_ne hm.ne _ _
  ownSlot _ _ t m ht hp := ⟨ht, (Function.update_of_ne (h.slots t m ht).1.ne _ _).symm.trans hp⟩
  ownEvents _ _ _ he _ := .inl he
  slotNone _ _ ht := ht
  slotSome _ _ _ ht := .inl ht

theorem setNext (h : Inv calls s) (hp : Inv.Private c n s) (ho : ¬ c.Is o) (next : Option ℕ) :
    Kept o s (s.setNext n next) where
  hist := List.prefix_refl _
  fresh := le_rfl
  val _ _ := rfl
  pusher _ _ := rfl
  home _ _ := rfl
  next a m hm := by
    refine Function.update_of_ne ?_ _ _
    rintro rfl
    exact hp.notPushed h a hm
  ownNodes _ _ _ hm _ := hm
  ownNext a ha m _ hpm := by
    refine Function.update_of_ne ?_ _ _
    rintro rfl
    exact op_ne ho ha (hpm.symm.trans hp.pusher)
  ownSlot _ _ _ _ ht hp := ⟨ht, hp⟩
  ownEvents _ _ _ he _ := .inl he
  slotNone _ _ ht := ht
  slotSome _ _ _ ht := .inl ht

/-- The operation of the call takes effect. -/
theorem event (ho : ¬ c.Is o) {e : Event} (he : e.op = c.op) (top : Option ℕ) :
    Kept o s { s with top := top, hist := s.hist ++ [e] } where
  hist := List.prefix_append _ _
  fresh := le_rfl
  val _ _ := rfl
  pusher _ _ := rfl
  home _ _ := rfl
  next _ _ _ := rfl
  ownNodes _ _ _ hm _ := hm
  ownNext _ _ _ _ _ := rfl
  ownSlot _ _ _ _ ht hp := ⟨ht, hp⟩
  ownEvents a ha e' he' hop := by
    rcases List.mem_append.1 he' with he' | he'
    · exact .inl he'
    · rw [List.mem_singleton.1 he', he] at hop
      exact absurd hop.symm (op_ne ho ha)
  slotNone _ _ ht := ht
  slotSome _ _ _ ht := .inl ht

/-- The calling thread puts its node into its slot, or takes it out. -/
theorem setSlot (ho : ¬ c.Is o) {x : Option ℕ} (hx : ∀ m, x = some m → s.pusher m = c.op) :
    Kept o s (s.setSlot c.thread x) where
  hist := List.prefix_refl _
  fresh := le_rfl
  val _ _ := rfl
  pusher _ _ := rfl
  home _ _ := rfl
  next _ _ _ := rfl
  ownNodes _ _ _ hm _ := hm
  ownNext _ _ _ _ _ := rfl
  ownSlot a ha t m ht hp := by
    refine ⟨?_, hp⟩
    have ht : Function.update s.slot c.thread x t = some m := ht
    by_cases htc : t = c.thread
    · subst htc
      rw [Function.update_self] at ht
      have hca : c.op = a := (hx m ht).symm.trans hp
      exact absurd hca.symm (op_ne ho ha)
    · rwa [Function.update_of_ne htc] at ht
  ownEvents _ _ _ he _ := .inl he
  slotNone t ht h := by
    have htc := thread_ne ho ht
    exact (Function.update_of_ne htc _ _).trans h
  slotSome t ht m h := by
    have htc := thread_ne ho ht
    exact .inl ((Function.update_of_ne htc _ _).trans h)

theorem eliminate (ho : ¬ c.Is o) {t : ℕ} (ht : s.slot t = some n) :
    Kept o s (s.eliminate c.op t n) where
  hist := List.prefix_append _ _
  fresh := le_rfl
  val _ _ := rfl
  pusher _ _ := rfl
  home _ _ := rfl
  next _ _ _ := rfl
  ownNodes _ _ _ hm _ := hm
  ownNext _ _ _ _ _ := rfl
  ownSlot a _ u m hu hp := by
    refine ⟨?_, hp⟩
    have hu : Function.update s.slot t none u = some m := hu
    by_cases hut : u = t
    · subst hut
      rw [Function.update_self] at hu
      cases hu
    · rwa [Function.update_of_ne hut] at hu
  ownEvents a ha e he hop := by
    rcases List.mem_append.1 he with he | he
    · exact .inl he
    · simp only [List.mem_cons, List.not_mem_nil, or_false] at he
      rcases he with rfl | rfl
      · obtain rfl : s.pusher n = a := hop
        exact .inr ⟨t, n, rfl, ht, rfl⟩
      · exact absurd hop.symm (op_ne ho ha)
  slotNone u _ hu := by
    show Function.update s.slot t none u = none
    by_cases hut : u = t
    · subst hut
      rw [Function.update_self]
    · rwa [Function.update_of_ne hut]
  slotSome u _ m hu := by
    show Function.update s.slot t none u = some m ∨ Function.update s.slot t none u = none ∧ _
    by_cases hut : u = t
    · subst hut
      obtain rfl : n = m := Option.some.inj (ht.symm.trans hu)
      refine .inr ⟨Function.update_self .., s.pusher n,
        List.mem_append_right _ (List.mem_cons_self ..)⟩
    · exact .inl ((Function.update_of_ne hut _ _).trans hu)

end Kept

/-! ### What a call knows while others take steps -/

section Later

variable {calls : List Call} {s s' : Memory} {n : ℕ} {c : Caller} {o : Owner}

theorem Inv.Mine.later (h : Inv.Mine c n s) (hk : Kept o s s') : Inv.Mine c n s' where
  lt := h.lt.trans_le hk.fresh
  pusher := (hk.pusher n h.lt).trans h.pusher
  home := (hk.home n h.lt).trans h.home

theorem Inv.Private.later (h : Inv.Private c n s) (hi : Inv calls s) (hop : Kept (.op c.op) s s')
    (ht : Kept (.thread c.thread) s s') : Inv.Private c n s' where
  toMine := h.toMine.later hop
  slot := ht.slotNone c.thread rfl h.slot
  events e he heq := by
    rcases hop.ownEvents c.op rfl e he heq with he' | ⟨t, m, -, hm, hp⟩
    · exact h.events e he' heq
    · exact h.pusher_ne hi hm hp

/-- A pop that has not taken effect. -/
theorem quiet_later (h : ∀ e ∈ s.hist, e.op ≠ c.op) (hi : Inv calls s)
    (hcall : calls[c.op]? = some .delete) (hop : Kept (.op c.op) s s') :
    ∀ e ∈ s'.hist, e.op ≠ c.op := by
  intro e he heq
  rcases hop.ownEvents c.op rfl e he heq with he' | ⟨t, m, -, hm, hp⟩
  · exact h e he' heq
  · exact hi.pusher_ne hcall hm hp

end Later

end StackElimination
