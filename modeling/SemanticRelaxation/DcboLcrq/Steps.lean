import SemanticRelaxation.DcboLcrq.Invariant
import SemanticRelaxation.Prog.Regime

/-!
# The steps of the LCRQ

`regime C w size good puts` is what the code of `lcrq.c` relies on and keeps, for `w` queues, where
`puts call val` says that the call enqueues `val`, and `good` is what is assumed of the memory.

* `Kept`: what the steps of the others keep for the owner `o`;
* `rings_allows`: steps that leave the rings of the queues alone;
* `ring_allows`, `silent_allows`: steps on a ring;
* `link_allows`: a ring is appended.
-/

namespace DcboLcrq

open AtomicProg Linked Segments

/-- Who has made a ring. -/
abbrev Ghost : Type := ℕ → Owner

/-- Nothing has been recorded for the call `op` from `a` to `b`. -/
structure Quiet (op : ℕ) (a b : RingQueue) : Prop where
  stored : ∀ h x, b.stored h = some x → x.1 = op → a.stored h = some x
  claims : ∀ h, b.claims h = some op → a.claims h = some op
  taken : ∀ h, b.taken h = some op → a.taken h = some op

namespace Quiet

variable {op : ℕ} {a b d : RingQueue}

theorem refl (op : ℕ) (a : RingQueue) : Quiet op a a :=
  ⟨fun _ _ h _ => h, fun _ h => h, fun _ h => h⟩

theorem trans (h : Quiet op a b) (h' : Quiet op b d) : Quiet op a d where
  stored i x hx hop := h.stored i x (h'.stored i x hx hop) hop
  claims i hc := h.claims i (h'.claims i hc)
  taken i ht := h.taken i (h'.taken i ht)

/-- The records are the same. -/
theorem of_eq (hs : b.stored = a.stored) (hc : b.claims = a.claims) (ht : b.taken = a.taken) :
    Quiet op a b :=
  ⟨fun h x hx _ => by rwa [← hs], fun h hx => by rwa [← hc], fun h hx => by rwa [← ht]⟩

end Quiet

/-- Nothing is recorded for the call `op`. -/
abbrev Idle (op : ℕ) (a : RingQueue) : Prop := Quiet op initRing a

theorem Idle.stored_ne {op : ℕ} {a : RingQueue} (h : Idle op a) {i : ℕ} {x : ℕ × ℤ}
    (hx : a.stored i = some x) : x.1 ≠ op := fun e => by cases h.stored i x hx e

theorem Idle.claims_ne {op : ℕ} {a : RingQueue} (h : Idle op a) (i : ℕ) : a.claims i ≠ some op :=
  fun e => by cases h.claims i e

/-- The call `op` has left nothing in the rings of the queues. -/
def Untouched (w op : ℕ) (s : Memory) : Prop := ∀ q < w, ∀ n ∈ s.line q, Idle op (s.ring n)

theorem Untouched.unplaced {w op : ℕ} {s : Memory} (h : Untouched w op s) : Unplaced w op s :=
  fun q hq n hn _ _ hx => (h q hq n hn).stored_ne hx

/-- What the steps of the others keep for the owner `o`. -/
structure Kept (w size : ℕ) (o : Owner) (x x' : Memory × Ghost) : Prop where
  nodes : Frame (fun _ _ => True) w o x.1.chain x.2 x'.1.chain x'.2
  rings : ∀ q < w, ∀ n ∈ x.1.line q, Evolves size (x.1.ring n) (x'.1.ring n)
  misled : x.1.misled = true → x'.1.misled = true
  own : ∀ op, o = .op op → ∀ q < w, ∀ n ∈ x'.1.line q,
    n ∈ x.1.line q ∧ Quiet op (x.1.ring n) (x'.1.ring n) ∨ Idle op (x'.1.ring n)

variable {w size q p n : ℕ} {o : Owner} {x x' x'' : Memory × Ghost}

theorem Kept.grown (h : Kept w size o x x') : Grown w size x.1 x'.1 :=
  ⟨h.nodes.grows, h.rings, h.misled⟩

theorem Kept.refl (w size : ℕ) (o : Owner) (x : Memory × Ghost) : Kept w size o x x where
  nodes := .refl (fun _ => True.intro) o _ _
  rings _ _ _ _ := .refl size _
  misled := id
  own op _ _ _ _ hn := .inl ⟨hn, .refl op _⟩

theorem Kept.trans (h : Kept w size o x x') (h' : Kept w size o x' x'') : Kept w size o x x'' where
  nodes := h.nodes.trans (fun _ _ _ _ _ => True.intro) h'.nodes
  rings := (h.grown.trans h'.grown).rings
  misled := h'.misled ∘ h.misled
  own op ho q hq n hn := by
    rcases h'.own op ho q hq n hn with ⟨hn', hquiet⟩ | hidle
    · rcases h.own op ho q hq n hn' with ⟨hn, hq'⟩ | hidle
      · exact .inl ⟨hn, hq'.trans hquiet⟩
      · exact .inr (Quiet.trans hidle hquiet)
    · exact .inr hidle

theorem Untouched.kept {op : ℕ} (h : Untouched w op x.1) (hk : Kept w size (.op op) x x') :
    Untouched w op x'.1 := by
  intro q hq n hn
  rcases hk.own op rfl q hq n hn with ⟨hn', hquiet⟩ | hidle
  · exact (h q hq n hn').trans hquiet
  · exact hidle

/-- A step that leaves the rings of the queues alone. -/
theorem Kept.of_rings (hn : Frame (fun _ _ => True) w o x.1.chain x.2 x'.1.chain x'.2)
    (hline : ∀ q, x'.1.line q = x.1.line q)
    (hring : ∀ q < w, ∀ n ∈ x.1.line q, x'.1.ring n = x.1.ring n)
    (hm : x.1.misled = true → x'.1.misled = true) : Kept w size o x x' where
  nodes := hn
  rings q hq n hn := by
    rw [hring q hq n hn]
    exact .refl size _
  misled := hm
  own op _ q hq n hn := by
    rw [hline] at hn
    rw [hring q hq n hn]
    exact .inl ⟨hn, .refl op _⟩

/-- The rules that all threads keep to. -/
def regime (C : Type) (w size : ℕ) (good : Memory → Prop) (puts : C → ℤ → Prop) :
    Regime C Memory Ghost where
  inv calls x := Inv w size x.1 ∧ good x.1 ∧ ∀ q < w, ∀ n ∈ x.1.line q, ∀ h op val,
    (x.1.ring n).stored h = some (op, val) → ∃ call, calls[op]? = some call ∧ puts call val
  frame := Kept w size
  fresh op x := Untouched w op x.1
  assume _ s' := good s'
  refl := Kept.refl w size
  trans _ _ _ _ := Kept.trans
  inv_call calls call x h := by
    refine ⟨h.1, h.2.1, fun q hq n hn i op val hx => ?_⟩
    obtain ⟨c, hc, hp⟩ := h.2.2 q hq n hn i op val hx
    have hlt := (List.getElem?_eq_some_iff.1 hc).1
    exact ⟨c, by rwa [List.getElem?_append_left hlt], hp⟩
  fresh_later _ _ _ hk h := h.kept hk

variable {L : Type} {S : Service Memory L} {good : Memory → Prop} {puts : S.Call → ℤ → Prop}
  {E : Results S (regime S.Call w size good puts)} {c : Caller} {v v₁ v₂ : View E.protocol c}

theorem inv_of (v : View E.protocol c) : Inv w size v.state := v.inv_pair.1

theorem good_of (v : View E.protocol c) : good v.state := v.inv_pair.2.1

theorem grown_since (h : Since v v₁) : Grown w size v.state v₁.state := h.frame.grown

theorem grown_of_le (h : v ≤ v₁) : Grown w size v.state v₁.state := grown_since (.of_le h)

theorem not_op {o : Owner} (ho : ¬ c.Is o) : o ≠ .op c.op := fun e => ho (e ▸ rfl)

theorem not_thread {o : Owner} (ho : ¬ c.Is o) : o ≠ .thread c.thread := fun e => ho (e ▸ rfl)

/-- What a step stores has to be what its call enqueues. -/
theorem allows {s : Memory} {g : Ghost} (hi : Inv w size s) (hg : good s)
    (hold : ∀ q < w, ∀ n ∈ s.line q, ∀ h op val, (s.ring n).stored h = some (op, val) →
      n ∈ v.state.line q ∧ (v.state.ring n).stored h = some (op, val) ∨
        op = c.op ∧ ∃ call, v.now.1.calls[c.op]? = some call ∧ puts call val)
    (hk : ∀ o, ¬ c.Is o → Kept w size o v.pair (s, g)) :
    E.protocol.Allows c v.now (v.after s g) := by
  refine Regime.allows v ⟨hi, hg, fun q hq n hn h op val hx => ?_⟩ hk
  rcases hold q hq n hn h op val hx with ⟨hn', hx'⟩ | ⟨rfl, hc⟩
  · exact v.inv_pair.2.2 q hq n hn' h op val hx'
  · exact hc

/-- A step that leaves the rings of the queues alone. -/
theorem rings_allows {s : Memory} {g : Ghost} (hi : Inv w size s) (hg : good s)
    (hline : ∀ q, s.line q = v.state.line q)
    (hring : ∀ q < w, ∀ n ∈ v.state.line q, s.ring n = v.state.ring n)
    (hm : v.state.misled = true → s.misled = true)
    (hk : ∀ o, ¬ c.Is o → Frame (fun _ _ => True) w o v.state.chain v.now.2 s.chain g) :
    E.protocol.Allows c v.now (v.after s g) := by
  refine allows hi hg (fun q hq n hn h op val hx => ?_) fun o ho =>
    .of_rings (x := v.pair) (hk o ho) hline hring hm
  rw [hline] at hn
  rw [hring q hq n hn] at hx
  exact .inl ⟨hn, hx⟩

/-- A step on a ring of queue `q`; only the call itself may be recorded. -/
theorem ring_allows (hq : q < w) (hn : n ∈ v.state.line q) {f : RingQueue → RingQueue}
    (hf : RingInv size (f (v.state.ring n)) ∧ Evolves size (v.state.ring n) (f (v.state.ring n)))
    (hg : good (v.state.onRing n f)) (t : ℕ)
    (hst : ∀ h x, (f (v.state.ring n)).stored h = some x → (v.state.ring n).stored h = some x ∨
      h = t ∧ x.1 = c.op ∧ Unplaced w c.op v.state ∧
        ∃ call, v.now.1.calls[c.op]? = some call ∧ puts call x.2)
    (hquiet : ∀ op, op ≠ c.op → Quiet op (v.state.ring n) (f (v.state.ring n))) :
    E.protocol.Allows c v.now (v.after (v.state.onRing n f) v.now.2) ∧
      ∀ o, (∀ op, o = .op op → Quiet op (v.state.ring n) (f (v.state.ring n))) →
        Kept w size o v.pair (v.state.onRing n f, v.now.2) := by
  have hring := v.state.ring_onRing n f
  have hk : ∀ o, (∀ op, o = .op op → Quiet op (v.state.ring n) (f (v.state.ring n))) →
      Kept w size o v.pair (v.state.onRing n f, v.now.2) := by
    refine fun o ho => ⟨.modify (fun _ => True.intro) True.intro fun _ hu => hu.notMem q hq hn,
      fun j hj k hk => ?_, id, fun op hop j hj k hk => .inl ⟨hk, ?_⟩⟩
    · show Evolves size (v.state.ring k) ((v.state.onRing n f).ring k)
      rw [hring]
      split
      next e => exact e ▸ hf.2
      next => exact .refl size _
    · show Quiet op (v.state.ring k) ((v.state.onRing n f).ring k)
      rw [hring]
      split
      next e => exact e ▸ ho op hop
      next => exact .refl op _
  refine ⟨allows ((inv_of v).onRing hf.1 hf.2 t c.op fun h x hx => ?_) hg ?_
    fun o ho => hk o ?_, hk⟩
  · exact (hst h x hx).imp_right fun ⟨h₁, h₂, h₃, _⟩ => ⟨h₁, h₂, h₃⟩
  · intro j hj k hk h op val hx
    rw [hring] at hx
    split at hx
    next e =>
      subst e
      rcases hst h _ hx with hx | ⟨-, hop, -, hcall⟩
      · exact .inl ⟨hk, hx⟩
      · exact .inr ⟨hop, hcall⟩
    next => exact .inl ⟨hk, hx⟩
  · rintro op rfl
    exact hquiet op fun e => not_op ho (e ▸ rfl)

/-- A step on a ring that records nothing. -/
theorem silent_allows (hq : q < w) (hn : n ∈ v.state.line q) {f : RingQueue → RingQueue}
    (hf : RingInv size (f (v.state.ring n)) ∧ Evolves size (v.state.ring n) (f (v.state.ring n)))
    (hg : good (v.state.onRing n f)) (hs : (f (v.state.ring n)).stored = (v.state.ring n).stored)
    (hc : (f (v.state.ring n)).claims = (v.state.ring n).claims)
    (ht : (f (v.state.ring n)).taken = (v.state.ring n).taken) :
    E.protocol.Allows c v.now (v.after (v.state.onRing n f) v.now.2) ∧
      ∀ o, Kept w size o v.pair (v.state.onRing n f, v.now.2) := by
  have hquiet : ∀ op, Quiet op (v.state.ring n) (f (v.state.ring n)) := fun op => .of_eq hs hc ht
  obtain ⟨hall, hk⟩ := ring_allows hq hn hf hg 0 (fun h x hx => .inl (by rwa [← hs]))
    fun op _ => hquiet op
  exact ⟨hall, fun o => hk o fun op _ => hquiet op⟩

/-- The call appends the ring `m` with its item behind the last ring `n`. -/
theorem link_allows (hq : q < w) {m t items : ℕ} {val : ℤ} (hn : (v.state.line q)[p]? = some n)
    (hle : p ≤ v.state.chain.tailPos q) (hnone : (v.state.chain.cells.heap n).next = none)
    (hm : Unlinked w v.state.chain.cells m) (howner : v.now.2 m = .thread c.thread)
    (hclosed : (v.state.ring n).tail.mark = true) (hval : val ≠ -1)
    (hring : v.state.ring m = initRing.prepare c.op val (items + t)) (ht : 0 < t)
    (hitems : (v.state.ring n).itemsEnqueued = items) (hop : Unplaced w c.op v.state)
    (hg : good (v.state.onChain (·.link q n m)))
    (hcall : ∃ call, v.now.1.calls[c.op]? = some call ∧ puts call val) :
    E.protocol.Allows c v.now (v.after (v.state.onChain (·.link q n m)) v.now.2) := by
  have hi := inv_of v
  have hmem : ∀ {j k : ℕ}, k ∈ (v.state.onChain (·.link q n m)).line j → k ∈ v.state.line j ∨
    k = m := by
    intro j k hk
    obtain ⟨i, hi⟩ := List.mem_iff_getElem?.1 hk
    rcases @Cells.append_entry _ v.state.chain.cells _ (some n) _ _ _ _ hi with hi | ⟨-, -, hk⟩
    · exact .inl (List.mem_of_getElem? hi)
    · exact .inr hk
  have honly : ∀ {i : ℕ} {x : ℕ × ℤ}, (v.state.ring m).stored i = some x → x = (c.op, val) := by
    intro i x hx
    rw [hring] at hx
    replace hx : Function.update (fun _ => none : ℕ → Option (ℕ × ℤ)) 0 (some (c.op, val)) i =
      some x := hx
    by_cases hi : i = 0
    · subst hi
      rw [Function.update_self] at hx
      exact (Option.some.inj hx).symm
    · rw [Function.update_of_ne hi] at hx
      cases hx
  refine allows (hi.link hq hn hle hnone hm hclosed hval hring ht hitems hop) hg ?_ fun o ho =>
    ⟨.link (fun _ => True.intro) hi.valid (howner ▸ not_thread ho) hq hn, fun j hj k hk => ?_, id,
      fun op hop' j hj k hk => ?_⟩
  · intro j hj k hk h op x hx
    rw [v.state.ring_link] at hx
    rcases hmem hk with hk | rfl
    · exact .inl ⟨hk, hx⟩
    · cases honly hx
      exact .inr ⟨rfl, hcall⟩
  · show Evolves size (v.state.ring k) ((v.state.onChain (·.link q n m)).ring k)
    rw [v.state.ring_link]
    exact .refl size _
  · show k ∈ v.state.line j ∧ Quiet op (v.state.ring k) ((v.state.onChain (·.link q n m)).ring k) ∨
      Idle op ((v.state.onChain (·.link q n m)).ring k)
    rw [v.state.ring_link]
    rcases hmem hk with hk | rfl
    · exact .inl ⟨hk, .refl op _⟩
    · refine .inr ⟨fun i y hy e => ?_, fun i hc => ?_, fun i ht => ?_⟩
      · cases honly hy
        exact absurd (hop'.trans (congrArg Owner.op e.symm)) (not_op ho)
      · rw [hring] at hc
        cases hc
      · rw [hring] at ht
        cases ht

end DcboLcrq
