import SemanticRelaxation.DcboFaaaq.Invariant
import SemanticRelaxation.Prog.Regime

/-!
# The steps of the FAAArrayQueue partial queue

`regime w puts` is what the code of `partial-faaaq.c` relies on and keeps, for `w` queues, where
`puts call q val` says that the call enqueues `val` and may do so into queue `q`.

* `Kept`: what the steps of the others keep for the owner `o`;
* `create_allows`, `setTail_allows`, `setHead_allows`, `fetchAddEnq_allows`, `put_allows`,
  `link_allows`, `claim_allows`, `swap_allows`: the steps keep to these rules.
-/

namespace DcboFaaaq

open AtomicProg Linked Segments

/-- Who has allocated a segment, and the floors of the calls. -/
abbrev Ghost : Type := (ℕ → Owner) × (ℕ → ℕ → Option ℕ)

/-- The call `op` has put its item into no slot. -/
def Unplaced (op : ℕ) (x : Memory × Ghost) : Prop := ∀ y val, x.1.stored y ≠ some (op, val)

/-- The call `op` has got no slot by fetch-and-add on a `deq_idx`. -/
def Unclaimed (w op : ℕ) (x : Memory × Ghost) : Prop := ∀ q < w, ∀ y, (y, op) ∉ x.1.claims q

/-- What the steps of the others keep for the owner `o`. -/
structure Kept (w : ℕ) (o : Owner) (x x' : Memory × Ghost) : Prop where
  nodes : Frame Evolves w o x.1.chain x.2.1 x'.1.chain x'.2.1
  claims : ∀ q, x.1.claims q <+: x'.1.claims q
  stored : ∀ y z, x.1.stored y = some z → x'.1.stored y = some z
  unstored : ∀ y, y.seg < x.1.chain.cells.fresh → x.1.stored y = none → x.1.item y = TAKEN →
    x'.1.stored y = none
  enqPos : ∀ q < w, x.1.enqPos q ≤ x'.1.enqPos q
  floor : ∀ q op F, x.2.2 q op = some F → x'.2.2 q op = some F
  newFloor : ∀ q < w, ∀ op F, x'.2.2 q op = some F → x.2.2 q op = some F ∨ x.1.enqPos q ≤ F
  ownStored : ∀ n, o = .op n → Unplaced n x → Unplaced n x'
  ownClaims : ∀ n, o = .op n → ∀ q y, (y, n) ∈ x'.1.claims q → (y, n) ∈ x.1.claims q
  untaken : ∀ n, o = .op n → ∀ q < w, ∀ y : Slot, y.seg < x.1.chain.cells.fresh →
    (y, n) ∈ x.1.claims q → x.1.item y ≠ TAKEN → x'.1.item y ≠ TAKEN
  ownFloor : ∀ n, o = .op n → ∀ q, x'.2.2 q n = x.2.2 q n

variable {w q p n : ℕ} {o : Owner} {x x' x'' : Memory × Ghost}

/-- A slot that is marked stays marked. -/
theorem Kept.marked (h : Kept w o x x') {y : Slot} (hy : y.seg < x.1.chain.cells.fresh)
    (ht : x.1.item y = TAKEN) : x'.1.item y = TAKEN := by
  have hne : x.1.item y ≠ Dcbo.EMPTY := by
    rw [ht]
    exact taken_ne_empty
  rcases (h.nodes.grows.seg y.seg hy).items y.idx hne with he | he
  · exact he.trans ht
  · exact he

theorem Kept.refl (w : ℕ) (o : Owner) (x : Memory × Ghost) : Kept w o x x where
  nodes := .refl Evolves.refl o _ _
  claims _ := List.prefix_refl _
  stored _ _ h := h
  unstored _ _ h _ := h
  enqPos _ _ := le_rfl
  floor _ _ _ h := h
  newFloor _ _ _ _ h := .inl h
  ownStored _ _ h := h
  ownClaims _ _ _ _ h := h
  untaken _ _ _ _ _ _ _ h := h
  ownFloor _ _ _ := rfl

theorem Kept.trans (h : Kept w o x x') (h' : Kept w o x' x'') : Kept w o x x'' where
  nodes := h.nodes.trans Evolves.trans h'.nodes
  claims q := (h.claims q).trans (h'.claims q)
  stored y z hy := h'.stored y z (h.stored y z hy)
  unstored y hlt hy ht := h'.unstored y (hlt.trans_le h.nodes.grows.fresh) (h.unstored y hlt hy ht)
    (h.marked hlt ht)
  enqPos q hq := (h.enqPos q hq).trans (h'.enqPos q hq)
  floor q op F hF := h'.floor q op F (h.floor q op F hF)
  newFloor q hq op F hF := by
    rcases h'.newFloor q hq op F hF with hF | hF
    · exact h.newFloor q hq op F hF
    · exact .inr ((h.enqPos q hq).trans hF)
  ownStored n ho hn := h'.ownStored n ho (h.ownStored n ho hn)
  ownClaims n ho q y hy := h.ownClaims n ho q y (h'.ownClaims n ho q y hy)
  untaken n ho q hq y hlt hy ht := h'.untaken n ho q hq y (hlt.trans_le h.nodes.grows.fresh)
    ((h.claims q).mem hy) (h.untaken n ho q hq y hlt hy ht)
  ownFloor n ho q := (h'.ownFloor n ho q).trans (h.ownFloor n ho q)

/-- A step that uses no slot. The floors that are added are not below the next slot. -/
theorem Kept.of_items {s s' : Memory} {g g' : ℕ → Owner} {f f' : ℕ → ℕ → Option ℕ}
    (hv : Valid w s.chain) (hv' : Valid w s'.chain) (hn : Frame Evolves w o s.chain g s'.chain g')
    (hclaims : s'.claims = s.claims) (hstored : s'.stored = s.stored)
    (hitem : ∀ y : Slot, y.seg < s.chain.cells.fresh → s'.item y = s.item y)
    (hfloor : ∀ q op F, f q op = some F → f' q op = some F)
    (hnew : ∀ q < w, ∀ op F, f' q op = some F → f q op = some F ∨ s.enqPos q ≤ F)
    (hown : ∀ n, o = .op n → ∀ q, f' q n = f q n) : Kept w o (s, g, f) (s', g', f') where
  nodes := hn
  claims q := by rw [show s'.claims = s.claims from hclaims]
  stored y z hy := by rwa [show s'.stored = s.stored from hstored]
  unstored y _ hy _ := by rwa [show s'.stored = s.stored from hstored]
  enqPos q hq := enqPos_mono hv hv' hn.grows hq
  floor := hfloor
  newFloor := hnew
  ownStored n _ hu y val := by
    rw [show s'.stored = s.stored from hstored]
    exact hu y val
  ownClaims n _ q y hy := by rwa [show s'.claims = s.claims from hclaims] at hy
  untaken n _ q _ y hlt _ ht := by rwa [show s'.item y = s.item y from hitem y hlt]
  ownFloor := hown

/-- The rules that all threads keep to. -/
def regime (C : Type) (w : ℕ) (puts : C → ℕ → ℤ → Prop) : Regime C Memory Ghost where
  inv calls x := Inv w x.1 x.2.2 ∧ ∀ q < w, ∀ y op val, x.1.stored y = some (op, val) →
    y.seg ∈ x.1.line q → ∃ call, calls[op]? = some call ∧ puts call q val
  frame := Kept w
  fresh n x := Unplaced n x ∧ Unclaimed w n x ∧ ∀ q, x.2.2 q n = none
  assume _ _ := True
  refl := Kept.refl w
  trans _ _ _ _ := Kept.trans
  inv_call calls call x h := by
    refine ⟨h.1, fun q hq y op val hy hm => ?_⟩
    obtain ⟨c, hc, hp⟩ := h.2 q hq y op val hy hm
    have hlt := (List.getElem?_eq_some_iff.1 hc).1
    exact ⟨c, by rwa [List.getElem?_append_left hlt], hp⟩
  fresh_later n _ _ h hn := ⟨h.ownStored n rfl hn.1,
    fun q hq y hy => hn.2.1 q hq y (h.ownClaims n rfl q y hy),
    fun q => (h.ownFloor n rfl q).trans (hn.2.2 q)⟩

variable {L : Type} {S : Service Memory L} {puts : S.Call → ℕ → ℤ → Prop}
  {E : Results S (regime S.Call w puts)} {c : Caller} {v v₁ v₂ : View E.protocol c}

theorem inv_of (v : View E.protocol c) : Inv w v.state v.now.2.2 := v.inv_pair.1

theorem grows_since (h : Since v v₁) : Grows Evolves w v.state.chain v₁.state.chain :=
  h.frame.nodes.grows

theorem grows_of_le (h : v ≤ v₁) : Grows Evolves w v.state.chain v₁.state.chain :=
  grows_since (.of_le h)

/-- A step has to keep the invariant and what belongs to others; what it stores has to be what its
call enqueues. -/
theorem allows {s : Memory} {g : Ghost} (hi : Inv w s g.2)
    (hold : ∀ q < w, ∀ y op val, s.stored y = some (op, val) → y.seg ∈ s.line q →
      v.state.stored y = some (op, val) ∧ y.seg ∈ v.state.line q ∨
        op = c.op ∧ ∃ call, v.now.1.calls[c.op]? = some call ∧ puts call q val)
    (hk : ∀ o, ¬ c.Is o → Kept w o v.pair (s, g)) :
    E.protocol.Allows c v.now (v.after s g) := by
  refine Regime.allows v ⟨hi, fun q hq y op val hy hm => ?_⟩ hk
  rcases hold q hq y op val hy hm with ⟨hy, hm⟩ | ⟨rfl, h⟩
  · exact v.inv_pair.2 q hq y op val hy hm
  · exact h

/-! ### The steps -/

theorem not_op {o : Owner} (ho : ¬ c.Is o) : o ≠ .op c.op := fun e => ho (e ▸ rfl)

theorem create_allows (y : Segment) :
    E.protocol.Allows c v.now (v.after (v.state.onChain (·.create y))
        (Function.update v.now.2.1 v.state.chain.cells.fresh (.op c.op), v.now.2.2)) ∧
      ∀ o, Kept w o v.pair (v.state.onChain (·.create y),
        Function.update v.now.2.1 v.state.chain.cells.fresh (.op c.op), v.now.2.2) := by
  have hi := inv_of v
  have hk : ∀ o, Kept w o v.pair (v.state.onChain (·.create y),
      Function.update v.now.2.1 v.state.chain.cells.fresh (.op c.op), v.now.2.2) := fun o =>
    .of_items hi.valid (hi.valid.create y) (.create Evolves.refl _ y _) rfl rfl
      (fun z hz => congrArg (fun a : Segment => a.items z.idx)
        (v.state.chain.create_seg_of_ne hz.ne y))
      (fun _ _ _ h => h) (fun _ _ _ _ h => .inl h) fun _ _ _ => rfl
  exact ⟨allows (hi.create y) (fun _ _ _ _ _ hy hm => .inl ⟨hy, hm⟩) fun o _ => hk o, hk⟩

theorem setTail_allows (hq : q < w) (hn : (v.state.line q)[v.state.chain.tailPos q + 1]? = some n) :
    E.protocol.Allows c v.now (v.after (v.state.onChain (·.setTail q n)) v.now.2) ∧
      ∀ o, Kept w o v.pair (v.state.onChain (·.setTail q n), v.now.2) := by
  have hi := inv_of v
  have hk : ∀ o, Kept w o v.pair (v.state.onChain (·.setTail q n), v.now.2) := fun o =>
    .of_items hi.valid (hi.valid.setTail hq hn)
      (.of_cells (hi.valid.setTail_grows Evolves.refl hq hn) rfl) rfl rfl (fun _ _ => rfl)
      (fun _ _ _ h => h) (fun _ _ _ _ h => .inl h) fun _ _ _ => rfl
  exact ⟨allows (hi.setTail hq hn) (fun _ _ _ _ _ hy hm => .inl ⟨hy, hm⟩) fun o _ => hk o, hk⟩

theorem setHead_allows (hq : q < w) (hn : (v.state.line q)[v.state.chain.headPos q + 1]? = some n)
    (hle : bufferSize * (v.state.chain.headPos q + 1) ≤ (v.state.claims q).length) :
    E.protocol.Allows c v.now (v.after (v.state.onChain (·.setHead q n)) v.now.2) ∧
      ∀ o, Kept w o v.pair (v.state.onChain (·.setHead q n), v.now.2) := by
  have hi := inv_of v
  have hk : ∀ o, Kept w o v.pair (v.state.onChain (·.setHead q n), v.now.2) := fun o =>
    .of_items hi.valid (hi.valid.setHead (List.mem_of_getElem? hn))
      (.of_cells (hi.valid.setHead_grows Evolves.refl hq hn (Nat.le_succ _)) rfl) rfl rfl
      (fun _ _ => rfl) (fun _ _ _ h => h) (fun _ _ _ _ h => .inl h) fun _ _ _ => rfl
  exact ⟨allows (hi.setHead hq hn hle) (fun _ _ _ _ _ hy hm => .inl ⟨hy, hm⟩) fun o _ => hk o, hk⟩

/-- The floors after the call `op` has taken an index of an enqueue of queue `q`. -/
def setFloor (f : ℕ → ℕ → Option ℕ) (q op F : ℕ) : ℕ → ℕ → Option ℕ :=
  if f q op = none then Function.update f q (Function.update (f q) op (some F)) else f

theorem setFloor_keeps {f : ℕ → ℕ → Option ℕ} {op F j o G : ℕ} (h : f j o = some G) :
    setFloor f q op F j o = some G := by
  unfold setFloor
  split
  next hnone =>
    by_cases hj : j = q
    · subst hj
      rw [Function.update_self]
      have ho : o ≠ op := by
        rintro rfl
        rw [hnone] at h
        cases h
      rwa [Function.update_of_ne ho]
    · rwa [Function.update_of_ne hj]
  next => exact h

theorem setFloor_cases {f : ℕ → ℕ → Option ℕ} {op F j o G : ℕ}
    (h : setFloor f q op F j o = some G) :
    f j o = some G ∨ j = q ∧ o = op ∧ G = F := by
  unfold setFloor at h
  split at h
  next =>
    by_cases hj : j = q
    · subst hj
      rw [Function.update_self] at h
      by_cases ho : o = op
      · subst ho
        rw [Function.update_self] at h
        exact .inr ⟨rfl, rfl, (Option.some.inj h).symm⟩
      · rw [Function.update_of_ne ho] at h
        exact .inl h
    · rw [Function.update_of_ne hj] at h
      exact .inl h
  next => exact .inl h

theorem setFloor_of_ne {f : ℕ → ℕ → Option ℕ} {op F j o : ℕ} (h : o ≠ op) :
    setFloor f q op F j o = f j o := by
  unfold setFloor
  split
  next =>
    by_cases hj : j = q
    · subst hj
      rw [Function.update_self, Function.update_of_ne h]
    · rw [Function.update_of_ne hj]
  next => rfl

/-- The call has a floor, not above the next slot. -/
theorem exists_setFloor {f : ℕ → ℕ → Option ℕ} {op F : ℕ} (h : ∀ G, f q op = some G → G ≤ F) :
    ∃ G, setFloor f q op F q op = some G ∧ G ≤ F := by
  cases hf : f q op with
  | none => exact ⟨F, by simp [setFloor, hf], le_rfl⟩
  | some G => exact ⟨G, setFloor_keeps hf, h G hf⟩

theorem modify_items {s : Memory} {n : ℕ} {f : Segment → Segment} (hf : ∀ y, (f y).items = y.items)
    (z : Slot) : (s.onChain (·.modify n f)).item z = s.item z := by
  rw [Memory.item, s.seg_modify]
  split
  next e => rw [hf, Memory.item, e]
  next => rfl

/-- The successor of an `enq_idx`. -/
def nextEnq (y : Segment) : Segment := { y with enqIdx := y.enqIdx + 1 }

/-- A fetch-and-add on the `enq_idx` of a segment of queue `q`. -/
theorem fetchAddEnq_allows (hq : q < w) (hn : (v.state.line q)[p]? = some n) :
    E.protocol.Allows c v.now (v.after (v.state.onChain (·.modify n nextEnq))
        (v.now.2.1, setFloor v.now.2.2 q c.op (v.state.enqPos q))) ∧
      ∀ o, o ≠ .op c.op → Kept w o v.pair (v.state.onChain (·.modify n nextEnq),
        v.now.2.1, setFloor v.now.2.2 q c.op (v.state.enqPos q)) := by
  have hi := inv_of v
  have hk : ∀ o, o ≠ .op c.op → Kept w o v.pair (v.state.onChain (·.modify n nextEnq),
      v.now.2.1, setFloor v.now.2.2 q c.op (v.state.enqPos q)) := fun o ho => by
    refine .of_items hi.valid (hi.valid.modify n nextEnq) (.modify Evolves.refl
        ⟨Nat.le_succ _, le_rfl, rfl, fun _ _ => .inl rfl⟩ fun _ hu => ?_) rfl rfl
      (fun z _ => modify_items (f := nextEnq) (fun _ => rfl) z) (fun _ _ _ => setFloor_keeps) ?_
      fun m hm j => setFloor_of_ne fun e => ho (hm.trans (congrArg _ e))
    · exact hu.notMem q hq (List.mem_of_getElem? hn)
    · rintro j - o' F hF
      rcases setFloor_cases hF with h | ⟨rfl, -, rfl⟩
      · exact .inl h
      · exact .inr le_rfl
  refine ⟨allows (hi.fetchAddEnq n (fun _ _ _ => setFloor_keeps) fun j hj o F hF => ?_)
    (fun _ _ _ _ _ hy hm => .inl ⟨hy, hm⟩) fun o ho => hk o (not_op ho), hk⟩
  rcases setFloor_cases hF with h | ⟨rfl, -, rfl⟩
  · exact hi.floor j hj o F h
  · exact le_rfl

/-- The call puts its item into an empty slot `y`. -/
theorem put_allows (hq : q < w) {y : Slot} {F : ℕ} {val : ℤ} {call : S.Call}
    (hn : (v.state.line q)[p]? = some y.seg) (hi : y.idx < bufferSize)
    (he : v.state.item y = Dcbo.EMPTY) (hlt : y.idx < (v.state.seg y.seg).enqIdx)
    (hval : val ≠ Dcbo.EMPTY) (hval' : val ≠ TAKEN) (hF : v.now.2.2 q c.op = some F)
    (hle : F ≤ bufferSize * p + y.idx) (hop : Unplaced c.op v.pair)
    (hcall : v.now.1.calls[c.op]? = some call) (hputs : puts call q val) :
    E.protocol.Allows c v.now (v.after (v.state.put c.op y val) v.now.2) := by
  have hinv := inv_of v
  have hnone := hinv.unstored_of_empty hq hn hi he
  have hother : ∀ z ≠ y, (v.state.put c.op y val).stored z = v.state.stored z :=
    fun z hz => Function.update_of_ne hz _ _
  have hself : (v.state.put c.op y val).stored y = some (c.op, val) := Function.update_self ..
  have hitem : ∀ z, (v.state.put c.op y val).item z = if z = y then val else v.state.item z :=
    fun z => v.state.item_setItem y z val
  have hv := hinv.put hq hn hi he hlt hval hval' hF hle hop
  have hev : Evolves (v.state.seg y.seg) { v.state.seg y.seg with
      items := Function.update (v.state.seg y.seg).items y.idx val } := by
    refine ⟨le_rfl, le_rfl, rfl, fun i hne => .inl (Function.update_of_ne ?_ _ _)⟩
    rintro rfl
    exact hne he
  have hframe : ∀ o, Frame Evolves w o v.state.chain v.now.2.1 (v.state.put c.op y val).chain
      v.now.2.1 := fun o =>
    .modify (f := fun a => { a with items := Function.update a.items y.idx val }) Evolves.refl hev
      fun _ hu => hu.notMem q hq (List.mem_of_getElem? hn)
  refine allows hv (fun j hj z o u hz hm => ?_) fun o ho => ⟨hframe o, fun _ => List.prefix_refl _,
    fun z u hz => ?_, fun z _ hz ht => ?_, fun j hj => enqPos_mono hinv.valid hv.valid
      (hframe o).grows hj, fun _ _ _ h => h, fun _ _ _ _ h => .inl h, fun m hm hu z u hz => ?_,
    fun _ _ _ _ h => h, fun m _ j _ z _ _ ht => ?_, fun _ _ _ => rfl⟩
  · by_cases hzy : z = y
    · subst hzy
      rw [hself] at hz
      cases hz
      refine .inr ⟨rfl, call, hcall, ?_⟩
      have hm : z.seg ∈ v.state.line j := hm
      obtain ⟨i, hi⟩ := List.mem_iff_getElem?.1 hm
      rwa [(hinv.valid.lines.inj j hj q hq i p z.seg hi hn).1]
    · rw [hother z hzy] at hz
      exact .inl ⟨hz, hm⟩
  · have hzy : z ≠ y := by
      rintro rfl
      exact Option.some_ne_none u (hz.symm.trans hnone)
    exact (hother z hzy).trans hz
  · have hzy : z ≠ y := by
      rintro rfl
      exact taken_ne_empty (ht.symm.trans he)
    exact (hother z hzy).trans hz
  · by_cases hzy : z = y
    · subst hzy
      have hz := hself.symm.trans hz
      cases hz
      exact not_op ho hm
    · exact hu z u ((hother z hzy).symm.trans hz)
  · show (v.state.put c.op y val).item z ≠ TAKEN
    rw [hitem]
    split
    next => exact hval'
    next => exact ht

/-- The call links its segment `m`, which carries its item, behind the last segment `n`. -/
theorem link_allows (hq : q < w) {m F : ℕ} {val : ℤ} {call : S.Call}
    (hn : (v.state.line q)[p]? = some n) (hle : p ≤ v.state.chain.tailPos q)
    (hnone : (v.state.chain.cells.heap n).next = none) (hfull : bufferSize ≤ (v.state.seg n).enqIdx)
    (hm : Unlinked w v.state.chain.cells m) (howner : v.now.2.1 m = .op c.op)
    (hseg : v.state.seg m = ⟨1, 0, p + 1, fun i => if i = 0 then val else Dcbo.EMPTY⟩)
    (hval : val ≠ Dcbo.EMPTY) (hval' : val ≠ TAKEN) (hF : v.now.2.2 q c.op = some F)
    (hop : Unplaced c.op v.pair) (hcall : v.now.1.calls[c.op]? = some call)
    (hputs : puts call q val) :
    E.protocol.Allows c v.now (v.after (v.state.link c.op q n m val) v.now.2) := by
  have hinv := inv_of v
  have hv := hinv.link hq hn hle hnone hfull hm hseg hval hval' hF hop
  have hunst : v.state.stored ⟨m, 0⟩ = none := hinv.unstored_of_unlinked hm 0
  have hother : ∀ z ≠ ⟨m, 0⟩, (v.state.link c.op q n m val).stored z = v.state.stored z :=
    fun z hz => Function.update_of_ne hz _ _
  have hself : (v.state.link c.op q n m val).stored ⟨m, 0⟩ = some (c.op, val) :=
    Function.update_self ..
  have hitem : ∀ z, (v.state.link c.op q n m val).item z = v.state.item z := fun z =>
    congrArg (fun a : Segment => a.items z.idx) (v.state.chain.link_seg q n m z.seg)
  have hfirst : v.state.item ⟨m, 0⟩ = val := by
    rw [Memory.item, hseg]
    rfl
  have hframe : ∀ o, o ≠ .op c.op → Frame Evolves w o v.state.chain v.now.2.1
      (v.state.link c.op q n m val).chain v.now.2.1 := fun o ho =>
    .link Evolves.refl hinv.valid (howner ▸ ho) hq hn
  have hnew : (v.state.link c.op q n m val).line q = v.state.line q ++ [m] :=
    Function.update_self ..
  refine allows hv (fun j hj z o u hz hmem => ?_) fun o ho => ⟨hframe o (not_op ho),
    fun _ => List.prefix_refl _, fun z u hz => ?_, fun z _ hz ht => ?_,
    fun j hj => enqPos_mono hinv.valid hv.valid (hframe o (not_op ho)).grows hj, fun _ _ _ h => h,
    fun _ _ _ _ h => .inl h, fun k hk hu z u hz => ?_, fun _ _ _ _ h => h,
    fun k _ j _ z _ _ ht => ?_, fun _ _ _ => rfl⟩
  · by_cases hzm : z = ⟨m, 0⟩
    · subst hzm
      rw [hself] at hz
      cases hz
      refine .inr ⟨rfl, call, hcall, ?_⟩
      have hmq : m ∈ (v.state.link c.op q n m val).line q := by
        rw [hnew]
        exact List.mem_append_right _ (List.mem_singleton_self m)
      obtain ⟨i, hi⟩ := List.mem_iff_getElem?.1
        (show m ∈ (v.state.link c.op q n m val).line j from hmem)
      obtain ⟨k, hk⟩ := List.mem_iff_getElem?.1 hmq
      rwa [(hv.valid.lines.inj j hj q hq i k m hi hk).1]
    · rw [hother z hzm] at hz
      obtain ⟨-, j', hj', hold⟩ := hinv.stored z o u hz
      -- a segment is in one line only
      refine .inl ⟨hz, ?_⟩
      obtain ⟨i, hi⟩ := List.mem_iff_getElem?.1
        (show z.seg ∈ (v.state.link c.op q n m val).line j from hmem)
      have hthread := hframe (.thread c.thread) fun h => by cases h
      obtain ⟨k, hk⟩ := List.mem_iff_getElem?.1 ((hthread.grows.line j').mem hold)
      rwa [(hv.valid.lines.inj j hj j' hj' i k z.seg hi hk).1]
  · have hzm : z ≠ ⟨m, 0⟩ := by
      rintro rfl
      exact Option.some_ne_none u (hz.symm.trans hunst)
    exact (hother z hzm).trans hz
  · have hzm : z ≠ ⟨m, 0⟩ := by
      rintro rfl
      exact hval' (hfirst.symm.trans ht)
    exact (hother z hzm).trans hz
  · by_cases hzm : z = ⟨m, 0⟩
    · subst hzm
      have hz := hself.symm.trans hz
      cases hz
      exact not_op ho hk
    · exact hu z u ((hother z hzm).symm.trans hz)
  · exact (show (v.state.link c.op q n m val).item z = v.state.item z from hitem z) ▸ ht

/-- The successor of a `deq_idx`. -/
def nextDeq (y : Segment) : Segment := { y with deqIdx := y.deqIdx + 1 }

/-- A fetch-and-add on the `deq_idx` of a segment that was the head of queue `q` once. -/
theorem claim_allows (hq : q < w) (hn : (v.state.line q)[p]? = some n)
    (hle : p ≤ v.state.chain.headPos q) :
    E.protocol.Allows c v.now (v.after (v.state.claim c.op q n) v.now.2) ∧
      ∀ o, o ≠ .op c.op → Kept w o v.pair (v.state.claim c.op q n, v.now.2) := by
  have hinv := inv_of v
  have hv := hinv.claim c.op hq hn hle
  have hitem : ∀ z, (v.state.claim c.op q n).item z = v.state.item z := fun z =>
    modify_items (f := nextDeq) (fun _ => rfl) z
  have hframe : ∀ o, Frame Evolves w o v.state.chain v.now.2.1 (v.state.claim c.op q n).chain
      v.now.2.1 := fun o =>
    .modify (f := nextDeq) Evolves.refl ⟨le_rfl, Nat.le_succ _, rfl, fun _ _ => .inl rfl⟩
      fun _ hu => hu.notMem q hq (List.mem_of_getElem? hn)
  have hk : ∀ o, o ≠ .op c.op → Kept w o v.pair (v.state.claim c.op q n, v.now.2) := fun o ho =>
    ⟨hframe o, fun j => ?_, fun _ _ h => h, fun _ _ h _ => h,
      fun j hj => enqPos_mono hinv.valid hv.valid (hframe o).grows hj, fun _ _ _ h => h,
      fun _ _ _ _ h => .inl h, fun _ _ h => h, fun k hk j z hz => ?_,
      fun k _ j _ z _ _ ht => (show (v.state.claim c.op q n).item z = _ from hitem z) ▸ ht,
      fun _ _ _ => rfl⟩
  · exact ⟨allows hv (fun _ _ _ _ _ hy hm => .inl ⟨hy, hm⟩) fun o ho => hk o (not_op ho), hk⟩
  · show v.state.claims j <+: (v.state.claim c.op q n).claims j
    rcases v.state.claim_cases c.op q n j with ⟨he, -⟩ | ⟨-, -, he⟩
    · rw [he]
    · rw [he]
      exact List.prefix_append _ _
  · have hz : (z, k) ∈ (v.state.claim c.op q n).claims j := hz
    rcases v.state.claim_cases c.op q n j with ⟨he, -⟩ | ⟨-, -, he⟩
    · rwa [he] at hz
    · rw [he] at hz
      rcases List.mem_append.1 hz with hz | hz
      · exact hz
      · obtain ⟨-, rfl⟩ := Prod.mk.inj (List.mem_singleton.1 hz)
        exact absurd hk ho

/-- The call marks a slot that it has claimed. -/
theorem swap_allows (hq : q < w) {y : Slot} {k : ℕ} (hy : (v.state.claims q)[k]? = some (y, c.op)) :
    E.protocol.Allows c v.now (v.after (v.state.setItem y TAKEN) v.now.2) ∧
      ∀ o, o ≠ .op c.op → Kept w o v.pair (v.state.setItem y TAKEN, v.now.2) := by
  have hinv := inv_of v
  have hv := hinv.swap hq hy
  obtain ⟨-, hn⟩ := hinv.claims q hq k y c.op hy
  have hev : Evolves (v.state.seg y.seg) { v.state.seg y.seg with
      items := Function.update (v.state.seg y.seg).items y.idx TAKEN } := by
    refine ⟨le_rfl, le_rfl, rfl, fun i _ => ?_⟩
    by_cases hi : i = y.idx
    · subst hi
      exact .inr (Function.update_self ..)
    · exact .inl (Function.update_of_ne hi _ _)
  have hframe : ∀ o, Frame Evolves w o v.state.chain v.now.2.1 (v.state.setItem y TAKEN).chain
      v.now.2.1 := fun o =>
    .modify (f := fun a => { a with items := Function.update a.items y.idx TAKEN }) Evolves.refl hev
      fun _ hu => hu.notMem q hq (List.mem_of_getElem? hn)
  have hk : ∀ o, o ≠ .op c.op → Kept w o v.pair (v.state.setItem y TAKEN, v.now.2) := fun o ho =>
    ⟨hframe o, fun _ => List.prefix_refl _, fun _ _ h => h, fun _ _ h _ => h,
      fun j hj => enqPos_mono hinv.valid hv.valid (hframe o).grows hj, fun _ _ _ h => h,
      fun _ _ _ _ h => .inl h, fun _ _ h => h, fun _ _ _ _ h => h, fun m hm j hj z _ hz ht => ?_,
      fun _ _ _ => rfl⟩
  · exact ⟨allows hv (fun _ _ _ _ _ hy hm => .inl ⟨hy, hm⟩) fun o ho => hk o (not_op ho), hk⟩
  · -- the slot `y` belongs to this call only
    have hzy : z ≠ y := by
      rintro rfl
      obtain ⟨i, hi⟩ := List.mem_iff_getElem?.1 hz
      obtain ⟨-, hn'⟩ := hinv.claims j hj i z m hi
      obtain ⟨rfl, -⟩ := hinv.valid.lines.inj j hj q hq _ _ _ hn' hn
      have h₁ := (hinv.number_of_claim hj hi hn').2
      have h₂ := (hinv.number_of_claim hj hy hn').2
      rw [h₁] at h₂
      rw [h₂, hy] at hi
      obtain ⟨-, rfl⟩ := Prod.mk.inj (Option.some.inj hi)
      exact ho hm
    show (v.state.setItem y TAKEN).item z ≠ TAKEN
    rw [v.state.item_setItem, if_neg hzy]
    exact ht

end DcboFaaaq
