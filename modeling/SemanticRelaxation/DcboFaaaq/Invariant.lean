import SemanticRelaxation.DcboFaaaq.PartialQueue

/-!
# The invariant of the FAAArrayQueue

The slots of a queue are numbered through all its segments. `enqPos q` is the number of the next
slot for an enqueue through the tail pointer, which is also the version of the tail, and the slots
up to the number of `claims q` are those that dequeues have got. Neither side ever goes back.

* `SlotInv`: what is in the slot with number `k`;
* `Inv`: the invariant of `w` queues. The ghost state `floor q op` is a number of a slot below which
  the call `op` has stored nothing; it is set when the call takes its first index;
* one lemma for each step of the code.
-/

namespace DcboFaaaq

open AtomicProg Linked Segments

namespace Memory

variable (s : Memory)

/-- The segments of queue `q`. -/
abbrev line (q : ℕ) : List ℕ := s.chain.cells.line q

/-- The number of the next slot at the tail of queue `q`. -/
def enqPos (q : ℕ) : ℕ :=
  min (s.seg (s.chain.tail q)).enqIdx bufferSize + bufferSize * s.chain.tailPos q

theorem seg_modify (n : ℕ) (f : Segment → Segment) (k : ℕ) :
    (s.onChain (·.modify n f)).seg k = if k = n then f (s.seg n) else s.seg k := by
  by_cases hk : k = n
  · subst hk
    rw [if_pos rfl]
    exact s.chain.modify_self k f
  · rw [if_neg hk]
    exact s.chain.modify_of_ne hk f

theorem seg_setItem (x : Slot) (v : ℤ) (k : ℕ) :
    (s.setItem x v).seg k =
      if k = x.seg then { s.seg k with items := Function.update (s.seg k).items x.idx v }
      else s.seg k := by
  rw [setItem, seg_modify]
  split
  next h => rw [h]
  next => rfl

theorem item_setItem (x y : Slot) (v : ℤ) :
    (s.setItem x v).item y = if y = x then v else s.item y := by
  rw [item, seg_setItem]
  by_cases hyx : y = x
  · subst hyx
    simp
  · rw [if_neg hyx]
    split
    next hseg =>
      have hidx : y.idx ≠ x.idx := fun h => hyx (by cases y; cases x; simp_all)
      simp only [Function.update_of_ne hidx, item]
    next => rfl

/-- The claims after a fetch-and-add on the `deq_idx` of `n`. -/
theorem claim_cases (op q n j : ℕ) :
    (s.claim op q n).claims j = s.claims j ∧ (j = q → bufferSize ≤ (s.seg n).deqIdx) ∨
      j = q ∧ (s.seg n).deqIdx < bufferSize ∧
        (s.claim op q n).claims j = s.claims j ++ [(⟨n, (s.seg n).deqIdx⟩, op)] := by
  have he : (s.claim op q n).claims j = (if (s.seg n).deqIdx < bufferSize then
    Function.update s.claims q (s.claims q ++ [(⟨n, (s.seg n).deqIdx⟩, op)]) else s.claims) j := rfl
  rw [he]
  split
  next hlt =>
    by_cases hj : j = q
    · subst hj
      rw [Function.update_self]
      exact .inr ⟨rfl, hlt, rfl⟩
    · rw [Function.update_of_ne hj]
      exact .inl ⟨rfl, fun e => absurd e hj⟩
  next hge => exact .inl ⟨rfl, fun _ => not_lt.1 hge⟩

end Memory

/-- How the contents of a segment change. -/
structure Evolves (a b : Segment) : Prop where
  enqIdx : a.enqIdx ≤ b.enqIdx
  deqIdx : a.deqIdx ≤ b.deqIdx
  nodeIdx : b.nodeIdx = a.nodeIdx
  items : ∀ i, a.items i ≠ Dcbo.EMPTY → b.items i = a.items i ∨ b.items i = TAKEN

theorem taken_ne_empty : TAKEN ≠ Dcbo.EMPTY := by decide

namespace Evolves

theorem refl (a : Segment) : Evolves a a := ⟨le_rfl, le_rfl, rfl, fun _ _ => .inl rfl⟩

theorem trans (a b c : Segment) (h : Evolves a b) (h' : Evolves b c) : Evolves a c where
  enqIdx := h.enqIdx.trans h'.enqIdx
  deqIdx := h.deqIdx.trans h'.deqIdx
  nodeIdx := h'.nodeIdx.trans h.nodeIdx
  items i hi := by
    rcases h.items i hi with hb | hb
    · rcases h'.items i (hb ▸ hi) with hc | hc
      · exact .inl (hc.trans hb)
      · exact .inr hc
    · rcases h'.items i (hb ▸ taken_ne_empty) with hc | hc
      · exact .inr (hc.trans hb)
      · exact .inr hc

end Evolves

/-- The slot `x` with number `k`, of a queue with `claimed` claims. -/
structure SlotInv (s : Memory) (floor : ℕ → Option ℕ) (claimed k : ℕ) (x : Slot) : Prop where
  stored : ∀ op val, s.stored x = some (op, val) → x.idx < (s.seg x.seg).enqIdx ∧
    val ≠ Dcbo.EMPTY ∧ val ≠ TAKEN ∧ (s.item x = val ∨ s.item x = TAKEN) ∧
    ∃ F, floor op = some F ∧ F ≤ k
  empty : s.stored x = none → s.item x = Dcbo.EMPTY ∨ s.item x = TAKEN
  taken : s.item x = TAKEN → k < claimed

/-- A slot of a segment that has the item `val` only. -/
theorem SlotInv.single {s : Memory} {floor : ℕ → Option ℕ} {claimed k m i op F : ℕ} {val : ℤ}
    (hitem : s.item ⟨m, i⟩ = if i = 0 then val else Dcbo.EMPTY)
    (hstored : s.stored ⟨m, i⟩ = if i = 0 then some (op, val) else none)
    (henq : i = 0 → i < (s.seg m).enqIdx) (hval : val ≠ Dcbo.EMPTY) (hval' : val ≠ TAKEN)
    (hF : floor op = some F) (hle : F ≤ k) :
    SlotInv s floor claimed k ⟨m, i⟩ := by
  by_cases hi : i = 0
  · rw [if_pos hi] at hitem hstored
    refine ⟨fun o v hx => ?_, fun hx => ?_, fun ht => absurd (hitem.symm.trans ht) hval'⟩
    · rw [hstored] at hx
      cases hx
      exact ⟨henq hi, hval, hval', .inl hitem, F, hF, hle⟩
    · rw [hstored] at hx
      cases hx
  · rw [if_neg hi] at hitem hstored
    refine ⟨fun o v hx => ?_, fun _ => .inl hitem,
      fun ht => absurd (ht.symm.trans hitem) taken_ne_empty⟩
    rw [hstored] at hx
    cases hx

/-- The invariant of `w` queues. -/
structure Inv (w : ℕ) (s : Memory) (floor : ℕ → ℕ → Option ℕ) : Prop where
  valid : Valid w s.chain
  nodeIdx : ∀ q < w, ∀ p n : ℕ, (s.line q)[p]? = some n → (s.seg n).nodeIdx = p
  full : ∀ q < w, ∀ p n : ℕ, (s.line q)[p]? = some n → p + 1 < (s.line q).length →
    bufferSize ≤ (s.seg n).enqIdx
  claimed : ∀ q < w, ∀ p n : ℕ, (s.line q)[p]? = some n →
    min (s.seg n).deqIdx bufferSize = min ((s.claims q).length - bufferSize * p) bufferSize
  head : ∀ q < w, bufferSize * s.chain.headPos q ≤ (s.claims q).length ∧
    (s.claims q).length ≤ bufferSize * s.chain.headPos q + bufferSize
  claims : ∀ q < w, ∀ (k : ℕ) x op, (s.claims q)[k]? = some (x, op) →
    x.idx = k % bufferSize ∧ (s.line q)[k / bufferSize]? = some x.seg
  slots : ∀ q < w, ∀ p n : ℕ, (s.line q)[p]? = some n → ∀ i < bufferSize,
    SlotInv s (floor q) (s.claims q).length (bufferSize * p + i) ⟨n, i⟩
  stored : ∀ x op val, s.stored x = some (op, val) →
    x.idx < bufferSize ∧ ∃ q < w, x.seg ∈ s.line q
  once : ∀ x y op val val', s.stored x = some (op, val) → s.stored y = some (op, val') → x = y
  floor : ∀ q < w, ∀ op F, floor q op = some F → F ≤ s.enqPos q

variable {w : ℕ} {s s' : Memory} {floor floor' : ℕ → ℕ → Option ℕ} {q p n : ℕ}

/-- What the invariant of a slot depends on. -/
theorem SlotInv.mono {f f' : ℕ → Option ℕ} {c c' k : ℕ} {x : Slot} (h : SlotInv s f c k x)
    (hitem : s'.item x = s.item x) (hstored : s'.stored x = s.stored x)
    (henq : (s.seg x.seg).enqIdx ≤ (s'.seg x.seg).enqIdx)
    (hf : ∀ op F, f op = some F → f' op = some F) (hc : c ≤ c') : SlotInv s' f' c' k x where
  stored op val hs := by
    rw [hstored] at hs
    obtain ⟨hi, h₁, h₂, h₃, F, hF, hk⟩ := h.stored op val hs
    exact ⟨hi.trans_le henq, h₁, h₂, by rwa [hitem], F, hf op F hF, hk⟩
  empty hs := by
    rw [hitem]
    exact h.empty (hstored ▸ hs)
  taken ht := (h.taken (hitem ▸ ht)).trans_le hc

/-- The number of the next slot only grows. -/
theorem enqPos_mono (hv : Valid w s.chain) (hv' : Valid w s'.chain)
    (hg : Grows Evolves w s.chain s'.chain) (hq : q < w) : s.enqPos q ≤ s'.enqPos q := by
  have ht := hg.tail q hq
  rcases ht.lt_or_eq with hlt | heq
  · have hmul := Nat.mul_le_mul_left bufferSize hlt
    have hmin := Nat.min_le_right (s.seg (s.chain.tail q)).enqIdx bufferSize
    rw [Nat.mul_succ] at hmul
    unfold Memory.enqPos
    omega
  · have h₁ := hg.getElem? (hv.getElem?_tail hq)
    rw [heq, hv'.getElem?_tail hq] at h₁
    have htail : s'.chain.tail q = s.chain.tail q := Option.some.inj h₁
    have hlt := hv.lt_fresh hq (hv.getElem?_tail hq)
    have henq : (s.seg (s.chain.tail q)).enqIdx ≤ (s'.seg (s.chain.tail q)).enqIdx :=
      (hg.seg _ hlt).enqIdx
    unfold Memory.enqPos
    rw [htail, ← heq]
    exact Nat.add_le_add_right (min_le_min_right _ henq) _

namespace Inv

variable (h : Inv w s floor)
include h

/-- The tail segment while it has slots left. -/
theorem tail_of_enqIdx (hq : q < w) (hn : (s.line q)[p]? = some n) (hle : p ≤ s.chain.tailPos q)
    (hlt : (s.seg n).enqIdx < bufferSize) :
    s.chain.tail q = n ∧ s.enqPos q = bufferSize * p + (s.seg n).enqIdx := by
  have hlast : ¬ p + 1 < (s.line q).length := fun hp =>
    absurd (h.full q hq p n hn hp) (not_le.2 hlt)
  have ht := h.valid.tailPos_lt hq
  have hpos : s.chain.tailPos q = p := by
    have ht : s.chain.tailPos q < (s.line q).length := ht
    omega
  have htail : s.chain.tail q = n := by
    have h₁ := h.valid.getElem?_tail hq
    rw [hpos] at h₁
    exact Option.some.inj (h₁.symm.trans hn)
  refine ⟨htail, ?_⟩
  rw [Memory.enqPos, htail, hpos, min_eq_left hlt.le, Nat.add_comm]

/-- The slots of a segment with number below `enqPos`. -/
theorem lt_enqPos (hq : q < w) (hn : (s.line q)[p]? = some n) (hle : p ≤ s.chain.tailPos q) {i : ℕ}
    (hi : i < bufferSize) (hlt : i < (s.seg n).enqIdx) : bufferSize * p + i < s.enqPos q := by
  unfold Memory.enqPos
  rcases hle.lt_or_eq with hp | rfl
  · have hmul := Nat.mul_le_mul_left bufferSize hp
    rw [Nat.mul_succ] at hmul
    omega
  · have htail : s.chain.tail q = n :=
      Option.some.inj ((h.valid.getElem?_tail hq).symm.trans hn)
    rw [htail]
    have := lt_min hlt hi
    omega

/-- While a segment has slots left for dequeues, it is the head, and its next slot has the number of
claims made so far. -/
theorem head_of_deqIdx (hq : q < w) (hn : (s.line q)[p]? = some n) (hle : p ≤ s.chain.headPos q)
    (hlt : (s.seg n).deqIdx < bufferSize) :
    (s.claims q).length = bufferSize * p + (s.seg n).deqIdx ∧ s.chain.headPos q = p := by
  have hc := h.claimed q hq p n hn
  obtain ⟨h₁, h₂⟩ := h.head q hq
  have hmul := Nat.mul_le_mul_left bufferSize hle
  have hlen : (s.claims q).length = bufferSize * p + (s.seg n).deqIdx := by
    rw [min_eq_left hlt.le] at hc
    omega
  refine ⟨hlen, hle.antisymm' (not_lt.1 fun hp => ?_)⟩
  have hmul' := Nat.mul_le_mul_left bufferSize hp
  rw [Nat.mul_succ] at hmul'
  omega

/-- All slots of a segment have been claimed. -/
theorem claimed_of_deqIdx (hq : q < w) (hn : (s.line q)[p]? = some n)
    (hle : bufferSize ≤ (s.seg n).deqIdx) : bufferSize * p + bufferSize ≤ (s.claims q).length := by
  have hc := h.claimed q hq p n hn
  rw [min_eq_right hle] at hc
  have hpos : 0 < bufferSize := by decide
  omega

/-- The slot with a number below the number of claims is claimed. -/
theorem claim_of_lt (hq : q < w) (hn : (s.line q)[p]? = some n) {i : ℕ} (hi : i < bufferSize)
    (hlt : bufferSize * p + i < (s.claims q).length) :
    ∃ op, (s.claims q)[bufferSize * p + i]? = some (⟨n, i⟩, op) := by
  obtain ⟨⟨x, op⟩, hx⟩ : ∃ x, (s.claims q)[bufferSize * p + i]? = some x :=
    ⟨_, List.getElem?_eq_getElem hlt⟩
  obtain ⟨h₁, h₂⟩ := h.claims q hq _ x op hx
  have hpos : 0 < bufferSize := by decide
  rw [Nat.mul_add_mod, Nat.mod_eq_of_lt hi] at h₁
  rw [Nat.mul_add_div hpos, Nat.div_eq_of_lt hi, Nat.add_zero, hn] at h₂
  refine ⟨op, hx.trans ?_⟩
  cases x
  cases h₁
  cases h₂
  rfl

/-- The number of a claimed slot. -/
theorem number_of_claim (hq : q < w) {k : ℕ} {x : Slot} {op : ℕ}
    (hx : (s.claims q)[k]? = some (x, op)) (hn : (s.line q)[p]? = some x.seg) :
    x.idx < bufferSize ∧ bufferSize * p + x.idx = k := by
  obtain ⟨h₁, h₂⟩ := h.claims q hq k x op hx
  have hp : p = k / bufferSize := (h.valid.lines.inj q hq q hq _ _ _ hn h₂).2
  rw [h₁, hp]
  exact ⟨Nat.mod_lt _ (by decide), Nat.div_add_mod _ _⟩

/-! ### The steps -/

theorem lt_fresh (hq : q < w) (hn : (s.line q)[p]? = some n) : n < s.chain.cells.fresh :=
  h.valid.lt_fresh hq hn

/-- A step that leaves alone what the segments of the lines hold. -/
theorem of_seg (hv : Valid w s'.chain) (hg : Grows Evolves w s.chain s'.chain)
    (hline : ∀ q, s'.line q = s.line q) (hseg : ∀ n < s.chain.cells.fresh, s'.seg n = s.seg n)
    (hstored : s'.stored = s.stored) (hclaims : s'.claims = s.claims)
    (hhead : ∀ q < w, bufferSize * s'.chain.headPos q ≤ (s.claims q).length ∧
      (s.claims q).length ≤ bufferSize * s'.chain.headPos q + bufferSize) : Inv w s' floor where
  valid := hv
  nodeIdx q hq p n hn := by
    rw [hline] at hn
    rw [hseg n (h.lt_fresh hq hn)]
    exact h.nodeIdx q hq p n hn
  full q hq p n hn := by
    rw [hline] at hn ⊢
    rw [hseg n (h.lt_fresh hq hn)]
    exact h.full q hq p n hn
  claimed q hq p n hn := by
    rw [hline] at hn
    rw [hseg n (h.lt_fresh hq hn), hclaims]
    exact h.claimed q hq p n hn
  head q hq := by
    rw [hclaims]
    exact hhead q hq
  claims q hq := by
    rw [hclaims, hline]
    exact h.claims q hq
  slots q hq p n hn i hi := by
    rw [hline] at hn
    have he := hseg n (h.lt_fresh hq hn)
    rw [hclaims]
    refine (h.slots q hq p n hn i hi).mono ?_ (congrFun hstored _) ?_ (fun _ _ hF => hF) le_rfl
    · show (s'.seg n).items i = (s.seg n).items i
      rw [he]
    · show (s.seg n).enqIdx ≤ (s'.seg n).enqIdx
      rw [he]
  stored x op val hx := by
    rw [hstored] at hx
    simp only [hline]
    exact h.stored x op val hx
  once x y op val val' := by
    rw [hstored]
    exact h.once x y op val val'
  floor q hq op F hF := (h.floor q hq op F hF).trans (enqPos_mono h.valid hv hg hq)

theorem create (y : Segment) : Inv w (s.onChain (·.create y)) floor :=
  h.of_seg (h.valid.create y) (Valid.create_grows Evolves.refl y) (fun _ => rfl)
    (fun _ hn => s.chain.create_seg_of_ne hn.ne y) rfl rfl h.head

theorem setTail (hq : q < w) (hn : (s.line q)[s.chain.tailPos q + 1]? = some n) :
    Inv w (s.onChain (·.setTail q n)) floor :=
  h.of_seg (h.valid.setTail hq hn) (h.valid.setTail_grows Evolves.refl hq hn) (fun _ => rfl)
    (fun _ _ => rfl) rfl rfl h.head

theorem setHead (hq : q < w) (hn : (s.line q)[s.chain.headPos q + 1]? = some n)
    (hle : bufferSize * (s.chain.headPos q + 1) ≤ (s.claims q).length) :
    Inv w (s.onChain (·.setHead q n)) floor := by
  refine h.of_seg (h.valid.setHead (List.mem_of_getElem? hn))
    (h.valid.setHead_grows Evolves.refl hq hn (Nat.le_succ _)) (fun _ => rfl)
    (fun _ _ => rfl) rfl rfl
    fun j hj => ?_
  have hpos : (s.onChain (·.setHead q n)).chain.headPos j =
      if j = q then s.chain.headPos q + 1 else s.chain.headPos j := h.valid.setHead_pos hq hn j
  have hj := h.head j hj
  rw [hpos]
  by_cases e : j = q
  · subst e
    rw [if_pos rfl]
    refine ⟨hle, ?_⟩
    rw [Nat.mul_add_one]
    omega
  · rw [if_neg e]
    exact hj

/-- A step that changes what the segment `m` holds. -/
theorem of_modify {m : ℕ} {f : Segment → Segment} (hc : s'.chain = s.chain.modify m f)
    (hf : Evolves (s.seg m) (f (s.seg m)))
    (hclaimed : ∀ q < w, ∀ p n : ℕ, (s.line q)[p]? = some n →
      min (s'.seg n).deqIdx bufferSize = min ((s'.claims q).length - bufferSize * p) bufferSize)
    (hhead : ∀ q < w, bufferSize * s.chain.headPos q ≤ (s'.claims q).length ∧
      (s'.claims q).length ≤ bufferSize * s.chain.headPos q + bufferSize)
    (hclaims : ∀ q < w, ∀ (k : ℕ) x op, (s'.claims q)[k]? = some (x, op) →
      x.idx = k % bufferSize ∧ (s.line q)[k / bufferSize]? = some x.seg)
    (hslots : ∀ q < w, ∀ p n : ℕ, (s.line q)[p]? = some n → ∀ i < bufferSize,
      SlotInv s' (floor' q) (s'.claims q).length (bufferSize * p + i) ⟨n, i⟩)
    (hstored : ∀ x op val, s'.stored x = some (op, val) →
      x.idx < bufferSize ∧ ∃ q < w, x.seg ∈ s.line q)
    (honce : ∀ x y op val val', s'.stored x = some (op, val) → s'.stored y = some (op, val') →
      x = y)
    (hfloor : ∀ q < w, ∀ op F, floor' q op = some F → F ≤ s.enqPos q) : Inv w s' floor' := by
  have hv : Valid w s'.chain := hc ▸ h.valid.modify m f
  have hg : Grows Evolves w s.chain s'.chain := hc ▸ Valid.modify_grows Evolves.refl hf
  have hline : ∀ q, s'.line q = s.line q := fun q => by rw [Memory.line, hc]; rfl
  have hseg : ∀ q < w, ∀ p n : ℕ, (s.line q)[p]? = some n → Evolves (s.seg n) (s'.seg n) :=
    fun q hq p n hn => hg.seg n (h.lt_fresh hq hn)
  refine ⟨hv, fun q hq p n hn => ?_, fun q hq p n hn hp => ?_, fun q hq p n hn => ?_,
    fun q hq => ?_, fun q hq => ?_, fun q hq p n hn => ?_, ?_, honce, fun q hq op F hF => ?_⟩
  · rw [hline] at hn
    exact (hseg q hq p n hn).nodeIdx.trans (h.nodeIdx q hq p n hn)
  · rw [hline] at hn hp
    exact (h.full q hq p n hn hp).trans (hseg q hq p n hn).enqIdx
  · rw [hline] at hn
    exact hclaimed q hq p n hn
  · rw [hc]
    exact hhead q hq
  · rw [hline]
    exact hclaims q hq
  · rw [hline] at hn
    exact hslots q hq p n hn
  · simp only [hline]
    exact hstored
  · exact (hfloor q hq op F hF).trans (enqPos_mono h.valid hv hg hq)

theorem fetchAddEnq (n : ℕ) (hf : ∀ q op F, floor q op = some F → floor' q op = some F)
    (hnew : ∀ q < w, ∀ op F, floor' q op = some F → F ≤ s.enqPos q) :
    Inv w (s.onChain (·.modify n fun y => { y with enqIdx := y.enqIdx + 1 })) floor' := by
  have hseg := s.seg_modify n fun y => { y with enqIdx := y.enqIdx + 1 }
  refine h.of_modify (m := n) (f := fun y => { y with enqIdx := y.enqIdx + 1 }) rfl
    ⟨Nat.le_succ _, le_rfl, rfl, fun _ _ => .inl rfl⟩ ?_ h.head h.claims ?_ h.stored h.once hnew
  · intro q hq p k hk
    rw [hseg]
    split
    next e =>
      subst e
      exact h.claimed q hq p k hk
    next => exact h.claimed q hq p k hk
  · intro q hq p k hk i hi
    refine (h.slots q hq p k hk i hi).mono ?_ rfl ?_ (hf q) le_rfl
    · show Segment.items _ i = (s.seg k).items i
      rw [hseg]
      by_cases e : k = n
      · rw [if_pos e, e]
      · rw [if_neg e]
    · show (s.seg k).enqIdx ≤ Segment.enqIdx _
      rw [hseg]
      split
      next e => exact e ▸ Nat.le_succ _
      next => exact le_rfl

/-- A store to the slot `x`. -/
theorem of_setItem {x : Slot} {v : ℤ} (hc : s'.chain = (s.setItem x v).chain)
    (hcl : s'.claims = s.claims) (hv : s.item x ≠ Dcbo.EMPTY → v = s.item x ∨ v = TAKEN)
    (hslot : ∀ q < w, ∀ p : ℕ, (s.line q)[p]? = some x.seg → x.idx < bufferSize →
      SlotInv s' (floor q) (s.claims q).length (bufferSize * p + x.idx) x)
    (hother : ∀ y ≠ x, s'.stored y = s.stored y)
    (hstored : ∀ op val, s'.stored x = some (op, val) →
      x.idx < bufferSize ∧ ∃ q < w, x.seg ∈ s.line q)
    (honce : ∀ y op val val', y ≠ x → s'.stored x = some (op, val) → s.stored y ≠ some (op, val')) :
    Inv w s' floor := by
  have hseg : ∀ k, s'.seg k =
      if k = x.seg then { s.seg k with items := Function.update (s.seg k).items x.idx v }
      else s.seg k := fun k => by
    rw [← s.seg_setItem x v k]
    exact congrArg (Chain.seg · k) hc
  have hitem : ∀ y, s'.item y = if y = x then v else s.item y := fun y => by
    rw [← s.item_setItem x y v]
    exact congrArg (fun c : Chain Segment => (c.seg y.seg).items y.idx) hc
  have hdeq : ∀ k, (s'.seg k).deqIdx = (s.seg k).deqIdx := fun k => by
    rw [hseg]
    split <;> rfl
  have henq : ∀ k, (s'.seg k).enqIdx = (s.seg k).enqIdx := fun k => by
    rw [hseg]
    split <;> rfl
  refine h.of_modify (m := x.seg)
    (f := fun y => { y with items := Function.update y.items x.idx v }) hc
    ⟨le_rfl, le_rfl, rfl, fun i hi => ?_⟩ ?_ ?_ ?_ ?_ ?_ ?_ h.floor
  · show Function.update (s.seg x.seg).items x.idx v i = _ ∨
      Function.update (s.seg x.seg).items x.idx v i = _
    by_cases hix : i = x.idx
    · subst hix
      rw [Function.update_self]
      exact hv hi
    · rw [Function.update_of_ne hix]
      exact .inl rfl
  · intro q hq p n hn
    rw [hdeq, hcl]
    exact h.claimed q hq p n hn
  · rw [hcl]
    exact h.head
  · rw [hcl]
    exact h.claims
  · intro q hq p n hn i hi
    rw [hcl]
    by_cases he : (⟨n, i⟩ : Slot) = x
    · subst he
      exact hslot q hq p hn hi
    · refine (h.slots q hq p n hn i hi).mono ?_ (hother _ he) (henq n).ge (fun _ _ hF => hF) le_rfl
      rw [hitem, if_neg he]
  · intro y op val hy
    by_cases he : y = x
    · subst he
      exact hstored op val hy
    · rw [hother y he] at hy
      exact h.stored y op val hy
  · intro y z op val val' hy hz
    by_cases hyx : y = x
    · by_cases hzx : z = x
      · exact hyx.trans hzx.symm
      · rw [hother z hzx] at hz
        exact absurd hz (honce z op val val' hzx (hyx ▸ hy))
    · rw [hother y hyx] at hy
      by_cases hzx : z = x
      · exact absurd hy (honce y op val' val hyx (hzx ▸ hz))
      · rw [hother z hzx] at hz
        exact h.once y z op val val' hy hz

/-- An empty slot has never been used. -/
theorem unstored_of_empty (hq : q < w) {x : Slot} (hn : (s.line q)[p]? = some x.seg)
    (hi : x.idx < bufferSize) (he : s.item x = Dcbo.EMPTY) : s.stored x = none := by
  have hslot := h.slots q hq p x.seg hn x.idx hi
  by_contra hne
  obtain ⟨⟨op, val⟩, hx⟩ := Option.ne_none_iff_exists'.1 hne
  obtain ⟨-, hval, -, hitem, -⟩ := hslot.stored op val hx
  rcases hitem with hitem | hitem
  · exact hval (hitem.symm.trans he)
  · exact taken_ne_empty (hitem.symm.trans he)

theorem put (hq : q < w) {x : Slot} {op F : ℕ} {val : ℤ} (hn : (s.line q)[p]? = some x.seg)
    (hi : x.idx < bufferSize) (he : s.item x = Dcbo.EMPTY) (hlt : x.idx < (s.seg x.seg).enqIdx)
    (hval : val ≠ Dcbo.EMPTY) (hval' : val ≠ TAKEN) (hF : floor q op = some F)
    (hle : F ≤ bufferSize * p + x.idx) (hop : ∀ y val', s.stored y ≠ some (op, val')) :
    Inv w (s.put op x val) floor := by
  have hself : (s.put op x val).stored x = some (op, val) := Function.update_self ..
  have hitem : (s.put op x val).item x = val := (s.item_setItem x x val).trans (if_pos rfl)
  have henq : ((s.put op x val).seg x.seg).enqIdx = (s.seg x.seg).enqIdx := by
    refine (congrArg Segment.enqIdx (s.seg_setItem x val x.seg)).trans ?_
    rw [if_pos rfl]
  refine h.of_setItem (x := x) (v := val) rfl rfl (fun hne => absurd he hne)
    ?_ (fun y hy => Function.update_of_ne hy _ _)
      (fun _ _ _ => ⟨hi, q, hq, List.mem_of_getElem? hn⟩) ?_
  · intro j hj p' hn' _
    obtain ⟨rfl, rfl⟩ := h.valid.lines.inj j hj q hq p' p x.seg hn' hn
    refine ⟨fun o v hv => ?_, fun hnone => ?_, fun ht => ?_⟩
    · rw [hself] at hv
      cases hv
      exact ⟨henq ▸ hlt, hval, hval', .inl hitem, F, hF, hle⟩
    · rw [hself] at hnone
      cases hnone
    · exact absurd (hitem.symm.trans ht) hval'
  · intro y o v v' _ hx
    rw [hself] at hx
    cases hx
    exact hop y v'

theorem swap (hq : q < w) {x : Slot} {k op : ℕ} (hx : (s.claims q)[k]? = some (x, op)) :
    Inv w (s.setItem x TAKEN) floor := by
  obtain ⟨-, hn⟩ := h.claims q hq k x op hx
  have hitem : (s.setItem x TAKEN).item x = TAKEN := (s.item_setItem x x TAKEN).trans (if_pos rfl)
  have henq : ((s.setItem x TAKEN).seg x.seg).enqIdx = (s.seg x.seg).enqIdx := by
    rw [s.seg_setItem, if_pos rfl]
  refine h.of_setItem (x := x) (v := TAKEN) rfl rfl (fun _ => .inr rfl) ?_
    (fun _ _ => rfl) (fun o v hv => h.stored x o v hv) ?_
  · intro j hj p' hn' hi
    obtain ⟨rfl, rfl⟩ := h.valid.lines.inj j hj q hq _ _ x.seg hn' hn
    have hold := h.slots j hj _ x.seg hn' x.idx hi
    refine ⟨fun o v hv => ?_, fun _ => .inr hitem, fun _ => ?_⟩
    · obtain ⟨h₁, h₂, h₃, -, h₅⟩ := hold.stored o v hv
      exact ⟨henq ▸ h₁, h₂, h₃, .inr hitem, h₅⟩
    · rw [(h.number_of_claim hj hx hn').2]
      exact (List.getElem?_eq_some_iff.1 hx).1
  · exact fun y o v v' hne hx hy => hne (h.once y x o v' v hy hx)

/-- A fetch-and-add on the `deq_idx` of a segment that was the head once. -/
theorem claim (op : ℕ) (hq : q < w) (hn : (s.line q)[p]? = some n) (hle : p ≤ s.chain.headPos q) :
    Inv w (s.claim op q n) floor := by
  have hseg := s.seg_modify n fun y => { y with deqIdx := y.deqIdx + 1 }
  have hpos : 0 < bufferSize := by decide
  have hdeq : ∀ k, ((s.claim op q n).seg k).deqIdx =
      if k = n then (s.seg n).deqIdx + 1 else (s.seg k).deqIdx := fun k => by
    refine (congrArg Segment.deqIdx (hseg k)).trans ?_
    split <;> rfl
  have hitem : ∀ y, (s.claim op q n).item y = s.item y := fun y => by
    refine (congrArg (fun z : Segment => z.items y.idx) (hseg y.seg)).trans ?_
    split
    next e => rw [Memory.item, e]
    next => rfl
  have henq : ∀ k, ((s.claim op q n).seg k).enqIdx = (s.seg k).enqIdx := fun k => by
    refine (congrArg Segment.enqIdx (hseg k)).trans ?_
    split
    next e => rw [e]
    next => rfl
  have hcl := s.claim_cases op q n
  have hmono : ∀ j, (s.claims j).length ≤ ((s.claim op q n).claims j).length := by
    intro j
    rcases hcl j with ⟨he, -⟩ | ⟨-, -, he⟩
    · rw [he]
    · rw [he, List.length_append]
      exact Nat.le_add_right _ _
  refine h.of_modify (m := n) (f := fun y => { y with deqIdx := y.deqIdx + 1 }) rfl
    ⟨le_rfl, Nat.le_succ _, rfl, fun _ _ => .inl rfl⟩ ?_ ?_ ?_ ?_ h.stored h.once h.floor
  · intro j hj p' k hk
    have hold := h.claimed j hj p' k hk
    rw [hdeq]
    by_cases hkn : k = n
    · subst hkn
      obtain ⟨rfl, rfl⟩ := h.valid.lines.inj j hj q hq p' p k hk hn
      rw [if_pos rfl]
      rcases hcl j with ⟨he, hge⟩ | ⟨-, hlt, he⟩
      · have hge := hge rfl
        rw [he]
        omega
      · obtain ⟨hlen, -⟩ := h.head_of_deqIdx hj hk hle hlt
        rw [he, List.length_append, List.length_singleton]
        omega
    · rw [if_neg hkn]
      rcases hcl j with ⟨he, -⟩ | ⟨rfl, hlt, he⟩
      · rw [he]
        exact hold
      · obtain ⟨hlen, -⟩ := h.head_of_deqIdx hj hn hle hlt
        rw [he, List.length_append, List.length_singleton]
        have hne : p' ≠ p := by
          rintro rfl
          exact hkn (Option.some.inj (hk.symm.trans hn))
        rcases Nat.lt_or_gt_of_ne hne with hlt' | hgt
        · have := Nat.mul_le_mul_left bufferSize hlt'
          rw [Nat.mul_succ] at this
          omega
        · have := Nat.mul_le_mul_left bufferSize hgt
          rw [Nat.mul_succ] at this
          omega
  · intro j hj
    obtain ⟨h₁, h₂⟩ := h.head j hj
    refine ⟨h₁.trans (hmono j), ?_⟩
    rcases hcl j with ⟨he, -⟩ | ⟨rfl, hlt, he⟩
    · rw [he]
      exact h₂
    · obtain ⟨hlen, hhead⟩ := h.head_of_deqIdx hj hn hle hlt
      rw [he, List.length_append, List.length_singleton, hhead]
      omega
  · intro j hj k x o hx
    rcases hcl j with ⟨he, -⟩ | ⟨rfl, hlt, he⟩
    · rw [he] at hx
      exact h.claims j hj k x o hx
    · obtain ⟨hlen, -⟩ := h.head_of_deqIdx hj hn hle hlt
      rw [he] at hx
      rcases List.getElem?_concat_cases hx with hx | ⟨hk, hx⟩
      · exact h.claims j hj k x o hx
      · cases hx
        rw [hk, hlen, Nat.mul_add_mod, Nat.mod_eq_of_lt hlt, Nat.mul_add_div hpos,
          Nat.div_eq_of_lt hlt, Nat.add_zero]
        exact ⟨rfl, hn⟩
  · intro j hj p' k hk i hi
    exact (h.slots j hj p' k hk i hi).mono (hitem _) rfl (henq k).ge (fun _ _ hF => hF) (hmono j)

/-- Nothing has been stored in a segment that is not linked. -/
theorem unstored_of_unlinked {m : ℕ} (hm : Unlinked w s.chain.cells m) (i : ℕ) :
    s.stored ⟨m, i⟩ = none := by
  by_contra hne
  obtain ⟨⟨op, val⟩, hx⟩ := Option.ne_none_iff_exists'.1 hne
  obtain ⟨-, q, hq, hmem⟩ := h.stored _ op val hx
  exact hm.notMem q hq hmem

/-- The segment `m` with the item `val` is linked behind the last segment `n`. -/
theorem link (hq : q < w) {m op F : ℕ} {val : ℤ} (hn : (s.line q)[p]? = some n)
    (hle : p ≤ s.chain.tailPos q) (hnone : (s.chain.cells.heap n).next = none)
    (hfull : bufferSize ≤ (s.seg n).enqIdx) (hm : Unlinked w s.chain.cells m)
    (hseg : s.seg m = ⟨1, 0, p + 1, fun i => if i = 0 then val else Dcbo.EMPTY⟩)
    (hval : val ≠ Dcbo.EMPTY) (hval' : val ≠ TAKEN) (hF : floor q op = some F)
    (hop : ∀ y val', s.stored y ≠ some (op, val')) : Inv w (s.link op q n m val) floor := by
  obtain ⟨htail, hlast⟩ := h.valid.tail_of_last hq hn hle hnone
  have hv : Valid w (s.link op q n m val).chain := h.valid.link hq hn hle hnone hm
  have hg : Grows Evolves w s.chain (s.link op q n m val).chain :=
    h.valid.link_grows Evolves.refl q n m
  have hsame : ∀ k, (s.link op q n m val).seg k = s.seg k := s.chain.link_seg q n m
  have hitem : ∀ y, (s.link op q n m val).item y = s.item y := fun y => by
    rw [Memory.item, hsame]
    rfl
  have hstored : ∀ y, (s.link op q n m val).stored y =
      if y = ⟨m, 0⟩ then some (op, val) else s.stored y := fun y => by
    show Function.update s.stored _ _ y = _
    split
    next e => rw [e, Function.update_self]
    next e => rw [Function.update_of_ne e]
  have hline : ∀ j, (s.link op q n m val).line j = if j = q then s.line q ++ [m] else s.line j := by
    intro j
    show Function.update s.chain.cells.line q (s.chain.cells.line q ++ [m]) j = _
    split
    next e => rw [e, Function.update_self]
    next e => rw [Function.update_of_ne e]
  -- a segment of the new lines is an old one or the new one
  have hcase : ∀ j, ∀ p' k : ℕ, ((s.link op q n m val).line j)[p']? = some k →
      (s.line j)[p']? = some k ∨ j = q ∧ p' = p + 1 ∧ k = m := by
    intro j p' k hk
    refine (@Cells.append_entry _ s.chain.cells _ (some n) _ _ _ _ hk).imp_right ?_
    rintro ⟨hj, hlen, hkm⟩
    exact ⟨hj, hlen.trans hlast.symm, hkm⟩
  have hhead : (s.claims q).length ≤ bufferSize * (p + 1) := by
    have h₁ := (h.head q hq).2
    have h₂ := h.valid.headPos_lt hq
    have h₃ := Nat.mul_le_mul_left bufferSize (show s.chain.headPos q ≤ p by omega)
    rw [Nat.mul_add_one]
    omega
  have hfloor : F ≤ bufferSize * (p + 1) := by
    have h₁ := h.floor q hq op F hF
    rw [Memory.enqPos, htail] at h₁
    rw [Nat.mul_add_one]
    omega
  refine ⟨hv, fun j hj p' k hk => ?_, fun j hj p' k hk hlt => ?_, fun j hj p' k hk => ?_,
    fun j hj => ?_, fun j hj k x o hx => ?_, fun j hj p' k hk i hi => ?_, fun x o v hx => ?_,
    fun x y o v v' hx hy => ?_, fun j hj o F hF => ?_⟩
  · rw [hsame]
    rcases hcase j p' k hk with hk | ⟨rfl, rfl, rfl⟩
    · exact h.nodeIdx j hj p' k hk
    · rw [hseg]
  · rw [hsame]
    rcases hcase j p' k hk with hk' | ⟨rfl, rfl, rfl⟩
    · by_cases hjq : j = q
      · subst hjq
        rw [hline, if_pos rfl, List.length_append, List.length_singleton] at hlt
        rcases Nat.lt_or_ge (p' + 1) (s.line j).length with hlt' | hge
        · exact h.full j hj p' k hk' hlt'
        · obtain rfl : p' = p := by
            have : p + 1 = (s.line j).length := hlast
            omega
          obtain rfl : k = n := Option.some.inj (hk'.symm.trans hn)
          exact hfull
      · rw [hline, if_neg hjq] at hlt
        exact h.full j hj p' k hk' hlt
    · rw [hline, if_pos rfl, List.length_append, List.length_singleton] at hlt
      have : p + 1 = (s.line j).length := hlast
      omega
  · rw [hsame]
    rcases hcase j p' k hk with hk | ⟨rfl, rfl, rfl⟩
    · exact h.claimed j hj p' k hk
    · rw [hseg]
      show min 0 bufferSize = min ((s.claims j).length - bufferSize * (p + 1)) bufferSize
      omega
  · rw [show (s.link op q n m val).chain.headPos j = s.chain.headPos j from
      pos_of_grown (hg.line j) (h.valid.head j hj)]
    exact h.head j hj
  · obtain ⟨h₁, h₂⟩ := h.claims j hj k x o hx
    exact ⟨h₁, hg.getElem? h₂⟩
  · rcases hcase j p' k hk with hk | ⟨rfl, rfl, rfl⟩
    · have hne : (⟨k, i⟩ : Slot) ≠ ⟨m, 0⟩ := by
        rintro ⟨⟩
        exact hm.notMem j hj (List.mem_of_getElem? hk)
      refine (h.slots j hj p' k hk i hi).mono (hitem _) ?_ (congrArg _ (hsame k)).ge
        (fun _ _ hF => hF) le_rfl
      rw [hstored, if_neg hne]
    · refine .single ?_ ?_ (fun hi => ?_) hval hval' hF (hfloor.trans (Nat.le_add_right _ i))
      · rw [hitem, Memory.item, hseg]
      · rw [hstored, h.unstored_of_unlinked hm i]
        simp only [Slot.mk.injEq, true_and]
      · rw [hsame, hseg, hi]
        exact Nat.one_pos
  · rw [hstored] at hx
    split at hx
    next e =>
      subst e
      refine ⟨show 0 < bufferSize by decide, q, hq, ?_⟩
      rw [hline, if_pos rfl]
      exact List.mem_append_right _ (List.mem_singleton_self m)
    next =>
      obtain ⟨hi, j, hj, hmem⟩ := h.stored x o v hx
      exact ⟨hi, j, hj, (hg.line j).mem hmem⟩
  · rw [hstored] at hx hy
    split at hx
    next ex =>
      split at hy
      next ey => exact ex.trans ey.symm
      next =>
        cases hx
        exact absurd hy (hop y v')
    next =>
      split at hy
      next =>
        cases hy
        exact absurd hx (hop x v)
      next => exact h.once x y o v v' hx hy
  · exact (h.floor j hj o F hF).trans (enqPos_mono h.valid hv hg hj)

end Inv

end DcboFaaaq
