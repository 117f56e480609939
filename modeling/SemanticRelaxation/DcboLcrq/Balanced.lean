import SemanticRelaxation.DcboLcrq.Get
import SemanticRelaxation.Dcbo.DoubleCollect

/-!
# The d-CBO queue over LCRQs

* `enqueue_spec`: an enqueue returns with its item put into some sub-queue;
* `dequeueWrap_spec`: what a dequeue of one sub-queue returns through `dequeue_wrap`;
* `Settled w size op s`: at each index that the call `op` has got an item has been removed, or none
  will ever be put in.
-/

namespace DcboLcrq

open AtomicProg Linked Segments

variable {size : ℕ} {set : Dcbo.Params} {good : Memory → Prop} {puts : Dcbo.Call → ℤ → Prop}
  {E : Results (Dcbo.service (partialLcrq size) set) (regime Dcbo.Call set.width size good puts)}
  {c : Caller} {v v₁ v₂ : View E.protocol c} {q : ℕ}

theorem readOnly_enqCount (q : ℕ) : Dcbo.ReadOnly E.protocol c (lcrqEnqCount q) :=
  (Dcbo.ReadOnly.read _).bind fun _ => (Dcbo.ReadOnly.read _).bind fun _ =>
    (Dcbo.ReadOnly.read _).bind fun _ => .ret _

theorem readOnly_deqCount (q : ℕ) : Dcbo.ReadOnly E.protocol c (lcrqDeqCount q) :=
  (Dcbo.ReadOnly.read _).bind fun _ => (Dcbo.ReadOnly.read _).bind fun _ =>
    (Dcbo.ReadOnly.read _).bind fun _ => .ret _

theorem readOnly_tailVersion (q : ℕ) : Dcbo.ReadOnly E.protocol c (lcrqTailVersion q) :=
  (Dcbo.ReadOnly.read _).bind fun _ => (Dcbo.ReadOnly.read _).bind fun _ =>
    (Dcbo.ReadOnly.read _).bind fun _ => .ret _

/-- An enqueue puts its item into a sub-queue. -/
theorem enqueue_spec (hw : 0 < set.width) (hsize : 0 < size) {val : ℤ} {l : Option ℕ}
    (hne : val ≠ -1) (hcall : ∃ call, v.now.1.calls[c.op]? = some call ∧ puts call val)
    (hblank : Untouched set.width c.op v.state) (hl : Handle set.width c.thread l v.pair) :
    wp E.protocol c (Dcbo.enqueue (partialLcrq size) set c val l)
      (fun x v' => ∃ k < set.width, Finished set.width k val x.1 v') v := by
  have hread : ∀ j < set.width, Dcbo.ReadOnly E.protocol c
      (Dcbo.enqHeuristic (partialLcrq size) j) := fun j _ => (readOnly_enqCount j).bind fun _ =>
      .ret _
  refine wp.bind (Dcbo.randomIndex_spec hw fun i v₁ h₁ hi => ?_)
  refine wp.bind (hread i hi v₁ _ fun x v₂ h₂ => ?_)
  refine wp.bind (Dcbo.chooseIndex_spec hw hread _ hi fun k v₃ h₃ hk => ?_)
  have hs := Since.of_le (h₁.trans (h₂.trans h₃))
  obtain ⟨call, hc, hp⟩ := hcall
  have he : Waiting puts set.width k val l v₃ :=
    ⟨⟨hk, hne, ⟨call, hs.call hc, hp⟩, hblank.kept hs.frame⟩, hl.kept hs.thread⟩
  exact wp.bind_of (lcrqPut_spec hsize he) fun l' v₄ h => ⟨k, hk, h⟩

/-- At each index that the call `op` has got an item has been removed, or none will ever be put in.
-/
def Settled (w size op : ℕ) (s : Memory) : Prop :=
  ∀ q < w, ∀ n ∈ s.line q, ∀ h, (s.ring n).claims h = some op →
    (s.ring n).taken h = some op ∨ (s.ring n).stored h = none ∧ Refused size (s.ring n) h

variable {w op : ℕ} {s : Memory}

theorem Settled.kept {x x' : Memory × Ghost} (h : Settled w size op x.1)
    (hk : Kept w size (.op op) x x') : Settled w size op x'.1 := by
  intro q hq n hn i hc
  rcases hk.own op rfl q hq n hn with ⟨hn', hquiet⟩ | hidle
  · have hev := hk.rings q hq n hn'
    rcases h q hq n hn' i (hquiet.claims i hc) with ht | ⟨hnone, hr⟩
    · exact .inl (hev.taken i _ ht)
    · exact .inr ⟨hev.refused i hnone hr, hev.keeps_refused hr⟩
  · exact absurd hc (hidle.claims_ne i)

theorem settled_of_wasted (h : Wasted w size op s) : Settled w size op s :=
  fun q hq n hn i hc => .inr (h q hq n hn i hc nofun)

theorem Got.settled {r : ℤ} (h : Got w size op q r s) : Settled w size op s := by
  obtain ⟨m, j, e, -, ht, -, hrest⟩ := h
  intro k hk n hn i hc
  by_cases he : (n, i) = (m, j)
  · cases he
    exact .inl ht
  · exact .inr (hrest k hk n hn i hc fun e => he (Option.some.inj e))

theorem Unclaimed.settled (h : Unclaimed w op s) : Settled w size op s :=
  fun q hq n hn i hc => absurd hc (h q hq n hn i)

theorem Untouched.wasted (h : Untouched w op s) : Wasted w size op s :=
  fun q hq n hn i hc _ => absurd hc ((h q hq n hn).claims_ne i)

/-- The item that a call has removed is one that an enqueue has brought. -/
theorem Got.source {r : ℤ} (h : Got set.width size c.op q r v.state) (hq : q < set.width) :
    ∃ e : ℕ, ∃ call, v.now.1.calls[e]? = some call ∧ puts call r := by
  obtain ⟨n, i, e, hn, -, hst, -⟩ := h
  obtain ⟨call, hc, hp⟩ := v.inv_pair.2.2 q hq n hn i e r hst
  exact ⟨e, call, hc, hp⟩

theorem dequeueWrap_spec (hq : q < set.width) (hsize : 0 < size)
    (hw : Wasted set.width size c.op v.state) :
    wp E.protocol c (dequeueWrap size c q) (fun r v' => ∃ x, r = wrap x ∧
      Dequeued size q v x v') v :=
  wp.bind_of (lcrqGet_spec hq hsize hw) fun x _ h => ⟨x, rfl, h⟩

end DcboLcrq
