import SemanticRelaxation.QueueKSegment.Invariant
import SemanticRelaxation.Prog.Regime

/-!
# The steps of the k-segment queue

`regime size` is what the code of `queue-q_relaxed-k-segment.c` relies on and keeps.

* `Kept`: what the steps of the others keep for the owner `o`;
* `create_allows`, `setTail_allows`, `setHead_allows`, `link_allows`, `insert_allows`,
  `delete_allows`: the steps keep to these rules.
-/

namespace QueueKSegment

open AtomicProg Linked Segments

/-- How a segment changes: a slot is filled once, and its item is deleted once. -/
structure Evolves (y y' : Segment) : Prop where
  node : ∀ i val, (y.indices i).node = some val → (y'.indices i).node = some val
  deleted : ∀ i, (y.indices i).deleted = true → (y'.indices i).deleted = true

theorem Evolves.refl (y : Segment) : Evolves y y := ⟨fun _ _ h => h, fun _ h => h⟩

theorem Evolves.trans (y y' y'' : Segment) (h : Evolves y y') (h' : Evolves y' y'') :
    Evolves y y'' :=
  ⟨fun i val hy => h'.node i val (h.node i val hy), fun i hy => h'.deleted i (h.deleted i hy)⟩

/-- Who has allocated a segment. -/
abbrev Ghost : Type := ℕ → Owner

/-- The call `op` has filled no slot. -/
def Unplaced (op : ℕ) (s : Memory) : Prop := ∀ y, (y, op) ∉ s.inserts

/-- The call `op` has deleted no item. -/
def Untaken (op : ℕ) (s : Memory) : Prop := ∀ y, (y, op) ∉ s.deletes

/-- What the steps of the others keep for the owner `o`. -/
structure Kept (o : Owner) (x x' : Memory × Ghost) : Prop where
  nodes : Frame Evolves 1 o x.1.chain x.2 x'.1.chain x'.2
  inserts : x.1.inserts <+: x'.1.inserts
  deletes : x.1.deletes <+: x'.1.deletes
  ownInserts : ∀ n, o = .op n → ∀ y, (y, n) ∈ x'.1.inserts → (y, n) ∈ x.1.inserts
  ownDeletes : ∀ n, o = .op n → ∀ y, (y, n) ∈ x'.1.deletes → (y, n) ∈ x.1.deletes

variable {size p n t : ℕ} {o : Owner} {x x' x'' : Memory × Ghost}

theorem Kept.refl (o : Owner) (x : Memory × Ghost) : Kept o x x where
  nodes := .refl Evolves.refl o _ _
  inserts := List.prefix_refl _
  deletes := List.prefix_refl _
  ownInserts _ _ _ h := h
  ownDeletes _ _ _ h := h

theorem Kept.trans (h : Kept o x x') (h' : Kept o x' x'') : Kept o x x'' where
  nodes := h.nodes.trans Evolves.trans h'.nodes
  inserts := h.inserts.trans h'.inserts
  deletes := h.deletes.trans h'.deletes
  ownInserts n ho y hy := h.ownInserts n ho y (h'.ownInserts n ho y hy)
  ownDeletes n ho y hy := h.ownDeletes n ho y (h'.ownDeletes n ho y hy)

/-- A step that leaves the history alone. -/
theorem Kept.of_nodes {s s' : Memory} {g g' : Ghost} (hn : Frame Evolves 1 o s.chain g s'.chain g')
    (hins : s'.inserts = s.inserts) (hdel : s'.deletes = s.deletes) : Kept o (s, g) (s', g') where
  nodes := hn
  inserts := by rw [show s'.inserts = s.inserts from hins]
  deletes := by rw [show s'.deletes = s.deletes from hdel]
  ownInserts n _ y hy := by rwa [show s'.inserts = s.inserts from hins] at hy
  ownDeletes n _ y hy := by rwa [show s'.deletes = s.deletes from hdel] at hy

/-- A slot that is filled keeps its node. -/
theorem Kept.node (h : Kept o x x') {y : Slot} {val : ℤ} (hy : y.seg < x.1.chain.cells.fresh)
    (hval : (x.1.index y).node = some val) : (x'.1.index y).node = some val :=
  (h.nodes.grows.seg y.seg hy).node y.idx val hval

/-- An item that has been deleted stays deleted. -/
theorem Kept.deleted (h : Kept o x x') {y : Slot} (hy : y.seg < x.1.chain.cells.fresh)
    (hd : (x.1.index y).deleted = true) : (x'.1.index y).deleted = true :=
  (h.nodes.grows.seg y.seg hy).deleted y.idx hd

/-- The slots hold what the calls insert. -/
def Made (calls : List Call) (s : Memory) : Prop :=
  ∀ y op, (y, op) ∈ s.inserts → ∃ val, calls[op]? = some (.insert val) ∧ (s.index y).node = some val

/-- The rules that all threads keep to. -/
def regime (size : ℕ) : Regime Call Memory Ghost where
  inv calls x := Inv size x.1 ∧ Made calls x.1
  frame := Kept
  fresh n x := Unplaced n x.1 ∧ Untaken n x.1
  assume _ _ := True
  refl := Kept.refl
  trans _ _ _ _ := Kept.trans
  inv_call calls call x h := by
    refine ⟨h.1, fun y op hy => ?_⟩
    obtain ⟨val, hc, hv⟩ := h.2 y op hy
    have hlt := (List.getElem?_eq_some_iff.1 hc).1
    exact ⟨val, by rwa [List.getElem?_append_left hlt], hv⟩
  fresh_later n _ _ h hn := ⟨fun y hy => hn.1 y (h.ownInserts n rfl y hy),
    fun y hy => hn.2 y (h.ownDeletes n rfl y hy)⟩

variable {E : Results (queueService size) (regime size)} {c : Caller} {v v₁ v₂ : View E.protocol c}

theorem inv_of (v : View E.protocol c) : Inv size v.state := v.inv_pair.1

theorem grows_since (h : Since v v₁) : Grows Evolves 1 v.state.chain v₁.state.chain :=
  h.frame.nodes.grows

theorem grows_of_le (h : v ≤ v₁) : Grows Evolves 1 v.state.chain v₁.state.chain :=
  grows_since (.of_le h)

theorem not_op (ho : ¬ c.Is o) : o ≠ .op c.op := fun e => ho (e ▸ rfl)

/-! ### The steps -/

/-- A step that leaves the history alone has to keep the invariant and the segments of others. -/
theorem chain_allows {s : Memory} {g : Ghost} (hi : Inv size s) (hins : s.inserts = v.state.inserts)
    (hdel : s.deletes = v.state.deletes)
    (hn : ∀ o, o ≠ .op c.op → Frame Evolves 1 o v.state.chain v.now.2 s.chain g) :
    E.protocol.Allows c v.now (v.after s g) := by
  have hk : ∀ o, ¬ c.Is o → Kept o v.pair (s, g) := fun o ho =>
    .of_nodes (hn o (not_op ho)) hins hdel
  refine Regime.allows v ⟨hi, fun y op hy => ?_⟩ hk
  rw [show (s, g).1.inserts = v.state.inserts from hins] at hy
  obtain ⟨val, hc, hval⟩ := v.inv_pair.2 y op hy
  have hlt := (inv_of v).lt_fresh ((inv_of v).placed y op hy).1
  exact ⟨val, hc, ((hn (.thread c.thread) nofun).grows.seg y.seg hlt).node y.idx val hval⟩

theorem create_allows :
    E.protocol.Allows c v.now (v.after (v.state.onChain (·.create default))
        (Function.update v.now.2 v.state.chain.cells.fresh (.op c.op))) ∧
      ∀ o, Kept o v.pair (v.state.onChain (·.create default),
        Function.update v.now.2 v.state.chain.cells.fresh (.op c.op)) :=
  ⟨chain_allows (inv_of v).create rfl rfl fun _ _ => .create Evolves.refl _ _ _,
    fun _ => .of_nodes (.create Evolves.refl _ _ _) rfl rfl⟩

theorem setTail_allows (hn : v.state.line[v.state.chain.tailPos 0 + 1]? = some n) :
    E.protocol.Allows c v.now (v.after (v.state.onChain (·.setTail 0 n)) v.now.2) ∧
      ∀ o, Kept o v.pair (v.state.onChain (·.setTail 0 n), v.now.2) := by
  have hf : ∀ o, Frame Evolves 1 o v.state.chain v.now.2 (v.state.chain.setTail 0 n) v.now.2 :=
    fun o =>
    .of_cells ((inv_of v).valid.setTail_grows Evolves.refl Nat.one_pos hn) rfl
  exact ⟨chain_allows ((inv_of v).setTail hn) rfl rfl fun o _ => hf o,
    fun o => .of_nodes (hf o) rfl rfl⟩

theorem setHead_allows (hn : v.state.line[v.state.headPos + 1]? = some n)
    (hlt : v.state.headPos < v.state.chain.tailPos 0)
    (hused : v.state.Used size (v.state.chain.head 0)) :
    E.protocol.Allows c v.now (v.after (v.state.onChain (·.setHead 0 n)) v.now.2) ∧
      ∀ o, Kept o v.pair (v.state.onChain (·.setHead 0 n), v.now.2) := by
  have hf : ∀ o, Frame Evolves 1 o v.state.chain v.now.2 (v.state.chain.setHead 0 n) v.now.2 :=
    fun o =>
    .of_cells ((inv_of v).valid.setHead_grows Evolves.refl Nat.one_pos hn (Nat.le_succ _)) rfl
  exact ⟨chain_allows ((inv_of v).setHead hn hlt hused) rfl rfl fun o _ => hf o,
    fun o => .of_nodes (hf o) rfl rfl⟩

theorem link_allows (ht : v.state.line[p]? = some t) (hle : p ≤ v.state.chain.tailPos 0)
    (hnone : (v.state.chain.cells.heap t).next = none) (hfull : v.state.Full size t)
    (hn : Unlinked 1 v.state.chain.cells n) (howner : v.now.2 n = .op c.op) :
    E.protocol.Allows c v.now (v.after (v.state.onChain (·.link 0 t n)) v.now.2) :=
  chain_allows ((inv_of v).link ht hle hnone hfull hn) rfl rfl fun _ ho =>
    .link Evolves.refl (inv_of v).valid (howner ▸ ho) Nat.one_pos ht

/-- The frame of a store to a slot of the list. -/
theorem setIndex_frame {y : Slot} {z : Index} (hy : y.seg ∈ v.state.line)
    (hnode : ∀ val, (v.state.index y).node = some val → z.node = some val)
    (hdel : (v.state.index y).deleted = true → z.deleted = true) (o : Owner) :
    Frame Evolves 1 o v.state.chain v.now.2 (v.state.setIndex y z).chain v.now.2 := by
  refine .modify (f := fun a => { a with indices := Function.update a.indices y.idx z })
    Evolves.refl ⟨fun i val hv => ?_, fun i hd => ?_⟩ fun _ hu => hu.notMem 0 Nat.one_pos hy
  · show (Function.update (v.state.chain.seg y.seg).indices y.idx z i).node = some val
    by_cases hi : i = y.idx
    · subst hi
      rw [Function.update_self]
      exact hnode val hv
    · rw [Function.update_of_ne hi]
      exact hv
  · show (Function.update (v.state.chain.seg y.seg).indices y.idx z i).deleted = true
    by_cases hi : i = y.idx
    · subst hi
      rw [Function.update_self]
      exact hdel hd
    · rw [Function.update_of_ne hi]
      exact hd

/-- The call puts its node into an empty slot. -/
theorem insert_allows {y : Slot} {val : ℤ} (hy : y.seg ∈ v.state.line) (hidx : y.idx < size)
    (he : (v.state.index y).node = none) (hop : Unplaced c.op v.state)
    (hcall : v.now.1.calls[c.op]? = some (.insert val)) :
    E.protocol.Allows c v.now (v.after (v.state.insert c.op y val) v.now.2) := by
  have hf := setIndex_frame (z := { v.state.index y with node := some val }) hy
    (fun u hu => absurd (he.symm.trans hu) nofun) fun h => h
  refine Regime.allows v ⟨(inv_of v).insert hy hidx he hop, fun z o hz => ?_⟩ fun o ho =>
    ⟨hf o, List.prefix_append _ _, List.prefix_refl _, fun m hm z hz => ?_, fun _ _ _ h => h⟩
  · show ∃ u, v.now.1.calls[o]? = some (.insert u) ∧ ((v.state.insert c.op y val).index z).node =
      some u
    rw [v.state.index_insert]
    rcases List.mem_append.1 hz with hz | hz
    · obtain ⟨u, hc, hu⟩ := v.inv_pair.2 z o hz
      have hne : z ≠ y := by
        rintro rfl
        exact absurd (he.symm.trans hu) nofun
      rw [if_neg hne]
      exact ⟨u, hc, hu⟩
    · obtain ⟨rfl, rfl⟩ := Prod.mk.inj (List.mem_singleton.1 hz)
      rw [if_pos rfl]
      exact ⟨val, hcall, rfl⟩
  · rcases List.mem_append.1 hz with hz | hz
    · exact hz
    · obtain ⟨-, rfl⟩ := Prod.mk.inj (List.mem_singleton.1 hz)
      exact absurd hm (not_op ho)

/-- The call deletes the item of a slot of the first segment, or of one in front of it. -/
theorem delete_allows {y : Slot} (hy : y.seg ∈ v.state.line) (hnode : (v.state.index y).node ≠ none)
    (he : (v.state.index y).deleted = false) (hle : v.state.pos y ≤ v.state.headPos)
    (hop : Untaken c.op v.state) :
    E.protocol.Allows c v.now (v.after (v.state.delete c.op y) v.now.2) := by
  have hf := setIndex_frame (z := { v.state.index y with deleted := true }) hy (fun _ h => h)
    fun _ => rfl
  refine Regime.allows v ⟨(inv_of v).delete hy hnode he hle hop, fun z o hz => ?_⟩ fun o ho =>
    ⟨hf o, List.prefix_refl _, List.prefix_append _ _, fun _ _ _ h => h, fun m hm z hz => ?_⟩
  · show ∃ u, v.now.1.calls[o]? = some (.insert u) ∧ ((v.state.delete c.op y).index z).node = some u
    obtain ⟨u, hc, hu⟩ := v.inv_pair.2 z o hz
    rw [v.state.index_delete]
    split
    next e => exact ⟨u, hc, e ▸ hu⟩
    next => exact ⟨u, hc, hu⟩
  · rcases List.mem_append.1 hz with hz | hz
    · exact hz
    · obtain ⟨-, rfl⟩ := Prod.mk.inj (List.mem_singleton.1 hz)
      exact absurd hm (not_op ho)

end QueueKSegment
