import SemanticRelaxation.ElasticLpw.Interference

/-!
# The steps of the elastic LpW queue under interference

Each kind of step keeps the invariant and what the other threads rely on: steps on the sub-queues
(`Inv.onQueues`), on the lateral queue (`Inv.createLateral`, `Inv.appendLateral`,
`Inv.swingLateral`, `Inv.moveHead`), on the windows (`Inv.shiftPut`, `Inv.shiftGet`), and on the
settings.
-/

namespace ElasticLpw

namespace Watched

open AtomicProg Linked MichaelScott Windowed

variable {set : Params} {s : State} {w w' : Watch} {g : Ghost} {n k p t : ℕ} {o : Owner}
  {c : Caller}

/-! ### Steps on the sub-queues -/

theorem Inv.onQueues (h : Inv set s w g) (nodes : Mem ℕ) {put get : ℕ → Descriptor} {q : Places}
    (hw : w.Before w') (hm : w.Accounted → w'.Accounted)
    (hf : Filled set.maxWidth s.globalPWindow.span (g.past.map PutWindow.span)
      ⟨nodes.toCells, put, get⟩ q)
    (hh : w'.Clean → Headed set.maxWidth ⟨nodes.toCells, put, get⟩ q) :
    Inv set { s with nodes, putArray := put, getArray := get } w' { g with places := q } where
  history := h.history
  lateral := ⟨h.lateral.valid, h.lateral.nodes, h.lateral.tail⟩
  head := h.head
  width := h.width
  depth := h.depth
  get_pos := h.get_pos
  get_le := h.get_le
  get_width := h.get_width
  filled := hf
  headed := hh
  got hc := ⟨(h.got (hw.clean hc)).le, (h.got (hw.clean hc)).top, (h.got (hw.clean hc)).rows⟩
  asserted hc := h.asserted (hw.overtaken hc)
  noted := hm h.noted

theorem Later.onQueues (nodes : Mem ℕ) {put get : ℕ → Descriptor} {q : Places} (hw : w.Before w')
    (hk : Grown s.queues g.places ⟨nodes.toCells, put, get⟩ q) :
    Later ((s, w), g)
      (({ s with nodes, putArray := put, getArray := get }, w'), { g with places := q }) where
  queues := hk
  lateral := .refl (s.laterals g.tailPos)
  nodes := List.prefix_refl _
  newer := no_newer _
  history := List.suffix_refl _
  put_le := le_rfl
  put_same _ := rfl
  get_le := le_rfl
  get_same _ _ := rfl
  watch := hw

theorem Kept.onQueues (nodes : Mem ℕ) {put get : ℕ → Descriptor} {q : Places} (hw : w.Before w')
    (hk : Grown s.queues g.places ⟨nodes.toCells, put, get⟩ q)
    (hf : Frame n o (placed s.queues g.places) g.places.owner (placed ⟨nodes.toCells, put, get⟩ q)
      q.owner) :
    Kept n o ((s, w), g)
      (({ s with nodes, putArray := put, getArray := get }, w'), { g with places := q }) :=
  ⟨.onQueues nodes hw hk, hf, .refl o (s.laterals g.tailPos) g.lateralOwner⟩

section Queues

variable {j r : ℕ} {d : Descriptor}

theorem Inv.createNode (h : Inv set s w g) (val : ℤ) (op : ℕ) :
    Inv set { s with nodes := s.nodes.create val } w
      { g with places := g.places.create s.nodes.fresh op } :=
  h.onQueues (s.nodes.create val) (.refl w) id (h.filled.create val op) fun hc =>
    (h.headed hc).create val op

theorem Kept.createNode (val : ℤ) (op : ℕ) : Kept n o ((s, w), g)
    (({ s with nodes := s.nodes.create val }, w),
      { g with places := g.places.create s.nodes.fresh op }) :=
  Kept.onQueues (s.nodes.create val) (.refl w) (.create s.queues g.places val op)
    (.create (placed s.queues g.places) val op)

/-- A node is linked in the present put window. -/
theorem Inv.linkNode (h : Inv set s w g) (hj : j < set.maxWidth) (hjw : j < s.globalPWindow.width)
    (ht : (s.nodes.line j)[p]? = some t) (hle : p ≤ g.places.putPos j)
    (hnone : (s.nodes.heap t).next = none) (hk : Unlinked set.maxWidth s.nodes.toCells k)
    (hlt : (s.putArray j).count < s.globalPWindow.max) (row : ℕ) :
    Inv set { s with nodes := s.nodes.link j (some t) k row } w { g with
      places := g.places.link j (Windowed.nextRow s.globalPWindow.bottom (s.putArray j).count) } :=
  h.onQueues (s.nodes.link j (some t) k row) (.refl w) id
    (h.filled.link hj hjw ht hle hnone hk hlt) fun hc => (h.headed hc).link h.filled j t k _

theorem Later.linkNode (j t k r row : ℕ) : Later ((s, w), g)
    (({ s with nodes := s.nodes.link j (some t) k row }, w),
      { g with places := g.places.link j r }) :=
  Later.onQueues (s.nodes.link j (some t) k row) (.refl w) (.link s.queues g.places j t k r)

theorem Kept.linkNode (ho : ¬ c.Is o) (hown : g.places.owner k = c.op) (hj : j < n)
    (ht : (s.nodes.line j)[p]? = some t) (r row : ℕ) : Kept n o ((s, w), g)
    (({ s with nodes := s.nodes.link j (some t) k row }, w),
      { g with places := g.places.link j r }) :=
  Kept.onQueues (s.nodes.link j (some t) k row) (.refl w) (.link s.queues g.places j t k r)
    (frame_link ho hown hj ht)

/-- A tail is swung to the node behind it. -/
theorem Inv.swingNode (h : Inv set s w g) (hj : j < set.maxWidth)
    (hk : (s.nodes.line j)[g.places.putPos j + 1]? = some k) :
    Inv set { s with
      putArray := Function.update s.putArray j
        ⟨some k, Windowed.nextRow s.globalPWindow.bottom (s.putArray j).count⟩ } w
      { g with places := g.places.swing j } :=
  h.onQueues s.nodes (.refl w) id (h.filled.swing hj hk) fun hc => (h.headed hc).swing j _

theorem Kept.swingNode {d : Descriptor} (hd : (s.putArray j).count ≤ d.count) : Kept n o ((s, w), g)
    (({ s with putArray := Function.update s.putArray j d }, w),
      { g with places := g.places.swing j }) :=
  have hg := Grown.swing (x := s.queues) g.places hd
  Kept.onQueues s.nodes (.refl w) hg (.of_cells hg.store rfl)

@[simp] theorem remove_toCells (m : Mem ℕ) (node : Option ℕ) :
    (m.remove node).toCells = m.toCells := by
  cases node <;> rfl

/-- A head is moved on. -/
theorem Inv.takeNode (h : Inv set s w g) (hw : w.Before w') (hm : w.Accounted → w'.Accounted)
    (hc : w'.Clean) (hj : j < set.maxWidth) (hlt : g.places.getPos j < g.places.putPos j)
    (hnode : d.node = (s.nodes.line j)[g.places.getPos j + 1]?)
    (hrow : ∀ r', (g.places.rows j)[g.places.getPos j + 1]? = some r' → r' ≤ d.count) :
    Inv set { s with
      getArray := Function.update s.getArray j d
      nodes := s.nodes.remove d.node } w' { g with places := g.places.take j } := by
  obtain ⟨node, r⟩ := d
  obtain rfl : node = _ := hnode
  refine h.onQueues (s.nodes.remove _) hw hm ?_ fun _ => ?_
  · rw [remove_toCells]
    exact h.filled.take hj hlt _
  · rw [remove_toCells]
    exact (h.headed (hw.clean hc)).take hrow

/-- A get descriptor is overwritten in a run that is not clean. -/
theorem Inv.loseNode (h : Inv set s w g) (hw : w.Before w') (hm : w.Accounted → w'.Accounted)
    (hc : ¬ w'.Clean) (d : Descriptor) : Inv set { s with
      getArray := Function.update s.getArray j d
      nodes := s.nodes.remove d.node } w' g := by
  refine h.onQueues (s.nodes.remove _) (q := g.places) hw hm ?_ fun hc' => absurd hc' hc
  rw [remove_toCells]
  exact { h.filled with }

theorem Kept.takeNode (hw : w.Before w') (hd : (s.getArray j).count ≤ d.count) :
    Kept n o ((s, w), g) (({ s with
      getArray := Function.update s.getArray j d
      nodes := s.nodes.remove d.node }, w'), { g with places := g.places.take j }) := by
  have hg := Grown.take (x := s.queues) g.places hd
  refine Kept.onQueues (s.nodes.remove _) hw ?_ ?_
  · rw [remove_toCells]
    exact hg
  · rw [remove_toCells]
    exact .of_cells hg.store rfl

theorem Kept.loseNode (hw : w.Before w') (hd : (s.getArray j).count ≤ d.count) :
    Kept n o ((s, w), g) (({ s with
      getArray := Function.update s.getArray j d
      nodes := s.nodes.remove d.node }, w'), g) := by
  have hg := Grown.lose (x := s.queues) g.places hd
  refine Kept.onQueues (s.nodes.remove _) (q := g.places) hw ?_ ?_
  · rw [remove_toCells]
    exact hg
  · rw [remove_toCells]
    exact .of_cells hg.store rfl

end Queues

/-! ### Steps on the lateral queue -/

theorem Later.onLateral {l : Cells LateralNode} {head tail : Option ℕ} {f : ℕ → ℕ} {pos : ℕ}
    (hk : Grows (s.laterals g.tailPos)
      (State.laterals { s with lateral := l, lateralHead := head, lateralTail := tail } pos))
    (hn : s.lateralNodes <+: (l.line 0).map fun n => (l.heap n).val)
    (hnew : ∀ p v, ((l.line 0).map fun n => (l.heap n).val)[p]? = some v →
      s.lateralNodes.length ≤ p → s.globalPWindow.max < v.count) :
    Later ((s, w), g)
      (({ s with lateral := l, lateralHead := head, lateralTail := tail }, w),
        { g with lateralOwner := f, tailPos := pos }) where
  queues := .refl s.queues g.places
  lateral := hk
  nodes := hn
  newer := hnew
  history := List.suffix_refl _
  put_le := le_rfl
  put_same _ := rfl
  get_le := le_rfl
  get_same _ _ := rfl
  watch := .refl w

theorem Kept.onLateral {l : Cells LateralNode} {head tail : Option ℕ} {f : ℕ → ℕ} {pos : ℕ}
    (hk : Frame 1 o (s.laterals g.tailPos) g.lateralOwner
      (State.laterals { s with lateral := l, lateralHead := head, lateralTail := tail } pos) f)
    (hn : s.lateralNodes <+: (l.line 0).map fun n => (l.heap n).val)
    (hnew : ∀ p v, ((l.line 0).map fun n => (l.heap n).val)[p]? = some v →
      s.lateralNodes.length ≤ p → s.globalPWindow.max < v.count) :
    Kept n o ((s, w), g)
      (({ s with lateral := l, lateralHead := head, lateralTail := tail }, w),
        { g with lateralOwner := f, tailPos := pos }) :=
  ⟨.onLateral hk.grows hn hnew, .refl o (placed s.queues g.places) g.places.owner, hk⟩

/-- The lateral nodes after a new one was linked. -/
theorem nodes_append (t k : ℕ) :
    ((s.lateral.append 0 (some t) k).line 0).map
      (fun n => ((s.lateral.append 0 (some t) k).heap n).val) =
      s.lateralNodes ++ [(s.lateral.heap k).val] := by
  rw [Cells.append_line_self, List.map_append, List.map_singleton, Cells.append_val]
  congr 1
  exact List.map_congr_left fun n _ => s.lateral.append_val 0 (some t) k n

/-- The lateral queue grows by a link, and its first node stays. -/
theorem grows_append (t k : ℕ) : Grows (s.laterals g.tailPos)
    (State.laterals { s with lateral := s.lateral.append 0 (some t) k } g.tailPos) := by
  have h := Grows.link (s.laterals g.tailPos) 0 t k
  exact ⟨h.line, h.put, fun _ => le_rfl, h.fresh, h.val⟩

theorem Later.appendLateral
    (hval : (s.lateral.heap k).val = ⟨s.globalPWindow.max + 1, s.globalPWindow.nextWidth⟩) :
    Later ((s, w), g) (({ s with lateral := s.lateral.append 0 (some t) k }, w), g) := by
  have hn := nodes_append (s := s) t k
  refine Later.onLateral (l := s.lateral.append 0 (some t) k) (grows_append t k)
    (hn ▸ List.prefix_append _ _) ?_
  rw [hn]
  intro p v hp hle
  have hlt := (List.getElem?_eq_some_iff.1 hp).1
  rw [List.length_append, List.length_singleton] at hlt
  obtain rfl : p = s.lateralNodes.length := by omega
  rw [List.getElem?_concat_length, hval] at hp
  rw [← Option.some.inj hp]
  exact Nat.lt_succ_self _

theorem Kept.appendLateral (ho : ¬ c.Is o) (hown : g.lateralOwner k = c.op)
    (ht : (s.lateral.line 0)[p]? = some t)
    (hval : (s.lateral.heap k).val = ⟨s.globalPWindow.max + 1, s.globalPWindow.nextWidth⟩) :
    Kept n o ((s, w), g) (({ s with lateral := s.lateral.append 0 (some t) k }, w), g) := by
  have hf := Frame.link (s := s.laterals g.tailPos) ho hown one_pos ht
  exact ⟨.appendLateral hval, .refl o (placed s.queues g.places) g.places.owner,
    ⟨grows_append t k, hf.owner, hf.unlinked⟩⟩

theorem Kept.swingLateral : Kept n o ((s, w), g)
    (({ s with lateralTail := some k }, w), { g with tailPos := g.tailPos + 1 }) :=
  Kept.onLateral (l := s.lateral) (.of_cells ⟨fun _ => List.prefix_refl _, fun _ => Nat.le_succ _,
    fun _ => le_rfl, le_rfl,
    fun _ _ => rfl⟩ rfl) (List.prefix_refl _) (no_newer _)

theorem Kept.moveHead : Kept n o ((s, w), g) (({ s with lateralHead := some k }, w), g) :=
  Kept.onLateral (l := s.lateral) (.refl o (s.laterals g.tailPos) g.lateralOwner)
    (List.prefix_refl _) (no_newer _)

namespace Inv

variable (h : Inv set s w g)
include h

theorem onLateral {l : Cells LateralNode} {head tail : Option ℕ} {f : ℕ → ℕ} {pos : ℕ}
    (hl : Lateral { s with lateral := l, lateralHead := head, lateralTail := tail }
      { g with lateralOwner := f, tailPos := pos })
    (hh : ∃ p h : ℕ, head = some h ∧ (l.line 0)[p]? = some h ∧
      (l.heap h).val.count ≤ s.globalGWindow.max) :
    Inv set { s with lateral := l, lateralHead := head, lateralTail := tail } w
      { g with lateralOwner := f, tailPos := pos } where
  history := h.history
  lateral := hl
  head := hh
  width := h.width
  depth := h.depth
  get_pos := h.get_pos
  get_le := h.get_le
  get_width := h.get_width
  filled := h.filled
  headed := h.headed
  got hc := ⟨(h.got hc).le, (h.got hc).top, (h.got hc).rows⟩
  asserted := h.asserted
  noted := h.noted

theorem lines : Lines 1 s.lateral := h.lateral.valid.lines

/-- The lateral nodes are not changed by an allocation. -/
theorem nodes_create (v : LateralNode) :
    ((s.lateral.create v).line 0).map (fun n => ((s.lateral.create v).heap n).val) =
      s.lateralNodes := by
  refine List.map_congr_left fun n hn => ?_
  show (Function.update s.lateral.heap s.lateral.fresh _ n).val = _
  rw [Function.update_of_ne (h.lines.lt_fresh 0 one_pos n hn).ne]

theorem createLateral (v : LateralNode) (op : ℕ) :
    Inv set { s with lateral := s.lateral.create v } w
      { g with lateralOwner := Function.update g.lateralOwner s.lateral.fresh op } := by
  obtain ⟨pend, hp, he⟩ := h.lateral.nodes
  obtain ⟨q, a, ha, hq, hc⟩ := h.head
  refine h.onLateral (l := s.lateral.create v) ⟨h.lateral.valid.create v,
    ⟨pend, hp, (h.nodes_create v).trans he⟩,
    h.lateral.tail⟩ ⟨q, a, ha, hq, ?_⟩
  show (Function.update s.lateral.heap s.lateral.fresh _ a).val.count ≤ _
  rwa [Function.update_of_ne (h.lines.lt_fresh 0 one_pos a (List.mem_of_getElem? hq)).ne]

theorem createLateral_kept (v : LateralNode) (op : ℕ) : Kept n o ((s, w), g)
    (({ s with lateral := s.lateral.create v }, w),
      { g with lateralOwner := Function.update g.lateralOwner s.lateral.fresh op }) := by
  have hn := h.nodes_create v
  refine Kept.onLateral (l := s.lateral.create v) (.create (s.laterals g.tailPos) v op)
    (hn ▸ List.prefix_refl _) ?_
  rw [hn]
  exact no_newer _

/-- The node for the next window is linked behind the last one, which is at the present window or
below. -/
theorem appendLateral (ht : (s.lateral.line 0)[p]? = some t) (hle : p ≤ g.tailPos)
    (hnone : (s.lateral.heap t).next = none) (hk : Unlinked 1 s.lateral k)
    (hcount : (s.lateral.heap t).val.count ≤ s.globalPWindow.max)
    (hval : (s.lateral.heap k).val = ⟨s.globalPWindow.max + 1, s.globalPWindow.nextWidth⟩)
    (hne : s.globalPWindow.width ≠ s.globalPWindow.nextWidth) :
    Inv set { s with lateral := s.lateral.append 0 (some t) k } w g := by
  obtain ⟨pend, hp, he⟩ := h.lateral.nodes
  obtain ⟨q, a, ha, hq, hc⟩ := h.head
  have hv := h.lateral.valid.link one_pos ht hle hnone hk
  obtain ⟨-, hlast⟩ := h.lateral.valid.put_of_last one_pos ht hle hnone
  have hlast : p + 1 = (s.lateral.line 0).length := hlast
  have hgrows := Grows.link (s.laterals g.tailPos) 0 t k
  have hget : ((s.lateral.append 0 (some t) k).line 0)[0]? = (s.lateral.line 0)[0]? := by
    rw [Cells.append_line_self, List.getElem?_append_left (by omega)]
  refine h.onLateral ⟨⟨hv.lines, hv.tail, hv.near, fun j hj => ?_, hv.le⟩, ?_, h.lateral.tail⟩
    ⟨q, a, ha, hgrows.getElem? hq, ?_⟩
  · obtain rfl : j = 0 := by omega
    exact rfl
  · -- the last node is not the one for the next window yet
    have hnil : pend = [] := by
      cases hp with
      | nil => rfl
      | node =>
        have hval : s.lateralNodes[p]? = some (s.lateral.heap t).val := by
          rw [State.lateralNodes, List.getElem?_map, ht]
          rfl
        have hlen : p = (recorded (windows s g)).length := by
          have := congrArg List.length he
          rw [length_lateralNodes, List.length_append, List.length_singleton] at this
          omega
        rw [he, hlen, List.getElem?_concat_length] at hval
        rw [← Option.some.inj hval] at hcount
        exact absurd hcount (Nat.not_succ_le_self _)
    refine ⟨[⟨s.globalPWindow.max + 1, s.globalPWindow.nextWidth⟩], .node hne, ?_⟩
    show ((s.lateral.append 0 (some t) k).line 0).map _ = _
    rw [nodes_append, he, hnil, hval, List.append_nil]
    rfl
  · rw [Cells.append_val]
    exact hc

theorem swingLateral (hk : (s.lateral.line 0)[g.tailPos + 1]? = some k) :
    Inv set { s with lateralTail := some k } w { g with tailPos := g.tailPos + 1 } := by
  refine h.onLateral ⟨?_, h.lateral.nodes, h.lateral.tail.trans (Nat.le_succ _)⟩ h.head
  have hv := h.lateral.valid.swing (j := 0) hk
  refine ⟨hv.lines, fun j hj => ?_, fun j hj => ?_, fun j hj => ?_, fun _ _ => Nat.zero_le _⟩
  · obtain rfl : j = 0 := by omega
    exact hk
  · obtain rfl : j = 0 := by omega
    have h₁ : g.tailPos + 1 = (s.lateral.line 0).length ∨
      g.tailPos + 2 = (s.lateral.line 0).length :=
      h.lateral.valid.near 0 one_pos
    have h₂ := (List.getElem?_eq_some_iff.1 hk).1
    exact .inl (by show g.tailPos + 1 + 1 = (s.lateral.line 0).length; omega)
  · obtain rfl : j = 0 := by omega
    exact rfl

theorem moveHead (hk : (s.lateral.line 0)[p]? = some k)
    (hc : (s.lateral.heap k).val.count ≤ s.globalGWindow.max) :
    Inv set { s with lateralHead := some k } w g :=
  h.onLateral ⟨h.lateral.valid, h.lateral.nodes, h.lateral.tail⟩ ⟨p, k, rfl, hk, hc⟩

end Inv

/-! ### Steps on the windows -/

/-- The lateral tail is at a node for rows from `count` on, or above. -/
def Reached (count : ℕ) (s : State) (g : Ghost) : Prop :=
  ∃ v, s.lateralNodes[g.tailPos]? = some v ∧ count ≤ v.count

/-- The widths of old rows are not changed by a new put window. -/
theorem rowWidth_shift {new : PutWindow}
    (hnew : new.bottom = s.globalPWindow.max) {r : ℕ} (hr : r ≤ s.globalPWindow.max) :
    rowWidth { s with globalPWindow := new } { g with past := windows s g } r = rowWidth s g r :=
  widthOf_cons (s := new.span) (hr.trans_eq hnew.symm)

namespace Inv

variable (h : Inv set s w g)
include h

/-- The put window moves on when its sub-queues are full and the change of the width is recorded. -/
theorem shiftPut {new : PutWindow} (hok : new.Ok set) (hnew : new.Continues s.globalPWindow)
    (hfull : ∀ j < s.globalPWindow.width, s.globalPWindow.max ≤ (s.putArray j).count)
    (htail : s.globalPWindow.width ≠ s.globalPWindow.nextWidth →
      Reached (s.globalPWindow.max + 1) s g) :
    Inv set { s with globalPWindow := new } w { g with past := windows s g } := by
  have hhist : History set (new :: windows s g) := ⟨hok, hnew, h.history⟩
  have hbottom : new.bottom = s.globalPWindow.max := hhist.bottom_cons
  have hlt := hhist.bottom_lt
  have hle : s.globalPWindow.max ≤ new.max := hbottom.ge.trans hlt.le
  obtain ⟨pend, hp, he⟩ := h.lateral.nodes
  have hsame : ∀ r, r ≤ s.globalPWindow.max →
      rowWidth { s with globalPWindow := new } { g with past := windows s g } r = rowWidth s g r :=
    fun r => rowWidth_shift hbottom
  refine ⟨hhist, ⟨h.lateral.valid, ?_, ?_⟩, h.head, h.width, h.depth, h.get_pos,
    h.get_le.trans hle, h.get_width, h.filled.shift hbottom hlt fun i _ hi => hfull i hi,
    h.headed, fun hc => ⟨(h.got hc).le.trans hle, ?_, fun r hb hr => ?_⟩, h.asserted, h.noted⟩
  · -- the node that was linked for the new window is a recorded one now
    show ∃ pend', Pending new pend' ∧ s.lateralNodes = recorded (new :: windows s g) ++ pend'
    refine ⟨[], .nil, ?_⟩
    rw [List.append_nil, he]
    show _ = if s.globalPWindow.width = new.width then _ else _
    rw [hnew.width]
    cases hp with
    | nil =>
      split
      next => rw [List.append_nil]; rfl
      next hne =>
        obtain ⟨v, hv, hc⟩ := htail hne
        rw [he, List.append_nil] at hv
        have h₁ := h.history.count_le (List.mem_of_getElem? hv)
        have h₂ := h.history.bottom_lt
        omega
    | node hne =>
      rw [if_neg hne]
      rfl
  · show (if s.globalPWindow.width = new.width then recorded (windows s g)
      else recorded (windows s g) ++ [_]).length ≤ g.tailPos + 1
    rw [hnew.width]
    split
    next => exact h.lateral.tail
    next hne =>
      obtain ⟨v, hv, hc⟩ := htail hne
      rw [List.length_append, List.length_singleton]
      by_contra hlt'
      have hlt' : g.tailPos < (recorded (windows s g)).length := by omega
      rw [he, List.getElem?_append_left hlt'] at hv
      have h₁ := h.history.count_le (List.mem_of_getElem? hv)
      have h₂ := h.history.bottom_lt
      omega
  · exact (hsame _ (h.got hc).le).trans (h.got hc).top
  · exact (hsame _ (hr.trans (h.got hc).le)).trans ((h.got hc).rows r hb hr)

/-- The get window moves on. -/
theorem shiftGet {new : GetWindow} (hle : s.globalGWindow.max ≤ new.max)
    (hput : new.max ≤ s.globalPWindow.max) (hwidth : 0 < new.width ∧ new.width ≤ set.maxWidth)
    (hgot : w.Clean → Got s g new) : Inv set { s with globalGWindow := new } w g where
  history := h.history
  lateral := ⟨h.lateral.valid, h.lateral.nodes, h.lateral.tail⟩
  head := by
    obtain ⟨p, a, ha, hp, hc⟩ := h.head
    exact ⟨p, a, ha, hp, hc.trans hle⟩
  width := h.width
  depth := h.depth
  get_pos := h.get_pos.trans_le hle
  get_le := hput
  get_width := hwidth
  filled := h.filled
  headed := h.headed
  got hc := ⟨(hgot hc).le, (hgot hc).top, (hgot hc).rows⟩
  asserted := h.asserted
  noted := h.noted

end Inv

theorem Kept.shiftPut {new : PutWindow} (hok : new.Ok set) (hnew : new.Continues s.globalPWindow) :
    Kept n o ((s, w), g) (({ s with globalPWindow := new }, w),
      { g with past := windows s g }) where
  queues := .refl s.queues g.places
  lateral := .refl (s.laterals g.tailPos)
  nodes := List.prefix_refl _
  newer := no_newer _
  history := List.suffix_cons new (windows s g)
  put_le := (Nat.le_add_right _ _).trans_eq hnew.max.symm
  put_same he := by
    have h₁ := hnew.max
    have h₂ := hok.depth
    have he : s.globalPWindow.max = new.max := he
    omega
  get_le := le_rfl
  get_same _ _ := rfl
  watch := .refl w
  owned := .refl o (placed s.queues g.places) g.places.owner
  ownedLateral := .refl o (s.laterals g.tailPos) g.lateralOwner

theorem Kept.shiftGet (new : GetWindow) (hle : s.globalGWindow.max ≤ new.max)
    (hlt : w.Clean → s.globalGWindow.max < new.max) :
    Kept n o ((s, w), g) (({ s with globalGWindow := new }, w), g) where
  queues := .refl s.queues g.places
  lateral := .refl (s.laterals g.tailPos)
  nodes := List.prefix_refl _
  newer := no_newer _
  history := List.suffix_refl _
  put_le := le_rfl
  put_same _ := rfl
  get_le := hle
  get_same hc he := absurd he (hlt hc).ne
  watch := .refl w
  owned := .refl o (placed s.queues g.places) g.places.owner
  ownedLateral := .refl o (s.laterals g.tailPos) g.lateralOwner

/-! ### Other steps -/

/-- A step on the settings, the notes and the record of failed assertions. -/
theorem Inv.onSettings (h : Inv set s w g) {width depth : ℕ} {failed : Bool} (hw : w.Before w')
    (hwidth : 0 < width ∧ width ≤ set.maxWidth) (hdepth : 0 < depth)
    (hfailed : w'.overtaken = false → failed = false) (hm : w'.Accounted) :
    Inv set { s with width, depth, failed } w' g where
  history := h.history
  lateral := ⟨h.lateral.valid, h.lateral.nodes, h.lateral.tail⟩
  head := h.head
  width := hwidth
  depth := hdepth
  get_pos := h.get_pos
  get_le := h.get_le
  get_width := h.get_width
  filled := h.filled
  headed hc := h.headed (hw.clean hc)
  got hc := ⟨(h.got (hw.clean hc)).le, (h.got (hw.clean hc)).top, (h.got (hw.clean hc)).rows⟩
  asserted := hfailed
  noted := hm

theorem Kept.onSettings (width depth : ℕ) (failed : Bool) (hw : w.Before w') :
    Kept n o ((s, w), g) (({ s with width, depth, failed }, w'), g) where
  queues := .refl s.queues g.places
  lateral := .refl (s.laterals g.tailPos)
  nodes := List.prefix_refl _
  newer := no_newer _
  history := List.suffix_refl _
  put_le := le_rfl
  put_same _ := rfl
  get_le := le_rfl
  get_same _ _ := rfl
  watch := hw
  owned := .refl o (placed s.queues g.places) g.places.owner
  ownedLateral := .refl o (s.laterals g.tailPos) g.lateralOwner

end Watched

end ElasticLpw
