import SemanticRelaxation.ElasticLaw.Interference

/-!
# The steps of the elastic LaW queue under interference

Each kind of step keeps the invariant and what the other threads rely on: steps on the sub-queues
(`Inv.onQueues`), on the lateral queue (`Inv.onLateral`), and on the settings (`Inv.onSettings`).

* `Items.link`: an item is linked in the put window, with the row that follows;
* `Emptied.take`: in an orderly run a head is moved on by at most the rows up to its item
  (`Emptied.next_le`);
* `Inv.swingLateral` and `Inv.moveHead`: the put window moves off full sub-queues, the get window
  stays below it.
-/

namespace ElasticLaw

namespace Watched

open AtomicProg Linked MichaelScott Windowed

variable {set : Params} {s : State} {w w' : Watch} {g : Ghost} {n k p t j r i : ℕ} {o : Owner}
  {c : Caller}
  {d : Descriptor} {q : Places} {put get : ℕ → Descriptor}

/-! ### Steps on the sub-queues -/

theorem Inv.onQueues (h : Inv set s w g) (nodes : Mem Tag) {front : ℕ → ℕ}
    (hw : ∀ j, (s.putArray j).count ≤ (put j).count)
    (hf : Filled set.maxWidth (s.win (g.tail + 1)).span (s.spans g.tail) ⟨nodes.toCells, put,
      get⟩ q)
    (hi : Items set.maxWidth { s with nodes } { g with places := q })
    (hh : w'.late = false → Headed set.maxWidth ⟨nodes.toCells, put, get⟩ q) :
    Inv set { s with nodes, putArray := put, getArray := get } w'
      { g with places := q, front } where
  lateral := h.lateral
  tiled := h.tiled
  order := h.order
  width := h.width
  depth := h.depth
  filled := hf
  closed hlt j hj := (h.closed hlt j hj).trans (hw j)
  items := ⟨hi.placed, hi.window, hi.all⟩
  headed := hh
  asserted := h.asserted

theorem Later.onQueues (nodes : Mem Tag) {front : ℕ → ℕ} (hw : w'.late = false → w.late = false)
    (hk : Grown s.queues g.places ⟨nodes.toCells, put, get⟩ q) :
    Later ((s, w), g)
      (({ s with nodes, putArray := put, getArray := get }, w'), { g with places := q, front }) :=
  ⟨hk, .refl (s.laterals (g.tail + 1) g.head), hw⟩

theorem Kept.onQueues (nodes : Mem Tag) {front : ℕ → ℕ} (hw : w'.late = false → w.late = false)
    (hk : Grown s.queues g.places ⟨nodes.toCells, put, get⟩ q)
    (hf : Frame n o (Windowed.placed s.queues g.places) g.places.owner
      (Windowed.placed ⟨nodes.toCells, put, get⟩ q) q.owner) :
    Kept n o ((s, w), g)
      (({ s with nodes, putArray := put, getArray := get }, w'), { g with places := q, front }) :=
  ⟨.onQueues nodes hw hk, hf, .refl o (s.laterals (g.tail + 1) g.head) g.lateralOwner⟩

/-- An item is linked in the put window. -/
theorem Items.link (h : Items n s g) (hj : j < n)
    (hlen : (g.places.rows j).length = (s.nodes.line j).length) {tag : Tag}
    (hwin : tag.window = s.win (g.tail + 1)) (hjw : j < (s.win (g.tail + 1)).width)
    (hb : (s.win (g.tail + 1)).bottom < tag.row) (hm : tag.row ≤ (s.win (g.tail + 1)).max) :
    Items n { s with nodes := s.nodes.link j (some t) k tag }
      { g with places := g.places.link j tag.row } where
  placed x hx := by
    rcases List.mem_cons.1 hx with rfl | hx
    · refine ⟨hj, ?_, ?_⟩
      · show ((s.nodes.toCells.append j (some t) k).line j)[(s.nodes.line j).length]? = some k
        rw [Cells.append_line_self, List.getElem?_concat_length]
      · show (Function.update g.places.rows j
          (g.places.rows j ++ [tag.row]) j)[(s.nodes.line j).length]? = _
        rw [Function.update_self, ← hlen, List.getElem?_concat_length]
    · obtain ⟨hi, hp, hr⟩ := h.placed x hx
      have hg := Grown.link s.queues g.places j t k tag.row
      exact ⟨hi, hg.line hp, hg.row hr⟩
  window x hx := by
    rcases List.mem_cons.1 hx with rfl | hx
    · exact ⟨g.tail, le_rfl, hwin, hjw, hb, hm⟩
    · exact h.window x hx
  all i hi p h0 hp := by
    have hp : p < ((s.nodes.toCells.append j (some t) k).line i).length := hp
    by_cases hnew : i = j ∧ p = (s.nodes.line j).length
    · obtain ⟨rfl, rfl⟩ := hnew
      exact ⟨_, List.mem_cons_self .., rfl, rfl⟩
    · have hp' : p < (s.nodes.line i).length := by
        by_cases hij : i = j
        · subst hij
          rw [Cells.append_line_self, List.length_append, List.length_singleton] at hp
          have hne : p ≠ (s.nodes.line i).length := fun he => hnew ⟨rfl, he⟩
          omega
        · rwa [Cells.append_line_of_ne _ hij] at hp
      obtain ⟨x, hx, he⟩ := h.all i hi p h0 hp'
      exact ⟨x, List.mem_cons_of_mem _ hx, he⟩

theorem Items.remove (h : Items n s g) (node : Option ℕ) :
    Items n { s with nodes := s.nodes.remove node } g := by
  cases node with
  | none => exact ⟨h.placed, h.window, h.all⟩
  | some k => exact ⟨h.placed, h.window, h.all⟩

@[simp] theorem remove_toCells (m : Mem Tag) (node : Option ℕ) :
    (m.remove node).toCells = m.toCells := by
  cases node <;> rfl

section Queues

theorem Inv.createNode (h : Inv set s w g) (val : ℤ) (op : ℕ) :
    Inv set { s with nodes := s.nodes.create val } w
      { g with places := g.places.create s.nodes.fresh op } :=
  h.onQueues (s.nodes.create val) (fun _ => le_rfl) (h.filled.create val op)
    ⟨h.items.placed, h.items.window, h.items.all⟩ fun hc => (h.headed hc).create val op

theorem Emptied.createNode (h : Emptied set s g) (val : ℤ) (q : Places)
    (hq : q.rows = g.places.rows) :
    Emptied set { s with nodes := s.nodes.create val } { g with places := q } where
  node := h.node
  le i hi r hr := h.le i hi r (hq ▸ hr)
  lists := h.lists.create val
  passed := h.passed

theorem Kept.createNode (val : ℤ) (op : ℕ) : Kept n o ((s, w), g)
    (({ s with nodes := s.nodes.create val }, w),
      { g with places := g.places.create s.nodes.fresh op }) :=
  Kept.onQueues (s.nodes.create val) id (.create s.queues g.places val op)
    (.create (Windowed.placed s.queues g.places) val op)

/-- The tag of an item that is linked in the put window. -/
def linkTag (s : State) (g : Ghost) (j : ℕ) : Tag :=
  ⟨ElasticLaw.nextRow (s.win (g.tail + 1)) (s.putArray j).count, s.win (g.tail + 1)⟩

/-- A node is linked in the put window. -/
theorem Inv.linkNode (h : Inv set s w g) (hj : j < set.maxWidth)
    (hjw : j < (s.win (g.tail + 1)).width) (ht : (s.nodes.line j)[p]? = some t)
    (hle : p ≤ g.places.putPos j) (hnone : (s.nodes.heap t).next = none)
    (hk : Unlinked set.maxWidth s.nodes.toCells k)
    (hlt : (s.putArray j).count < (s.win (g.tail + 1)).max) :
    Inv set { s with nodes := s.nodes.link j (some t) k (linkTag s g j) } w { g with
      places := g.places.link j (linkTag s g j).row } := by
  have hgt := lt_nextRow (s.win (g.tail + 1)) (s.putArray j).count
  have hmax := nextRow_le (h.tiled.bottom_lt h.tail_lt) hlt
  exact h.onQueues (s.nodes.link j (some t) k (linkTag s g j)) (fun _ => le_rfl)
    (h.filled.link hj hjw ht hle hnone hk hlt)
    (h.items.link hj (h.filled.length j hj) rfl hjw hgt.2 hmax)
    fun hc => (h.headed hc).link h.filled j t k _

theorem Emptied.linkNode (he : Emptied set s g) (h : Inv set s w g) (hj : j < set.maxWidth)
    (ht : (s.nodes.line j)[p]? = some t) (hle : p ≤ g.places.putPos j)
    (hnone : (s.nodes.heap t).next = none) (hk : Unlinked set.maxWidth s.nodes.toCells k)
    (tag : Tag) (r : ℕ) :
    Emptied set { s with nodes := s.nodes.link j (some t) k tag } { g with
      places := g.places.link j r } := by
  have hg := Grown.link s.queues g.places j t k r
  have hfront : ∀ i < set.maxWidth, g.front i < (s.nodes.line i).length := fun i hi => by
    obtain ⟨t, -, ht⟩ := he.node i hi
    exact (List.getElem?_eq_some_iff.1 ht).1
  obtain ⟨-, hlast⟩ := h.filled.tail_of_last hj ht hle hnone
  have hlast : p + 1 = (s.nodes.line j).length := hlast
  have hpos := hfront j hj
  refine ⟨fun i hi => ?_, fun i hi r' hr' => ?_,
    he.lists.link hj ht hnone hk.lt_fresh hk.notMem hk.next
    (by omega) tag, he.passed⟩
  · obtain ⟨t', hn, ht'⟩ := he.node i hi
    exact ⟨t', hn, hg.line ht'⟩
  · have hlt : g.front i < (g.places.rows i).length :=
      (hfront i hi).trans_eq (h.filled.length i hi).symm
    have hold := hg.row (List.getElem?_eq_getElem hlt)
    refine he.le i hi r' ?_
    rw [← hr', List.getElem?_eq_getElem hlt]
    exact hold.symm

theorem Later.linkNode (j t k r : ℕ) (tag : Tag) : Later ((s, w), g)
    (({ s with nodes := s.nodes.link j (some t) k tag }, w),
      { g with places := g.places.link j r }) :=
  Later.onQueues (s.nodes.link j (some t) k tag) id (.link s.queues g.places j t k r)

theorem Kept.linkNode (ho : ¬ c.Is o) (hown : g.places.owner k = c.op) (hj : j < n)
    (ht : (s.nodes.line j)[p]? = some t) (r : ℕ) (tag : Tag) : Kept n o ((s, w), g)
    (({ s with nodes := s.nodes.link j (some t) k tag }, w),
      { g with places := g.places.link j r }) :=
  Kept.onQueues (s.nodes.link j (some t) k tag) id (.link s.queues g.places j t k r)
    (frame_link ho hown hj ht)

/-- A tail is swung to the node behind it. -/
theorem Inv.swingNode (h : Inv set s w g) (hj : j < set.maxWidth)
    (hk : (s.nodes.line j)[g.places.putPos j + 1]? = some k) :
    Inv set { s with
      putArray := Function.update s.putArray j
        ⟨some k, Windowed.nextRow (s.win (g.tail + 1)).bottom (s.putArray j).count⟩ } w
      { g with places := g.places.swing j } :=
  have hgt := (nextRow_gt (s.win (g.tail + 1)).bottom (s.putArray j).count).1.le
  h.onQueues s.nodes (count_le_update hgt) (h.filled.swing hj hk)
    ⟨h.items.placed, h.items.window, h.items.all⟩ fun hc => (h.headed hc).swing j _

theorem Emptied.swingNode (h : Emptied set s g) (j : ℕ) (d : Descriptor) :
    Emptied set { s with putArray := Function.update s.putArray j d }
      { g with places := g.places.swing j } :=
  ⟨h.node, h.le, h.lists, h.passed⟩

theorem Kept.swingNode {d : Descriptor} (hd : (s.putArray j).count ≤ d.count) : Kept n o ((s, w), g)
    (({ s with putArray := Function.update s.putArray j d }, w),
      { g with places := g.places.swing j }) :=
  have hg := Grown.swing (x := s.queues) g.places hd
  Kept.onQueues s.nodes id hg (.of_cells hg.store rfl)

/-! ### Taking an item -/

/-- A head is moved on. -/
theorem Inv.takeNode (h : Inv set s w g) (hw : w'.late = false → w.late = false)
    (hc : w'.late = false) (hj : j < set.maxWidth) (hlt : g.places.getPos j < g.places.putPos j)
    (hnode : d.node = (s.nodes.line j)[g.places.getPos j + 1]?)
    (hrow : ∀ r', (g.places.rows j)[g.places.getPos j + 1]? = some r' → r' ≤ d.count)
    (front : ℕ → ℕ) :
    Inv set { s with
      getArray := Function.update s.getArray j d
      nodes := s.nodes.remove d.node } w' { g with places := g.places.take j, front } := by
  obtain ⟨node, r⟩ := d
  obtain rfl : node = _ := hnode
  have hi := h.items.remove (s.nodes.line j)[g.places.getPos j + 1]?
  refine h.onQueues (s.nodes.remove _) (fun _ => le_rfl) ?_ ⟨hi.placed, hi.window, hi.all⟩
    fun _ => ?_
  · rw [remove_toCells]
    exact h.filled.take hj hlt _
  · rw [remove_toCells]
    exact (h.headed (hw hc)).take hrow

/-- A get descriptor is overwritten in a run with a late dequeue. -/
theorem Inv.loseNode (h : Inv set s w g) (hc : w'.late = true) (d : Descriptor) (front : ℕ → ℕ) :
    Inv set { s with
      getArray := Function.update s.getArray j d
      nodes := s.nodes.remove d.node } w' { g with front } := by
  have hi := h.items.remove d.node
  refine h.onQueues (s.nodes.remove _) (q := g.places) (fun _ => le_rfl) ?_ ⟨hi.placed, hi.window,
    hi.all⟩
    fun hc' => absurd (hc.symm.trans hc') Bool.noConfusion
  rw [remove_toCells]
  exact { h.filled with }

theorem Kept.takeNode (hw : w'.late = false → w.late = false) (hd : (s.getArray j).count ≤ d.count)
    (front : ℕ → ℕ) : Kept n o ((s, w), g) (({ s with
      getArray := Function.update s.getArray j d
      nodes := s.nodes.remove d.node }, w'), { g with places := g.places.take j, front }) := by
  have hg := Grown.take (x := s.queues) g.places hd
  refine Kept.onQueues (s.nodes.remove _) hw ?_ ?_
  · rw [remove_toCells]
    exact hg
  · rw [remove_toCells]
    exact .of_cells hg.store rfl

theorem Kept.loseNode (hw : w'.late = false → w.late = false) (hd : (s.getArray j).count ≤ d.count)
    (front : ℕ → ℕ) : Kept n o ((s, w), g) (({ s with
      getArray := Function.update s.getArray j d
      nodes := s.nodes.remove d.node }, w'), { g with front }) := by
  have hg := Grown.lose (x := s.queues) g.places hd
  refine Kept.onQueues (s.nodes.remove _) (q := g.places) hw ?_ ?_
  · rw [remove_toCells]
    exact hg
  · rw [remove_toCells]
    exact .of_cells hg.store rfl

namespace Emptied

variable (he : Emptied set s g)
include he

/-- The row that a dequeue computes in a window that has been the get window is not above that of
the next item. -/
theorem next_le (h : Inv set s w g) (hj : j < set.maxWidth) (hi : i ≤ g.head)
    (hr : (g.places.rows j)[g.front j + 1]? = some r) :
    ElasticLaw.nextRow (s.win (i + 1)) (s.getArray j).count ≤ r := by
  have hlen := h.filled.length j hj
  have hlt := (List.getElem?_eq_some_iff.1 hr).1
  have hr₀ := List.getElem?_eq_getElem (Nat.lt_of_succ_lt hlt)
  have hle := he.le j hj _ hr₀
  have hrow := lt_of_getElem? (h.filled.sorted j hj) hr₀ hr (Nat.lt_succ_self _)
  have htail := h.tail_lt
  have horder := h.order
  unfold ElasticLaw.nextRow
  split
  next => omega
  next =>
    by_contra hgt
    -- an item below the window would be in one that the lateral head has passed
    obtain ⟨x, hx, hxi, hxp⟩ := h.items.all j hj (g.front j + 1) (Nat.succ_pos _)
      (hlt.trans_eq hlen)
    obtain ⟨l, hl, -, hidx, hbl, hml⟩ := h.items.window x hx
    have hxr : x.tag.row = r := by
      have h₁ := (h.items.placed x hx).2.2
      rw [hxi, hxp, hr] at h₁
      exact (Option.some.inj h₁).symm
    rw [hxr] at hbl hml
    rw [hxi] at hidx
    have h₁ := h.tiled.bottom_eq (k := i) (by omega)
    have h₂ := h.tiled.bottom_eq (k := l) (by omega)
    have hli : l < i := h.tiled.lt_of_max_lt (show l < s.line.length by omega) (by omega)
    have h₃ := he.passed l (hli.trans_le hi) j hidx
    omega

theorem take (h : Inv set s w g) (hj : j < set.maxWidth) (hi : i ≤ g.head)
    (hk : (s.nodes.line j)[g.front j + 1]? = some k) (hq : q.rows = g.places.rows) :
    Emptied set { s with
        getArray := Function.update s.getArray j
          ⟨some k, ElasticLaw.nextRow (s.win (i + 1)) (s.getArray j).count⟩
        nodes := s.nodes.remove (some k) }
      { g with places := q, front := Function.update g.front j (g.front j + 1) } := by
  have hcount : (s.getArray j).count ≤ ElasticLaw.nextRow (s.win (i + 1)) (s.getArray j).count :=
    (lt_nextRow _ _).1.le
  obtain ⟨A, x, B, -, -, -, -, -, -, hlists⟩ := he.lists.remove hj hk
  refine ⟨fun m hm => ?_, fun m hm r hr => ?_, hlists, fun l hl m hm => ?_⟩
  · show ∃ t, (Function.update s.getArray j _ m).node = some t ∧
      (s.nodes.line m)[Function.update g.front j (g.front j + 1) m]? = some t
    by_cases hmj : m = j
    · subst hmj
      rw [Function.update_self, Function.update_self]
      exact ⟨k, rfl, hk⟩
    · rw [Function.update_of_ne hmj, Function.update_of_ne hmj]
      exact he.node m hm
  · have hr : (q.rows m)[Function.update g.front j (g.front j + 1) m]? = some r := hr
    show (Function.update s.getArray j _ m).count ≤ r
    rw [hq] at hr
    by_cases hmj : m = j
    · subst hmj
      rw [Function.update_self] at hr ⊢
      exact he.next_le h hm hi hr
    · rw [Function.update_of_ne hmj] at hr ⊢
      exact he.le m hm r hr
  · exact (he.passed l hl m hm).trans (count_le_update hcount m)

end Emptied

end Queues

/-! ### Steps on the lateral queue -/

section Laterals

variable {l : Cells Window} {head tail : Option ℕ} {f : ℕ → ℕ} {T H : ℕ}

theorem Inv.onLateral (h : Inv set s w g) (hwin : ∀ k < s.line.length, l.valAt k = s.win k)
    (hT : g.tail ≤ T) (hv : Valid 1
      (State.laterals { s with lateral := l, lateralHead := head, lateralTail := tail } (T + 1) H))
    (ht : Tiled set l) (ho : H ≤ T)
    (hf : Filled set.maxWidth (l.valAt (T + 1)).span (spansTo l T) s.queues g.places)
    (hc : T + 2 < (l.line 0).length →
      ∀ j < (l.valAt (T + 1)).width, (l.valAt (T + 1)).max ≤ (s.putArray j).count) :
    Inv set { s with lateral := l, lateralHead := head, lateralTail := tail } w
      { g with lateralOwner := f, tail := T, head := H } where
  lateral := hv
  tiled := ht
  order := ho
  width := h.width
  depth := h.depth
  filled := hf
  closed := hc
  items := by
    refine ⟨h.items.placed, fun x hx => ?_, h.items.all⟩
    obtain ⟨k, hk, hitem⟩ := h.items.window x hx
    have hlt := h.tail_lt
    refine ⟨k, hk.trans hT, ?_⟩
    show _ = l.valAt (k + 1) ∧ _ < (l.valAt (k + 1)).width ∧ (l.valAt (k + 1)).bottom < _ ∧
      _ ≤ (l.valAt (k + 1)).max
    rw [hwin (k + 1) (by omega)]
    exact hitem
  headed := h.headed
  asserted := h.asserted

theorem Emptied.onLateral (he : Emptied set s g) (h : Inv set s w g)
    (hwin : ∀ k < s.line.length, l.valAt k = s.win k) :
    Emptied set { s with lateral := l, lateralHead := head, lateralTail := tail }
      { g with lateralOwner := f, tail := T } where
  node := he.node
  le := he.le
  lists := he.lists
  passed k hk i hi := by
    have hlt := h.tail_lt
    have hle := h.order
    have hk : k < g.head := hk
    have hi : i < (l.valAt (k + 1)).width := hi
    show (l.valAt (k + 1)).max ≤ _
    rw [hwin (k + 1) (by omega)] at hi ⊢
    exact he.passed k hk i hi

/-- The windows and the sub-queues, where the windows so far stay. -/
theorem Inv.filled_of (h : Inv set s w g) (hwin : ∀ k < s.line.length, l.valAt k = s.win k) :
    Filled set.maxWidth (l.valAt (g.tail + 1)).span (spansTo l g.tail) s.queues g.places := by
  have hlt := h.tail_lt
  rw [hwin _ hlt, spansTo_congr fun k hk => hwin k (by omega)]
  exact h.filled

theorem Later.onLateral (hk : Grows (s.laterals (g.tail + 1) g.head)
      (State.laterals { s with lateral := l, lateralHead := head, lateralTail := tail }
        (T + 1) H)) :
    Later ((s, w), g) (({ s with lateral := l, lateralHead := head, lateralTail := tail }, w),
      { g with lateralOwner := f, tail := T, head := H }) := ⟨.refl s.queues g.places, hk, id⟩

theorem Kept.onLateral (hk : Frame 1 o (s.laterals (g.tail + 1) g.head) g.lateralOwner
      (State.laterals { s with lateral := l, lateralHead := head, lateralTail := tail }
        (T + 1) H) f) :
    Kept n o ((s, w), g) (({ s with lateral := l, lateralHead := head, lateralTail := tail }, w),
      { g with lateralOwner := f, tail := T, head := H }) :=
  ⟨.onLateral hk.grows, .refl o (Windowed.placed s.queues g.places) g.places.owner, hk⟩

/-- The same nodes with the same windows. -/
theorem Tiled.congr (h : Tiled set s.lateral) (hline : l.line = s.lateral.line)
    (hwin : ∀ k < s.line.length, l.valAt k = s.win k) : Tiled set l where
  first := by
    by_cases hlt : 0 < s.line.length
    · rw [hwin 0 hlt]
      exact h.first
    · rw [Cells.valAt, hline]
      have hnil : s.lateral.line 0 = [] := List.length_eq_zero_iff.1 (Nat.eq_zero_of_not_pos hlt)
      rw [hnil]
      rfl
  tile k hk := by
    have hk : k + 1 < s.line.length := by rwa [hline] at hk
    rw [hwin _ hk, hwin _ (Nat.lt_of_succ_lt hk)]
    exact h.tile k hk
  depth k hk := by
    have hk : k + 1 < s.line.length := by rwa [hline] at hk
    rw [hwin _ hk]
    exact h.depth k hk
  width k hk := by
    have hk : k < s.line.length := by rwa [hline] at hk
    rw [hwin _ hk]
    exact h.width k hk

/-- One more window, above the last one. -/
theorem Tiled.append (h : Tiled set s.lateral) (hpos : s.line.length = k + 1)
    (hlen : (l.line 0).length = s.line.length + 1) (hwin : ∀ k < s.line.length, l.valAt k = s.win k)
    (hmax : (l.valAt (k + 1)).max = (s.win k).max + (l.valAt (k + 1)).depth)
    (hd : 0 < (l.valAt (k + 1)).depth) (hw : Allocated set (l.valAt (k + 1)).width) :
    Tiled set l where
  first := by
    rw [hwin 0 (by omega)]
    exact h.first
  tile m hm := by
    by_cases hmk : m = k
    · subst hmk
      rw [hwin m (by omega)]
      exact hmax
    · rw [hwin _ (show m + 1 < s.line.length by omega), hwin m (by omega)]
      exact h.tile m (show m + 1 < s.line.length by omega)
  depth m hm := by
    by_cases hmk : m = k
    · subst hmk
      exact hd
    · rw [hwin _ (show m + 1 < s.line.length by omega)]
      exact h.depth m (show m + 1 < s.line.length by omega)
  width m hm := by
    by_cases hmk : m = k + 1
    · subst hmk
      exact hw
    · rw [hwin _ (show m < s.line.length by omega)]
      exact h.width m (show m < s.line.length by omega)

/-- The windows after a new node was allocated. -/
theorem Inv.win_create (h : Inv set s w g) (v : Window) :
    ∀ k < s.line.length, (s.lateral.create v).valAt k = s.win k := fun _ hk =>
  have hg := Grows.create (s.laterals (g.tail + 1) g.head) v
  valAt_of_prefix h.lines (hg.line 0) hg.val hk

theorem Inv.createLateral (h : Inv set s w g) (v : Window) (op : ℕ) :
    Inv set { s with lateral := s.lateral.create v } w
      { g with lateralOwner := Function.update g.lateralOwner s.lateral.fresh op } :=
  have hwin := h.win_create v
  h.onLateral (l := s.lateral.create v) hwin le_rfl (h.lateral.create v)
    (h.tiled.congr rfl hwin) h.order
    (h.filled_of hwin) fun hlt => by
      rw [hwin _ h.tail_lt]
      exact h.closed hlt

theorem Kept.createLateral (v : Window) (op : ℕ) : Kept n o ((s, w), g)
    (({ s with lateral := s.lateral.create v }, w),
      { g with lateralOwner := Function.update g.lateralOwner s.lateral.fresh op }) :=
  Kept.onLateral (l := s.lateral.create v) (.create (s.laterals (g.tail + 1) g.head) v op)

/-- The windows after a node was linked. -/
theorem Inv.win_append (h : Inv set s w g) (t k : ℕ) :
    ∀ m < s.line.length, (s.lateral.append 0 (some t) k).valAt m = s.win m := fun _ hm =>
  have hg := Grows.link (s.laterals (g.tail + 1) g.head) 0 t k
  valAt_of_prefix h.lines (hg.line 0) hg.val hm

/-- A window is appended to a put window whose sub-queues are full. -/
theorem Inv.appendLateral (h : Inv set s w g) (ht : s.line[p]? = some t) (hle : p ≤ g.tail + 1)
    (hnone : (s.lateral.heap t).next = none) (hk : Unlinked 1 s.lateral k)
    (hval : (s.lateral.heap k).val.max = (s.win (g.tail + 1)).max + (s.lateral.heap k).val.depth)
    (hd : 0 < (s.lateral.heap k).val.depth) (hw : Allocated set (s.lateral.heap k).val.width)
    (hfull : ∀ j < (s.win (g.tail + 1)).width, (s.win (g.tail + 1)).max ≤ (s.putArray j).count) :
    Inv set { s with lateral := s.lateral.append 0 (some t) k } w g := by
  have hwin := h.win_append t k
  have hv := h.lateral.link one_pos ht hle hnone hk
  obtain ⟨hput, hlast⟩ := h.lateral.put_of_last one_pos ht hle hnone
  obtain rfl : g.tail + 1 = p := hput
  have hlast : g.tail + 1 + 1 = s.line.length := hlast
  have hline : (s.lateral.append 0 (some t) k).line 0 = s.line ++ [k] := Cells.append_line_self ..
  have hnew : (s.lateral.append 0 (some t) k).valAt (g.tail + 1 + 1) = (s.lateral.heap k).val := by
    rw [Cells.valAt, hline, hlast, List.getElem?_concat_length]
    exact Cells.append_val ..
  have htiled : Tiled set (s.lateral.append 0 (some t) k) :=
    h.tiled.append hlast.symm (by rw [hline, List.length_append]; rfl) hwin
      (by rw [hnew]; exact hval)
      (by rw [hnew]; exact hd) (by rw [hnew]; exact hw)
  exact h.onLateral (l := s.lateral.append 0 (some t) k)
    (f := g.lateralOwner) hwin le_rfl hv htiled h.order
    (h.filled_of hwin) fun _ => by
      rw [hwin _ h.tail_lt]
      exact hfull

theorem Later.appendLateral (t k : ℕ) :
    Later ((s, w), g) (({ s with lateral := s.lateral.append 0 (some t) k }, w), g) :=
  Later.onLateral (l := s.lateral.append 0 (some t) k) (f := g.lateralOwner)
    (Grows.link (s.laterals (g.tail + 1) g.head) 0 t k)

theorem Kept.appendLateral (ho : ¬ c.Is o) (hown : g.lateralOwner k = c.op)
    (ht : s.line[p]? = some t) :
    Kept n o ((s, w), g) (({ s with lateral := s.lateral.append 0 (some t) k }, w), g) :=
  Kept.onLateral (l := s.lateral.append 0 (some t) k)
    (Frame.link (s := s.laterals (g.tail + 1) g.head) ho hown one_pos ht)

/-- The lateral tail is swung: the sub-queues of the put window are full. -/
theorem Inv.swingLateral (h : Inv set s w g) (hk : s.line[g.tail + 2]? = some k) :
    Inv set { s with lateralTail := some k } w { g with tail := g.tail + 1 } := by
  have hlt : g.tail + 2 < s.line.length := (List.getElem?_eq_some_iff.1 hk).1
  have hnear := h.near
  have hlast : g.tail + 3 = s.line.length := by omega
  refine h.onLateral (fun _ _ => rfl) (Nat.le_succ _) ?_ h.tiled (h.order.trans (Nat.le_succ _)) ?_
    fun hgt => ?_
  · refine ⟨h.lines, fun j hj => ?_, fun j hj => ?_, h.lateral.head,
      fun j hj => (h.lateral.le j hj).trans (Nat.le_succ _)⟩
    · obtain rfl : j = 0 := Nat.lt_one_iff.1 hj
      exact hk
    · obtain rfl : j = 0 := Nat.lt_one_iff.1 hj
      exact .inl hlast
  · exact h.filled.shift (h.tiled.bottom_eq hlt) (h.tiled.bottom_lt hlt) fun i _ hi =>
      h.closed hlt i hi
  · exact absurd (show g.tail + 3 < s.line.length from hgt) (by omega)

theorem Kept.swingLateral : Kept n o ((s, w), g)
    (({ s with lateralTail := some k }, w), { g with tail := g.tail + 1 }) :=
  Kept.onLateral (l := s.lateral) (.of_cells ⟨fun _ => List.prefix_refl _, fun _ => Nat.le_succ _,
    fun _ => le_rfl, le_rfl, fun _ _ => rfl⟩ rfl)

/-- The lateral head is moved on, to a window below the put window. -/
theorem Inv.moveHead (h : Inv set s w g) (hk : s.line[g.head + 1]? = some k)
    (hlt : g.head < g.tail) :
    Inv set { s with lateralHead := some k } w { g with head := g.head + 1 } := by
  refine h.onLateral (fun _ _ => rfl) le_rfl ⟨h.lines, h.lateral.tail, h.lateral.near,
    fun j hj => ?_,
    fun _ _ => Nat.succ_le_succ hlt.le⟩ h.tiled hlt h.filled h.closed
  obtain rfl : j = 0 := Nat.lt_one_iff.1 hj
  exact hk

/-- In an orderly run the get window that is left has been emptied. -/
theorem Emptied.moveHead (he : Emptied set s g) (h : Inv set s w g) (hlt : g.head < g.tail)
    (hall : ∀ j < (getWin s).width, ¬ Passes s j) (head : Option ℕ) :
    Emptied set { s with lateralHead := head } { g with head := g.head + 1 } where
  node := he.node
  le := he.le
  lists := he.lists
  passed m hm i hi := by
    have hm : m < g.head + 1 := hm
    rcases Nat.lt_succ_iff_lt_or_eq.1 hm with hlt' | rfl
    · exact he.passed m hlt' i hi
    · rw [h.getWin_eq] at hall
      have hfull := h.full hlt hi
      by_contra hget
      have hget : (s.getArray i).count < (s.win (g.head + 1)).max := not_le.1 hget
      exact hall i hi ⟨by rw [h.getWin_eq]; exact hget, hget.trans_le hfull⟩

theorem Kept.moveHead : Kept n o ((s, w), g)
    (({ s with lateralHead := some k }, w), { g with head := g.head + 1 }) :=
  Kept.onLateral (l := s.lateral) (.of_cells ⟨fun _ => List.prefix_refl _, fun _ => le_rfl,
    fun _ => Nat.le_succ _, le_rfl, fun _ _ => rfl⟩ rfl)

end Laterals

/-! ### The settings -/

theorem Inv.onSettings (h : Inv set s w g) {width depth : ℕ} (hwidth : Allocated set width)
    (hdepth : 0 < depth) :
    Inv set { s with width, depth } w g where
  lateral := h.lateral
  tiled := h.tiled
  order := h.order
  width := hwidth
  depth := hdepth
  filled := h.filled
  closed := h.closed
  items := ⟨h.items.placed, h.items.window, h.items.all⟩
  headed := h.headed
  asserted := h.asserted

theorem Emptied.onSettings (h : Emptied set s g) (width depth : ℕ) :
    Emptied set { s with width, depth } g :=
  ⟨h.node, h.le, h.lists, h.passed⟩

theorem Kept.onSettings (width depth : ℕ) :
    Kept n o ((s, w), g) (({ s with width, depth }, w), g) :=
  ⟨⟨.refl s.queues g.places, .refl (s.laterals (g.tail + 1) g.head), id⟩,
    .refl o (Windowed.placed s.queues g.places) g.places.owner,
    .refl o (s.laterals (g.tail + 1) g.head) g.lateralOwner⟩

end Watched

end ElasticLaw
