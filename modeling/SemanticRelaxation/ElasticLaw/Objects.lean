import SemanticRelaxation.Support.WindowedFifos
import SemanticRelaxation.ElasticLaw.Choices

/-!
# Objects that explain the elastic LaW queue

* `settings width depth B`: the queue `B` with the registers that `update_width` and `update_depth`
  exchange;
* `Explains B set assume stands`: the steps of the code on the nodes are steps of `B`;
* `explains_queues`: `max_width` queues explain the nodes as long as there is no late dequeue;
* `layered n`: a queue whose values lie in windows. What is taken has at most `(width - 1) * depth`
  older values before it, where `width` and `depth` are those of the window that it was put into.
  `Emptied.older_le` is this bound in an orderly run, and `explains_layered` says that the object
  explains the nodes there.
-/

namespace ElasticLaw

open AtomicProg Linked MichaelScott Windowed Fifos

/-- A node is linked, and the node behind a head is taken. -/
def State.linked (s : State) (j t n : ℕ) (tag : Tag) : State :=
  { s with nodes := s.nodes.link j (some t) n tag }

def State.taken (s : State) (j m count : ℕ) : State :=
  { s with
    getArray := Function.update s.getArray j ⟨some m, count⟩
    nodes := s.nodes.remove (some m) }

/-- A put answers 1, a get the value or nothing. -/
def Call.interface : Interface Call (Option ℤ) where
  kind
    | .enqueue val => .put val
    | .dequeue => .get
    | _ => .other
  done := some 1
  got := some
  empty := none

namespace Watched

/-! ### The objects -/

/-- The object `B` next to two registers with the width and the depth of the next windows. -/
def settings (width depth : ℕ) (B : Spec Call (Option ℤ)) : Spec Call (Option ℤ) where
  State := ℕ × ℕ × B.State
  init := (width, depth, B.init)
  step x call r x' := match call with
    | .register => r = none ∧ x' = x
    | .updateWidth w => r = some (x.1 : ℤ) ∧ x' = (w, x.2.1, x.2.2)
    | .updateDepth d => r = some (x.2.1 : ℤ) ∧ x' = (x.1, d, x.2.2)
    | call => x'.1 = x.1 ∧ x'.2.1 = x.2.1 ∧ B.step x.2.2 call r x'.2.2

/-- A value in a sub-queue, with the window that it was put into. -/
structure Stored where
  idx : ℕ
  window : Window
  val : ℤ

/-- A queue on `n` sub-queues that is put together from windows. It has the windows so far and the
values in the order in which they were put. -/
def layered (n : ℕ) : Spec Call (Option ℤ) where
  State := List Window × List Stored
  init := ([], [])
  step x call r x' := match call with
    | .enqueue val => r = some 1 ∧ ∃ e : Stored, e.val = val ∧ e.idx < e.window.width ∧
        e.window ∈ x'.1 ∧
        x.1 <+: x'.1 ∧ x'.2 = x.2 ++ [e]
    | .dequeue => x'.1 = x.1 ∧ ((r = none ∧ x'.2 = x.2 ∧ ∃ j < n, ∀ e ∈ x.2, e.idx ≠ j) ∨
        ∃ older e younger, x.2 = older ++ e :: younger ∧ (∀ y ∈ older, y.idx ≠ e.idx) ∧
          older.length ≤ e.window.depth * (e.window.width - 1) ∧ r = some e.val ∧
            x'.2 = older ++ younger)
    | _ => x' = x

/-- The object `B` explains the nodes: the steps of the code on them are steps of `B`. -/
structure Explains (B : Spec Call (Option ℤ)) (set : Params) (assume : State → State → Prop)
    (stands : B.State → State → Prop) : Prop where
  same : ∀ {y s s'}, s'.nodes = s.nodes → s'.getArray = s.getArray → s.windows <+: s'.windows →
    stands y s → stands y s'
  create : ∀ {y s w g} val, Inv set s w g → stands y s → stands y
    { s with nodes := s.nodes.create val }
  link : ∀ {y s w g j p t n} tag, Inv set s w g → w.late = false →
    ((∀ s s', assume s s' → Orderly set s s') → Emptied set s g) → j < set.maxWidth →
    j < (s.win (g.tail + 1)).width → (s.nodes.line j)[p]? = some t → p ≤ g.places.putPos j →
    (s.nodes.heap t).next = none → Unlinked set.maxWidth s.nodes.toCells n →
    tag.window = s.win (g.tail + 1) →
    stands y s → ∃ y', B.step y (.enqueue (s.nodes.heap n).val) (some 1) y' ∧
      stands y' (s.linked j t n tag)
  take : ∀ {y s w g j m} count, Inv set s w g → w.late = false →
    ((∀ s s', assume s s' → Orderly set s s') → Emptied set s g) → j < set.maxWidth →
    g.places.getPos j < g.places.putPos j → (s.nodes.line j)[g.places.getPos j + 1]? = some m →
    (∀ r, (g.places.rows j)[g.places.getPos j + 1]? = some r → r ≤ (s.win (g.head + 1)).max) →
    stands y s → ∃ y', B.step y .dequeue (some (s.nodes.heap m).val) y' ∧
      stands y' (s.taken j m count)
  empty : ∀ {y s w g j p t}, Inv set s w g → w.late = false →
    ((∀ s s', assume s s' → Orderly set s s') → Emptied set s g) → j < set.maxWidth →
    (s.nodes.line j)[p]? = some t → p ≤ g.places.getPos j → (s.nodes.heap t).next = none →
    stands y s → B.step y .dequeue none y

/-! ### An array of queues -/

variable {set : Params} {s s' : State} {w w' : Watch} {g g' : Ghost} {assume : State → State → Prop}

theorem explains_queues (set : Params) (assume : State → State → Prop) :
    Explains (spec Call.interface set.maxWidth) set assume fun y s =>
      Holds set.maxWidth s.queues y where
  same hn hg _ hy := hy.congr fun j _ => by
    refine content_congr ?_ ?_ fun k _ => ?_
    · exact congrArg (fun m : Mem Tag => m.line j) hn
    · exact congrArg (fun a : ℕ → Descriptor => (a j).node) hg
    · exact congrArg (fun m : Mem Tag => (m.heap k).val) hn
  create val hi hy := hy.congr fun j hj => content_congr rfl rfl fun k hk =>
    (Grows.create _ val).val k (hi.filled.valid.lines.lt_fresh j hj k hk)
  link _ hi hlate _ hj _ ht hp hnone hn _ hy :=
    (hi.headed hlate).holds_link hi.filled hj ht hp hnone hn rfl hy
  take count hi hlate _ hj hlt hm _ hy :=
    (hi.headed hlate).holds_take hi.filled hj hlt hm count rfl hy
  empty hi hlate _ hj ht hp hnone hy :=
    (hi.headed hlate).holds_empty hi.filled hj ht hp hnone rfl hy

/-! ### A queue of windows -/

/-- The values present, oldest first. -/
def stored (s : State) :
    List Stored := s.nodes.hist.present.map fun x => ⟨x.idx, x.tag.window, x.val⟩

/-- The values are present in the order of their windows. -/
structure Layers (y : List Window × List Stored) (s : State) : Prop where
  windows : y.1 <+: s.windows
  items : y.2 = stored s
  sorted : s.nodes.hist.present.Pairwise fun a b => a.tag.window.max ≤ b.tag.window.max

/-- In an orderly run an item whose row is not above the get window is in the get window. -/
theorem Emptied.window_eq (he : Emptied set s g) (hi : Inv set s w g) {x : Item Tag}
    (hx : x ∈ s.nodes.hist.present) (hrow : x.tag.row ≤ (s.win (g.head + 1)).max) :
    x.tag.window = s.win (g.head + 1) ∧ x.idx < (s.win (g.head + 1)).width ∧
      (s.win (g.head + 1)).bottom < x.tag.row := by
  obtain ⟨k, hk, hwin, hidx, hb, hmax⟩ := hi.items.window x (he.lists.conserved.mem_added hx)
  have htail := hi.tail_lt
  have hle : g.head ≤ k := by
    by_contra hlt
    exact absurd hmax (not_le.2 (he.lt_row hi (not_le.1 hlt) hx hidx))
  have hge : k ≤ g.head := by
    by_contra hlt
    rw [hi.tiled.bottom_eq (by omega)] at hb
    have hmono := hi.tiled.max_le (k := g.head + 1) (l := k) (by omega) (by omega)
    omega
  obtain rfl : k = g.head := le_antisymm hge hle
  exact ⟨hwin, hidx, hb⟩

/-- In an orderly run an item of the get window has older ones in the other sub-queues of its window
only. -/
theorem Emptied.older_le (he : Emptied set s g) (hi : Inv set s w g) {A B : List (Item Tag)}
    {x : Item Tag} (hp : s.nodes.hist.present = A ++ x :: B) (hA : ∀ y ∈ A, y.idx ≠ x.idx)
    (hsorted : s.nodes.hist.present.Pairwise fun a b => a.tag.window.max ≤ b.tag.window.max)
    (hrow : x.tag.row ≤ (s.win (g.head + 1)).max) :
    A.length ≤ x.tag.window.depth * (x.tag.window.width - 1) := by
  have hx : x ∈ s.nodes.hist.present := hp ▸ List.mem_append_right _ (List.mem_cons_self ..)
  have hmem : ∀ y ∈ A, y ∈ s.nodes.hist.present := fun y hy => hp ▸ List.mem_append_left _ hy
  obtain ⟨hwin, hidx, -⟩ := he.window_eq hi hx hrow
  rw [hp, List.pairwise_append] at hsorted
  have hin : ∀ y ∈ A, y.idx < (s.win (g.head + 1)).width ∧ (s.win (g.head + 1)).bottom < y.tag.row ∧
      y.tag.row ≤ (s.win (g.head + 1)).max := by
    intro y hy
    have hle := (hi.item_rows (he.lists.conserved.mem_added (hmem y hy))).2
    have hmax := hsorted.2.2 y hy x (List.mem_cons_self ..)
    rw [hwin] at hmax
    exact ⟨(he.window_eq hi (hmem y hy) (hle.trans hmax)).2.1,
      (he.window_eq hi (hmem y hy) (hle.trans hmax)).2.2,
      hle.trans hmax⟩
  have htail := hi.tail_lt
  have horder := hi.order
  have hdepth : (s.win (g.head + 1)).max = (s.win (g.head + 1)).bottom + (s.win
    (g.head + 1)).depth := by
    rw [hi.tiled.bottom_eq (by omega)]
    exact hi.tiled.tile _ (show g.head + 1 < s.line.length by omega)
  rw [hwin]
  refine Rank.length_le_mul (f := Item.idx) (fun y hy => (hin y hy).1) hidx
    (Rank.count_eq_zero.2 hA) fun i _ _ => ?_
  -- the rows of the older items of sub-queue `i` increase
  rw [Rank.count_eq_length_filter, ← List.length_map (f := fun y : Item Tag => y.tag.row)]
  have hfilter : ∀ y ∈ A.filter (fun y => y.idx = i), y ∈ A ∧ y.idx = i := by
    intro y hy
    simpa using List.mem_filter.1 hy
  have hpos := he.lists.sorted
  rw [hp, List.pairwise_append] at hpos
  refine Rank.length_le_of_rows (b := (s.win (g.head + 1)).bottom) ?_ ?_ ?_
  · rw [List.pairwise_map]
    refine (hpos.1.sublist List.filter_sublist).imp_of_mem fun {y z} hy hz hlt => ?_
    have he' : y.idx = z.idx := (hfilter y hy).2.trans (hfilter z hz).2.symm
    exact hi.item_lt (he.lists.conserved.mem_added (hmem y (hfilter y hy).1))
      (he.lists.conserved.mem_added (hmem z (hfilter z hz).1)) he' (hlt he')
  · intro r hr
    obtain ⟨y, hy, rfl⟩ := List.mem_map.1 hr
    exact (hin y (hfilter y hy).1).2.1
  · intro r hr
    obtain ⟨y, hy, rfl⟩ := List.mem_map.1 hr
    exact (hin y (hfilter y hy).1).2.2.trans hdepth.le

/-- Where the heads are where they should be, they are at the items that have been taken last. -/
theorem Emptied.front_eq (he : Emptied set s g) (hi : Inv set s w g) (hlate : w.late = false)
    {j : ℕ} (hj : j < set.maxWidth) : g.places.getPos j = g.front j := by
  obtain ⟨t, hn, ht⟩ := he.node j hj
  have hnode : (s.getArray j).node = (s.nodes.line j)[g.places.getPos j]? :=
    (hi.headed hlate).node j hj
  exact hi.filled.pos_eq hj (hnode.symm.trans hn) ht

theorem explains_layered (set : Params) :
    Explains (layered set.maxWidth) set (Orderly set) fun y s => Layers y s where
  same hn _ hw hy := by
    refine ⟨hy.windows.trans hw, hy.items.trans ?_, ?_⟩
    · rw [stored, stored, hn]
    · rw [hn]
      exact hy.sorted
  create val hi hy := ⟨hy.windows, hy.items, hy.sorted⟩
  link {y s w g j p t n} tag hi _ hemp hj hjw ht hp hnone hn hwin hy := by
    have hmem : tag.window ∈ s.windows := by
      rw [hwin]
      obtain ⟨m, hm⟩ := line_some hi.tail_lt
      refine List.mem_map.2 ⟨m, List.mem_of_getElem? hm, ?_⟩
      show (s.lateral.heap m).val = (s.lateral.deref s.line[g.tail + 1]?).val
      rw [hm]
      rfl
    refine ⟨(s.windows, stored s ++ [⟨j, tag.window, (s.nodes.heap n).val⟩]),
      ⟨rfl, ⟨j, tag.window, _⟩, rfl, ?_, hmem,
      hy.windows, congrArg (· ++ _) hy.items.symm⟩, List.prefix_refl _, ?_, ?_⟩
    · rw [hwin]
      exact hjw
    · show stored s ++ _ = (s.nodes.hist.present ++ [_]).map _
      rw [List.map_append]
      rfl
    · refine List.pairwise_append.2 ⟨hy.sorted, List.pairwise_singleton .., fun a ha b hb => ?_⟩
      obtain rfl := List.mem_singleton.1 hb
      obtain ⟨k, hk, hwin', -⟩ :=
        hi.items.window a ((hemp fun _ _ h => h).lists.conserved.mem_added ha)
      show a.tag.window.max ≤ tag.window.max
      rw [hwin, hwin']
      exact hi.tiled.max_le (Nat.succ_le_succ hk) hi.tail_lt
  take {y s w g j m} count hi hlate hemp hj hlt hm hrow hy := by
    have he := hemp fun _ _ h => h
    rw [he.front_eq hi hlate hj] at hm hrow
    obtain ⟨A, x, B, hpres, rfl, rfl, hpos, hval, hA, -⟩ := he.lists.remove hj hm
    have hrem : (s.nodes.remove (some x.node)).hist = _ := he.lists.conserved.remove_eq hpres
    have hx : x ∈ s.nodes.hist.present := hpres ▸ List.mem_append_right _ (List.mem_cons_self ..)
    have hrow' := hi.items.placed x (he.lists.conserved.mem_added hx)
    rw [hpos] at hrow'
    have hsorted := hy.sorted
    rw [hpres] at hsorted
    refine ⟨(y.1, (A ++ B).map fun x => ⟨x.idx, x.tag.window, x.val⟩), ⟨rfl, .inr ⟨A.map fun x =>
      ⟨x.idx, x.tag.window, x.val⟩, ⟨x.idx, x.tag.window, x.val⟩, B.map fun x =>
        ⟨x.idx, x.tag.window, x.val⟩, ?_,
      fun e he => ?_, ?_, congrArg some hval, List.map_append ..⟩⟩, hy.windows, ?_, ?_⟩
    · rw [hy.items, stored, hpres, List.map_append, List.map_cons]
    · obtain ⟨z, hz, rfl⟩ := List.mem_map.1 he
      exact hA z hz
    · rw [List.length_map]
      exact he.older_le hi hpres hA hy.sorted (hrow _ hrow'.2.2)
    · exact congrArg (List.map _) (congrArg History.present hrem).symm
    · show (s.nodes.remove (some x.node)).hist.present.Pairwise _
      rw [hrem]
      exact hsorted.sublist (.append (.refl _) (List.sublist_cons_self ..))
  empty {y s w g j p t} hi hlate hemp hj ht hp hnone hy := by
    have he := hemp fun _ _ h => h
    have hlast := hi.filled.valid.lines.last hj ht hnone
    refine ⟨rfl, .inl ⟨rfl, rfl, j, hj, fun e hmem => ?_⟩⟩
    rw [hy.items] at hmem
    obtain ⟨x, hx, rfl⟩ := List.mem_map.1 hmem
    rintro rfl
    have hlen := (List.getElem?_eq_some_iff.1 (he.lists.placed_present hx).2).1
    have hbehind := (he.lists.behind x hx).1
    rw [← he.front_eq hi hlate hj] at hbehind
    have hlast : p + 1 = (s.nodes.line x.idx).length := hlast
    omega

end Watched

end ElasticLaw
