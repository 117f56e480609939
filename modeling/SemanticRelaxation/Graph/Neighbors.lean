import SemanticRelaxation.Graph.Parse

/-!
# The graph of a file (`src/include/graph.h`)

* `countEdges_run`, `setIndexes_run`, `fillEdges_run`: what the loops of `parse_mtx_file` leave in
  the arrays;
* `Built`: the graph of some entries, `parse_built` for those of a file;
* `parse_csr`: the graph is in the form that the search assumes;
* `parse_neighbors`: the neighbours of the vertices.
-/

namespace MtxGraph

open Words Buckets Bfs

variable {directed : Bool} {size capacity n : ℕ} {edges l : List (ℕ × ℕ)} {rest : List (List UInt8)}

/-! ### The entries -/

theorem entries_cons (e : ℕ × ℕ) :
    entries directed (e :: edges) = (if directed then [e] else [e, e.swap]) ++
      entries directed edges := rfl

theorem entries_length :
    (entries directed edges).length = (if directed then 1 else 2) * edges.length := by
  induction edges with
  | nil => cases directed <;> rfl
  | cons e edges ih =>
    rw [entries_cons, List.length_append, ih]
    cases directed <;> simp <;> omega

theorem mem_entries {e : ℕ × ℕ} (h : e ∈ entries directed edges) :
    ∃ e' ∈ edges, e = e' ∨ e = e'.swap := by
  obtain ⟨e', he', hm⟩ := List.mem_flatMap.1 h
  refine ⟨e', he', ?_⟩
  cases directed with
  | true => exact .inl (List.mem_singleton.1 hm)
  | false =>
    rcases List.mem_cons.1 hm with rfl | hm
    · exact .inl rfl
    · exact .inr (List.mem_singleton.1 hm)

/-- How often a vertex is entered among the neighbours of another one. -/
theorem entries_count (u v : ℕ) : (entries directed edges).count (u, v) =
    edges.count (u, v) + if directed then 0 else edges.count (v, u) := by
  induction edges with
  | nil => cases directed <;> rfl
  | cons e edges ih =>
    rw [entries_cons, List.count_append, ih]
    obtain ⟨a, b⟩ := e
    cases directed with
    | true => simp [List.count_cons]; omega
    | false =>
      simp only [Bool.false_eq_true, if_false, List.count_cons, List.count_nil, Prod.swap_prod_mk,
        beq_iff_eq,
        Prod.mk.injEq]
      have hcomm : (b = u ∧ a = v) ↔ (a = v ∧ b = u) := and_comm
      simp only [hcomm]
      omega

/-! ### The loops -/

theorem countEdges_eq (h : List.Forall₂ (fun line e => scanEdge line = some e) rest edges)
    (verticies : ℕ → ℕ) :
    countEdges directed size rest verticies =
      (entries directed edges).foldlM (fun a e => increment size a e.1) verticies := by
  induction h generalizing verticies with
  | nil => rfl
  | cons he _ ih =>
    unfold countEdges
    simp only [he, entries_cons, List.foldlM_append, ih]
    cases directed with
    | true => simp
    | false => simp [Option.bind_assoc]

theorem increments_run (verticies : ℕ → ℕ) (hsize : ∀ e ∈ l, e.1 < size)
    (hlt : ∀ i, verticies i + l.length < 2 ^ 64) :
    ∃ a, l.foldlM (fun a e => increment size a e.1) verticies = some a ∧
      ∀ i, a i = verticies i + count l i := by
  induction l generalizing verticies with
  | nil => exact ⟨verticies, rfl, fun _ => rfl⟩
  | cons e l ih =>
    have hlen : ∀ i, verticies i + (l.length + 1) < 2 ^ 64 := hlt
    have hinc : increment size verticies e.1 = some
      (Function.update verticies e.1 (verticies e.1 + 1)) := by
      have hmod : (verticies e.1 + 1) % 2 ^ 64 = verticies e.1 + 1 :=
        Nat.mod_eq_of_lt (by have := hlen e.1; omega)
      rw [increment, if_pos (hsize e (List.mem_cons_self ..)), hmod]
    have hnext : ∀ i, Function.update verticies e.1 (verticies e.1 + 1) i =
        verticies i + if e.1 = i then 1 else 0 := by
      intro i
      by_cases hi : e.1 = i
      · rw [if_pos hi, ← hi, Function.update_self]
      · rw [if_neg hi, Function.update_of_ne (Ne.symm hi), Nat.add_zero]
    obtain ⟨a, hrun, ha⟩ := ih (Function.update verticies e.1 (verticies e.1 + 1))
      (fun e' he' => hsize e' (List.mem_cons_of_mem _ he')) fun i => by
        have hi := hlen i
        rw [hnext]
        split_ifs <;> omega
    refine ⟨a, by rw [List.foldlM_cons, hinc]; exact hrun, fun i => ?_⟩
    have hcount : count (e :: l) i = count l i + if e.1 = i then 1 else 0 := by
      simp [count, List.countP_cons]
    rw [ha, hnext, hcount]
    omega

/-- The loop turns the counts into the ends of the parts. -/
theorem setIndexes_run (hlen : l.length < 2 ^ 64) (hsize : n < size) {k i : ℕ}
    (hk : i + k = n + 1) (hi : 1 ≤ i) {a : ℕ → ℕ} (hends : ∀ j < i, a j = before l (j + 1))
    (hcounts : ∀ j, i ≤ j → a j = count l j) :
    ∃ a', setIndexes size k i (before l i) a = some a' ∧ ∀ j ≤ n, a' j = before l (j + 1) := by
  induction k generalizing i a with
  | zero => exact ⟨a, rfl, fun j hj => hends j (by omega)⟩
  | succ k ih =>
    have hend : before l (i + 1) < 2 ^ 64 := before_le_length.trans_lt hlen
    have hsum : before l i + count l i = before l (i + 1) := before_succ.symm
    have hvalue : (if 0 < a i then (a i + before l i) % 2 ^ 64 else before l i) = before l
      (i + 1) := by
      rw [hcounts i le_rfl]
      split
      · rw [Nat.add_comm, hsum, Nat.mod_eq_of_lt hend]
      next hzero => rw [← hsum, Nat.eq_zero_of_not_pos hzero, Nat.add_zero]
    have hnextSum : (if 0 < a i then (before l i + a i) % 2 ^ 64 else before l i) = before l
      (i + 1) := by
      rwa [Nat.add_comm (before l i)]
    have hself : Function.update a i (before l (i + 1)) i = before l (i + 1) :=
      Function.update_self ..
    have hprev : Function.update a i (before l (i + 1)) (i - 1) = before l i := by
      rw [Function.update_of_ne (by omega), hends (i - 1) (by omega), Nat.sub_add_cancel hi]
    unfold setIndexes
    simp only [if_pos (show i < size by omega), hvalue, hnextSum, hself, hprev]
    rw [if_neg fun h => h.2 (before_mono (Nat.le_succ i))]
    refine ih (by omega) (by omega) (fun j hj => ?_) fun j hj => ?_
    · by_cases hji : j = i
      · rw [hji, hself]
      · rw [Function.update_of_ne hji]
        exact hends j (by omega)
    · rw [Function.update_of_ne (by omega)]
      exact hcounts j (by omega)

theorem fillEdges_eq (h : List.Forall₂ (fun line e => scanEdge line = some e) rest edges)
    (hn : ∀ e ∈ edges, e.1 ≤ n ∧ e.2 ≤ n) (a : Arrays) :
    fillEdges directed n size capacity rest a = (entries directed edges).foldlM
      (put size capacity) a := by
  induction h generalizing a with
  | nil => rfl
  | @cons line e rest edges he _ ih =>
    obtain ⟨vertex, neighbor⟩ := e
    obtain ⟨hin, hlater⟩ := List.forall_mem_cons.1 hn
    unfold fillEdges
    simp only [he, entries_cons, List.foldlM_append, ih hlater]
    cases directed with
    | true => simp [hin]
    | false => simp [hin, Option.bind_assoc, Prod.swap_prod_mk]

/-- The entries are put into their places, unless the array is too short. -/
theorem fill_run (capacity : ℕ) {done todo : List (ℕ × ℕ)} {a : Arrays}
    (h : Filling n done todo a.verticies a.neighbors) (hn : ∀ e ∈ done ++ todo, e.1 ≤ n)
    (hsize : n < size) (hdone : ∀ u ≤ n, 0 < count done u → before (done ++ todo)
      (u + 1) ≤ capacity) :
    todo.foldlM (put size capacity) a = none ∧ capacity < (done ++ todo).length ∨
      ∃ a', todo.foldlM (put size capacity) a = some a' ∧ Filling n (done ++ todo)
        [] a'.verticies a'.neighbors ∧ (done ++ todo).length ≤ capacity := by
  induction todo generalizing done a with
  | nil =>
    rw [List.append_nil] at hn hdone ⊢
    exact .inr ⟨a, rfl, h, length_le hn hdone⟩
  | cons e todo ih =>
    obtain ⟨u, v⟩ := e
    have hu : u ≤ n := hn (u, v) (List.mem_append_right _ (List.mem_cons_self ..))
    have hloc : usub 64 (a.verticies u) 1 = a.verticies u - 1 := usub_of_le (h.start_pos hu)
    have hplace := h.lt_length hu
    by_cases hcap : a.verticies u - 1 < capacity
    · have hput : put size capacity a (u, v) = some
        ⟨Function.update a.verticies u (a.verticies u - 1),
          Function.update a.neighbors (a.verticies u - 1) v⟩ := by
        simp only [put, if_pos (hu.trans_lt hsize), hloc, if_pos hcap]
      have hend := h.end_le hu (hdone u hu) hcap
      rw [List.append_cons] at hn hdone hend ⊢
      rw [List.foldlM_cons, hput]
      refine ih (h.put hu) hn fun w hw hcount => ?_
      by_cases hwu : w = u
      · exact hwu ▸ hend
      · refine hdone w hw ?_
        rwa [count_append, show count [(u, v)] w = 0 by
          simp [count, Ne.symm hwu], Nat.add_zero] at hcount
    · have hput : put size capacity a (u, v) = none := by
        simp only [put, if_pos (hu.trans_lt hsize), hloc, if_neg hcap]
      rw [List.foldlM_cons, hput]
      exact .inl ⟨rfl, (not_lt.1 hcap).trans_lt hplace⟩

/-! ### The graph -/

/-- The graph with the vertices up to `n` that has the entries `l`. -/
structure Built (n : ℕ) (l : List (ℕ × ℕ)) (g : Graph) : Prop where
  nVerticies : g.nVerticies = n
  nEdges : g.nEdges = l.length
  filled : Filling n l [] g.verticies g.neighbors

/-- The two arrays can be allocated. -/
def Fits (memory : Memory) (n m : ℕ) : Prop :=
  (8 * (n + 1) < 2 ^ 64 ∧ memory.alloc (8 * (n + 1)) = true) ∧ 8 * m < 2 ^ 64 ∧
    memory.alloc (8 * m) = true

section Parse

variable {memory : Memory} {file : List UInt8} {g : Graph}

theorem entries_inRange (directed : Bool) (h : ∀ e ∈ edges, (1 ≤ e.1 ∧ e.1 ≤ n) ∧ 1 ≤ e.2 ∧
      e.2 ≤ n) :
    ∀ e ∈ entries directed edges, (1 ≤ e.1 ∧ e.1 ≤ n) ∧ 1 ≤ e.2 ∧ e.2 ≤ n := by
  intro e he
  obtain ⟨e', he', rfl | rfl⟩ := mem_entries he
  · exact h e he'
  · exact ⟨(h e' he').2, (h e' he').1⟩

theorem Consistent.entries_lt (h : Consistent file n edges) (directed : Bool) :
    (entries directed edges).length < 2 ^ 63 := by
  have hedges := h.edges_lt
  rw [entries_length]
  split <;> omega

/-- The loops, on arrays of the right sizes. -/
theorem readEdges_built (capacity : ℕ) (hin : ∀ e ∈ edges, (1 ≤ e.1 ∧ e.1 ≤ n) ∧ 1 ≤ e.2 ∧ e.2 ≤ n)
    (hlen : (entries directed edges).length < 2 ^ 64) (htext : rest.map scanEdge = edges.map some)
    (hsize : n < size) (junk : ℕ → ℕ) :
    (readEdges directed n (entries directed edges).length size capacity rest junk = none ∧
      capacity < (entries directed edges).length) ∨
      ∃ g, readEdges directed n (entries directed edges).length size capacity rest junk = some g ∧
        Built n (entries directed edges) g ∧ (entries directed edges).length ≤ capacity := by
  have hentries := entries_inRange directed hin
  obtain ⟨a, ha, hcount⟩ := increments_run (fun _ => 0)
    (fun e he => ((hentries e he).1.2).trans_lt hsize) fun _ => by rwa [Nat.zero_add]
  have hzero : before (entries directed edges) 1 = 0 := before_of_le fun e he => (hentries e he).1.1
  have hfirst : a 0 = before (entries directed edges) 1 := by
    rw [hcount, before_succ, before_of_le fun _ _ => Nat.zero_le _]
  obtain ⟨b, hb, hends⟩ := setIndexes_run (a := a) hlen hsize (Nat.add_comm 1 n) le_rfl
    (fun j hj => Nat.lt_one_iff.1 hj ▸ hfirst) fun j _ => (hcount j).trans (Nat.zero_add _)
  rw [hzero] at hb
  have hrun := fill_run capacity (a := ⟨b, junk⟩) (Filling.nil hends)
    (fun e he => (hentries e he).1.2) hsize fun _ _ hpos => absurd hpos (lt_irrefl 0)
  rw [← fillEdges_eq (edges_scanned htext) fun e he => ⟨(hin e he).1.2, (hin e he).2.2⟩] at hrun
  have ha := (countEdges_eq (edges_scanned htext) _).trans ha
  unfold readEdges
  simp only [ha, hb, Option.bind_eq_bind, Option.bind_some]
  rcases hrun with ⟨hnone, hcap⟩ | ⟨c, hc, hfilled, hcap⟩
  · rw [hnone]
    exact .inl ⟨rfl, hcap⟩
  · have hsorted : ∀ i < n + 1, 2 ≤ i → c.verticies (i - 1) ≤ c.verticies i := by
      intro i hi _
      rw [(hfilled.row (u := i - 1) (by omega)).1, (hfilled.row (u := i) (by omega)).1]
      exact before_mono (Nat.sub_le i 1)
    rw [hc, Option.bind_some, if_pos hsorted]
    exact .inr ⟨_, rfl, ⟨rfl, rfl, hfilled⟩, hcap⟩

/-- No array of `n + 1` words starts at an address if `n + 1` is `2 ^ 64`. -/
theorem readEdges_empty (hpos : 0 < n) (m : ℕ) (junk : ℕ → ℕ) :
    readEdges directed n m 0 capacity rest junk = none := by
  obtain ⟨k, rfl⟩ := Nat.exists_eq_succ_of_ne_zero hpos.ne'
  have hnone : ∀ a, setIndexes 0 k.succ 1 0 a = none := fun a => if_neg (Nat.not_lt_zero 1)
  unfold readEdges
  cases countEdges directed 0 rest fun _ => 0 with
  | none => rfl
  | some a => simp only [hnone, Option.bind_eq_bind, Option.bind_some, Option.bind_none]

/-- The parse of a consistent file gives the graph of its entries, if the arrays can be allocated.
-/
theorem parse_built (memory : Memory) (directed : Bool) (hf : Consistent file n edges) :
    (parse memory directed file = none ∧ ¬ Fits memory n (entries directed edges).length) ∨
      ∃ g, parse memory directed file = some g ∧ Built n (entries directed edges) g ∧
        Fits memory n (entries directed edges).length := by
  obtain ⟨header, rest, htext, hheader, hrest⟩ := hf.text
  have hlen := hf.entries_lt directed
  have hedges : (if directed then edges.length else edges.length * 2 % 2 ^ 64) =
    (entries directed edges).length := by
    have hlt := hf.edges_lt
    rw [entries_length]
    cases directed with
    | true => simp
    | false => simp; omega
  have hpos : 0 < n := hf.pos
  unfold parse
  simp only [htext, hheader, Option.bind_eq_bind, Option.bind_some, if_pos hpos, hedges]
  by_cases hn : n + 1 < 2 ^ 64
  · rw [Nat.mod_eq_of_lt hn]
    split
    next halloc =>
      rcases readEdges_built (8 * (entries directed edges).length % 2 ^ 64 / 8) hf.inRange
        (hlen.trans (by decide)) hrest (Nat.lt_succ_self n) memory.junk with
        ⟨hnone, hcap⟩ | ⟨g, hg, hb, hcap⟩
      · refine .inl ⟨hnone, fun hfits => ?_⟩
        rw [Nat.mod_eq_of_lt hfits.2.1, Nat.mul_div_cancel_left _ (by decide)] at hcap
        exact lt_irrefl _ hcap
      · have hbytes : 8 * (entries directed edges).length < 2 ^ 64 := by omega
        refine .inr ⟨g, hg, hb, ⟨halloc.1, halloc.2.1⟩, hbytes, ?_⟩
        rw [← Nat.mod_eq_of_lt hbytes]
        exact halloc.2.2
    next halloc =>
      refine .inl ⟨rfl, fun hfits => halloc ⟨hfits.1.1, hfits.1.2, ?_⟩⟩
      rw [Nat.mod_eq_of_lt hfits.2.1]
      exact hfits.2.2
  · obtain hn : n + 1 = 2 ^ 64 := le_antisymm hf.n_lt (not_lt.1 hn)
    rw [hn, Nat.mod_self]
    refine .inl ⟨?_, fun hfits => ?_⟩
    · split
      · exact readEdges_empty hpos _ _
      · rfl
    · have hlt := hfits.1.1
      omega

/-- The graph that a parse returns. -/
theorem parse_some (hf : Consistent file n edges) (hg : parse memory directed file = some g) :
    Built n (entries directed edges) g ∧ Fits memory n (entries directed edges).length := by
  rcases parse_built memory directed hf with ⟨hnone, -⟩ | ⟨g', hg', hb⟩
  · rw [hnone] at hg
    cases hg
  · exact Option.some.inj (hg'.symm.trans hg) ▸ hb

theorem parse_iff (hf : Consistent file n edges) :
    (∃ g, parse memory directed file = some g) ↔ Fits memory n (entries directed edges).length := by
  constructor
  · rintro ⟨g, hg⟩
    exact (parse_some hf hg).2
  · intro hfits
    rcases parse_built memory directed hf with ⟨-, hnot⟩ | ⟨g, hg, -⟩
    · exact absurd hfits hnot
    · exact ⟨g, hg⟩

/-- The neighbours that `get_neighbors` returns. -/
def neighborsOf (g : Graph) (u : ℕ) : List ℕ :=
  (List.range (getNeighbors g u).1).map fun k => g.neighbors ((getNeighbors g u).2 + k)

theorem Built.rowEnd_eq (hg : Built n l g) (hl : ∀ e ∈ l, e.1 ≤ n) {u : ℕ} (hu : u ≤ n) :
    g.rowEnd u = before l (u + 1) := by
  unfold Graph.rowEnd
  split
  next h =>
    rw [h, hg.nVerticies, hg.nEdges, before_of_lt fun e he => Nat.lt_succ_of_le (hl e he)]
  next h =>
    have hne : u ≠ n := hg.nVerticies ▸ h
    exact (hg.filled.row (by omega)).1

/-- The graph is in the form that the search assumes. -/
theorem Built.csr (hg : Built n l g) (hl : ∀ e ∈ l, (1 ≤ e.1 ∧ e.1 ≤ n) ∧ 1 ≤ e.2 ∧ e.2 ≤ n)
    (hn : n < 2 ^ 64) :
    g.Csr where
  count := hg.nVerticies ▸ hn
  rows u hu := by
    have hu : u ≤ n := hg.nVerticies ▸ (Finset.mem_Icc.1 hu).2
    rw [hg.rowEnd_eq (fun e he => (hl e he).1.2) hu, (hg.filled.row hu).1]
    exact before_mono (Nat.le_succ u)
  edges u hu := by
    have hu : u ≤ n := hg.nVerticies ▸ (Finset.mem_Icc.1 hu).2
    rw [hg.rowEnd_eq (fun e he => (hl e he).1.2) hu, hg.nEdges]
    exact before_le_length
  neighbors j hj := by
    obtain ⟨e, he, hslot⟩ := hg.filled.mem (fun e he => (hl e he).1.2) (hg.nEdges ▸ hj)
    rw [hslot]
    exact Finset.mem_Icc.2 (hg.nVerticies.symm ▸ (hl e he).2)

theorem Built.neighborsOf_eq (hg : Built n l g) (hl : ∀ e ∈ l, (1 ≤ e.1 ∧ e.1 ≤ n) ∧ 1 ≤ e.2 ∧
      e.2 ≤ n)
    (hn : n < 2 ^ 64) {u : ℕ} (h1 : 1 ≤ u) (hu : u ≤ n) :
    neighborsOf g u = (bucket l u).reverse := by
  obtain ⟨hstart, hrow⟩ := hg.filled.row hu
  have hsize : before l (u + 1) - before l u = count l u := by
    rw [before_succ, Nat.add_sub_cancel_left]
  unfold neighborsOf
  rw [getNeighbors_eq (hg.csr hl hn) (Finset.mem_Icc.2 (hg.nVerticies.symm ▸ ⟨h1, hu⟩)),
    hg.rowEnd_eq (fun e he => (hl e he).1.2) hu, hstart, hsize]
  exact hrow

/-- What the search assumes of the graph holds of the graph of a file. -/
theorem parse_csr (hf : Consistent file n edges) (hg : parse memory directed file = some g) :
    g.Csr :=
  (parse_some hf hg).1.csr (entries_inRange _ hf.inRange) hf.n_lt

/-- The vertices and the neighbours of each are those of the file, and the file is parsed if the
arrays can be allocated. -/
theorem parse_neighbors (memory : Memory) (directed : Bool) (file : List UInt8) (n : ℕ)
    (edges : List (ℕ × ℕ)) (hf : Consistent file n edges) :
    (∀ g, parse memory directed file = some g → g.nVerticies = n ∧ ∀ u, 1 ≤ u → u ≤ n → ∀ v,
      (neighborsOf g u).count v = edges.count (u, v) + if directed then 0 else edges.count (v, u)) ∧
    ((∃ g, parse memory directed file = some g) ↔ Fits memory n
      (entries directed edges).length) := by
  refine ⟨fun g hg => ?_, parse_iff hf⟩
  have hb := (parse_some hf hg).1
  refine ⟨hb.nVerticies, fun u h1 hu v => ?_⟩
  rw [hb.neighborsOf_eq (entries_inRange _ hf.inRange) hf.n_lt h1 hu, List.count_reverse,
    count_bucket, entries_count]

end Parse

/-- A comment, the header `3 3 2`, and the edges `1 2` and `2 2`. -/
def twoEdges : List UInt8 := [37, 10, 51, 32, 51, 32, 50, 10, 49, 32, 50, 10, 50, 32, 50, 10]

theorem twoEdges_consistent : Consistent twoEdges 3 [(1, 2), (2, 2)] where
  size := by decide
  text := ⟨[51, 32, 51, 32, 50, 10], [[49, 32, 50, 10], [50, 32, 50, 10]],
    by decide, by decide, by decide⟩
  pos := by decide
  inRange := by decide

/-- A memory in which everything can be allocated. -/
def anyMemory : Memory := ⟨fun _ => true, fun _ => 7⟩

theorem parse_neighbors_two : ∃ g, parse anyMemory false twoEdges = some g ∧ g.nVerticies = 3 ∧
    ∀ u, 1 ≤ u → u ≤ 3 → ∀ v, (neighborsOf g u).count v =
      [(1, 2), (2, 2)].count (u, v) + if false then 0 else [(1, 2), (2, 2)].count (v, u) := by
  obtain ⟨hneighbors, hparse⟩ := parse_neighbors anyMemory false twoEdges 3 [(1, 2),
    (2, 2)] twoEdges_consistent
  obtain ⟨g, hg⟩ := hparse.2 ⟨⟨by decide, rfl⟩, by decide, rfl⟩
  exact ⟨g, hg, hneighbors g hg⟩

example : (parse anyMemory false twoEdges).map (fun g => [1, 2, 3].map (neighborsOf g)) =
    some [[2], [2, 2, 1], []] := by decide +kernel

end MtxGraph
