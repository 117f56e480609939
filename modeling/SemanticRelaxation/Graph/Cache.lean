import SemanticRelaxation.Graph.Neighbors
import SemanticRelaxation.Support.Bytes

/-!
# The cached graph of a file (`src/include/graph.h`)

`parse_mtx_file` writes the graph that it has parsed to a binary file, and later calls load that
file. Its name is made from the name of the graph alone.

* `parseMtxFile`: the code, with the files;
* `mmapGraph_serialize`: a graph that is written is read back;
* `cached`: the binary file is that of the first call whose arrays could be allocated;
* `parseMtxFile_fresh_iff`: when a call returns what a first one would.
-/

namespace MtxGraph

open Bytes Buckets Bfs

/-- The contents of the files, by their names. -/
abbrev Files := List UInt8 → Option (List UInt8)

/-- `create_binary_filename`: the suffix `.bin` is appended. -/
def createBinaryFilename (filename : List UInt8) : List UInt8 := filename ++ [46, 98, 105, 110]

/-- `serialize_graph`. -/
def serializeGraph (g : Graph) : List UInt8 :=
  words (g.nVerticies :: g.nEdges :: ((List.range (g.nVerticies + 1)).map g.verticies ++
    (List.range g.nEdges).map g.neighbors))

/-- `mmap_graph`. An empty file cannot be mapped. -/
def mmapGraph (content : List UInt8) : Option Graph :=
  if content = [] then none
  else
    let nVerticies := wordAt content 0
    let verticies := 16
    let neighbors := verticies + 8 * (nVerticies + 1) % 2 ^ 64
    some ⟨nVerticies, wordAt content 8, fun i => wordAt content (verticies + 8 * i),
      fun i => wordAt content (neighbors + 8 * i)⟩

/-- `parse_mtx_file(fp, directed)`. -/
def parseMtxFile (memory : Memory) (directed : Bool) (fp : List UInt8) (files : Files) :
    Option (Graph × Files) :=
  match files (createBinaryFilename fp) with
  | some content => (mmapGraph content).map fun g => (g, files)
  | none =>
    match files fp with
    | none => none
    | some file => (parse memory directed file).map fun g =>
        (g, Function.update files (createBinaryFilename fp) (some (serializeGraph g)))

/-- A call for a file. -/
structure Call where
  memory : Memory
  directed : Bool

/-- The files after some calls, in any number of processes. A call without a result leaves them as
they are. -/
def afterCalls (fp : List UInt8) : List Call → Files → Files
  | [], files => files
  | call :: calls, files =>
    afterCalls fp calls (((parseMtxFile call.memory call.directed fp files).map Prod.snd).getD
      files)

/-- Two graphs with the same vertices, the same number of edges and the same neighbours. -/
structure Same (g g' : Graph) : Prop where
  nVerticies : g.nVerticies = g'.nVerticies
  nEdges : g.nEdges = g'.nEdges
  neighbors : ∀ u, 1 ≤ u → u ≤ g.nVerticies → neighborsOf g u = neighborsOf g' u

variable {n : ℕ} {edges l : List (ℕ × ℕ)} {g g' : Graph} {fp file : List UInt8} {files : Files}

/-! ### One graph -/

/-- The words of the binary file. -/
def storedWords (g : Graph) : List ℕ :=
  g.nVerticies :: g.nEdges :: ((List.range (g.nVerticies + 1)).map g.verticies ++
    (List.range g.nEdges).map g.neighbors)

theorem serializeGraph_eq (g : Graph) : serializeGraph g = words (storedWords g) := rfl

theorem storedWords_verticies {i : ℕ} (hi : i ≤ g.nVerticies) :
    (storedWords g)[i + 2]? = some (g.verticies i) := by
  have hi : i < g.nVerticies + 1 := Nat.lt_succ_of_le hi
  unfold storedWords
  rw [List.getElem?_cons_succ, List.getElem?_cons_succ,
    List.getElem?_append_left (by simpa using hi),
    List.getElem?_map, List.getElem?_range hi]
  rfl

theorem storedWords_neighbors {j : ℕ} (hj : j < g.nEdges) :
    (storedWords g)[g.nVerticies + 1 + j + 2]? = some (g.neighbors j) := by
  have hlen : ((List.range (g.nVerticies + 1)).map g.verticies).length = g.nVerticies + 1 := by simp
  unfold storedWords
  rw [List.getElem?_cons_succ, List.getElem?_cons_succ, List.getElem?_append_right (by omega), hlen,
    Nat.add_sub_cancel_left, List.getElem?_map, List.getElem?_range hj]
  rfl

/-- A graph that is written is read back. -/
theorem mmapGraph_serialize (hn : 8 * (g.nVerticies + 1) < 2 ^ 64) (hm : g.nEdges < 2 ^ 64)
    (hv : ∀ i ≤ g.nVerticies, g.verticies i < 2 ^ 64)
    (he : ∀ j < g.nEdges, g.neighbors j < 2 ^ 64) :
    ∃ g', mmapGraph (serializeGraph g) = some g' ∧ g'.nVerticies = g.nVerticies ∧
      g'.nEdges = g.nEdges ∧
      (∀ i ≤ g.nVerticies, g'.verticies i = g.verticies i) ∧ ∀ j < g.nEdges,
      g'.neighbors j = g.neighbors j := by
  have hvertices : wordAt (serializeGraph g) (8 * 0) = g.nVerticies := wordAt_words rfl (by omega)
  have hedges : wordAt (serializeGraph g) (8 * 1) = g.nEdges := wordAt_words rfl hm
  have hne : serializeGraph g ≠ [] := nofun
  unfold mmapGraph
  rw [if_neg hne]
  refine ⟨_, rfl, hvertices, hedges, fun i hi => ?_, fun j hj => ?_⟩
  · have hword := wordAt_words (storedWords_verticies hi) (hv i hi)
    have hoffset : 8 * (i + 2) = 16 + 8 * i := by omega
    rwa [hoffset, ← serializeGraph_eq] at hword
  · have hword := wordAt_words (storedWords_neighbors hj) (he j hj)
    have hoffset : 8 * (g.nVerticies + 1 + j + 2) = 16 + 8 * (wordAt (serializeGraph g) 0 + 1) %
      2 ^ 64 + 8 * j := by
      have hzero : wordAt (serializeGraph g) 0 = g.nVerticies := hvertices
      rw [hzero, Nat.mod_eq_of_lt hn]
      omega
    rwa [hoffset, ← serializeGraph_eq] at hword

/-- Graphs with the same arrays. -/
theorem same_of_arrays (hg : g.Csr) (hn : g'.nVerticies = g.nVerticies) (hm : g'.nEdges = g.nEdges)
    (hv : ∀ i ≤ g.nVerticies, g'.verticies i = g.verticies i)
    (he : ∀ j < g.nEdges, g'.neighbors j = g.neighbors j) :
    Same g' g where
  nVerticies := hn
  nEdges := hm
  neighbors u h1 hu := by
    rw [hn] at hu
    have hmem : u ∈ g.vertexSet := Finset.mem_Icc.2 ⟨h1, hu⟩
    have hget : getNeighbors g' u = getNeighbors g u := by
      unfold getNeighbors
      rw [hn, hm, hv u hu]
      by_cases hlast : u = g.nVerticies
      · rw [if_pos hlast, if_pos hlast]
      · rw [if_neg hlast, if_neg hlast, hv (u + 1) (by omega)]
    unfold neighborsOf
    rw [hget]
    refine List.map_congr_left fun k hk => he _ ?_
    rw [getNeighbors_eq hg hmem] at hk ⊢
    have hk := List.mem_range.1 hk
    have hend := hg.edges u hmem
    omega

theorem Same.refl (g : Graph) : Same g g := ⟨rfl, rfl, fun _ _ _ => rfl⟩

theorem Same.symm (h : Same g g') : Same g' g :=
  ⟨h.nVerticies.symm, h.nEdges.symm, fun u h1 hu => (h.neighbors u h1 (h.nVerticies ▸ hu)).symm⟩

theorem Same.trans {g'' : Graph} (h : Same g g') (h' : Same g' g'') : Same g g'' :=
  ⟨h.nVerticies.trans h'.nVerticies, h.nEdges.trans h'.nEdges, fun u h1 hu =>
    (h.neighbors u h1 hu).trans (h'.neighbors u h1 (h.nVerticies ▸ hu))⟩

/-- The entries determine the graph. -/
theorem Built.same (hg : Built n l g) (hg' : Built n l g') (hl : ∀ e ∈ l, (1 ≤ e.1 ∧ e.1 ≤ n) ∧
      1 ≤ e.2 ∧ e.2 ≤ n)
    (hn : n < 2 ^ 64) : Same g g' where
  nVerticies := hg.nVerticies.trans hg'.nVerticies.symm
  nEdges := hg.nEdges.trans hg'.nEdges.symm
  neighbors u h1 hu := by
    have hu : u ≤ n := hg.nVerticies ▸ hu
    rw [hg.neighborsOf_eq hl hn h1 hu, hg'.neighborsOf_eq hl hn h1 hu]

/-- A graph that has been parsed is written and read back. -/
theorem mmapGraph_parse {memory : Memory} {directed : Bool} (hf : Consistent file n edges)
    (hg : parse memory directed file = some g) :
    ∃ g', mmapGraph (serializeGraph g) = some g' ∧ Same g' g := by
  obtain ⟨hb, hfits⟩ := parse_some hf hg
  have hcsr := parse_csr hf hg
  have hlen := hf.entries_lt directed
  have hm : g.nEdges < 2 ^ 64 := hb.nEdges ▸ hlen.trans (by decide)
  obtain ⟨g', hg', hn, hm', hv, he⟩ := mmapGraph_serialize (hb.nVerticies ▸ hfits.1.1) hm
    (fun i hi => by
      rw [(hb.filled.row (hb.nVerticies ▸ hi)).1]
      exact before_le_length.trans_lt (hlen.trans (by decide)))
    fun j hj => (Finset.mem_Icc.1 (hcsr.neighbors j hj)).2.trans_lt hcsr.count
  exact ⟨g', hg', same_of_arrays hcsr hn hm' hv he⟩

/-! ### Any calls -/

instance {memory : Memory} {n m : ℕ} : Decidable (Fits memory n m) :=
  inferInstanceAs (Decidable (_ ∧ _))

/-- The arrays of a call can be allocated, for a file with `n` vertices and some edges. -/
def Call.Fits (n : ℕ) (edges : List (ℕ × ℕ)) (call : Call) : Prop :=
  MtxGraph.Fits call.memory n (entries call.directed edges).length

instance {n : ℕ} {edges : List (ℕ × ℕ)} {call : Call} : Decidable (call.Fits n edges) :=
  inferInstanceAs (Decidable (MtxGraph.Fits ..))

/-- The first of some calls whose arrays could be allocated. -/
def firstFit (n : ℕ) (edges : List (ℕ × ℕ)) (calls : List Call) : Option Call :=
  calls.find? fun call => call.Fits n edges

theorem firstFit_cons_of_fits {call : Call} (h : call.Fits n edges) (calls : List Call) :
    firstFit n edges (call :: calls) = some call := List.find?_cons_of_pos (decide_eq_true h)

theorem firstFit_cons_of_not {call : Call} (h : ¬ call.Fits n edges) (calls : List Call) :
    firstFit n edges (call :: calls) = firstFit n edges calls :=
  List.find?_cons_of_neg fun hd => h (of_decide_eq_true hd)

theorem fits_of_firstFit {call : Call} {calls : List Call}
    (h : firstFit n edges calls = some call) :
    call.Fits n edges := of_decide_eq_true
      (List.find?_some (p := fun c : Call => decide (c.Fits n edges)) h)

theorem binaryFilename_ne : fp ≠ createBinaryFilename fp := by
  intro he
  have hlen := congrArg List.length he
  simp [createBinaryFilename] at hlen

/-- A call that finds the binary file changes nothing. -/
theorem afterCalls_cached {content : List UInt8}
    (hbin : files (createBinaryFilename fp) = some content) (calls : List Call) :
    afterCalls fp calls files = files := by
  induction calls with
  | nil => rfl
  | cons call calls ih =>
    have hfiles : ((parseMtxFile call.memory call.directed fp files).map Prod.snd).getD files =
      files := by
      unfold parseMtxFile
      simp only [hbin]
      cases mmapGraph content <;> rfl
    rw [afterCalls, hfiles, ih]

/-- The binary file is that of the first call whose arrays could be allocated. -/
theorem cached (hf : Consistent file n edges) (hfile : files fp = some file)
    (hbin : files (createBinaryFilename fp) = none) (calls : List Call) :
    afterCalls fp calls files fp = some file ∧ afterCalls fp calls files (createBinaryFilename fp) =
      (firstFit n edges calls).bind fun call =>
      (parse call.memory call.directed file).map serializeGraph := by
  induction calls with
  | nil => exact ⟨hfile, hbin⟩
  | cons call calls ih =>
    have hcall : parseMtxFile call.memory call.directed fp files =
      (parse call.memory call.directed file).map fun g =>
        (g, Function.update files (createBinaryFilename fp) (some (serializeGraph g))) := by
      unfold parseMtxFile
      simp only [hbin, hfile]
    unfold afterCalls
    by_cases hfits : call.Fits n edges
    · obtain ⟨g, hg⟩ := (parse_iff hf).2 hfits
      rw [firstFit_cons_of_fits hfits, hcall, hg, Option.map_some, Option.map_some,
        Option.getD_some,
        afterCalls_cached (Function.update_self ..)]
      refine ⟨?_, ?_⟩
      · rw [Function.update_of_ne binaryFilename_ne]
        exact hfile
      · rw [Function.update_self, Option.bind_some, hg]
        rfl
    · have hnone : parse call.memory call.directed file = none := by
        refine Option.eq_none_iff_forall_ne_some.2 fun g hg => hfits ((parse_iff hf).1 ⟨g, hg⟩)
      rw [firstFit_cons_of_not hfits, hcall, hnone]
      exact ih

/-- The first call whose arrays can be allocated parses the file. -/
theorem parseMtxFile_uncached (hf : Consistent file n edges) (hfile : files fp = some file)
    (hbin : files (createBinaryFilename fp) = none) {calls : List Call}
    (hfirst : firstFit n edges calls = none) (call : Call) :
    parseMtxFile call.memory call.directed fp (afterCalls fp calls files) =
      (parse call.memory call.directed file).map fun g =>
        (g, Function.update (afterCalls fp calls files) (createBinaryFilename fp)
          (some (serializeGraph g))) := by
  obtain ⟨hfile', hbin'⟩ := cached hf hfile hbin calls
  rw [hfirst, Option.bind_none] at hbin'
  unfold parseMtxFile
  simp only [hbin', hfile']

/-- A later call loads the graph of the first one whose arrays could be allocated. -/
theorem parseMtxFile_cached (hf : Consistent file n edges) (hfile : files fp = some file)
    (hbin : files (createBinaryFilename fp) = none) {calls : List Call} {first : Call}
    (hfirst : firstFit n edges calls = some first) (call : Call) : ∃ loaded g,
      parseMtxFile call.memory call.directed fp (afterCalls fp calls files) =
        some (loaded, afterCalls fp calls files) ∧
      Built n (entries first.directed edges) g ∧ Same loaded g := by
  obtain ⟨-, hbin'⟩ := cached hf hfile hbin calls
  obtain ⟨g, hg⟩ := (parse_iff hf).2 (fits_of_firstFit hfirst)
  obtain ⟨loaded, hloaded, hsame⟩ := mmapGraph_parse hf hg
  refine ⟨loaded, g, ?_, (parse_some hf hg).1, hsame⟩
  rw [hfirst, Option.bind_some, hg, Option.map_some] at hbin'
  unfold parseMtxFile
  simp only [hbin', hloaded, Option.map_some]

/-- With the other flag there is another number of entries. -/
theorem Built.flag {d d' : Bool} (hb : Built n (entries d edges) g)
    (hb' : Built n (entries d' edges) g') (hm : g.nEdges = g'.nEdges) : d = d' ∨ edges = [] := by
  rw [hb.nEdges, hb'.nEdges, entries_length, entries_length] at hm
  cases d with
  | false =>
    cases d' with
    | false => exact .inl rfl
    | true =>
      simp only [Bool.false_eq_true, if_false, if_true] at hm
      exact .inr (List.length_eq_zero_iff.1 (by omega))
  | true =>
    cases d' with
    | false =>
      simp only [Bool.false_eq_true, if_false, if_true] at hm
      exact .inr (List.length_eq_zero_iff.1 (by omega))
    | true => exact .inl rfl

/-- A call returns what it would return as the first one, unless the binary file is that of a call
with the other flag. -/
theorem parseMtxFile_fresh_iff (fp file : List UInt8) (n : ℕ) (edges : List (ℕ × ℕ)) (files : Files)
    (calls : List Call) (call : Call) (fresh : Graph) (hf : Consistent file n edges)
    (hfile : files fp = some file) (hbin : files (createBinaryFilename fp) = none)
    (hfresh : parse call.memory call.directed file = some fresh) :
    (∃ g files', parseMtxFile call.memory call.directed fp (afterCalls fp calls files) = some
      (g, files') ∧
      Same g fresh) ↔
      ∀ first, firstFit n edges calls = some first → first.directed = call.directed ∨ edges =
        [] := by
  cases hfirst : firstFit n edges calls with
  | none =>
    refine ⟨fun _ _ hsome => absurd hsome (Option.some_ne_none _).symm, fun _ => ?_⟩
    have hcall := parseMtxFile_uncached hf hfile hbin hfirst call
    rw [hfresh, Option.map_some] at hcall
    exact ⟨fresh, _, hcall, Same.refl fresh⟩
  | some first =>
    obtain ⟨loaded, cached, hcall, hb, hsame⟩ := parseMtxFile_cached hf hfile hbin hfirst call
    have hb' := (parse_some hf hfresh).1
    rw [hcall]
    constructor
    · rintro ⟨g, files', hg, hs⟩ _ hf'
      obtain ⟨rfl, -⟩ := Prod.mk.inj (Option.some.inj hg)
      obtain rfl := Option.some.inj hf'
      exact hb.flag hb' (hsame.nEdges.symm.trans hs.nEdges)
    · intro hcond
      refine ⟨loaded, _, rfl, hsame.trans ?_⟩
      have hentries : entries first.directed edges = entries call.directed edges := by
        rcases hcond first rfl with hflag | hnil
        · rw [hflag]
        · rw [hnil]
          rfl
      exact (hentries ▸ hb).same hb' (entries_inRange _ hf.inRange) hf.n_lt

/-- The name `g`, under which there is the file with two edges. -/
def oneFile : Files := fun name => if name = [103] then some twoEdges else none

/-- After a call with the flag, another call with it. -/
theorem parseMtxFile_fresh_iff_two : ∃ fresh, parse anyMemory true twoEdges = some fresh ∧
    ((∃ g files', parseMtxFile anyMemory true [103] (afterCalls [103] [⟨anyMemory, true⟩] oneFile) =
      some (g, files') ∧
      Same g fresh) ↔
      ∀ first, firstFit 3 [(1, 2), (2, 2)] [⟨anyMemory, true⟩] = some first →
        first.directed = true ∨
        [((1 : ℕ), (2 : ℕ)), (2, 2)] = []) := by
  obtain ⟨fresh, hfresh⟩ :=
    (parse_neighbors anyMemory true twoEdges 3 [(1, 2), (2, 2)] twoEdges_consistent).2.2
    ⟨⟨by decide, rfl⟩, by decide, rfl⟩
  exact ⟨fresh, hfresh, parseMtxFile_fresh_iff [103] twoEdges 3 [(1, 2), (2, 2)] oneFile
    [⟨anyMemory, true⟩]
    ⟨anyMemory, true⟩ fresh twoEdges_consistent rfl rfl hfresh⟩

/-- After a call without the flag, a call with it loads the graph in which each edge counts twice.
-/
theorem parseMtxFile_other_flag : ∃ g fresh files',
    parseMtxFile anyMemory true [103] (afterCalls [103] [⟨anyMemory, false⟩] oneFile) = some
      (g, files') ∧
      parse anyMemory true twoEdges = some fresh ∧ g.nEdges = 4 ∧ fresh.nEdges = 2 ∧
        ¬ Same g fresh := by
  have hcall : (parseMtxFile anyMemory true [103]
    (afterCalls [103] [⟨anyMemory, false⟩] oneFile)).any
      (fun r => r.1.nEdges = 4) = true := by
    decide +kernel
  have hfresh : (parse anyMemory true twoEdges).any (fun g => g.nEdges = 2) = true := by
    decide +kernel
  obtain ⟨⟨g, files'⟩, hg, h4⟩ := (Option.any_eq_true _ _).1 hcall
  obtain ⟨fresh, hf, h2⟩ := (Option.any_eq_true _ _).1 hfresh
  have h4 := of_decide_eq_true h4
  have h2 := of_decide_eq_true h2
  refine ⟨g, fresh, files', hg, hf, h4, h2, fun hs => ?_⟩
  have hm := hs.nEdges
  rw [h4, h2] at hm
  cases hm

end MtxGraph
