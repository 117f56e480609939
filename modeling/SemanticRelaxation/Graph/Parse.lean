import SemanticRelaxation.Bfs.Run
import SemanticRelaxation.Support.Buckets
import Mathlib.Data.List.Forall2

/-!
# Reading a graph (`src/include/graph.h`)

`parse_mtx_file` goes through a file in the Matrix Market format twice. First it counts the
neighbours of each vertex and turns the counts into the ends of their parts of one array, then it
fills each part from its end on.

* `parse`: the code for a file that has not been parsed before;
* `Consistent`: a file with a header and the edges that the header promises;
* `Consistent.edges_lt`: a file has not so many edges that their number overflows.
-/

namespace MtxGraph

open Words Buckets Bfs

/-! ### The text -/

/-- The lines that `getline` returns, with their line ends. -/
def lines : List UInt8 → List (List UInt8)
  | [] => []
  | c :: s =>
    if c = 10 then [c] :: lines s
    else
      match lines s with
      | [] => [[c]]
      | line :: rest => (c :: line) :: rest

/-- `line[0] == '%'`. -/
def isComment (line : List UInt8) : Bool := line.head? = some 37

/-- `isspace`. -/
def isSpace (c : UInt8) : Bool := c = 32 ∨ 9 ≤ c ∧ c ≤ 13

/-- `isdigit`. -/
def isDigit (c : UInt8) : Bool := 48 ≤ c ∧ c ≤ 57

/-- A sign, which is there or not, and whether it is negative. -/
def scanSign : List UInt8 → Bool × List UInt8
  | [] => (false, [])
  | c :: s => if c = 45 then (true, s) else if c = 43 then (false, s) else (false, c :: s)

/-- The number of the digits, after those that give `v`. -/
def scanDigits : List UInt8 → ℕ → ℕ × List UInt8
  | [], v => (v, [])
  | c :: s, v => if isDigit c then scanDigits s (10 * v + (c.toNat - 48)) else (v, c :: s)

/-- The `unsigned long` of a sign and digits. -/
def toUnsigned (negative : Bool) (v : ℕ) : ℕ :=
  if 2 ^ 64 ≤ v then 2 ^ 64 - 1 else if negative then (2 ^ 64 - v) % 2 ^ 64 else v

/-- The conversion `%lu` of `sscanf`, with the rest of the text. -/
def scanLu (s : List UInt8) : Option (ℕ × List UInt8) :=
  let (negative, s) := scanSign (s.dropWhile isSpace)
  if s.head?.any isDigit then
    let (v, s) := scanDigits s 0
    some (toUnsigned negative v, s)
  else none

/-- `sscanf(line, "%lu %lu %lu", &n_verticies, &n_verticies, &n_edges)`. A variable that is not set
has no value. -/
def scanHeader (line : List UInt8) : Option (ℕ × ℕ) := do
  let (_, s) ← scanLu line
  let (nVerticies, s) ← scanLu s
  let (nEdges, _) ← scanLu s
  return (nVerticies, nEdges)

/-- `sscanf(line, "%lu %lu", &vertex, &neighbor)`. -/
def scanEdge (line : List UInt8) : Option (ℕ × ℕ) := do
  let (vertex, s) ← scanLu line
  let (neighbor, _) ← scanLu s
  return (vertex, neighbor)

/-! ### The arrays -/

/-- The memory: whether so many bytes can be allocated, and what `malloc` leaves in the words of
`neighbors`. -/
structure Memory where
  alloc : ℕ → Bool
  junk : ℕ → ℕ

/-- `verticies` and `neighbors`. -/
structure Arrays where
  verticies : ℕ → ℕ
  neighbors : ℕ → ℕ

/-- `verticies[i]++`. An access outside of an array has no result. -/
def increment (size : ℕ) (verticies : ℕ → ℕ) (i : ℕ) : Option (ℕ → ℕ) :=
  if i < size then some (Function.update verticies i ((verticies i + 1) % 2 ^ 64)) else none

/-- The first loop over the lines. -/
def countEdges (directed : Bool) (size : ℕ) : List (List UInt8) → (ℕ → ℕ) → Option (ℕ → ℕ)
  | [], verticies => some verticies
  | line :: rest, verticies => do
    let (vertex, neighbor) ← scanEdge line
    let verticies ← increment size verticies vertex
    let verticies ← if directed then some verticies else increment size verticies neighbor
    countEdges directed size rest verticies

/-- The loop that sets the indexes, for the `k` vertices from `i` on. -/
def setIndexes (size : ℕ) : ℕ → ℕ → ℕ → (ℕ → ℕ) → Option (ℕ → ℕ)
  | 0, _, _, verticies => some verticies
  | k + 1, i, sum, verticies =>
    if i < size then
      let count := verticies i
      let next := Function.update verticies i (if 0 < count then (count + sum) % 2 ^ 64 else sum)
      if 1 < i ∧ ¬ next (i - 1) ≤ next i then none
      else setIndexes size k (i + 1) (if 0 < count then (sum + count) % 2 ^ 64 else sum) next
    else none

/-- `verticies[vertex]--; neighbors[verticies[vertex]] = neighbor`. -/
def put (size capacity : ℕ) (a : Arrays) (e : ℕ × ℕ) : Option Arrays :=
  if e.1 < size then
    let loc := usub 64 (a.verticies e.1) 1
    if loc < capacity then some ⟨Function.update a.verticies e.1 loc,
      Function.update a.neighbors loc e.2⟩ else none
  else none

/-- The second loop over the lines. -/
def fillEdges (directed : Bool) (nVerticies size capacity : ℕ) :
    List (List UInt8) → Arrays → Option Arrays
  | [], a => some a
  | line :: rest, a => do
    let (vertex, neighbor) ← scanEdge line
    if neighbor ≤ nVerticies ∧ vertex ≤ nVerticies then
      let a ← put size capacity a (vertex, neighbor)
      let a ← if directed then some a else put size capacity a (neighbor, vertex)
      fillEdges directed nVerticies size capacity rest a
    else none

/-- The loops of `parse_mtx_file`, over the lines behind the header. -/
def readEdges (directed : Bool) (nVerticies nEdges size capacity : ℕ) (rest : List (List UInt8))
    (junk : ℕ → ℕ) :
    Option Graph := do
  let verticies ← countEdges directed size rest fun _ => 0
  let verticies ← setIndexes size nVerticies 1 0 verticies
  let a ← fillEdges directed nVerticies size capacity rest ⟨verticies, junk⟩
  if ∀ i < nVerticies + 1, 2 ≤ i → a.verticies (i - 1) ≤ a.verticies i then
    return ⟨nVerticies, nEdges, a.verticies, a.neighbors⟩
  else none

/-- `parse_mtx_file(fp, directed)` for a file that has not been parsed before. A failed assertion, a
failed allocation, a variable without a value and an access outside of an array have no result. -/
def parse (memory : Memory) (directed : Bool) (file : List UInt8) : Option Graph :=
  match (lines file).filter fun line => ¬ isComment line with
  | [] => none
  | header :: rest => do
    let (nVerticies, m) ← scanHeader header
    if 0 < nVerticies then
      let nEdges := if directed then m else m * 2 % 2 ^ 64
      let size := (nVerticies + 1) % 2 ^ 64
      let bytes := 8 * nEdges % 2 ^ 64
      if 8 * size < 2 ^ 64 ∧ memory.alloc (8 * size) ∧ memory.alloc bytes then
        readEdges directed nVerticies nEdges size (bytes / 8) rest memory.junk
      else none
    else none

/-- The entries of the edges in the array. -/
def entries (directed : Bool) (edges : List (ℕ × ℕ)) : List (ℕ × ℕ) :=
  edges.flatMap fun e => if directed then [e] else [e, e.swap]

/-- A file with a header for `n` vertices and the edges `edges`, and with a line for each of them.
The size of a file is an `off_t`. -/
structure Consistent (file : List UInt8) (n : ℕ) (edges : List (ℕ × ℕ)) : Prop where
  size : file.length < 2 ^ 63
  text : ∃ header rest, ((lines file).filter fun line => ¬ isComment line) = header :: rest ∧
    scanHeader header = some (n, edges.length) ∧ rest.map scanEdge = edges.map some
  pos : 1 ≤ n
  inRange : ∀ e ∈ edges, (1 ≤ e.1 ∧ e.1 ≤ n) ∧ 1 ≤ e.2 ∧ e.2 ≤ n

section Text

theorem lines_flatten (file : List UInt8) : (lines file).flatten = file := by
  induction file with
  | nil => rfl
  | cons c s ih =>
    unfold lines
    split
    · rw [List.flatten_cons, ih]
      rfl
    · cases hs : lines s with
      | nil =>
        rw [hs] at ih
        rw [← ih]
        rfl
      | cons line rest =>
        rw [hs] at ih
        rw [← ih]
        rfl

theorem scanDigits_length {s : List UInt8} {v : ℕ} : (scanDigits s v).2.length ≤ s.length := by
  induction s generalizing v with
  | nil => exact le_rfl
  | cons c s ih =>
    unfold scanDigits
    split
    · exact ih.trans (Nat.le_succ _)
    · exact le_rfl

theorem scanSign_length {s : List UInt8} : (scanSign s).2.length ≤ s.length := by
  cases s with
  | nil => exact le_rfl
  | cons c s =>
    simp only [scanSign]
    split_ifs
    · exact Nat.le_succ _
    · exact Nat.le_succ _
    · exact le_rfl

/-- A number takes at least one character. -/
theorem scanLu_length {s rest : List UInt8} {v : ℕ} (h : scanLu s = some (v, rest)) :
    rest.length < s.length := by
  have hdrop := (List.dropWhile_suffix isSpace (l := s)).length_le
  have hsign := scanSign_length (s := s.dropWhile isSpace)
  unfold scanLu at h
  generalize scanSign (s.dropWhile isSpace) = sign at h hsign
  obtain ⟨negative, t⟩ := sign
  cases t with
  | nil => cases h
  | cons c t =>
    by_cases hc : (c :: t).head?.any isDigit = true
    · simp only [if_pos hc] at h
      have hc : isDigit c = true := hc
      obtain ⟨-, rfl⟩ := Prod.mk.inj (Option.some.inj h)
      have hrest : (scanDigits (c :: t) 0).2.length ≤ t.length := by
        unfold scanDigits
        rw [if_pos hc]
        exact scanDigits_length
      simp only [List.length_cons] at hsign
      omega
    · simp only [if_neg hc] at h
      cases h

theorem toUnsigned_lt (negative : Bool) (v : ℕ) : toUnsigned negative v < 2 ^ 64 := by
  unfold toUnsigned
  split_ifs with hv
  · decide
  · exact Nat.mod_lt _ (by decide)
  · exact not_le.1 hv

theorem scanLu_lt {s rest : List UInt8} {v : ℕ} (h : scanLu s = some (v, rest)) : v < 2 ^ 64 := by
  unfold scanLu at h
  simp only at h
  split at h
  · obtain ⟨rfl, -⟩ := Prod.mk.inj (Option.some.inj h)
    exact toUnsigned_lt _ _
  · cases h

theorem scanEdge_length {line : List UInt8} {e : ℕ × ℕ} (h : scanEdge line = some e) :
    2 ≤ line.length := by
  obtain ⟨⟨vertex, s⟩, h₁, h⟩ := Option.bind_eq_some_iff.1 h
  obtain ⟨⟨neighbor, t⟩, h₂, -⟩ := Option.bind_eq_some_iff.1 h
  have hs := scanLu_length h₁
  have ht := scanLu_length h₂
  omega

theorem scanHeader_lt {line : List UInt8} {n m : ℕ} (h : scanHeader line = some (n, m)) :
    n < 2 ^ 64 := by
  obtain ⟨⟨first, s⟩, -, h⟩ := Option.bind_eq_some_iff.1 h
  obtain ⟨⟨n', t⟩, h₂, h⟩ := Option.bind_eq_some_iff.1 h
  obtain ⟨⟨m', t'⟩, -, h⟩ := Option.bind_eq_some_iff.1 h
  obtain ⟨rfl, -⟩ := Prod.mk.inj (Option.some.inj h)
  exact scanLu_lt h₂

variable {file : List UInt8} {n : ℕ} {edges : List (ℕ × ℕ)}

/-- The lines behind the header give the edges one after the other. -/
theorem edges_scanned {rest : List (List UInt8)} (h : rest.map scanEdge = edges.map some) :
    List.Forall₂ (fun line e => scanEdge line = some e) rest edges := by
  rwa [← List.forall₂_eq_eq_eq, List.forall₂_map_left_iff, List.forall₂_map_right_iff] at h

theorem edges_length {rest : List (List UInt8)}
    (h : List.Forall₂ (fun line e => scanEdge line = some e) rest edges) :
    2 * edges.length ≤ rest.flatten.length := by
  induction h with
  | nil => exact le_rfl
  | cons he _ ih =>
    have hline := scanEdge_length he
    simp only [List.flatten_cons, List.length_append, List.length_cons]
    omega

/-- A file has not more than half as many edges as bytes. -/
theorem Consistent.edges_lt (h : Consistent file n edges) : 2 * edges.length < 2 ^ 63 := by
  obtain ⟨header, rest, htext, -, hrest⟩ := h.text
  have hsub : (header :: rest).Sublist (lines file) := htext ▸ List.filter_sublist
  have hlen := hsub.flatten.length_le
  rw [lines_flatten, List.flatten_cons, List.length_append] at hlen
  have hedges := edges_length (edges_scanned hrest)
  have hsize := h.size
  omega

theorem Consistent.n_lt (h : Consistent file n edges) : n < 2 ^ 64 := by
  obtain ⟨header, rest, -, hheader, -⟩ := h.text
  exact scanHeader_lt hheader

end Text

end MtxGraph
