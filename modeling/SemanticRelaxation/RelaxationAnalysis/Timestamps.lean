import SemanticRelaxation.Support.Removal
import Mathlib.Algebra.BigOperators.Group.List.Basic
import Mathlib.Algebra.Order.BigOperators.Group.List
import Mathlib.Algebra.Order.Field.Rat
import Mathlib.Data.List.GetD
import Mathlib.Data.List.Sort
import Mathlib.Tactic.Linarith
import Mathlib.Tactic.NormNum
import Mathlib.Tactic.Ring

/-!
# The timestamp-based relaxation analysis (`include/relaxation_analysis_timestamps.c`)

Each thread records its puts and gets with timestamps. In the end the records of all threads are
combined and sorted. Then all items are in a linked list over an array, in the order of the puts,
and for each get the item is searched for and unlinked: how many items are passed is the rank error
of the get.

`qsort` is a parameter: its result is a sorted permutation, with records of the same time in any
order. `none` stands for an access through `NULL` and for `exit`. The search loop gets fuel. The
arithmetic in `long double` is exact here, and what is in `deq_ind` before the second loop over the
gets is a parameter: the source does not initialise it.

* `rankErrors_exact`: the rank errors, their sum (in 64 bits) and their maximum;
* `variance_iff`: when the variance that is printed is the sample variance.
-/

namespace RelaxationAnalysis

open Lifo

/-- `relax_stamp_t`. -/
structure Stamp where
  timestamp : ℕ
  value : ℤ
  deriving DecidableEq

/-- What the documentation of `qsort` says, for `compare_timestamps`. -/
structure IsQsort (qsort : List Stamp → List Stamp) : Prop where
  perm : ∀ l, (qsort l).Perm l
  sorted : ∀ l, (qsort l).Pairwise fun a b => a.timestamp ≤ b.timestamp

/-- `combine_sort_relaxed_stamps`, for the records of each thread. -/
def combineSortRelaxedStamps (qsort : List Stamp → List Stamp) (stamps : List (List Stamp)) :
    List Stamp :=
  qsort stamps.flatten

/-- `item_list`: the values stay, the pointers change. -/
structure Items where
  next : ℕ → Option ℕ
  head : Option ℕ

/-- The list of all items that were put. -/
def Items.all (totPut : ℕ) :
    Items := ⟨fun i => if i + 1 < totPut then some (i + 1) else none, some 0⟩

/-- The search for the item of a get, and its removal: the rank error. -/
def removeItem (value : ℕ → ℤ) (fuel : ℕ) (items : Items) (key : ℤ) : Option (ℕ × Items) :=
  match items.head with
  | none => none
  | some head =>
    if value head = key then some (0, ⟨items.next, items.next head⟩)
    else (findBefore items.next value key fuel head 1).bind fun (current, rankError) =>
      match items.next current with
      | none => none
      | some found => some (rankError, ⟨Function.update items.next current (items.next found),
          some head⟩)

/-- The records of the gets, with the rank errors in the place of the values, `rank_error_sum`,
which is a `uint64_t`, and `rank_error_max`. -/
structure Ranks where
  errors : List ℕ
  sum : ℕ
  max : ℕ
  deriving DecidableEq

/-- One round of the loop over the gets. -/
def rankStep (value : ℕ → ℤ) (fuel : ℕ) (x : Items × Ranks) (key : ℤ) : Option (Items × Ranks) :=
  (removeItem value fuel x.1 key).map fun (rankError, items) =>
    (items, ⟨x.2.errors ++ [rankError], (x.2.sum + rankError) % 2 ^ 64,
      if rankError > x.2.max then rankError else x.2.max⟩)

/-- The first loop over the gets. With no put at all, `item_list[tot_put-1]` is not there. -/
def rankErrors (fuel : ℕ) (puts gets : List ℤ) : Option Ranks :=
  if puts = [] then none
  else (gets.foldlM (rankStep (fun i => puts.getD i 0) fuel) (Items.all puts.length,
    ⟨[], 0, 0⟩)).map Prod.snd

/-- `rank_error_mean`. -/
def rankErrorMean (r : Ranks) :
    ℚ := if r.errors.length = 0 then 0 else (r.sum : ℚ) / r.errors.length

/-- `rank_error_variance`, by a loop that starts at `deqInd`. -/
def rankErrorVariance (r : Ranks) (deqInd : ℕ) : ℚ :=
  ((r.errors.drop deqInd).map fun e : ℕ => ((e : ℚ) - rankErrorMean r) *
    ((e : ℚ) - rankErrorMean r)).sum /
    (r.errors.length - 1)

/-- What is printed. -/
structure Report where
  ranks : Ranks
  mean : ℚ
  variance : ℚ

/-- `print_relaxation_measurements`, for the records of each thread. -/
def printRelaxationMeasurements (qsort : List Stamp → List Stamp) (fuel deqInd : ℕ)
    (putStamps getStamps : List (List Stamp)) :
    Option Report :=
  let combinedPutStamps := combineSortRelaxedStamps qsort putStamps
  let combinedGetStamps := combineSortRelaxedStamps qsort getStamps
  (rankErrors fuel (combinedPutStamps.map Stamp.value) (combinedGetStamps.map Stamp.value)).map
  fun r =>
    ⟨r, rankErrorMean r, rankErrorVariance r deqInd⟩

/-! ### The rank errors -/

/-- The number of items that were put earlier than the one of the get `j` and not removed by the
gets before. -/
def rankErrorOf (puts gets : List ℤ) (j : ℕ) : ℕ :=
  ((puts.takeWhile fun v => v ≠ gets.getD j 0).filter fun v => v ∉ gets.take j).length

/-- `max` is the maximum of the numbers, or 0 if there is none. -/
def IsMax (max : ℕ) (errors : List ℕ) :
    Prop := (∀ e ∈ errors, e ≤ max) ∧ (max ∈ errors ∨ errors = [] ∧ max = 0)

section Ranks

variable {value : ℕ → ℤ} {items : Items} {ns : List ℕ} {fuel : ℕ} {key : ℤ}

/-- A search removes the first item with the value; the rank error is the number of the items before
it. -/
theorem removeItem_eq (hpath : Path items.next items.head ns) (hnodup : ns.Nodup)
    (hkey : key ∈ ns.map value) (hf : ns.length ≤ fuel) :
    ∃ items' ns', removeItem value fuel items key = some ((ns.map value).idxOf key, items') ∧
      Path items'.next items'.head ns' ∧ ns'.Nodup ∧ ns'.map value = (ns.map value).erase key := by
  obtain ⟨pre, m, post, rfl, hpre, hm, hidx, herase⟩ := exists_split hkey
  rw [hidx, herase]
  unfold removeItem
  cases pre with
  | nil =>
    obtain ⟨hhead, hpost⟩ := hpath
    rw [hhead]
    simp only [if_pos hm]
    exact ⟨_, post, rfl, hpost, (List.nodup_cons.1 hnodup).2, rfl⟩
  | cons n pre =>
    have hhead : items.head = some n := hpath.1
    have hn : value n ≠ key := hpre n (List.mem_cons_self ..)
    have hlen : pre.length < fuel := by
      rw [List.length_append, List.length_cons, List.length_cons] at hf
      omega
    have hfind := findBefore_eq (k := 1) hpath.2
      (fun x hx => hpre x (List.mem_cons_of_mem _ hx)) hm hlen
    have hnext : items.next (pre.getLastD n) = some m := hpath.next_getLastD
    rw [hhead]
    simp only [if_neg hn, hfind, Option.bind_some, hnext]
    refine ⟨⟨Function.update items.next (pre.getLastD n) (items.next m), some n⟩,
      n :: (pre ++ post), ?_, ?_, ?_, rfl⟩
    · rw [Nat.add_comm]
      rfl
    · have hp := hpath.unlink hnodup
      rw [hhead] at hp
      exact hp
    · exact hnodup.sublist ((List.Sublist.refl (n :: pre)).append (List.sublist_cons_self m post))

/-- The item list holds the items that are not removed. -/
theorem path_all (totPut : ℕ) (hpos : 0 < totPut) :
    Path (Items.all totPut).next (Items.all totPut).head (List.range totPut) := by
  have hgo : ∀ k i, i + k = totPut → 0 < k → Path (Items.all totPut).next (some i)
    (List.range' i k) := by
    intro k
    induction k with
    | zero => exact fun i _ h => absurd h (Nat.lt_irrefl 0)
    | succ k ih =>
      intro i hi _
      refine ⟨rfl, ?_⟩
      show Path _ (if i + 1 < totPut then some (i + 1) else none) (List.range' (i + 1) k)
      cases k with
      | zero =>
        rw [if_neg (by omega)]
        exact rfl
      | succ k =>
        rw [if_pos (by omega)]
        exact ih (i + 1) (by omega) (Nat.succ_pos k)
  rw [List.range_eq_range']
  exact hgo totPut 0 (Nat.zero_add _) hpos

theorem erase_filter {puts : List ℤ} (hputs : puts.Nodup) (done : List ℤ) (key : ℤ) :
    (puts.filter fun v => v ∉ done).erase key = puts.filter fun v => v ∉ done ++ [key] := by
  rw [(hputs.filter _).erase_eq_filter, List.filter_filter]
  refine List.filter_congr fun v _ => ?_
  by_cases hv : v = key
  · simp [hv]
  · simp [hv]

/-- The position of an item among those that are left. -/
theorem idxOf_filter {puts : List ℤ} {p : ℤ → Bool} (hkey : p key = true) :
    (puts.filter p).idxOf key = ((puts.takeWhile fun v => v ≠ key).filter p).length ∨
    key ∉ puts := by
  induction puts with
  | nil => exact .inr List.not_mem_nil
  | cons v puts ih =>
    by_cases hv : v = key
    · subst hv
      left
      rw [List.filter_cons_of_pos hkey, List.idxOf_cons_self, List.takeWhile_cons_of_neg (by simp)]
      rfl
    · rcases ih with ih | ih
      · left
        rw [List.takeWhile_cons_of_pos (by simpa using hv)]
        by_cases hp : p v = true
        · rw [List.filter_cons_of_pos hp, List.filter_cons_of_pos hp, List.idxOf_cons_ne _ hv, ih]
          rfl
        · rw [List.filter_cons_of_neg hp, List.filter_cons_of_neg hp, ih]
      · exact .inr fun hm => (List.mem_cons.1 hm).elim (fun he => hv he.symm) ih

theorem IsMax.concat {max e : ℕ} {errors : List ℕ} (h : IsMax max errors) :
    IsMax (if e > max then e else max) (errors ++ [e]) := by
  obtain ⟨hle, hmem⟩ := h
  refine ⟨fun x hx => ?_, .inl ?_⟩
  · rcases List.mem_append.1 hx with hx | hx
    · have := hle x hx
      split <;> omega
    · obtain rfl := List.mem_singleton.1 hx
      split <;> omega
  · split
    next => exact List.mem_append_right _ (List.mem_singleton_self e)
    next hgt =>
      rcases hmem with hmem | ⟨rfl, rfl⟩
      · exact List.mem_append_left _ hmem
      · have he : e = 0 := by omega
        rw [he]
        exact List.mem_singleton_self 0

/-- The state of the loop after some gets. -/
structure Searched (puts gets : List ℤ) (j : ℕ) (x : Items × Ranks) : Prop where
  items : ∃ ns, Path x.1.next x.1.head ns ∧ ns.Nodup ∧
    ns.map (fun i => puts.getD i 0) = puts.filter fun v => v ∉ gets.take j
  errors : x.2.errors = (List.range j).map (rankErrorOf puts gets)
  sum : x.2.sum = x.2.errors.sum % 2 ^ 64
  max : IsMax x.2.max x.2.errors

theorem Searched.step {puts gets : List ℤ} {j : ℕ} {x : Items × Ranks} (h : Searched puts gets j x)
    (hputs : puts.Nodup) (hgets : gets.Nodup) (hj : j < gets.length) (hsub : gets[j] ∈ puts)
    (hf : puts.length ≤ fuel) : ∃ x', rankStep (fun i => puts.getD i 0) fuel x gets[j] = some x' ∧
      Searched puts gets (j + 1) x' := by
  obtain ⟨⟨ns, hpath, hnodup, hvals⟩, herrors, hsum, hmax⟩ := h
  have hnew : gets[j] ∉ gets.take j := by
    intro hmem
    obtain ⟨i, hi, he⟩ := List.getElem_of_mem hmem
    rw [List.getElem_take] at he
    have hij : i < j := by
      rw [List.length_take] at hi
      omega
    exact absurd ((List.Nodup.getElem_inj_iff hgets).1 he) hij.ne
  have hleft : gets[j] ∈ puts.filter fun v => v ∉ gets.take j :=
    List.mem_filter.2 ⟨hsub, by simpa using hnew⟩
  have hlen : ns.length ≤ fuel := by
    have hle : (puts.filter fun v => v ∉ gets.take j).length ≤ puts.length :=
      List.length_filter_le _ _
    rw [← hvals, List.length_map] at hle
    exact hle.trans hf
  obtain ⟨items', ns', hrem, hpath', hnodup', hvals'⟩ :=
    removeItem_eq hpath hnodup (hvals ▸ hleft) hlen
  have hrank : (ns.map fun i => puts.getD i 0).idxOf gets[j] = rankErrorOf puts gets j := by
    rw [hvals]
    unfold rankErrorOf
    rw [List.getD_eq_getElem _ _ hj]
    exact (idxOf_filter (by simpa using hnew)).resolve_right (not_not.2 hsub)
  have herrors' : x.2.errors ++ [rankErrorOf puts gets j] = (List.range (j + 1)).map
    (rankErrorOf puts gets) := by
    rw [herrors, List.range_succ, List.map_append, List.map_singleton]
  refine ⟨(items', ⟨x.2.errors ++ [rankErrorOf puts gets j], (x.2.sum + rankErrorOf puts gets j) %
    2 ^ 64,
    if rankErrorOf puts gets j > x.2.max then rankErrorOf puts gets j else x.2.max⟩), ?_,
    ⟨ns', hpath', hnodup', ?_⟩, herrors', ?_, hmax.concat⟩
  · unfold rankStep
    rw [hrem, hrank]
    rfl
  · rw [hvals', hvals, erase_filter hputs, List.take_succ_eq_append_getElem hj]
  · show (x.2.sum + rankErrorOf puts gets j) % 2 ^ 64 =
      (x.2.errors ++ [rankErrorOf puts gets j]).sum % 2 ^ 64
    rw [hsum, List.sum_append, List.sum_singleton, Nat.mod_add_mod]

theorem Searched.run {puts gets rest : List ℤ} {x : Items × Ranks} (hputs : puts.Nodup)
    (hgets : gets.Nodup) (hsub : ∀ v ∈ gets, v ∈ puts) (hf : puts.length ≤ fuel) (j : ℕ)
    (hj : j ≤ gets.length) (h : Searched puts gets j x) (hrest : gets.drop j = rest) :
    ∃ x', rest.foldlM (rankStep (fun i => puts.getD i 0) fuel) x = some x' ∧
      Searched puts gets gets.length x' := by
  induction rest generalizing j x with
  | nil =>
    have hge : gets.length ≤ j := List.drop_eq_nil_iff.1 hrest
    obtain rfl : j = gets.length := le_antisymm hj hge
    exact ⟨x, rfl, h⟩
  | cons v rest ih =>
    have hlt : j < gets.length := by
      by_contra hge
      rw [List.drop_eq_nil_of_le (not_lt.1 hge)] at hrest
      cases hrest
    rw [List.drop_eq_getElem_cons hlt] at hrest
    obtain ⟨rfl, hrest'⟩ := List.cons.inj hrest
    obtain ⟨x₁, h₁, hs₁⟩ := h.step hputs hgets hlt (hsub _ (List.getElem_mem hlt)) hf
    obtain ⟨x', hx', hs'⟩ := ih (j + 1) hlt hs₁ hrest'
    refine ⟨x', ?_, hs'⟩
    rw [List.foldlM_cons, h₁]
    exact hx'

theorem getD_map_range (puts : List ℤ) :
    (List.range puts.length).map (fun i => puts.getD i 0) = puts := by
  refine List.ext_getElem (by simp) fun i h₁ h₂ => ?_
  rw [List.getElem_map, List.getElem_range, List.getD_eq_getElem _ _ h₂]

/-- The loop over the gets: the rank errors, their sum in 64 bits and their maximum. -/
theorem rankErrors_eq {puts gets : List ℤ} (hne : puts ≠ []) (hputs : puts.Nodup)
    (hgets : gets.Nodup) (hsub : ∀ v ∈ gets, v ∈ puts) (hf : puts.length ≤ fuel) :
    ∃ r, rankErrors fuel puts gets = some r ∧
      r.errors = (List.range gets.length).map (rankErrorOf puts gets) ∧
        r.sum = r.errors.sum % 2 ^ 64 ∧
      IsMax r.max r.errors := by
  have h₀ : Searched puts gets 0 (Items.all puts.length, ⟨[], 0, 0⟩) := by
    refine ⟨⟨List.range puts.length, path_all _ (List.length_pos_iff.2 hne), List.nodup_range, ?_⟩,
      rfl, rfl, nofun,
      .inr ⟨rfl, rfl⟩⟩
    rw [getD_map_range]
    simp
  obtain ⟨⟨items, r⟩, hr, -, herrors, hsum, hmax⟩ :=
    h₀.run hputs hgets hsub hf 0 (Nat.zero_le _) List.drop_zero
  refine ⟨r, ?_, herrors, hsum, hmax⟩
  unfold rankErrors
  rw [if_neg hne, hr]
  rfl

end Ranks

/-! ### The report -/

/-- The records that the analysis is made for: every value is put once, and what is got was put and
is got once. -/
structure Recorded (putStamps getStamps : List (List Stamp)) : Prop where
  ne : putStamps.flatten ≠ []
  puts : (putStamps.flatten.map Stamp.value).Nodup
  gets : (getStamps.flatten.map Stamp.value).Nodup
  sub : ∀ v ∈ getStamps.flatten.map Stamp.value, v ∈ putStamps.flatten.map Stamp.value

/-- The sorted values of the records. -/
def sortedValues (qsort : List Stamp → List Stamp) (stamps : List (List Stamp)) : List ℤ :=
  (combineSortRelaxedStamps qsort stamps).map Stamp.value

theorem sortedValues_perm {qsort : List Stamp → List Stamp} (hq : IsQsort qsort)
    (stamps : List (List Stamp)) :
    (sortedValues qsort stamps).Perm (stamps.flatten.map Stamp.value) := (hq.perm _).map _

/-- For the records of any number of threads: the rank error of each get is the number of values
earlier in the order of the puts that were not removed by an earlier get; the sum is exact in 64
bits, and the maximum is exact. -/
theorem rankErrors_exact {qsort : List Stamp → List Stamp} (hq : IsQsort qsort)
    {putStamps getStamps : List (List Stamp)} (h : Recorded putStamps getStamps) {fuel deqInd : ℕ}
    (hf : putStamps.flatten.length ≤ fuel) :
    ∃ report, printRelaxationMeasurements qsort fuel deqInd putStamps getStamps = some report ∧
      report.ranks.errors = (List.range getStamps.flatten.length).map
        (rankErrorOf (sortedValues qsort putStamps) (sortedValues qsort getStamps)) ∧
      report.ranks.sum = report.ranks.errors.sum % 2 ^ 64 ∧
        IsMax report.ranks.max report.ranks.errors := by
  have hputs := sortedValues_perm hq putStamps
  have hgets := sortedValues_perm hq getStamps
  have hlen : (sortedValues qsort getStamps).length = getStamps.flatten.length := by
    rw [hgets.length_eq, List.length_map]
  have hne : sortedValues qsort putStamps ≠ [] := by
    intro he
    rw [he] at hputs
    exact h.ne (List.map_eq_nil_iff.1 hputs.symm.eq_nil)
  have hfuel : (sortedValues qsort putStamps).length ≤ fuel := by
    rw [hputs.length_eq, List.length_map]
    exact hf
  obtain ⟨r, hr, herrors, hsum, hmax⟩ := rankErrors_eq hne (hputs.nodup_iff.2 h.puts)
    (hgets.nodup_iff.2 h.gets)
    (fun v hv => hputs.mem_iff.2 (h.sub v (hgets.mem_iff.1 hv))) hfuel
  rw [hlen] at herrors
  refine ⟨⟨r, rankErrorMean r, rankErrorVariance r deqInd⟩, ?_, herrors, hsum, hmax⟩
  unfold printRelaxationMeasurements
  show (rankErrors fuel (sortedValues qsort putStamps) (sortedValues qsort getStamps)).map _ = _
  rw [hr]
  rfl

/-- A sort by merging, as a `qsort`. -/
def mergeStamps (l : List Stamp) :
    List Stamp := l.mergeSort fun a b => decide (a.timestamp ≤ b.timestamp)

theorem mergeStamps_isQsort : IsQsort mergeStamps where
  perm l := List.mergeSort_perm l _
  sorted l := by
    have h := @List.pairwise_mergeSort Stamp (fun a b => decide (a.timestamp ≤ b.timestamp))
      (fun a b c hab hbc => decide_eq_true ((of_decide_eq_true hab).trans (of_decide_eq_true hbc)))
      (fun a b => by simpa using Nat.le_total a.timestamp b.timestamp) l
    exact h.imp of_decide_eq_true

/-- Two threads put two items each, and one gets three of them. -/
theorem rankErrors_exact_three : ∃ report, printRelaxationMeasurements mergeStamps 4 0
      [[⟨1, 10⟩, ⟨5, 20⟩], [⟨2, 30⟩, ⟨4, 40⟩]] [[⟨6, 40⟩], [⟨7, 10⟩, ⟨8, 20⟩]] = some report ∧
    report.ranks.errors = (List.range 3).map (rankErrorOf
      (sortedValues mergeStamps [[⟨1, 10⟩, ⟨5, 20⟩], [⟨2, 30⟩, ⟨4, 40⟩]])
      (sortedValues mergeStamps [[⟨6, 40⟩], [⟨7, 10⟩, ⟨8, 20⟩]])) ∧
    report.ranks.sum = report.ranks.errors.sum % 2 ^ 64 ∧
      IsMax report.ranks.max report.ranks.errors :=
  rankErrors_exact mergeStamps_isQsort ⟨by decide, by decide, by decide, by decide⟩ (by decide)

/-! ### More gets than `rank_error_sum` can hold -/

section Backwards

/-- The records of `threads` threads with `m` records each: the record with number `i` has the time
`i`. -/
def numbered (f : ℕ → ℤ) (threads m : ℕ) : List (List Stamp) :=
  (List.range threads).map fun t => (List.range m).map fun k => ⟨t * m + k, f (t * m + k)⟩

theorem numbered_flatten (f : ℕ → ℤ) (threads m : ℕ) :
    (numbered f threads m).flatten = (List.range (threads * m)).map fun i => ⟨i, f i⟩ := by
  induction threads with
  | zero => rw [Nat.zero_mul]; rfl
  | succ t ih =>
    have hsplit : numbered f (t + 1) m = numbered f t m ++ [(List.range m).map fun k => ⟨t * m + k,
      f (t * m + k)⟩] := by
      unfold numbered
      rw [List.range_succ, List.map_append, List.map_singleton]
    rw [hsplit, List.flatten_concat, ih, Nat.succ_mul, List.range_add, List.map_append,
      List.map_map]
    rfl

theorem numbered_sorted (f : ℕ → ℤ) (threads m : ℕ) :
    sortedValues mergeStamps (numbered f threads m) = (List.range (threads * m)).map f := by
  have hsorted : ((List.range (threads * m)).map fun i => (⟨i, f i⟩ : Stamp)).Pairwise fun a b =>
      decide (a.timestamp ≤ b.timestamp) = true := by
    rw [List.pairwise_map]
    exact (List.pairwise_lt_range (n := threads * m)).imp fun h => decide_eq_true (Nat.le_of_lt h)
  unfold sortedValues combineSortRelaxedStamps mergeStamps
  rw [numbered_flatten, List.mergeSort_of_pairwise hsorted, List.map_map]
  rfl

/-- Items that are got in the reverse order have the rank errors of their positions. -/
theorem rankErrorOf_backwards {n j : ℕ} (hj : j < n) :
    rankErrorOf ((List.range n).map Int.ofNat) ((List.range n).map fun i => Int.ofNat
      (n - 1 - i)) j = n - 1 - j := by
  have hkey : ((List.range n).map fun i => Int.ofNat (n - 1 - i)).getD j 0 = Int.ofNat
    (n - 1 - j) := by
    rw [List.getD_eq_getElem _ _ (by simpa using hj), List.getElem_map, List.getElem_range]
  have hsplit : (List.range n).map Int.ofNat = (List.range (n - 1 - j)).map Int.ofNat ++
      Int.ofNat (n - 1 - j) :: (List.range j).map fun i => Int.ofNat (n - 1 - j + 1 + i) := by
    have hn : n = n - 1 - j + 1 + j := by omega
    rw [hn, List.range_add, List.range_succ, List.map_append, List.map_append, List.map_map,
      List.append_assoc]
    congr 2
    · congr 2
      omega
    · have he : n - 1 - j + 1 + j - 1 - j = n - 1 - j := by omega
      rw [he]
      rfl
  unfold rankErrorOf
  rw [hkey, hsplit, List.takeWhile_append_of_pos, List.takeWhile_cons_of_neg, List.append_nil]
  · rw [List.filter_eq_self.2, List.length_map, List.length_range]
    intro v hv
    obtain ⟨k, hk, rfl⟩ := List.mem_map.1 hv
    rw [← List.map_take, decide_eq_true_eq, List.mem_map]
    rintro ⟨i, hi, he⟩
    have hki : n - 1 - i = k := Int.ofNat.inj he
    have hik : i < j := by
      rw [List.take_range, List.mem_range] at hi
      omega
    rw [List.mem_range] at hk
    omega
  · simp
  · intro v hv
    obtain ⟨k, hk, rfl⟩ := List.mem_map.1 hv
    have hlt : k < n - 1 - j := List.mem_range.1 hk
    have hne : Int.ofNat k ≠ Int.ofNat (n - 1 - j) := fun he => hlt.ne (Int.ofNat.inj he)
    simpa using hne

theorem sum_range_two (n : ℕ) : (List.range n).sum * 2 = n * (n - 1) := by
  induction n with
  | zero => rfl
  | succ n ih =>
    rw [List.range_succ, List.sum_append, List.sum_singleton, Nat.add_mul, ih, Nat.add_sub_cancel]
    cases n with
    | zero => rfl
    | succ n =>
      rw [Nat.add_sub_cancel]
      ring

theorem sum_backwards (n : ℕ) : ((List.range n).map fun j => n - 1 - j).sum * 2 = n * (n - 1) := by
  have hrev : (List.range n).map (fun j => n - 1 - j) = (List.range n).reverse := by
    rw [List.range_eq_range', List.reverse_range', ← List.range_eq_range']
    refine List.map_congr_left fun j _ => ?_
    omega
  rw [hrev, List.sum_reverse, sum_range_two]

theorem nodup_numbered {f : ℕ → ℤ} {n : ℕ} (hf : ∀ i < n, ∀ j < n, f i = f j → i = j) :
    ((List.range n).map f).Nodup := by
  refine List.Nodup.map_on ?_ List.nodup_range
  intro i hi j hj
  exact hf i (List.mem_range.1 hi) j (List.mem_range.1 hj)

/-- A hundred threads with 10^8 records each: the items are got in the reverse order. The sum of the
rank errors is larger than 2^64. -/
theorem rankErrors_wrap : ∃ putStamps getStamps report, Recorded putStamps getStamps ∧
    (∀ l ∈ putStamps ++ getStamps, l.length ≤ 10 ^ 8) ∧
    printRelaxationMeasurements mergeStamps (10 ^ 10) 0 putStamps getStamps = some report ∧
    report.ranks.sum ≠ report.ranks.errors.sum := by
  have hn : 100 * 10 ^ 8 = 10 ^ 10 := by norm_num
  generalize hf : (fun i => Int.ofNat (10 ^ 10 - 1 - i)) = f
  have hputs := numbered_flatten Int.ofNat 100 (10 ^ 8)
  have hgets := numbered_flatten f 100 (10 ^ 8)
  rw [hn] at hputs hgets
  have hinj : ∀ i < 10 ^ 10, ∀ j < 10 ^ 10, f i = f j → i = j := by
    subst hf
    intro i hi j hj he
    have he : 10 ^ 10 - 1 - i = 10 ^ 10 - 1 - j := Int.ofNat.inj he
    omega
  have hrec : Recorded (numbered Int.ofNat 100 (10 ^ 8)) (numbered f 100 (10 ^ 8)) := by
    refine ⟨?_, ?_, ?_, ?_⟩
    · rw [hputs, Ne, List.map_eq_nil_iff, List.range_eq_nil]
      norm_num
    · rw [hputs, List.map_map]
      exact nodup_numbered fun i _ j _ he => Int.ofNat.inj he
    · rw [hgets, List.map_map]
      exact nodup_numbered hinj
    · rw [hputs, hgets, List.map_map, List.map_map]
      intro v hv
      obtain ⟨i, hi, rfl⟩ := List.mem_map.1 hv
      refine List.mem_map.2 ⟨10 ^ 10 - 1 - i, ?_, ?_⟩
      · rw [List.mem_range] at hi ⊢
        omega
      · subst hf
        rfl
  obtain ⟨report, hreport, herrors, hsum, -⟩ := @rankErrors_exact _ mergeStamps_isQsort _ _ hrec
    (10 ^ 10) 0
    (by rw [hputs, List.length_map, List.length_range])
  refine ⟨_, _, report, hrec, ?_, hreport, ?_⟩
  · intro l hl
    rcases List.mem_append.1 hl with hl | hl
    · obtain ⟨t, -, rfl⟩ := List.mem_map.1 hl
      rw [List.length_map, List.length_range]
    · obtain ⟨t, -, rfl⟩ := List.mem_map.1 hl
      rw [List.length_map, List.length_range]
  · have he : report.ranks.errors = (List.range (10 ^ 10)).map fun j => 10 ^ 10 - 1 - j := by
      rw [herrors, hgets, List.length_map, List.length_range]
      refine List.map_congr_left fun j hj => ?_
      rw [numbered_sorted, numbered_sorted, hn, ← hf]
      exact rankErrorOf_backwards (List.mem_range.1 hj)
    have htwo := sum_backwards (10 ^ 10)
    rw [← he] at htwo
    rw [hsum]
    omega

end Backwards

/-! ### The variance -/

/-- The sample variance of the rank errors around the mean that is printed. -/
def sampleVariance (r : Ranks) : ℚ :=
  (r.errors.map fun e : ℕ => ((e : ℚ) - rankErrorMean r) ^ 2).sum / (r.errors.length - 1)

theorem foldlM_sum {value : ℕ → ℤ} {fuel : ℕ} {gets : List ℤ} {x y : Items × Ranks}
    (h : gets.foldlM (rankStep value fuel) x = some y) (hx : x.2.sum = x.2.errors.sum % 2 ^ 64) :
    y.2.sum = y.2.errors.sum % 2 ^ 64 := by
  induction gets generalizing x with
  | nil =>
    obtain rfl : x = y := Option.some.inj h
    exact hx
  | cons key gets ih =>
    rw [List.foldlM_cons] at h
    obtain ⟨x', hstep, h⟩ := Option.bind_eq_some_iff.1 h
    obtain ⟨⟨rankError, items⟩, -, rfl⟩ := Option.map_eq_some_iff.1 hstep
    refine ih h ?_
    show (x.2.sum + rankError) % 2 ^ 64 = (x.2.errors ++ [rankError]).sum % 2 ^ 64
    rw [hx, Nat.mod_add_mod, List.sum_append, List.sum_singleton]

/-- The mean that is printed is the mean of the rank errors if their sum fits 64 bits. -/
theorem mean_of_lt {qsort : List Stamp → List Stamp} {fuel deqInd : ℕ}
    {putStamps getStamps : List (List Stamp)} {report : Report}
    (h : printRelaxationMeasurements qsort fuel deqInd putStamps getStamps = some report)
    (hlt : report.ranks.errors.sum < 2 ^ 64) :
    report.mean = (report.ranks.errors.sum : ℚ) / report.ranks.errors.length := by
  obtain ⟨r, hr, rfl⟩ := Option.map_eq_some_iff.1 h
  have hsum : r.sum = r.errors.sum := by
    unfold rankErrors at hr
    split at hr
    · cases hr
    · obtain ⟨y, hy, rfl⟩ := Option.map_eq_some_iff.1 hr
      rw [foldlM_sum hy rfl]
      exact Nat.mod_eq_of_lt hlt
  show rankErrorMean r = (r.errors.sum : ℚ) / r.errors.length
  unfold rankErrorMean
  split
  next h0 => rw [h0, Nat.cast_zero, div_zero]
  next => rw [hsum]

/-- So the sample variance is that around the mean of the rank errors. -/
theorem sampleVariance_of_lt {qsort : List Stamp → List Stamp} {fuel deqInd : ℕ}
    {putStamps getStamps : List (List Stamp)} {report : Report}
    (h : printRelaxationMeasurements qsort fuel deqInd putStamps getStamps = some report)
    (hlt : report.ranks.errors.sum < 2 ^ 64) :
    sampleVariance report.ranks = (report.ranks.errors.map fun e : ℕ =>
      ((e : ℚ) - report.ranks.errors.sum / report.ranks.errors.length) ^ 2).sum /
        (report.ranks.errors.length - 1) := by
  have hmean := mean_of_lt h hlt
  obtain ⟨r, -, rfl⟩ := Option.map_eq_some_iff.1 h
  have hmean : rankErrorMean r = (r.errors.sum : ℚ) / r.errors.length := hmean
  unfold sampleVariance
  rw [hmean]

theorem sum_squares_nonneg {l : List ℕ} {m : ℚ} :
    0 ≤ (l.map fun e : ℕ => ((e : ℚ) - m) ^ 2).sum := by
  refine List.sum_nonneg fun x hx => ?_
  obtain ⟨e, -, rfl⟩ := List.mem_map.1 hx
  exact sq_nonneg _

theorem sum_squares_eq_zero {l : List ℕ} {m : ℚ} :
    (l.map fun e : ℕ => ((e : ℚ) - m) ^ 2).sum = 0 ↔ ∀ e ∈ l, (e : ℚ) = m := by
  induction l with
  | nil => simp
  | cons a l ih =>
    rw [List.map_cons, List.sum_cons, List.forall_mem_cons, ← ih,
      add_eq_zero_iff_of_nonneg (sq_nonneg _) sum_squares_nonneg, sq_eq_zero_iff, sub_eq_zero]

/-- The variance that is printed is the sample variance exactly if the records before the one that
the second loop happens to start with have a rank error equal to the mean. -/
theorem variance_iff {qsort : List Stamp → List Stamp} {fuel deqInd : ℕ}
    {putStamps getStamps : List (List Stamp)} {report : Report}
    (h : printRelaxationMeasurements qsort fuel deqInd putStamps getStamps = some report)
    (hn : 2 ≤ report.ranks.errors.length) :
    report.variance = sampleVariance report.ranks ↔ ∀ e ∈ report.ranks.errors.take deqInd,
      (e : ℚ) = report.mean := by
  obtain ⟨r, -, rfl⟩ := Option.map_eq_some_iff.1 h
  have hn : 2 ≤ r.errors.length := hn
  show rankErrorVariance r deqInd = sampleVariance r ↔ ∀ e ∈ r.errors.take deqInd,
    (e : ℚ) = rankErrorMean r
  rw [← sum_squares_eq_zero]
  have hpos : (0 : ℚ) < r.errors.length - 1 := by
    have h2 : (2 : ℚ) ≤ r.errors.length := by exact_mod_cast hn
    linarith
  have hsplit : (r.errors.map fun e : ℕ => ((e : ℚ) - rankErrorMean r) ^ 2).sum =
      ((r.errors.take deqInd).map fun e : ℕ => ((e : ℚ) - rankErrorMean r) ^ 2).sum +
        ((r.errors.drop deqInd).map fun e : ℕ => ((e : ℚ) - rankErrorMean r) ^ 2).sum := by
    rw [← List.sum_append, ← List.map_append, List.take_append_drop]
  have hsq : rankErrorVariance r deqInd =
      ((r.errors.drop deqInd).map
        fun e : ℕ => ((e : ℚ) - rankErrorMean r) ^ 2).sum / (r.errors.length - 1) := by
    unfold rankErrorVariance
    simp only [sq]
  unfold sampleVariance
  rw [hsq, hsplit, div_left_inj' hpos.ne']
  constructor
  · intro he
    linarith
  · intro hz
    rw [hz, zero_add]

/-- Two items that are got in the reverse order. -/
theorem print_two (deqInd : ℕ) :
    printRelaxationMeasurements mergeStamps 2 deqInd [[⟨1, 10⟩, ⟨2, 20⟩]] [[⟨3, 20⟩, ⟨4, 10⟩]] =
      some ⟨⟨[1, 0], 1, 1⟩, rankErrorMean ⟨[1, 0], 1, 1⟩,
        rankErrorVariance ⟨[1, 0], 1, 1⟩ deqInd⟩ := by
  have hsorted : ∀ a b : Stamp, a.timestamp < b.timestamp → mergeStamps [a, b] = [a, b] :=
    fun a b hab =>
    List.mergeSort_of_pairwise (by simpa using hab.le)
  have hputs : combineSortRelaxedStamps mergeStamps [[⟨1, 10⟩, ⟨2, 20⟩]] = [⟨1, 10⟩, ⟨2, 20⟩] :=
    hsorted ⟨1, 10⟩ ⟨2, 20⟩ (by decide)
  have hgets : combineSortRelaxedStamps mergeStamps [[⟨3, 20⟩, ⟨4, 10⟩]] = [⟨3, 20⟩, ⟨4, 10⟩] :=
    hsorted ⟨3, 20⟩ ⟨4, 10⟩ (by decide)
  have hranks : rankErrors 2 [10, 20] [20, 10] = some ⟨[1, 0], 1, 1⟩ := by decide
  unfold printRelaxationMeasurements
  rw [hputs, hgets]
  show (rankErrors 2 [10, 20] [20, 10]).map _ = _
  rw [hranks]
  rfl

/-- The second loop starts with the first record. -/
theorem variance_iff_two :
    ∃ report, printRelaxationMeasurements mergeStamps 2 0 [[⟨1, 10⟩, ⟨2, 20⟩]]
      [[⟨3, 20⟩, ⟨4, 10⟩]] = some report ∧ (report.variance = sampleVariance report.ranks ↔
        ∀ e ∈ report.ranks.errors.take 0, (e : ℚ) = report.mean) :=
  ⟨_, print_two 0, variance_iff (print_two 0) (by decide)⟩

/-- With 1 in `deq_ind`, the second loop leaves the first record out: it prints a quarter, not a
half. -/
theorem variance_misses : ∃ report, printRelaxationMeasurements mergeStamps 2 1 [[⟨1, 10⟩, ⟨2, 20⟩]]
      [[⟨3, 20⟩, ⟨4, 10⟩]] = some report ∧ 2 ≤ report.ranks.errors.length ∧
      report.variance = 1 / 4 ∧
    sampleVariance report.ranks = 1 / 2 := by
  refine ⟨_, print_two 1, by decide, ?_, ?_⟩
  · norm_num [rankErrorVariance, rankErrorMean]
  · norm_num [sampleVariance, rankErrorMean]

end RelaxationAnalysis
