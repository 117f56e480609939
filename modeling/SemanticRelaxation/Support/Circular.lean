import Mathlib.Data.List.Cycle

/-!
# Circular linked lists

* `Circular next l`: following the pointers `next` from the first element of `l` passes the elements
  of `l` in order and comes back to the first one;
* `Circular.insert`: an element is inserted behind the first one;
* `walk`: the loop over all elements from one of them on, `Circular.walk` what it visits.
-/

namespace Pointers

variable {α : Type} {next next' : α → Option α} {a b x : α} {l m : List α}

/-- A pointer leads from the first element to the second. -/
def Leads (next : α → Option α) (x y : α) : Prop := next x = some y

/-- The elements of a list form a circle in their order. -/
def Circular (next : α → Option α) (l : List α) : Prop := Cycle.Chain (Leads next) (l : Cycle α)

theorem circular_cons : Circular next (a :: l) ↔ List.IsChain (Leads next) (a :: (l ++ [a])) :=
  Cycle.chain_coe_cons _ _ _

theorem circular_singleton : Circular next [a] ↔ next a = some a := Cycle.chain_singleton _ _

/-- The pointers of the elements before the last one do not change. -/
theorem isChain_congr (hc : List.IsChain (Leads next) (l ++ [a])) (hk : ∀ x ∈ l, next' x = next x) :
    List.IsChain (Leads next') (l ++ [a]) := by
  induction l with
  | nil => exact List.isChain_singleton _
  | cons x l ih =>
    have hrest := ih hc.tail fun y hy => hk y (List.mem_cons_of_mem _ hy)
    have hx := hk x (List.mem_cons_self ..)
    cases l with
    | nil => exact List.isChain_cons_cons.2 ⟨hx.trans (List.isChain_cons_cons.1 hc).1, hrest⟩
    | cons y l => exact List.isChain_cons_cons.2 ⟨hx.trans (List.isChain_cons_cons.1 hc).1, hrest⟩

theorem Circular.congr (hc : Circular next (a :: l)) (hk : ∀ x ∈ a :: l, next' x = next x) :
    Circular next' (a :: l) :=
  circular_cons.2 (isChain_congr (l := a :: l) (circular_cons.1 hc) hk)

/-- The element `x` is inserted between the first element and its successor. -/
theorem Circular.insert (hc : Circular next (a :: l)) (ha : next' a = some x)
    (hx : next' x = next a) (hk : ∀ y ∈ l, next' y = next y) : Circular next' (a :: x :: l) := by
  have hold := circular_cons.1 hc
  have hrest := isChain_congr hold.tail hk
  refine circular_cons.2 (List.isChain_cons_cons.2 ⟨ha, ?_⟩)
  cases l with
  | nil => exact List.isChain_cons_cons.2 ⟨hx.trans (List.isChain_cons_cons.1 hold).1, hrest⟩
  | cons y l => exact List.isChain_cons_cons.2 ⟨hx.trans (List.isChain_cons_cons.1 hold).1, hrest⟩

/-- A circle may be read from any of its elements on. -/
theorem Circular.rotate (hc : Circular next l) (hr : l.IsRotated m) : Circular next m := by
  unfold Circular at hc ⊢
  rwa [← Cycle.coe_eq_coe.2 hr]

/-- The loop `do { visit(p); p = p->next; } while (p != x)`, for as many rounds as there is fuel. A
pointer `NULL` has no result. -/
def walk [DecidableEq α] (next : α → Option α) (x : α) : ℕ → α → Option (List α)
  | 0, _ => none
  | fuel + 1, p =>
    match next p with
    | none => none
    | some q => if q = x then some [p] else (walk next x fuel q).map (p :: ·)

variable [DecidableEq α]

theorem walk_chain {fuel : ℕ} {p : α} (hc : List.IsChain (Leads next) (p :: (l ++ [x])))
    (hx : x ∉ l) (hf : l.length < fuel) : walk next x fuel p = some (p :: l) := by
  induction l generalizing p fuel with
  | nil =>
    obtain ⟨fuel, rfl⟩ := Nat.exists_eq_succ_of_ne_zero (Nat.ne_of_gt hf)
    have hp : next p = some x := (List.isChain_cons_cons.1 hc).1
    simp only [walk, hp, if_pos]
  | cons q l ih =>
    obtain ⟨fuel, rfl⟩ := Nat.exists_eq_succ_of_ne_zero (Nat.ne_of_gt (Nat.zero_lt_of_lt hf))
    obtain ⟨hp, hrest⟩ := List.isChain_cons_cons.1 hc
    have hp : next p = some q := hp
    have hq : q ≠ x := fun he => hx (he ▸ List.mem_cons_self ..)
    have hrec := ih hrest (fun hm => hx (List.mem_cons_of_mem _ hm)) (Nat.lt_of_succ_lt_succ hf)
    simp only [walk, hp, if_neg hq, hrec, Option.map_some]

/-- From any element of a circle the loop visits all of them, each once. -/
theorem Circular.walk {fuel : ℕ} (hc : Circular next l) (hd : l.Nodup) (hx : x ∈ l)
    (hf : l.length ≤ fuel) :
    ∃ m, walk next x fuel x = some m ∧ m.Perm l := by
  obtain ⟨l₁, l₂, rfl⟩ := List.append_of_mem hx
  have hrot : (l₁ ++ x :: l₂).IsRotated (x :: (l₂ ++ l₁)) := List.isRotated_append
  have hd' := (hrot.nodup_iff).1 hd
  refine ⟨x :: (l₂ ++ l₁), walk_chain (circular_cons.1 (hc.rotate hrot))
    (List.nodup_cons.1 hd').1 ?_, hrot.perm.symm⟩
  have hlen := hrot.perm.length_eq
  simp only [List.length_cons] at hlen
  omega

end Pointers
