import Mathlib.Data.List.Basic
import Mathlib.Data.List.Infix
import Mathlib.Data.List.Nodup

/-!
# Histories of an array of deques

A history lists the pushes and pops on the deques of an array in the order in which they took
effect, each with its end, its call and its deque.

* `Side.look`: a list, read from one of its ends;
* `Next`: two neighbours in a list;
* `content`: what is in one deque after a history, if the history is legal for it.
-/

namespace Deques

/-- The ends of a deque. -/
inductive Side
  | left
  | right
  deriving DecidableEq

namespace Side

/-- The other end. -/
def other : Side → Side
  | left => right
  | right => left

/-- A list that is written from left to right, read from an end. -/
def look : Side → List ℕ → List ℕ
  | left, xs => xs
  | right, xs => xs.reverse

variable {d d' : Side} {xs : List ℕ} {n : ℕ}

@[simp] theorem other_other (d : Side) : d.other.other = d := by
  cases d <;> rfl

theorem other_ne (d : Side) : d.other ≠ d := by
  cases d <;> exact nofun

theorem eq_or_other (d d' : Side) : d' = d ∨ d' = d.other := by
  cases d <;> cases d' <;> simp [other]

@[simp] theorem look_look (d : Side) (xs : List ℕ) : d.look (d.look xs) = xs := by
  cases d with
  | left => rfl
  | right => exact List.reverse_reverse xs

theorem look_other (d : Side) (xs : List ℕ) : d.other.look xs = (d.look xs).reverse := by
  cases d with
  | left => rfl
  | right => exact (List.reverse_reverse xs).symm

@[simp] theorem mem_look : n ∈ d.look xs ↔ n ∈ xs := by
  cases d with
  | left => exact Iff.rfl
  | right => exact List.mem_reverse

theorem nodup_look : (d.look xs).Nodup ↔ xs.Nodup := by
  cases d with
  | left => exact Iff.rfl
  | right => exact List.nodup_reverse

@[simp] theorem length_look : (d.look xs).length = xs.length := by
  cases d with
  | left => rfl
  | right => exact List.length_reverse

end Side

/-- `a` comes right before `b`. -/
def Next (xs : List ℕ) (a b : ℕ) : Prop := [a, b] <:+: xs

variable {xs : List ℕ} {a a' b n : ℕ}

theorem next_cons : Next (n :: xs) a b ↔ a = n ∧ xs.head? = some b ∨ Next xs a b := by
  unfold Next
  rw [List.infix_cons_iff, List.cons_prefix_cons]
  refine or_congr_left (and_congr_right fun _ => ?_)
  cases xs with
  | nil => simp
  | cons m xs => simp [eq_comm]

theorem next_reverse : Next xs.reverse a b ↔ Next xs b a := by
  unfold Next
  rw [← List.reverse_infix, List.reverse_reverse]
  rfl

theorem next_other {d : Side} : Next (d.other.look xs) a b ↔ Next (d.look xs) b a := by
  rw [Side.look_other, next_reverse]

theorem Next.left_mem (h : Next xs a b) : a ∈ xs := h.subset (List.mem_cons_self ..)

theorem Next.right_mem (h : Next xs a b) :
    b ∈ xs := h.subset (List.mem_cons_of_mem _ (List.mem_singleton_self b))

/-- The first item has nothing before it. -/
theorem Next.ne_head (hn : xs.Nodup) (h : Next xs a b) : xs.head? ≠ some b := by
  intro hb
  cases xs with
  | nil => cases hb
  | cons k xs =>
    obtain rfl : k = b := Option.some.inj hb
    have hk : k ∉ xs := (List.nodup_cons.1 hn).1
    rcases next_cons.1 h with ⟨-, hhead⟩ | h
    · exact hk (List.mem_of_mem_head? hhead)
    · exact hk h.right_mem

/-- In a list without repetitions an item has one item before it. -/
theorem Next.unique (hn : xs.Nodup) (h : Next xs a b) (h' : Next xs a' b) : a = a' := by
  induction xs with
  | nil => exact absurd h.left_mem List.not_mem_nil
  | cons m xs ih =>
    have hn' := (List.nodup_cons.1 hn).2
    rcases next_cons.1 h with ⟨rfl, hb⟩ | hr
    · rcases next_cons.1 h' with ⟨rfl, -⟩ | hr'
      · rfl
      · exact absurd hb (hr'.ne_head hn')
    · rcases next_cons.1 h' with ⟨rfl, hb⟩ | hr'
      · exact absurd hb (hr.ne_head hn')
      · exact ih hn' hr hr'

/-! ### Histories -/

/-- A push or a pop at an end of a deque: its call, the deque and the node. -/
inductive Event
  | push (d : Side) (op idx node : ℕ)
  | pop (d : Side) (op idx node : ℕ)
  deriving DecidableEq

namespace Event

def op : Event → ℕ
  | push _ op _ _ | pop _ op _ _ => op

def idx : Event → ℕ
  | push _ _ idx _ | pop _ _ idx _ => idx

end Event

/-- One operation on a deque. -/
def step (xs : List ℕ) : Event → Option (List ℕ)
  | .push d _ _ n => some (d.look (n :: d.look xs))
  | .pop d _ _ n =>
    match d.look xs with
    | [] => none
    | m :: ys => if m = n then some (d.look ys) else none

/-- A deque after a history, if it is legal. -/
def run (hist : List Event) : Option (List ℕ) := hist.foldlM step []

/-- What happens to the deque `i`. -/
def part (i : ℕ) (hist : List Event) : List Event := hist.filter fun e => e.idx = i

/-- What is in the deque `i`. -/
def content (hist : List Event) (i : ℕ) : Option (List ℕ) := run (part i hist)

variable {hist : List Event} {e : Event} {i : ℕ} {xs' : List ℕ} {d : Side} {op : ℕ}

theorem run_concat (h : run hist = some xs) (he : step xs e = some xs') :
    run (hist ++ [e]) = some xs' := by
  unfold run at h ⊢
  rw [List.foldlM_append, h]
  show ([e].foldlM step xs) = some xs'
  rw [List.foldlM_cons, he]
  rfl

theorem content_concat_of_ne (h : e.idx ≠ i) : content (hist ++ [e]) i = content hist i := by
  unfold content part
  rw [List.filter_append, List.filter_cons_of_neg (by simpa using h), List.filter_nil,
    List.append_nil]

theorem content_concat (h : content hist e.idx = some xs) (he : step xs e = some xs') :
    content (hist ++ [e]) e.idx = some xs' := by
  unfold content part at h ⊢
  rw [List.filter_append, List.filter_cons_of_pos (by simp), List.filter_nil]
  exact run_concat h he

theorem content_push (h : content hist i = some xs) :
    content (hist ++ [.push d op i n]) i = some (d.look (n :: d.look xs)) :=
  content_concat (e := .push d op i n) h rfl

theorem content_pop {ys : List ℕ} (h : content hist i = some xs) (hx : d.look xs = n :: ys) :
    content (hist ++ [.pop d op i n]) i = some (d.look ys) := by
  refine content_concat (e := .pop d op i n) h ?_
  simp only [step, hx, if_pos]

end Deques
