import SemanticRelaxation.Prog.Regime
import SemanticRelaxation.TwoDdDeque.Deque

/-!
# The steps of the 2Dd-deque

* `Linked`: the list of one deque is linked in both directions, except for the link that is missing
  after a push;
* `Shape`: this holds of every deque, and a link that is missing is missing while the anchor of its
  push is in place. Nodes are numbered in the order of their pushes, and a link only changes to a
  node with a higher number: a thread that has fallen behind finds the old link no more;
* `Book`, `Duties`, `Counts`: the history and the calls, the anchors that are freed, the counters
  and the windows;
* `Kept`: what the steps of the others keep.
-/

namespace TwoDdDeque

open AtomicProg Deques

/-- The number of the node that a link leads to. -/
def Memory.age (s : Memory) : Option ℕ → ℕ
  | none => 0
  | some n => s.rank n

/-- The anchor that is in place. -/
def Memory.now (s : Memory) (i : ℕ) : Anchor := s.anchors (s.anchor i)

/-- The deque `i` holds the list `xs`. -/
structure Linked (s : Memory) (i : ℕ) (xs : List ℕ) : Prop where
  ends : ∀ d, (s.now i).ends d = (d.look xs).head?
  nodup : xs.Nodup
  nodes : ∀ n ∈ xs, s.rank n ≠ 0 ∧ s.place n = i
  links : ∀ d a b, Next (d.look xs) a b → s.link d b = some a ∨
    (s.now i).state = .push d ∧ (s.now i).ends d = some a ∧ s.age (s.link d b) < s.rank a
  pushed : ∀ d, (s.now i).state = .push d →
    ∃ n m, (s.now i).ends d = some n ∧ s.base n = some (d, m) ∧ Next (d.look xs) n m

/-- The link from `m` back to the node `n`, which was pushed next to it, has been set. -/
def Settled (s : Memory) (d : Side) (n m : ℕ) : Prop := s.rank n ≤ s.age (s.link d m)

/-- The deques and their nodes. -/
structure Shape (set : Params) (s : Memory) : Prop where
  deques : ∀ i < set.width, ∃ xs, content s.hist i = some xs ∧ Linked s i xs
  live : ∀ i < set.width, s.used (s.anchor i) = true
  apart : ∀ i < set.width, ∀ j < set.width, s.anchor i = s.anchor j → i = j
  used : ∀ a, s.used a = true → a < s.freshAnchor
  ranks : ∀ n, s.rank n ≤ s.clock
  pushed : ∀ n, s.rank n ≠ 0 → n < s.fresh
  links : ∀ d n m, s.link d n = some m → s.rank m ≠ 0
  base : ∀ n d m, s.base n = some (d, m) → s.rank n ≠ 0 ∧ s.rank m ≠ 0 ∧ s.rank m ≤ s.age
    (s.link d.other n) ∧ (Settled s d n m ∨
      s.place n < set.width ∧ (s.now (s.place n)).state = .push d ∧
        (s.now (s.place n)).ends d = some n)

/-- The history is one of the calls. -/
structure Book (calls : List Call) (s : Memory) : Prop where
  ops : (s.hist.map Event.op).Nodup
  pushes : ∀ d a i n, .push d a i n ∈ s.hist → n < s.fresh ∧ calls[a]? = some (.push d (s.val n))
  pops : ∀ d a i n, .pop d a i n ∈ s.hist → n < s.fresh ∧ calls[a]? = some (.pop d)

/-- The anchors that have been freed, and those that are to be. -/
structure Duties (set : Params) (s : Memory) : Prop where
  stable : ∀ i < set.width, (s.now i).state = .stable → s.duty (s.anchor i) = none
  freed : ∀ a ∈ s.freed, a < s.freshAnchor ∧ s.duty a = none
  live : ∀ a ∈ s.freed, ∀ i < set.width, s.anchor i = a → (s.now i).state ≠ .stable ∧ s.lost = true
  nodup : s.freed.Nodup

/-- The counters are within the windows. -/
structure Counts (set : Params) (s : Memory) : Prop where
  put : ∀ i < set.width, ∀ d, (s.now i).putCount d ≤ s.putMax d
  get : ∀ i < set.width, ∀ d, (s.now i).getCount d ≤ s.getMax d

/-- The invariant. -/
structure Inv (set : Params) (calls : List Call) (s : Memory) : Prop where
  shape : Shape set s
  book : Book calls s
  duties : Duties set s
  counts : Counts set s

/-- What the steps of the others keep for the owner `o`. -/
structure Kept (set : Params) (o : Owner) (s s' : Memory) : Prop where
  hist : s.hist <+: s'.hist
  fresh : s.fresh ≤ s'.fresh
  freshAnchor : s.freshAnchor ≤ s'.freshAnchor
  val : ∀ n < s.fresh, s'.val n = s.val n
  pusher : ∀ n < s.fresh, s'.pusher n = s.pusher n
  maker : ∀ a < s.freshAnchor, s'.maker a = s.maker a
  anchors : ∀ a, s.used a = true → s'.anchors a = s.anchors a ∧ s'.used a = true
  never : ∀ a, s.used a = true → ∀ i, s'.anchor i = a → s.anchor i = a
  nodes : ∀ n, s.rank n ≠ 0 → s'.rank n = s.rank n ∧ s'.place n = s.place n ∧ s'.base n = s.base n
  links : ∀ n, s.rank n ≠ 0 → ∀ d, s'.link d n = s.link d n ∨
    ∃ m, s'.link d n = some m ∧ s'.rank m ≠ 0 ∧ s.age (s.link d n) < s'.rank m
  stable : ∀ i < set.width, ∀ a, s.used a = true → s.anchor i = a → s'.anchor i = a →
    (s.anchors a).state = .stable →
    ∀ d h, (s.anchors a).ends d = some h → ∀ d', s'.link d' h = s.link d' h
  lost : s.lost = true → s'.lost = true
  putMax : ∀ d, s.putMax d ≤ s'.putMax d
  getMax : ∀ d, s.getMax d ≤ s'.getMax d
  ownNode : ∀ c, o = .op c → ∀ n < s.fresh, s.pusher n = c → s.rank n = 0 →
    s'.rank n = 0 ∧ ∀ d, s'.link d n = s.link d n
  ownAnchor : ∀ c, o = .op c → ∀ a < s.freshAnchor, s.maker a = c → s.used a = false →
    s'.used a = false ∧ s'.anchors a = s.anchors a
  ownDuty : ∀ c, o = .op c → ∀ a < s.freshAnchor, s.duty a = some c → s'.duty a = some c
  ownEvents : ∀ c, o = .op c → ∀ e ∈ s'.hist, e.op = c → e ∈ s.hist

section Kept

variable {set : Params} {o : Owner} {s s' s'' : Memory} {n : ℕ} {v : Option ℕ} {d : Side}

theorem Kept.refl (set : Params) (o : Owner) (s : Memory) : Kept set o s s where
  hist := List.prefix_refl _
  fresh := le_rfl
  freshAnchor := le_rfl
  val _ _ := rfl
  pusher _ _ := rfl
  maker _ _ := rfl
  anchors _ h := ⟨rfl, h⟩
  never _ _ _ h := h
  nodes _ _ := ⟨rfl, rfl, rfl⟩
  links _ _ _ := .inl rfl
  stable _ _ _ _ _ _ _ _ _ _ _ := rfl
  lost h := h
  putMax _ := le_rfl
  getMax _ := le_rfl
  ownNode _ _ _ _ _ h := ⟨h, fun _ => rfl⟩
  ownAnchor _ _ _ _ _ h := ⟨h, rfl⟩
  ownDuty _ _ _ _ h := h
  ownEvents _ _ _ h _ := h

theorem Kept.rank_le (h : Kept set o s s') (n : ℕ) : s.rank n ≤ s'.rank n := by
  by_cases hn : s.rank n = 0
  · rw [hn]
    exact Nat.zero_le _
  · exact (h.nodes n hn).1.ge

theorem Kept.age_le (h : Kept set o s s') (v : Option ℕ) : s.age v ≤ s'.age v := by
  cases v with
  | none => exact le_rfl
  | some n => exact h.rank_le n

/-- A link leads to a node with a number that only grows. -/
theorem Kept.age_link_le (h : Kept set o s s') (hn : s.rank n ≠ 0) (d : Side) :
    s.age (s.link d n) ≤ s'.age (s'.link d n) := by
  rcases h.links n hn d with he | ⟨m, hm, -, hlt⟩
  · rw [he]
    exact h.age_le _
  · rw [hm]
    exact hlt.le

theorem Kept.trans (h : Kept set o s s') (h' : Kept set o s' s'') : Kept set o s s'' where
  hist := h.hist.trans h'.hist
  fresh := h.fresh.trans h'.fresh
  freshAnchor := h.freshAnchor.trans h'.freshAnchor
  val n hn := (h'.val n (hn.trans_le h.fresh)).trans (h.val n hn)
  pusher n hn := (h'.pusher n (hn.trans_le h.fresh)).trans (h.pusher n hn)
  maker a ha := (h'.maker a (ha.trans_le h.freshAnchor)).trans (h.maker a ha)
  anchors a ha := by
    obtain ⟨he, ha'⟩ := h.anchors a ha
    obtain ⟨he', ha''⟩ := h'.anchors a ha'
    exact ⟨he'.trans he, ha''⟩
  never a ha i hi := h.never a ha i (h'.never a (h.anchors a ha).2 i hi)
  nodes n hn := by
    obtain ⟨hr, hp, hb⟩ := h.nodes n hn
    obtain ⟨hr', hp', hb'⟩ := h'.nodes n (hr.symm ▸ hn)
    exact ⟨hr'.trans hr, hp'.trans hp, hb'.trans hb⟩
  links n hn d := by
    have hn' : s'.rank n ≠ 0 := (h.nodes n hn).1.symm ▸ hn
    rcases h.links n hn d with he | ⟨m, hm, hr, hlt⟩
    · rcases h'.links n hn' d with he' | ⟨m, hm, hr, hlt⟩
      · exact .inl (he'.trans he)
      · rw [he] at hlt
        exact .inr ⟨m, hm, hr, (h.age_le _).trans_lt hlt⟩
    · rcases h'.links n hn' d with he' | ⟨k, hk, hr', hlt'⟩
      · have hm' := (h'.nodes m hr).1
        exact .inr ⟨m, he'.trans hm, hm'.symm ▸ hr, hm'.symm ▸ hlt⟩
      · rw [hm] at hlt'
        exact .inr ⟨k, hk, hr', hlt.trans hlt'⟩
  stable i hi a ha hs hs'' hst d x hx d' := by
    obtain ⟨he, ha'⟩ := h.anchors a ha
    have hs' := h'.never a ha' i hs''
    have hst' : (s'.anchors a).state = .stable := he.symm ▸ hst
    have hx' : (s'.anchors a).ends d = some x := he.symm ▸ hx
    exact (h'.stable i hi a ha' hs' hs'' hst' d x hx' d').trans
      (h.stable i hi a ha hs hs' hst d x hx d')
  lost hl := h'.lost (h.lost hl)
  putMax d := (h.putMax d).trans (h'.putMax d)
  getMax d := (h.getMax d).trans (h'.getMax d)
  ownNode c hc n hn hp hr := by
    obtain ⟨hr', hl⟩ := h.ownNode c hc n hn hp hr
    obtain ⟨hr'', hl'⟩ := h'.ownNode c hc n (hn.trans_le h.fresh) ((h.pusher n hn).trans hp) hr'
    exact ⟨hr'', fun d => (hl' d).trans (hl d)⟩
  ownAnchor c hc a ha hm hu := by
    obtain ⟨hu', he⟩ := h.ownAnchor c hc a ha hm hu
    obtain ⟨hu'', he'⟩ := h'.ownAnchor c hc a (ha.trans_le h.freshAnchor)
      ((h.maker a ha).trans hm) hu'
    exact ⟨hu'', he'.trans he⟩
  ownDuty c hc a ha hd := h'.ownDuty c hc a (ha.trans_le h.freshAnchor) (h.ownDuty c hc a ha hd)
  ownEvents c hc e he hop := h.ownEvents c hc e (h'.ownEvents c hc e he hop) hop

end Kept

/-- The rules that all threads keep to. -/
def regime (set : Params) : Regime Call Memory Unit where
  inv calls x := Inv set calls x.1
  frame o x x' := Kept set o x.1 x'.1
  fresh n x := ∀ e ∈ x.1.hist, e.op ≠ n
  assume _ _ := True
  refl o x := .refl set o x.1
  trans _ _ _ _ := Kept.trans
  inv_call calls call x h := by
    have hmono : ∀ {o : ℕ} {c : Call}, calls[o]? = some c → (calls ++ [call])[o]? = some c := by
      intro o c hc
      rwa [List.getElem?_append_left (List.getElem?_eq_some_iff.1 hc).1]
    refine ⟨h.shape, ⟨h.book.ops, fun d a i n hn => ?_, fun d a i n hn => ?_⟩, h.duties, h.counts⟩
    · obtain ⟨hlt, hc⟩ := h.book.pushes d a i n hn
      exact ⟨hlt, hmono hc⟩
    · obtain ⟨hlt, hc⟩ := h.book.pops d a i n hn
      exact ⟨hlt, hmono hc⟩
  fresh_later n _ _ h hn e he hop := hn e (h.ownEvents n rfl e he hop) hop

end TwoDdDeque
