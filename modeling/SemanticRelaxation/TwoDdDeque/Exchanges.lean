import SemanticRelaxation.TwoDdDeque.Private
import SemanticRelaxation.Support.History

/-!
# The exchanges of the 2Dd-deque

The exchanges of anchors (pushes to an empty deque and next to others, pops, and the exchange for a
stable anchor) and the exchange of the missing link.
-/

namespace TwoDdDeque

open AtomicProg Deques

variable {set : Params} {calls : List Call} {s s' : Memory} {i j n m a new node : ℕ}
  {xs ys : List ℕ} {c : Caller}
  {o : Owner} {d : Side} {base : Option ℕ}

/-! ### The anchors after an exchange -/

section Anchors

variable (h : Shape set s) (ha : MyAnchor c new s)
include h

theorem exchange_live (i : ℕ) : ∀ j < set.width,
    Function.update s.used new true (Function.update s.anchor i new j) = true := by
  intro j hj
  by_cases hji : j = i
  · subst hji
    rw [Function.update_self, Function.update_self]
  · rw [Function.update_of_ne hji]
    by_cases hnew : s.anchor j = new
    · rw [hnew, Function.update_self]
    · rw [Function.update_of_ne hnew]
      exact h.live j hj

include ha

theorem exchange_apart (i : ℕ) : ∀ j < set.width, ∀ k < set.width,
    Function.update s.anchor i new j = Function.update s.anchor i new k → j = k := by
  intro j hj k hk he
  by_cases hji : j = i
  · subst hji
    by_cases hki : k = j
    · exact hki.symm
    · rw [Function.update_self, Function.update_of_ne hki] at he
      exact absurd he.symm (ha.ne (h.live k hk))
  · by_cases hki : k = i
    · subst hki
      rw [Function.update_self, Function.update_of_ne hji] at he
      exact absurd he (ha.ne (h.live j hj))
    · rw [Function.update_of_ne hji, Function.update_of_ne hki] at he
      exact h.apart j hj k hk he

theorem exchange_used : ∀ b, Function.update s.used new true b = true → b < s.freshAnchor := by
  intro b hb
  by_cases hbn : b = new
  · exact hbn ▸ ha.lt
  · rw [Function.update_of_ne hbn] at hb
    exact h.used b hb

end Anchors

theorem now_exchange_self : (s.putAnchor i new).now i = s.anchors new := by
  show s.anchors (Function.update s.anchor i new i) = s.anchors new
  rw [Function.update_self]

theorem now_exchange_of_ne (hj : j ≠ i) : (s.putAnchor i new).now j = s.now j := by
  show s.anchors (Function.update s.anchor i new j) = s.anchors (s.anchor j)
  rw [Function.update_of_ne hj]

/-! ### The lists -/

/-- A list whose anchor is not stable has two nodes at least. -/
theorem Linked.stable_of_single (h : Linked s i xs) (hx : d.look xs = [] ∨ ∃ n, d.look xs = [n]) :
    (s.now i).state = .stable := by
  cases hst : (s.now i).state with
  | stable => rfl
  | push d' =>
    obtain ⟨n, m, -, -, hnm⟩ := h.pushed d' hst
    have hlen : (d'.look xs).length = (d.look xs).length :=
      Side.length_look.trans Side.length_look.symm
    have hnext : 2 ≤ (d'.look xs).length := hnm.length_le
    rcases hx with hx | ⟨k, hx⟩
    · rw [hlen, hx] at hnext
      exact absurd hnext (by decide)
    · rw [hlen, hx] at hnext
      exact absurd hnext (Nat.not_succ_le_self 1)

/-- In a deque with a stable anchor all links are set. -/
theorem Linked.link_of_stable (h : Linked s i xs) (hst : (s.now i).state = .stable) {a b : ℕ}
    (hab : Next (d.look xs) a b) : s.link d b = some a := by
  rcases h.links d a b hab with he | ⟨hpush, -⟩
  · exact he
  · rw [hst] at hpush
    cases hpush

/-- The last node of a list with several nodes is that of the rest. -/
theorem head_other (hx : d.look xs = n :: ys) (hy : ys ≠ []) :
    (d.other.look xs).head? = (d.other.look (d.look ys)).head? := by
  rw [Side.look_other, Side.look_other, hx, Side.look_look, List.reverse_cons,
    List.head?_append_of_ne_nil]
  exact fun he => hy (List.reverse_eq_nil_iff.1 he)

/-- The first node of an empty deque. -/
theorem Linked.pushFirst (h : Linked s i []) (hnew : s.anchors new = (s.now i).first d node) :
    Linked (s.push c d i new node none) i (d.look [node]) := by
  have hnow : (s.push c d i new node none).now i = (s.now i).first d node :=
    now_exchange_self.trans hnew
  have hst : (s.now i).state = .stable :=
    h.stable_of_single (d := d) (.inl (List.eq_nil_of_length_eq_zero Side.length_look))
  have hone : ∀ d' : Side, d'.look (d.look [node]) = [node] := by
    intro d'
    cases d <;> cases d' <;> rfl
  refine ⟨fun d' => ?_, Side.nodup_look.2 (List.nodup_singleton _), fun n hn => ?_,
    fun d' a b hab => ?_,
    fun d' hd' => ?_⟩
  · rw [hnow, hone]
    rfl
  · obtain rfl := List.mem_singleton.1 (Side.mem_look.1 hn)
    refine ⟨?_, Function.update_self ..⟩
    show Function.update s.rank n (s.clock + 1) n ≠ 0
    rw [Function.update_self]
    exact Nat.succ_ne_zero _
  · rw [hone] at hab
    have hlen : 2 ≤ [node].length := hab.length_le
    exact absurd hlen (Nat.not_succ_le_self 1)
  · rw [hnow] at hd'
    have hd' : (s.now i).state = .push d' := hd'
    rw [hst] at hd'
    cases hd'

/-- A node next to others. -/
theorem Linked.pushNext (h : Linked s i xs) (hsh : Shape set s) (hst : (s.now i).state = .stable)
    (hnew : s.anchors new = (s.now i).next d node) (hnode : s.rank node = 0)
    (hbase : (s.now i).ends d = some m) (hlink : s.link d.other node = some m) :
    Linked (s.push c d i new node (some m)) i (d.look (node :: d.look xs)) := by
  have hnow : (s.push c d i new node (some m)).now i = (s.now i).next d node :=
    now_exchange_self.trans hnew
  have hne : ∀ k, s.rank k ≠ 0 → k ≠ node := by
    rintro k hk rfl
    exact hk hnode
  have hrank : ∀ k, s.rank k ≠ 0 → (s.push c d i new node (some m)).rank k = s.rank k := fun k hk =>
    Function.update_of_ne (hne k hk) _ _
  have hself : (s.push c d i new node (some m)).rank node = s.clock + 1 := Function.update_self ..
  obtain ⟨ys, hys⟩ : ∃ ys, d.look xs = m :: ys := by
    have hhead := (h.ends d).symm.trans hbase
    cases hx : d.look xs with
    | nil =>
      rw [hx] at hhead
      cases hhead
    | cons k ys =>
      rw [hx] at hhead
      obtain rfl := Option.some.inj hhead
      exact ⟨ys, rfl⟩
  have hnodup : (node :: d.look xs).Nodup := by
    refine List.nodup_cons.2 ⟨fun hmem => ?_, Side.nodup_look.2 h.nodup⟩
    exact (h.nodes node (Side.mem_look.1 hmem)).1 hnode
  have hage : ∀ d' b, s.age (s.link d' b) ≤ s.clock := by
    intro d' b
    cases s.link d' b with
    | none => exact Nat.zero_le _
    | some k => exact hsh.ranks k
  have hage' : ∀ d' b, (s.push c d i new node (some m)).age (s.link d' b) = s.age (s.link d' b) :=
    fun d' b =>
    age_congr hsh.links hrank d' b
  refine ⟨fun d' => ?_, Side.nodup_look.2 hnodup, fun k hk => ?_, fun d' a b hab => ?_,
    fun d' hd' => ?_⟩
  · rw [hnow]
    show Function.update (s.now i).ends d (some node) d' = _
    rcases Side.eq_or_other d d' with rfl | rfl
    · rw [Function.update_self, Side.look_look]
      rfl
    · rw [Function.update_of_ne (Side.other_ne d), h.ends, Side.look_other, Side.look_other,
        Side.look_look,
        List.reverse_cons, List.head?_append_of_ne_nil]
      rw [hys]
      exact fun he => List.cons_ne_nil _ _ (List.reverse_eq_nil_iff.1 he)
  · rcases List.mem_cons.1 (Side.mem_look.1 hk) with rfl | hk
    · refine ⟨?_, Function.update_self ..⟩
      rw [hself]
      exact Nat.succ_ne_zero _
    · obtain ⟨hr, hp⟩ := h.nodes k (Side.mem_look.1 hk)
      exact ⟨(hrank k hr).symm ▸ hr, (Function.update_of_ne (hne k hr) _ _).trans hp⟩
  · rcases Side.eq_or_other d d' with rfl | rfl
    · rw [Side.look_look] at hab
      rcases next_cons.1 hab with ⟨rfl, hb⟩ | hab
      · -- the link to the new node is missing
        refine .inr ⟨by rw [hnow]; rfl, by rw [hnow]; exact Function.update_self .., ?_⟩
        show (s.push c d' i new a (some m)).age (s.link d' b) < _
        rw [hage', hself]
        exact Nat.lt_succ_of_le (hage d' b)
      · exact .inl (h.link_of_stable hst hab)
    · rw [next_other, Side.look_look] at hab
      rcases next_cons.1 hab with ⟨rfl, hb⟩ | hab
      · rw [hys] at hb
        obtain rfl := Option.some.inj hb
        exact .inl hlink
      · exact .inl (h.link_of_stable hst (next_other.2 hab))
  · rw [hnow] at hd'
    obtain rfl : d = d' := AnchorState.push.inj hd'
    refine ⟨node, m, by rw [hnow]; exact Function.update_self .., Function.update_self .., ?_⟩
    rw [Side.look_look, hys]
    exact next_cons.2 (.inl ⟨rfl, rfl⟩)

/-- A list that has lost its first node. -/
theorem Linked.pop (h : Linked s i xs) (hst : (s.now i).state = .stable)
    (hx : d.look xs = n :: ys) (hstate : (s.anchors new).state = .stable)
    (hends : ∀ d', (s.anchors new).ends d' = (d'.look (d.look ys)).head?) :
    Linked (s.pop c d i new n) i (d.look ys) := by
  have hnow : (s.pop c d i new n).now i = s.anchors new := now_exchange_self
  have hnodup : (n :: ys).Nodup := hx ▸ Side.nodup_look.2 h.nodup
  have hmem : ∀ k ∈ ys, k ∈ xs := by
    intro k hk
    rw [← Side.mem_look (d := d), hx]
    exact List.mem_cons_of_mem _ hk
  refine ⟨fun d' => hnow ▸ hends d', Side.nodup_look.2 (List.nodup_cons.1 hnodup).2, fun k hk => ?_,
    fun d' a b hab => ?_, fun d' hd' => ?_⟩
  · exact h.nodes k (hmem k (Side.mem_look.1 hk))
  · refine .inl (h.link_of_stable (d := d') hst ?_)
    rcases Side.eq_or_other d d' with rfl | rfl
    · rw [Side.look_look] at hab
      rw [hx]
      exact next_cons.2 (.inr hab)
    · rw [next_other, Side.look_look] at hab
      rw [next_other, hx]
      exact next_cons.2 (.inr hab)
  · rw [hnow, hstate] at hd'
    cases hd'

/-! ### All deques -/

/-- The pushes of a deque with a stable anchor are settled. -/
theorem Shape.settled (h : Shape set s) (hst : (s.now i).state = .stable) {k l : ℕ} {d' : Side}
    (hb : s.base k = some (d', l)) : Settled s d' k l ∨
      s.place k ≠ i ∧ s.place k < set.width ∧ (s.now (s.place k)).state = .push d' ∧
        (s.now (s.place k)).ends d' = some k := by
  obtain ⟨-, -, -, hor⟩ := h.base k d' l hb
  refine hor.imp_right fun ⟨hlt, hp, he⟩ => ⟨?_, hlt, hp, he⟩
  rintro rfl
  rw [hst] at hp
  cases hp

theorem Shape.push (h : Shape set s) (ha : MyAnchor c new s) (hn : Mine c node s)
    (hi : i < set.width) (hxs : content s.hist i = some xs) (hst : (s.now i).state = .stable)
    (hl : Linked (s.push c d i new node base) i (d.look (node :: d.look xs)))
    (hbase : ∀ m, base = some m → s.rank m ≠ 0 ∧ s.link d.other node = some m ∧
      (s.anchors new).state = .push d ∧
      (s.anchors new).ends d = some node) : Shape set (s.push c d i new node base) := by
  have hne : ∀ k, s.rank k ≠ 0 → k ≠ node := by
    rintro k hk rfl
    exact hk hn.rank
  have hrank : ∀ k, s.rank k ≠ 0 → (s.push c d i new node base).rank k = s.rank k := fun k hk =>
    Function.update_of_ne (hne k hk) _ _
  have hplace : ∀ k, s.rank k ≠ 0 → (s.push c d i new node base).place k = s.place k := fun k hk =>
    Function.update_of_ne (hne k hk) _ _
  have hself : (s.push c d i new node base).rank node = s.clock + 1 := Function.update_self ..
  have hage : ∀ d' k, (s.push c d i new node base).age (s.link d' k) = s.age (s.link d' k) :=
    fun d' k =>
    age_congr h.links hrank d' k
  have hnowne : ∀ j, j ≠ i → (s.push c d i new node base).now j = s.now j := fun j hj =>
    now_exchange_of_ne hj
  have hset : ∀ {k l d'}, s.rank k ≠ 0 → Settled s d' k l →
    Settled (s.push c d i new node base) d' k l := by
    intro k l d' hk hs
    show (s.push c d i new node base).rank k ≤ (s.push c d i new node base).age (s.link d' l)
    rw [hrank k hk, hage]
    exact hs
  refine ⟨fun j hj => ?_, exchange_live h i, exchange_apart h ha i, exchange_used h ha, fun k => ?_,
    fun k hk => ?_,
    fun d' k l hl => ?_, fun k d' l hb => ?_⟩
  · by_cases hji : j = i
    · subst hji
      exact ⟨_, content_push hxs, hl⟩
    · obtain ⟨ys, hys, hlj⟩ := h.deques j hj
      refine ⟨ys, (content_concat_of_ne (e := .push d c.op i node) (Ne.symm hji)).trans hys, ?_⟩
      exact hlj.congr h.links (hnowne j hji) (fun k hk => ⟨hrank k hk, hplace k hk,
        Function.update_of_ne (hne k hk) _ _⟩) fun _ _ _ => rfl
  · show Function.update s.rank node (s.clock + 1) k ≤ s.clock + 1
    by_cases hk : k = node
    · subst hk
      rw [Function.update_self]
    · rw [Function.update_of_ne hk]
      exact (h.ranks k).trans (Nat.le_succ _)
  · by_cases hkn : k = node
    · exact hkn ▸ hn.lt
    · have hk : Function.update s.rank node (s.clock + 1) k ≠ 0 := hk
      rw [Function.update_of_ne hkn] at hk
      exact h.pushed k hk
  · have hr := h.links d' k l hl
    exact (hrank l hr).symm ▸ hr
  · have hb : Function.update s.base node (base.map fun m => (d, m)) k = some (d', l) := hb
    by_cases hk : k = node
    · subst hk
      rw [Function.update_self] at hb
      obtain ⟨m, hm, he⟩ := Option.map_eq_some_iff.1 hb
      obtain ⟨rfl, rfl⟩ := Prod.mk.inj he
      obtain ⟨hr, hlink, hstate, hends⟩ := hbase m hm
      have hpl : (s.push c d i new k base).place k = i := Function.update_self ..
      have hnow : (s.push c d i new k base).now i = s.anchors new := now_exchange_self
      refine ⟨?_, (hrank m hr).symm ▸ hr, ?_, .inr ?_⟩
      · rw [hself]
        exact Nat.succ_ne_zero _
      · show _ ≤ (s.push c d i new k base).age (s.link d.other k)
        rw [hage, hlink, hrank m hr]
        exact le_rfl
      · rw [hpl, hnow]
        exact ⟨hi, hstate, hends⟩
    · rw [Function.update_of_ne hk] at hb
      obtain ⟨hk', hl', hle, -⟩ := h.base k d' l hb
      refine ⟨(hrank k hk').symm ▸ hk', (hrank l hl').symm ▸ hl', ?_, ?_⟩
      · show _ ≤ (s.push c d i new node base).age (s.link d'.other k)
        rw [hage, hrank l hl']
        exact hle
      · rcases h.settled hst hb with hs | ⟨hpi, hlt, hp, he⟩
        · exact .inl (hset hk' hs)
        · rw [hplace k hk', hnowne _ hpi]
          exact .inr ⟨hlt, hp, he⟩

theorem Shape.pop (h : Shape set s) (ha : MyAnchor c new s) (hi : i < set.width)
    (hxs : content s.hist i = some xs) (hst : (s.now i).state = .stable) (hx : d.look xs = n :: ys)
    (hl : Linked (s.pop c d i new n) i (d.look ys)) : Shape set (s.pop c d i new n) := by
  have hnowne : ∀ j, j ≠ i → (s.pop c d i new n).now j = s.now j := fun j hj =>
    now_exchange_of_ne hj
  refine ⟨fun j hj => ?_, exchange_live h i, exchange_apart h ha i, exchange_used h ha, h.ranks,
    h.pushed, h.links,
    fun k d' l hb => ?_⟩
  · by_cases hji : j = i
    · subst hji
      exact ⟨_, content_pop hxs hx, hl⟩
    · obtain ⟨zs, hzs, hlj⟩ := h.deques j hj
      refine ⟨zs, (content_concat_of_ne (e := .pop d c.op i n) (Ne.symm hji)).trans hzs, ?_⟩
      exact hlj.congr h.links (hnowne j hji) (fun _ _ => ⟨rfl, rfl, rfl⟩) fun _ _ _ => rfl
  · obtain ⟨hk, hl', hle, -⟩ := h.base k d' l hb
    refine ⟨hk, hl', hle, ?_⟩
    rcases h.settled hst hb with hs | ⟨hpi, hlt, hp, he⟩
    · exact .inl hs
    · rw [show (s.pop c d i new n).place k = s.place k from rfl, hnowne _ hpi]
      exact .inr ⟨hlt, hp, he⟩

/-- The exchange for the stable anchor: the missing link has been set. -/
theorem Shape.swing (h : Shape set s) (ha : MyAnchor c new s) (hi : i < set.width)
    (hnew : s.anchors new = { s.now i with state := .stable }) (hst : (s.now i).state = .push d)
    (he : (s.now i).ends d = some n) (hb : s.base n = some (d, m)) (hset : Settled s d n m) :
    Shape set (s.swing i new) := by
  have hnow : (s.swing i new).now i = { s.now i with state := .stable } :=
    now_exchange_self.trans hnew
  have hnowne : ∀ j, j ≠ i → (s.swing i new).now j = s.now j := fun j hj => now_exchange_of_ne hj
  obtain ⟨xs, hxs, hl⟩ := h.deques i hi
  obtain ⟨n', m', he', hb', hnm⟩ := hl.pushed d hst
  obtain rfl : n = n' := Option.some.inj (he.symm.trans he')
  obtain rfl : m = m' := (Prod.mk.inj (Option.some.inj (hb.symm.trans hb'))).2
  have hlinks : ∀ d' a b, Next (d'.look xs) a b → s.link d' b = some a := by
    intro d' a b hab
    rcases hl.links d' a b hab with hlink | ⟨hst', ha', hlt⟩
    · exact hlink
    · obtain rfl : d = d' := AnchorState.push.inj (hst.symm.trans hst')
      obtain rfl : n = a := Option.some.inj (he.symm.trans ha')
      -- the node after the first one is the same
      have hnodup : (d.other.look xs).Nodup := Side.nodup_look.2 hl.nodup
      obtain rfl : m = b := (next_other.2 hnm).unique hnodup (next_other.2 hab)
      exact absurd hset (not_le.2 hlt)
  refine ⟨fun j hj => ?_, exchange_live h i, exchange_apart h ha i, exchange_used h ha, h.ranks,
    h.pushed, h.links,
    fun k d' l hk => ?_⟩
  · by_cases hji : j = i
    · subst hji
      refine ⟨xs, hxs, fun d' => hnow ▸ hl.ends d', hl.nodup, hl.nodes,
        fun d' a b hab => .inl (hlinks d' a b hab),
        fun d' hd' => ?_⟩
      rw [hnow] at hd'
      cases hd'
    · obtain ⟨zs, hzs, hlj⟩ := h.deques j hj
      exact ⟨zs, hzs, hlj.congr h.links (hnowne j hji) (fun _ _ => ⟨rfl, rfl, rfl⟩)
        fun _ _ _ => rfl⟩
  · obtain ⟨hr, hr', hle, hor⟩ := h.base k d' l hk
    refine ⟨hr, hr', hle, ?_⟩
    rcases hor with hs | ⟨hlt, hp, hends⟩
    · exact .inl hs
    · by_cases hpi : s.place k = i
      · rw [hpi] at hp hends
        obtain rfl : d = d' := AnchorState.push.inj (hst.symm.trans hp)
        obtain rfl : n = k := Option.some.inj (he.symm.trans hends)
        obtain rfl : m = l := (Prod.mk.inj (Option.some.inj (hb.symm.trans hk))).2
        exact .inl hset
      · rw [show (s.swing i new).place k = s.place k from rfl, hnowne _ hpi]
        exact .inr ⟨hlt, hp, hends⟩

/-- A node next to which `n` was pushed, while the link back to `n` is missing. -/
theorem Shape.pending (h : Shape set s) (hb : s.base n = some (d, m)) (hset : ¬ Settled s d n m) :
    s.place n < set.width ∧ (s.now (s.place n)).state = .push d ∧ ∃ xs, content s.hist
      (s.place n) = some xs ∧
      Linked s (s.place n) xs ∧ Next (d.look xs) n m := by
  obtain ⟨-, -, -, hor⟩ := h.base n d m hb
  rcases hor with hs | ⟨hlt, hp, he⟩
  · exact absurd hs hset
  · obtain ⟨xs, hxs, hl⟩ := h.deques _ hlt
    obtain ⟨n', m', he', hb', hnm⟩ := hl.pushed d hp
    obtain rfl : n = n' := Option.some.inj (he.symm.trans he')
    obtain rfl : m = m' := (Prod.mk.inj (Option.some.inj (hb.symm.trans hb'))).2
    exact ⟨hlt, hp, xs, hxs, hl, hnm⟩

/-- The exchange of the missing link. -/
theorem Shape.repair (h : Shape set s) (hb : s.base n = some (d, m)) (hset : ¬ Settled s d n m) :
    Shape set (s.setLink d m (some n)) := by
  obtain ⟨hlt, hp, xs, hxs, hl, hnm⟩ := h.pending hb hset
  have hage : s.age (s.link d m) < s.rank n := not_le.1 hset
  have hself : (s.setLink d m (some n)).link d m = some n := by
    show Function.update s.link d (Function.update (s.link d) m (some n)) d m = some n
    rw [Function.update_self, Function.update_self]
  have hother : ∀ d' k, d' ≠ d ∨ k ≠ m → (s.setLink d m (some n)).link d' k = s.link d' k := by
    intro d' k hor
    show Function.update s.link d (Function.update (s.link d) m (some n)) d' k = s.link d' k
    by_cases hd : d' = d
    · subst hd
      rw [Function.update_self, Function.update_of_ne (hor.resolve_left fun hne => hne rfl)]
    · rw [Function.update_of_ne hd]
  have hle : ∀ d' k, s.age (s.link d' k) ≤ s.age ((s.setLink d m (some n)).link d' k) := by
    intro d' k
    by_cases hor : d' = d ∧ k = m
    · obtain ⟨rfl, rfl⟩ := hor
      rw [hself]
      exact hage.le
    · rw [hother d' k (not_and_or.1 hor)]
  have hm : s.place m = s.place n := (hl.nodes m (Side.mem_look.1 hnm.right_mem)).2
  refine ⟨fun j hj => ?_, h.live, h.apart, h.used, h.ranks, h.pushed, fun d' k l hk => ?_,
    fun k d' l hk => ?_⟩
  · obtain ⟨ys, hys, hlj⟩ := h.deques j hj
    refine ⟨ys, hys, ?_⟩
    by_cases hji : j = s.place n
    · subst hji
      obtain rfl : xs = ys := Option.some.inj (hxs.symm.trans hys)
      refine ⟨hl.ends, hl.nodup, hl.nodes, fun d' a b hab => ?_, hl.pushed⟩
      by_cases hor : d' = d ∧ b = m
      · obtain ⟨rfl, rfl⟩ := hor
        obtain rfl : n = a := hnm.unique (Side.nodup_look.2 hl.nodup) hab
        exact .inl hself
      · rw [hother d' b (not_and_or.1 hor)]
        exact hl.links d' a b hab
    · refine hlj.congr h.links rfl (fun _ _ => ⟨rfl, rfl, rfl⟩) fun k hk d' => hother d' k (.inr ?_)
      rintro rfl
      exact hji ((hlj.nodes k hk).2.symm.trans hm)
  · by_cases hor : d' = d ∧ k = m
    · obtain ⟨rfl, rfl⟩ := hor
      obtain rfl : n = l := Option.some.inj (hself.symm.trans hk)
      exact (h.base n d' k hb).1
    · rw [hother d' k (not_and_or.1 hor)] at hk
      exact h.links d' k l hk
  · obtain ⟨hr, hr', hge, hor⟩ := h.base k d' l hk
    exact ⟨hr, hr', hge.trans (hle _ _), hor.imp_left fun hs => hs.trans (hle _ _)⟩

/-! ### The history, the duties and the counters -/

theorem Book.push (h : Book calls s) (hn : node < s.fresh)
    (hcall : calls[c.op]? = some (.push d (s.val node))) (hev : ∀ e ∈ s.hist, e.op ≠ c.op) :
    Book calls (s.push c d i new node base) := by
  refine ⟨nodup_map_snoc h.ops hev, fun d' b j k hk => ?_, fun d' b j k hk => ?_⟩
  · rcases List.mem_append.1 hk with hk | hk
    · exact h.pushes d' b j k hk
    · cases List.mem_singleton.1 hk
      exact ⟨hn, hcall⟩
  · rcases List.mem_append.1 hk with hk | hk
    · exact h.pops d' b j k hk
    · cases List.mem_singleton.1 hk

theorem Book.pop (h : Book calls s) (hn : n < s.fresh) (hcall : calls[c.op]? = some (.pop d))
    (hev : ∀ e ∈ s.hist, e.op ≠ c.op) : Book calls (s.pop c d i new n) := by
  refine ⟨nodup_map_snoc h.ops hev, fun d' b j k hk => ?_, fun d' b j k hk => ?_⟩
  · rcases List.mem_append.1 hk with hk | hk
    · exact h.pushes d' b j k hk
    · cases List.mem_singleton.1 hk
  · rcases List.mem_append.1 hk with hk | hk
    · exact h.pops d' b j k hk
    · cases List.mem_singleton.1 hk
      exact ⟨hn, hcall⟩

/-- What has been freed is not what comes into place. -/
theorem Duties.not_new (h : Duties set s) (ha : MyAnchor c new s) : new ∉ s.freed := by
  intro hmem
  have hd := (h.freed new hmem).2
  rw [ha.duty] at hd
  cases hd

/-- The call takes over the old anchor, which is stable. -/
theorem Duties.handOver (h : Duties set s) (hsh : Shape set s) (ha : MyAnchor c new s)
    (hi : i < set.width) (hst : (s.now i).state = .stable) :
    Duties set ((s.putAnchor i new).handOver c.op (s.anchor i) new) := by
  have hnew : ∀ j < set.width, s.anchor j ≠ new := fun j hj => ha.ne (hsh.live j hj)
  have hold : s.anchor i ∉ s.freed := fun hmem => (h.live _ hmem i hi rfl).1 hst
  refine ⟨fun j hj hstj => ?_, fun b hb => ?_, fun b hb j hj hbj => ?_, h.nodup⟩
  · show Function.update (Function.update s.duty new none) (s.anchor i) (some c.op)
      (Function.update s.anchor i new j) = none
    by_cases hji : j = i
    · subst hji
      rw [Function.update_self, Function.update_of_ne (hnew j hi).symm, Function.update_self]
    · have hne : s.anchor j ≠ s.anchor i := fun he => hji (hsh.apart j hj i hi he)
      have hstj : (s.putAnchor i new).now j = s.now j := now_exchange_of_ne hji
      rw [Function.update_of_ne hji, Function.update_of_ne hne, Function.update_of_ne (hnew j hj)]
      exact h.stable j hj (hstj ▸ ‹_›)
  · obtain ⟨hlt, hd⟩ := h.freed b hb
    refine ⟨hlt, ?_⟩
    have hbo : b ≠ s.anchor i := fun he => hold (he ▸ hb)
    have hbn : b ≠ new := fun he => h.not_new ha (he ▸ hb)
    exact (Function.update_of_ne hbo _ _).trans ((Function.update_of_ne hbn _ _).trans hd)
  · have hbj : Function.update s.anchor i new j = b := hbj
    by_cases hji : j = i
    · subst hji
      rw [Function.update_self] at hbj
      exact absurd (hbj ▸ hb) (h.not_new ha)
    · rw [Function.update_of_ne hji] at hbj
      have hnow : (s.putAnchor i new).now j = s.now j := now_exchange_of_ne hji
      show ((s.putAnchor i new).now j).state ≠ .stable ∧ s.lost = true
      rw [hnow]
      exact h.live b hb j hj hbj

/-- A push keeps the duty to free its anchor, which is not stable. -/
theorem Duties.keep (h : Duties set s) (ha : MyAnchor c new s)
    (hnew : (s.anchors new).state ≠ .stable) :
    Duties set (s.putAnchor i new) := by
  refine ⟨fun j hj hst => ?_, h.freed, fun b hb j hj hbj => ?_, h.nodup⟩
  · by_cases hji : j = i
    · subst hji
      rw [now_exchange_self] at hst
      exact absurd hst hnew
    · rw [now_exchange_of_ne hji] at hst
      show s.duty (Function.update s.anchor i new j) = none
      rw [Function.update_of_ne hji]
      exact h.stable j hj hst
  · have hbj : Function.update s.anchor i new j = b := hbj
    by_cases hji : j = i
    · subst hji
      rw [Function.update_self] at hbj
      exact absurd (hbj ▸ hb) (h.not_new ha)
    · rw [Function.update_of_ne hji] at hbj
      rw [now_exchange_of_ne hji]
      exact h.live b hb j hj hbj

theorem Duties.swing (h : Duties set s) (hsh : Shape set s) (ha : MyAnchor c new s) :
    Duties set (s.swing i new) := by
  have hnew : ∀ j < set.width, s.anchor j ≠ new := fun j hj => ha.ne (hsh.live j hj)
  refine ⟨fun j hj hst => ?_, fun b hb => ?_, fun b hb j hj hbj => ?_, h.nodup⟩
  · show Function.update s.duty new none (Function.update s.anchor i new j) = none
    by_cases hji : j = i
    · subst hji
      rw [Function.update_self, Function.update_self]
    · have hnow : (s.swing i new).now j = s.now j := now_exchange_of_ne hji
      rw [Function.update_of_ne hji, Function.update_of_ne (hnew j hj)]
      exact h.stable j hj (hnow ▸ hst)
  · obtain ⟨hlt, hd⟩ := h.freed b hb
    have hbn : b ≠ new := fun he => h.not_new ha (he ▸ hb)
    exact ⟨hlt, (Function.update_of_ne hbn _ _).trans hd⟩
  · have hbj : Function.update s.anchor i new j = b := hbj
    by_cases hji : j = i
    · subst hji
      rw [Function.update_self] at hbj
      exact absurd (hbj ▸ hb) (h.not_new ha)
    · rw [Function.update_of_ne hji] at hbj
      have hnow : (s.swing i new).now j = s.now j := now_exchange_of_ne hji
      show ((s.swing i new).now j).state ≠ .stable ∧ s.lost = true
      rw [hnow]
      exact h.live b hb j hj hbj

theorem Counts.exchange (h : Counts set s) (hput : ∀ d, (s.anchors new).putCount d ≤ s.putMax d)
    (hget : ∀ d, (s.anchors new).getCount d ≤ s.getMax d) : Counts set (s.putAnchor i new) := by
  refine ⟨fun j hj d => ?_, fun j hj d => ?_⟩
  · by_cases hji : j = i
    · subst hji
      rw [now_exchange_self]
      exact hput d
    · rw [now_exchange_of_ne hji]
      exact h.put j hj d
  · by_cases hji : j = i
    · subst hji
      rw [now_exchange_self]
      exact hget d
    · rw [now_exchange_of_ne hji]
      exact h.get j hj d

/-- One more, below the maximum. -/
theorem update_succ_le {count max : Side → ℕ} (h : ∀ d, count d ≤ max d) (hlt : count d < max d)
    (d' : Side) :
    Function.update count d (count d + 1) d' ≤ max d' := by
  by_cases hd : d' = d
  · subst hd
    rw [Function.update_self]
    exact hlt
  · rw [Function.update_of_ne hd]
    exact h d'

/-! ### The exchanges -/

namespace Inv

theorem pushFirst (h : Inv set calls s) (ha : MyAnchor c new s) (hn : Mine c node s)
    (hi : i < set.width) (hcall : calls[c.op]? = some (.push d (s.val node)))
    (hev : ∀ e ∈ s.hist, e.op ≠ c.op) (he : (s.now i).ends d = none)
    (hnew : s.anchors new = (s.now i).first d node) (hcount : (s.now i).putCount d < s.putMax d) :
    Inv set calls ((s.push c d i new node none).handOver c.op (s.anchor i) new) := by
  obtain ⟨xs, hxs, hl⟩ := h.shape.deques i hi
  have hnil : d.look xs = [] := List.head?_eq_none_iff.1 ((hl.ends d).symm.trans he)
  obtain rfl : xs = [] :=
    List.eq_nil_of_length_eq_zero (by rw [← Side.length_look (d := d), hnil]; rfl)
  have hst := hl.stable_of_single (d := d) (.inl hnil)
  have hl' : Linked (s.push c d i new node none) i (d.look (node :: d.look [])) := by
    rw [hnil]
    exact hl.pushFirst hnew
  have hsh := h.shape.push ha hn hi hxs hst hl' nofun
  have hdu := h.duties.handOver h.shape ha hi hst
  have hco : Counts set (s.putAnchor i new) := h.counts.exchange
    (by rw [hnew]; exact update_succ_le (h.counts.put i hi) hcount)
    (by rw [hnew]; exact h.counts.get i hi)
  have hbo : Book calls (s.push c d i new node none) := h.book.push hn.lt hcall hev
  refine ⟨⟨fun j hj => ?_, hsh.live, hsh.apart, hsh.used, hsh.ranks, hsh.pushed, hsh.links,
    hsh.base⟩,
    ⟨hbo.ops, hbo.pushes, hbo.pops⟩, ⟨hdu.stable, hdu.freed, hdu.live, hdu.nodup⟩,
    ⟨hco.put, hco.get⟩⟩
  obtain ⟨ys, hys, hlj⟩ := hsh.deques j hj
  exact ⟨ys, hys, hlj.ends, hlj.nodup, hlj.nodes, hlj.links, hlj.pushed⟩

theorem pushNext (h : Inv set calls s) (ha : MyAnchor c new s) (hn : Mine c node s)
    (hi : i < set.width) (hcall : calls[c.op]? = some (.push d (s.val node)))
    (hev : ∀ e ∈ s.hist, e.op ≠ c.op) (hst : (s.now i).state = .stable)
    (he : (s.now i).ends d = some m) (hlink : s.link d.other node = some m)
    (hnew : s.anchors new = (s.now i).next d node) (hcount : (s.now i).putCount d < s.putMax d) :
    Inv set calls (s.push c d i new node (some m)) := by
  obtain ⟨xs, hxs, hl⟩ := h.shape.deques i hi
  have hm : s.rank m ≠ 0 := h.shape.links _ _ _ hlink
  have hl' := hl.pushNext (c := c) h.shape hst hnew hn.rank he hlink
  have hsh := h.shape.push ha hn hi hxs hst hl' (by
    rintro k hk
    obtain rfl := Option.some.inj hk
    rw [hnew]
    exact ⟨hm, hlink, rfl, Function.update_self ..⟩)
  have hdu := h.duties.keep (i := i) ha (by rw [hnew]; exact nofun)
  have hco : Counts set (s.putAnchor i new) := h.counts.exchange
    (by rw [hnew]; exact update_succ_le (h.counts.put i hi) hcount)
    (by rw [hnew]; exact h.counts.get i hi)
  exact ⟨hsh, h.book.push hn.lt hcall hev, ⟨hdu.stable, hdu.freed, hdu.live, hdu.nodup⟩,
    ⟨hco.put, hco.get⟩⟩

theorem pop (h : Inv set calls s) (ha : MyAnchor c new s) (hi : i < set.width)
    (hcall : calls[c.op]? = some (.pop d)) (hev : ∀ e ∈ s.hist, e.op ≠ c.op)
    (hxs : content s.hist i = some xs) (hl : Linked s i xs) (hst : (s.now i).state = .stable)
    (hx : d.look xs = n :: ys) (hstate : (s.anchors new).state = .stable)
    (hends : ∀ d', (s.anchors new).ends d' = (d'.look (d.look ys)).head?)
    (hput : (s.anchors new).putCount = (s.now i).putCount)
    (hget : (s.anchors new).getCount = Function.update (s.now i).getCount d
      ((s.now i).getCount d + 1))
    (hcount : (s.now i).getCount d < s.getMax d) :
    Inv set calls ((s.pop c d i new n).handOver c.op (s.anchor i) new) := by
  have hmem : n ∈ xs := by
    rw [← Side.mem_look (d := d), hx]
    exact List.mem_cons_self ..
  have hn : n < s.fresh := h.shape.pushed n (hl.nodes n hmem).1
  have hsh := h.shape.pop ha hi hxs hst hx (hl.pop (c := c) hst hx hstate hends)
  have hdu := h.duties.handOver h.shape ha hi hst
  have hco : Counts set (s.putAnchor i new) :=
    h.counts.exchange (by rw [hput]; exact h.counts.put i hi)
    (by rw [hget]; exact update_succ_le (h.counts.get i hi) hcount)
  have hbo : Book calls (s.pop c d i new n) := h.book.pop hn hcall hev
  refine ⟨⟨fun j hj => ?_, hsh.live, hsh.apart, hsh.used, hsh.ranks, hsh.pushed, hsh.links,
    hsh.base⟩,
    ⟨hbo.ops, hbo.pushes, hbo.pops⟩, ⟨hdu.stable, hdu.freed, hdu.live, hdu.nodup⟩,
    ⟨hco.put, hco.get⟩⟩
  obtain ⟨zs, hzs, hlj⟩ := hsh.deques j hj
  exact ⟨zs, hzs, hlj.ends, hlj.nodup, hlj.nodes, hlj.links, hlj.pushed⟩

theorem swing (h : Inv set calls s) (ha : MyAnchor c new s) (hi : i < set.width)
    (hnew : s.anchors new = { s.now i with state := .stable }) (hst : (s.now i).state = .push d)
    (he : (s.now i).ends d = some n) (hb : s.base n = some (d, m)) (hset : Settled s d n m) :
    Inv set calls (s.swing i new) := by
  have hco : Counts set (s.putAnchor i new) :=
    h.counts.exchange (by rw [hnew]; exact h.counts.put i hi)
    (by rw [hnew]; exact h.counts.get i hi)
  exact ⟨h.shape.swing ha hi hnew hst he hb hset, ⟨h.book.ops, h.book.pushes, h.book.pops⟩,
    h.duties.swing h.shape ha, ⟨hco.put, hco.get⟩⟩

theorem repair (h : Inv set calls s) (hb : s.base n = some (d, m)) (hset : ¬ Settled s d n m) :
    Inv set calls (s.setLink d m (some n)) :=
  ⟨h.shape.repair hb hset, ⟨h.book.ops, h.book.pushes, h.book.pops⟩,
    ⟨h.duties.stable, h.duties.freed, h.duties.live, h.duties.nodup⟩, ⟨h.counts.put, h.counts.get⟩⟩

end Inv

namespace Kept

/-- An exchange of anchors, with the notes of a call. -/
theorem exchange (ha : MyAnchor c new s) (ho : ¬ c.Is o) {hist : List Event} {clock : ℕ}
    {rank place : ℕ → ℕ} {base : ℕ → Option (Side × ℕ)} {duty : ℕ → Option ℕ}
    (hhist : s.hist <+: hist) (hev : ∀ e ∈ hist, e ∈ s.hist ∨ e.op = c.op)
    (hnodes : ∀ k, s.rank k ≠ 0 → rank k = s.rank k ∧ place k = s.place k ∧ base k = s.base k)
    (hrank : ∀ k, s.pusher k ≠ c.op → rank k = s.rank k)
    (hduty : ∀ b op, op ≠ c.op → s.duty b = some op → duty b = some op) :
    Kept set o s { s.putAnchor i new with
      hist := hist
      clock := clock
      rank := rank
      place := place
      base := base
      duty := duty } where
  hist := hhist
  fresh := le_rfl
  freshAnchor := le_rfl
  val _ _ := rfl
  pusher _ _ := rfl
  maker _ _ := rfl
  anchors b hb := ⟨rfl, (Function.update_of_ne (ha.ne hb) _ _).trans hb⟩
  never b hb j hj := by
    have hj : Function.update s.anchor i new j = b := hj
    by_cases hji : j = i
    · subst hji
      rw [Function.update_self] at hj
      exact absurd hj.symm (ha.ne hb)
    · rwa [Function.update_of_ne hji] at hj
  nodes := hnodes
  links _ _ _ := .inl rfl
  stable _ _ _ _ _ _ _ _ _ _ _ := rfl
  lost hl := hl
  putMax _ := le_rfl
  getMax _ := le_rfl
  ownNode b hb k _ hp hr := by
    have hne : s.pusher k ≠ c.op := hp ▸ op_ne ho hb
    exact ⟨(hrank k hne).trans hr, fun _ => rfl⟩
  ownAnchor b hb k _ hm hu := by
    refine ⟨(Function.update_of_ne ?_ _ _).trans hu, rfl⟩
    rintro rfl
    exact op_ne ho hb (hm.symm.trans ha.maker)
  ownDuty b hb k _ hk := hduty k b (op_ne ho hb) hk
  ownEvents b hb e he hop := by
    rcases hev e he with he | he
    · exact he
    · exact absurd (hop.symm.trans he) (op_ne ho hb)

theorem concat {hist : List Event} {e : Event} (he : e.op = c.op) :
    ∀ e' ∈ hist ++ [e], e' ∈ hist ∨ e'.op = c.op := by
  intro e' he'
  rcases List.mem_append.1 he' with he' | he'
  · exact .inl he'
  · rw [List.mem_singleton.1 he']
    exact .inr he

theorem handOver_duty (h : Inv set calls s) (ha : MyAnchor c new s) (hi : i < set.width)
    (hst : (s.now i).state = .stable) : ∀ b op, op ≠ c.op → s.duty b = some op →
    Function.update (Function.update s.duty new none) (s.anchor i) (some c.op) b = some op := by
  intro b op hop hb
  have hbo : b ≠ s.anchor i := by
    rintro rfl
    rw [h.duties.stable i hi hst] at hb
    cases hb
  have hbn : b ≠ new := by
    rintro rfl
    exact hop (Option.some.inj (hb.symm.trans ha.duty))
  rw [Function.update_of_ne hbo, Function.update_of_ne hbn]
  exact hb

theorem push_nodes (hn : Mine c node s) : ∀ k, s.rank k ≠ 0 →
    Function.update s.rank node (s.clock + 1) k = s.rank k ∧
      Function.update s.place node i k = s.place k ∧
      Function.update s.base node (base.map fun m => (d, m)) k = s.base k := by
  intro k hk
  have hkn : k ≠ node := by
    rintro rfl
    exact hk hn.rank
  exact ⟨Function.update_of_ne hkn _ _, Function.update_of_ne hkn _ _,
    Function.update_of_ne hkn _ _⟩

theorem push_rank (hn : Mine c node s) : ∀ k, s.pusher k ≠ c.op →
    Function.update s.rank node (s.clock + 1) k = s.rank k := by
  intro k hk
  refine Function.update_of_ne ?_ _ _
  rintro rfl
  exact hk hn.pusher

theorem pushNext (ha : MyAnchor c new s) (hn : Mine c node s) (ho : ¬ c.Is o) :
    Kept set o s (s.push c d i new node base) :=
  exchange ha ho (List.prefix_append _ _) (concat rfl) (push_nodes hn) (push_rank hn)
    fun _ _ _ hb => hb

theorem pushFirst (h : Inv set calls s) (ha : MyAnchor c new s) (hn : Mine c node s) (ho : ¬ c.Is o)
    (hi : i < set.width) (hst : (s.now i).state = .stable) :
    Kept set o s ((s.push c d i new node base).handOver c.op (s.anchor i) new) :=
  exchange ha ho (List.prefix_append _ _) (concat rfl) (push_nodes hn) (push_rank hn)
    (handOver_duty h ha hi hst)

theorem pop (h : Inv set calls s) (ha : MyAnchor c new s) (ho : ¬ c.Is o) (hi : i < set.width)
    (hst : (s.now i).state = .stable) :
    Kept set o s ((s.pop c d i new n).handOver c.op (s.anchor i) new) :=
  exchange ha ho (List.prefix_append _ _) (concat rfl) (fun _ _ => ⟨rfl, rfl, rfl⟩) (fun _ _ => rfl)
    (handOver_duty h ha hi hst)

theorem swing (ha : MyAnchor c new s) (ho : ¬ c.Is o) : Kept set o s (s.swing i new) := by
  refine exchange ha ho (List.prefix_refl _) (fun _ he => .inl he) (fun _ _ => ⟨rfl, rfl, rfl⟩)
    (fun _ _ => rfl) fun b op hop hb => ?_
  refine (Function.update_of_ne ?_ _ _).trans hb
  rintro rfl
  exact hop (Option.some.inj (hb.symm.trans ha.duty))

/-- The missing link is set. -/
theorem repair (h : Inv set calls s) (hb : s.base n = some (d, m)) (hset : ¬ Settled s d n m) :
    Kept set o s (s.setLink d m (some n)) := by
  obtain ⟨hlt, hp, xs, -, hl, hnm⟩ := h.shape.pending hb hset
  have hself : (s.setLink d m (some n)).link d m = some n := by
    show Function.update s.link d (Function.update (s.link d) m (some n)) d m = some n
    rw [Function.update_self, Function.update_self]
  have hother : ∀ d' k, d' ≠ d ∨ k ≠ m → (s.setLink d m (some n)).link d' k = s.link d' k := by
    intro d' k hor
    show Function.update s.link d (Function.update (s.link d) m (some n)) d' k = s.link d' k
    by_cases hd : d' = d
    · subst hd
      rw [Function.update_self, Function.update_of_ne (hor.resolve_left fun hne => hne rfl)]
    · rw [Function.update_of_ne hd]
  obtain ⟨hm, hmp⟩ := hl.nodes m (Side.mem_look.1 hnm.right_mem)
  exact
    { hist := List.prefix_refl _
      fresh := le_rfl
      freshAnchor := le_rfl
      val := fun _ _ => rfl
      pusher := fun _ _ => rfl
      maker := fun _ _ => rfl
      anchors := fun _ hk => ⟨rfl, hk⟩
      never := fun _ _ _ hk => hk
      nodes := fun _ _ => ⟨rfl, rfl, rfl⟩
      links := fun k _ d' => by
        by_cases hor : d' = d ∧ k = m
        · obtain ⟨rfl, rfl⟩ := hor
          exact .inr ⟨n, hself, (h.shape.base n d' k hb).1, not_le.1 hset⟩
        · exact .inl (hother d' k (not_and_or.1 hor))
      stable := fun j hj b _ hbj _ hst d' x hx d'' => by
        -- the deque with the missing link has no stable anchor
        obtain ⟨ys, -, hlj⟩ := h.shape.deques j hj
        have hx : (s.now j).ends d' = some x := by
          subst hbj
          exact hx
        have hst : (s.now j).state = .stable := by
          subst hbj
          exact hst
        rw [hlj.ends d'] at hx
        have hmem : x ∈ ys := Side.mem_look.1 (List.mem_of_mem_head? hx)
        refine hother d'' x (.inr ?_)
        rintro rfl
        have hj : j = s.place n := (hlj.nodes x hmem).2.symm.trans hmp
        rw [hj, hp] at hst
        cases hst
      lost := fun hl => hl
      putMax := fun _ => le_rfl
      getMax := fun _ => le_rfl
      ownNode := fun _ _ k _ _ hr => by
        refine ⟨hr, fun d' => hother d' k (.inr ?_)⟩
        rintro rfl
        exact hm hr
      ownAnchor := fun _ _ _ _ _ hu => ⟨hu, rfl⟩
      ownDuty := fun _ _ _ _ hd => hd
      ownEvents := fun _ _ _ he _ => he }

end Kept

end TwoDdDeque
