import SemanticRelaxation.ElasticLpwStack.Lateral

/-!
# The elastic LpW stack: lateral nodes in memory (`src/2Dc-stack_elastic-lpw/lateral_stack.c`)

`replace_lateral_node` and `replace_laterals` on the nodes themselves, with their pointers.

* `Lateral h p c l`: from the pointer `p`, for the rows up to `c`, the nodes are `l`, with
  decreasing rows;
* `widthAt`: the width that is recorded for a row;
* `Replaced`: what one replacement does;
* `replaceNode_replaced`: this holds of `replace_lateral_node`, which does the same as
  `replaceLateralNode`;
* `replaceNodes_lateral`: what `replace_laterals` leaves of a list.
-/

namespace ElasticLpwStack

open Words

/-- `lateral_node_t`. -/
structure Node where
  next : Option ℕ
  nextCount : ℕ
  width : ℕ

/-- The lateral nodes. Those from `fresh` on have not been allocated. -/
structure Nodes where
  node : ℕ → Node
  fresh : ℕ

/-- The memory after `create_lateral_node`; the new node is `fresh`. -/
def Nodes.create (h : Nodes) (next : Option ℕ) (nextCount width : ℕ) : Nodes :=
  ⟨Function.update h.node h.fresh ⟨next, nextCount, width⟩, h.fresh + 1⟩

section Create

variable (h : Nodes) (next : Option ℕ) (nextCount width : ℕ)

@[simp] theorem Nodes.create_node :
    (h.create next nextCount width).node h.fresh = ⟨next, nextCount, width⟩ :=
  Function.update_self ..

theorem Nodes.create_of_lt {y : ℕ} (hy : y < h.fresh) :
    (h.create next nextCount width).node y = h.node y :=
  Function.update_of_ne hy.ne _ _

end Create

/-- `update_tuple_t`. -/
structure UpdateTuple where
  count : ℕ
  node : Option ℕ
  base : Option ℕ

/-- `lower_narrower_count`, a `row_t`. -/
def lowerNarrowerCount (w : Window) : ℕ := narrowerCount w % 2 ^ 32

/-- The part of `replace_lateral_node` that follows the recursive call, for the node `x`. -/
def replaceAt (w : Window) (x count : ℕ) (next : UpdateTuple) (h : Nodes) : UpdateTuple × Nodes :=
  let node := h.node x
  let newCount := lateralNewCount w count (lowerNarrowerCount w) node.width
  if next.node = node.next ∧ next.count = node.nextCount ∧
    newCount = count then (⟨count, some x, some x⟩, h)
  else if next.node = node.next ∧ next.count = node.nextCount ∧
    newCount ≤ node.nextCount then (next, h)
  else if next.node = node.next ∧ next.count = node.nextCount ∧
    newCount < count then (⟨newCount, some x, some x⟩, h)
  else if newCount ≤ node.nextCount then (next, h)
  else (⟨newCount, some h.fresh, next.base⟩, h.create next.node next.count node.width)

/-- `replace_lateral_node`, for as many nested calls as there is fuel. An access through `NULL` has
no result. -/
def replaceNode (w : Window) : ℕ → Nodes → Option ℕ → ℕ → Option (UpdateTuple × Nodes)
  | 0, h, node, count => if count < lowerNarrowerCount w then some (⟨count, node, node⟩, h)
    else none
  | fuel + 1, h, node, count =>
    -- below the point any node can be lowered
    if count < lowerNarrowerCount w then some (⟨count, node, node⟩, h)
    else
      match node with
      | none => none
      | some x => (replaceNode w fuel h (h.node x).next (h.node x).nextCount).map fun r =>
        replaceAt w x count r.1 r.2

/-- `lateral_descriptor_t`, with the pointer to its top node. -/
structure NodeDescriptor where
  node : Option ℕ
  count : ℕ
  version : ℕ

/-- `replace_laterals`: the new descriptor, the base node and the memory. -/
def replaceNodes (w : Window) (fuel : ℕ) (h : Nodes) (read new : NodeDescriptor) :
    Option (NodeDescriptor × Option ℕ × Nodes) :=
  (replaceNode w fuel h read.node read.count).map fun (top, h') =>
    ({ new with count := top.count, node := top.node }, top.base, h')

/-! ### Lateral lists -/

/-- The nodes from a pointer on. The rows decrease from the given count down to 0, where the last
node stands. -/
inductive Lateral (h : Nodes) : Option ℕ → ℕ → List ℕ → Prop
  | sentinel {x : ℕ} (hx : x < h.fresh) (hn : (h.node x).next = none) : Lateral h (some x) 0 [x]
  | node {x c : ℕ} {l : List ℕ} (hx : x < h.fresh) (hc : (h.node x).nextCount < c)
      (hl : Lateral h (h.node x).next (h.node x).nextCount l) : Lateral h (some x) c (x :: l)

/-- The width that the nodes of a list, which stand for the rows up to a count, record for the row
`r`. -/
def widthAt (h : Nodes) (r : ℕ) : List ℕ → ℕ → Option ℕ
  | [], _ => none
  | x :: l, count =>
    if (h.node x).nextCount < r ∧ r ≤ count then some (h.node x).width else widthAt h r l
      (h.node x).nextCount

/-- The nodes of a list as the model of the shared memory has them. -/
def records (h : Nodes) (l : List ℕ) :
    List LateralNode := l.map fun x => ⟨x, (h.node x).width, (h.node x).nextCount⟩

/-- What the model of the shared memory has for the result of a replacement, if its nodes are `l`.
-/
def UpdateTuple.update (t : UpdateTuple) (h : Nodes) (l : List ℕ) : Update :=
  ⟨t.count, records h l, h.fresh⟩

section Lists

variable {h h' : Nodes} {p : Option ℕ} {c c' r x : ℕ} {l l' : List ℕ} {W : ℕ}

theorem Lateral.head (hl : Lateral h p c l) : l.head? = p := by
  cases hl <;> rfl

theorem Lateral.lt (hl : Lateral h p c l) : ∀ x ∈ l, x < h.fresh := by
  induction hl with
  | sentinel hx _ => exact fun y hy => List.mem_singleton.1 hy ▸ hx
  | node hx _ _ ih =>
    intro y hy
    rcases List.mem_cons.1 hy with rfl | hy
    · exact hx
    · exact ih y hy

/-- Other nodes may be created. -/
theorem Lateral.congr (hl : Lateral h p c l) (hf : h.fresh ≤ h'.fresh)
    (hk : ∀ x < h.fresh, h'.node x = h.node x) :
    Lateral h' p c l := by
  induction hl with
  | @sentinel x hx hn => exact .sentinel (hx.trans_le hf) (by rw [hk x hx]; exact hn)
  | @node x c l hx hc _ ih =>
    rw [← hk x hx] at hc ih
    exact .node (hx.trans_le hf) hc ih

/-- The pointer determines the nodes. -/
theorem Lateral.unique (hl : Lateral h p c l) (hl' : Lateral h p c' l') : l = l' := by
  induction hl generalizing c' l' with
  | @sentinel x _ hn =>
    cases hl' with
    | sentinel => rfl
    | node _ _ ht =>
      rw [hn] at ht
      cases ht
  | @node x c l _ _ ht ih =>
    cases hl' with
    | sentinel _ hn =>
      rw [hn] at ht
      cases ht
    | node _ _ ht' => rw [ih ht']

/-- What follows a node of the list. -/
theorem Lateral.suffix (hl : Lateral h p c l) (hx : x ∈ l) : ∃ l₁ l₂ c', l = l₁ ++ x :: l₂ ∧
    Lateral h (some x) c' (x :: l₂) := by
  induction hl with
  | @sentinel y hy hn =>
    obtain rfl := List.mem_singleton.1 hx
    exact ⟨[], [], 0, rfl, .sentinel hy hn⟩
  | @node y c l hy hc ht ih =>
    rcases List.mem_cons.1 hx with rfl | hx
    · exact ⟨[], l, c, rfl, .node hy hc ht⟩
    · obtain ⟨l₁, l₂, c', rfl, hs⟩ := ih hx
      exact ⟨y :: l₁, l₂, c', rfl, hs⟩

theorem Lateral.nodup (hl : Lateral h p c l) : l.Nodup := by
  induction hl with
  | sentinel => exact List.nodup_singleton _
  | @node x c l hx hc ht ih =>
    refine List.nodup_cons.2 ⟨fun hm => ?_, ih⟩
    -- the list from `x` on would be longer than itself
    obtain ⟨l₁, l₂, c', hl, hs⟩ := ht.suffix hm
    have he := (Lateral.node hx hc ht).unique hs
    have hlen := congrArg List.length he
    rw [hl] at hlen
    simp only [List.length_cons, List.length_append] at hlen
    omega

theorem widthAt_le (hl : Lateral h p c l) (hw : widthAt h r l c = some W) : r ≤ c := by
  induction hl with
  | sentinel =>
    unfold widthAt at hw
    split at hw
    next hr => exact hr.2
    next => cases hw
  | node _ hc _ ih =>
    unfold widthAt at hw
    split at hw
    next hr => exact hr.2
    next => exact (ih hw).trans hc.le

theorem widthAt_congr (hk : ∀ x ∈ l, h'.node x = h.node x) :
    widthAt h' r l c = widthAt h r l c := by
  induction l generalizing c with
  | nil => rfl
  | cons x l ih =>
    unfold widthAt
    rw [hk x (List.mem_cons_self ..), ih fun y hy => hk y (List.mem_cons_of_mem _ hy)]

theorem records_congr (hk : ∀ x ∈ l, h'.node x = h.node x) : records h' l = records h l :=
  List.map_congr_left fun x hx => by rw [hk x hx]

theorem records_cons :
    records h (x :: l) = ⟨x, (h.node x).width, (h.node x).nextCount⟩ :: records h l := rfl

theorem records_inj (he : records h' l' = records h l) : l' = l := by
  have hid := congrArg (List.map LateralNode.id) he
  unfold records at hid
  rwa [List.map_map, List.map_map, List.map_id'', List.map_id''] at hid
  · exact fun _ => rfl
  · exact fun _ => rfl

end Lists

/-! ### One replacement -/

/-- The list `l` for the rows up to `c` is replaced by `l'`: no node that was there has changed, the
nodes above the base are given up, and wide records stay what they are, unless the window was
shifted down. -/
structure Replaced (w : Window) (h : Nodes) (c : ℕ) (l : List ℕ) (t : UpdateTuple) (h' : Nodes)
    (l' : List ℕ) :
    Prop where
  lateral : Lateral h' t.node t.count l'
  count_le : t.count ≤ c
  fresh_le : h.fresh ≤ h'.fresh
  kept : ∀ x < h.fresh, h'.node x = h.node x
  shared : ∃ above created base below, l = above ++ base :: below ∧ l' = created ++ base :: below ∧
    t.base = some base ∧ ∀ x ∈ created, h.fresh ≤ x
  wide : w.lastShift = 0 → ∀ r W, w.putWidth < W → widthAt h r l c = some W →
    widthAt h' r l' t.count = some W

section Step

variable {w : Window} {h h' : Nodes} {p : Option ℕ} {c x : ℕ} {l l' : List ℕ} {t : UpdateTuple}

/-- A wide record is not lowered. -/
theorem lateralNewCount_wide {limit width : ℕ} (hs : w.lastShift = 0) (hw : w.putWidth < width) :
    lateralNewCount w c limit width = c := by
  unfold lateralNewCount
  rw [if_neg fun hc => hc.2 hs, if_neg fun hc => not_le.2 hw hc.1]

theorem Replaced.same (hl : Lateral h p c l) : Replaced w h c l ⟨c, p, p⟩ h l where
  lateral := hl
  count_le := le_rfl
  fresh_le := le_rfl
  kept _ _ := rfl
  shared := by
    cases hl with
    | sentinel => exact ⟨[], [], _, [], rfl, rfl, rfl, nofun⟩
    | node => exact ⟨[], [], _, _, rfl, rfl, rfl, nofun⟩
  wide _ _ _ _ hr := hr

/-- The rest of the list, up to the pointer `p`, has been replaced. If the pointer is the same, so
is the list. -/
theorem Replaced.eq_of_node (hr : Replaced w h c l t h' l') (hl : Lateral h p c l)
    (hp : t.node = p) : l' = l := by
  have hlater := hr.lateral
  rw [hp] at hlater
  exact hlater.unique (hl.congr hr.fresh_le hr.kept)

/-- The node is removed. -/
theorem Replaced.remove (hr : Replaced w h (h.node x).nextCount l t h' l')
    (hc : (h.node x).nextCount < c) (hwide : w.lastShift = 0 → ¬ w.putWidth < (h.node x).width) :
    Replaced w h c (x :: l) t h' l' where
  lateral := hr.lateral
  count_le := hr.count_le.trans hc.le
  fresh_le := hr.fresh_le
  kept := hr.kept
  shared := by
    obtain ⟨above, created, base, below, rfl, rfl, hbase, hcreated⟩ := hr.shared
    exact ⟨x :: above, created, base, below, rfl, rfl, hbase, hcreated⟩
  wide hs r W hW hrow := by
    unfold widthAt at hrow
    split at hrow
    next =>
      obtain rfl := Option.some.inj hrow
      exact absurd hW (hwide hs)
    next => exact hr.wide hs r W hW hrow

/-- The node stays, for the rows up to `m`. -/
theorem Replaced.lower {m : ℕ} (hr : Replaced w h (h.node x).nextCount l t h' l') (hx : x < h.fresh)
    (hl : Lateral h (h.node x).next (h.node x).nextCount l) (hnode : t.node = (h.node x).next)
    (hcount : t.count = (h.node x).nextCount)
    (hm : (h.node x).nextCount < m) (hmc : m ≤ c)
    (hwide : w.lastShift = 0 → w.putWidth < (h.node x).width → m = c) :
    Replaced w h c (x :: l) ⟨m, some x, some x⟩ h' (x :: l) where
  lateral := (Lateral.node hx hm hl).congr hr.fresh_le hr.kept
  count_le := hmc
  fresh_le := hr.fresh_le
  kept := hr.kept
  shared := ⟨[], [], x, l, rfl, rfl, rfl, nofun⟩
  wide hs r W hW hrow := by
    obtain rfl := hr.eq_of_node hl hnode
    unfold widthAt at hrow ⊢
    rw [hr.kept x hx]
    split at hrow
    next hin =>
      have hW' := hW
      rw [← Option.some.inj hrow] at hW'
      rw [hwide hs hW', if_pos hin]
      exact hrow
    next hout =>
      rw [if_neg fun hin => hout ⟨hin.1, hin.2.trans hmc⟩, ← hcount]
      exact hr.wide hs r W hW hrow

/-- A new copy of the node, for the rows up to `m`. -/
theorem Replaced.copy {m : ℕ} (hr : Replaced w h (h.node x).nextCount l t h' l')
    (hm : (h.node x).nextCount < m) (hmc : m ≤ c) (hwide : w.lastShift = 0 → w.putWidth <
      (h.node x).width → m = c) :
    Replaced w h c (x :: l) ⟨m, some h'.fresh, t.base⟩ (h'.create t.node t.count (h.node x).width)
      (h'.fresh :: l') := by
  have hold : ∀ y < h'.fresh, (h'.create t.node t.count (h.node x).width).node y = h'.node y :=
    fun _ =>
    h'.create_of_lt _ _ _
  have hlater := hr.lateral.congr (Nat.le_succ h'.fresh) hold
  refine ⟨.node (Nat.lt_succ_self _) ?_ ?_, hmc, hr.fresh_le.trans (Nat.le_succ _), fun y hy => ?_,
    ?_, ?_⟩
  · rw [Nodes.create_node]
    exact hr.count_le.trans_lt hm
  · rw [Nodes.create_node]
    exact hlater
  · rw [hold y (hy.trans_le hr.fresh_le)]
    exact hr.kept y hy
  · obtain ⟨above, created, base, below, rfl, rfl, hbase, hcreated⟩ := hr.shared
    refine ⟨x :: above, h'.fresh :: created, base, below, rfl, rfl, hbase, fun y hy => ?_⟩
    rcases List.mem_cons.1 hy with rfl | hy
    · exact hr.fresh_le
    · exact hcreated y hy
  · intro hs r W hW hrow
    unfold widthAt at hrow ⊢
    rw [Nodes.create_node]
    split at hrow
    next hin =>
      have hW' := hW
      rw [← Option.some.inj hrow] at hW'
      rw [hwide hs hW', if_pos ⟨hr.count_le.trans_lt hin.1, hin.2⟩]
      exact hrow
    next hout =>
      -- the row is one of those below the node
      have hrest := hr.wide hs r W hW hrow
      have hle := widthAt_le hr.lateral hrest
      rw [if_neg fun hin => absurd hin.1 (not_lt.2 hle)]
      rw [widthAt_congr fun y hy => hold y (hr.lateral.lt y hy)]
      exact hrest

/-- Whether the rest of the list has been replaced, by its pointer and by its nodes. -/
theorem Replaced.records_iff (hr : Replaced w h c l t h' l') (hl : Lateral h p c l) :
    records h' l' = records h l ↔ t.node = p := by
  constructor
  · intro he
    rw [← hr.lateral.head, records_inj he]
    exact hl.head
  · intro hp
    rw [hr.eq_of_node hl hp]
    exact records_congr fun x hx => hr.kept x (hl.lt x hx)

theorem UpdateTuple.update_stay {m : ℕ} (hr : Replaced w h (h.node x).nextCount l t h' l')
    (hx : x < h.fresh) (hl : Lateral h p c l) :
    (⟨m, some x, some x⟩ : UpdateTuple).update h' (x :: l) =
      ⟨m, ⟨x, (h.node x).width, (h.node x).nextCount⟩ :: records h l, h'.fresh⟩ := by
  unfold UpdateTuple.update
  rw [records_cons, hr.kept x hx, records_congr fun y hy => hr.kept y (hl.lt y hy)]

theorem UpdateTuple.update_copy {m width : ℕ} {b : Option ℕ} (hl : Lateral h' t.node t.count l') :
    (⟨m, some h'.fresh, b⟩ : UpdateTuple).update (h'.create t.node t.count width) (h'.fresh :: l') =
      ⟨m, ⟨h'.fresh, width, t.count⟩ :: records h' l', h'.fresh + 1⟩ := by
  unfold UpdateTuple.update
  rw [records_cons, Nodes.create_node, records_congr fun y hy => h'.create_of_lt _ _ _ (hl.lt y hy)]
  rfl

/-- What follows the recursive call, on the nodes and on their list. -/
theorem Replaced.step (hr : Replaced w h (h.node x).nextCount l t h' l') (hx : x < h.fresh)
    (hc : (h.node x).nextCount < c) (hl : Lateral h (h.node x).next (h.node x).nextCount l)
    (hlow : ¬ c < narrowerCount w) (hlimit : lowerNarrowerCount w = narrowerCount w)
    (hrec : replaceLateralNode w h.fresh (records h l) (h.node x).nextCount = t.update h' l') :
    ∃ l'', Replaced w h c (x :: l) (replaceAt w x c t h').1 (replaceAt w x c t h').2 l'' ∧
      replaceLateralNode w h.fresh (records h (x :: l)) c =
        (replaceAt w x c t h').1.update (replaceAt w x c t h').2 l'' := by
  have hle : lateralNewCount w c (narrowerCount w) (h.node x).width ≤ c := lateralNewCount_le
  have hwide : w.lastShift = 0 → w.putWidth < (h.node x).width →
      lateralNewCount w c (narrowerCount w) (h.node x).width = c := lateralNewCount_wide
  have hremove : lateralNewCount w c (narrowerCount w) (h.node x).width ≤ (h.node x).nextCount →
      Replaced w h c (x :: l) t h' l' := fun hlow => hr.remove hc fun hs hw => by
    rw [hwide hs hw] at hlow
    exact absurd hc (not_lt.2 hlow)
  simp only [replaceAt, records_cons, replaceLateralNode, if_neg hlow, hrec, UpdateTuple.update,
    hr.records_iff hl, hr.kept x hx, hlimit]
  generalize lateralNewCount w c (narrowerCount w) (h.node x).width = m at hle hwide hremove ⊢
  split
  next hsame =>
    exact ⟨_, hr.lower hx hl hsame.1 hsame.2.1 hc le_rfl fun _ _ => rfl,
      (UpdateTuple.update_stay hr hx hl).symm⟩
  next =>
    split
    next hsame => exact ⟨_, hremove hsame.2.2, rfl⟩
    next hkeep =>
      split
      next hsame =>
        have hm : (h.node x).nextCount < m := not_le.1 fun hm => hkeep ⟨hsame.1, hsame.2.1, hm⟩
        exact ⟨_, hr.lower hx hl hsame.1 hsame.2.1 hm hle hwide,
          (UpdateTuple.update_stay hr hx hl).symm⟩
      next =>
        split
        next hm => exact ⟨_, hremove hm, rfl⟩
        next hm => exact ⟨_, hr.copy (not_le.1 hm) hle hwide,
          (UpdateTuple.update_copy hr.lateral).symm⟩

end Step

/-! ### Whole lists -/

section Run

variable {w : Window} {h : Nodes} {p : Option ℕ} {c fuel : ℕ} {l : List ℕ}

theorem lowerNarrowerCount_eq (hdepth : 1 ≤ w.depth) (hle : w.depth ≤ w.max)
    (hmax : w.max < 2 ^ 32) :
    lowerNarrowerCount w = narrowerCount w := by
  unfold lowerNarrowerCount narrowerCount Window.bottom
  rw [Words.usub_of_le hle]
  omega

/-- The recursion stops at the last node at the latest. The model of the shared memory has the same
nodes. -/
theorem replaceNode_replaced (hlimit : lowerNarrowerCount w = narrowerCount w)
    (hl : Lateral h p c l) (hf : l.length ≤ fuel) :
    ∃ t h' l', replaceNode w fuel h p c = some (t, h') ∧ Replaced w h c l t h' l' ∧
      replaceLateralNode w h.fresh (records h l) c = t.update h' l' := by
  induction hl generalizing fuel with
  | @sentinel x hx hn =>
    have hlow : 0 < narrowerCount w := Nat.succ_pos _
    refine ⟨⟨0, some x, some x⟩, h, [x], ?_, .same (.sentinel hx hn), if_pos hlow⟩
    cases fuel <;> exact if_pos (hlimit ▸ hlow)
  | @node x c l hx hc hl ih =>
    cases fuel with
    | zero => exact absurd hf (Nat.not_succ_le_zero _)
    | succ fuel =>
      by_cases hlow : c < narrowerCount w
      · exact ⟨⟨c, some x, some x⟩, h, x :: l, if_pos (hlimit ▸ hlow), .same (.node hx hc hl),
          if_pos hlow⟩
      · obtain ⟨t, h', l', hrun, hr, hrec⟩ := ih (Nat.le_of_succ_le_succ hf)
        obtain ⟨l'', hstep, hlist⟩ := hr.step hx hc hl hlow hlimit hrec
        refine ⟨_, _, l'', ?_, hstep, hlist⟩
        rw [replaceNode, if_neg (hlimit ▸ hlow)]
        simp only [hrun, Option.map_some]

/-- The nodes above the base are left out of the new list. -/
theorem Lateral.notMem_of_above {l' above created below : List ℕ} {b : ℕ}
    (hl : Lateral h p c l) (he : l = above ++ b :: below) (he' : l' = created ++ b :: below)
    (hcreated : ∀ x ∈ created, h.fresh ≤ x) {x : ℕ} (hx : x ∈ above) : x ∉ l' := by
  subst he he'
  intro hm
  rcases List.mem_append.1 hm with hm | hm
  · exact absurd (hl.lt x (List.mem_append_left _ hx)) (not_lt.2 (hcreated x hm))
  · exact List.disjoint_of_nodup_append hl.nodup hx hm

end Run

/-- `replace_laterals` on a list whose rows decrease, with a window of depth at least 1 from row 0
on. -/
theorem replaceNodes_lateral (w : Window) (h : Nodes) (read new : NodeDescriptor) (l : List ℕ)
    (fuel : ℕ) (hdepth : 1 ≤ w.depth) (hle : w.depth ≤ w.max) (hmax : w.max < 2 ^ 32)
    (hl : Lateral h read.node read.count l) (hf : l.length ≤ fuel) :
    ∃ new' base h' l', replaceNodes w fuel h read new = some (new', some base, h') ∧
      Lateral h' new'.node new'.count l' ∧ new'.count ≤ read.count ∧
      (∀ x < h.fresh, h'.node x = h.node x) ∧
      (∃ above created below, l = above ++ base :: below ∧ l' = created ++ base :: below ∧
        ∀ x ∈ above, x ∉ l') ∧
      (w.lastShift = 0 → ∀ r W, w.putWidth < W → widthAt h r l read.count = some W →
        widthAt h' r l' new'.count = some W) := by
  obtain ⟨t, h', l', hrun, hr, -⟩ :=
    replaceNode_replaced (lowerNarrowerCount_eq hdepth hle hmax) hl hf
  obtain ⟨above, created, base, below, hl₁, hl₂, hbase, hcreated⟩ := hr.shared
  refine ⟨{ new with count := t.count, node := t.node }, base, h', l', ?_, hr.lateral, hr.count_le,
    hr.kept,
    ⟨above, created, below, hl₁, hl₂, fun x hx => Lateral.notMem_of_above hl hl₁ hl₂ hcreated hx⟩,
    hr.wide⟩
  unfold replaceNodes
  rw [hrun, ← hbase]
  rfl

/-- Two nodes over the last one: the lower one is lowered to row 4, and so the upper one is copied.
-/
def twoLaterals : Nodes where
  node
    | 0 => ⟨none, 0, 9⟩
    | 1 => ⟨some 0, 0, 2⟩
    | _ => ⟨some 1, 5, 4⟩
  fresh := 3

theorem replaceNodes_lateral_two : ∃ new' base h' l',
    replaceNodes ⟨5, 2, 3, 3, 3, 0, 0⟩ 3 twoLaterals ⟨some 2, 9, 0⟩ ⟨none, 0, 0⟩ = some
      (new', some base, h') ∧
      Lateral h' new'.node new'.count l' ∧ new'.count ≤ 9 ∧
      (∀ x < 3, h'.node x = twoLaterals.node x) ∧
      (∃ above created below, [2, 1, 0] = above ++ base :: below ∧ l' = created ++ base :: below ∧
        ∀ x ∈ above, x ∉ l') ∧
      ((0 : ℕ) = 0 → ∀ r W, 3 < W → widthAt twoLaterals r [2, 1, 0] 9 = some W →
        widthAt h' r l' new'.count = some W) :=
  replaceNodes_lateral ⟨5, 2, 3, 3, 3, 0, 0⟩ twoLaterals ⟨some 2, 9, 0⟩ ⟨none, 0, 0⟩ [2, 1, 0] 3
    (by decide) (by decide)
    (by decide) (.node (by decide) (by decide)
      (.node (by decide) (by decide) (.sentinel (by decide) rfl))) le_rfl

end ElasticLpwStack
