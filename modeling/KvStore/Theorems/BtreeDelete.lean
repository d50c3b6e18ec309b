import KvStore.Theorems.BtreeNode

/-! Deleting an item from a B-tree: a child that falls below the fewest items is merged with a sibling, or takes an item
    over from it through the parent. -/

namespace KvStore.Btree
open Ordered Weave Std

variable {α : Type} {b : Settings α} {h f i : Nat} {x : α} {items xs ys : List α} {children cs ds : List (Node α)}
  {node node' c c' l r : Node α} {act below : DelAct α} {res : MutResult α} {found : Option α}

/-! ### Rebalancing -/

/-- Two nodes of one height are both leaves or both branches. -/
theorem Node.Shape.pair (hl : l.Shape b h) (hr : r.Shape b h) :
    (∃ as bs, l = .leaf as ∧ r = .leaf bs) ∨
      ∃ k as bs cs ds, h = k + 1 ∧ l = .branch as cs ∧ r = .branch bs ds := by
  cases l <;> cases r <;> cases h <;> simp_all [Node.Shape]

theorem nodeJoin_shape (hl : l.Shape b h) (hr : r.Shape b h) (hroom : l.nitems + r.nitems < b.maxItems) (x : α) :
    ∃ node, nodeJoin l x r = some node ∧ node.toList = l.toList ++ x :: r.toList ∧ node.Shape b h ∧
      node.nitems = l.nitems + r.nitems + 1 := by
  rcases hl.pair hr with ⟨as, bs, rfl, rfl⟩ | ⟨k, as, bs, cs, ds, rfl, rfl, rfl⟩
  · obtain rfl := (Node.shape_leaf.mp hl).1
    simp only [Node.nitems, Node.items] at hroom
    refine ⟨_, rfl, rfl, Node.shape_leaf.mpr ⟨rfl, ?_⟩, by simp [Node.nitems, Node.items, Nat.add_assoc]⟩
    rw [List.length_append, List.length_cons]
    omega
  · obtain ⟨-, hcs, hchildren⟩ := Node.shape_branch.mp hl
    obtain ⟨-, hds, hchildren'⟩ := Node.shape_branch.mp hr
    simp only [Node.nitems, Node.items] at hroom
    refine ⟨_, rfl, ?_, Node.shape_branch.mpr ⟨?_, ?_, List.forall_mem_append.mpr ⟨hchildren, hchildren'⟩⟩,
      by simp [Node.nitems, Node.items, Nat.add_assoc]⟩
    · rw [Node.toList_branch, List.map_append, weave_cut (by rw [List.length_map, hcs]), Node.toList_branch,
        Node.toList_branch]
    · rw [List.length_append, List.length_cons]
      omega
    · rw [List.length_append, List.length_append, List.length_cons]
      omega

theorem moveRight_shape (hl : l.Shape b h) (hr : r.Shape b h) (hpos : 0 < l.nitems) (hroom : r.nitems < b.maxItems)
    (x : α) : ∃ l' y r', moveRight b l x r = some (l', y, r') ∧
      l'.toList ++ y :: r'.toList = l.toList ++ x :: r.toList ∧
      l'.Shape b h ∧ r'.Shape b h ∧ l'.nitems + 1 = l.nitems ∧ r'.nitems = r.nitems + 1 := by
  have hinsert : insertItem b r.items 0 x = some (x :: r.items) := by
    rw [insertItem, if_pos ⟨hroom, Nat.zero_le _⟩]
    rfl
  rcases hl.pair hr with ⟨as, bs, rfl, rfl⟩ | ⟨k, as, bs, cs, ds, rfl, rfl, rfl⟩
  · rcases List.eq_nil_or_concat' as with rfl | ⟨as, y, rfl⟩
    · exact absurd hpos (Nat.lt_irrefl 0)
    obtain ⟨rfl, hlen⟩ := Node.shape_leaf.mp hl
    refine ⟨.leaf as, y, .leaf (x :: bs), ?_, by simp, Node.shape_leaf.mpr ⟨rfl, ?_⟩, Node.shape_leaf.mpr ⟨rfl, hroom⟩,
      by simp [Node.nitems, Node.items], rfl⟩
    · rw [moveRight, hinsert]
      simp [Node.items, Node.nitems, erase_place]
    · rw [List.length_append] at hlen
      omega
  · rcases List.eq_nil_or_concat' as with rfl | ⟨as, y, rfl⟩
    · exact absurd hpos (Nat.lt_irrefl 0)
    obtain ⟨hlen, hcs, hchildren⟩ := Node.shape_branch.mp hl
    obtain ⟨-, hds, hchildren'⟩ := Node.shape_branch.mp hr
    rcases List.eq_nil_or_concat' cs with rfl | ⟨cs, c, rfl⟩
    · simp at hcs
    have hcs' : cs.length = as.length + 1 := by simpa using hcs
    rw [List.forall_mem_append, List.forall_mem_singleton] at hchildren
    refine ⟨.branch as cs, y, .branch (x :: bs) (c :: ds), ?_, ?_, Node.shape_branch.mpr ⟨?_, ?_, hchildren.1⟩,
      Node.shape_branch.mpr ⟨hroom, congrArg (· + 1) hds, List.forall_mem_cons.mpr ⟨hchildren.2, hchildren'⟩⟩,
      by simp [Node.nitems, Node.items], rfl⟩
    · rw [moveRight, hinsert]
      simp [Node.items, Node.nitems, erase_place, get_place hcs', erase_place hcs']
    · have hcut : weave (as ++ y :: []) (cs.map Node.toList ++ [c.toList]) = _ :=
        weave_cut (by rw [List.length_map, hcs'])
      simp only [Node.toList_branch, List.map_append, List.map_cons, List.map_nil, hcut]
      simp [weave]
    · rw [List.length_append] at hlen
      omega
    · exact hcs'

theorem moveLeft_shape (hl : l.Shape b h) (hr : r.Shape b h) (hpos : 0 < r.nitems) (hroom : l.nitems < b.maxItems)
    (x : α) : ∃ l' y r', moveLeft b l x r = some (l', y, r') ∧
      l'.toList ++ y :: r'.toList = l.toList ++ x :: r.toList ∧
      l'.Shape b h ∧ r'.Shape b h ∧ l'.nitems = l.nitems + 1 ∧ r'.nitems + 1 = r.nitems := by
  have hinsert : insertItem b l.items l.nitems x = some (l.items ++ [x]) := by
    rw [insertItem, if_pos ⟨hroom, le_rfl⟩, Node.nitems, List.insertIdx_length_self]
  rcases hl.pair hr with ⟨as, bs, rfl, rfl⟩ | ⟨k, as, bs, cs, ds, rfl, rfl, rfl⟩
  · cases bs with
    | nil => exact absurd hpos (Nat.lt_irrefl 0)
    | cons y bs =>
      obtain ⟨rfl, hlen⟩ := Node.shape_leaf.mp hr
      refine ⟨.leaf (as ++ [x]), y, .leaf bs, ?_, by simp, Node.shape_leaf.mpr ⟨rfl, by rwa [List.length_append]⟩,
        Node.shape_leaf.mpr ⟨rfl, (Nat.lt_of_succ_le hlen).le⟩, by simp [Node.nitems, Node.items], rfl⟩
      rw [moveLeft, hinsert]
      simp [Node.items]
  · cases bs with
    | nil => exact absurd hpos (Nat.lt_irrefl 0)
    | cons y bs =>
      obtain ⟨-, hcs, hchildren⟩ := Node.shape_branch.mp hl
      obtain ⟨hlen, hds, hchildren'⟩ := Node.shape_branch.mp hr
      obtain ⟨d, ds, rfl⟩ := List.exists_cons_of_length_eq_add_one hds
      rw [List.forall_mem_cons] at hchildren'
      refine ⟨.branch (as ++ [x]) (cs ++ [d]), y, .branch bs ds, ?_, ?_,
        Node.shape_branch.mpr ⟨by rwa [List.length_append], by simp [hcs], ?_⟩,
        Node.shape_branch.mpr ⟨(Nat.lt_of_succ_le hlen).le, Nat.succ.inj hds, hchildren'.2⟩,
        by simp [Node.nitems, Node.items], rfl⟩
      · rw [moveLeft, hinsert]
        simp [Node.items]
      · have hcut : weave (as ++ x :: []) (cs.map Node.toList ++ [d.toList]) = _ :=
          weave_cut (by rw [List.length_map, hcs])
        simp only [Node.toList_branch, List.map_append, List.map_cons, List.map_nil, hcut]
        simp [weave]
      · exact List.forall_mem_append.mpr ⟨hchildren, List.forall_mem_singleton.mpr hchildren'.1⟩

/-- Two neighbours of which one lacks an item, with the item between them. -/
theorem nodeRebalance_pair (hb : b.Ok) (hcs : cs.length = xs.length) (hds : ds.length = ys.length)
    (hlen : (xs ++ x :: ys).length ≤ b.maxItems) (hl : l.Shape b h) (hr : r.Shape b h)
    (hlack : l.nitems + 1 = b.minItems ∧ b.minItems ≤ r.nitems ∨ b.minItems ≤ l.nitems ∧ r.nitems + 1 = b.minItems)
    (hrest : ∀ d ∈ cs, d.Child b h) (hrest' : ∀ d ∈ ds, d.Child b h)
    (hi : (if i = (xs ++ x :: ys).length then i - 1 else i) = xs.length) :
    ∃ node, nodeRebalance b (xs ++ x :: ys) (cs ++ l :: r :: ds) i = some node ∧
      node.toList = before xs cs ++ (l.toList ++ x :: (r.toList ++ behind ys ds)) ∧ node.Shape b (h + 1) ∧
      (xs ++ x :: ys).length ≤ node.nitems + 1 := by
  have hmax := hb.maxItems
  have hmin := hb.minItems
  rw [List.length_append, List.length_cons] at hlen
  simp only [nodeRebalance, hi, get_place hcs, get_next hcs, get_place, Option.bind_eq_bind, Option.bind_some]
  by_cases hmerge : l.nitems + r.nitems < b.maxItems
  · obtain ⟨m, hjoin, hlist, hm, hcount⟩ := nodeJoin_shape hl hr hmerge x
    refine ⟨.branch (xs ++ ys) (cs ++ m :: ds), ?_, ?_,
      (Node.shape_focus hcs).mpr ⟨?_, hds, ⟨hm, ?_⟩, hrest, hrest'⟩, ?_⟩
    · rw [if_pos hmerge, hjoin, Option.bind_some, erase_place rfl, set_place hcs, erase_next hcs]
    · rw [Node.toList_focus hcs hds, hlist, List.append_assoc]
      rfl
    · rw [List.length_append]
      omega
    · omega
    · simp only [Node.nitems, Node.items, List.length_append, List.length_cons]
      omega
  · rw [if_neg hmerge]
    have hmove : ∃ l' y r', (if l.nitems > r.nitems then moveRight b l x r else moveLeft b l x r) = some (l', y, r') ∧
        l'.toList ++ y :: r'.toList = l.toList ++ x :: r.toList ∧ l'.Child b h ∧ r'.Child b h := by
      have hlle := hl.nitems_le
      have hrle := hr.nitems_le
      by_cases hgt : l.nitems > r.nitems
      · obtain ⟨l', y, r', hmove, hlist, hl', hr', hlc, hrc⟩ := moveRight_shape hl hr (by omega) (by omega) x
        exact ⟨l', y, r', by rw [if_pos hgt, hmove], hlist, ⟨hl', by omega⟩, hr', by omega⟩
      · obtain ⟨l', y, r', hmove, hlist, hl', hr', hlc, hrc⟩ := moveLeft_shape hl hr (by omega) (by omega) x
        exact ⟨l', y, r', by rw [if_neg hgt, hmove], hlist, ⟨hl', by omega⟩, hr', by omega⟩
    obtain ⟨l', y, r', hmove, hlist, hl', hr'⟩ := hmove
    have hds' : (r' :: ds).length = (y :: ys).length := congrArg (· + 1) hds
    refine ⟨.branch (xs ++ y :: ys) (cs ++ l' :: r' :: ds), ?_, ?_, (Node.shape_focus hcs).mpr ⟨?_, hds', hl', hrest,
      List.forall_mem_cons.mpr ⟨hr', hrest'⟩⟩, by simp [Node.nitems, Node.items]⟩
    · rw [hmove, Option.bind_some, set_place rfl, set_place hcs, set_next hcs]
    · have happend (l₁ l₂ : List α) (z : α) : l₁ ++ z :: (l₂ ++ behind ys ds) = (l₁ ++ z :: l₂) ++ behind ys ds := by
        simp
      rw [Node.toList_focus hcs hds', happend l.toList, ← hlist, ← happend]
      rfl
    · rw [List.length_append, List.length_cons]
      omega

/-- What `btree_node_delete` does to a branch after it has changed one of its children. -/
theorem settle_shape (hb : b.Ok) (hcs : cs.length = xs.length) (hds : ds.length = ys.length)
    (hpos : 0 < (xs ++ ys).length) (hlen : (xs ++ ys).length ≤ b.maxItems) (hc : c.Shape b h)
    (hlack : b.minItems ≤ c.nitems + 1) (hrest : ∀ d ∈ cs, d.Child b h) (hrest' : ∀ d ∈ ds, d.Child b h) :
    ∃ node, (if c.nitems < b.minItems then nodeRebalance b (xs ++ ys) (cs ++ c :: ds) xs.length
        else some (.branch (xs ++ ys) (cs ++ c :: ds))) = some node ∧
      node.toList = before xs cs ++ (c.toList ++ behind ys ds) ∧ node.Shape b (h + 1) ∧
      (xs ++ ys).length ≤ node.nitems + 1 := by
  by_cases hlt : c.nitems < b.minItems
  · have hlack' : c.nitems + 1 = b.minItems := by omega
    rw [if_pos hlt]
    cases ys with
    | cons y ys =>
      obtain ⟨d, ds, rfl⟩ := List.exists_cons_of_length_eq_add_one hds
      rw [List.forall_mem_cons] at hrest'
      exact nodeRebalance_pair hb hcs (Nat.succ.inj hds) hlen hc hrest'.1.1 (.inl ⟨hlack', hrest'.1.2⟩) hrest hrest'.2
        (if_neg (by simp))
    | nil =>
      obtain rfl := List.eq_nil_of_length_eq_zero hds
      rcases List.eq_nil_or_concat' xs with rfl | ⟨xs, x, rfl⟩
      · exact absurd hpos (Nat.lt_irrefl 0)
      rcases List.eq_nil_or_concat' cs with rfl | ⟨cs, l, rfl⟩
      · simp at hcs
      have hcs' : cs.length = xs.length := by simpa using hcs
      rw [List.forall_mem_append, List.forall_mem_singleton] at hrest
      have hpair := nodeRebalance_pair (i := (xs ++ [x]).length) (x := x) hb hcs' hds (by simpa using hlen) hrest.2.1 hc
        (.inr ⟨hrest.2.2, hlack'⟩) hrest.1 hrest' (by simp)
      have hbefore : before (xs ++ [x]) (cs ++ [l]) = before xs cs ++ (l.toList ++ [x]) := by
        rw [before, List.map_append, List.map_singleton, front_concat (by rw [List.length_map, hcs'])]
        rfl
      simpa [hbefore] using hpair
  · refine ⟨.branch (xs ++ ys) (cs ++ c :: ds), if_neg hlt, Node.toList_focus hcs hds, ?_, Nat.le_succ _⟩
    exact (Node.shape_focus hcs).mpr ⟨hlen, hds, ⟨hc, Nat.not_lt.mp hlt⟩, hrest, hrest'⟩

/-! ### What a deletion takes out -/

/-- The item that goes out of a list, and the list without it. -/
def DelAct.take (compare : α → α → Ordering) : DelAct α → List α → Option (α × List α)
  | .delKey key, l => (lookup compare key l).map fun x => (x, erase compare key l)
  | .popFront, l => l.head?.map fun x => (x, l.tail)
  | .popBack, l => l.getLast?.map fun x => (x, l.dropLast)
  | .popMax, l => l.getLast?.map fun x => (x, l.dropLast)

variable (b) in
/-- `btree_node_delete` gives this result and this node, with any hint. -/
def DeletesTo (f : Nat) (node : Node α) (act : DelAct α) (res : MutResult α) (node' : Node α) : Prop :=
  ∀ hint depth, ∃ hint', nodeDelete b f node act hint depth = some (res, node', hint')

variable (b) in
def DelPost (h : Nat) (node : Node α) (act : DelAct α) (res : MutResult α) (node' : Node α) : Prop :=
  match act.take b.compare node.toList with
  | none => res = .noChange ∧ node' = node
  | some (x, l) => res = .deleted x ∧ node'.toList = l ∧ node'.Shape b h ∧ node.nitems ≤ node'.nitems + 1

variable (b) in
def RoutesTo (items : List α) (children : List (Node α)) (act : DelAct α) (i : Nat) (below : DelAct α)
    (found : Option α) : Prop :=
  ∀ hint depth, ∃ hint', route b items children act hint depth = some (i, below, found, hint')

/-- The greatest item is popped from any list that has one. -/
theorem DelAct.take_popMax (compare : α → α → Ordering) {l : List α} (hl : l ≠ []) : ∃ x l', l = l' ++ [x] ∧
    DelAct.take compare .popMax l = some (x, l') := by
  rcases List.eq_nil_or_concat' l with rfl | ⟨l', x, rfl⟩
  · exact absurd rfl hl
  · exact ⟨x, l', rfl, by simp [DelAct.take]⟩

/-- Every branch has a sibling for each of its children. -/
theorem exists_sibling (hlen : children.length = items.length + 1) (hpos : 0 < items.length) (hi : i ≤ items.length) :
    ∃ d, children[if i = items.length then i - 1 else i + 1]? = some d := by
  have hlt : (if i = items.length then i - 1 else i + 1) < children.length := by
    split_ifs <;> omega
  exact ⟨_, List.getElem?_eq_getElem hlt⟩

section Branch
variable {popped prev : α} (hcs : cs.length = xs.length) (hds : ds.length = ys.length) (hpos : 0 < (xs ++ ys).length)
include hcs hds hpos

theorem sibling_focus : ∃ d, (cs ++ c :: ds)[if xs.length = (xs ++ ys).length then xs.length - 1 else xs.length + 1]? =
    some d :=
  exists_sibling (by simp only [List.length_append, List.length_cons]; omega) hpos (by simp)

theorem DeletesTo.unchanged (hr : RoutesTo b (xs ++ ys) (cs ++ c :: ds) act xs.length below none)
    (hc : DeletesTo b f c below .noChange c') :
    DeletesTo b (f + 1) (.branch (xs ++ ys) (cs ++ c :: ds)) act .noChange (.branch (xs ++ ys) (cs ++ c' :: ds)) := by
  intro hint depth
  obtain ⟨hint₁, hroute⟩ := hr hint depth
  obtain ⟨hint₂, hdel⟩ := hc hint₁ (depth + 1)
  obtain ⟨d, hd⟩ := sibling_focus (c := c) hcs hds hpos
  exact ⟨hint₂, by simp only [nodeDelete, hroute, get_place hcs, hd, hdel, set_place hcs, Option.bind_eq_bind,
    Option.bind_some]⟩

theorem DeletesTo.settled (hr : RoutesTo b (xs ++ ys) (cs ++ c :: ds) act xs.length below none)
    (hc : DeletesTo b f c below (.deleted popped) c')
    (hsettle : (if c'.nitems < b.minItems then nodeRebalance b (xs ++ ys) (cs ++ c' :: ds) xs.length
      else some (.branch (xs ++ ys) (cs ++ c' :: ds))) = some node) :
    DeletesTo b (f + 1) (.branch (xs ++ ys) (cs ++ c :: ds)) act (.deleted popped) node := by
  intro hint depth
  obtain ⟨hint₁, hroute⟩ := hr hint depth
  obtain ⟨hint₂, hdel⟩ := hc hint₁ (depth + 1)
  obtain ⟨d, hd⟩ := sibling_focus (c := c) hcs hds hpos
  exact ⟨hint₂, by simp only [nodeDelete, hroute, get_place hcs, hd, hdel, set_place hcs, Option.bind_eq_bind,
    Option.bind_some, hsettle]⟩

end Branch

/-- Below a node of height `h` the call has this result when it has this much fuel. -/
def DeletesAll (b : Settings α) (h : Nat) : Prop :=
  ∀ {f node}, node.Shape b h → Sorted b.compare node.toList → 0 < node.nitems → h + 1 ≤ f → ∀ act,
    ∃ res node', DeletesTo b f node act res node' ∧ DelPost b h node act res node'

/-- Where the call goes down with nothing found in the branch, the child decides. -/
theorem nodeDelete_below (hb : b.Ok) (ih : DeletesAll b h) (hcs : cs.length = xs.length)
    (hn : (Node.branch (xs ++ ys) (cs ++ c :: ds)).Shape b (h + 1))
    (hs : Sorted b.compare (Node.branch (xs ++ ys) (cs ++ c :: ds)).toList) (hpos : 0 < (xs ++ ys).length)
    (hf : h + 1 ≤ f) (hr : RoutesTo b (xs ++ ys) (cs ++ c :: ds) act xs.length below none)
    (htake : act.take b.compare (before xs cs ++ (c.toList ++ behind ys ds)) =
      (below.take b.compare c.toList).map fun (x, l) => (x, before xs cs ++ (l ++ behind ys ds))) :
    ∃ res node', DeletesTo b (f + 1) (.branch (xs ++ ys) (cs ++ c :: ds)) act res node' ∧
      DelPost b (h + 1) (.branch (xs ++ ys) (cs ++ c :: ds)) act res node' := by
  obtain ⟨hlen, hds, hc, hrest, hrest'⟩ := (Node.shape_focus hcs).mp hn
  obtain ⟨res, c', hdel, hpost⟩ := ih hc.1 (sorted_child hcs hds hs) (hc.pos hb) hf below
  rw [← Node.toList_focus hcs hds] at htake
  simp only [DelPost] at hpost ⊢
  cases hbelow : below.take b.compare c.toList with
  | none =>
    rw [hbelow] at hpost htake
    obtain ⟨rfl, rfl⟩ := hpost
    exact ⟨_, _, .unchanged hcs hds hpos hr hdel, by rw [htake]; exact ⟨rfl, rfl⟩⟩
  | some p =>
    obtain ⟨x, l⟩ := p
    rw [hbelow] at hpost htake
    obtain ⟨rfl, rfl, hc', hle⟩ := hpost
    obtain ⟨node', hsettle, hlist, hshape, hcount⟩ :=
      settle_shape hb hcs hds hpos hlen hc' (hc.2.trans hle) hrest hrest'
    exact ⟨_, _, .settled hcs hds hpos hr hdel hsettle, by rw [htake]; exact ⟨rfl, hlist, hshape, hcount⟩⟩

variable [TransCmp b.compare]

/-- An item found in a branch goes out, and the greatest item below it takes its place. -/
theorem nodeDelete_hit {key y : α} (hb : b.Ok) (ih : DeletesAll b h) (hx : ∀ x ∈ xs, b.compare key x = .gt)
    (heq : b.compare key y = .eq) (hy : ∀ x ∈ ys, b.compare key x = .lt)
    (hn : (Node.branch (xs ++ y :: ys) children).Shape b (h + 1))
    (hs : Sorted b.compare (Node.branch (xs ++ y :: ys) children).toList) (hf : h + 1 ≤ f) :
    ∃ res node', DeletesTo b (f + 1) (.branch (xs ++ y :: ys) children) (.delKey key) res node' ∧
      DelPost b (h + 1) (.branch (xs ++ y :: ys) children) (.delKey key) res node' := by
  have hfinds : Finds b.compare (xs ++ y :: ys) key xs.length true :=
    finds_splits (sorted_items hn hs) (by simp) (.hit hx heq hy)
  obtain ⟨cs, c, ds, rfl, hcs, hds⟩ := hn.place
  obtain ⟨hlen, -, hc, hrest, hrest'⟩ := (Node.shape_focus hcs).mp hn
  have hpos (w : α) : 0 < (xs ++ w :: ys).length := List.length_pos_of_ne_nil (by simp)
  obtain ⟨d, ds, rfl⟩ := List.exists_cons_of_length_eq_add_one hds
  obtain ⟨z, l, hlist, htake⟩ := DelAct.take_popMax b.compare (toList_ne_nil hc.1 (hc.pos hb))
  obtain ⟨res, c', hdel, hpost⟩ := ih hc.1 (sorted_child hcs hds hs) (hc.pos hb) hf .popMax
  simp only [DelPost, htake] at hpost
  obtain ⟨rfl, hc'list, hc', hle⟩ := hpost
  have hds' : (d :: ds).length = (z :: ys).length := hds
  obtain ⟨node', hsettle, hnode', hshape, hcount⟩ := settle_shape hb hcs hds' (hpos z)
    (by simpa using hlen) hc' (hc.2.trans hle) hrest hrest'
  refine ⟨.deleted y, node', fun hint depth => ?_, ?_⟩
  · obtain ⟨hint₁, hsearch⟩ := hfinds hint depth
    obtain ⟨hint₂, hcall⟩ := hdel hint₁ (depth + 1)
    obtain ⟨e, he⟩ := sibling_focus (c := c) hcs hds (hpos y)
    refine ⟨hint₂, ?_⟩
    have hroute : route b (xs ++ y :: ys) (cs ++ c :: d :: ds) (.delKey key) hint depth =
        some (xs.length, .popMax, some y, hint₁) := by
      simp only [route, target, Node.items, hsearch, get_place, Option.bind_eq_bind, Option.bind_some]
    simp only [nodeDelete, hroute, get_place hcs, he, hcall, set_place hcs, set_place, Option.bind_eq_bind,
      Option.bind_some, hsettle]
  · have hwhole : (Node.branch (xs ++ y :: ys) (cs ++ c :: d :: ds)).toList =
        (before xs cs ++ c.toList) ++ y :: (d.toList ++ behind ys ds) := by
      rw [Node.toList_focus hcs hds, List.append_assoc]
      rfl
    rw [hwhole] at hs
    have haround := hs.around (k := key)
    have hgt := haround.1 (by simp [heq])
    have hlt := haround.2 (by simp [heq])
    rw [DelPost, hwhole, DelAct.take, lookup_hit hgt hlt heq, erase_hit hgt hlt heq, Option.map_some]
    refine ⟨rfl, ?_, hshape, by simpa [Node.nitems, Node.items] using hcount⟩
    rw [hnode', hc'list, hlist]
    simp [behind, back]

omit [TransCmp b.compare] in
theorem routesTo_popBack (items : List α) (children : List (Node α)) :
    RoutesTo b items children .popBack items.length .popBack none := fun hint _ => ⟨hint, rfl⟩

omit [TransCmp b.compare] in
theorem routesTo_popMax (hpos : 0 < items.length) (children : List (Node α)) :
    RoutesTo b items children .popMax items.length .popMax none := fun hint _ =>
  ⟨hint, by simp [route, target, Node.nitems, Node.items, Nat.sub_add_cancel hpos]⟩

omit [TransCmp b.compare] in
/-- The last item of a branch is the last one of its last child. -/
theorem nodeDelete_last (hb : b.Ok) (ih : DeletesAll b h) (hn : (Node.branch items children).Shape b (h + 1))
    (hs : Sorted b.compare (Node.branch items children).toList) (hpos : 0 < (Node.branch items children).nitems)
    (hf : h + 1 ≤ f) (hr : ∀ children, RoutesTo b items children act items.length below none)
    (hact : act.take b.compare = DelAct.popMax.take b.compare)
    (hbelow : below.take b.compare = DelAct.popMax.take b.compare) : ∃ res node',
      DeletesTo b (f + 1) (.branch items children) act res node' ∧
      DelPost b (h + 1) (.branch items children) act res node' := by
  have hlen : 0 < items.length := hpos
  rw [← List.append_nil items] at hn hs hlen ⊢
  obtain ⟨cs, c, ds, rfl, hcs, hds⟩ := hn.place
  obtain rfl := List.eq_nil_of_length_eq_zero hds
  have hc := ((Node.shape_focus hcs).mp hn).2.2.1
  obtain ⟨x, l, hlist, htake⟩ := DelAct.take_popMax b.compare (toList_ne_nil hc.1 (hc.pos hb))
  have hroute : RoutesTo b (items ++ []) (cs ++ c :: []) act items.length below none := by
    rw [List.append_nil]
    exact hr _
  refine nodeDelete_below hb ih hcs hn hs hlen hf hroute ?_
  rw [hact, hbelow, htake, hlist]
  simp [DelAct.take, behind, ← List.append_assoc]

theorem deletesAll_branch (hb : b.Ok) (ih : DeletesAll b h) : DeletesAll b (h + 1) := by
  intro f node hn hs hpos hf act
  cases node with
  | leaf items => exact hn.elim
  | branch items children =>
    obtain ⟨f, rfl⟩ := Nat.exists_eq_add_of_le' (Nat.le_of_add_left_le hf)
    have hlen : 0 < items.length := hpos
    cases act with
    | delKey key =>
      obtain ⟨i, found, hsplits⟩ := (sorted_items hn hs).splits key
      cases hsplits with
      | hit hx heq hy => exact nodeDelete_hit hb ih hx heq hy hn hs (by omega)
      | @miss xs ys hx hy =>
        have hfinds : Finds b.compare (xs ++ ys) key xs.length false :=
          finds_splits (sorted_items hn hs) (List.ne_nil_of_length_pos hpos) (.miss hx hy)
        obtain ⟨cs, c, ds, rfl, hcs, hds⟩ := hn.place
        have hgt := gt_before hcs hds hs hx
        have hlt := lt_behind hcs hds hs hy
        have hroute : RoutesTo b (xs ++ ys) (cs ++ c :: ds) (.delKey key) xs.length (.delKey key) none := by
          intro hint depth
          obtain ⟨hint', hsearch⟩ := hfinds hint depth
          exact ⟨hint', by simp only [route, target, Node.items, hsearch, Option.bind_eq_bind, Option.bind_some]⟩
        refine nodeDelete_below hb ih hcs hn hs hlen (by omega) hroute ?_
        rw [DelAct.take, DelAct.take, lookup_frame hgt hlt, erase_frame hgt hlt, Option.map_map]
        rfl
    | popFront =>
      rw [← List.nil_append items] at hn hs hlen ⊢
      obtain ⟨cs, c, ds, rfl, hcs, hds⟩ := hn.place
      obtain rfl := List.eq_nil_of_length_eq_zero hcs
      have hc := ((Node.shape_focus hcs).mp hn).2.2.1
      obtain ⟨x, l, hlist⟩ := List.exists_cons_of_ne_nil (toList_ne_nil hc.1 (hc.pos hb))
      have hroute : RoutesTo b ([] ++ items) ([] ++ c :: ds) .popFront 0 .popFront none := fun hint _ => ⟨hint, rfl⟩
      refine nodeDelete_below hb ih hcs hn hs hlen (by omega) hroute ?_
      simp [DelAct.take, hlist, before]
    | popBack => exact nodeDelete_last hb ih hn hs hpos (by omega) (routesTo_popBack items) rfl rfl
    | popMax => exact nodeDelete_last hb ih hn hs hpos (by omega) (routesTo_popMax hlen) rfl rfl

omit [TransCmp b.compare] in
theorem nodeDelete_leaf_hit (hn : (Node.leaf (xs ++ x :: ys)).Shape b 0)
    (htake : act.take b.compare (xs ++ x :: ys) = some (x, xs ++ ys))
    (htarget : ∀ hint depth, ∃ hint', target b (.leaf (xs ++ x :: ys)) act hint depth = some (xs.length, true, hint')) :
    ∃ res node', DeletesTo b (f + 1) (.leaf (xs ++ x :: ys)) act res node' ∧
      DelPost b 0 (.leaf (xs ++ x :: ys)) act res node' := by
  refine ⟨.deleted x, .leaf (xs ++ ys), fun hint depth => ?_, ?_⟩
  · obtain ⟨hint', ht⟩ := htarget hint depth
    exact ⟨hint', by simp only [nodeDelete, ht, Option.bind_eq_bind, Option.bind_some, if_true, get_place, erase_place]⟩
  · have hlen := (Node.shape_leaf.mp hn).2
    simp only [DelPost, Node.toList_leaf, htake]
    refine ⟨trivial, trivial, Node.shape_leaf.mpr ⟨rfl, ?_⟩, by simp [Node.nitems, Node.items, Nat.add_assoc]⟩
    rw [List.length_append, List.length_cons] at hlen
    rw [List.length_append]
    omega

theorem deletesAll_leaf : DeletesAll b 0 := by
  intro f node hn hs hpos hf act
  cases node with
  | branch items children => exact hn.elim
  | leaf items =>
    obtain ⟨f, rfl⟩ := Nat.exists_eq_add_of_le' hf
    have hne : items ≠ [] := List.ne_nil_of_length_pos hpos
    cases act with
    | delKey key =>
      obtain ⟨i, found, hsplits⟩ := Sorted.splits hs key
      have hfinds := finds_splits hs hne hsplits
      cases hsplits with
      | hit hx heq hy =>
        exact nodeDelete_leaf_hit hn (by rw [DelAct.take, lookup_hit hx hy heq, erase_hit hx hy heq]; rfl) hfinds
      | @miss xs ys hx hy =>
        have htake : DelAct.take b.compare (.delKey key) (xs ++ ys) = none := by
          rw [DelAct.take, lookup_miss hx hy]
          rfl
        refine ⟨.noChange, .leaf (xs ++ ys), fun hint depth => ?_, ?_⟩
        · obtain ⟨hint', hsearch⟩ := hfinds hint depth
          have hsearch' : search b.compare (xs ++ ys) key hint depth = some (xs.length, false, hint') := hsearch
          exact ⟨hint', by simp [nodeDelete, target, Node.items, hsearch']⟩
        · change DelPost b 0 (.leaf (xs ++ ys)) _ _ _
          rw [DelPost, Node.toList_leaf, htake]
          exact ⟨rfl, rfl⟩
    | popFront =>
      obtain ⟨x, l, rfl⟩ := List.exists_cons_of_ne_nil hne
      have hn' : (Node.leaf ([] ++ x :: l)).Shape b 0 := hn
      exact nodeDelete_leaf_hit hn' rfl fun hint _ => ⟨hint, rfl⟩
    | popBack =>
      rcases List.eq_nil_or_concat' items with rfl | ⟨l, x, rfl⟩
      · exact absurd rfl hne
      exact nodeDelete_leaf_hit hn (by simp [DelAct.take]) fun hint _ =>
        ⟨hint, by simp [target, Node.isLeaf, Node.nitems, Node.items]⟩
    | popMax =>
      rcases List.eq_nil_or_concat' items with rfl | ⟨l, x, rfl⟩
      · exact absurd rfl hne
      exact nodeDelete_leaf_hit hn (by simp [DelAct.take]) fun hint _ =>
        ⟨hint, by simp [target, Node.nitems, Node.items]⟩

/-- Deleting an item below any node of the tree. -/
theorem deletesAll (hb : b.Ok) : ∀ h, DeletesAll b h
  | 0 => deletesAll_leaf
  | h + 1 => deletesAll_branch hb (deletesAll hb h)

/-! ### Deleting an item from a tree -/

section Tree
variable {t : Btree α}

/-- What a deletion leaves of a list, and what it takes out. -/
theorem DelAct.take_cases {compare : α → α → Ordering} [TransCmp compare] {l : List α} (hs : Sorted compare l)
    (act : DelAct α) : act.take compare l = none ∨
      ∃ x l', act.take compare l = some (x, l') ∧ Sorted compare l' ∧ l.length = l'.length + 1 := by
  cases act with
  | delKey key =>
    have hlength := hs.length_erase key
    cases hfind : lookup compare key l with
    | none => exact Or.inl (by rw [DelAct.take, hfind]; rfl)
    | some x =>
      rw [hfind, if_neg (Option.some_ne_none x)] at hlength
      exact Or.inr ⟨x, _, by rw [DelAct.take, hfind]; rfl, hs.erase key, hlength⟩
  | popFront =>
    cases l with
    | nil => exact Or.inl rfl
    | cons x l => exact Or.inr ⟨x, l, rfl, (sorted_cons.mp hs).2, rfl⟩
  | _ =>
    rcases List.eq_nil_or_concat' l with rfl | ⟨l, x, rfl⟩
    · exact Or.inl rfl
    · exact Or.inr ⟨x, l, by simp [DelAct.take], (sorted_append.mp hs).1, by simp⟩

/-- The call takes out what the list gives, and nothing when the list gives nothing. -/
structure DelOutcome (b : Settings α) (l : List α) (act : DelAct α) (t' : Btree α) (prev : Option α) : Prop where
  valid : Valid b t'
  oom : t'.oom = false
  prev : prev = (act.take b.compare l).map Prod.fst
  toList : t'.toList = ((act.take b.compare l).map Prod.snd).getD l

section Root
variable {root root' : Node α} {n : Nat} {oom : Bool}

omit [TransCmp b.compare] in
theorem delete0_keep {hint hint' : Option Hint}
    (hdel : nodeDelete b (h + 1) root act hint 0 = some (.deleted x, root', hint')) (hpos : 0 < root'.nitems) :
    delete0 b ⟨some root, n, h + 1, oom⟩ act hint = some (⟨some root', n - 1, h + 1, false⟩, some x, hint') := by
  simp only [delete0, hdel, Option.bind_eq_bind, Option.bind_some]
  split
  · exact absurd hpos (Nat.lt_irrefl 0)
  · exact absurd hpos (Nat.lt_irrefl 0)
  · rfl

omit [TransCmp b.compare] in
/-- A root that has lost its last item gives way to its child. -/
theorem shrink_root (hb : b.Ok) (hdel : DeletesTo b (h + 1) root act (.deleted x) root') (hshape : root'.Shape b h)
    (hs : Sorted b.compare root'.toList) (hcount : n - 1 = root'.toList.length) : ∃ t' : Btree α,
      (∀ hint, ∃ hint', delete0 b ⟨some root, n, h + 1, oom⟩ act hint = some (t', some x, hint')) ∧ Valid b t' ∧
      t'.oom = false ∧ t'.toList = root'.toList := by
  have hcall (hint : Option Hint) : ∃ hint', nodeDelete b (h + 1) root act hint 0 = some (.deleted x, root', hint') :=
    hdel hint 0
  by_cases hpos : 0 < root'.nitems
  · refine ⟨⟨some root', root'.toList.length, h + 1, false⟩, fun hint => ?_, valid_root.mpr ⟨hshape, hpos, hs, rfl⟩,
      rfl, rfl⟩
    obtain ⟨hint', hcall⟩ := hcall hint
    exact ⟨hint', hcount ▸ delete0_keep hcall hpos⟩
  · have hnil : root'.items = [] := List.eq_nil_of_length_eq_zero (Nat.eq_zero_of_not_pos hpos)
    cases root' with
    | leaf items =>
      obtain rfl : items = [] := hnil
      obtain rfl := (Node.shape_leaf.mp hshape).1
      refine ⟨⟨none, 0, 0, false⟩, fun hint => ?_, new_valid b, rfl, rfl⟩
      obtain ⟨hint', hcall⟩ := hcall hint
      refine ⟨hint', ?_⟩
      simp only [delete0, hcall, Option.bind_eq_bind, Option.bind_some, hcount]
      rfl
    | branch items children =>
      obtain rfl : items = [] := hnil
      cases h with
      | zero => exact hshape.elim
      | succ h =>
        obtain ⟨-, hlen, hchildren⟩ := Node.shape_branch.mp hshape
        obtain ⟨c, rfl⟩ := List.length_eq_one_iff.mp hlen
        have hc := hchildren c List.mem_cons_self
        have hlist : (Node.branch [] [c]).toList = c.toList := by
          rw [Node.toList_branch]
          rfl
        rw [hlist] at hs hcount ⊢
        refine ⟨⟨some c, c.toList.length, h + 1, false⟩, fun hint => ?_, valid_root.mpr ⟨hc.1, hc.pos hb, hs, rfl⟩, rfl,
          rfl⟩
        obtain ⟨hint', hcall⟩ := hcall hint
        exact ⟨hint', by simp [delete0, hcall, hcount]⟩

end Root

/-- `btree_delete` on a valid tree: the outcome is the same with any hint. -/
theorem delete0_valid (hb : b.Ok) (ht : Valid b t) (act : DelAct α) : ∃ t' prev,
    (∀ hint, ∃ hint', delete0 b t act hint = some (t', prev, hint')) ∧ DelOutcome b t.toList act t' prev := by
  rcases ht.cases with ht | ⟨root, h, ht, hshape, hpos, hs⟩
  · have htake : act.take b.compare t.toList = none := by
      rw [ht]
      cases act <;> rfl
    rw [ht] at htake ⊢
    exact ⟨⟨none, 0, 0, false⟩, none, fun hint => ⟨hint, rfl⟩, new_valid b, rfl, by rw [htake]; rfl, by rw [htake]; rfl⟩
  · obtain ⟨res, root', hdel, hpost⟩ := deletesAll hb h hshape hs hpos le_rfl act
    have hlist : t.toList = root.toList := by
      rw [ht]
      rfl
    rw [hlist, ht]
    rcases DelAct.take_cases hs act with htake | ⟨x, l, htake, hl, hlength⟩
    · rw [DelPost, htake] at hpost
      obtain ⟨rfl, rfl⟩ := hpost
      refine ⟨⟨some root', root'.toList.length, h + 1, false⟩, none, fun hint => ?_,
        valid_root.mpr ⟨hshape, hpos, hs, rfl⟩, rfl, by rw [htake]; rfl, by rw [htake]; rfl⟩
      obtain ⟨hint', hcall⟩ := hdel hint 0
      exact ⟨hint', by simp only [delete0, hcall, Option.bind_eq_bind, Option.bind_some]⟩
    · rw [DelPost, htake] at hpost
      obtain ⟨rfl, rfl, hshape', -⟩ := hpost
      have hcount : root.toList.length - 1 = root'.toList.length := by rw [hlength, Nat.add_sub_cancel]
      obtain ⟨t', hcall, hvalid, hoom, hlist'⟩ := shrink_root hb hdel hshape' hl hcount
      exact ⟨t', some x, hcall, hvalid, hoom, by rw [htake]; rfl, by rw [htake]; exact hlist'⟩

/-! ### Popping an item -/

/-- When the loop finds a spare item, `btree_node_delete` takes it out in the same way. -/
def PopsAs (b : Settings α) (loop : Nat → Node α → Option (Option (α × Node α))) (act : DelAct α) : Prop :=
  ∀ {h node}, node.Shape b h → 0 < node.nitems → ∃ res, loop (h + 1) node = some res ∧
    ∀ x node', res = some (x, node') → (node'.nitems = node.nitems ∨ b.minItems ≤ node'.nitems) ∧
      DeletesTo b (h + 1) node act (.deleted x) node'

omit [TransCmp b.compare] in
theorem popMinLoop_delete (hb : b.Ok) : PopsAs b (popMinLoop b) .popFront := by
  intro h
  induction h with
  | zero =>
    intro node hn hpos
    cases node with
    | branch items children => exact hn.elim
    | leaf items =>
      rw [popMinLoop]
      by_cases hgt : items.length > b.minItems
      · obtain ⟨x, items, rfl⟩ := List.exists_cons_of_length_pos hpos
        refine ⟨some (x, .leaf items), by rw [if_pos hgt]; rfl, ?_⟩
        rintro _ _ ⟨⟩
        exact ⟨.inr (Nat.lt_succ_iff.mp hgt), fun hint _ => ⟨hint, rfl⟩⟩
      · exact ⟨none, by rw [if_neg hgt], by simp⟩
  | succ h ih =>
    intro node hn hpos
    cases node with
    | leaf items => exact hn.elim
    | branch items children =>
      have hn' : (Node.branch ([] ++ items) children).Shape b (h + 1) := hn
      obtain ⟨cs, c, ds, rfl, hcs, hds⟩ := hn'.place
      obtain rfl := List.eq_nil_of_length_eq_zero hcs
      obtain ⟨-, -, hc, -⟩ := (Node.shape_focus hcs).mp hn'
      obtain ⟨res, hloop, hres⟩ := ih hc.1 (hc.pos hb)
      refine ⟨res.map fun p => (p.1, .branch items (p.2 :: ds)), ?_, ?_⟩
      · rw [popMinLoop]
        simp only [List.nil_append, List.getElem?_cons_zero, Option.bind_eq_bind, Option.bind_some, hloop,
          List.set_cons_zero]
      · rintro x node' hnode
        obtain ⟨⟨_, c'⟩, rfl, hpair⟩ := Option.map_eq_some_iff.mp hnode
        obtain ⟨rfl, rfl⟩ := Prod.mk.inj hpair
        obtain ⟨hcount, hdel⟩ := hres _ c' rfl
        have hle : b.minItems ≤ c'.nitems := hcount.elim (fun heq => heq ▸ hc.2) id
        refine ⟨.inl rfl, ?_⟩
        have hroute : RoutesTo b ([] ++ items) ([] ++ c :: ds) .popFront 0 .popFront none := fun hint _ => ⟨hint, rfl⟩
        exact .settled hcs hds hpos hroute hdel (if_neg (Nat.not_lt.mpr hle))

omit [TransCmp b.compare] in
theorem popMaxLoop_delete (hb : b.Ok) : PopsAs b (popMaxLoop b) .popBack := by
  intro h
  induction h with
  | zero =>
    intro node hn hpos
    cases node with
    | branch items children => exact hn.elim
    | leaf items =>
      rw [popMaxLoop]
      by_cases hgt : items.length > b.minItems
      · rcases List.eq_nil_or_concat' items with rfl | ⟨items, x, rfl⟩
        · exact absurd hpos (Nat.lt_irrefl 0)
        have hlast : (items ++ [x])[(items ++ [x]).length - 1]? = some x := by simp
        have herase : (items ++ [x]).eraseIdx ((items ++ [x]).length - 1) = items := by
          have hplace : (items ++ x :: []).eraseIdx ((items ++ [x]).length - 1) = items ++ [] := erase_place (by simp)
          rwa [List.append_nil] at hplace
        refine ⟨some (x, .leaf items), by rw [if_pos hgt, hlast, herase]; rfl, ?_⟩
        rintro _ _ ⟨⟩
        rw [List.length_append] at hgt
        refine ⟨.inr (Nat.lt_succ_iff.mp hgt), fun hint depth => ⟨hint, ?_⟩⟩
        have htarget : target b (.leaf (items ++ [x])) .popBack hint depth =
          some ((items ++ [x]).length - 1, true, hint) := rfl
        simp only [nodeDelete, htarget, Option.bind_eq_bind, Option.bind_some, if_true, hlast, herase]
      · exact ⟨none, by rw [if_neg hgt], by simp⟩
  | succ h ih =>
    intro node hn hpos
    cases node with
    | leaf items => exact hn.elim
    | branch items children =>
      have hpos' : 0 < (items ++ []).length := by rwa [List.append_nil]
      have hn' := hn
      rw [← List.append_nil items] at hn'
      obtain ⟨cs, c, ds, rfl, hcs, hds⟩ := hn'.place
      obtain rfl := List.eq_nil_of_length_eq_zero hds
      obtain ⟨-, -, hc, -⟩ := (Node.shape_focus hcs).mp hn'
      obtain ⟨res, hloop, hres⟩ := ih hc.1 (hc.pos hb)
      refine ⟨res.map fun p => (p.1, .branch items (cs ++ [p.2])), ?_, ?_⟩
      · rw [popMaxLoop]
        simp only [get_place hcs, Option.bind_eq_bind, Option.bind_some, hloop, set_place hcs]
      · rintro x node' hnode
        obtain ⟨⟨_, c'⟩, rfl, hpair⟩ := Option.map_eq_some_iff.mp hnode
        obtain ⟨rfl, rfl⟩ := Prod.mk.inj hpair
        obtain ⟨hcount, hdel⟩ := hres _ c' rfl
        have hle : b.minItems ≤ c'.nitems := hcount.elim (fun heq => heq ▸ hc.2) id
        have hroute : RoutesTo b (items ++ []) (cs ++ [c]) .popBack items.length .popBack none := by
          rw [List.append_nil]
          exact routesTo_popBack items _
        have hdel' := DeletesTo.settled hcs hds hpos' hroute hdel (if_neg (Nat.not_lt.mpr hle))
        rw [List.append_nil] at hdel'
        exact ⟨.inl rfl, hdel'⟩

omit [TransCmp b.compare] in
/-- `btree_pop_min` and `btree_pop_max` do what `btree_delete0` does. -/
theorem pop_eq_delete0 {loop : Nat → Node α → Option (Option (α × Node α))} (hb : b.Ok) (ht : Valid b t)
    (hloop : PopsAs b loop act) : pop b loop act t = (delete0 b t act none).map fun (t, prev, _) => (t, prev) := by
  rcases ht.cases with ht | ⟨root, h, ht, hshape, hpos, -⟩
  · rw [ht]
    rfl
  · obtain ⟨res, hcall, hres⟩ := hloop hshape hpos
    rw [ht, pop]
    simp only [hcall, Option.bind_eq_bind, Option.bind_some]
    cases res with
    | none =>
      have hsame : delete0 b ⟨some root, root.toList.length, h + 1, t.oom⟩ act none =
        delete0 b ⟨some root, root.toList.length, h + 1, false⟩ act none := rfl
      rw [hsame]
      cases delete0 b ⟨some root, root.toList.length, h + 1, false⟩ act none <;> rfl
    | some p =>
      obtain ⟨x, root'⟩ := p
      obtain ⟨hcount, hdel⟩ := hres x root' rfl
      have hpos' : 0 < root'.nitems := hcount.elim (fun heq => heq ▸ hpos) hb.minItems.trans_le
      obtain ⟨hint', hcall'⟩ := hdel none 0
      have hkeep : delete0 b ⟨some root, root.toList.length, h + 1, t.oom⟩ act none = some (_, some x, hint') :=
        delete0_keep hcall' hpos'
      rw [hkeep]
      rfl

end Tree

end KvStore.Btree
